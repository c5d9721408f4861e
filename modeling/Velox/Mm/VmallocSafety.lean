import Velox.Mm.PageMap
import Velox.Mm.VmallocBacking

namespace Velox

open Lib (Range Covers Separated)

variable {paging : Paging} {aligned : Nat} {left : List Range}

section FreeList

variable {free left : List Range} {start size limit : Nat}

private theorem rangeEnd_eq (fits : start + size < 2 ^ 64) : rangeEnd start size = start + size := by
  simp only [rangeEnd, Nat.mod_eq_of_lt fits]
  split <;> omega

/-- Below the top of the address space the merging loop joins plain ranges. -/
private theorem mergeFrom_eq {range : Range}
    (fits : ∀ other ∈ range :: rest, other.start + other.size < 2 ^ 64)
    (sorted : (range :: rest).Pairwise (·.start ≤ ·.start)) :
    mergeFrom range rest = Lib.coalesceFrom range rest := by
  induction rest generalizing range with
  | nil => rfl
  | cons next rest ih =>
    have first := fits range List.mem_cons_self
    have second := fits next (by simp)
    simp only [mergeFrom, Lib.coalesceFrom, rangeEnd_eq first, rangeEnd_eq second]
    grind [Lib.sorted_widen]

/-- The free ranges of a region: separated, made of whole pages, below its end. -/
structure FreeRanges (limit : Nat) (free : List Range) : Prop where
  separated : Separated free
  aligned : ∀ range ∈ free, 4096 ∣ range.start ∧ 4096 ∣ range.size
  below : ∀ range ∈ free, range.start + range.size ≤ limit

theorem FreeRanges.of_covers (separated : Separated free)
    (aligned : ∀ range ∈ free, 4096 ∣ range.start ∧ 4096 ∣ range.size)
    (covered : ∀ point, Covers free point → point < limit) : FreeRanges limit free := by
  refine ⟨separated, aligned, fun range member => ?_⟩
  have positive := separated.positive range member
  have last := covered (range.start + range.size - 1) ⟨range, member, by omega, by omega⟩
  omega

/-- Giving a range back joins it with the ranges that it touches. -/
theorem vmallocFreeRange_coalesces (separated : Separated free) (below : ∀ range ∈ free, range.start + range.size ≤ limit)
    (fits : limit < 2 ^ 64) (positive : 0 < size) (inside : start + size ≤ limit) (done : vmallocFreeRange free start size = .ok left) :
    left = Lib.coalesce (Lib.insertRange ⟨start, size⟩ free) := by
  have sorted := Lib.insertRange_sorted ⟨start, size⟩ separated.sorted
  have members : ∀ range ∈ Lib.insertRange ⟨start, size⟩ free, range = ⟨start, size⟩ ∨ range ∈ free :=
    fun range member => (List.mem_orderedInsert _).mp member
  simp only [vmallocFreeRange, Nat.ne_of_gt positive, ↓reduceIte] at done
  split at done
  · cases done
  · cases inserted : Lib.insertRange ⟨start, size⟩ free with
    | nil =>
      rw [inserted] at done
      cases done
      rfl
    | cons first rest =>
      rw [inserted] at done sorted members
      cases done
      refine mergeFrom_eq ?_ sorted
      grind

theorem vmallocFreeRange_ok (ranges : FreeRanges limit free) (fits : limit < 2 ^ 64) (positive : 0 < size)
    (pages : 4096 ∣ start ∧ 4096 ∣ size) (inside : start + size ≤ limit)
    (done : vmallocFreeRange free start size = .ok left) :
    FreeRanges limit left ∧ ∀ point, Covers left point ↔ (⟨start, size⟩ : Range).Contains point ∨ Covers free point := by
  have sorted := Lib.insertRange_sorted ⟨start, size⟩ ranges.separated.sorted
  have merged := vmallocFreeRange_coalesces ranges.separated ranges.below fits positive inside done
  obtain ⟨separated, covered⟩ := Lib.coalesce_insertRange ⟨start, size⟩ ranges.separated positive
  rw [← merged] at separated covered
  refine ⟨.of_covers separated ?_ ?_, covered⟩
  · rw [merged]
    apply Lib.coalesce_aligned sorted
    intro range member
    rcases (List.mem_orderedInsert _).mp member with rfl | earlier
    · exact pages
    · exact ranges.aligned range earlier
  · intro point inside'
    rcases (covered point).mp inside' with new | ⟨range, member, old⟩
    · exact Nat.lt_of_lt_of_le new.2 inside
    · exact Nat.lt_of_lt_of_le old.2 (ranges.below range member)

private theorem firstFit_split (below : ∀ range ∈ free, range.start + range.size < 2 ^ 64)
    (found : firstFit aligned free = some (addr, left)) :
    ∃ before range after, free = before ++ range :: after ∧ aligned ≤ range.size ∧ addr = range.start ∧
      left = before ++ Lib.carve range aligned after := by
  induction free generalizing left with
  | nil => cases found
  | cons range rest ih =>
    simp only [firstFit] at found
    split at found
    · obtain ⟨⟨addr', left'⟩, found', same⟩ := Option.map_eq_some_iff.mp found
      grind
    · rename_i enough
      refine ⟨[], range, rest, rfl, Nat.not_lt.mp enough, ?_⟩
      rw [Lib.carve, List.nil_append]
      grind

section

variable (ranges : FreeRanges limit free) (fits : limit < 2 ^ 64)
include ranges fits

/-- First fit carves the new allocation out of one free range. -/
theorem firstFit_ok (pages : 4096 ∣ aligned) (found : firstFit aligned free = some (addr, left)) :
    FreeRanges limit left ∧ 4096 ∣ addr ∧ addr + aligned ≤ limit ∧
      (∀ point, (⟨addr, aligned⟩ : Range).Contains point → Covers free point) ∧
      ∀ point, Covers left point ↔ Covers free point ∧ ¬ (⟨addr, aligned⟩ : Range).Contains point := by
  obtain ⟨before, range, after, rfl, enough, rfl, rfl⟩ :=
    firstFit_split (fun range member => Nat.lt_of_le_of_lt (ranges.below range member) fits) found
  have member : range ∈ before ++ range :: after := by simp
  have below := ranges.below range member
  obtain ⟨first, size⟩ := ranges.aligned range member
  have covered := Lib.covers_carve ranges.separated enough
  refine ⟨.of_covers ranges.separated.carve ?_ ?_, first, by omega, ?_, covered⟩
  · intro other chosen
    rcases List.mem_append.mp chosen with early | late
    · exact ranges.aligned other (List.mem_append_left _ early)
    · unfold Lib.carve at late
      split at late
      · exact ranges.aligned other (by simp [late])
      · rcases List.mem_cons.mp late with rfl | later
        · exact ⟨Nat.dvd_add first pages, Nat.dvd_sub size pages⟩
        grind [FreeRanges.aligned]
  · intro point inside
    obtain ⟨other, member, contained⟩ := ((covered point).mp inside).1
    exact Nat.lt_of_lt_of_le contained.2 (ranges.below other member)
  · intro point inside
    exact ⟨range, member, inside.1, Nat.lt_of_lt_of_le inside.2 (Nat.add_le_add_left enough _)⟩

section

variable (positive : 0 < aligned) (pages : 4096 ∣ aligned)
  (found : firstFit aligned free = some (addr, left))
include positive pages found

/-- What first fit took and what it left make up the free ranges. -/
theorem firstFit_coalesces :
    Lib.coalesce (Lib.insertRange ⟨addr, aligned⟩ left) = free := by
  obtain ⟨ranges', -, -, inside, covered⟩ := firstFit_ok ranges fits pages found
  obtain ⟨separated, covered'⟩ := Lib.coalesce_insertRange ⟨addr, aligned⟩ ranges'.separated positive
  refine separated.unique ranges.separated fun point => ?_
  grind

/-- Giving back what first fit took leaves the free ranges as they were. -/
theorem vmallocFreeRange_undoes (done : vmallocFreeRange left addr aligned = .ok restored) :
    restored = free := by
  obtain ⟨ranges', -, below, -, -⟩ := firstFit_ok ranges fits pages found
  rw [vmallocFreeRange_coalesces ranges'.separated ranges'.below fits positive below done]
  grind [firstFit_coalesces]

end

end

end FreeList

/-- The pages an allocation of `size` bytes at `addr` takes up. -/
def allocation (live : Nat × Nat) : Range := ⟨live.1, alignUp live.2 pmmPageSize⟩

/-- The page addresses of a list of allocations. -/
def LivePage (live : List (Nat × Nat)) (virtAddr : Nat) : Prop :=
  virtAddr % 4096 = 0 ∧ Covers (live.map allocation) virtAddr

/-- The region `vmalloc_init_once_locked` sets up. -/
structure Region (s : Vmalloc) : Prop where
  initialized : s.initialized = true
  positive : 0 < s.base
  pages : 4096 ∣ s.base ∧ 4096 ∣ s.limit
  ordered : s.base < s.limit
  bounded : s.limit ≤ s.base + 2 ^ 28
  fits : s.limit < 2 ^ 64

/-- The three levels of the allocator agree with the list of live allocations. -/
structure VmallocInv (s : Vmalloc) (live : List (Nat × Nat)) : Prop where
  region : Region s
  sizes : ∀ entry ∈ live, 0 < entry.2 ∧ entry.2 ≤ alignUp entry.2 pmmPageSize
  placed : ∀ entry ∈ live, 4096 ∣ entry.1 ∧ s.base ≤ entry.1 ∧ entry.1 + alignUp entry.2 pmmPageSize ≤ s.limit
  disjoint : (live.map allocation).Pairwise fun first second =>
    ∀ point, ¬ (first.Contains point ∧ second.Contains point)
  ranges : FreeRanges s.limit s.free
  covers : ∀ point, Covers s.free point ↔ s.base ≤ point ∧ point < s.limit ∧ ¬ Covers (live.map allocation) point
  backed : Backed s.base s.paging.info.rootPml4Phys s.paging (LivePage live)
  rooted : live ≠ [] → s.paging.info.rootPml4Phys ≠ 0

section Steps

variable {boot : Boot} {s t : Vmalloc} {live : List (Nat × Nat)} {addr size flags : Nat}

theorem alignUp_pages {size : Nat} (positive : 0 < size) (enough : size ≤ alignUp size pmmPageSize) :
    4096 ∣ alignUp size pmmPageSize ∧ 0 < alignUp size pmmPageSize := by
  refine ⟨?_, by omega⟩
  rw [pmmPageSize, alignUp_page]
  omega

/-- The order in which allocations are listed does not matter. -/
theorem VmallocInv.perm {other : List (Nat × Nat)} (inv : VmallocInv s live) (same : live.Perm other) :
    VmallocInv s other := by
  have covered : ∀ point, Covers (other.map allocation) point ↔ Covers (live.map allocation) point := by
    intro point
    simp only [Covers, (same.map allocation).mem_iff]
  have members : ∀ entry ∈ other, entry ∈ live := fun entry member => same.mem_iff.mpr member
  refine ⟨inv.region, fun entry member => inv.sizes entry (members entry member),
    fun entry member => inv.placed entry (members entry member), ?_, inv.ranges, ?_, ?_, ?_⟩
  · refine (List.Perm.pairwise_iff ?_ (same.map allocation)).mp inv.disjoint
    grind
  · grind [covers]
  · refine inv.backed.subset ?_
    rintro virtAddr ⟨aligned, inside⟩
    exact ⟨aligned, (covered virtAddr).mp inside⟩
  · rintro nonempty
    apply inv.rooted
    rintro rfl
    exact nonempty same.nil_eq.symm

theorem VmallocInv.head_apart (inv : VmallocInv s ((addr, size) :: live))
    (inside : (allocation (addr, size)).Contains point) : ¬ Covers (live.map allocation) point := by
  rintro ⟨other, member, contained⟩
  exact (List.pairwise_cons.mp inv.disjoint).1 other member point ⟨inside, contained⟩

/-- `vfree` comes to the range check, the first place where it reads the region. -/
def VfreeChecks (s : Vmalloc) (addr size : Nat) : Prop :=
  addr ≠ 0 ∧ size ≠ 0 ∧ addr % 4096 = 0 ∧ size ≤ alignUp size pmmPageSize ∧ s.initialized = true

/-- `vfree` passes all of its checks and comes to its loop. -/
def VfreeActs (s : Vmalloc) (addr size : Nat) : Prop :=
  VfreeChecks s addr size ∧ s.base ≤ addr ∧ addr < s.limit ∧
    addr ≤ (s.limit + 2 ^ 64 - alignUp size pmmPageSize) % 2 ^ 64 ∧ s.paging.info.rootPml4Phys ≠ 0

instance (s : Vmalloc) (addr size : Nat) : Decidable (VfreeChecks s addr size) :=
  inferInstanceAs (Decidable (_ ∧ _))

instance (s : Vmalloc) (addr size : Nat) : Decidable (VfreeActs s addr size) :=
  inferInstanceAs (Decidable (_ ∧ _))

theorem vfree_acts (acts : VfreeActs s addr size) : vfree s addr size =
    (unmapPages s.paging.info.rootPml4Phys addr (strides 0 (alignUp size pmmPageSize) pmmPageSize) s.paging >>= fun paging =>
      vmallocFreeRange s.free addr (alignUp size pmmPageSize) >>= fun free =>
        .ok { s with paging := paging, free := free }) := by
  have low : addr &&& (pmmPageSize - 1) = addr % 4096 := Nat.and_two_pow_sub_one_eq_mod addr 12
  obtain ⟨⟨real, some', aligned, enough, ready⟩, above, below, check, rooted⟩ := acts
  have given : ¬ (addr = 0 ∨ size = 0) := by omega
  have inside : ¬ (addr < s.base ∨ addr ≥ s.limit ∨ addr > (s.limit + 2 ^ 64 - alignUp size pmmPageSize) % 2 ^ 64) := by omega
  simp only [vfree, low, given, aligned, Nat.not_lt.mpr enough, ready, inside, rooted, ↓reduceIte, ne_eq,
    not_true_eq_false, Bool.not_true, Bool.false_eq_true]
  rfl

section

variable (inv : VmallocInv s ((addr, size) :: live))
include inv

/-- On a live allocation `vfree` passes all its checks. -/
theorem vfree_eq : vfree s addr size =
    (unmapPages s.paging.info.rootPml4Phys addr (strides 0 (alignUp size pmmPageSize) 4096) s.paging >>= fun paging =>
      vmallocFreeRange s.free addr (alignUp size pmmPageSize) >>= fun free =>
        .ok { s with paging := paging, free := free }) := by
  have listed : (addr, size) ∈ (addr, size) :: live := List.mem_cons_self
  obtain ⟨positive, enough⟩ := inv.sizes _ listed
  obtain ⟨aligned, low, high⟩ := inv.placed _ listed
  have base := inv.region.positive
  have fits := inv.region.fits
  have rooted := inv.rooted (List.cons_ne_nil _ _)
  dsimp only at positive enough low high
  refine vfree_acts ⟨⟨?_, ?_, Nat.mod_eq_zero_of_dvd aligned, enough, inv.region.initialized⟩, low, ?_, ?_, rooted⟩
  all_goals omega

theorem vfree_live (done : vfree s addr size = .ok t) :
    ∃ paging free, unmapPages s.paging.info.rootPml4Phys addr (strides 0 (alignUp size pmmPageSize) 4096) s.paging =
        .ok paging ∧ vmallocFreeRange s.free addr (alignUp size pmmPageSize) = .ok free ∧
      t = { s with paging := paging, free := free } := by
  rw [vfree_eq inv] at done
  obtain ⟨paging, unmapped, done⟩ := Lib.bind_ok done
  obtain ⟨free, returned, done⟩ := Lib.bind_ok done
  grind

omit inv in
/-- A page of an allocation is one of the offsets its loops visit. -/
theorem allocation_pages (positive : 0 < size) (enough : size ≤ alignUp size pmmPageSize)
    (start : 4096 ∣ addr) (virtAddr : Nat) : virtAddr % 4096 = 0 ∧ (allocation (addr, size)).Contains virtAddr ↔
      ∃ offset ∈ strides 0 (alignUp size pmmPageSize) 4096, virtAddr = addr + offset := by
  obtain ⟨⟨count, counted⟩, -⟩ := alignUp_pages positive enough
  simp only [allocation, Range.Contains, counted, Nat.mul_comm 4096 count, mem_strides_pages]
  constructor
  · rintro ⟨aligned, low, high⟩
    exact ⟨virtAddr - addr, ⟨by omega, by omega⟩, by omega⟩
  omega

/-- The pages that `vfree` visits are those of the allocation. -/
theorem VmallocInv.head_pages :
    (strides 0 (alignUp size pmmPageSize) 4096).Nodup ∧
      (∀ offset ∈ strides 0 (alignUp size pmmPageSize) 4096, addr + offset < 2 ^ 64) ∧
      ∀ offset ∈ strides 0 (alignUp size pmmPageSize) 4096, LivePage ((addr, size) :: live) (addr + offset) := by
  have listed : (addr, size) ∈ (addr, size) :: live := List.mem_cons_self
  obtain ⟨positive, enough⟩ := inv.sizes _ listed
  obtain ⟨aligned, low, high⟩ := inv.placed _ listed
  dsimp only at positive enough aligned low high
  have fits := inv.region.fits
  have page := fun offset member =>
    (allocation_pages positive enough aligned (addr + offset)).mpr ⟨offset, member, rfl⟩
  refine ⟨?_, fun offset member => ?_, fun offset member => ?_⟩
  · obtain ⟨count, counted⟩ := (alignUp_pages positive enough).1
    grind [strides_pages_nodup]
  · have inside := (page offset member).2.2
    simp only [allocation] at inside
    omega
  · obtain ⟨start, inside⟩ := page offset member
    exact ⟨start, _, List.mem_map_of_mem listed, inside⟩

/-- Releasing a live allocation gives back its frames and its range. -/
theorem vfree_keeps (done : vfree s addr size = .ok t) :
    VmallocInv t live := by
  have listed : (addr, size) ∈ (addr, size) :: live := List.mem_cons_self
  obtain ⟨positive, enough⟩ := inv.sizes _ listed
  obtain ⟨aligned, low, high⟩ := inv.placed _ listed
  obtain ⟨pages, extent⟩ := alignUp_pages positive enough
  have fits := inv.region.fits
  have visited := allocation_pages positive enough aligned
  obtain ⟨paging, free, unmapped, returned, rfl⟩ := vfree_live inv done
  obtain ⟨ranges, covered⟩ := vmallocFreeRange_ok inv.ranges fits extent ⟨aligned, pages⟩ high returned
  have backed : Backed s.base s.paging.info.rootPml4Phys paging (LivePage live) := by
    obtain ⟨unique, small, present⟩ := inv.head_pages
    refine (unmapPages_backed inv.backed unique small present unmapped).subset ?_
    rintro virtAddr ⟨start, inside⟩
    refine ⟨⟨start, by simp [inside]⟩, ?_⟩
    rintro offset member rfl
    exact inv.head_apart ((visited (addr + offset)).mpr ⟨offset, member, rfl⟩).2 inside
  refine ⟨⟨inv.region.initialized, inv.region.positive, inv.region.pages, inv.region.ordered, inv.region.bounded,
    fits⟩, fun entry member => inv.sizes entry (List.mem_cons_of_mem _ member),
    fun entry member => inv.placed entry (List.mem_cons_of_mem _ member), (List.pairwise_cons.mp inv.disjoint).2,
    ranges, ?_, ?_, ?_⟩
  · intro point
    have before := inv.covers point
    have apart : (allocation (addr, size)).Contains point → ¬ Covers (live.map allocation) point := inv.head_apart
    have inside : (allocation (addr, size)).Contains point → s.base ≤ point ∧ point < s.limit :=
      fun contained => ⟨low.trans contained.1, contained.2.trans_le high⟩
    rw [List.map_cons, Lib.covers_cons] at before
    rw [covered, before]
    change (allocation (addr, size)).Contains point ∨ _ ↔ _
    grind
  · rw [backed.recorded]
    exact backed
  · rw [backed.recorded]
    exact fun _ => inv.rooted (List.cons_ne_nil _ _)

end

/-- The allocator after its pages were mapped and unmapped again. -/
theorem VmallocInv.replace (inv : VmallocInv s live)
    (backed : Backed s.base s.paging.info.rootPml4Phys paging (LivePage live)) :
    VmallocInv { s with paging := paging } live := by
  refine ⟨⟨inv.region.initialized, inv.region.positive, inv.region.pages, inv.region.ordered, inv.region.bounded,
    inv.region.fits⟩, inv.sizes, inv.placed, inv.disjoint, inv.ranges, inv.covers, ?_, ?_⟩
  · rw [backed.recorded]
    exact backed
  · rw [backed.recorded]
    exact inv.rooted

section

variable (inv : VmallocInv s live) (positive : 0 < size)
  (enough : size ≤ alignUp size pmmPageSize)
include inv positive enough

/-- A new allocation in a free range, with all its pages backed. -/
theorem VmallocInv.extend (rooted : s.paging.info.rootPml4Phys ≠ 0) (start : 4096 ∣ addr)
    (backed : Backed s.base s.paging.info.rootPml4Phys paging (LivePage ((addr, size) :: live)))
    (ranges : FreeRanges s.limit left)
    (inside : ∀ point, (allocation (addr, size)).Contains point → Covers s.free point)
    (covered : ∀ point, Covers left point ↔ Covers s.free point ∧ ¬ (allocation (addr, size)).Contains point) :
    VmallocInv { s with paging := paging, free := left } ((addr, size) :: live) := by
  have first := (inv.covers addr).mp (inside addr ⟨Nat.le_refl _, by simp only [allocation]; omega⟩)
  have last := (inv.covers (addr + alignUp size pmmPageSize - 1)).mp
    (inside _ ⟨by simp only [allocation]; omega, by simp only [allocation]; omega⟩)
  refine ⟨⟨inv.region.initialized, inv.region.positive, inv.region.pages, inv.region.ordered, inv.region.bounded,
    inv.region.fits⟩, ?_, ?_, ?_, ranges, ?_, ?_, ?_⟩
  · exact List.forall_mem_cons.mpr ⟨⟨positive, enough⟩, inv.sizes⟩
  · refine List.forall_mem_cons.mpr ⟨⟨start, first.1, ?_⟩, inv.placed⟩
    dsimp only
    omega
  · refine List.pairwise_cons.mpr ⟨?_, inv.disjoint⟩
    intro other member point both
    exact ((inv.covers point).mp (inside point both.1)).2.2 ⟨other, member, both.2⟩
  · intro point
    rw [covered, inv.covers, List.map_cons, Lib.covers_cons, not_or, and_assoc, and_assoc]
    grind
  · rw [backed.recorded]
    exact backed
  grind [Backed.recorded]

/-- The mapping loop of `vmalloc` over a range that is free. -/
theorem VmallocInv.mapPages (start : 4096 ∣ addr)
    (inside : ∀ point, (allocation (addr, size)).Contains point → Covers s.free point)
    {mapped : Nat}
    (looped : mapPages s.paging.info.rootPml4Phys addr flags (strides 0 (alignUp size pmmPageSize) 4096) 0 s.paging =
      .ok (mapped, paging)) :
    ∃ count, mapped = count * 4096 ∧ mapped ≤ alignUp size pmmPageSize ∧
      Backed s.base s.paging.info.rootPml4Phys paging fun virtAddr => LivePage live virtAddr ∨
        ∃ offset ∈ strides 0 (count * 4096) 4096, virtAddr = addr + offset := by
  obtain ⟨⟨pages, counted⟩, -⟩ := alignUp_pages positive enough
  have bounded := inv.region.bounded
  have fits := inv.region.fits
  have page := fun offset member =>
    (allocation_pages positive enough start (addr + offset)).mpr ⟨offset, member, rfl⟩
  have region := fun offset member => (inv.covers (addr + offset)).mp (inside _ (page offset member).2)
  rw [counted, Nat.mul_comm] at page region looped ⊢
  obtain ⟨offsets, initial, total, backed⟩ := mapPages_backed inv.backed (strides_pages_nodup pages)
    (fun offset member => by grind)
    (fun offset member => by
      grind)
    (fun offset member used => (region offset member).2.2 used.2) looped
  obtain ⟨fewer, same⟩ := strides_pages_prefix initial
  grind

/-- The stages of an allocation from the region. Where it fails, the pages it had mapped are
unmapped and the free ranges are as before. -/
theorem vmallocCarve_stages
    (done : vmallocCarve s (alignUp size pmmPageSize) flags = .ok (addr, t)) :
    (addr = 0 ∧ t = s) ∨ s.paging.info.rootPml4Phys ≠ 0 ∧ ∃ start left count paging,
      firstFit (alignUp size pmmPageSize) s.free = some (start, left) ∧
      mapPages s.paging.info.rootPml4Phys start flags (strides 0 (alignUp size pmmPageSize) 4096) 0 s.paging =
        .ok (count * 4096, paging) ∧
      (Backed s.base s.paging.info.rootPml4Phys paging fun virtAddr => LivePage live virtAddr ∨
        ∃ offset ∈ strides 0 (count * 4096) 4096, virtAddr = start + offset) ∧
      ((count * 4096 = alignUp size pmmPageSize ∧ addr = start ∧ t = { s with paging := paging, free := left }) ∨
        (count * 4096 ≤ alignUp size pmmPageSize ∧ addr = 0 ∧ ∃ paging', unmapPages s.paging.info.rootPml4Phys start
          (strides 0 (count * 4096) 4096) paging = .ok paging' ∧ t = { s with paging := paging' })) := by
  obtain ⟨pages, extent⟩ := alignUp_pages positive enough
  have fits := inv.region.fits
  unfold vmallocCarve at done
  split at done
  · grind
  · rename_i start left found
    obtain ⟨-, aligned, -, inside, -⟩ := firstFit_ok inv.ranges fits pages found
    dsimp only at done
    split at done
    · obtain ⟨free, returned, done⟩ := Lib.bind_ok done
      cases done
      rw [vmallocFreeRange_undoes inv.ranges fits extent pages found returned]
      simp
    · rename_i rooted
      obtain ⟨⟨mapped, paging⟩, looped, done⟩ := Lib.bind_ok done
      obtain ⟨count, rfl, bounded, backed⟩ := inv.mapPages positive enough aligned inside looped
      refine .inr ⟨rooted, start, left, count, paging, found, looped, backed, ?_⟩
      split at done
      · cases done
        grind
      · obtain ⟨paging', undone, done⟩ := Lib.bind_ok done
        obtain ⟨free, returned, done⟩ := Lib.bind_ok done
        cases done
        rw [vmallocFreeRange_undoes inv.ranges fits extent pages found returned]
        exact .inr ⟨bounded, rfl, paging', undone, rfl⟩

/-- The pages of a range that first fit found are in the region and not in use. -/
theorem VmallocInv.vacant {start : Nat}
    (found : firstFit (alignUp size pmmPageSize) s.free = some (start, left))
    (bounded : count * 4096 ≤ alignUp size pmmPageSize) {offset : Nat}
    (member : offset ∈ strides 0 (count * 4096) 4096) :
    start + offset < 2 ^ 64 ∧ ¬ LivePage live (start + offset) := by
  have fits := inv.region.fits
  obtain ⟨-, -, -, inside, -⟩ := firstFit_ok inv.ranges fits (alignUp_pages positive enough).1 found
  have short := (mem_strides_pages.mp member).2
  have outside := (inv.covers (start + offset)).mp (inside _ ⟨Nat.le_add_right _ _, by dsimp only; omega⟩)
  exact ⟨outside.2.1.trans fits, fun used => outside.2.2 used.2⟩

theorem vmallocCarve_keeps
    (done : vmallocCarve s (alignUp size pmmPageSize) flags = .ok (addr, t)) :
    (addr = 0 ∧ VmallocInv t live) ∨ (addr ≠ 0 ∧ VmallocInv t ((addr, size) :: live)) := by
  obtain ⟨pages, extent⟩ := alignUp_pages positive enough
  have fits := inv.region.fits
  rcases vmallocCarve_stages inv positive enough done with ⟨rfl, rfl⟩ |
    ⟨rooted, start, left, count, paging, found, -, backed, ⟨complete, rfl, rfl⟩ | ⟨bounded, rfl, paging', undone, rfl⟩⟩
  · grind
  · obtain ⟨ranges, aligned, -, inside, covered⟩ := firstFit_ok inv.ranges fits pages found
    have first := (inv.covers addr).mp (inside addr ⟨Nat.le_refl _, Nat.lt_add_of_pos_right extent⟩)
    refine .inr ⟨by have low := inv.region.positive; omega,
      inv.extend positive enough rooted aligned (backed.subset ?_) ranges inside covered⟩
    rintro virtAddr ⟨page, contained⟩
    rw [List.map_cons, Lib.covers_cons] at contained
    rcases contained with new | old
    · right
      rw [complete]
      exact (allocation_pages positive enough aligned virtAddr).mp ⟨page, new⟩
    · exact .inl ⟨page, old⟩
  · have region := fun offset (member : offset ∈ strides 0 (count * 4096) 4096) =>
      inv.vacant positive enough found bounded member
    refine .inl ⟨rfl, inv.replace ?_⟩
    refine (unmapPages_backed backed (strides_pages_nodup count) (fun offset member => (region offset member).1)
      (fun offset member => .inr ⟨offset, member, rfl⟩) undone).subset ?_
    grind

end

/-- The linker and the bootloader leave room for the region above the kernel
image and above the direct map. -/
structure Boot.VmallocRoom (boot : Boot) : Prop where
  kernel : boot.kernelVirtualEnd.toNat + vmallocDefaultSize + 8192 ≤ 2 ^ 64
  hhdm : boot.hhdmOffset.toNat + maxPhysicalEnd boot.memoryMap + vmallocDefaultSize + 8192 ≤ 2 ^ 64

theorem vmallocBase_room (space : KernelSpace boot paging) (room : boot.VmallocRoom) :
    0 < vmallocBase boot (maxPhysicalEnd boot.memoryMap) ∧ 4096 ∣ vmallocBase boot (maxPhysicalEnd boot.memoryMap) ∧
      vmallocBase boot (maxPhysicalEnd boot.memoryMap) + vmallocDefaultSize < 2 ^ 64 := by
  have kernelRoom := room.kernel
  have hhdmRoom := room.hhdm
  have kernelEnd := space.kernelEnd
  have sum : (boot.hhdmOffset.toNat + (maxPhysicalEnd boot.memoryMap + 4095) % 2 ^ 64 / 4096 * 4096) % 2 ^ 64 =
      boot.hhdmOffset.toNat + (maxPhysicalEnd boot.memoryMap + 4095) / 4096 * 4096 := by
    omega
  have wide : ¬ boot.hhdmOffset.toNat + (maxPhysicalEnd boot.memoryMap + 4095) / 4096 * 4096 <
      boot.hhdmOffset.toNat := by
    omega
  simp only [vmallocBase, pmmPageSize, alignUp_page, sum, wide, ↓reduceIte]
  split <;> omega

theorem vmallocInitOnceLocked_region (space : KernelSpace boot s.paging) (room : boot.VmallocRoom) {ok : Bool}
    (fresh : s.initialized = false) (done : vmallocInitOnceLocked boot s = (ok, t)) :
    (ok = false ∧ t = s) ∨ (ok = true ∧ Region t ∧ t.free = [⟨t.base, t.limit - t.base⟩] ∧ t.paging = s.paging) := by
  obtain ⟨positive, pages, fits⟩ := vmallocBase_room space room
  have hhdmAligned := space.aligned
  simp only [vmallocInitOnceLocked, fresh, Bool.false_eq_true, ↓reduceIte, space.highest] at done
  generalize vmallocBase boot (maxPhysicalEnd boot.memoryMap) = base at done positive pages fits
  split at done
  · grind
  split at done
  · grind
  split at done
  · omega
  generalize sized : (if base < boot.hhdmOffset.toNat ∧ rangeEnd base vmallocDefaultSize > boot.hhdmOffset.toNat
    then boot.hhdmOffset.toNat - base else vmallocDefaultSize) = size at done
  have shape : size ≤ 2 ^ 28 ∧ 4096 ∣ size := by
    rw [rangeEnd_eq fits] at sized
    split at sized
    · rw [show vmallocDefaultSize = 2 ^ 28 by rfl] at *
      omega
    · subst size
      exact ⟨Nat.le_refl _, by decide⟩
  split at done
  · grind
  · rename_i large
    cases done
    rw [show vmallocDefaultSize = 2 ^ 28 by rfl] at fits
    rw [pmmPageSize] at large
    have limit : (base + size) % 2 ^ 64 = base + size := Nat.mod_eq_of_lt (by omega)
    refine .inr ⟨rfl, ⟨rfl, positive, ⟨pages, ?_⟩, ?_, ?_, ?_⟩, ?_, rfl⟩ <;> simp only [limit]
    · omega
    · omega
    · omega
    · omega
    simp

theorem Region.initial (region : Region s) (whole : s.free = [⟨s.base, s.limit - s.base⟩])
    (tree : TableTree s.paging s.paging.info.rootPml4Phys) : VmallocInv s [] := by
  have ordered := region.ordered
  refine ⟨region, by simp, by simp, .nil, ?_, ?_, ⟨tree, rfl, ?_, ?_, ?_⟩, by simp⟩
  · refine .of_covers ?_ ?_ ?_ <;> rw [whole]
    · exact .singleton (by simp only; omega)
    · intro range member
      cases List.mem_singleton.mp member
      exact ⟨region.pages.1, Nat.dvd_sub region.pages.2 region.pages.1⟩
    · rintro point ⟨range, member, inside⟩
      have last := inside.2
      grind
  · simp only [whole, Lib.covers_cons, Lib.covers_nil, or_false, Range.Contains, List.map_nil, not_false_eq_true,
      and_true]
    omega
  · intro virtAddr page
    simp [LivePage] at page
  · intro virtAddr page
    simp [LivePage] at page
  · intro first second frame page
    simp [LivePage] at page

/-- The client's view: the allocator and the allocations not yet released. -/
structure VmallocClient where
  vm : Vmalloc
  live : List (Nat × Nat)

inductive VmallocCall where
  | vmalloc (size flags : Nat)
  | vfree (addr size : Nat)
deriving DecidableEq, Repr

-- The pairs of an address and a size are looked up in lists, here and by the clients of the heap.
instance lawfulBEq_pair : LawfulBEq (Nat × Nat) := inferInstance

/-- The calls of a client that passes back only pairs it got and still holds. -/
def vmallocStep (boot : Boot) (s : VmallocClient) : VmallocCall → Except (Lib.Halt Panic) (Nat × VmallocClient)
  | .vmalloc size flags => do
    let (addr, vm) ← Lib.attempt (vmalloc boot s.vm size flags)
    return (addr, ⟨vm, if addr = 0 then s.live else (addr, size) :: s.live⟩)
  | .vfree addr size =>
    if (addr, size) ∈ s.live then do
      let vm ← Lib.attempt (vfree s.vm addr size)
      return (0, ⟨vm, s.live.erase (addr, size)⟩)
    else .error .misuse

/-- Before the first allocation there is no region and nothing is live. -/
def VmallocClient.Sound (boot : Boot) (s : VmallocClient) : Prop :=
  (s.vm.initialized = false ∧ s.vm.free = [] ∧ s.vm.base = 0 ∧ s.vm.limit = 0 ∧ s.live = [] ∧
    KernelSpace boot s.vm.paging) ∨ VmallocInv s.vm s.live

/-- A call is refused at once or carves the allocation out of the region, which the first one sets
up. -/
theorem vmalloc_entry (room : boot.VmallocRoom) {s : VmallocClient} (sound : s.Sound boot) (size flags : Nat) :
    (vmalloc boot s.vm size flags = .ok (0, s.vm) ∧ (size = 0 ∨ alignUp size pmmPageSize < size ∨
        (vmallocInitOnceLocked boot s.vm = (false, s.vm) ∧ s.vm.free = []))) ∨
      ∃ vm, vmallocInitOnceLocked boot s.vm = (true, vm) ∧ VmallocInv vm s.live ∧
        vm.paging = s.vm.paging ∧ 0 < size ∧ size ≤ alignUp size pmmPageSize ∧
        vmalloc boot s.vm size flags = vmallocCarve vm (alignUp size pmmPageSize) flags := by
  simp only [vmalloc]
  split
  · grind
  split
  · grind
  rcases sound with ⟨fresh, free, -, -, none', space⟩ | inv
  · split
    · rename_i vm refused
      rcases vmallocInitOnceLocked_region space room fresh refused with ⟨-, rfl⟩ | ⟨accepted, -⟩
      · grind
      · cases accepted
    grind [vmallocInitOnceLocked_region, Region.initial, KernelSpace.tree]
  · have ready : vmallocInitOnceLocked boot s.vm = (true, s.vm) := by
      simp [vmallocInitOnceLocked, inv.region.initialized]
    grind

/-- What a call that returns went through. -/
theorem vmalloc_stages (room : boot.VmallocRoom) {s : VmallocClient} (sound : s.Sound boot)
    (done : vmalloc boot s.vm size flags = .ok (addr, t)) :
    (addr = 0 ∧ t = s.vm) ∨ ∃ vm, vmallocInitOnceLocked boot s.vm = (true, vm) ∧ VmallocInv vm s.live ∧
      vm.paging = s.vm.paging ∧ 0 < size ∧ size ≤ alignUp size pmmPageSize ∧
      vmallocCarve vm (alignUp size pmmPageSize) flags = .ok (addr, t) := by
  grind [vmalloc_entry]

theorem vmalloc_keeps (room : boot.VmallocRoom) {s : VmallocClient} (sound : s.Sound boot)
    (done : vmalloc boot s.vm size flags = .ok (addr, t)) :
    (addr = 0 ∧ VmallocClient.Sound boot ⟨t, s.live⟩) ∨ (addr ≠ 0 ∧ VmallocInv t ((addr, size) :: s.live)) := by
  rcases vmalloc_stages room sound done with ⟨rfl, rfl⟩ | ⟨vm, -, inv, -, positive, enough, carved⟩
  · exact .inl ⟨rfl, sound⟩
  · exact (vmallocCarve_keeps inv positive enough carved).imp_left fun failed => ⟨failed.1, .inr failed.2⟩

theorem vmallocStep_sound (room : boot.VmallocRoom) {s t : VmallocClient} {call : VmallocCall}
    (sound : s.Sound boot) (taken : vmallocStep boot s call = .ok (answer, t)) : t.Sound boot := by
  cases call with
  | vmalloc size flags =>
    obtain ⟨⟨addr, vm⟩, attempted, rest⟩ := Lib.bind_ok taken
    cases rest
    rcases vmalloc_keeps room sound (Lib.attempt_ok attempted) with ⟨rfl, kept⟩ | ⟨found, inv⟩
    · exact kept
    · exact .inr (by simpa [found] using inv)
  | vfree addr size =>
    simp only [vmallocStep] at taken
    split at taken
    · rename_i listed
      obtain ⟨vm, attempted, rest⟩ := Lib.bind_ok taken
      cases rest
      rcases sound with ⟨-, -, -, -, none', -⟩ | inv
      · simp [none'] at listed
      · exact .inr (vfree_keeps (inv.perm (List.perm_cons_erase listed)) (Lib.attempt_ok attempted))
    · cases taken

end Steps

theorem pagingTranslate_offset {root virtAddr frame : Nat} (tree : TableTree paging root)
    (found : paging.frameAt root (virtAddr / 4096 * 4096) = some frame) :
    pagingTranslate paging root virtAddr = some (frame + virtAddr % 4096) := by
  obtain ⟨entry, leaf, rfl⟩ := Paging.frameAt_eq_some.mp found
  rw [paging.leafAt_pageNumber root (show _ = pageNumber virtAddr by simp [pageNumber])] at leaf
  have offset : virtAddr &&& (pageSize4k - 1) = virtAddr % 2 ^ 12 := Nat.and_two_pow_sub_one_eq_mod virtAddr 12
  rw [pagingTranslate, translateWithCr3_eq_leaf tree, leaf, Option.map_some, Leaf.address, offset,
    Lib.or_eq_add_of_lt (mask4k_aligned entry).1 (Nat.mod_lt _ (by decide))]
  rfl

theorem pagingTranslate_frameAt {root virtAddr frame : Nat} (tree : TableTree paging root)
    (page : virtAddr % 4096 = 0) (found : paging.frameAt root virtAddr = some frame) :
    pagingTranslate paging root virtAddr = some frame := by
  have whole : virtAddr / 4096 * 4096 = virtAddr := by omega
  rw [pagingTranslate_offset tree (whole.symm ▸ found), page, Nat.add_zero]

/-- Where a free range ends before another one, an allocation begins. -/
theorem VmallocInv.gap_live (inv : VmallocInv s live) :
    s.free.Pairwise fun first second => first.start + first.size < second.start ∧
      LivePage live (first.start + first.size) := by
  refine List.Pairwise.imp_of_mem ?_ inv.ranges.separated.ordered
  intro first second firstMember secondMember gap
  refine ⟨gap, ?_, ?_⟩
  · obtain ⟨start, size⟩ := inv.ranges.aligned first firstMember
    omega
  · have size := inv.ranges.separated.positive first firstMember
    have low := ((inv.covers first.start).mp ⟨first, firstMember, Nat.le_refl _, by omega⟩).1
    have high := inv.ranges.below second secondMember
    by_contra unused
    exact inv.ranges.separated.hole firstMember ((inv.covers _).mpr ⟨by omega, by omega, unused⟩)

/-- Ownership and conservation over every history of `vmalloc` and `vfree`. -/
theorem vmalloc_history_safe {boot : Boot} {paging : Paging} {trace : List (VmallocCall × Nat)} {t : VmallocClient}
    (reached : Reached boot paging) (room : boot.VmallocRoom)
    (run : Lib.Steps (vmallocStep boot) ⟨⟨paging, [], 0, 0, false⟩, []⟩ trace t) :
    (∀ entry ∈ t.live, entry.1 % 4096 = 0 ∧ 0 < entry.2 ∧ entry.2 ≤ alignUp entry.2 pmmPageSize ∧
      t.vm.base ≤ entry.1 ∧ entry.1 + alignUp entry.2 pmmPageSize ≤ t.vm.limit) ∧
    ((t.live.map allocation).Pairwise fun first second =>
      ∀ point, ¬ (first.Contains point ∧ second.Contains point)) ∧
    (∀ range ∈ t.vm.free, 0 < range.size ∧ range.start % 4096 = 0 ∧ range.size % 4096 = 0) ∧
    (t.vm.free.Pairwise fun first second => first.start + first.size < second.start ∧
      LivePage t.live (first.start + first.size)) ∧
    (∀ point, Covers t.vm.free point ↔
      t.vm.base ≤ point ∧ point < t.vm.limit ∧ ¬ Covers (t.live.map allocation) point) ∧
    (t.vm.initialized = true → t.live = [] → t.vm.free = [⟨t.vm.base, t.vm.limit - t.vm.base⟩]) ∧
    ∀ page, LivePage t.live page → ∃ frame,
      pagingTranslate t.vm.paging t.vm.paging.info.rootPml4Phys page = some frame ∧ frame % 4096 = 0 ∧
        t.vm.paging.pmm.bitTest (frame / 4096) = true ∧
        ∀ other, LivePage t.live other →
          pagingTranslate t.vm.paging t.vm.paging.info.rootPml4Phys other = some frame → other = page := by
  have sound : t.Sound boot := run.invariant (VmallocClient.Sound boot) (vmallocStep_sound room)
    (.inl ⟨rfl, rfl, rfl, rfl, rfl, reached.space⟩)
  rcases sound with ⟨fresh, free, base, limit, none', -⟩ | inv
  · simp [fresh, free, base, limit, none', LivePage]
  · refine ⟨?_, inv.disjoint, ?_, inv.gap_live, inv.covers, ?_, ?_⟩
    · intro entry member
      grind [VmallocInv.placed, VmallocInv.sizes]
    · intro range member
      obtain ⟨start, size⟩ := inv.ranges.aligned range member
      exact ⟨inv.ranges.separated.positive range member, Nat.mod_eq_zero_of_dvd start, Nat.mod_eq_zero_of_dvd size⟩
    · intro _ released
      have ordered := inv.region.ordered
      apply inv.ranges.separated.eq_singleton (by simp only; omega)
      intro point
      rw [inv.covers, released]
      simp only [List.map_nil, Lib.covers_nil, not_false_eq_true, and_true, Range.Contains]
      omega
    · intro page live
      obtain ⟨frame, found, used, -⟩ := inv.backed.mapped page live
      refine ⟨frame, pagingTranslate_frameAt inv.backed.tree live.1 found, frameAt_aligned found, used, ?_⟩
      intro other otherLive translated
      obtain ⟨frame', found', -⟩ := inv.backed.mapped other otherLive
      rw [pagingTranslate_frameAt inv.backed.tree otherLive.1 found', Option.some.injEq] at translated
      subst translated
      exact inv.backed.distinct other page frame' otherLive live found' found

theorem tinyBoot_room : tinyBoot.VmallocRoom := ⟨by decide, by decide⟩

theorem vmalloc_history_safe_tiny :
    ∃ t, Lib.Steps (vmallocStep tinyBoot) ⟨⟨tinyPagingReady, [], 0, 0, false⟩, []⟩
        [(.vmalloc 5000 1, 0xffffffff80003000), (.vmalloc 1 1, 0xffffffff80005000),
          (.vfree 0xffffffff80003000 5000, 0)] t ∧
      t.vm.free.Pairwise fun first second => first.start + first.size < second.start ∧
        LivePage t.live (first.start + first.size) := by
  obtain ⟨t, run⟩ := Lib.Steps.exists_of_replay (show (Lib.replay (vmallocStep tinyBoot)
    ⟨⟨tinyPagingReady, [], 0, 0, false⟩, []⟩
    [(.vmalloc 5000 1, 0xffffffff80003000), (.vmalloc 1 1, 0xffffffff80005000),
      (.vfree 0xffffffff80003000 5000, 0)]).isSome = true by decide +kernel)
  exact ⟨t, run, (vmalloc_history_safe tinyPagingReady_reached tinyBoot_room run).2.2.2.1⟩

end Velox
