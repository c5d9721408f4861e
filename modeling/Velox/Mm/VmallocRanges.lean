import Velox.Mm.Supply
import Velox.Mm.VmallocReach

namespace Velox

open Lib (Range)

variable {range : Range}

section Merge

variable {free : List Range} {start size : Nat}

/-- What `vmalloc_free_range` makes of the free ranges where it does not stop at their number. -/
def mergedRanges (free : List Range) (start size : Nat) : List Range :=
  match Lib.insertRange ⟨start, size⟩ free with
  | [] => []
  | first :: rest => mergeFrom first rest

theorem vmallocFreeRange_eq (positive : 0 < size) (room : free.length < vmallocMaxRanges) :
    vmallocFreeRange free start size = .ok (mergedRanges free start size) := by
  rw [vmallocFreeRange, if_neg (Nat.ne_of_gt positive), if_neg (Nat.not_le.mpr room), mergedRanges]
  grind

theorem vmallocFreeRange_full (positive : 0 < size) (full : vmallocMaxRanges ≤ free.length) :
    vmallocFreeRange free start size = .error ⟨"vmalloc: free list overflow"⟩ := by
  rw [vmallocFreeRange, if_neg (Nat.ne_of_gt positive), if_pos full]
  rfl

theorem vmallocFreeRange_returns_iff (free : List Range) (start : Nat) (positive : 0 < size) :
    (∃ left, vmallocFreeRange free start size = .ok left) ↔ free.length < vmallocMaxRanges := by
  constructor
  · rintro ⟨left, done⟩
    by_contra full
    rw [vmallocFreeRange_full positive (Nat.not_lt.mp full)] at done
    cases done
  · exact fun room => ⟨_, vmallocFreeRange_eq positive room⟩

/-- A range as the merging loop reads it, cut off at the end of the address space. -/
def clipRange (range : Range) : Range := ⟨range.start, rangeEnd range.start range.size - range.start⟩

theorem clipRange_finish (word : range.start < 2 ^ 64) :
    (clipRange range).start + (clipRange range).size = rangeEnd range.start range.size := by
  simp only [clipRange, rangeEnd]
  split <;> omega

theorem clipRange_of_fits (fits : range.start + range.size < 2 ^ 64) : clipRange range = range := by
  simp only [clipRange, rangeEnd, Nat.mod_eq_of_lt fits]
  rw [if_neg (by omega), Nat.add_sub_cancel_left]

/-- The merging loop leaves as many ranges as joining them does. -/
theorem mergeFrom_length (word : ∀ other ∈ range :: rest, other.start < 2 ^ 64)
    (sorted : (range :: rest).Pairwise (·.start ≤ ·.start)) :
    (mergeFrom range rest).length = (Lib.coalesceFrom (clipRange range) (rest.map clipRange)).length := by
  induction rest generalizing range with
  | nil => rfl
  | cons next rest ih =>
    have first := word range List.mem_cons_self
    have second := word next (by simp)
    have finish := clipRange_finish first
    have finish' : next.start + (clipRange next).size = _ := clipRange_finish second
    have bound : rangeEnd range.start range.size < 2 ^ 64 ∧ rangeEnd next.start next.size < 2 ^ 64 := by
      simp only [rangeEnd]
      grind
    have start : (clipRange range).start = range.start := rfl
    have start' : (clipRange next).start = next.start := rfl
    simp only [mergeFrom, List.map_cons, Lib.coalesceFrom, finish, finish', start']
    grind [Lib.sorted_widen, clipRange_of_fits]

theorem insertRange_map_clip (range : Range) (ranges : List Range) :
    (Lib.insertRange range ranges).map clipRange = Lib.insertRange (clipRange range) (ranges.map clipRange) := by
  induction ranges with
  | nil => rfl
  | cons next rest ih =>
    by_cases first : range.start ≤ next.start
    · simp [Lib.insertRange, List.orderedInsert, first, clipRange]
    · have first' : ¬ (clipRange range).start ≤ (clipRange next).start := first
      rw [Lib.insertRange] at ih ⊢
      rw [List.orderedInsert, if_neg first, List.map_cons, ih, List.map_cons, Lib.insertRange, Lib.insertRange,
        List.orderedInsert, if_neg first']

theorem mergedRanges_length (ranges : FreeRanges limit free) (fits : limit < 2 ^ 64)
    (word : start < 2 ^ 64) :
    (mergedRanges free start size).length =
      (Lib.coalesce (Lib.insertRange (clipRange ⟨start, size⟩) free)).length := by
  have same : free.map clipRange = free := by
    refine (List.map_congr_left fun range member => ?_).trans (List.map_id free)
    have below := ranges.below range member
    exact clipRange_of_fits (by omega)
  have sorted := Lib.insertRange_sorted ⟨start, size⟩ ranges.separated.sorted
  have clipped := insertRange_map_clip ⟨start, size⟩ free
  have words : ∀ other ∈ Lib.insertRange ⟨start, size⟩ free, other.start < 2 ^ 64 := by
    intro other member
    rcases (List.mem_orderedInsert _).mp member with rfl | earlier
    · exact word
    · have below := ranges.below other earlier
      omega
  rw [same] at clipped
  rw [mergedRanges, ← clipped]
  cases inserted : Lib.insertRange ⟨start, size⟩ free with
  | nil => rfl
  | cons first rest =>
    rw [inserted] at sorted words
    exact mergeFrom_length words sorted

/-- The table only has to grow for a range that touches none of the others. -/
theorem mergedRanges_grow_iff (ranges : FreeRanges limit free) (fits : limit < 2 ^ 64)
    (word : start < 2 ^ 64) :
    (mergedRanges free start size).length ≤ free.length ↔ ∃ range ∈ free, range.Touches (clipRange ⟨start, size⟩) := by
  rw [mergedRanges_length ranges fits word]
  exact Lib.coalesce_insertRange_length _ ranges.separated

end Merge

section Calls

variable {boot : Boot} {s : Vmalloc} {live : List (Nat × Nat)} {addr size : Nat}

/-- A loop that takes back pages with frames behind them returns. -/
theorem unmapPages_returns {root : Nat} {paging : Paging} {pages : Nat → Prop}
    (backed : Backed base root paging pages) (unique : offsets.Nodup)
    (fits : ∀ offset ∈ offsets, addr + offset < 2 ^ 64)
    (present : ∀ offset ∈ offsets, pages (addr + offset)) :
    ∃ t, unmapPages root addr offsets paging = .ok t := by
  induction offsets generalizing paging pages with
  | nil => exact ⟨paging, rfl⟩
  | cons offset rest ih =>
    obtain ⟨frame, found, -⟩ := backed.mapped _ (present offset List.mem_cons_self)
    obtain ⟨entry, leaf, -⟩ := Paging.frameAt_eq_some.mp found
    obtain ⟨middle, called⟩ := pagingUnmapPage_mapped backed.tree leaf
    obtain ⟨_, same, backed'⟩ := backed.unmapPage (present offset List.mem_cons_self) called
    cases same
    obtain ⟨new, others⟩ := List.nodup_cons.mp unique
    obtain ⟨t, done⟩ := ih backed' others (fun other member => fits other (List.mem_cons_of_mem _ member)) fun other member => by
      grind
    refine ⟨t, ?_⟩
    rw [unmapPages, List.foldlM_cons, Nat.mod_eq_of_lt (fits offset List.mem_cons_self)]
    refine (Lib.bind_of_ok ?_).trans done
    exact (Lib.bind_of_ok called).trans rfl

/-- Releasing a live allocation panics only for want of an entry. -/
theorem vfree_returns_iff (inv : VmallocInv s ((addr, size) :: live)) :
    (∃ t, vfree s addr size = .ok t) ↔ s.free.length < vmallocMaxRanges := by
  obtain ⟨positive, enough⟩ := inv.sizes _ List.mem_cons_self
  obtain ⟨unique, small, present⟩ := inv.head_pages
  obtain ⟨paging, unmapped⟩ := unmapPages_returns inv.backed unique small present
  rw [vfree_eq inv, Lib.bind_of_ok unmapped, Lib.bind_returns_iff,
    ← vmallocFreeRange_returns_iff s.free addr (alignUp_pages positive enough).2]
  simp

theorem firstFit_length {aligned : Nat} {free left : List Range} (found : firstFit aligned free = some (addr, left)) :
    left.length ≤ free.length := by
  induction free generalizing left with
  | nil => cases found
  | cons range rest ih =>
    simp only [firstFit] at found
    split at found
    · obtain ⟨⟨addr', left'⟩, found', same⟩ := Option.map_eq_some_iff.mp found
      cases same
      simpa using ih found'
    grind

theorem vmallocInitOnceLocked_length {ok : Bool} (done : vmallocInitOnceLocked boot s = (ok, t)) :
    t.free = s.free ∨ t.free.length = 1 := by
  simp only [vmallocInitOnceLocked] at done
  grind

/-- The free ranges fit into their table. -/
theorem VmallocReached.length_le (reached : VmallocReached boot s live) (room : boot.VmallocRoom) :
    s.free.length ≤ vmallocMaxRanges := by
  induction reached with
  | start => exact Nat.zero_le _
  | vmalloc before done ih =>
    rcases vmalloc_stages room (before.sound room).1 done with ⟨-, rfl⟩ | ⟨vm, first, inv, -, positive, enough, carved⟩
    · exact ih
    · have bounded : vm.free.length ≤ vmallocMaxRanges := by
        rcases vmallocInitOnceLocked_length first with same | one
        · exact same ▸ ih
        · exact one ▸ by decide
      rcases vmallocCarve_stages inv positive enough carved with ⟨-, rfl⟩ |
        ⟨-, start, left, count, paging, found, -, -, ⟨-, -, rfl⟩ | ⟨-, -, paging', -, rfl⟩⟩
      · exact bounded
      · exact (firstFit_length found).trans bounded
      · exact bounded
  | vfree before handed done ih =>
    obtain ⟨⟨-, -, -, -, none', -⟩ | inv, -⟩ := before.sound room
    · grind
    · have first := inv.perm (List.perm_cons_erase handed)
      obtain ⟨positive, enough⟩ := first.sizes _ List.mem_cons_self
      obtain ⟨-, -, high⟩ := first.placed _ List.mem_cons_self
      have space := (vfree_returns_iff first).mp ⟨_, done⟩
      obtain ⟨paging, free, -, returned, rfl⟩ := vfree_live first done
      rw [vmallocFreeRange_coalesces first.ranges.separated first.ranges.below first.region.fits (alignUp_pages positive enough).2 high returned]
      exact (Lib.coalesce_insertRange_length_le _ _).trans space
  | call _ _ _ ih => exact ih
  | setNx _ _ ih => exact ih
  | allocFrame _ _ ih => exact ih
  | freeFrame _ _ _ ih => exact ih

/-- The free ranges are those of a region, also before the first call. -/
theorem VmallocReached.freeRanges (reached : VmallocReached boot s live) (room : boot.VmallocRoom) :
    ∃ limit < 2 ^ 64, FreeRanges limit s.free := by
  rcases (reached.sound room).1 with ⟨-, free, -⟩ | inv
  · rw [free]
    exact ⟨0, by decide, .nil, by simp, by simp⟩
  · exact ⟨s.limit, inv.region.fits, inv.ranges⟩

/-- A range that is free touches a live allocation only at an end. -/
theorem VmallocInv.touches_iff (inv : VmallocInv s ((addr, size) :: live)) (member : range ∈ s.free) :
    range.Touches (clipRange ⟨addr, alignUp size pmmPageSize⟩) ↔
      range.start + range.size = addr ∨ addr + alignUp size pmmPageSize = range.start := by
  obtain ⟨positive, enough⟩ := inv.sizes _ List.mem_cons_self
  have extent := (alignUp_pages positive enough).2
  have below := (inv.placed _ List.mem_cons_self).2.2
  have fits := inv.region.fits
  have positive' := inv.ranges.separated.positive range member
  dsimp only at extent below
  rw [clipRange_of_fits (by dsimp only; omega), Range.Touches]
  dsimp only
  constructor
  · by_contra neither
    -- The later of the two starts lies in both.
    have free : Lib.Covers s.free (max range.start addr) := ⟨range, member, by omega, by omega⟩
    refine ((inv.covers _).mp free).2.2 ⟨allocation (addr, size), by simp, ?_⟩
    simp only [Range.Contains, allocation]
    omega
  · omega

end Calls

/-- Giving back any range succeeds whenever the table can hold what results, for every range, for
every allocation that is released and for every range that a failed `vmalloc` gives back, iff the
table is not full or the range touches no free one. -/
theorem free_range_overflow_iff {boot : Boot} {s : Vmalloc} {live : List (Nat × Nat)} (room : boot.VmallocRoom)
    (reached : VmallocReached boot s live) :
    (∀ start size, start < 2 ^ 64 → 0 < size →
      (((mergedRanges s.free start size).length ≤ vmallocMaxRanges → ∃ left, vmallocFreeRange s.free start size = .ok left) ↔
        s.free.length < vmallocMaxRanges ∨ ∀ range ∈ s.free, ¬ range.Touches (clipRange ⟨start, size⟩))) ∧
    (∀ addr size, (addr, size) ∈ live →
      (((mergedRanges s.free addr (alignUp size pmmPageSize)).length ≤ vmallocMaxRanges → ∃ t, vfree s addr size = .ok t) ↔
        s.free.length < vmallocMaxRanges ∨ ∀ range ∈ s.free,
          range.start + range.size ≠ addr ∧ addr + alignUp size pmmPageSize ≠ range.start)) ∧
    (∀ size addr left, 0 < size → size ≤ alignUp size pmmPageSize →
      firstFit (alignUp size pmmPageSize) (s.ranges boot) = some (addr, left) →
      (((mergedRanges left addr (alignUp size pmmPageSize)).length ≤ vmallocMaxRanges →
          ∃ free, vmallocFreeRange left addr (alignUp size pmmPageSize) = .ok free) ↔
        left.length < vmallocMaxRanges)) := by
  have bounded := reached.length_le room
  obtain ⟨limit, fits, ranges⟩ := reached.freeRanges room
  have law : ∀ {Q : Prop} start size, start < 2 ^ 64 → 0 < size → (Q ↔ s.free.length < vmallocMaxRanges) →
      (((mergedRanges s.free start size).length ≤ vmallocMaxRanges → Q) ↔
        s.free.length < vmallocMaxRanges ∨ ∀ range ∈ s.free, ¬ range.Touches (clipRange ⟨start, size⟩)) := by
    grind [mergedRanges_grow_iff]
  refine ⟨fun start size word positive => ?_, fun addr size handed => ?_, fun size addr left positive enough found => ?_⟩
  · exact law start size word positive (vmallocFreeRange_returns_iff s.free start positive)
  · obtain ⟨⟨-, -, -, -, none', -⟩ | inv, -⟩ := reached.sound room
    · grind
    · have first := inv.perm (List.perm_cons_erase handed)
      obtain ⟨positive, enough⟩ := first.sizes _ List.mem_cons_self
      have extent := (alignUp_pages positive enough).2
      have below := (first.placed _ List.mem_cons_self).2.2
      have word := first.region.fits
      rw [law addr _ (by omega) extent (vfree_returns_iff first)]
      refine or_congr_right (forall_congr' fun range => forall_congr' fun member => ?_)
      rw [first.touches_iff member, not_or]
  · obtain ⟨sound, -⟩ := reached.sound room
    rcases vmalloc_entry room sound size 0 with ⟨-, zero | wraps | ⟨first, free⟩⟩ | ⟨vm, first, inv, -⟩
    · omega
    · omega
    · rw [Vmalloc.ranges, first] at found
      rw [free] at found
      cases found
    · rw [Vmalloc.ranges, first] at found
      obtain ⟨pages, extent⟩ := alignUp_pages positive enough
      have word := inv.region.fits
      obtain ⟨ranges', -, below, -⟩ := firstFit_ok inv.ranges word pages found
      have length : (mergedRanges left addr (alignUp size pmmPageSize)).length ≤ vmallocMaxRanges := by
        rw [mergedRanges_length ranges' word (by omega), clipRange_of_fits (by dsimp only; omega),
          firstFit_coalesces inv.ranges word extent pages found]
        rcases vmallocInitOnceLocked_length first with same | one
        · exact same ▸ bounded
        · exact one ▸ by decide
      rw [← vmallocFreeRange_returns_iff left addr extent]
      grind

theorem free_range_overflow_iff_tiny : ∃ s t, VmallocReached tinyBoot s [(0xffffffff80003000, 1)] ∧
    vfree s 0xffffffff80003000 1 = .ok t := by
  obtain ⟨s, reached, space, small⟩ := tinyVmalloc_first (fun s => s.free.length < vmallocMaxRanges ∧
    (mergedRanges s.free 0xffffffff80003000 4096).length ≤ vmallocMaxRanges) (by decide +kernel)
  obtain ⟨-, released, -⟩ := free_range_overflow_iff tinyBoot_room reached
  obtain ⟨t, freed⟩ := (released 0xffffffff80003000 1 (by simp)).mpr (.inl space) small
  exact ⟨s, t, reached, freed⟩

section Fragments

variable {boot : Boot} {s : Vmalloc} {live : List (Nat × Nat)} {start : Nat}

/-- Single pages from the front of the stock. -/
theorem Stocked.pages (reached : VmallocReached boot s live) (positive : 0 < start)
    (stocked : Stocked s start (count + rest)) :
    ∃ t live', VmallocReached boot t live' ∧ Stocked t (start + count * 4096) rest ∧ live ⊆ live' ∧
      ∀ k < count, (start + k * 4096, 4096) ∈ live' := by
  induction count generalizing s live start with
  | zero =>
    grind
  | succ count ih =>
    rw [show count + 1 + rest = 1 + (count + rest) by omega] at stocked
    obtain ⟨middle, done, stocked'⟩ := stocked.vmalloc (by decide) (show pagingFlagWritable &&& pagingFlagUser = 0 by decide) boot
    have reached' := reached.vmalloc done
    rw [if_neg (Nat.ne_of_gt positive)] at reached'
    obtain ⟨t, live', reached'', stocked'', kept, pages⟩ := ih reached' (by omega) stocked'
    refine ⟨t, live', reached'', ?_, fun entry member => kept (List.mem_cons_of_mem _ member), fun k below => ?_⟩
    · grind
    · cases k with
      | zero => exact kept (by simp)
      | succ k =>
        grind

/-- Every second page of a run has been released, from its end on. -/
structure Fragmented (s : Vmalloc) (live : List (Nat × Nat)) (start pages released : Nat) : Prop where
  length : s.free.length = released + 1
  beyond : ∀ range ∈ s.free, start + 2 * (pages - released) * 4096 ≤ range.start
  free : 0 < released → Lib.Covers s.free (start + 2 * (pages - released) * 4096)
  odd : ∀ k < pages, (start + (2 * k + 1) * 4096, 4096) ∈ live
  even : ∀ k < pages - released, (start + 2 * k * 4096, 4096) ∈ live

theorem alignUp_one_page : alignUp 4096 pmmPageSize = 4096 := by decide

section

variable (reached : VmallocReached boot s live) (room : boot.VmallocRoom)
include reached room

/-- Releasing one more page leaves one more fragment. -/
theorem Fragmented.release {pages : Nat} (fragmented : Fragmented s live start pages released)
    (more : released < pages) (space : released + 1 < vmallocMaxRanges) :
    ∃ t live', VmallocReached boot t live' ∧ Fragmented t live' start pages (released + 1) := by
  obtain ⟨left, counted⟩ : ∃ left, pages - released = left + 1 := ⟨pages - released - 1, by omega⟩
  have counted' : pages - (released + 1) = left := by omega
  obtain ⟨length, beyond, -, odd, even⟩ := fragmented
  have handed := even left (by omega)
  obtain ⟨⟨-, -, -, -, none', -⟩ | inv, -⟩ := reached.sound room
  · grind
  have first := inv.perm (List.perm_cons_erase handed)
  obtain ⟨t, done⟩ := (vfree_returns_iff first).mpr (by dsimp only; omega)
  have below := (first.placed _ List.mem_cons_self).2.2
  obtain ⟨paging, free, -, returned, rfl⟩ := vfree_live first done
  rw [alignUp_one_page] at returned below
  have merged := vmallocFreeRange_coalesces first.ranges.separated first.ranges.below first.region.fits (by decide) below returned
  obtain ⟨separated, covered⟩ := Lib.coalesce_insertRange ⟨start + 2 * left * 4096, 4096⟩ first.ranges.separated
    (show 0 < 4096 by decide)
  rw [← merged] at covered separated
  refine ⟨_, _, reached.vfree handed done, ?_, ?_, ?_, ?_, ?_⟩
  · -- The page touches no free range, so that the list gets longer.
    have longer := (Lib.coalesce_insertRange_length ⟨start + 2 * left * 4096, 4096⟩ first.ranges.separated).not.mpr (by
      rintro ⟨range, member, touches, -⟩
      grind)
    grind [Lib.coalesce_insertRange_length_le]
  · intro range member
    have positive := separated.positive range member
    rw [counted']
    rcases (covered range.start).mp ⟨range, member, Nat.le_refl _, by omega⟩ with new | ⟨other, member', old⟩
    · exact new.1
    · exact le_trans (by omega) ((beyond other member').trans old.1)
  · intro _
    rw [counted']
    refine (covered _).mpr (.inl ⟨Nat.le_refl _, ?_⟩)
    dsimp only
    omega
  · grind
  grind

/-- A run of pages, every second of which is released. -/
theorem Stocked.fragments (positive : 0 < start) {pages : Nat}
    (stocked : Stocked s start (2 * pages + rest)) (enough : released ≤ pages)
    (space : released < vmallocMaxRanges) :
    ∃ t live', VmallocReached boot t live' ∧ Fragmented t live' start pages released := by
  induction released with
  | zero =>
    obtain ⟨t, live', reached', stocked', -, taken⟩ := Stocked.pages reached positive stocked
    obtain ⟨size, free, -⟩ := stocked'.range
    refine ⟨t, live', reached', by simp [free], ?_, fun no => absurd no (Nat.lt_irrefl 0), fun k inside => taken _ (by omega),
      fun k inside => taken _ (by omega)⟩
    simp [free]
  | succ released ih =>
    grind [Fragmented.release]

/-- With the table full, the page between two free ones cannot be released. -/
theorem Fragmented.stuck (fragmented : Fragmented s live start 127 127) :
    (start + 4096, 4096) ∈ live ∧ (∃ range ∈ s.free, range.start + range.size = start + 4096) ∧
      (mergedRanges s.free (start + 4096) 4096).length ≤ vmallocMaxRanges ∧
      vfree s (start + 4096) 4096 = .error ⟨"vmalloc: free list overflow"⟩ := by
  have handed : (start + 4096, 4096) ∈ live := fragmented.odd 0 (by decide)
  obtain ⟨⟨-, -, -, -, none', -⟩ | inv, -⟩ := reached.sound room
  · grind
  have first := inv.perm (List.perm_cons_erase handed)
  have aligned := (first.placed _ List.mem_cons_self).1
  have below := (first.placed _ List.mem_cons_self).2.2
  have fits := first.region.fits
  rw [alignUp_one_page] at below
  obtain ⟨range, member, low, high⟩ := fragmented.free (by decide)
  obtain ⟨aligned', whole⟩ := first.ranges.aligned range member
  have used : Lib.Covers (((start + 4096, 4096) :: live.erase (start + 4096, 4096)).map allocation) (start + 4096) :=
    ⟨_, List.mem_cons_self, Nat.le_refl _, by simp [allocation, alignUp_one_page]⟩
  have hole : range.start + range.size ≤ start + 4096 := by
    by_contra longer
    have free : Lib.Covers s.free (start + 4096) := ⟨range, member, by omega, by omega⟩
    exact ((first.covers _).mp free).2.2 used
  have adjacent : range.start + range.size = start + 4096 := by omega
  have length : (mergedRanges s.free (start + 4096) 4096).length ≤ s.free.length := by
    refine (mergedRanges_grow_iff first.ranges fits (by omega)).mpr ⟨range, member, ?_⟩
    rw [clipRange_of_fits (by dsimp only; omega)]
    exact ⟨by dsimp only; omega, adjacent.ge⟩
  refine ⟨handed, ⟨range, member, adjacent⟩, length.trans_eq fragmented.length, ?_⟩
  obtain ⟨unique, small, present⟩ := first.head_pages
  obtain ⟨paging, unmapped⟩ := unmapPages_returns first.backed unique small present
  rw [vfree_eq first, Lib.bind_of_ok unmapped, alignUp_one_page, vmallocFreeRange_full (by decide) fragmented.length.ge]
  rfl

end

end Fragments

/-- A full table and a page whose release would make it shorter. -/
theorem free_range_overflows_adjacent : ∃ s live, VmallocReached roomyBoot s live ∧ (0xffffffff80202000, 4096) ∈ live ∧
    s.free.length = vmallocMaxRanges ∧ (∃ range ∈ s.free, range.start + range.size = 0xffffffff80202000) ∧
    (mergedRanges s.free 0xffffffff80202000 4096).length ≤ vmallocMaxRanges ∧
    vfree s 0xffffffff80202000 4096 = .error ⟨"vmalloc: free list overflow"⟩ := by
  have start : VmallocReached roomyBoot ⟨roomyPagingReady, [], 0, 0, false⟩ [] :=
    .start roomyPaging_cold roomyPaging_started
  -- The first page sets the region up.
  obtain ⟨t, done, stocked⟩ := Stocked.vmalloc (show Stocked roomyVmalloc 0xffffffff80200000 (1 + 2047) from roomyVmalloc_stocked)
    (by decide) (show pagingFlagWritable &&& pagingFlagUser = 0 by decide) roomyBoot
  rw [← vmalloc_of_init roomyVmalloc_init rfl (by decide) (by decide)] at done
  have reached := start.vmalloc done
  obtain ⟨s, live, reached', fragmented⟩ := Stocked.fragments reached roomyBoot_room (by decide)
    (show Stocked t 0xffffffff80201000 (2 * 127 + 1793) from stocked) (Nat.le_refl 127) (by decide)
  obtain ⟨handed, adjacent, small, stuck⟩ := fragmented.stuck reached' roomyBoot_room
  exact ⟨s, live, reached', handed, fragmented.length, adjacent, small, stuck⟩

end Velox
