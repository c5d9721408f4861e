import Velox.Mm.VmallocRanges

namespace Velox

section Frame

variable {s t : Paging} {root virtAddr : Nat}

/-- The same page tables with other frames in use. -/
def Paging.withPmm (s : Paging) (pmm : Pmm) : Paging := { s with pmm := pmm }

theorem Paging.withPmm_tables (s : Paging) (pmm : Pmm) : (s.withPmm pmm).tables = s.tables := rfl

/-- Freeing tables only reads the page tables. -/
theorem freeEmptyTables_withPmm (s : Paging) (pmm : Pmm) (root virtAddr : Nat) :
    ∃ pmm', freeEmptyTables (s.withPmm pmm) root virtAddr = (freeEmptyTables s root virtAddr).withPmm pmm' := by
  have either : ∀ {c : Prop} [Decidable c] {a b a' b' : Paging}, (∃ pmm, a = a'.withPmm pmm) →
      (∃ pmm, b = b'.withPmm pmm) → ∃ pmm, (if c then a else b) = (if c then a' else b').withPmm pmm := by
    intro c _ a b a' b' first second
    split
    · exact first
    · exact second
  refine either ⟨_, rfl⟩ (either ⟨_, rfl⟩ (either ⟨_, rfl⟩ (either ?_ ⟨_, rfl⟩)))
  exact either (either ⟨_, rfl⟩ ⟨_, rfl⟩) ⟨_, rfl⟩

/-- Unmapping a page does not depend on which frames are in use. -/
theorem pagingUnmapPage_withPmm (tree : TableTree s root) (pmm : Pmm) (virtAddr : Nat) :
    ∃ answer t pmm', pagingUnmapPage s root virtAddr = .ok (answer, t) ∧
      pagingUnmapPage (s.withPmm pmm) root virtAddr = .ok (answer, t.withPmm pmm') := by
  simp only [pagingUnmapPageLocked, walkToPte_find tree, walkToPte_reads tree (s.withPmm_tables pmm), bind, Except.bind]
  cases s.tableAt root (walkPath virtAddr) with
  | none => exact ⟨none, s, pmm, rfl, rfl⟩
  | some pt =>
    by_cases absent : s.tables pt (ptIndex virtAddr) &&& pagePresent = 0
    · exact ⟨none, s, pmm, if_pos absent, if_pos absent⟩
    · obtain ⟨pmm', same⟩ := freeEmptyTables_withPmm (s.setEntry pt (ptIndex virtAddr) 0) pmm root virtAddr
      refine ⟨_, _, pmm', if_neg absent, (if_neg absent).trans ?_⟩
      rw [← same]
      rfl

/-- What is left of a leaf once its page was unmapped. -/
def Leaf.withoutPage : Option Leaf → Option Leaf := Leaf.onSmall fun _ => none

/-- One round of the loop of `vfree`. -/
theorem unmapPage_touched (tree : TableTree s root) (pmm : Pmm) (virtAddr : Nat) :
    ∃ answer t pmm', pagingUnmapPage (s.withPmm pmm) root virtAddr = .ok (answer, t.withPmm pmm') ∧ TableTree t root ∧
      Touched root Leaf.withoutPage [virtAddr] s t := by
  obtain ⟨answer, t, pmm', done, shadowed⟩ := pagingUnmapPage_withPmm tree pmm virtAddr
  refine ⟨answer, t, pmm', shadowed, ?_⟩
  rcases pagingUnmapPage_rebound tree done with ⟨-, rfl, none'⟩ | ⟨entry, mapped, -, rebound⟩
  · exact ⟨tree, .unchanged (Leaf.onSmall_of_not_small none' _)⟩
  · have gone : Leaf.withoutPage (s.leafAt root virtAddr) = none := by rw [mapped, Leaf.withoutPage, Leaf.onSmall]
    rw [← gone] at rebound
    exact ⟨rebound.tree, rebound.touched⟩

/-- The loop of `vfree` returns; it unmaps the pages it visits and no others. The frames of tables
that it frees may be in use elsewhere, so that only the tables stay a tree. -/
theorem unmapPages_touched (tree : TableTree s root) (pmm : Pmm) (addr : Nat) (offsets : List Nat) :
    ∃ t pmm', unmapPages root addr offsets (s.withPmm pmm) = .ok (t.withPmm pmm') ∧ TableTree t root ∧
      Touched root Leaf.withoutPage (offsets.map fun offset => (addr + offset) % 2 ^ 64) s t := by
  induction offsets generalizing s pmm with
  | nil => exact ⟨s, pmm, rfl, tree, .refl root _ s⟩
  | cons offset rest ih =>
    obtain ⟨answer, middle, pmm', done, tree', touched⟩ := unmapPage_touched tree pmm ((addr + offset) % 2 ^ 64)
    have freed : ∃ pmm'', unmapPages root addr (offset :: rest) (s.withPmm pmm) =
        unmapPages root addr rest (middle.withPmm pmm'') := by
      rw [unmapPages, List.foldlM_cons, done]
      cases answer with
      | none => exact ⟨pmm', rfl⟩
      | some phys => exact ⟨pmmFreePagePhys pmm' phys, rfl⟩
    obtain ⟨pmm'', freed⟩ := freed
    obtain ⟨t, pmm₃, rest', tree'', touched'⟩ := ih tree' pmm''
    exact ⟨t, pmm₃, freed.trans rest', tree'', touched.cons (Leaf.onSmall_settled fun _ => rfl) touched'⟩

end Frame

section Release

variable {boot : Boot} {s t : Vmalloc} {live : List (Nat × Nat)} {addr size : Nat}

/-- The addresses that the loop of `vfree` passes to `paging_unmap_page`. -/
def vfreePages (addr size : Nat) : List Nat :=
  (strides 0 (alignUp size pmmPageSize) pmmPageSize).map fun offset => (addr + offset) % 2 ^ 64

theorem vfree_idle (idle : ¬ VfreeActs s addr size) : vfree s addr size = .ok s := by
  have low : addr &&& (pmmPageSize - 1) = addr % 4096 := Nat.and_two_pow_sub_one_eq_mod addr 12
  simp only [vfree, low]
  split_ifs
  all_goals first
    | rfl
    | exfalso
      apply idle
      simp only [VfreeActs, VfreeChecks]
      grind

/-- Past its checks `vfree` unmaps the pages it visits and merges its range into the free ones; it
only stops where their table is full. -/
theorem vfree_effect (tree : TableTree s.paging s.paging.info.rootPml4Phys) (acts : VfreeActs s addr size) :
    (s.free.length < vmallocMaxRanges → ∃ t, vfree s addr size = .ok t) ∧
    ∀ t, vfree s addr size = .ok t → t.free = mergedRanges s.free addr (alignUp size pmmPageSize) ∧
      ∀ virtAddr, pagingTranslate t.paging s.paging.info.rootPml4Phys virtAddr =
        if ∃ page ∈ vfreePages addr size, pageNumber page = pageNumber virtAddr then
          (Leaf.withoutPage (s.paging.leafAt s.paging.info.rootPml4Phys virtAddr)).map (Leaf.address virtAddr)
        else pagingTranslate s.paging s.paging.info.rootPml4Phys virtAddr := by
  have positive : 0 < alignUp size pmmPageSize := by
    obtain ⟨⟨-, some', -, enough, -⟩, -⟩ := acts
    omega
  obtain ⟨shadow, pmm, unmapped, tree', touched⟩ := unmapPages_touched tree s.paging.pmm addr
    (strides 0 (alignUp size pmmPageSize) pmmPageSize)
  have same : s.paging.withPmm s.paging.pmm = s.paging := rfl
  rw [same] at unmapped
  rw [vfree_acts acts, Lib.bind_of_ok unmapped]
  refine ⟨fun space => ⟨_, Lib.bind_of_ok (vmallocFreeRange_eq positive space)⟩, fun t done => ?_⟩
  obtain ⟨free, merged, rest⟩ := Lib.bind_ok done
  have space := (vmallocFreeRange_returns_iff s.free addr positive).mp ⟨free, merged⟩
  rw [vmallocFreeRange_eq positive space] at merged
  cases merged
  cases rest
  refine ⟨rfl, fun virtAddr => ?_⟩
  have translated : pagingTranslate (shadow.withPmm pmm) s.paging.info.rootPml4Phys virtAddr =
      pagingTranslate shadow s.paging.info.rootPml4Phys virtAddr := rfl
  rw [translated, pagingTranslate, translateWithCr3_eq_leaf tree', translateWithCr3_eq_leaf tree, touched virtAddr]
  exact apply_ite _ _ _ _

/-- The effects of `vfree` stay in the region, and its loop does not wrap around. -/
def VfreeInside (s : Vmalloc) (addr size : Nat) : Prop :=
  (∀ page ∈ vfreePages addr size, s.base ≤ page ∧ page < s.limit) ∧
  (s.base ≤ addr ∧ addr + alignUp size pmmPageSize ≤ s.limit) ∧
  ∀ offset ∈ strides 0 (alignUp size pmmPageSize) pmmPageSize, addr + offset < 2 ^ 64

/-- A call that acts stays inside unless its size is beyond the end of the region. -/
theorem VfreeActs.inside_iff (region : Region s) (acts : VfreeActs s addr size) :
    VfreeInside s addr size ↔ alignUp size pmmPageSize ≤ s.limit := by
  have fits := region.fits
  obtain ⟨-, above, below, check, -⟩ := acts
  constructor
  · rintro ⟨-, ⟨-, high⟩, -⟩
    omega
  · intro small
    have high : addr + alignUp size pmmPageSize ≤ s.limit := by omega
    have bounded : ∀ offset ∈ strides 0 (alignUp size pmmPageSize) pmmPageSize, addr + offset < s.limit := by
      intro offset member
      obtain ⟨_, -, less⟩ := mem_strides (by decide) member
      omega
    refine ⟨fun page member => ?_, ⟨above, high⟩, fun offset member => (bounded offset member).trans fits⟩
    obtain ⟨offset, member', rfl⟩ := List.mem_map.mp member
    have less := bounded offset member'
    omega

end Release

/-- `vfree` returns without effect or acts on the pages that its loop visits, and these, the range it
gives back and the arithmetic stay inside iff the call does not pass the checks with a size that is
beyond the end of the region, from which the range check subtracts it. -/
theorem vfree_stays_inside_iff {boot : Boot} {s : Vmalloc} {live : List (Nat × Nat)} (room : boot.VmallocRoom)
    (reached : VmallocReached boot s live) (addr size : Nat) :
    (¬ VfreeActs s addr size → vfree s addr size = .ok s) ∧
    (VfreeActs s addr size → ∀ t, vfree s addr size = .ok t →
      t.free = mergedRanges s.free addr (alignUp size pmmPageSize) ∧
      ∀ virtAddr, pagingTranslate t.paging s.paging.info.rootPml4Phys virtAddr =
        if ∃ page ∈ vfreePages addr size, pageNumber page = pageNumber virtAddr then
          (Leaf.withoutPage (s.paging.leafAt s.paging.info.rootPml4Phys virtAddr)).map (Leaf.address virtAddr)
        else pagingTranslate s.paging s.paging.info.rootPml4Phys virtAddr) ∧
    ((VfreeActs s addr size → VfreeInside s addr size) ↔
      ¬ (VfreeActs s addr size ∧ s.limit < alignUp size pmmPageSize)) ∧
    ((VfreeActs s addr size → VfreeInside s addr size) ∧ (VfreeChecks s addr size → alignUp size pmmPageSize ≤ s.limit) ↔
      ¬ (VfreeChecks s addr size ∧ s.limit < alignUp size pmmPageSize)) := by
  obtain ⟨sound, tallied⟩ := reached.sound room
  have inside : VfreeActs s addr size → (VfreeInside s addr size ↔ alignUp size pmmPageSize ≤ s.limit) := by
    intro acts
    rcases sound with ⟨fresh, -⟩ | inv
    · obtain ⟨⟨-, -, -, -, ready⟩, -⟩ := acts
      simp [ready] at fresh
    · exact acts.inside_iff inv.region
  refine ⟨vfree_idle, fun acts => (vfree_effect tallied.tree acts).2, ?_, ?_⟩
  · rw [not_and, Nat.not_lt]
    exact forall_congr' inside
  · rw [not_and, Nat.not_lt]
    refine ⟨fun law => law.2, fun small => ⟨fun acts => (inside acts).mpr (small acts.1), small⟩⟩

theorem vfree_stays_inside_iff_tiny : ∃ s t, VmallocReached tinyBoot s [(0xffffffff80003000, 1)] ∧
    vfree s 0xffffffff80003000 1 = .ok t ∧ VfreeInside s 0xffffffff80003000 1 ∧
    pagingTranslate t.paging s.paging.info.rootPml4Phys 0xffffffff80002000 = some 0x2000 := by
  obtain ⟨s, reached, acts, small, returns, before⟩ := tinyVmalloc_first (fun s => VfreeActs s 0xffffffff80003000 1 ∧
    alignUp 1 pmmPageSize ≤ s.limit ∧ (vfree s 0xffffffff80003000 1).toOption.isSome = true ∧
    pagingTranslate s.paging s.paging.info.rootPml4Phys 0xffffffff80002000 = some 0x2000) (by decide +kernel)
  obtain ⟨-, effect, inside, -⟩ := vfree_stays_inside_iff tinyBoot_room reached 0xffffffff80003000 1
  obtain ⟨t, freed, -⟩ := Lib.exists_ok_of_test (Option.any_true ▸ returns)
  have within := inside.mpr (fun beyond => Nat.not_lt.mpr small beyond.2) acts
  have apart : ¬ ∃ page ∈ vfreePages 0xffffffff80003000 1, pageNumber page = pageNumber 0xffffffff80002000 := by decide
  refine ⟨s, t, reached, freed, within, ?_⟩
  rw [(effect acts t freed).2, if_neg apart, before]

/-- The smallest machine after its first page: a call for the whole address space but its last page
passes the checks and takes the kernel image out of the page tables. -/
theorem vfree_unmaps_kernel : ∃ s t, VmallocReached tinyBoot s [(0xffffffff80003000, 1)] ∧
    VfreeActs s 0xffffffff80004000 (2 ^ 64 - 4096) ∧ s.limit < alignUp (2 ^ 64 - 4096) pmmPageSize ∧
    vfree s 0xffffffff80004000 (2 ^ 64 - 4096) = .ok t ∧
    tinyBoot.kernelVirtualStart.toNat = 0xffffffff80002000 ∧
    pagingTranslate s.paging s.paging.info.rootPml4Phys 0xffffffff80002000 = some 0x2000 ∧
    pagingTranslate t.paging s.paging.info.rootPml4Phys 0xffffffff80002000 = none := by
  obtain ⟨s, reached, acts, beyond, space, before, small⟩ := tinyVmalloc_first
    (fun s => VfreeActs s 0xffffffff80004000 (2 ^ 64 - 4096) ∧ s.limit < alignUp (2 ^ 64 - 4096) pmmPageSize ∧
      s.free.length < vmallocMaxRanges ∧
      pagingTranslate s.paging s.paging.info.rootPml4Phys 0xffffffff80002000 = some 0x2000 ∧
      Leaf.withoutPage (s.paging.leafAt s.paging.info.rootPml4Phys 0xffffffff80002000) = none) (by decide +kernel)
  obtain ⟨returns, effect⟩ := vfree_effect (reached.sound tinyBoot_room).2.tree acts
  obtain ⟨t, freed⟩ := returns space
  refine ⟨s, t, reached, acts, beyond, freed, rfl, before, ?_⟩
  have visited : ∃ page ∈ vfreePages 0xffffffff80004000 (2 ^ 64 - 4096), pageNumber page = pageNumber 0xffffffff80002000 := by
    have whole : alignUp (2 ^ 64 - 4096) pmmPageSize = (2 ^ 52 - 1) * 4096 := by decide
    refine ⟨0xffffffff80002000, List.mem_map.mpr ⟨2 ^ 64 - 0x2000, ?_, by decide⟩, rfl⟩
    rw [whole]
    exact mem_strides_pages.mpr ⟨by decide, by decide⟩
  rw [(effect t freed).2, if_pos visited, small, Option.map_none]

end Velox
