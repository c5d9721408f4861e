import Mathlib.Order.Interval.Finset.Nat
import Velox.Mm.Handover
import Velox.Mm.PmmBoot
import Velox.Mm.VmallocSafety

namespace Velox

variable {virtAddr : Nat}

variable {s t : Paging} {root count : Nat}

/-- At least so many frames are free. -/
def Pmm.Spare (s : Pmm) (count : Nat) : Prop :=
  ∃ frames : Finset Nat, count ≤ frames.card ∧ ∀ page ∈ frames, s.IsFree page

theorem Pmm.Spare.fewer {s : Pmm} (spare : s.Spare count) (fewer : less ≤ count) : s.Spare less := by
  obtain ⟨frames, enough, free⟩ := spare
  exact ⟨frames, fewer.trans enough, free⟩

/-- An allocation takes one of the spare frames at most. -/
theorem pmmTryAllocPagePhys_spare {s : Pmm} (ready : s.Ready) (spare : s.Spare (count + 1)) :
    ∃ frame t, pmmTryAllocPagePhys s = (some frame, t) ∧ t.Spare count := by
  obtain ⟨frames, enough, free⟩ := spare
  obtain ⟨page, member⟩ := Finset.card_pos.mp (Nat.lt_of_lt_of_le (Nat.succ_pos count) enough)
  cases answered : pmmTryAllocPagePhys s with
  | mk answer t =>
    cases answer with
    | none =>
      rw [pmmTryAllocPagePhys_failed answered] at answered
      exact absurd answered (pmmTryAllocPagePhys_of_free ready (free page member).1 (free page member).2)
    | some frame =>
      have got := pmmTryAllocPagePhys_allocated answered
      refine ⟨frame, t, rfl, frames.erase (frame / 4096), ?_, ?_⟩
      · grind [Finset.pred_card_le_card_erase]
      · intro other kept
        obtain ⟨different, member'⟩ := Finset.mem_erase.mp kept
        obtain ⟨below, clear⟩ := free other member'
        exact ⟨got.total ▸ below, by simp [got.bits, different, clear]⟩

theorem allocTablePage_spare (ready : s.pmm.Ready) (spare : s.pmm.Spare (count + 1)) :
    ∃ table t, allocTablePage s = .ok (table, t) ∧ t.pmm.Spare count := by
  obtain ⟨frame, pmm, taken, left⟩ := pmmTryAllocPagePhys_spare ready spare
  have aligned := (pmmTryAllocPagePhys_allocated taken).aligned
  have proper : ¬ frame = 2 ^ 64 - 1 := by omega
  simp only [allocTablePage, taken, proper, ↓reduceIte]
  grind

theorem getOrCreateTable_spare (user : Bool) (ready : s.pmm.Ready)
    (small : s.tables parent index &&& pagePs = 0) (spare : s.pmm.Spare (count + 1)) :
    ∃ table t, getOrCreateTable s parent index user = .ok (table, t) ∧ t.pmm.Spare count := by
  by_cases present : s.tables parent index &&& pagePresent = 0
  · obtain ⟨table, t, allocated, left⟩ := allocTablePage_spare ready spare
    simp only [getOrCreateTable, present, ne_eq, not_true_eq_false, ↓reduceIte, allocated]
    exact ⟨_, _, rfl, left⟩
  · have fewer := spare.fewer (Nat.le_succ count)
    simp only [getOrCreateTable, present, small, ne_eq, not_false_eq_true, not_true_eq_false, ↓reduceIte]
    refine ⟨_, _, rfl, ?_⟩
    split
    · exact fewer
    · exact fewer

/-- A creating walk to an unmapped page builds at most three tables. -/
theorem walkToPte_spare (user : Bool) (tree : TableTree s root) (unmapped : s.leafAt root virtAddr = none)
    (spare : s.pmm.Spare (count + 3)) :
    ∃ answer t, walkToPte s root virtAddr true user = .ok (answer, t) ∧ t.pmm.Spare count := by
  have start : s.tableAt root [] = some root := rfl
  obtain ⟨pdpt, s₁, first, spare₁⟩ := getOrCreateTable_spare user tree.ready
    (tree.not_huge (by simp) start (pml4Index virtAddr)) spare
  obtain ⟨grown₁, reached₁, -⟩ := getOrCreateTable_grown tree (by simp) start first
  have small₁ := grown₁.tree.not_huge (by simp) reached₁ (pdptIndex virtAddr)
  obtain ⟨pd, s₂, second, spare₂⟩ := getOrCreateTable_spare user grown₁.tree.ready small₁ spare₁
  obtain ⟨grown₂, reached₂, -⟩ := getOrCreateTable_grown grown₁.tree (by simp) reached₁ second
  have small₂ := (grown₁.trans grown₂).not_huge reached₂ unmapped
  obtain ⟨pt, s₃, third, spare₃⟩ := getOrCreateTable_spare user grown₂.tree.ready small₂ spare₂
  refine ⟨some ⟨pt, ptIndex virtAddr⟩, s₃, ?_, spare₃⟩
  simp [walkToPte, tree.root_mask, first, small₁, second, small₂, third, bind, Except.bind, pure, Except.pure]

theorem pagingMapPage_spare (tree : TableTree s root) (allowed : MapAllowed s root virtAddr physAddr flags)
    (spare : s.pmm.Spare (count + 3)) :
    ∃ t, pagingMapPage s root virtAddr physAddr flags = .ok (true, t) ∧ t.pmm.Spare count := by
  obtain ⟨answer, middle, walked, left⟩ := walkToPte_spare ((flags &&& pagingFlagUser) != 0) tree allowed.2.2.2 spare
  obtain ⟨pt, rfl, -⟩ := walkToPte_create tree allowed.2.2.2 walked
  have aligned := (page_aligned_iff virtAddr physAddr).mpr ⟨allowed.1, allowed.2.1⟩
  have translated : translateWithCr3 s root virtAddr = none := by
    rw [translateWithCr3_eq_leaf tree, allowed.2.2.2]
    rfl
  refine ⟨middle.setEntry pt (ptIndex virtAddr) (leafEntry middle.nxEnabled physAddr flags), ?_, left⟩
  simp only [pagingMapPageLocked, aligned, allowed.2.2.1, translated, walked, ne_eq, not_true_eq_false, ↓reduceIte,
    Option.isSome_none, Bool.false_eq_true, bind, Except.bind, pure, Except.pure, leafEntry]

/-- The mapping loop of `vmalloc` gets to its end and leaves the other pages alone. -/
theorem mapPages_spare (mapped : Nat) (tree : TableTree s root)
    (kernel : flags &&& pagingFlagUser = 0)
    (fits : ∀ offset ∈ offsets, addr + offset < 2 ^ 64 ∧ (addr + offset) % 4096 = 0)
    (different : offsets.Pairwise fun first second => pageNumber (addr + first) ≠ pageNumber (addr + second))
    (unmapped : ∀ offset ∈ offsets, s.leafAt root (addr + offset) = none)
    (spare : s.pmm.Spare (count + 4 * offsets.length)) :
    ∃ t, mapPages root addr flags offsets mapped s = .ok (mapped + offsets.length * 4096, t) ∧ TableTree t root ∧
      t.info.rootPml4Phys = s.info.rootPml4Phys ∧ t.pmm.Spare count ∧
      ∀ other, (∀ offset ∈ offsets, pageNumber other ≠ pageNumber (addr + offset)) →
        t.leafAt root other = s.leafAt root other := by
  induction offsets generalizing s mapped with
  | nil => exact ⟨s, rfl, tree, rfl, spare, fun _ _ => rfl⟩
  | cons offset rest ih =>
    obtain ⟨small, aligned⟩ := fits offset List.mem_cons_self
    obtain ⟨first, later⟩ := List.pairwise_cons.mp different
    have enough : count + 4 * rest.length + 3 + 1 ≤ count + 4 * (offset :: rest).length := by
      grind
    obtain ⟨frame, pmm, taken, spare⟩ := pmmTryAllocPagePhys_spare tree.ready (spare.fewer enough)
    have got := pmmTryAllocPagePhys_allocated taken
    have tree' := tree.allocFrame taken
    have allowed : MapAllowed { s with pmm := pmm } root (addr + offset) frame flags :=
      ⟨aligned, got.aligned, fun both => both.2 kernel, unmapped offset List.mem_cons_self⟩
    obtain ⟨middle, called, spare⟩ := pagingMapPage_spare tree' allowed spare
    rcases pagingMapPage_rebound tree' called with ⟨no, -⟩ | ⟨-, -, rebound⟩
    · cases no
    have kept : ∀ other, pageNumber other ≠ pageNumber (addr + offset) →
        middle.leafAt root other = s.leafAt root other := by
      intro other away
      rw [rebound.leaves, if_neg away]
      rfl
    obtain ⟨t, done, tree'', sameRoot, left, leaves⟩ := ih (mapped + pmmPageSize) rebound.tree
      (fun other member => fits other (List.mem_cons_of_mem _ member)) later
      (fun other member => (kept _ (first other member).symm).trans (unmapped other (List.mem_cons_of_mem _ member))) spare
    refine ⟨t, ?_, tree'', sameRoot.trans rebound.rootPml4Phys, left, ?_⟩
    · have total : mapped + pmmPageSize + rest.length * 4096 = mapped + (offset :: rest).length * 4096 := by
        rw [pmmPageSize, List.length_cons]
        omega
      simp only [mapPages, taken, Nat.mod_eq_of_lt small, called, bind, Except.bind, ↓reduceIte, done, total]
    grind

/-- A region whose first pages can all be had: free, not mapped, and with four spare frames for
each of them. -/
structure Stocked (s : Vmalloc) (start pages : Nat) : Prop where
  initialized : s.initialized = true
  rooted : s.paging.info.rootPml4Phys ≠ 0
  tree : TableTree s.paging s.paging.info.rootPml4Phys
  aligned : start % 4096 = 0
  range : ∃ size, s.free = [⟨start, size⟩] ∧ pages * 4096 < size ∧ size ≤ 2 ^ 28 ∧ start + size < 2 ^ 64
  unmapped : ∀ virtAddr, start ≤ virtAddr → virtAddr < start + pages * 4096 →
    s.paging.leafAt s.paging.info.rootPml4Phys virtAddr = none
  spare : s.paging.pmm.Spare (4 * pages)

/-- An allocation takes the front of the stock. -/
theorem Stocked.vmalloc {s : Vmalloc} {start pages : Nat}
    (stocked : Stocked s start (pages + rest)) (positive : 0 < pages)
    (kernel : flags &&& pagingFlagUser = 0) (boot : Boot) :
    ∃ t, vmalloc boot s (pages * 4096) flags = .ok (start, t) ∧ Stocked t (start + pages * 4096) rest := by
  have aligned := stocked.aligned
  obtain ⟨size, free, large, bounded, fits⟩ := stocked.range
  have offsets : (strides 0 (pages * 4096) 4096).length = pages := by
    rw [strides_pages, List.length_map, List.length_range]
  have inside : ∀ offset ∈ strides 0 (pages * 4096) 4096, offset % 4096 = 0 ∧ offset < pages * 4096 :=
    fun offset member => mem_strides_pages.mp member
  have different : (strides 0 (pages * 4096) 4096).Pairwise fun first second =>
      pageNumber (start + first) ≠ pageNumber (start + second) := by
    refine (strides_pages_nodup pages).pairwise_of_forall_ne fun first member second member' apart same => apart ?_
    have low := inside first member
    have high := inside second member'
    simp only [pageNumber] at same
    omega
  obtain ⟨paging, done, tree, sameRoot, spare, leaves⟩ := mapPages_spare 0 stocked.tree kernel
    (fun offset member => by
      grind) different
    (fun offset member => by
      grind [unmapped])
    (stocked.spare.fewer (show 4 * rest + 4 * (strides 0 (pages * 4096) 4096).length ≤ 4 * (pages + rest) by
      omega))
  refine ⟨{ s with paging := paging, free := [⟨start + pages * 4096, size - pages * 4096⟩] }, ?_, ?_⟩
  · have whole : alignUp (pages * 4096) 4096 = pages * 4096 := by
      rw [alignUp_page]
      omega
    have enough : ¬ size < pages * 4096 := by omega
    have left : ¬ size - pages * 4096 = 0 := by omega
    have behind : (start + pages * 4096) % 2 ^ 64 = start + pages * 4096 := Nat.mod_eq_of_lt (by omega)
    have fit : firstFit (pages * 4096) s.free =
        some (start, [⟨start + pages * 4096, size - pages * 4096⟩]) := by
      simp only [free, firstFit, if_neg enough, if_neg left, behind]
    have given : pages * 4096 ≠ 0 := by omega
    rw [offsets, Nat.zero_add] at done
    simp only [Velox.vmalloc, pmmPageSize, if_neg given, whole, Nat.lt_irrefl, ↓reduceIte, vmallocInitOnceLocked,
      stocked.initialized, vmallocCarve, fit, if_neg stocked.rooted]
    refine (Lib.bind_of_ok done).trans ?_
    simp only [↓reduceIte]
    rfl
  · rw [← sameRoot] at tree leaves
    have range : rest * 4096 < size - pages * 4096 ∧ size - pages * 4096 ≤ 2 ^ 28 ∧
        start + pages * 4096 + (size - pages * 4096) < 2 ^ 64 := by
      omega
    refine ⟨stocked.initialized, sameRoot ▸ stocked.rooted, tree, by omega, ⟨_, rfl, range⟩, ?_, spare⟩
    intro virtAddr low high
    refine (leaves virtAddr fun offset member => ?_).trans ?_
    · have bound := inside offset member
      simp only [pageNumber]
      omega
    grind [unmapped]

/-- The first call sets the region up and goes on from there. -/
theorem vmalloc_of_init {s t : Vmalloc} {size : Nat}
    (init : vmallocInitOnceLocked boot s = (true, t)) (initialized : t.initialized = true)
    (asked : size ≠ 0) (plain : ¬ alignUp size pmmPageSize < size) :
    vmalloc boot s size flags = vmalloc boot t size flags := by
  have again : vmallocInitOnceLocked boot t = (true, t) := by
    simp only [vmallocInitOnceLocked, initialized, ↓reduceIte]
  simp only [vmalloc, if_neg asked, if_neg plain, init, again]

/-- The steps of `paging_init` that build the new tables. -/
def pagingBuild (boot : Boot) (s : Paging) : Except Panic (Nat × Paging) := do
  let (newPml4Phys, t) ← allocTablePage s
  let (kernelPages, t) ← mapKernelRangeFromOldCr3 boot { t with info := { t.info with rootPml4Phys := newPml4Phys } }
    newPml4Phys (s.cr3 &&& entryAddrMask4k)
  let t ← mapHhdmRange boot { t with info := { t.info with mappedKernelPages := kernelPages } } newPml4Phys
    (alignUp s.pmm.info.highestPhysicalAddress pageSize4k)
  let t ← mapPassthrough boot t newPml4Phys (s.cr3 &&& entryAddrMask4k)
  return (newPml4Phys, t)

/-- The switch to the new tables and the reclaiming. -/
def pagingSwitch (boot : Boot) (oldCr3Phys : Nat) (built : Nat × Paging) : Paging :=
  let skip := reclaimSkip (translateWithCr3 built.2 oldCr3Phys boot.rsp.toNat)
  let reclaimed := reclaimBootloaderReclaimable boot.memoryMap built.2.pmm skip.1 skip.2
  { built.2 with
    cr3 := built.1
    pmm := reclaimed.2
    info := { built.2.info with reclaimedBootloaderPages := reclaimed.1, initialized := true }
    initialized := true }

theorem pagingSwitch_tables (boot : Boot) (oldCr3Phys : Nat) (built : Nat × Paging) :
    (pagingSwitch boot oldCr3Phys built).info.rootPml4Phys = built.2.info.rootPml4Phys ∧
      (pagingSwitch boot oldCr3Phys built).tables = built.2.tables := ⟨rfl, rfl⟩

theorem pagingInit_of_build (listed : boot.memoryMap ≠ []) (fresh : s.initialized = false)
    (ready : s.pmm.initialized = true)
    (sane : ¬ (s.pmm.info.highestPhysicalAddress = 0 ∨ s.pmm.info.highestPhysicalAddress = 2 ^ 64 - 1))
    (translated : translateWithCr3 s (s.cr3 &&& entryAddrMask4k) boot.kernelVirtualStart.toNat ≠ none)
    (done : pagingBuild boot s = .ok built) :
    pagingInit boot s = .ok (pagingSwitch boot (s.cr3 &&& entryAddrMask4k) built) := by
  obtain ⟨⟨newPml4, s₁⟩, allocated, done⟩ := Lib.bind_ok done
  obtain ⟨⟨pages, s₂⟩, kernel, done⟩ := Lib.bind_ok done
  obtain ⟨s₃, hhdm, done⟩ := Lib.bind_ok done
  obtain ⟨s₄, passthrough, done⟩ := Lib.bind_ok done
  cases done
  simp only [pagingInit, fresh, ready, Bool.false_eq_true, ↓reduceIte, Bool.not_true]
  rw [if_neg listed, if_neg sane, if_neg translated]
  refine (Lib.bind_of_ok allocated).trans ?_
  refine (Lib.bind_of_ok kernel).trans ?_
  refine (Lib.bind_of_ok hhdm).trans ?_
  refine (Lib.bind_of_ok passthrough).trans ?_
  rfl

/-- The kernel behind its first 2 MiB, and 10240 frames that the bootloader gives up. -/
def roomyBoot : Boot where
  memoryMap := [⟨0, 0x20000, .usable⟩, ⟨0x200000, 0x2800000, .bootloaderReclaimable⟩]
  hhdmOffset := 0xffff800000000000
  framebuffer := ⟨0, 0, 0⟩
  kernelVirtualStart := 0xffffffff801ff000
  kernelVirtualEnd := 0xffffffff80200000
  kernelPhysicalStart := 0x1ff000
  kernelPhysicalEnd := 0x200000
  rsp := 0

-- Only the kernel evaluates the boot of this machine.
@[irreducible] def roomyPmm : Pmm := Lib.outcome blankPmm (pmmInit roomyBoot blankPmm)

def roomyPaging : Paging where
  pmm := roomyPmm
  tables := bootTables
  info := ⟨false, 0, 0, 0, 0, 0, 0, 0⟩
  initialized := false
  nxEnabled := true
  cr3 := 0x100000

@[irreducible] def roomyBuilt : Nat × Paging := Lib.outcome (0, roomyPaging) (pagingBuild roomyBoot roomyPaging)

@[irreducible] def roomyPagingReady : Paging := pagingSwitch roomyBoot (roomyPaging.cr3 &&& entryAddrMask4k) roomyBuilt

theorem roomyPmm_started : pmmInit roomyBoot blankPmm = .ok roomyPmm := by
  unfold roomyPmm
  exact Lib.eq_ok_outcome _ (by decide +kernel)

theorem roomyPaging_built : pagingBuild roomyBoot roomyPaging = .ok roomyBuilt := by
  unfold roomyBuilt
  exact Lib.eq_ok_outcome _ (by decide +kernel)

theorem roomyPaging_started : pagingInit roomyBoot roomyPaging = .ok roomyPagingReady := by
  have highest : roomyPaging.pmm.info.highestPhysicalAddress = _ := pmmInit_highest roomyPmm_started
  unfold roomyPagingReady
  refine pagingInit_of_build (by decide) rfl (pmmInit_ready roomyPmm_started).initialized ?_ (by decide +kernel) roomyPaging_built
  rw [highest]
  decide

theorem roomyBoot_apart : roomyBoot.EntriesApart := by
  unfold Boot.EntriesApart
  decide

theorem roomyBoot_room : roomyBoot.VmallocRoom := ⟨by decide, by decide⟩

theorem roomyPaging_cold : ColdBoot roomyBoot roomyPaging where
  started := ⟨blankPmm, roomyPmm_started⟩
  fresh := rfl
  apart := roomyBoot_apart
  sized := by decide
  uncounted := rfl
  window := .of_upper (by decide) (by decide)

theorem roomyPaging_handedOver : HandedOver roomyBoot roomyPaging where
  started := ⟨blankPmm, roomyPmm_started⟩
  fresh := rfl
  window := roomyPaging_cold.window
  oldTables := bootTables_safe rfl rfl (by decide +kernel)

/-- The reclaimed frames are spare. -/
theorem roomyPagingReady_spare : roomyPagingReady.pmm.Spare 8192 := by
  refine ⟨Finset.Ico 512 10752, by simp, ?_⟩
  intro page member
  obtain ⟨low, high⟩ := Finset.mem_Ico.mp member
  have reclaimable : roomyBoot.Reclaimable (page * 4096) :=
    ⟨⟨0x200000, 0x2800000, .bootloaderReclaimable⟩, by simp [roomyBoot], rfl,
      by grind, by
      have last : (⟨0x200000, 0x2800000, .bootloaderReclaimable⟩ : MemoryMapEntry).rawEnd = 0x2a00000 := by decide
      omega⟩
  have aligned : page * 4096 % 4096 = 0 := Nat.mul_mod_left _ _
  have kept := pagingInit_taken roomyPaging_handedOver roomyPaging_started aligned
    (reclaimable.taken roomyPaging_handedOver roomyBoot_apart aligned)
  have skip : reclaimSkip (translateWithCr3 roomyPaging roomyPaging.cr3 roomyBoot.rsp.toNat) = (0, 0x10000) := by
    decide +kernel
  have free : ¬ roomyPagingReady.pmm.Taken (page * 4096) := by
    rw [kept, Boot.Skips, skip]
    grind
  rw [Pmm.Taken, Nat.mul_div_cancel _ (by decide), not_or, Bool.not_eq_true, Nat.not_le] at free
  exact ⟨free.2, free.1⟩

def roomyVmalloc : Vmalloc where
  paging := roomyPagingReady
  free := [⟨0xffffffff80200000, 0x10000000⟩]
  base := 0xffffffff80200000
  limit := 0xffffffff90200000
  initialized := true

theorem roomyPagingReady_tables : roomyPagingReady.info.rootPml4Phys = roomyBuilt.2.info.rootPml4Phys ∧
    roomyPagingReady.tables = roomyBuilt.2.tables := by
  unfold roomyPagingReady
  exact pagingSwitch_tables _ _ _

theorem roomyPagingReady_reached : Reached roomyBoot roomyPagingReady :=
  .init roomyPaging_cold.toAtBoot roomyPaging_started

theorem roomyVmalloc_init :
    vmallocInitOnceLocked roomyBoot ⟨roomyPagingReady, [], 0, 0, false⟩ = (true, roomyVmalloc) := by
  have space := roomyPagingReady_reached.space
  have ready := space.tree.ready.initialized
  have highest : roomyPagingReady.pmm.info.highestPhysicalAddress = 0x2a00000 := space.highest
  have base : vmallocBase roomyBoot 0x2a00000 = 0xffffffff80200000 := by decide
  have sane : ¬ (0x2a00000 = 0 ∨ 0x2a00000 = 2 ^ 64 - 1) := by decide
  have above : ¬ 0xffffffff80200000 < roomyBoot.hhdmOffset.toNat := by decide
  have large : ¬ vmallocDefaultSize < pmmPageSize := by decide
  simp only [vmallocInitOnceLocked, ready, space.initialized, highest, base, sane, above, large, false_and,
    Bool.false_eq_true, ↓reduceIte, Bool.not_true, Bool.or_self]
  rfl

/-- Eight MiB behind the kernel can be had. -/
theorem roomyVmalloc_stocked : Stocked roomyVmalloc 0xffffffff80200000 2048 := by
  have built : roomyBuilt.2.info.rootPml4Phys ≠ 0 ∧ ∀ index ∈ ([1, 2, 3, 4] : List (Fin 512)),
      roomyBuilt.2.entryAt roomyBuilt.2.info.rootPml4Phys [511, 510] index = some 0 := by
    decide +kernel
  obtain ⟨root, tables⟩ := roomyPagingReady_tables
  have entries : roomyPagingReady.entryAt = roomyBuilt.2.entryAt := by
    funext root path index
    rw [Paging.entryAt, tables, Paging.entryAt]
  rw [← root, ← entries] at built
  refine ⟨rfl, built.1, roomyPagingReady_reached.space.tree, by decide, ⟨_, rfl, by decide⟩, ?_, roomyPagingReady_spare⟩
  intro virtAddr low high
  have path : pml4Index virtAddr = 511 ∧ pdptIndex virtAddr = 510 ∧ pdIndex virtAddr ∈ ([1, 2, 3, 4] : List (Fin 512)) := by
    simp only [List.mem_cons, List.not_mem_nil, or_false, Fin.ext_iff, pml4Index, pdptIndex, pdIndex, tableIndex_val]
    omega
  refine Paging.leafAt_of_vacant ?_ (built.2 (pdIndex virtAddr) path.2.2)
  rw [walkPath, path.1, path.2.1]
  simp

end Velox
