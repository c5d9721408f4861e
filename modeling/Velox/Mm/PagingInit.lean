import Velox.Mm.PagingWalk

namespace Velox

variable {virtAddr first pages entry table : Nat} {path : List (Fin 512)}

variable {s t : Paging} {root : Nat}

theorem TableTree.congr (tree : TableTree s root) (pmm : t.pmm = s.pmm) (tables : t.tables = s.tables) :
    TableTree t root := by
  have sameTable : t.tableAt = s.tableAt := by
    funext root path
    rw [Paging.tableAt, Paging.tableAt, tables]
  have sameEntry : t.entryAt = s.entryAt := by
    funext root path index
    rw [Paging.entryAt, Paging.entryAt, tables]
  constructor
  · exact pmm ▸ tree.ready
  · exact pmm ▸ tree.sized
  · exact tables ▸ tree.unshared
  · rw [pmm, sameTable]
    exact tree.placed
  · rw [sameEntry]
    exact tree.shaped

/-- The tables of a root, all built from frames that were free in `before`. -/
structure Built (before : Pmm) (root : Nat) (s : Paging) : Prop where
  tree : TableTree s root
  origin : ∀ path table, path.length ≤ 3 → s.tableAt root path = some table → before.bitTest (table / 4096) = false
  used : ∀ page, before.bitTest page = true → s.pmm.bitTest page = true
  total : s.pmm.info.totalPages = before.info.totalPages
  highest : s.pmm.info.highestPhysicalAddress = before.info.highestPhysicalAddress
  recorded : s.info.rootPml4Phys = root

variable {before : Pmm}

theorem Built.congr (built : Built before root s) (pmm : t.pmm = s.pmm) (tables : t.tables = s.tables)
    (recorded : t.info.rootPml4Phys = s.info.rootPml4Phys) : Built before root t := by
  refine ⟨built.tree.congr pmm tables, ?_, ?_, ?_, ?_, recorded.trans built.recorded⟩
  · intro path table short reached
    rw [Paging.tableAt, tables] at reached
    exact built.origin path table short reached
  · rw [pmm]
    exact built.used
  · rw [pmm]
    exact built.total
  grind [highest]

theorem Built.grow (built : Built before root s) (grown : Grown root s t) : Built before root t := by
  refine ⟨grown.tree, ?_, fun page used => grown.used page (built.used page used),
    grown.total.trans built.total, grown.highest.trans built.highest, grown.rootPml4Phys.trans built.recorded⟩
  grind [Grown.origin, origin, used]

theorem Built.setLeaf (built : Built before root s) (reached : s.tableAt root (walkPath virtAddr) = some pt)
    (present : entry &&& pagePresent ≠ 0) :
    Built before root (s.setEntry pt (ptIndex virtAddr) entry) := by
  refine ⟨built.tree.setLeaf reached (.inr present), ?_, built.used, built.total, built.highest, built.recorded⟩
  grind [TableTree.tableAt_setLeaf, tree, origin]

/-- A huge entry replaces whatever its page directory held there. -/
theorem TableTree.setHuge (tree : TableTree s root) (depth : path.length = 2)
    (reached : s.tableAt root path = some pd) (index : Fin 512)
    (present : entry &&& pagePresent ≠ 0) (writable : entry &&& pageWritable ≠ 0)
    (huge : entry &&& pagePs ≠ 0) :
    TableTree (s.setEntry pd index entry) root ∧ ∀ other table, other.length ≤ 3 →
      (s.setEntry pd index entry).tableAt root other = some table → s.tableAt root other = some table := by
  have leaf := tableChild_of_huge huge
  have subset : ∀ other table, other.length ≤ 3 →
      (s.setEntry pd index entry).tableAt root other = some table → s.tableAt root other = some table := by
    intro other table bounded arrived
    rw [Paging.tableAt, Paging.setEntry, Lib.follow_writeEntry_prune tree.unshared reached (by omega) leaf bounded]
      at arrived
    split at arrived
    · cases arrived
    · exact arrived
  refine ⟨⟨tree.ready, tree.sized, tree.unshared.prune reached (by omega) leaf, ?_, ?_⟩, subset⟩
  · intro other table bounded arrived
    exact tree.placed other table bounded (subset other table bounded arrived)
  · intro other place found bounded arrived
    rw [Paging.entryAt, Paging.setEntry, Lib.entryAt_writeEntry_prune tree.unshared reached (by omega) leaf bounded]
      at arrived
    split at arrived
    · cases arrived
      exact .inr ⟨present, fun _ => writable, by grind⟩
    · split at arrived
      · cases arrived
      · exact tree.shaped other place found bounded arrived

/-- The page directory for an address, built on demand by the two mapping helpers. -/
private theorem directory_built (built : Built before root s)
    (first : getOrCreateTable s root (pml4Index virtAddr) false = .ok (pdpt, s₁))
    (second : getOrCreateTable s₁ pdpt (pdptIndex virtAddr) false = .ok (pd, s₂)) :
    Built before root s₂ ∧ s₂.tableAt root [pml4Index virtAddr, pdptIndex virtAddr] = some pd := by
  have start : s.tableAt root [] = some root := rfl
  obtain ⟨grown₁, reached₁, -⟩ := getOrCreateTable_grown built.tree (by simp) start first
  obtain ⟨grown₂, reached₂, -⟩ := getOrCreateTable_grown grown₁.tree (by simp) reached₁ second
  exact ⟨(built.grow grown₁).grow grown₂, reached₂⟩

theorem mapPage4k_ok (done : mapPage4k s root virtAddr physAddr flags = .ok t) :
    virtAddr % 4096 = 0 ∧ physAddr % 4096 = 0 ∧ ∃ pdpt s₁ pd s₂ pt s₃,
      getOrCreateTable s root (pml4Index virtAddr) false = .ok (pdpt, s₁) ∧
      getOrCreateTable s₁ pdpt (pdptIndex virtAddr) false = .ok (pd, s₂) ∧
      getOrCreateTable s₂ pd (pdIndex virtAddr) false = .ok (pt, s₃) ∧
      t = s₃.setEntry pt (ptIndex virtAddr) (physAddr &&& entryAddrMask4k ||| flags ||| pagePresent) := by
  simp only [mapPage4k] at done
  split at done
  · cases done
  · rename_i aligned
    rw [not_not, page_aligned_iff] at aligned
    obtain ⟨⟨pdpt, s₁⟩, first, done⟩ := Lib.bind_ok done
    obtain ⟨⟨pd, s₂⟩, second, done⟩ := Lib.bind_ok done
    split at done
    · cases done
    · obtain ⟨⟨pt, s₃⟩, third, done⟩ := Lib.bind_ok done
      cases done
      grind

theorem smallEntry_present (physAddr flags : Nat) :
    (physAddr &&& entryAddrMask4k ||| flags ||| pagePresent) &&& pagePresent ≠ 0 := by
  rw [Lib.or_and_ne_zero]
  exact .inr (by decide)

theorem mapPage4k_built (built : Built before root s) (done : mapPage4k s root virtAddr physAddr flags = .ok t) :
    Built before root t := by
  obtain ⟨-, -, pdpt, s₁, pd, s₂, pt, s₃, first, second, third, rfl⟩ := mapPage4k_ok done
  obtain ⟨built₂, reached₂⟩ := directory_built built first second
  obtain ⟨grown₃, reached₃, -⟩ := getOrCreateTable_grown built₂.tree (by simp) reached₂ third
  exact (built₂.grow grown₃).setLeaf reached₃ (smallEntry_present _ _)

/-- The entry that `map_page_2m` writes for the direct map. -/
def hugeEntry (physAddr : Nat) : Nat :=
  physAddr &&& entryAddrMask2m ||| (pageWritable ||| pageGlobal) ||| pagePresent ||| pagePs

theorem hugeEntry_bits (physAddr : Nat) : hugeEntry physAddr &&& pagePresent ≠ 0 ∧
    hugeEntry physAddr &&& pageWritable ≠ 0 ∧ hugeEntry physAddr &&& pagePs ≠ 0 := by
  simp only [hugeEntry, Lib.or_and_ne_zero]
  exact ⟨.inl (.inr (by decide)), .inl (.inl (.inr (.inl (by decide)))), .inr (by decide)⟩

theorem mapPage2m_ok (done : mapPage2m s root virtAddr physAddr (pageWritable ||| pageGlobal) = .ok t) :
    virtAddr % 2 ^ 21 = 0 ∧ physAddr % 2 ^ 21 = 0 ∧ ∃ pdpt s₁ pd s₂,
      getOrCreateTable s root (pml4Index virtAddr) false = .ok (pdpt, s₁) ∧
      getOrCreateTable s₁ pdpt (pdptIndex virtAddr) false = .ok (pd, s₂) ∧
      t = s₂.setEntry pd (pdIndex virtAddr) (hugeEntry physAddr) := by
  have low : ∀ x, x &&& (pageSize2m - 1) = x % 2 ^ 21 := fun x => Nat.and_two_pow_sub_one_eq_mod x 21
  simp only [mapPage2m] at done
  split at done
  · cases done
  · rename_i aligned
    rw [not_not, Lib.or_and_eq_zero, low, low] at aligned
    obtain ⟨⟨pdpt, s₁⟩, first, done⟩ := Lib.bind_ok done
    obtain ⟨⟨pd, s₂⟩, second, done⟩ := Lib.bind_ok done
    cases done
    exact ⟨aligned.1, aligned.2, pdpt, s₁, pd, s₂, first, second, rfl⟩

theorem mapPage2m_built (built : Built before root s)
    (done : mapPage2m s root virtAddr physAddr (pageWritable ||| pageGlobal) = .ok t) :
    Built before root t := by
  obtain ⟨-, -, pdpt, s₁, pd, s₂, first, second, rfl⟩ := mapPage2m_ok done
  obtain ⟨built₂, reached₂⟩ := directory_built built first second
  obtain ⟨present, writable, huge⟩ := hugeEntry_bits physAddr
  obtain ⟨tree, subset⟩ := built₂.tree.setHuge rfl reached₂ (pdIndex virtAddr) present writable huge
  exact ⟨tree, fun path table short arrived => built₂.origin path table short (subset path table short arrived),
    built₂.used, built₂.total, built₂.highest, built₂.recorded⟩

/-- What holds on while `paging_init` fills the tables of its root, all of it with the flags of the
kernel. -/
structure InitStable (root : Nat) (Holds : Paging → Prop) : Prop where
  page4k : ∀ {s t virtAddr physAddr}, Holds s →
    mapPage4k s root virtAddr physAddr (pageWritable ||| pageGlobal) = .ok t → Holds t
  page2m : ∀ {s t virtAddr physAddr}, Holds s →
    mapPage2m s root virtAddr physAddr (pageWritable ||| pageGlobal) = .ok t → Holds t
  congr : ∀ {s t}, Holds s → t.pmm = s.pmm → t.tables = s.tables → t.info.rootPml4Phys = s.info.rootPml4Phys → Holds t

section InitStable

variable {Holds : Paging → Prop} {oldCr3Phys : Nat}

/-- A page that is mapped already is left alone. -/
theorem ensurePageMapping_cases (done : ensurePageMapping s root virtAddr physAddr flags = .ok (fresh, t)) :
    t = s ∨ translateWithCr3 s root virtAddr = none ∧ mapPage4k s root virtAddr physAddr flags = .ok t := by
  unfold ensurePageMapping at done
  split at done
  · split at done
    · cases done
    grind
  · obtain ⟨mapped, first, done⟩ := Lib.bind_ok done
    cases done
    grind

/-- What a page of a window keeps, the window keeps. -/
theorem mapRangeFromOldCr3_keeps (Holds : Paging → Prop) {last : Nat}
    (ensure : ∀ {s t virtAddr physAddr fresh}, Holds s →
      ensurePageMapping s root virtAddr physAddr (pageWritable ||| pageGlobal) = .ok (fresh, t) → Holds t)
    (holds : Holds s) (done : mapRangeFromOldCr3 s root oldCr3Phys first last = .ok (pages, t)) : Holds t := by
  simp only [mapRangeFromOldCr3] at done
  refine Lib.foldlM_invariant (fun state : Nat × Paging => Holds state.2) ?_ (show Holds (0, s).2 from holds) done
  intro state virt next holds passed
  split at passed
  · cases passed
  · obtain ⟨⟨fresh, mapped⟩, ensured, rest⟩ := Lib.bind_ok passed
    cases rest
    grind

/-- The counters of the windows are all that is written besides their pages. -/
theorem mapPassthrough_keeps (Holds : Paging → Prop)
    (ensure : ∀ {s t virtAddr physAddr fresh}, Holds s →
      ensurePageMapping s root virtAddr physAddr (pageWritable ||| pageGlobal) = .ok (fresh, t) → Holds t)
    (congr : ∀ {s t}, Holds s → t.pmm = s.pmm → t.tables = s.tables → t.info.rootPml4Phys = s.info.rootPml4Phys →
      t.info.tablePagesAllocated = s.info.tablePagesAllocated → Holds t)
    (holds : Holds s) (done : mapPassthrough boot s root oldCr3Phys = .ok t) : Holds t := by
  simp only [mapPassthrough] at done
  obtain ⟨⟨pages, stacked⟩, stack, done⟩ := Lib.bind_ok done
  have afterStack := mapRangeFromOldCr3_keeps Holds ensure holds stack
  split at done
  · split at done
    · cases done
    · obtain ⟨⟨fbPages, framed⟩, framebuffer, done⟩ := Lib.bind_ok done
      cases done
      refine congr (mapRangeFromOldCr3_keeps Holds ensure ?_ framebuffer) rfl rfl rfl rfl
      grind
  · cases done
    grind

theorem InitStable.ensurePageMapping (stable : InitStable root Holds) (holds : Holds s)
    (done : ensurePageMapping s root virtAddr physAddr (pageWritable ||| pageGlobal) = .ok (fresh, t)) :
    Holds t := by
  obtain rfl | ⟨-, first⟩ := ensurePageMapping_cases done
  · exact holds
  grind [page4k]

theorem InitStable.mapKernelRange (stable : InitStable root Holds) (holds : Holds s)
    (done : mapKernelRangeFromOldCr3 boot s root oldCr3Phys = .ok (pages, t)) : Holds t := by
  simp only [mapKernelRangeFromOldCr3] at done
  split at done
  · cases done
  · obtain ⟨final, loop, done⟩ := Lib.bind_ok done
    cases done
    refine Lib.foldlM_invariant Holds ?_ holds loop
    intro state page next holds passed
    split at passed
    · cases passed
    grind [page4k]

theorem InitStable.mapHhdmRange (stable : InitStable root Holds) (holds : Holds s)
    (done : mapHhdmRange boot s root span = .ok t) : Holds t := by
  simp only [Velox.mapHhdmRange] at done
  obtain ⟨middle, huge, small⟩ := Lib.bind_ok done
  refine Lib.foldlM_invariant Holds ?_ (Lib.foldlM_invariant Holds ?_ holds huge) small
  · intro state phys next holds passed
    split at passed
    · cases passed
    · obtain ⟨mapped, first, rest⟩ := Lib.bind_ok passed
      cases rest
      exact stable.congr (stable.page4k holds first) rfl rfl rfl
  · intro state phys next holds passed
    split at passed
    · cases passed
    · obtain ⟨mapped, first, rest⟩ := Lib.bind_ok passed
      cases rest
      exact stable.congr (stable.page2m holds first) rfl rfl rfl

/-- From the empty root to the end of the filling. -/
theorem InitStable.filled (stable : InitStable root Holds) (holds : Holds s)
    (kernel : mapKernelRangeFromOldCr3 boot s root oldCr3Phys = .ok (pages, s₂))
    (hhdm : Velox.mapHhdmRange boot { s₂ with info := { s₂.info with mappedKernelPages := pages } } root span = .ok s₃)
    (passthrough : Velox.mapPassthrough boot s₃ root oldCr3Phys = .ok s₄) : Holds s₄ := by
  have holds₂ := stable.mapKernelRange holds kernel
  have holds₃ : Holds s₃ := by
    refine stable.mapHhdmRange ?_ hhdm
    exact stable.congr holds₂ rfl rfl rfl
  exact mapPassthrough_keeps Holds stable.ensurePageMapping
    (fun holds pmm tables recorded _ => stable.congr holds pmm tables recorded) holds₃ passthrough

end InitStable

theorem Built.stable (before : Pmm) (root : Nat) : InitStable root (Built before root) where
  page4k := fun built done => mapPage4k_built built done
  page2m := fun built done => mapPage2m_built built done
  congr := Built.congr

/-- A zeroed page leads to no table. -/
theorem allocTablePage_only (done : allocTablePage s = .ok (table, t))
    (reached : t.tableAt table path = some at') :
    path = [] ∧ at' = table := by
  cases path with
  | nil => exact ⟨rfl, (Option.some.inj reached).symm⟩
  | cons index rest =>
    rw [(allocTablePage_ok done).2.2] at reached
    simp [Paging.tableAt, Lib.follow] at reached

/-- A zeroed page is the root of an empty tree. -/
theorem allocTablePage_built (ready : s.pmm.Ready) (sized : s.pmm.info.totalPages ≤ 2 ^ 40)
    (done : allocTablePage s = .ok (table, t)) :
    Built s.pmm table { t with info := { t.info with rootPml4Phys := table } } := by
  obtain ⟨got, stillReady, same⟩ := allocTablePage_ok done
  have zero : ∀ index, t.tables table index = 0 := by
    rw [same]
    simp
  have only : ∀ path at', t.tableAt table path = some at' → path = [] ∧ at' = table :=
    fun _ _ => allocTablePage_only done
  have placed : table % 4096 = 0 ∧ table / 4096 < t.pmm.info.totalPages ∧ t.pmm.bitTest (table / 4096) = true :=
    ⟨got.aligned, got.total ▸ got.below, by simp [got.bits]⟩
  refine ⟨⟨stillReady ready, got.total ▸ sized, ?_, ?_, ?_⟩, ?_, ?_, got.total, got.highest, rfl⟩
  · intro first second at' _ _ firstReached secondReached
    rw [(only first at' firstReached).1, (only second at' secondReached).1]
  · intro path at' _ reached
    obtain ⟨-, rfl⟩ := only path at' reached
    exact placed
  · intro path index entry _ found
    obtain ⟨at', reached, rfl⟩ := Option.map_eq_some_iff.mp found
    obtain ⟨-, rfl⟩ := only path at' reached
    exact .inl (zero index)
  · intro path at' _ reached
    obtain ⟨-, rfl⟩ := only path at' reached
    exact got.clear
  grind [Allocated.bits]

/-- Limine promises that usable and bootloader-reclaimable entries overlap no
other entry of the map. -/
def Boot.EntriesApart (boot : Boot) : Prop :=
  ∀ usable ∈ boot.memoryMap, ∀ reclaimable ∈ boot.memoryMap, usable.type = .usable →
    reclaimable.type = .bootloaderReclaimable →
    usable.rawEnd ≤ reclaimable.base.toNat ∨ reclaimable.rawEnd ≤ usable.base.toNat

theorem mem_strides (positive : 0 < stride)
    (member : x ∈ strides first limit stride) : ∃ k, x = first + k * stride ∧ x < limit := by
  simp only [strides, List.mem_map, List.mem_range] at member
  obtain ⟨k, below, rfl⟩ := member
  have enough := (Nat.le_div_iff_mul_le positive).mp (Nat.succ_le_of_lt below)
  grind

/-- What `reclaim_bootloader_reclaimable` leaves of the allocator: it frees no
page outside the reclaimable entries. -/
structure Reclaimed (memoryMap : List MemoryMapEntry) (before after : Pmm) : Prop where
  ready : after.Ready
  total : after.info.totalPages = before.info.totalPages
  highest : after.info.highestPhysicalAddress = before.info.highestPhysicalAddress
  kept : ∀ page, before.bitTest page = true → (∀ entry ∈ memoryMap, entry.type = .bootloaderReclaimable →
      ¬ (entry.base.toNat ≤ page * 4096 ∧ page * 4096 + 4096 ≤ entry.rawEnd)) →
    after.bitTest page = true

theorem reclaimBootloaderReclaimable_reclaimed {pmm : Pmm} (ready : pmm.Ready)
    (skipStart skipEnd : Nat) (noWrap : ∀ entry ∈ memoryMap, entry.base.toNat + 4095 < 2 ^ 64) :
    Reclaimed memoryMap pmm (reclaimBootloaderReclaimable memoryMap pmm skipStart skipEnd).2 := by
  unfold reclaimBootloaderReclaimable
  refine List.foldlRecOn (motive := fun state : Nat × Pmm => Reclaimed memoryMap pmm state.2) _ _
    ⟨ready, rfl, rfl, fun _ used _ => used⟩ ?_
  rintro ⟨reclaimed, current⟩ soFar entry member
  dsimp only
  split
  · exact soFar
  · rename_i reclaimable
    rw [ne_eq, not_not] at reclaimable
    refine List.foldlRecOn (motive := fun state : Nat × Pmm => Reclaimed memoryMap pmm state.2) _ _ soFar ?_
    rintro ⟨reclaimed, current⟩ soFar phys visited
    dsimp only
    split
    · exact soFar
    · refine ⟨pmmFreePagePhys_ready soFar.ready phys, (pmmFreePagePhys_totalPages current phys).trans soFar.total,
        (pmmFreePagePhys_highest current phys).trans soFar.highest, ?_⟩
      intro page used outside
      refine (pmmFreePagePhys_bitTest current phys page).mpr ⟨soFar.kept page used outside, ?_⟩
      rintro ⟨-, rfl⟩
      obtain ⟨k, place, below⟩ := mem_strides (by decide) visited
      have bound := entry.rawEnd_lt
      have low := noWrap entry member
      rw [pageSize4k, alignUp_page] at place
      rw [pageSize4k, alignDown_page] at below
      grind

/-- The physical allocator and the machine as `paging_init` finds them at boot. -/
structure AtBoot (boot : Boot) (s : Paging) : Prop where
  started : ∃ blank, pmmInit boot blank = .ok s.pmm
  fresh : s.initialized = false
  apart : boot.EntriesApart
  sized : maxPhysicalEnd boot.memoryMap ≤ 2 ^ 52

theorem AtBoot.total (atBoot : AtBoot boot s) : s.pmm.info.totalPages ≤ 2 ^ 40 := by
  obtain ⟨blank, started⟩ := atBoot.started
  have sized := atBoot.sized
  have total := (pmmInit_total started).2
  omega

/-- The tables stand in usable memory, which the reclaiming step does not touch. -/
private theorem Built.reclaim (atBoot : AtBoot boot s) (built : Built s.pmm root t)
    (reclaimed : Reclaimed boot.memoryMap t.pmm pmm) : TableTree { t with pmm := pmm } root := by
  refine ⟨reclaimed.ready, reclaimed.total.trans_le built.tree.sized, built.tree.unshared, ?_, built.tree.shaped⟩
  intro path table short reached
  obtain ⟨aligned, below, used⟩ := built.tree.placed path table short reached
  refine ⟨aligned, below.trans_eq reclaimed.total.symm, reclaimed.kept _ used ?_⟩
  obtain ⟨blank, started⟩ := atBoot.started
  obtain ⟨usable, member, type, first, last⟩ :=
    pmmInit_free_usable started (below.trans_eq built.total) (built.origin path table short reached)
  intro entry present reclaimable covered
  rcases atBoot.apart usable member entry present type reclaimable with before | after <;> omega

/-- A loop over a non-empty range visits its first value. -/
theorem strides_cons (nonempty : first < limit) (positive : 0 < stride) :
    ∃ rest, strides first limit stride = first :: rest := by
  have some' : 0 < (limit - first + (stride - 1)) / stride := Nat.div_pos (by omega) positive
  obtain ⟨count, counted⟩ := Nat.exists_eq_succ_of_ne_zero (Nat.ne_of_gt some')
  rw [strides, counted, List.range_succ_eq_map, List.map_cons]
  simp

/-- Mapping the direct map checks the alignment of its offset. -/
theorem mapHhdmRange_aligned (positive : 0 < span) (done : mapHhdmRange boot s root span = .ok t) :
    boot.hhdmOffset.toNat % 4096 = 0 := by
  have low : ∀ x, x &&& (pageSize2m - 1) = x % 2 ^ 21 := fun x => Nat.and_two_pow_sub_one_eq_mod x 21
  by_cases large : boot.hhdmOffset.toNat % 2 ^ 21 = 0
  · omega
  · simp only [mapHhdmRange, low, large, beq_iff_eq, ↓reduceIte] at done
    obtain ⟨middle, -, small⟩ := Lib.bind_ok done
    obtain ⟨rest, strided⟩ := strides_cons positive (show 0 < pageSize4k by decide)
    rw [strided, List.foldlM_cons] at small
    obtain ⟨next, mapped, -⟩ := Lib.bind_ok small
    split at mapped
    · cases mapped
    · obtain ⟨next, checked, -⟩ := Lib.bind_ok mapped
      simp only [mapPage4k] at checked
      split at checked
      · cases checked
      · rename_i aligned
        rw [not_not, page_aligned_iff] at aligned
        omega

/-- The kernel's address space after `paging_init`. -/
structure KernelSpace (boot : Boot) (s : Paging) : Prop where
  tree : TableTree s s.info.rootPml4Phys
  initialized : s.initialized = true
  highest : s.pmm.info.highestPhysicalAddress = maxPhysicalEnd boot.memoryMap
  aligned : boot.hhdmOffset.toNat % 4096 = 0
  kernelEnd : 0 < boot.kernelVirtualEnd.toNat

/-- The stages of a `paging_init` that goes through. -/
theorem pagingInit_stages (fresh : s.initialized = false) (done : pagingInit boot s = .ok t) :
    ∃ newPml4 s₁ pages s₂ s₃ s₄,
      ¬ (s.pmm.info.highestPhysicalAddress = 0 ∨ s.pmm.info.highestPhysicalAddress = 2 ^ 64 - 1) ∧
      allocTablePage s = .ok (newPml4, s₁) ∧
      mapKernelRangeFromOldCr3 boot { s₁ with info := { s₁.info with rootPml4Phys := newPml4 } } newPml4
        (s.cr3 &&& entryAddrMask4k) = .ok (pages, s₂) ∧
      mapHhdmRange boot { s₂ with info := { s₂.info with mappedKernelPages := pages } } newPml4
        (alignUp s.pmm.info.highestPhysicalAddress pageSize4k) = .ok s₃ ∧
      mapPassthrough boot s₃ newPml4 (s.cr3 &&& entryAddrMask4k) = .ok s₄ ∧
      ∃ skipStart skipEnd,
        (skipStart, skipEnd) = reclaimSkip (translateWithCr3 s₄ (s.cr3 &&& entryAddrMask4k) boot.rsp.toNat) ∧
        t = { s₄ with
          cr3 := newPml4
          pmm := (reclaimBootloaderReclaimable boot.memoryMap s₄.pmm skipStart skipEnd).2
          info := { s₄.info with
            reclaimedBootloaderPages := (reclaimBootloaderReclaimable boot.memoryMap s₄.pmm skipStart skipEnd).1
            initialized := true }
          initialized := true } := by
  simp only [pagingInit, fresh, Bool.false_eq_true, ↓reduceIte] at done
  split at done
  · cases done
  split at done
  · cases done
  split at done
  · cases done
  split at done
  · cases done
  obtain ⟨⟨newPml4, s₁⟩, allocated, done⟩ := Lib.bind_ok done
  obtain ⟨⟨pages, s₂⟩, kernel, done⟩ := Lib.bind_ok done
  obtain ⟨s₃, hhdm, done⟩ := Lib.bind_ok done
  obtain ⟨s₄, passthrough, done⟩ := Lib.bind_ok done
  cases done
  grind

/-- `paging_init` leaves a well-formed tree of tables under the kernel root. -/
theorem pagingInit_space (atBoot : AtBoot boot s) (done : pagingInit boot s = .ok t) : KernelSpace boot t := by
  obtain ⟨blank, started⟩ := atBoot.started
  obtain ⟨newPml4, s₁, pages, s₂, s₃, s₄, sane, allocated, kernel, hhdm, passthrough, skipStart, skipEnd, -, rfl⟩ :=
    pagingInit_stages atBoot.fresh done
  have built₁ := allocTablePage_built (pmmInit_ready started) atBoot.total allocated
  have built₄ := (Built.stable s.pmm newPml4).filled built₁ kernel hhdm passthrough
  have highest := pmmInit_highest started
  have sized := atBoot.sized
  have reclaimed := reclaimBootloaderReclaimable_reclaimed built₄.tree.ready skipStart skipEnd (pmmInit_noWrap started)
  refine ⟨?_, rfl, (reclaimed.highest.trans built₄.highest).trans highest, ?_, ?_⟩
  · rw [built₄.recorded]
    exact (built₄.reclaim atBoot reclaimed).congr rfl rfl
  · apply mapHhdmRange_aligned _ hhdm
    rw [highest, pageSize4k, alignUp_page]
    omega
  · simp only [mapKernelRangeFromOldCr3] at kernel
    split at kernel
    · cases kernel
    · omega

end Velox
