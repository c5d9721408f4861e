import Velox.Mm.PagingAccounts

namespace Velox

variable {boot : Boot} {table : Nat}

variable {s t : Paging} {root virtAddr physAddr flags : Nat}

/-- The last-level tables are all at paths of a kind. -/
def Paging.LastTables (s : Paging) (root : Nat) (Allowed : List (Fin 512) → Prop) : Prop :=
  ∀ path table, path.length = 3 → s.tableAt root path = some table → Allowed path

theorem mapPage4k_tallied (tallied : Tallied root [] s) (done : mapPage4k s root virtAddr physAddr flags = .ok t) :
    Tallied root [] t ∧ ∀ other at', other.length = 3 → t.tableAt root other = some at' →
      s.tableAt root other = some at' ∨ other = walkPath virtAddr := by
  obtain ⟨-, -, pdpt, s₁, pd, s₂, pt, s₃, first, second, third, rfl⟩ := mapPage4k_ok done
  obtain ⟨grown, reached, -, added⟩ := lastTable_tallied tallied first second third
  grind [Tallied.setLeaf, smallEntry_present, TableTree.tableAt_setLeaf, Tallied.tree]

/-- A 2 MiB page takes the place of no table where its address has none. -/
theorem mapPage2m_tallied (tallied : Tallied root [] s) (clear : s.tableAt root (walkPath virtAddr) = none)
    (done : mapPage2m s root virtAddr physAddr (pageWritable ||| pageGlobal) = .ok t) :
    Tallied root [] t ∧ ∀ other at', other.length = 3 → t.tableAt root other = some at' →
      s.tableAt root other = some at' := by
  obtain ⟨-, -, pdpt, s₁, pd, s₂, first, second, rfl⟩ := mapPage2m_ok done
  obtain ⟨grown, reached, -, added⟩ := directory_tallied tallied first second
  obtain ⟨present, writable, huge⟩ := hugeEntry_bits physAddr
  have unlinked : tableChild (s₂.tables pd (pdIndex virtAddr)) = none := by
    have joined := s₂.tableAt_snoc root [pml4Index virtAddr, pdptIndex virtAddr] (pdIndex virtAddr)
    rw [Paging.entryAt_of_tableAt reached] at joined
    cases linked : tableChild (s₂.tables pd (pdIndex virtAddr)) with
    | none => rfl
    | some pt =>
      have before := added (walkPath virtAddr) pt rfl (joined.trans linked)
      grind
  have same := (tableChild_of_huge huge).trans unlinked.symm
  constructor
  · exact grown.relabel reached (by simp) same (fun zero => present (by rw [zero, Nat.zero_and]))
      (grown.tree.setHuge rfl reached _ present writable huge).1
  grind [TableTree.tableAt_relabel, Tallied.tree]

/-- Nothing of the counter or the tables is in the rest of the state. -/
theorem Tallied.congr {gap : List (Fin 512)} (tallied : Tallied root gap s) (tree : TableTree t root)
    (tables : t.tables = s.tables) (counter : t.info.tablePagesAllocated = s.info.tablePagesAllocated) :
    Tallied root gap t := by
  have paths : t.tableAt = s.tableAt := by
    funext root path
    rw [Paging.tableAt, Paging.tableAt, tables]
  have entries : t.entryAt = s.entryAt := by
    funext root path index
    rw [Paging.entryAt, Paging.entryAt, tables]
  refine tallied.of_paths tree (fun path _ => by rw [paths]) counter ?_
  intro path off _ occupied _
  rw [Paging.Occupied, entries]
  exact occupied off

theorem ensurePageMapping_tallied (tallied : Tallied root [] s)
    (done : ensurePageMapping s root virtAddr physAddr flags = .ok (fresh, t)) :
    Tallied root [] t := by
  obtain rfl | ⟨-, first⟩ := ensurePageMapping_cases done
  · exact tallied
  · exact (mapPage4k_tallied tallied first).1

/-- The addresses of the kernel's pages. -/
def Boot.KernelPage (boot : Boot) (virt : Nat) : Prop :=
  boot.kernelVirtualStart.toNat ≤ virt ∧ virt < boot.kernelVirtualEnd.toNat

theorem kernelPage_of_range (member : page ∈ List.range
      (alignUp (boot.kernelVirtualEnd.toNat - boot.kernelVirtualStart.toNat) pageSize4k / pageSize4k)) :
    (boot.kernelVirtualStart.toNat + page * pageSize4k) % 2 ^ 64 = boot.kernelVirtualStart.toNat + page * 4096 ∧
      boot.KernelPage (boot.kernelVirtualStart.toNat + page * 4096) := by
  have last := boot.kernelVirtualEnd.toNat_lt
  rw [List.mem_range, pageSize4k, alignUp_page] at member
  rw [pageSize4k, Boot.KernelPage]
  omega

theorem mapKernelRange_tallied (tallied : Tallied root [] s)
    (none' : s.LastTables root fun _ => False) {pages : Nat}
    (done : mapKernelRangeFromOldCr3 boot s root oldCr3Phys = .ok (pages, t)) :
    Tallied root [] t ∧ t.LastTables root fun path => ∃ virt, boot.KernelPage virt ∧ path = walkPath virt := by
  simp only [mapKernelRangeFromOldCr3] at done
  split at done
  · cases done
  · obtain ⟨final, loop, done⟩ := Lib.bind_ok done
    cases done
    refine Lib.foldlM_invariant_mem (fun state => Tallied root [] state ∧
      state.LastTables root fun path => ∃ virt, boot.KernelPage virt ∧ path = walkPath virt) ?_
      ⟨tallied, fun path table deep reached => (none' path table deep reached).elim⟩ loop
    intro state page next member held passed
    obtain ⟨place, inside⟩ := kernelPage_of_range member
    split at passed
    · cases passed
    · obtain ⟨mapped, added⟩ := mapPage4k_tallied held.1 passed
      refine ⟨mapped, ?_⟩
      intro path table deep arrived
      rcases added path table deep arrived with earlier | rfl
      · exact held.2 path table deep earlier
      grind

/-- Bits 47 to 63 of an address are equal. -/
def Canonical (address : Nat) : Prop := address < 2 ^ 47 ∨ 2 ^ 64 - 2 ^ 47 ≤ address

/-- Limine places the direct map and the kernel's image at canonical addresses, the window of
the direct map does not wrap, and the two do not overlap. -/
structure Boot.WindowApart (boot : Boot) (span : Nat) : Prop where
  noWrap : boot.hhdmOffset.toNat + span ≤ 2 ^ 64
  window : ∀ x < span, Canonical (boot.hhdmOffset.toNat + x)
  image : ∀ virt, boot.KernelPage virt → Canonical virt
  apart : ∀ x < span, ¬ boot.KernelPage (boot.hhdmOffset.toNat + x)

/-- In the upper half, with the image above the direct map. -/
theorem Boot.WindowApart.of_upper (upper : 2 ^ 64 - 2 ^ 47 ≤ boot.hhdmOffset.toNat)
    (above : boot.hhdmOffset.toNat + span ≤ boot.kernelVirtualStart.toNat) : boot.WindowApart span := by
  have image := boot.kernelVirtualStart.toNat_lt
  refine ⟨by omega, ?_, ?_, ?_⟩
  · intro x below
    exact .inr (Nat.le_add_right_of_le upper)
  · rintro virt ⟨low, -⟩
    exact .inr (by omega)
  · rintro x below ⟨low, -⟩
    omega

/-- Canonical addresses with a last-level table in common lie in one 2 MiB block. -/
theorem block_of_walkPath (canonical : Canonical v) (canonical' : Canonical w) (low : v < 2 ^ 64)
    (low' : w < 2 ^ 64) (same : walkPath v = walkPath w) : v / 2 ^ 21 = w / 2 ^ 21 := by
  simp only [walkPath, List.cons.injEq, and_true, Fin.ext_iff, pml4Index, pdptIndex, pdIndex, tableIndex_val] at same
  unfold Canonical at canonical canonical'
  omega

theorem alignDown_block (value : Nat) : alignDown value pageSize2m = value % 2 ^ 64 / 2 ^ 21 * 2 ^ 21 :=
  Lib.and_block value (show 21 ≤ 64 by decide)

/-- No last-level table of the kernel's image stands where the direct map puts a 2 MiB page. -/
theorem Boot.WindowApart.vacant (apart : boot.WindowApart span)
    (last : s.LastTables root fun path => ∃ virt, boot.KernelPage virt ∧ path = walkPath virt)
    (aligned : (boot.hhdmOffset.toNat + phys) % 2 ^ 21 = 0) (inside : phys + 2 ^ 21 ≤ span) :
    s.tableAt root (walkPath (boot.hhdmOffset.toNat + phys)) = none := by
  cases reached : s.tableAt root (walkPath (boot.hhdmOffset.toNat + phys)) with
  | none => rfl
  | some table =>
    obtain ⟨virt, kernel, same⟩ := last _ table rfl reached
    have noWrap := apart.noWrap
    have high := boot.kernelVirtualEnd.toNat_lt
    have low : virt < 2 ^ 64 := lt_trans kernel.2 high
    have block := block_of_walkPath (apart.window phys (by omega)) (apart.image virt kernel) (by omega) low same
    have within := apart.apart (virt - boot.hhdmOffset.toNat) (by omega)
    grind

theorem mapHhdmRange_tallied (apart : boot.WindowApart span) (tallied : Tallied root [] s)
    (last : s.LastTables root fun path => ∃ virt, boot.KernelPage virt ∧ path = walkPath virt)
    (done : mapHhdmRange boot s root span = .ok t) : Tallied root [] t := by
  simp only [mapHhdmRange] at done
  obtain ⟨middle, huge, small⟩ := Lib.bind_ok done
  have directory : Tallied root [] middle := by
    refine (Lib.foldlM_invariant_mem (fun state => Tallied root [] state ∧
      state.LastTables root fun path => ∃ virt, boot.KernelPage virt ∧ path = walkPath virt) ?_ ⟨tallied, last⟩ huge).1
    intro state phys next member held passed
    split at passed
    · cases passed
    obtain ⟨mapped, first, rest⟩ := Lib.bind_ok passed
    obtain ⟨k, place, below⟩ := mem_strides (by decide) member
    have place' : phys = k * 2 ^ 21 := by rw [place, Nat.zero_add]; rfl
    split at below
    · rw [alignDown_block] at below
      have inside : phys + 2 ^ 21 ≤ span := by omega
      have virt : (boot.hhdmOffset.toNat + phys) % 2 ^ 64 = boot.hhdmOffset.toNat + phys := Nat.mod_eq_of_lt (by omega)
      rw [virt] at first
      have aligned := (mapPage2m_ok first).1
      obtain ⟨kept, subset⟩ := mapPage2m_tallied held.1 (apart.vacant held.2 aligned inside) first
      cases rest
      refine ⟨kept.congr (kept.tree.congr rfl rfl) rfl rfl, ?_⟩
      intro path table deep arrived
      exact held.2 path table deep (subset path table deep arrived)
    omega
  refine Lib.foldlM_invariant (Tallied root []) ?_ directory small
  intro state phys next held passed
  split at passed
  · cases passed
  · obtain ⟨mapped, first, rest⟩ := Lib.bind_ok passed
    cases rest
    have kept := (mapPage4k_tallied held first).1
    exact kept.congr (kept.tree.congr rfl rfl) rfl rfl

theorem mapPassthrough_tallied (tallied : Tallied root [] s)
    (done : mapPassthrough boot s root oldCr3Phys = .ok t) : Tallied root [] t :=
  mapPassthrough_keeps (Tallied root []) ensurePageMapping_tallied
    (fun held pmm tables _ counter => held.congr (held.tree.congr pmm tables) tables counter) tallied done

/-- The machine as `paging_init` finds it: no table is counted yet, and the direct map lies
apart from the kernel. -/
structure ColdBoot (boot : Boot) (s : Paging) : Prop extends AtBoot boot s where
  uncounted : s.info.tablePagesAllocated = 0
  window : boot.WindowApart (alignUp (maxPhysicalEnd boot.memoryMap) pageSize4k)

/-- A new root is the only table, and counted. -/
theorem allocTablePage_tallied (ready : s.pmm.Ready) (sized : s.pmm.info.totalPages ≤ 2 ^ 40)
    (uncounted : s.info.tablePagesAllocated = 0) (done : allocTablePage s = .ok (table, t)) :
    Tallied table [] { t with info := { t.info with rootPml4Phys := table } } ∧
      ({ t with info := { t.info with rootPml4Phys := table } } : Paging).LastTables table fun _ => False := by
  have built := allocTablePage_built ready sized done
  obtain ⟨-, -, same⟩ := allocTablePage_ok done
  have only : ∀ path at', t.tableAt table path = some at' → path = [] ∧ at' = table :=
    fun _ _ => allocTablePage_only done
  refine ⟨⟨built.tree, ⟨{table}, ?_, ?_⟩, ?_⟩, ?_⟩
  · intro at'
    rw [Finset.mem_singleton]
    constructor
    · rintro rfl
      exact ⟨[], by simp, rfl⟩
    · rintro ⟨path, -, reached⟩
      exact (only path at' reached).2
  · rw [same]
    simp [uncounted, wordSucc]
  · intro path at' proper _ _ reached
    exact absurd (only path at' reached).1 proper
  · intro path at' deep reached
    rw [(only path at' reached).1] at deep
    cases deep

theorem pagingInit_tallied (cold : ColdBoot boot s) (done : pagingInit boot s = .ok t) :
    Tallied t.info.rootPml4Phys [] t := by
  have space := pagingInit_space cold.toAtBoot done
  obtain ⟨blank, started⟩ := cold.started
  have highest := pmmInit_highest started
  obtain ⟨newPml4, s₁, pages, s₂, s₃, s₄, -, allocated, kernel, hhdm, passthrough, skipStart, skipEnd, -, rfl⟩ :=
    pagingInit_stages cold.fresh done
  have built₁ := allocTablePage_built (pmmInit_ready started) cold.total allocated
  have recorded := ((Built.stable s.pmm newPml4).filled built₁ kernel hhdm passthrough).recorded
  obtain ⟨tallied₁, none₁⟩ := allocTablePage_tallied (pmmInit_ready started) cold.total cold.uncounted allocated
  obtain ⟨tallied₂, last₂⟩ := mapKernelRange_tallied tallied₁ none₁ kernel
  rw [highest] at hhdm
  have tallied₃ : Tallied newPml4 [] s₃ := by
    refine mapHhdmRange_tallied cold.window ?_ ?_ hhdm
    · exact tallied₂.congr (tallied₂.tree.congr rfl rfl) rfl rfl
    · exact last₂
  have tallied₄ := mapPassthrough_tallied tallied₃ passthrough
  rw [recorded]
  refine tallied₄.congr ?_ rfl rfl
  have tree := space.tree
  rwa [recorded] at tree

/-- Where a table page is referenced from: the tables above the last level and their indices. -/
def Paging.references (s : Paging) (root table : Nat) : Set (Nat × Fin 512) :=
  {slot | ∃ path : List (Fin 512), path.length ≤ 2 ∧ s.tableAt root path = some slot.1 ∧
    tableChild (s.tables slot.1 slot.2) = some table}

/-- The storage of the tables of a root: how many pages, in use and referenced once each, and
none of them empty. The root is held by CR3 and by no entry. -/
structure Paging.StorageExact (s : Paging) (root : Nat) : Prop where
  counted : s.info.tablePagesAllocated = (s.tablePages root).ncard
  used : ∀ table ∈ s.tablePages root, s.pmm.bitTest (table / 4096) = true
  referenced : ∀ table ∈ s.tablePages root, table ≠ root → ∃! slot, slot ∈ s.references root table
  unreferenced : s.references root root = ∅
  filled : ∀ table ∈ s.tablePages root, table ≠ root → ∃ index, s.tables table index ≠ 0

theorem Paging.tableAt_of_reference {path : List (Fin 512)} (reached : s.tableAt root path = some parent)
    (linked : tableChild (s.tables parent index) = some table) :
    s.tableAt root (path ++ [index]) = some table := by
  grind [tableAt_snoc, entryAt_of_tableAt]

theorem Tallied.storageExact (tallied : Tallied root [] s) : s.StorageExact root := by
  have tree := tallied.tree
  have top : s.tableAt root [] = some root := rfl
  refine ⟨?_, ?_, ?_, ?_, ?_⟩
  · obtain ⟨pages, listed, counted⟩ := tallied.counted
    have same : s.tablePages root = (pages : Set Nat) := by
      grind
    rw [counted, same, Set.ncard_coe_finset]
  · rintro table ⟨path, short, reached⟩
    exact (tree.placed path table short reached).2.2
  · rintro table ⟨path, short, reached⟩ apart
    rcases List.eq_nil_or_concat path with rfl | ⟨front, index, rfl⟩
    · grind
    rw [List.concat_eq_append] at reached short
    rw [List.length_append, List.length_singleton] at short
    rw [Paging.tableAt_snoc] at reached
    obtain ⟨entry, found, linked⟩ := Option.bind_eq_some_iff.mp reached
    obtain ⟨parent, above, rfl⟩ := Option.map_eq_some_iff.mp found
    refine ⟨(parent, index), ⟨front, by omega, above, linked⟩, ?_⟩
    rintro ⟨parent', index'⟩ ⟨front', short', above', linked'⟩
    have below := Paging.tableAt_of_reference above linked
    have below' := Paging.tableAt_of_reference above' linked'
    have same := tree.unshared _ _ table (by simp; omega) (by simp; omega) below' below
    obtain ⟨rfl, last⟩ := List.append_inj' same rfl
    cases last
    cases above.symm.trans above'
    rfl
  · rw [Set.eq_empty_iff_forall_notMem]
    rintro slot ⟨path, short, reached, linked⟩
    have below := Paging.tableAt_of_reference reached linked
    have same := tree.unshared _ _ root (by simp; omega) (by simp) below top
    simp at same
  · rintro table ⟨path, short, reached⟩ apart
    have proper : path ≠ [] := by
      grind
    obtain ⟨index, entry, found, live⟩ := tallied.occupied path table proper proper short reached
    rw [Paging.entryAt_of_tableAt reached] at found
    grind

theorem pagingStep_tallied (tallied : Tallied s.info.rootPml4Phys [] s) {call : PagingCall}
    (taken : pagingStep s call = .ok (answer, t)) : Tallied t.info.rootPml4Phys [] t := by
  have sameRoot := (pagingStep_keeps tallied.tree taken).1.rootPml4Phys
  rw [sameRoot]
  cases call with
  | map virtAddr physAddr flags =>
    obtain ⟨⟨ok, next⟩, mapped, rest⟩ := Lib.bind_ok taken
    cases rest
    exact (pagingMapPage_tallied tallied mapped).1
  | unmap virtAddr =>
    obtain ⟨⟨unbound, next⟩, unmapped, rest⟩ := Lib.bind_ok taken
    cases rest
    exact (pagingUnmapPage_tallied tallied unmapped).1
  | protect virtAddr flags =>
    obtain ⟨⟨ok, next⟩, changed, rest⟩ := Lib.bind_ok taken
    cases rest
    exact (pagingProtectPage_tallied tallied changed).1

/-- The tables that another state has where this one has them, with their contents, the
counter and the frames in use. -/
structure Paging.SameStorage (s t : Paging) (root : Nat) : Prop where
  pages : t.tablePages root = s.tablePages root
  contents : ∀ table ∈ s.tablePages root, t.tables table = s.tables table
  used : ∀ page, t.pmm.bitTest page = s.pmm.bitTest page
  counter : t.info.tablePagesAllocated = s.info.tablePagesAllocated

/-- After `paging_init` and any calls, the counter is the number of table pages, each is in
use, referenced once and not empty. A page mapped for the kernel and unmapped again leaves
no trace in the storage. -/
theorem table_storage_exact {boot : Boot} {s₀ s t : Paging} {trace : List (PagingCall × PagingAnswer)}
    (cold : ColdBoot boot s₀) (init : pagingInit boot s₀ = .ok s) (run : Lib.Steps pagingStep s trace t) :
    t.StorageExact t.info.rootPml4Phys ∧
    ∀ virtAddr physAddr flags u, flags &&& pagingFlagUser = 0 →
      pagingMapPage t t.info.rootPml4Phys virtAddr physAddr flags = .ok (true, u) →
      ∃ w, pagingUnmapPage u t.info.rootPml4Phys virtAddr = .ok (some (physAddr &&& entryAddrMask4k), w) ∧
        t.SameStorage w t.info.rootPml4Phys := by
  have tallied : Tallied t.info.rootPml4Phys [] t :=
    run.invariant (fun state => Tallied state.info.rootPml4Phys [] state)
      (fun held taken => pagingStep_tallied held taken) (pagingInit_tallied cold init)
  refine ⟨tallied.storageExact, ?_⟩
  intro virtAddr physAddr flags u kernel mapped
  have tallied' := (pagingMapPage_tallied tallied mapped).1
  rcases pagingMapPage_rebound tallied.tree mapped with ⟨no, -⟩ | ⟨-, -, rebound⟩
  · cases no
  have leaf := rebound.leaves virtAddr
  rw [if_pos rfl] at leaf
  obtain ⟨w, unmapped⟩ := pagingUnmapPage_mapped tallied'.tree leaf
  rw [leafEntry_frame] at unmapped
  obtain ⟨pages, contents, used, counter⟩ := unmap_restores tallied kernel mapped unmapped
  exact ⟨w, unmapped, pages, contents, used, counter⟩

theorem tinyPaging_cold : ColdBoot tinyBoot tinyPaging where
  toAtBoot := tinyPaging_atBoot
  uncounted := rfl
  window := .of_upper (by decide) (by decide)

theorem table_storage_exact_tiny : ∃ t u w,
    Lib.Steps pagingStep tinyPagingReady [(.map 0x400000 0x5000 1, .flag true)] t ∧
    t.StorageExact t.info.rootPml4Phys ∧
    pagingMapPage t t.info.rootPml4Phys 0x80000000 0x6000 1 = .ok (true, u) ∧
    pagingUnmapPage u t.info.rootPml4Phys 0x80000000 = .ok (some 0x6000, w) ∧
    t.SameStorage w t.info.rootPml4Phys := by
  obtain ⟨t, run, test⟩ := Lib.Steps.exists_of_replay_test
    (show (Lib.replay pagingStep tinyPagingReady [(.map 0x400000 0x5000 1, .flag true)]).any
      (fun t => (pagingMapPage t t.info.rootPml4Phys 0x80000000 0x6000 1).toOption.map Prod.fst = some true) = true
      by decide +kernel)
  have accepted := of_decide_eq_true test
  cases mapped : pagingMapPage t t.info.rootPml4Phys 0x80000000 0x6000 1 with
  | error fault =>
    rw [mapped] at accepted
    cases accepted
  | ok result =>
    obtain ⟨ok, u⟩ := result
    rw [mapped] at accepted
    cases accepted
    have started : pagingInit tinyBoot tinyPaging = .ok tinyPagingReady := Lib.eq_ok_outcome _ (by decide +kernel)
    obtain ⟨exact', restores⟩ := table_storage_exact tinyPaging_cold started run
    obtain ⟨w, unmapped, same⟩ := restores 0x80000000 0x6000 1 u (by decide) mapped
    exact ⟨t, u, w, run, exact', mapped, unmapped, same⟩

end Velox
