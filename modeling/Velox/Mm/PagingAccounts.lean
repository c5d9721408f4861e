import Mathlib.Data.Set.Card
import Velox.Mm.PageMap

namespace Velox

variable {other : List (Fin 512)} {entry frame virtAddr : Nat}

variable {s t u : Paging} {root : Nat} {path gap : List (Fin 512)} {index : Fin 512} {parent table : Nat}

/-- The table pages that are reached from a root, the root among them. -/
def Paging.tablePages (s : Paging) (root : Nat) : Set Nat :=
  {table | ∃ path : List (Fin 512), path.length ≤ 3 ∧ s.tableAt root path = some table}

/-- The frames in use that hold no table. -/
def Paging.otherFrames (s : Paging) (root : Nat) : Set Nat :=
  {page | s.pmm.bitTest page = true ∧ page * 4096 ∉ s.tablePages root}

theorem Paging.mem_otherFrames :
    page ∈ s.otherFrames root ↔ s.pmm.bitTest page = true ∧ page * 4096 ∉ s.tablePages root := .rfl

/-- The table at a path has an entry. -/
def Paging.Occupied (s : Paging) (root : Nat) (path : List (Fin 512)) : Prop :=
  ∃ index entry, s.entryAt root path index = some entry ∧ entry ≠ 0

/-- The counter is the number of the tables, and no table below the root is empty, but
perhaps the one at `gap`. -/
structure Tallied (root : Nat) (gap : List (Fin 512)) (s : Paging) : Prop where
  tree : TableTree s root
  counted : ∃ pages : Finset Nat, (∀ table, table ∈ pages ↔ table ∈ s.tablePages root) ∧
    s.info.tablePagesAllocated = pages.card
  occupied : ∀ path table, path ≠ [] → path ≠ gap → path.length ≤ 3 → s.tableAt root path = some table →
    s.Occupied root path

theorem Tallied.widen (tallied : Tallied root [] s) (gap : List (Fin 512)) : Tallied root gap s :=
  ⟨tallied.tree, tallied.counted, fun path table proper _ => tallied.occupied path table proper proper⟩

theorem Tallied.close (tallied : Tallied root gap s) (filled : s.Occupied root gap) : Tallied root [] s := by
  refine ⟨tallied.tree, tallied.counted, ?_⟩
  grind [occupied]

theorem Paging.tablePages_congr
    (paths : ∀ path : List (Fin 512), path.length ≤ 3 → t.tableAt root path = s.tableAt root path) :
    t.tablePages root = s.tablePages root := by
  ext table
  exact exists_congr fun path => and_congr_right fun short => by rw [paths path short]

theorem Paging.otherFrames_congr (pages : t.tablePages root = s.tablePages root) (pmm : t.pmm = s.pmm) :
    t.otherFrames root = s.otherFrames root := by
  rw [Paging.otherFrames, Paging.otherFrames, pages, pmm]

/-- Tables that stay where they are, with the counter, stay tallied when none is emptied. -/
theorem Tallied.of_paths (tallied : Tallied root gap s) (tree : TableTree t root)
    (paths : ∀ path : List (Fin 512), path.length ≤ 3 → t.tableAt root path = s.tableAt root path)
    (counter : t.info.tablePagesAllocated = s.info.tablePagesAllocated)
    (kept : ∀ path, path ≠ gap' → path.length ≤ 3 → (path ≠ gap → s.Occupied root path) → path ≠ [] → t.Occupied root path) :
    Tallied root gap' t := by
  refine ⟨tree, ?_, ?_⟩
  · grind [Paging.tablePages_congr, counted]
  grind [occupied]

section Counter

theorem TableTree.card_lt (tree : TableTree s root) {pages : Finset Nat}
    (tables : ∀ table ∈ pages, table ∈ s.tablePages root) : pages.card ≤ s.pmm.info.totalPages := by
  have injective : Set.InjOn (· / 4096) (pages : Set Nat) := by
    intro first member second member' same
    obtain ⟨path, short, reached⟩ := tables first member
    obtain ⟨path', short', reached'⟩ := tables second member'
    have aligned := (tree.placed path first short reached).1
    have aligned' := (tree.placed path' second short' reached').1
    grind
  calc pages.card = (pages.image (· / 4096)).card := (Finset.card_image_of_injOn injective).symm
    _ ≤ (Finset.range s.pmm.info.totalPages).card := by
      refine Finset.card_le_card fun page member => ?_
      obtain ⟨table, inside, rfl⟩ := Finset.mem_image.mp member
      obtain ⟨path, short, reached⟩ := tables table inside
      exact Finset.mem_range.mpr (tree.placed path table short reached).2.1
    _ = s.pmm.info.totalPages := Finset.card_range _

end Counter

section Grow

variable {user : Bool} {fresh : Nat}

theorem Graft.tablePages (tree : TableTree s root) (graft : Graft root s t path index fresh user) :
    t.tablePages root = insert fresh (s.tablePages root) := by
  have short := graft.short
  ext table
  constructor
  · rintro ⟨other, bounded, arrived⟩
    rw [graft.tableAt tree bounded] at arrived
    split at arrived
    · grind
    · split at arrived
      · cases arrived
      · exact .inr ⟨other, bounded, arrived⟩
  · rintro (rfl | ⟨other, bounded, arrived⟩)
    · refine ⟨path ++ [index], by simp; omega, ?_⟩
      rw [graft.tableAt tree (by simp; omega), if_pos rfl]
    · refine ⟨other, bounded, ?_⟩
      have off := graft.off arrived
      have different : other ≠ path ++ [index] := fun same => off (same ▸ List.prefix_rfl)
      rw [graft.tableAt tree bounded, if_neg different, if_neg off, arrived]

theorem Graft.tallied (tallied : Tallied root path s) (graft : Graft root s t path index fresh user)
    (counter : t.info.tablePagesAllocated = wordSucc s.info.tablePagesAllocated) :
    Tallied root (path ++ [index]) t := by
  have tree := tallied.tree
  obtain ⟨pages, tables, counted⟩ := tallied.counted
  have new : fresh ∉ pages := by
    intro member
    obtain ⟨other, bounded, arrived⟩ := (tables fresh).mp member
    exact tree.free_unreached graft.allocated.clear other bounded arrived
  refine ⟨graft.tree tree, ⟨insert fresh pages, ?_, ?_⟩, ?_⟩
  · intro table
    rw [graft.tablePages tree, Finset.mem_insert, Set.mem_insert_iff, tables]
  · have few := tree.card_lt fun table member => (tables table).mp member
    have sized := tree.sized
    rw [counter, counted, Finset.card_insert_of_notMem new, wordSucc, if_neg (by omega)]
  · intro other table proper off bounded arrived
    rw [graft.tableAt tree bounded, if_neg off] at arrived
    split at arrived
    · cases arrived
    rename_i away
    by_cases here : other = path
    · subst here
      refine ⟨index, fresh ||| linkFlags user, ?_, ?_⟩
      · rw [graft.entryAt tree index bounded, if_pos ⟨rfl, rfl⟩]
      grind [tableChild_link, tableChild_zero]
    · obtain ⟨place, entry, found, live⟩ := tallied.occupied other table proper here bounded arrived
      refine ⟨place, entry, ?_, live⟩
      rw [graft.entryAt tree place bounded, if_neg fun same => here same.1, if_neg off, if_neg away, found]

theorem Graft.otherFrames (tree : TableTree s root) (graft : Graft root s t path index fresh user) :
    t.otherFrames root = s.otherFrames root := by
  have got := graft.allocated
  have aligned := got.aligned
  ext page
  simp only [Paging.mem_otherFrames, graft.tablePages tree, Set.mem_insert_iff, got.bits, Bool.or_eq_true,
    decide_eq_true_eq, not_or]
  constructor
  · grind
  · rintro ⟨used, free⟩
    refine ⟨.inr used, ?_, free⟩
    rintro rfl
    have clear := got.clear
    grind

/-- An entry that is written anew and leads where it led before fills its table. -/
theorem Tallied.relabel (tallied : Tallied root path s) (reached : s.tableAt root path = some table)
    (short : path.length ≤ 2) (same : tableChild entry = tableChild (s.tables table index)) (live : entry ≠ 0)
    (tree : TableTree (s.setEntry table index entry) root) : Tallied root [] (s.setEntry table index entry) := by
  refine tallied.of_paths tree (fun other bounded => tallied.tree.tableAt_relabel reached short same bounded) rfl ?_
  intro other _ bounded occupied _
  by_cases here : other = path
  · refine ⟨index, entry, ?_, live⟩
    rw [tallied.tree.entryAt_relabel reached short same bounded, if_pos ⟨here, rfl⟩]
  · obtain ⟨place, kept, found, live'⟩ := occupied here
    refine ⟨place, kept, ?_, live'⟩
    rw [tallied.tree.entryAt_relabel reached short same bounded, if_neg fun both => here both.1, found]

/-- What a walk that creates tables does to the accounts: one table may be new, and then it
is the one that is still empty. -/
theorem getOrCreateTable_tallied (tallied : Tallied root path s) (short : path.length ≤ 2)
    (reached : s.tableAt root path = some parent) (done : getOrCreateTable s parent index user = .ok (table, t)) :
    Tallied root (path ++ [index]) t ∧ t.otherFrames root = s.otherFrames root ∧
      ∀ other at', other.length ≤ 3 → t.tableAt root other = some at' →
        s.tableAt root other = some at' ∨ other = path ++ [index] := by
  have tree := tallied.tree
  rcases getOrCreateTable_cases tree short reached done with ⟨present, small, rfl, passed⟩ | ⟨graft, -, -, info⟩
  · have live : s.tables parent index ≠ 0 := fun zero => present (by rw [zero, Nat.zero_and])
    rcases passed with ⟨rfl, -⟩ | ⟨-, rfl⟩
    · have closed := tallied.close ⟨index, _, Paging.entryAt_of_tableAt reached index, live⟩
      grind [Tallied.widen]
    · have same := tableChild_or_user (s.tables parent index)
      have paths := fun (other : List (Fin 512)) (bounded : other.length ≤ 3) => tree.tableAt_relabel reached short same bounded
      have opened := tallied.relabel reached short same (fun zero => live (Nat.or_eq_zero_iff.mp zero).1)
        (tree.widen short reached present small).tree
      refine ⟨opened.widen _, Paging.otherFrames_congr (Paging.tablePages_congr paths) rfl, ?_⟩
      grind
  · refine ⟨graft.tallied tallied (by rw [info]), graft.otherFrames tree, ?_⟩
    intro other at' bounded arrived
    rw [graft.tableAt tree bounded] at arrived
    grind

end Grow

section Leaf

variable {virtAddr pt : Nat}

theorem TableTree.otherFrames_setLeaf (tree : TableTree s root) (reached : s.tableAt root (walkPath virtAddr) = some pt)
    (entry : Nat) : (s.setEntry pt (ptIndex virtAddr) entry).otherFrames root = s.otherFrames root :=
  Paging.otherFrames_congr (Paging.tablePages_congr fun _ short => tree.tableAt_setLeaf reached entry short) rfl

private theorem TableTree.occupied_setLeaf (tree : TableTree s root) (reached : s.tableAt root (walkPath virtAddr) = some pt)
    (entry : Nat) (bounded : other.length ≤ 3) (away : other ≠ walkPath virtAddr)
    (occupied : s.Occupied root other) : (s.setEntry pt (ptIndex virtAddr) entry).Occupied root other := by
  obtain ⟨place, kept, found, live⟩ := occupied
  refine ⟨place, kept, ?_, live⟩
  rw [tree.entryAt_setLeaf reached entry place bounded, if_neg fun same => away same.1, found]

/-- A page that is mapped fills its last-level table. -/
theorem Tallied.setLeaf (tallied : Tallied root (walkPath virtAddr) s)
    (reached : s.tableAt root (walkPath virtAddr) = some pt) (present : entry &&& pagePresent ≠ 0) :
    Tallied root [] (s.setEntry pt (ptIndex virtAddr) entry) := by
  have tree := tallied.tree
  refine tallied.of_paths (tree.setLeaf reached (.inr present))
    (fun _ short => tree.tableAt_setLeaf reached entry short) rfl ?_
  intro other _ bounded occupied _
  by_cases here : other = walkPath virtAddr
  · refine ⟨ptIndex virtAddr, entry, ?_, fun zero => present (by rw [zero, Nat.zero_and])⟩
    rw [tree.entryAt_setLeaf reached entry _ bounded, if_pos ⟨here, rfl⟩]
  · exact tree.occupied_setLeaf reached entry bounded here (occupied here)

/-- A page that is unmapped may leave its last-level table empty. -/
theorem Tallied.clearLeaf (tallied : Tallied root [] s) (reached : s.tableAt root (walkPath virtAddr) = some pt) :
    Tallied root (walkPath virtAddr) (s.setEntry pt (ptIndex virtAddr) 0) := by
  have tree := tallied.tree
  refine tallied.of_paths (tree.setLeaf reached (.inl rfl)) (fun _ short => tree.tableAt_setLeaf reached 0 short) rfl ?_
  intro other away bounded occupied proper
  exact tree.occupied_setLeaf reached 0 bounded away (occupied proper)

end Leaf

section Drop

/-- Nothing hangs below an empty table, so that dropping it takes one page out of the tree. -/
theorem TableTree.tablePages_dropTable (tree : TableTree s root) (short : path.length ≤ 2)
    (reached : s.tableAt root path = some parent) (below : s.tableAt root (path ++ [index]) = some table)
    (empty : ∀ place, s.tables table place = 0) :
    (s.dropTable table parent index).tablePages root = s.tablePages root \ {table} := by
  have bare : ∀ other, path ++ [index] <+: other → other ≠ path ++ [index] → s.tableAt root other = none := by
    rintro other ⟨rest, rfl⟩ longer
    cases rest with
    | nil => grind
    | cons place rest =>
      have stuck : s.tableAt root (path ++ [index] ++ [place]) = none := by
        rw [Paging.tableAt_snoc, Paging.entryAt_of_tableAt below, empty]
        rfl
      exact Paging.tableAt_of_stuck stuck ⟨rest, by simp⟩
  ext at'
  constructor
  · rintro ⟨other, bounded, arrived⟩
    rw [tree.tableAt_dropTable short reached bounded] at arrived
    split at arrived
    · cases arrived
    · refine ⟨⟨other, bounded, arrived⟩, ?_⟩
      rintro rfl
      have same := tree.unshared other (path ++ [index]) _ bounded (by simp; omega) arrived below
      grind
  · rintro ⟨⟨other, bounded, arrived⟩, apart⟩
    refine ⟨other, bounded, ?_⟩
    rw [tree.tableAt_dropTable short reached bounded, if_neg, arrived]
    grind

theorem Tallied.dropTable (tallied : Tallied root (path ++ [index]) s) (short : path.length ≤ 2)
    (reached : s.tableAt root path = some parent) (below : s.tableAt root (path ++ [index]) = some table)
    (empty : ∀ place, s.tables table place = 0) : Tallied root path (s.dropTable table parent index) := by
  have tree := tallied.tree
  obtain ⟨pages, tables, counted⟩ := tallied.counted
  have member : table ∈ pages := (tables table).mpr ⟨path ++ [index], by simp; omega, below⟩
  refine ⟨tree.dropTable short reached below, ⟨pages.erase table, ?_, ?_⟩, ?_⟩
  · intro at'
    rw [tree.tablePages_dropTable short reached below empty, Finset.mem_erase, tables]
    exact and_comm
  · have some' : 0 < pages.card := Finset.card_pos.mpr ⟨table, member⟩
    have counter : (s.dropTable table parent index).info.tablePagesAllocated = wordPred s.info.tablePagesAllocated := rfl
    rw [counter, counted, Finset.card_erase_of_mem member, wordPred, if_neg (by omega)]
  · intro other at' proper off bounded arrived
    rw [tree.tableAt_dropTable short reached bounded] at arrived
    split at arrived
    · cases arrived
    · rename_i away
      have different : other ≠ path ++ [index] := fun same => away (same ▸ List.prefix_rfl)
      obtain ⟨place, entry, found, live⟩ := tallied.occupied other at' proper different bounded arrived
      refine ⟨place, entry, ?_, live⟩
      rw [tree.entryAt_dropTable short reached bounded, if_neg fun same => off same.1, if_neg away, found]

theorem TableTree.otherFrames_dropTable (tree : TableTree s root) (short : path.length ≤ 2)
    (reached : s.tableAt root path = some parent) (below : s.tableAt root (path ++ [index]) = some table)
    (empty : ∀ place, s.tables table place = 0) :
    (s.dropTable table parent index).otherFrames root = s.otherFrames root := by
  obtain ⟨aligned, inside, used⟩ := tree.placed _ _ (by simp; omega) below
  have frees : s.pmm.Frees table := ⟨tree.ready.initialized, aligned, inside, used⟩
  ext page
  have bits : (s.dropTable table parent index).pmm.bitTest page = true ↔
      s.pmm.bitTest page = true ∧ ¬ (s.pmm.Frees table ∧ page = table / 4096) := pmmFreePagePhys_bitTest s.pmm table page
  rw [Paging.mem_otherFrames, Paging.mem_otherFrames, bits, tree.tablePages_dropTable short reached below empty]
  have member : table ∈ s.tablePages root := ⟨path ++ [index], by simp; omega, below⟩
  grind

theorem Tallied.close_of_filled (tallied : Tallied root gap s) (reached : s.tableAt root gap = some table)
    (filled : ¬ isTableEmpty s table = true) : Tallied root [] s := by
  rw [isTableEmpty_iff, not_forall] at filled
  obtain ⟨place, live⟩ := filled
  exact tallied.close ⟨place, _, Paging.entryAt_of_tableAt reached place, live⟩

/-- An entry on the way to a table leads to a table. -/
theorem Paging.linked_of_reached (arrived : s.tableAt root longer = some table)
    (through : path ++ [index] <+: longer) (reached : s.tableAt root path = some parent) :
    ¬ (s.tables parent index &&& pagePresent = 0 ∨ s.tables parent index &&& pagePs ≠ 0) := by
  intro dead
  have childless : tableChild (s.tables parent index) = none := dead.elim tableChild_of_absent tableChild_of_huge
  have stuck : s.tableAt root (path ++ [index]) = none := by
    grind [tableAt_snoc, entryAt_of_tableAt]
  grind [tableAt_of_stuck]

/-- `free_empty_tables` takes out the tables that an unmapped page left empty, from the last
level up, and no other. -/
theorem freeEmptyTables_tallied (tallied : Tallied root (walkPath virtAddr) s)
    (reached : s.tableAt root (walkPath virtAddr) = some pt) :
    Tallied root [] (freeEmptyTables s root virtAddr) ∧
      (freeEmptyTables s root virtAddr).otherFrames root = s.otherFrames root := by
  have tree := tallied.tree
  have start : s.tableAt root [] = some root := rfl
  have linked4 := Paging.linked_of_reached reached ⟨_, rfl⟩ start
  have pdpt := Paging.tableAt_next start linked4
  have linked3 := Paging.linked_of_reached reached ⟨_, rfl⟩ pdpt
  have pd := Paging.tableAt_next pdpt linked3
  have linked2 := Paging.linked_of_reached reached ⟨_, rfl⟩ pd
  have last := Paging.tableAt_next pd linked2
  simp only [freeEmptyTables, tree.root_mask]
  rw [if_neg linked4, if_neg linked3, if_neg linked2]
  split
  · rename_i emptyPt
    have vacant := isTableEmpty_iff.mp emptyPt
    have dropped := Tallied.dropTable tallied (by simp) pd last vacant
    have frames := tree.otherFrames_dropTable (by simp) pd last vacant
    have pdpt' := tree.dropTable_keeps (by simp) pd (by simp) pdpt
    have pd' := tree.dropTable_keeps (by simp) pd (by simp) pd
    split
    · rename_i emptyPd
      have vacant' := isTableEmpty_iff.mp emptyPd
      have dropped' := Tallied.dropTable dropped (by simp) (pdpt' _ _) (pd' _ _) vacant'
      have frames' := dropped.tree.otherFrames_dropTable (by simp) (pdpt' _ _) (pd' _ _) vacant'
      have pdpt'' := dropped.tree.dropTable_keeps (by simp) (pdpt' _ _) (by simp) (pdpt' _ _)
      split
      · rename_i emptyPdpt
        have vacant'' := isTableEmpty_iff.mp emptyPdpt
        have frames'' := dropped'.tree.otherFrames_dropTable (by simp) rfl (pdpt'' _ _) vacant''
        exact ⟨Tallied.dropTable dropped' (by simp) rfl (pdpt'' _ _) vacant'', frames''.trans (frames'.trans frames)⟩
      · rename_i filled
        exact ⟨dropped'.close_of_filled (pdpt'' _ _) filled, frames'.trans frames⟩
    grind [Tallied.close_of_filled]
  · rename_i filled
    exact ⟨tallied.close_of_filled last filled, rfl⟩

end Drop

section Walk

variable {user : Bool} {virtAddr pdpt pd pt : Nat} {s₁ s₂ : Paging}

section

variable (tallied : Tallied root [] s)
  (first : getOrCreateTable s root (pml4Index virtAddr) user = .ok (pdpt, s₁))
  (second : getOrCreateTable s₁ pdpt (pdptIndex virtAddr) user = .ok (pd, s₂))
include tallied first second

/-- A page directory for an address, made on demand. No last-level table is new. -/
theorem directory_tallied :
    Tallied root [pml4Index virtAddr, pdptIndex virtAddr] s₂ ∧
      s₂.tableAt root [pml4Index virtAddr, pdptIndex virtAddr] = some pd ∧
      s₂.otherFrames root = s.otherFrames root ∧
      ∀ other at', other.length = 3 → s₂.tableAt root other = some at' → s.tableAt root other = some at' := by
  have start : s.tableAt root [] = some root := rfl
  obtain ⟨tallied₁, frames₁, added₁⟩ := getOrCreateTable_tallied tallied (by simp) start first
  have reached₁ := (getOrCreateTable_grown tallied.tree (by simp) start first).2.1
  obtain ⟨tallied₂, frames₂, added₂⟩ := getOrCreateTable_tallied tallied₁ (by simp) reached₁ second
  have reached₂ := (getOrCreateTable_grown tallied₁.tree (by simp) reached₁ second).2.1
  grind

/-- The last-level table for an address, made on demand and perhaps empty. -/
theorem lastTable_tallied (third : getOrCreateTable s₂ pd (pdIndex virtAddr) user = .ok (pt, t)) :
    Tallied root (walkPath virtAddr) t ∧ t.tableAt root (walkPath virtAddr) = some pt ∧
      t.otherFrames root = s.otherFrames root ∧
      ∀ other at', other.length = 3 → t.tableAt root other = some at' →
        s.tableAt root other = some at' ∨ other = walkPath virtAddr := by
  obtain ⟨tallied₂, reached₂, frames₂, added₂⟩ := directory_tallied tallied first second
  obtain ⟨tallied₃, frames₃, added₃⟩ := getOrCreateTable_tallied tallied₂ (by simp) reached₂ third
  have reached₃ := (getOrCreateTable_grown tallied₂.tree (by simp) reached₂ third).2.1
  refine ⟨tallied₃, reached₃, frames₃.trans frames₂, ?_⟩
  intro other at' deep arrived
  rcases added₃ other at' (by omega) arrived with earlier | here
  · grind
  · exact .inr here

end

end Walk

section Calls

variable {virtAddr physAddr flags : Nat}

theorem pagingMapPage_tallied (tallied : Tallied root [] s)
    (done : pagingMapPage s root virtAddr physAddr flags = .ok (answer, t)) :
    Tallied root [] t ∧ t.otherFrames root = s.otherFrames root := by
  rcases pagingMapPage_walk tallied.tree done with ⟨-, rfl, -⟩ | ⟨-, allowed, pt, middle, walked, rfl⟩
  · exact ⟨tallied, rfl⟩
  · obtain ⟨_, _, _, _, _, first, second, third, same⟩ := walkToPte_chain tallied.tree allowed.2.2.2 walked
    cases same
    obtain ⟨grown, reached, frames, -⟩ := lastTable_tallied tallied first second third
    exact ⟨grown.setLeaf reached (leafEntry_present _ _ _), (grown.tree.otherFrames_setLeaf reached _).trans frames⟩

theorem pagingUnmapPage_tallied (tallied : Tallied root [] s)
    (done : pagingUnmapPage s root virtAddr = .ok (answer, t)) :
    Tallied root [] t ∧ t.otherFrames root = s.otherFrames root := by
  have tree := tallied.tree
  rcases pagingUnmapPage_walk tree done with ⟨-, rfl, -⟩ | ⟨pt, entry, -, -, reached, rfl⟩
  · exact ⟨tallied, rfl⟩
  · have kept := (tree.tableAt_setLeaf reached 0 (by simp [walkPath])).trans reached
    obtain ⟨freed, frames⟩ := freeEmptyTables_tallied (tallied.clearLeaf reached) kept
    exact ⟨freed, frames.trans (tree.otherFrames_setLeaf reached 0)⟩

theorem pagingProtectPage_tallied (tallied : Tallied root [] s)
    (done : pagingProtectPage s root virtAddr flags = .ok (answer, t)) :
    Tallied root [] t ∧ t.otherFrames root = s.otherFrames root := by
  rcases pagingProtectPage_cases tallied.tree done with ⟨-, rfl, -⟩ | ⟨pt, entry, -, -, reached, rfl⟩
  · exact ⟨tallied, rfl⟩
  · exact ⟨(tallied.widen _).setLeaf reached (leafEntry_present _ _ _), tallied.tree.otherFrames_setLeaf reached _⟩

end Calls

section Determined

/-- An address by its four indices. -/
def indexedAddress (l4 l3 l2 l1 : Fin 512) : Nat := l4 * 2 ^ 39 + l3 * 2 ^ 30 + l2 * 2 ^ 21 + l1 * 2 ^ 12

theorem indexedAddress_walk (l4 l3 l2 l1 : Fin 512) :
    walkPath (indexedAddress l4 l3 l2 l1) = [l4, l3, l2] ∧ ptIndex (indexedAddress l4 l3 l2 l1) = l1 := by
  simp only [walkPath, List.cons.injEq, and_true, Fin.ext_iff, pml4Index, pdptIndex, pdIndex, ptIndex, tableIndex_val,
    indexedAddress]
  omega

/-- A live entry of a last-level table is a mapping. -/
theorem TableTree.leaf_of_last (tree : TableTree s root) (deep : path.length = 3)
    (reached : s.tableAt root path = some table) (live : s.tables table index ≠ 0) :
    ∃ virtAddr, walkPath virtAddr = path ∧ ptIndex virtAddr = index ∧
      s.leafAt root virtAddr = some (.small (s.tables table index)) := by
  obtain ⟨l4, l3, l2, rfl⟩ := List.length_eq_three.mp deep
  obtain ⟨walk, last⟩ := indexedAddress_walk l4 l3 l2 index
  grind [Paging.leafAt_small_iff, entry_zero]

/-- A live entry above the last level is on the way to a mapping. -/
theorem Tallied.leaf_below (tallied : Tallied root [] s) (short : path.length ≤ 2)
    (reached : s.tableAt root path = some table) (live : s.tables table index ≠ 0) :
    ∃ virtAddr, path ++ [index] <+: walkPath virtAddr ∧ s.leafAt root virtAddr ≠ none := by
  have tree := tallied.tree
  obtain ⟨depth, total⟩ := Nat.exists_eq_add_of_le short
  induction depth generalizing path index table with
  | zero =>
    obtain ⟨l4, l3, rfl⟩ := List.length_eq_two.mp (show path.length = 2 by omega)
    by_cases huge : s.tables table index &&& pagePs = 0
    · have present : s.tables table index &&& pagePresent ≠ 0 := fun absent => live (tree.entry_zero (by simp) reached absent)
      have linked := Paging.tableAt_next reached fun dead => dead.elim present fun ps => ps huge
      obtain ⟨place, entry, found, filled⟩ := tallied.occupied _ _ (by simp) (by simp) (by simp) linked
      rw [Paging.entryAt_of_tableAt linked] at found
      cases found
      obtain ⟨virtAddr, walk, -, leaf⟩ := tree.leaf_of_last (by simp) linked filled
      grind
    · obtain ⟨walk, -⟩ := indexedAddress_walk l4 l3 index 0
      refine ⟨indexedAddress l4 l3 index 0, by grind, ?_⟩
      simp only [walkPath, List.cons.injEq, and_true] at walk
      obtain ⟨first, second, third⟩ := walk
      rw [← third] at huge
      rw [tree.leafAt_huge (by grind) huge]
      simp
  | succ depth ih =>
    have small := tree.not_huge (by omega) reached index
    have present : s.tables table index &&& pagePresent ≠ 0 := fun absent => live (tree.entry_zero (by omega) reached absent)
    have linked := Paging.tableAt_next reached fun dead => dead.elim present fun ps => ps small
    obtain ⟨place, entry, found, filled⟩ := tallied.occupied _ _ (by simp) (by simp) (by simp; omega) linked
    rw [Paging.entryAt_of_tableAt linked] at found
    grind [List.prefix_append]

/-- The way to a mapping leads through tables. -/
theorem Paging.tableAt_of_leaf (mapped : s.leafAt root virtAddr ≠ none)
    (through : path <+: walkPath virtAddr) (short : path.length ≤ 2) : s.tableAt root path ≠ none := by
  intro missing
  have upper : path <+: [pml4Index virtAddr, pdptIndex virtAddr] := by
    rcases List.prefix_concat_iff.mp (show path <+: [pml4Index virtAddr, pdptIndex virtAddr] ++ [pdIndex virtAddr] from through)
      with whole | above
    · simp [whole] at short
    · exact above
  have last := Paging.entryAt_eq_none (Paging.tableAt_of_stuck missing through) (ptIndex virtAddr)
  have directory := Paging.entryAt_eq_none (Paging.tableAt_of_stuck missing upper) (pdIndex virtAddr)
  rw [walkPath] at last
  simp [Paging.leafAt, last, directory] at mapped

theorem Tallied.tableAt_of_leaves (tallied : Tallied root [] s)
    (leaves : ∀ virtAddr, t.leafAt root virtAddr = s.leafAt root virtAddr) (short : path.length ≤ 3)
    (reached : s.tableAt root path = some table) : ∃ at', t.tableAt root path = some at' := by
  rw [← Option.ne_none_iff_exists']
  by_cases top : path = []
  · rw [top]
    exact Option.some_ne_none _
  obtain ⟨place, entry, found, live⟩ := tallied.occupied path table top top short reached
  rw [Paging.entryAt_of_tableAt reached] at found
  cases found
  by_cases deep : path.length = 3
  · obtain ⟨virtAddr, rfl, -, leaf⟩ := tallied.tree.leaf_of_last deep reached live
    rw [← leaves] at leaf
    obtain ⟨pt, arrived, -⟩ := Paging.leafAt_small_iff.mp leaf
    grind
  grind [leaf_below, Paging.tableAt_of_leaf, List.prefix_append]

/-- Where two trees have a last-level table in common, the mappings determine its entries. -/
theorem TableTree.last_of_leaves (tree : TableTree s root) (tree' : TableTree t root)
    (leaves : ∀ virtAddr, t.leafAt root virtAddr = s.leafAt root virtAddr) (deep : path.length = 3)
    (reached : s.tableAt root path = some table) (reached' : t.tableAt root path = some table) :
    t.tables table index = s.tables table index := by
  by_cases live : s.tables table index = 0
  · by_contra different
    rw [live] at different
    obtain ⟨virtAddr, walk, last, leaf⟩ := tree'.leaf_of_last deep reached' different
    rw [leaves, Paging.leafAt_of_table (walk ▸ reached), last, live, if_neg (by simp)] at leaf
    cases leaf
  · obtain ⟨virtAddr, walk, last, leaf⟩ := tree.leaf_of_last deep reached live
    rw [← leaves] at leaf
    obtain ⟨pt, arrived, same, -⟩ := Paging.leafAt_small_iff.mp leaf
    grind

end Determined

section Restore

/-- Tables that are made for the kernel change no entry that is in use. -/
theorem getOrCreateTable_entries (tree : TableTree s root) (short : path.length ≤ 2)
    (reached : s.tableAt root path = some parent)
    (done : getOrCreateTable s parent index false = .ok (table, t)) (bounded : other.length ≤ 3)
    (found : s.entryAt root other place = some entry)
    (live : entry ≠ 0) : t.entryAt root other place = some entry := by
  rcases getOrCreateTable_cases tree short reached done with ⟨-, -, -, ⟨rfl, -⟩ | ⟨no, -⟩⟩ | ⟨graft, -⟩
  · exact found
  · cases no
  · obtain ⟨at', arrived, -⟩ := Option.map_eq_some_iff.mp found
    have off := graft.off arrived
    have different : other ≠ path ++ [index] := fun same => off (same ▸ List.prefix_rfl)
    have apart : ¬ (other = path ∧ place = index) := by
      rintro ⟨rfl, rfl⟩
      rw [graft.vacant] at found
      grind
    rw [graft.entryAt tree place bounded, if_neg apart, if_neg different, if_neg off, found]

variable {virtAddr physAddr flags : Nat}

section

variable (tree : TableTree s root)
include tree

/-- A mapping leaves the tables where they are. -/
theorem pagingMapPage_tables
    (done : pagingMapPage s root virtAddr physAddr flags = .ok (answer, t))
    (bounded : other.length ≤ 3) (arrived : s.tableAt root other = some table) :
    t.tableAt root other = some table := by
  rcases pagingMapPage_walk tree done with ⟨-, rfl, -⟩ | ⟨-, allowed, pt, middle, walked, rfl⟩
  · exact arrived
  · obtain ⟨_, same, grown, reached, -⟩ := walkToPte_create tree allowed.2.2.2 walked
    grind [TableTree.tableAt_setLeaf, Grown.tree, Grown.kept]

/-- A mapping for the kernel also leaves the entries on the way. -/
theorem pagingMapPage_entries (kernel : flags &&& pagingFlagUser = 0)
    (done : pagingMapPage s root virtAddr physAddr flags = .ok (true, t))
    (bounded : other.length ≤ 2) (found : s.entryAt root other place = some entry)
    (live : entry ≠ 0) : t.entryAt root other place = some entry := by
  rcases pagingMapPage_walk tree done with ⟨no, -⟩ | ⟨-, allowed, pt, middle, walked, rfl⟩
  · cases no
  have noUser : (flags &&& pagingFlagUser != 0) = false := by simp [kernel]
  rw [noUser] at walked
  obtain ⟨_, same, grown, reached, -⟩ := walkToPte_create tree allowed.2.2.2 walked
  cases same
  obtain ⟨pdpt, s₁, pd, s₂, _, first, second, third, same⟩ := walkToPte_chain tree allowed.2.2.2 walked
  have start : s.tableAt root [] = some root := rfl
  obtain ⟨grown₁, reached₁, -⟩ := getOrCreateTable_grown tree (by simp) start first
  obtain ⟨grown₂, reached₂, -⟩ := getOrCreateTable_grown grown₁.tree (by simp) reached₁ second
  have kept₁ := getOrCreateTable_entries tree (by simp) start first (by omega) found live
  have kept₂ := getOrCreateTable_entries grown₁.tree (by simp) reached₁ second (by omega) kept₁ live
  have kept₃ := getOrCreateTable_entries grown₂.tree (by simp) reached₂ third (by omega) kept₂ live
  rw [grown.tree.entryAt_setLeaf reached _ place (by omega), if_neg, kept₃]
  rintro ⟨rfl, -⟩
  simp [walkPath] at bounded

/-- What unmapping leaves: tables go but do not move, and the entries on the way to the
pages that stay mapped stay. -/
theorem pagingUnmapPage_keeps (done : pagingUnmapPage s root virtAddr = .ok (some frame, t)) :
    (∀ other table, other.length ≤ 3 → t.tableAt root other = some table → s.tableAt root other = some table) ∧
      ∀ target other place, t.leafAt root target ≠ none → other ++ [place] <+: walkPath target →
        t.entryAt root other place = s.entryAt root other place := by
  rcases pagingUnmapPage_cases tree done with ⟨no, -⟩ | ⟨pt, entry, -, -, reached, pruned⟩
  · cases no
  constructor
  · intro other table bounded arrived
    have earlier := pruned.tables other table bounded arrived
    grind [TableTree.tableAt_setLeaf]
  · intro target other place mapped through
    have bound := through.length_le
    simp only [List.length_append, walkPath, List.length_cons, List.length_nil] at bound
    rw [pruned.leaves] at mapped
    rw [pruned.walks target other place mapped through, tree.entryAt_setLeaf reached 0 place (by omega), if_neg]
    rintro ⟨rfl, -⟩
    simp [walkPath] at bound

/-- The frames in use are those of the tables and the others. -/
theorem TableTree.used_iff (page : Nat) :
    s.pmm.bitTest page = true ↔ page ∈ s.otherFrames root ∨ page * 4096 ∈ s.tablePages root := by
  constructor
  · intro used
    by_cases holds : page * 4096 ∈ s.tablePages root
    · exact .inr holds
    · exact .inl ⟨used, holds⟩
  · rintro (other | ⟨path, short, reached⟩)
    · exact other.1
    · have used := (tree.placed path _ short reached).2.2
      grind

theorem unmap_leaves (mappedTree : TableTree t root)
    (mapped : pagingMapPage s root virtAddr physAddr flags = .ok (true, t))
    (unmapped : pagingUnmapPage t root virtAddr = .ok (some frame, u)) (other : Nat) :
    u.leafAt root other = s.leafAt root other := by
  rcases pagingMapPage_rebound tree mapped with ⟨no, -⟩ | ⟨-, allowed, bound⟩
  · cases no
  rcases pagingUnmapPage_rebound mappedTree unmapped with ⟨no, -⟩ | ⟨-, -, -, released⟩
  · cases no
  rw [released.leaves, bound.leaves]
  split
  · rename_i same
    rw [← Paging.leafAt_page s root other, virtPage_eq_iff.mpr same, Paging.leafAt_page]
    exact allowed.2.2.2.symm
  · rfl

end

/-- Two trees with no empty table and the same leaves have tables at the same paths. -/
theorem Tallied.tableAt_congr (tallied : Tallied root [] s) (tallied' : Tallied root [] u)
    (leaves : ∀ virtAddr, u.leafAt root virtAddr = s.leafAt root virtAddr)
    (agree : ∀ (path : List (Fin 512)) (at' table : Nat), path.length ≤ 3 → u.tableAt root path = some at' →
      s.tableAt root path = some table → at' = table)
    (path : List (Fin 512)) (short : path.length ≤ 3) : u.tableAt root path = s.tableAt root path := by
  cases before : s.tableAt root path with
  | some table =>
    obtain ⟨at', reached⟩ := tallied.tableAt_of_leaves leaves short before
    grind
  | none =>
    cases after : u.tableAt root path with
    | none => rfl
    | some at' =>
      obtain ⟨table, reached⟩ := tallied'.tableAt_of_leaves (fun v => (leaves v).symm) short after
      grind

theorem Tallied.counter_congr (tallied : Tallied root [] s) (tallied' : Tallied root [] u)
    (pages : u.tablePages root = s.tablePages root) :
    u.info.tablePagesAllocated = s.info.tablePagesAllocated := by
  obtain ⟨tables, listed, counted⟩ := tallied.counted
  obtain ⟨tables', listed', counted'⟩ := tallied'.counted
  have same : tables' = tables := by
    grind
  grind

/-- Unmapping a page that was mapped for the kernel gives the tables back as they were. -/
theorem unmap_restores (tallied : Tallied root [] s) (kernel : flags &&& pagingFlagUser = 0)
    (mapped : pagingMapPage s root virtAddr physAddr flags = .ok (true, t))
    (unmapped : pagingUnmapPage t root virtAddr = .ok (some frame, u)) :
    u.tablePages root = s.tablePages root ∧ (∀ table ∈ s.tablePages root, u.tables table = s.tables table) ∧
      (∀ page, u.pmm.bitTest page = s.pmm.bitTest page) ∧
      u.info.tablePagesAllocated = s.info.tablePagesAllocated := by
  have tree := tallied.tree
  obtain ⟨tallied₁, frames₁⟩ := pagingMapPage_tallied tallied mapped
  obtain ⟨tallied₂, frames₂⟩ := pagingUnmapPage_tallied tallied₁ unmapped
  obtain ⟨shrunk, walks⟩ := pagingUnmapPage_keeps tallied₁.tree unmapped
  have leaves := unmap_leaves tree tallied₁.tree mapped unmapped
  have paths := tallied.tableAt_congr tallied₂ leaves fun path at' table short after before =>
    Option.some.inj ((shrunk path at' short after).symm.trans (pagingMapPage_tables tree mapped short before))
  have pages := Paging.tablePages_congr paths
  refine ⟨pages, ?_, ?_, ?_⟩
  · rintro table ⟨path, short, reached⟩
    have reached' := (paths path short).trans reached
    funext index
    by_cases deep : path.length = 3
    · exact tree.last_of_leaves tallied₂.tree leaves deep reached reached'
    · by_cases live : s.tables table index = 0
      · grind [Tallied.leaf_below, Paging.entryAt_of_tableAt, Paging.leafAt_of_vacant]
      grind [Tallied.leaf_below, Paging.entryAt_of_tableAt, pagingMapPage_entries]
  · intro page
    rw [Bool.eq_iff_iff, tallied₂.tree.used_iff, tree.used_iff, pages, frames₂, frames₁]
  · exact tallied.counter_congr tallied₂ pages

end Restore

end Velox
