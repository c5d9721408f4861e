import Velox.Mm.PageEntry
import Velox.Mm.PmmSafety

namespace Velox

variable {path other : List (Fin 512)} {table entry virtAddr frame : Nat} {pmm : Pmm}

/-- The table page a path of indices leads to from a root. -/
def Paging.tableAt (s : Paging) (root : Nat) (path : List (Fin 512)) : Option Nat :=
  Lib.follow tableChild s.tables root path

/-- The entry at one index of the table page a path leads to. -/
def Paging.entryAt (s : Paging) (root : Nat) (path : List (Fin 512)) (index : Fin 512) : Option Nat :=
  Lib.entryAt tableChild s.tables root path index

/-- What an entry may hold `depth` tables below the root: nothing, or a present
entry, which is writable above the last level and huge only in a page directory. -/
def EntryShape (depth entry : Nat) : Prop :=
  entry = 0 ∨ (entry &&& pagePresent ≠ 0 ∧ (depth < 3 → entry &&& pageWritable ≠ 0) ∧
    (depth < 2 → entry &&& pagePs = 0))

structure TableTree (s : Paging) (root : Nat) : Prop where
  ready : s.pmm.Ready
  sized : s.pmm.info.totalPages ≤ 2 ^ 40
  unshared : Lib.Unshared tableChild s.tables root 3
  placed : ∀ path table, path.length ≤ 3 → s.tableAt root path = some table →
    table % 4096 = 0 ∧ table / 4096 < s.pmm.info.totalPages ∧ s.pmm.bitTest (table / 4096) = true
  shaped : ∀ path index entry, path.length ≤ 3 → s.entryAt root path index = some entry → EntryShape path.length entry

/-- A mapping: the last-level or page-directory entry that ends a walk. -/
inductive Leaf where
  | small (entry : Nat)
  | huge (entry : Nat)
deriving DecidableEq, Repr

/-- The physical address a leaf gives to a virtual address below it. -/
def Leaf.address (virtAddr : Nat) : Leaf → Nat
  | .small entry => entry &&& entryAddrMask4k ||| virtAddr &&& (pageSize4k - 1)
  | .huge entry => entry &&& entryAddrMask2m ||| virtAddr &&& (pageSize2m - 1)

def Paging.leafAt (s : Paging) (root virtAddr : Nat) : Option Leaf :=
  match s.entryAt root [pml4Index virtAddr, pdptIndex virtAddr, pdIndex virtAddr] (ptIndex virtAddr) with
  | some entry => if entry &&& pagePresent ≠ 0 then some (.small entry) else none
  | none =>
    match s.entryAt root [pml4Index virtAddr, pdptIndex virtAddr] (pdIndex virtAddr) with
    | some entry => if entry &&& pagePresent ≠ 0 ∧ entry &&& pagePs ≠ 0 then some (.huge entry) else none
    | none => none

variable {s t : Paging} {root : Nat}

theorem TableTree.root_mask (tree : TableTree s root) : root &&& entryAddrMask4k = root := by
  obtain ⟨aligned, below, -⟩ := tree.placed [] root (by simp) rfl
  grind [sized, mask4k_of_aligned]

theorem Paging.entryAt_of_tableAt (reached : s.tableAt root path = some table) (index : Fin 512) :
    s.entryAt root path index = some (s.tables table index) :=
  Lib.entryAt_of_follow reached index

theorem Paging.tableAt_snoc (s : Paging) (root : Nat) (path : List (Fin 512)) (index : Fin 512) :
    s.tableAt root (path ++ [index]) = (s.entryAt root path index).bind tableChild :=
  Lib.follow_snoc_eq path index

/-- A nonzero entry is present. -/
theorem TableTree.zero_of_absent (tree : TableTree s root) (short : path.length ≤ 3)
    (found : s.entryAt root path index = some entry)
    (absent : entry &&& pagePresent = 0) : entry = 0 := by
  rcases tree.shaped path index entry short found with zero | ⟨present, -⟩
  · exact zero
  omega

/-- Following the three upper levels, one entry at a time. -/
theorem Paging.leafAt_eq (s : Paging) (root virtAddr : Nat) : s.leafAt root virtAddr =
      (tableChild (s.tables root (pml4Index virtAddr))).bind fun pdpt =>
        (tableChild (s.tables pdpt (pdptIndex virtAddr))).bind fun pd =>
          let pde := s.tables pd (pdIndex virtAddr)
          match tableChild pde with
          | some pt =>
            let pte := s.tables pt (ptIndex virtAddr)
            if pte &&& pagePresent ≠ 0 then some (.small pte) else none
          | none => if pde &&& pagePresent ≠ 0 ∧ pde &&& pagePs ≠ 0 then some (.huge pde) else none := by
  simp only [leafAt, entryAt, Lib.entryAt, Lib.follow]
  cases tableChild (s.tables root (pml4Index virtAddr)) with
  | none => rfl
  | some pdpt =>
    simp only [Option.bind_some]
    cases tableChild (s.tables pdpt (pdptIndex virtAddr)) with
    | none => rfl
    | some pd =>
      grind

theorem tableChild_of_table (present : entry &&& pagePresent ≠ 0)
    (table : entry &&& pagePs = 0) : tableChild entry = some (entry &&& entryAddrMask4k) :=
  tableChild_eq_some.mpr ⟨present, table, rfl⟩

theorem tableChild_of_absent (absent : entry &&& pagePresent = 0) : tableChild entry = none := by
  simp [tableChild, absent]

theorem tableChild_of_huge (huge : entry &&& pagePs ≠ 0) : tableChild entry = none := by
  simp [tableChild, huge]

/-- Above the page directories every present entry is a table. -/
theorem TableTree.not_huge (tree : TableTree s root) (short : path.length < 2)
    (reached : s.tableAt root path = some table) (index : Fin 512) :
    s.tables table index &&& pagePs = 0 := by
  have shape := tree.shaped path index _ (by omega) (Paging.entryAt_of_tableAt reached index)
  rcases shape with zero | ⟨-, -, table⟩
  · simp [zero]
  · exact table short

theorem Paging.tableAt_single (linked : tableChild (s.tables root index) = some pdpt) :
    s.tableAt root [index] = some pdpt := by
  simp [Paging.tableAt, Lib.follow, linked]

/-- The walk of `translate_with_cr3` ends at the leaf of its address. -/
theorem translateWithCr3_eq_leaf (tree : TableTree s root) (virtAddr : Nat) :
    translateWithCr3 s root virtAddr = (s.leafAt root virtAddr).map (Leaf.address virtAddr) := by
  simp only [translateWithCr3, tree.root_mask, Paging.leafAt_eq]
  by_cases present4 : s.tables root (pml4Index virtAddr) &&& pagePresent = 0
  · simp [present4, tableChild_of_absent]
  · have linked4 := tableChild_of_table present4 (tree.not_huge (show ([] : List (Fin 512)).length < 2 by simp) rfl _)
    have reached4 := Paging.tableAt_single linked4
    simp only [present4, linked4, Option.bind_some, ↓reduceIte]
    generalize s.tables root (pml4Index virtAddr) &&& entryAddrMask4k = pdpt at reached4 ⊢
    have small3 := tree.not_huge (by simp) reached4 (pdptIndex virtAddr)
    by_cases present3 : s.tables pdpt (pdptIndex virtAddr) &&& pagePresent = 0
    · simp [present3, tableChild_of_absent]
    · simp only [present3, tableChild_of_table present3 small3, small3, Option.bind_some, ↓reduceIte, ne_eq,
        not_true_eq_false]
      generalize s.tables pdpt (pdptIndex virtAddr) &&& entryAddrMask4k = pd
      by_cases present2 : s.tables pd (pdIndex virtAddr) &&& pagePresent = 0
      · simp [present2, tableChild_of_absent]
      · by_cases small2 : s.tables pd (pdIndex virtAddr) &&& pagePs = 0
        · simp only [present2, small2, tableChild_of_table present2 small2, ↓reduceIte, not_true_eq_false]
          split <;> simp_all [Leaf.address]
        · simp [present2, small2, tableChild_of_huge, Leaf.address]

/-- The three indices that lead an address to its last-level table. -/
def walkPath (virtAddr : Nat) : List (Fin 512) := [pml4Index virtAddr, pdptIndex virtAddr, pdIndex virtAddr]

theorem prefix_three {a : Fin 512}
    (through : path ++ [index] <+: [a, b, c]) :
    (path = [] ∧ index = a) ∨ (path = [a] ∧ index = b) ∨ (path = [a, b] ∧ index = c) := by
  obtain ⟨rest, joined⟩ := through
  match path with
  | [] => simp_all
  | [_] => simp_all
  | [_, _] => simp_all
  | _ :: _ :: _ :: _ => simp at joined

theorem Paging.tableAt_of_stuck {stuck : List (Fin 512)} (missing : s.tableAt root stuck = none)
    (longer : stuck <+: path) : s.tableAt root path = none := by
  obtain ⟨rest, rfl⟩ := longer
  rw [Paging.tableAt, Lib.follow_append]
  exact congrArg (Option.bind · _) missing

theorem Paging.entryAt_eq_none (missing : s.tableAt root path = none)
    (index : Fin 512) : s.entryAt root path index = none :=
  congrArg (Option.map _) missing

/-- An address has no leaf when some entry on its way leads nowhere. -/
theorem Paging.leafAt_of_dead (through : path ++ [index] <+: walkPath virtAddr)
    (found : s.entryAt root path index = some entry) (dead : tableChild entry = none)
    (small : entry &&& pagePs = 0) : s.leafAt root virtAddr = none := by
  have stuck : s.tableAt root (path ++ [index]) = none := by
    grind [tableAt_snoc]
  have last := Paging.entryAt_eq_none (Paging.tableAt_of_stuck stuck through) (ptIndex virtAddr)
  rw [walkPath] at last
  simp only [Paging.leafAt, last]
  by_cases directory : path ++ [index] <+: [pml4Index virtAddr, pdptIndex virtAddr]
  · grind [entryAt_eq_none, tableAt_of_stuck]
  · have here : path = [pml4Index virtAddr, pdptIndex virtAddr] ∧ index = pdIndex virtAddr := by
      rcases prefix_three through with ⟨rfl, rfl⟩ | ⟨rfl, rfl⟩ | same
      · grind
      · grind
      · exact same
    grind

/-- An address has no leaf when its walk reads an empty entry. -/
theorem Paging.leafAt_of_vacant (through : path ++ [index] <+: walkPath virtAddr ++ [ptIndex virtAddr])
    (found : s.entryAt root path index = some 0) : s.leafAt root virtAddr = none := by
  rcases List.prefix_concat_iff.mp through with last | above
  · obtain ⟨rfl, same⟩ := List.append_inj' last rfl
    cases same
    rw [walkPath] at found
    simp [Paging.leafAt, found]
  · exact Paging.leafAt_of_dead above found rfl (Nat.zero_and _)

/-- Two states with the same entries at the end of a walk have the same leaf; the
page directory only matters when the walk stops there. -/
theorem Paging.leafAt_congr (last : t.entryAt root (walkPath virtAddr) (ptIndex virtAddr) =
      s.entryAt root (walkPath virtAddr) (ptIndex virtAddr))
    (directory : s.entryAt root (walkPath virtAddr) (ptIndex virtAddr) = none →
      t.entryAt root [pml4Index virtAddr, pdptIndex virtAddr] (pdIndex virtAddr) =
        s.entryAt root [pml4Index virtAddr, pdptIndex virtAddr] (pdIndex virtAddr)) :
    t.leafAt root virtAddr = s.leafAt root virtAddr := by
  rw [walkPath] at last directory
  simp only [Paging.leafAt, last]
  grind

/-- Where all entries off one place agree, so do the leaves of the walks off it. -/
theorem Paging.leafAt_congr_off (short : path.length ≤ 2)
    (off : ¬ path ++ [index] <+: walkPath virtAddr)
    (agree : ∀ other place, other.length ≤ 3 → ¬ path ++ [index] <+: other ++ [place] →
      t.entryAt root other place = s.entryAt root other place) :
    t.leafAt root virtAddr = s.leafAt root virtAddr := by
  apply Paging.leafAt_congr
  · apply agree _ _ (by simp [walkPath])
    intro through
    rcases List.prefix_concat_iff.mp through with last | above
    · have longer := congrArg List.length last
      simp [walkPath] at longer
      omega
    · exact off above
  · intro _
    exact agree _ _ (by simp) off

/-- A walk goes on below every table on its way. -/
theorem walkPath_onward (through : path <+: walkPath virtAddr) :
    ∃ next, path ++ [next] <+: walkPath virtAddr ++ [ptIndex virtAddr] := by
  obtain ⟨rest, joined⟩ := through
  obtain ⟨next, tail, onward⟩ : ∃ next tail, rest ++ [ptIndex virtAddr] = next :: tail :=
    List.exists_cons_of_ne_nil (by simp)
  exact ⟨next, tail, by grind⟩

/-- What building tables on the way to an address leaves of the tree before. -/
structure Grown (root : Nat) (s t : Paging) : Prop where
  tree : TableTree t root
  kept : ∀ path table, path.length ≤ 3 → s.tableAt root path = some table → t.tableAt root path = some table
  origin : ∀ path table, path.length ≤ 3 → t.tableAt root path = some table →
    s.tableAt root path = some table ∨ s.pmm.bitTest (table / 4096) = false
  leaves : ∀ virtAddr, t.leafAt root virtAddr = s.leafAt root virtAddr
  users : ∀ path index entry, path.length < 3 → s.entryAt root path index = some entry →
    entry &&& pageUser ≠ 0 → ∃ wider, t.entryAt root path index = some wider ∧ wider &&& pageUser ≠ 0
  used : ∀ page, s.pmm.bitTest page = true → t.pmm.bitTest page = true
  total : t.pmm.info.totalPages = s.pmm.info.totalPages
  highest : t.pmm.info.highestPhysicalAddress = s.pmm.info.highestPhysicalAddress
  rootPml4Phys : t.info.rootPml4Phys = s.info.rootPml4Phys
  nxEnabled : t.nxEnabled = s.nxEnabled
  initialized : t.initialized = s.initialized

theorem Grown.refl (tree : TableTree s root) : Grown root s s where
  tree := tree
  kept := fun _ _ _ reached => reached
  origin := fun _ _ _ reached => .inl reached
  leaves := fun _ => rfl
  users := fun _ _ entry _ found user => ⟨entry, found, user⟩
  used := fun _ used => used
  total := rfl
  highest := rfl
  rootPml4Phys := rfl
  nxEnabled := rfl
  initialized := rfl

theorem Grown.trans (first : Grown root s t) (second : Grown root t u) : Grown root s u where
  tree := second.tree
  kept := fun path table short reached => second.kept path table short (first.kept path table short reached)
  origin := by
    grind [origin, used]
  leaves := fun virtAddr => (second.leaves virtAddr).trans (first.leaves virtAddr)
  users := by
    grind [users]
  used := fun page used => second.used page (first.used page used)
  total := second.total.trans first.total
  highest := second.highest.trans first.highest
  rootPml4Phys := second.rootPml4Phys.trans first.rootPml4Phys
  nxEnabled := second.nxEnabled.trans first.nxEnabled
  initialized := second.initialized.trans first.initialized

section Relabel

variable {path other : List (Fin 512)} {table entry : Nat} {index place : Fin 512} (tree : TableTree s root)
  (reached : s.tableAt root path = some table) (short : path.length ≤ 2)
  (same : tableChild entry = tableChild (s.tables table index)) (bounded : other.length ≤ 3)
include tree reached short same bounded

/-- An entry that is written anew and leads where it led before moves no table. -/
theorem TableTree.tableAt_relabel : (s.setEntry table index entry).tableAt root other = s.tableAt root other :=
  Lib.follow_writeEntry_same tree.unshared reached (by omega) same bounded

theorem TableTree.entryAt_relabel : (s.setEntry table index entry).entryAt root other place =
      if other = path ∧ place = index then some entry else s.entryAt root other place :=
  Lib.entryAt_writeEntry_same tree.unshared reached (by omega) same bounded

end Relabel

/-- Opening an intermediate entry to user accesses moves no table and no leaf. -/
theorem TableTree.widen (tree : TableTree s root) (short : path.length ≤ 2) (reached : s.tableAt root path = some table)
    (present : s.tables table index &&& pagePresent ≠ 0)
    (small : s.tables table index &&& pagePs = 0) :
    Grown root s (s.setEntry table index (s.tables table index ||| pageUser)) := by
  have same := tableChild_or_user (s.tables table index)
  have inside : path.length ≤ 3 := by omega
  have here := Paging.entryAt_of_tableAt reached index
  constructor
  · refine ⟨tree.ready, tree.sized, tree.unshared.relabel reached inside same, ?_, ?_⟩
    · intro other at' bounded arrived
      rw [tree.tableAt_relabel reached short same bounded] at arrived
      exact tree.placed other at' bounded arrived
    · intro other place entry bounded found
      rw [tree.entryAt_relabel reached short same bounded] at found
      split at found
      · rename_i same
        obtain ⟨rfl, rfl⟩ := same
        cases found
        rcases tree.shaped other place _ inside here with zero | ⟨-, writable, table'⟩
        · simp [zero] at present
        · right
          simp only [Lib.or_and_ne_zero, Lib.or_and_eq_zero]
          exact ⟨.inl present, fun above => .inl (writable above), fun above => ⟨table' above, by decide⟩⟩
      grind [shaped]
  · grind [tableAt_relabel]
  · grind [tableAt_relabel]
  · intro virtAddr
    apply Paging.leafAt_congr
    · rw [tree.entryAt_relabel reached short same (by simp [walkPath])]
      split
      · rename_i same
        have longer := congrArg List.length same.1
        simp [walkPath] at longer
        omega
      · rfl
    · intro missing
      rw [tree.entryAt_relabel reached short same (by simp)]
      split
      · rename_i same
        obtain ⟨rfl, rfl⟩ := same
        have below : s.tableAt root (walkPath virtAddr) = some (s.tables table (pdIndex virtAddr) &&& entryAddrMask4k) := by
          have joined := Paging.tableAt_snoc s root [pml4Index virtAddr, pdptIndex virtAddr] (pdIndex virtAddr)
          rw [here] at joined
          exact joined.trans (tableChild_of_table present small)
        rw [Paging.entryAt_of_tableAt below] at missing
        cases missing
      · rfl
  · grind [entryAt_relabel, Lib.or_and_ne_zero]
  · exact fun page used => used
  · rfl
  · rfl
  · rfl
  · rfl
  · rfl

theorem allocTablePage_ok (done : allocTablePage s = .ok (table, t)) :
    Allocated s.pmm table t.pmm ∧ (s.pmm.Ready → t.pmm.Ready) ∧ t = { s with
        pmm := t.pmm
        tables := Function.update s.tables table (fun _ => 0)
        info := { s.info with tablePagesAllocated := wordSucc s.info.tablePagesAllocated } } := by
  unfold allocTablePage at done
  split at done
  · cases done
  · split at done
    · cases done
    grind [pmmTryAllocPagePhys_allocated, pmmTryAllocPagePhys_ready]

/-- A frame the allocator counts as free holds no table. -/
theorem TableTree.free_unreached (tree : TableTree s root) (clear : s.pmm.bitTest (frame / 4096) = false)
    (path : List (Fin 512)) (short : path.length ≤ 3) :
    s.tableAt root path ≠ some frame := by
  intro reached
  have used := (tree.placed path frame short reached).2.2
  simp [clear] at used

/-- A newly allocated, zeroed table hung under the empty entry `index` of the
table at `path`. -/
structure Graft (root : Nat) (s t : Paging) (path : List (Fin 512)) (index : Fin 512) (fresh : Nat)
    (user : Bool) : Prop where
  short : path.length ≤ 2
  vacant : s.entryAt root path index = some 0
  allocated : Allocated s.pmm fresh t.pmm
  ready : t.pmm.Ready
  tables : ∃ table, s.tableAt root path = some table ∧
    t.tables = Lib.writeEntry (Function.update s.tables fresh fun _ => 0) table index (fresh ||| linkFlags user)

section Graft

variable {path : List (Fin 512)} {index : Fin 512} {fresh : Nat} {user : Bool}

section

variable (tree : TableTree s root) (clear : s.pmm.bitTest (fresh / 4096) = false)
include tree clear

/-- Zeroing a page that is no table keeps every path. -/
private theorem TableTree.follow_update (path : List (Fin 512)) (short : path.length ≤ 3) :
    Lib.follow tableChild (Function.update s.tables fresh fun _ => 0) root path = s.tableAt root path := by
  apply Lib.follow_congr _ path short
  intro other table bounded reached
  apply Function.update_of_ne
  rintro rfl
  exact tree.free_unreached clear other (by omega) reached

private theorem TableTree.entryAt_update (path : List (Fin 512)) (index : Fin 512)
    (short : path.length ≤ 3) :
    Lib.entryAt tableChild (Function.update s.tables fresh fun _ => 0) root path index =
      s.entryAt root path index := by
  rw [Lib.entryAt, tree.follow_update clear path short]
  cases reached : s.tableAt root path with
  | none => rw [Paging.entryAt_eq_none reached]; rfl
  | some table =>
    have apart : table ≠ fresh := by
      grind [free_unreached]
    rw [Paging.entryAt_of_tableAt reached, Option.map_some, Function.update_of_ne apart]

/-- The zeroed page is ready to be hung into the tree. -/
private theorem TableTree.fresh_page :
    Lib.Unshared tableChild (Function.update s.tables fresh fun _ => 0) root 3 ∧
      (∀ other : List (Fin 512), other.length ≤ 3 →
        Lib.follow tableChild (Function.update s.tables fresh fun _ => 0) root other ≠ some fresh) ∧
      ∀ place, tableChild ((Function.update s.tables fresh fun _ => 0) fresh place) = none := by
  refine ⟨?_, ?_, by simp⟩
  · intro first second table firstShort secondShort firstReached secondReached
    rw [tree.follow_update clear first firstShort] at firstReached
    rw [tree.follow_update clear second secondShort] at secondReached
    exact tree.unshared first second table firstShort secondShort firstReached secondReached
  · intro other bounded
    rw [tree.follow_update clear other bounded]
    grind [free_unreached]

end

section

variable (tree : TableTree s root) (graft : Graft root s t path index fresh user)
include tree graft

theorem Graft.fixed : fresh &&& entryAddrMask4k = fresh := by
  have sized := tree.sized
  have below := graft.allocated.below
  exact mask4k_of_aligned graft.allocated.aligned (by omega)

theorem Graft.tableAt (bounded : other.length ≤ 3) :
    t.tableAt root other = if other = path ++ [index] then some fresh
      else if path ++ [index] <+: other then none else s.tableAt root other := by
  have short := graft.short
  have clear := graft.allocated.clear
  obtain ⟨table, reached, tables⟩ := graft.tables
  obtain ⟨unshared, unreached, empty⟩ := tree.fresh_page clear
  rw [← tree.follow_update clear path (by omega)] at reached
  rw [Paging.tableAt, tables, Lib.follow_writeEntry_graft unshared reached (by omega)
    (tableChild_link (graft.fixed tree) user) unreached empty bounded, tree.follow_update clear other bounded]

theorem Graft.entryAt (place : Fin 512) (bounded : other.length ≤ 3) :
    t.entryAt root other place = if other = path ∧ place = index then some (fresh ||| linkFlags user)
      else if other = path ++ [index] then some 0
      else if path ++ [index] <+: other then none else s.entryAt root other place := by
  have short := graft.short
  have clear := graft.allocated.clear
  obtain ⟨table, reached, tables⟩ := graft.tables
  obtain ⟨unshared, unreached, empty⟩ := tree.fresh_page clear
  rw [← tree.follow_update clear path (by omega)] at reached
  rw [Paging.entryAt, tables, Lib.entryAt_writeEntry_graft unshared reached (by omega)
    (tableChild_link (graft.fixed tree) user) unreached empty bounded,
    tree.entryAt_update clear other place bounded, Function.update_self]

end

theorem Graft.tree (tree : TableTree s root) (graft : Graft root s t path index fresh user) : TableTree t root := by
  have short := graft.short
  have got := graft.allocated
  have fixed := graft.fixed tree
  have linked := tableChild_link fixed user
  refine ⟨graft.ready, by rw [got.total]; exact tree.sized, ?_, ?_, ?_⟩
  · obtain ⟨table, reached, tables⟩ := graft.tables
    obtain ⟨unshared, unreached, empty⟩ := tree.fresh_page got.clear
    rw [← tree.follow_update got.clear path (by omega)] at reached
    grind [Lib.Unshared.graft]
  · intro other table bounded arrived
    rw [graft.tableAt tree bounded] at arrived
    rw [got.total, got.bits]
    split at arrived
    · cases arrived
      exact ⟨got.aligned, got.below, by simp⟩
    · split at arrived
      · cases arrived
      · obtain ⟨aligned, below, used⟩ := tree.placed other table bounded arrived
        grind
  · intro other place entry bounded found
    rw [graft.entryAt tree place bounded] at found
    split at found
    · cases found
      obtain ⟨present, small, -⟩ := tableChild_eq_some.mp linked
      exact .inr ⟨present, fun _ => link_writable fixed user, fun _ => small⟩
    · split at found
      · cases found
        exact .inl rfl
      grind [TableTree.shaped]

/-- No path of the tree before the graft leads through the empty entry. -/
theorem Graft.off (graft : Graft root s t path index fresh user) (arrived : s.tableAt root other = some table) :
    ¬ path ++ [index] <+: other := by
  have stuck : s.tableAt root (path ++ [index]) = none := by
    rw [Paging.tableAt_snoc, graft.vacant]
    rfl
  grind [Paging.tableAt_of_stuck]

theorem Graft.leafAt (tree : TableTree s root) (graft : Graft root s t path index fresh user)
    (virtAddr : Nat) : t.leafAt root virtAddr = s.leafAt root virtAddr := by
  have short := graft.short
  by_cases through : path ++ [index] <+: walkPath virtAddr
  · -- The address had no mapping, and the new table gives it none.
    rw [Paging.leafAt_of_dead through graft.vacant rfl (Nat.zero_and _)]
    obtain ⟨next, onward⟩ := walkPath_onward through
    apply Paging.leafAt_of_vacant onward
    rw [graft.entryAt tree next (by simp; omega)]
    simp
  · apply Paging.leafAt_congr_off short through
    intro other place bounded away
    rw [graft.entryAt tree place bounded]
    grind

theorem Graft.grown (tree : TableTree s root) (graft : Graft root s t path index fresh user)
    (sameRoot : t.info.rootPml4Phys = s.info.rootPml4Phys) (sameNx : t.nxEnabled = s.nxEnabled)
    (sameInit : t.initialized = s.initialized) : Grown root s t where
  tree := graft.tree tree
  kept := by
    intro other table bounded arrived
    have off := graft.off arrived
    rw [graft.tableAt tree bounded]
    grind
  origin := by
    intro other table bounded arrived
    rw [graft.tableAt tree bounded] at arrived
    split at arrived
    · cases arrived
      exact .inr graft.allocated.clear
    grind
  leaves := graft.leafAt tree
  users := by
    intro other place entry bounded found opened
    obtain ⟨table, arrived, -⟩ := Option.map_eq_some_iff.mp found
    have off := graft.off arrived
    have apart : ¬ (other = path ∧ place = index) := by
      grind [vacant]
    rw [graft.entryAt tree place (by omega)]
    grind
  used := by
    intro page used
    simp [graft.allocated.bits, used]
  total := graft.allocated.total
  highest := graft.allocated.highest
  rootPml4Phys := sameRoot
  nxEnabled := sameNx
  initialized := sameInit

end Graft

/-- Frames that other parts of the kernel take or give back are no tables. -/
theorem TableTree.withPmm (tree : TableTree s root) (ready : pmm.Ready)
    (total : pmm.info.totalPages = s.pmm.info.totalPages)
    (kept : ∀ path table, path.length ≤ 3 → s.tableAt root path = some table →
      pmm.bitTest (table / 4096) = true) : TableTree { s with pmm := pmm } root := by
  refine ⟨ready, total.trans_le tree.sized, tree.unshared, ?_, tree.shaped⟩
  intro path table short reached
  obtain ⟨aligned, below, -⟩ := tree.placed path table short reached
  exact ⟨aligned, below.trans_eq total.symm, kept path table short reached⟩

theorem TableTree.allocFrame (tree : TableTree s root) (taken : pmmTryAllocPagePhys s.pmm = (some frame, pmm)) :
    TableTree { s with pmm := pmm } root := by
  have got := pmmTryAllocPagePhys_allocated taken
  have ready := pmmTryAllocPagePhys_ready tree.ready
  rw [taken] at ready
  apply tree.withPmm ready got.total
  intro path table short reached
  simp [got.bits, (tree.placed path table short reached).2.2]

theorem TableTree.freeFrame (tree : TableTree s root)
    (foreign : ∀ path, path.length ≤ 3 → s.tableAt root path ≠ some frame) :
    TableTree { s with pmm := pmmFreePagePhys s.pmm frame } root := by
  apply tree.withPmm (pmmFreePagePhys_ready tree.ready frame) (pmmFreePagePhys_totalPages s.pmm frame)
  intro path table short reached
  obtain ⟨aligned, -, used⟩ := tree.placed path table short reached
  refine (pmmFreePagePhys_bitTest s.pmm frame _).mpr ⟨used, ?_⟩
  rintro ⟨⟨-, frameAligned, -, -⟩, same⟩
  grind

end Velox
