import Velox.Mm.PagingTree

namespace Velox

variable {virtAddr entry : Nat} {other : List (Fin 512)} {leaf : Option Leaf}

variable {s t : Paging} {root : Nat} {path : List (Fin 512)} {index : Fin 512} {parent table : Nat}

section

variable (tree : TableTree s root)
include tree

theorem TableTree.entry_zero (short : path.length ≤ 3)
    (reached : s.tableAt root path = some table)
    (absent : s.tables table index &&& pagePresent = 0) :
    s.tables table index = 0 :=
  tree.zero_of_absent short (Paging.entryAt_of_tableAt reached index) absent

section

variable (short : path.length ≤ 2) (reached : s.tableAt root path = some parent)
  (done : getOrCreateTable s parent index user = .ok (table, t))
include short reached done

/-- `get_or_create_table` passes through an existing table, perhaps opening it to users,
or grafts one. -/
theorem getOrCreateTable_cases :
    (s.tables parent index &&& pagePresent ≠ 0 ∧ s.tables parent index &&& pagePs = 0 ∧
        table = s.tables parent index &&& entryAddrMask4k ∧
        ((t = s ∧ (user = true → s.tables parent index &&& pageUser ≠ 0)) ∨
          (user = true ∧ t = s.setEntry parent index (s.tables parent index ||| pageUser)))) ∨
      (Graft root s t path index table user ∧ t.nxEnabled = s.nxEnabled ∧ t.initialized = s.initialized ∧
        t.info = { s.info with tablePagesAllocated := wordSucc s.info.tablePagesAllocated }) := by
  unfold getOrCreateTable at done
  dsimp only at done
  split at done
  · split at done
    · cases done
    grind
  · rename_i absent
    rw [not_not] at absent
    cases allocated : allocTablePage s with
    | error fault => simp [allocated, bind, Except.bind] at done
    | ok result =>
      obtain ⟨got, ready, same⟩ := allocTablePage_ok allocated
      simp only [allocated, bind, Except.bind, Except.ok.injEq, Prod.mk.injEq] at done
      obtain ⟨rfl, rfl⟩ := done
      refine .inr ⟨⟨short, ?_, got, ready tree.ready, parent, reached, ?_⟩, ?_, ?_, ?_⟩
      · grind [Paging.entryAt_of_tableAt, TableTree.entry_zero]
      · rw [link_entry_eq, Paging.setEntry, same]
      · rw [same]
        rfl
      · rw [same]
        rfl
      · rw [same]
        rfl

theorem getOrCreateTable_grown :
    Grown root s t ∧ t.tableAt root (path ++ [index]) = some table ∧
      (user = true → ∃ entry, t.entryAt root path index = some entry ∧ entry &&& pageUser ≠ 0) := by
  have found := Paging.entryAt_of_tableAt reached index
  rcases getOrCreateTable_cases tree short reached done with
    ⟨present, small, rfl, passed⟩ | ⟨graft, nxEnabled, initialized, info⟩
  · have below : s.tableAt root (path ++ [index]) = some (s.tables parent index &&& entryAddrMask4k) := by
      grind [Paging.tableAt_snoc, tableChild_of_table]
    rcases passed with ⟨rfl, settled⟩ | ⟨-, rfl⟩
    · grind [Grown.refl]
    · have grown := tree.widen short reached present small
      refine ⟨grown, grown.kept _ _ (by simp; omega) below, fun _ => ⟨s.tables parent index ||| pageUser, ?_, ?_⟩⟩
      · exact Lib.entryAt_writeEntry_here tree.unshared reached (by omega) _
      · rw [Lib.or_and_ne_zero]
        exact .inr (by decide)
  · refine ⟨graft.grown tree (by rw [info]) nxEnabled initialized, ?_,
      fun wanted => ⟨table ||| linkFlags user, ?_, ?_⟩⟩
    · rw [graft.tableAt tree (by simp; omega)]
      simp
    · rw [graft.entryAt tree _ (by omega)]
      simp
    · exact (link_user (graft.fixed tree) user).mpr wanted

end

/-- A huge entry of a page directory is the leaf of every address below it. -/
theorem TableTree.leafAt_huge
    (reached : s.tableAt root [pml4Index virtAddr, pdptIndex virtAddr] = some pd)
    (huge : s.tables pd (pdIndex virtAddr) &&& pagePs ≠ 0) :
    s.leafAt root virtAddr = some (.huge (s.tables pd (pdIndex virtAddr))) := by
  have found := Paging.entryAt_of_tableAt reached (pdIndex virtAddr)
  have present : s.tables pd (pdIndex virtAddr) &&& pagePresent ≠ 0 := by
    intro absent
    rw [tree.entry_zero (by simp) reached absent] at huge
    grind
  have stuck : s.tableAt root (walkPath virtAddr) = none := by
    have joined := s.tableAt_snoc root [pml4Index virtAddr, pdptIndex virtAddr] (pdIndex virtAddr)
    rw [found] at joined
    exact joined.trans (tableChild_of_huge huge)
  have last := Paging.entryAt_eq_none stuck (ptIndex virtAddr)
  rw [walkPath] at last
  simp [Paging.leafAt, last, found, present, huge]

end

/-- Tables on the way to an unmapped address are not made in the place of a huge page. -/
theorem Grown.not_huge (grown : Grown root s t)
    (reached : t.tableAt root [pml4Index virtAddr, pdptIndex virtAddr] = some pd)
    (unmapped : s.leafAt root virtAddr = none) : t.tables pd (pdIndex virtAddr) &&& pagePs = 0 := by
  by_contra huge
  have mapped := grown.tree.leafAt_huge reached huge
  grind [leaves]

/-- The entries above the last level that a walk passes all allow user accesses. -/
def Paging.UserWalk (s : Paging) (root virtAddr : Nat) : Prop :=
  ∀ path index, path ++ [index] <+: walkPath virtAddr →
    ∃ entry, s.entryAt root path index = some entry ∧ entry &&& pageUser ≠ 0

theorem Grown.userWalk (grown : Grown root s t) (open' : s.UserWalk root virtAddr) :
    t.UserWalk root virtAddr := by
  intro path index through
  obtain ⟨entry, found, user⟩ := open' path index through
  have bound := through.length_le
  simp only [List.length_append, walkPath, List.length_cons, List.length_nil] at bound
  grind [users]

section

variable (tree : TableTree s root) (unmapped : s.leafAt root virtAddr = none)
  (done : walkToPte s root virtAddr true user = .ok (answer, t))
include tree unmapped done

/-- A creating walk to an unmapped page asks for three tables, one below the other. -/
theorem walkToPte_chain :
    ∃ pdpt s₁ pd s₂ pt, getOrCreateTable s root (pml4Index virtAddr) user = .ok (pdpt, s₁) ∧
      getOrCreateTable s₁ pdpt (pdptIndex virtAddr) user = .ok (pd, s₂) ∧
      getOrCreateTable s₂ pd (pdIndex virtAddr) user = .ok (pt, t) ∧ answer = some ⟨pt, ptIndex virtAddr⟩ := by
  simp only [walkToPte, tree.root_mask, Bool.not_true, Bool.false_eq_true, and_false, ↓reduceIte] at done
  obtain ⟨⟨pdpt, s₁⟩, first, done⟩ := Lib.bind_ok done
  have start : s.tableAt root [] = some root := rfl
  obtain ⟨grown₁, reached₁, -⟩ := getOrCreateTable_grown tree (by simp) start first
  have small₁ := grown₁.tree.not_huge (by simp) reached₁ (pdptIndex virtAddr)
  simp only [small₁, ne_eq, not_true_eq_false, ↓reduceIte] at done
  obtain ⟨⟨pd, s₂⟩, second, done⟩ := Lib.bind_ok done
  obtain ⟨grown₂, reached₂, -⟩ := getOrCreateTable_grown grown₁.tree (by simp) reached₁ second
  have small₂ := (grown₁.trans grown₂).not_huge reached₂ unmapped
  simp only [small₂, not_true_eq_false, ↓reduceIte] at done
  obtain ⟨⟨pt, s₃⟩, third, done⟩ := Lib.bind_ok done
  cases done
  grind

/-- A creating walk to an unmapped page builds what is missing and arrives. -/
theorem walkToPte_create :
    ∃ pt, answer = some ⟨pt, ptIndex virtAddr⟩ ∧ Grown root s t ∧
      t.tableAt root (walkPath virtAddr) = some pt ∧ (user = true → t.UserWalk root virtAddr) := by
  obtain ⟨pdpt, s₁, pd, s₂, pt, first, second, third, rfl⟩ := walkToPte_chain tree unmapped done
  have start : s.tableAt root [] = some root := rfl
  obtain ⟨grown₁, reached₁, user₁⟩ := getOrCreateTable_grown tree (by simp) start first
  obtain ⟨grown₂, reached₂, user₂⟩ := getOrCreateTable_grown grown₁.tree (by simp) reached₁ second
  obtain ⟨grown₃, reached₃, user₃⟩ := getOrCreateTable_grown grown₂.tree (by simp) reached₂ third
  refine ⟨pt, rfl, (grown₁.trans grown₂).trans grown₃, reached₃, ?_⟩
  intro wanted path index through
  rcases prefix_three through with ⟨rfl, rfl⟩ | ⟨rfl, rfl⟩ | ⟨rfl, rfl⟩
  · obtain ⟨entry, found, opened⟩ := user₁ wanted
    exact (grown₂.trans grown₃).users _ _ entry (by simp) found opened
  · obtain ⟨entry, found, opened⟩ := user₂ wanted
    exact grown₃.users _ _ entry (by simp) found opened
  · exact user₃ wanted

end

private theorem getOrCreateTable_present (present : s.tables parent index &&& pagePresent ≠ 0)
    (small : s.tables parent index &&& pagePs = 0) :
    getOrCreateTable s parent index false = .ok (s.tables parent index &&& entryAddrMask4k, s) := by
  simp [getOrCreateTable, present, small]

/-- A walk that may not create only reads the tables, changes nothing and finds the last-level
table if there is one. -/
theorem walkToPte_reads (tree : TableTree s root) (same : t.tables = s.tables) (virtAddr : Nat) :
    walkToPte t root virtAddr false false =
      .ok ((s.tableAt root (walkPath virtAddr)).map (⟨·, ptIndex virtAddr⟩), t) := by
  simp only [walkToPte, tree.root_mask, Paging.tableAt, walkPath, Lib.follow, Bool.not_false, and_true, ← same]
  by_cases present4 : t.tables root (pml4Index virtAddr) &&& pagePresent = 0
  · simp [present4, tableChild_of_absent, pure, Except.pure]
  · have start : s.tableAt root [] = some root := rfl
    have small4 := tree.not_huge (by simp) start (pml4Index virtAddr)
    rw [← same] at small4
    have linked4 := tableChild_of_table present4 small4
    have reached4 := Paging.tableAt_single (by rwa [same] at linked4)
    rw [← same] at reached4
    simp only [present4, linked4, getOrCreateTable_present present4 small4, ↓reduceIte, Option.bind_some, bind,
      Except.bind]
    generalize t.tables root (pml4Index virtAddr) &&& entryAddrMask4k = pdpt at reached4 ⊢
    have small3 := tree.not_huge (by simp) reached4 (pdptIndex virtAddr)
    rw [← same] at small3
    by_cases present3 : t.tables pdpt (pdptIndex virtAddr) &&& pagePresent = 0
    · simp [present3, small3, tableChild_of_absent, pure, Except.pure]
    · simp only [present3, small3, tableChild_of_table present3 small3, getOrCreateTable_present present3 small3,
        ↓reduceIte, Option.bind_some, ne_eq, not_true_eq_false]
      generalize t.tables pdpt (pdptIndex virtAddr) &&& entryAddrMask4k = pd
      by_cases small2 : t.tables pd (pdIndex virtAddr) &&& pagePs = 0
      · by_cases present2 : t.tables pd (pdIndex virtAddr) &&& pagePresent = 0
        · simp [present2, small2, tableChild_of_absent, pure, Except.pure]
        · simp [present2, small2, tableChild_of_table present2 small2, getOrCreateTable_present present2 small2,
            pure, Except.pure]
      · simp [small2, tableChild_of_huge, pure, Except.pure]

theorem walkToPte_find (tree : TableTree s root) (virtAddr : Nat) : walkToPte s root virtAddr false false =
      .ok ((s.tableAt root (walkPath virtAddr)).map (⟨·, ptIndex virtAddr⟩), s) := walkToPte_reads tree rfl virtAddr

theorem walk_eq_iff (v w : Nat) : walkPath v = walkPath w ∧ ptIndex v = ptIndex w ↔ pageNumber v = pageNumber w := by
  simp [walkPath, pageNumber_eq_iff, and_assoc]

/-- A walk only reads the page number of its address. -/
theorem Paging.leafAt_pageNumber (s : Paging) (root : Nat) {other : Nat}
    (same : pageNumber virtAddr = pageNumber other) : s.leafAt root virtAddr = s.leafAt root other := by
  obtain ⟨l4, l3, l2, l1⟩ := (pageNumber_eq_iff virtAddr other).mp same
  simp only [Paging.leafAt, l4, l3, l2, l1]

section Leaf

variable {virtAddr pt : Nat}

section

variable (tree : TableTree s root) (reached : s.tableAt root (walkPath virtAddr) = some pt)
include tree reached

/-- Last-level entries lead to no table, so writing one keeps all paths. -/
theorem TableTree.tableAt_setLeaf (entry : Nat) (bounded : other.length ≤ 3) :
    (s.setEntry pt (ptIndex virtAddr) entry).tableAt root other = s.tableAt root other := by
  apply Lib.follow_writeEntry_off tree.unshared reached (by simp [walkPath]) entry bounded
  intro longer
  have bound := longer.length_le
  simp only [walkPath, List.length_append, List.length_cons, List.length_nil] at bound
  omega

theorem TableTree.entryAt_setLeaf (entry : Nat) (place : Fin 512) (bounded : other.length ≤ 3) :
    (s.setEntry pt (ptIndex virtAddr) entry).entryAt root other place =
      if other = walkPath virtAddr ∧ place = ptIndex virtAddr then some entry else s.entryAt root other place := by
  split
  · rename_i same
    obtain ⟨rfl, rfl⟩ := same
    exact Lib.entryAt_writeEntry_here tree.unshared reached bounded entry
  · apply Lib.entryAt_writeEntry_off tree.unshared reached (by simp [walkPath]) entry bounded
    intro longer
    have same := longer.eq_of_length_le (by simp [walkPath]; omega)
    grind [List.append_inj']

theorem TableTree.setLeaf (shape : entry = 0 ∨ entry &&& pagePresent ≠ 0) :
    TableTree (s.setEntry pt (ptIndex virtAddr) entry) root := by
  refine ⟨tree.ready, tree.sized, ?_, ?_, ?_⟩
  · intro first second table firstShort secondShort firstReached secondReached
    have before := tree.tableAt_setLeaf reached entry firstShort
    have after := tree.tableAt_setLeaf reached entry secondShort
    exact tree.unshared first second table firstShort secondShort (before.symm.trans firstReached)
      (after.symm.trans secondReached)
  · intro other table bounded arrived
    rw [tree.tableAt_setLeaf reached entry bounded] at arrived
    exact tree.placed other table bounded arrived
  · intro other place found bounded arrived
    rw [tree.entryAt_setLeaf reached entry place bounded] at arrived
    split at arrived
    · rename_i same
      cases arrived
      have depth : other.length = 3 := by simp [same.1, walkPath]
      exact shape.imp_right fun present => ⟨present, by omega, by omega⟩
    grind [shaped]

/-- Writing one last-level entry rebinds that page and no other. -/
theorem TableTree.leafAt_setLeaf (entry other : Nat) :
    (s.setEntry pt (ptIndex virtAddr) entry).leafAt root other = if pageNumber other = pageNumber virtAddr then
        if entry &&& pagePresent ≠ 0 then some (.small entry) else none
      else s.leafAt root other := by
  have last := tree.entryAt_setLeaf reached entry (ptIndex other) (show (walkPath other).length ≤ 3 by simp [walkPath])
  simp only [walk_eq_iff] at last
  split
  · rename_i same
    rw [if_pos same, walkPath] at last
    simp only [Paging.leafAt, last]
  · rename_i different
    rw [if_neg different] at last
    apply Paging.leafAt_congr last
    intro _
    rw [tree.entryAt_setLeaf reached entry _ (by simp)]
    exact if_neg (fun same => by simp [walkPath] at same)

end

theorem Paging.leafAt_of_table (reached : s.tableAt root (walkPath virtAddr) = some pt) :
    s.leafAt root virtAddr = if s.tables pt (ptIndex virtAddr) &&& pagePresent ≠ 0 then
      some (.small (s.tables pt (ptIndex virtAddr))) else none := by
  have last := Paging.entryAt_of_tableAt reached (ptIndex virtAddr)
  rw [walkPath] at last
  simp only [Paging.leafAt, last]

end Leaf

/-- What freeing emptied tables leaves of the tree before. -/
structure Pruned (root : Nat) (s t : Paging) : Prop where
  tree : TableTree t root
  tables : ∀ path table, path.length ≤ 3 → t.tableAt root path = some table → s.tableAt root path = some table
  leaves : ∀ virtAddr, t.leafAt root virtAddr = s.leafAt root virtAddr
  walks : ∀ virtAddr path index, s.leafAt root virtAddr ≠ none → path ++ [index] <+: walkPath virtAddr →
    t.entryAt root path index = s.entryAt root path index
  freed : ∀ page, s.pmm.bitTest page = true → t.pmm.bitTest page = true ∨
    ∃ path, path.length ≤ 3 ∧ s.tableAt root path = some (page * 4096)
  free : ∀ page, t.pmm.bitTest page = true → s.pmm.bitTest page = true
  total : t.pmm.info.totalPages = s.pmm.info.totalPages
  highest : t.pmm.info.highestPhysicalAddress = s.pmm.info.highestPhysicalAddress
  rootPml4Phys : t.info.rootPml4Phys = s.info.rootPml4Phys
  nxEnabled : t.nxEnabled = s.nxEnabled
  initialized : t.initialized = s.initialized

theorem Pruned.refl (tree : TableTree s root) : Pruned root s s where
  tree := tree
  tables := fun _ _ _ reached => reached
  leaves := fun _ => rfl
  walks := fun _ _ _ _ _ => rfl
  freed := fun _ used => .inl used
  free := fun _ used => used
  total := rfl
  highest := rfl
  rootPml4Phys := rfl
  nxEnabled := rfl
  initialized := rfl

theorem Pruned.trans (first : Pruned root s t) (second : Pruned root t u) : Pruned root s u where
  tree := second.tree
  tables := fun path table short reached => first.tables path table short (second.tables path table short reached)
  leaves := fun virtAddr => (second.leaves virtAddr).trans (first.leaves virtAddr)
  walks := by
    intro virtAddr path index mapped through
    have still : t.leafAt root virtAddr ≠ none := by rwa [first.leaves]
    exact (second.walks virtAddr path index still through).trans (first.walks virtAddr path index mapped through)
  freed := by
    grind [freed, tables]
  free := fun page used => first.free page (second.free page used)
  total := second.total.trans first.total
  highest := second.highest.trans first.highest
  rootPml4Phys := second.rootPml4Phys.trans first.rootPml4Phys
  nxEnabled := second.nxEnabled.trans first.nxEnabled
  initialized := second.initialized.trans first.initialized

section Drop

theorem isTableEmpty_iff : isTableEmpty s table = true ↔ ∀ index, s.tables table index = 0 := by
  simp [isTableEmpty]

section

variable (tree : TableTree s root) (short : path.length ≤ 2)
  (reached : s.tableAt root path = some parent) (bounded : other.length ≤ 3)
include tree short reached bounded

theorem TableTree.tableAt_dropTable :
    (s.dropTable table parent index).tableAt root other =
      if path ++ [index] <+: other then none else s.tableAt root other :=
  Lib.follow_writeEntry_prune tree.unshared reached (by omega) tableChild_zero bounded

theorem TableTree.entryAt_dropTable :
    (s.dropTable table parent index).entryAt root other place = if other = path ∧ place = index then some 0
      else if path ++ [index] <+: other then none else s.entryAt root other place :=
  Lib.entryAt_writeEntry_prune tree.unshared reached (by omega) tableChild_zero bounded

end

/-- A table that is reached from the root once is no other table of the tree. -/
private theorem TableTree.page_ne (tree : TableTree s root) {first : List (Fin 512)} {a : Nat}
    (firstShort : first.length ≤ 3) (secondShort : second.length ≤ 3)
    (firstReached : s.tableAt root first = some a)
    (secondReached : s.tableAt root second = some b) (different : first ≠ second) :
    a / 4096 ≠ b / 4096 := by
  intro same
  have alignedA := (tree.placed first a firstShort firstReached).1
  have alignedB := (tree.placed second b secondShort secondReached).1
  have equal : a = b := by omega
  subst equal
  exact different (tree.unshared first second a firstShort secondShort firstReached secondReached)

section

variable (tree : TableTree s root) (short : path.length ≤ 2)
  (reached : s.tableAt root path = some parent)
include tree short reached

theorem TableTree.dropTable (below : s.tableAt root (path ++ [index]) = some table) :
    TableTree (s.dropTable table parent index) root := by
  refine ⟨pmmFreePagePhys_ready tree.ready table, ?_, ?_, ?_, ?_⟩
  · exact (pmmFreePagePhys_totalPages s.pmm table).trans_le tree.sized
  · exact tree.unshared.prune reached (by omega) tableChild_zero
  · intro other at' bounded arrived
    rw [tree.tableAt_dropTable short reached bounded] at arrived
    split at arrived
    · cases arrived
    · rename_i off
      obtain ⟨aligned, inside, used⟩ := tree.placed other at' bounded arrived
      refine ⟨aligned, inside.trans_eq (pmmFreePagePhys_totalPages s.pmm table).symm, ?_⟩
      refine (pmmFreePagePhys_bitTest s.pmm table _).mpr ⟨used, ?_⟩
      rintro ⟨-, same⟩
      have different : other ≠ path ++ [index] := fun equal => off (equal ▸ List.prefix_rfl)
      exact tree.page_ne bounded (by simp; omega) arrived below different same
  · intro other place entry bounded found
    rw [tree.entryAt_dropTable short reached bounded] at found
    split at found
    · cases found
      exact .inl rfl
    grind [shaped]

theorem TableTree.dropTable_pruned (below : s.tableAt root (path ++ [index]) = some table)
    (empty : ∀ place, s.tables table place = 0) :
    Pruned root s (s.dropTable table parent index) := by
  have vacant : ∀ virtAddr, path ++ [index] <+: walkPath virtAddr → s.leafAt root virtAddr = none := by
    intro virtAddr through
    obtain ⟨next, onward⟩ := walkPath_onward through
    apply Paging.leafAt_of_vacant onward
    rw [Paging.entryAt_of_tableAt below, empty]
  have agree : ∀ other place, other.length ≤ 3 → ¬ path ++ [index] <+: other ++ [place] →
      (s.dropTable table parent index).entryAt root other place = s.entryAt root other place := by
    intro other place bounded away
    have apart : ¬ (other = path ∧ place = index) := by
      grind
    have above : ¬ path ++ [index] <+: other := fun shorter => away (shorter.trans (List.prefix_append _ _))
    rw [tree.entryAt_dropTable short reached bounded, if_neg apart, if_neg above]
  constructor
  · grind [dropTable]
  · grind [tableAt_dropTable]
  · intro virtAddr
    by_cases through : path ++ [index] <+: walkPath virtAddr
    · grind [Paging.leafAt_of_vacant, entryAt_dropTable]
    grind [Paging.leafAt_congr_off]
  · intro virtAddr other place mapped through
    have bound := through.length_le
    simp only [List.length_append, walkPath, List.length_cons, List.length_nil] at bound
    grind
  · intro page used
    by_cases same : page = table / 4096
    · have aligned := (tree.placed _ _ (by simp; omega) below).1
      grind
    · exact .inl ((pmmFreePagePhys_bitTest s.pmm table page).mpr ⟨used, fun freed => same freed.2⟩)
  · intro page used
    exact ((pmmFreePagePhys_bitTest s.pmm table page).mp used).1
  · exact pmmFreePagePhys_totalPages s.pmm table
  · exact pmmFreePagePhys_highest s.pmm table
  · rfl
  · rfl
  · rfl

/-- The tables above a dropped one stay where they are. -/
theorem TableTree.dropTable_keeps (upper : other.length ≤ path.length)
    (arrived : s.tableAt root other = some at') (table : Nat) (index : Fin 512) :
    (s.dropTable table parent index).tableAt root other = some at' := by
  rw [tree.tableAt_dropTable short reached (by omega), if_neg, arrived]
  grind

end

theorem Paging.tableAt_next (reached : s.tableAt root path = some parent)
    (linked : ¬ (s.tables parent index &&& pagePresent = 0 ∨ s.tables parent index &&& pagePs ≠ 0)) :
    s.tableAt root (path ++ [index]) = some (s.tables parent index &&& entryAddrMask4k) := by
  rw [not_or, not_not] at linked
  rw [Paging.tableAt_snoc, Paging.entryAt_of_tableAt reached]
  exact tableChild_of_table linked.1 linked.2

theorem freeEmptyTables_pruned (tree : TableTree s root) (virtAddr : Nat) :
    Pruned root s (freeEmptyTables s root virtAddr) := by
  simp only [freeEmptyTables, tree.root_mask]
  have start : s.tableAt root [] = some root := rfl
  split
  · exact .refl tree
  · rename_i linked4
    have pdpt := Paging.tableAt_next start linked4
    split
    · exact .refl tree
    · rename_i linked3
      have pd := Paging.tableAt_next pdpt linked3
      split
      · exact .refl tree
      · rename_i linked2
        have pt := Paging.tableAt_next pd linked2
        split
        · rename_i emptyPt
          have droppedPt := tree.dropTable_pruned (by simp) pd pt (isTableEmpty_iff.mp emptyPt)
          split
          · rename_i emptyPd
            have pdpt' := tree.dropTable_keeps (by simp) pd (by simp) pdpt
            have pd' := tree.dropTable_keeps (by simp) pd (by simp) pd
            have droppedPd := droppedPt.tree.dropTable_pruned (by simp) (pdpt' _ _) (pd' _ _) (isTableEmpty_iff.mp emptyPd)
            split
            · rename_i emptyPdpt
              have pdpt'' := droppedPt.tree.dropTable_keeps (by simp) (pdpt' _ _) (by simp) (pdpt' _ _)
              exact (droppedPt.trans droppedPd).trans
                (droppedPd.tree.dropTable_pruned (by simp) rfl (pdpt'' _ _) (isTableEmpty_iff.mp emptyPdpt))
            · exact droppedPt.trans droppedPd
          · exact droppedPt
        · exact .refl tree

end Drop

theorem page_aligned_iff (v p : Nat) : (v ||| p) &&& (pageSize4k - 1) = 0 ↔ v % 4096 = 0 ∧ p % 4096 = 0 := by
  have low : ∀ x, x &&& (pageSize4k - 1) = x % 4096 := fun x => Nat.and_two_pow_sub_one_eq_mod x 12
  rw [Lib.or_and_eq_zero, low, low]

/-- What `paging_map_page` requires of its arguments and of the address space. -/
def MapAllowed (s : Paging) (root virtAddr physAddr flags : Nat) : Prop :=
  virtAddr % 4096 = 0 ∧ physAddr % 4096 = 0 ∧
    ¬ (flags &&& pagingFlagGlobal ≠ 0 ∧ flags &&& pagingFlagUser ≠ 0) ∧ s.leafAt root virtAddr = none

/-- The last-level entry for a frame and the flags of a request. -/
def leafEntry (nxEnabled : Bool) (physAddr flags : Nat) : Nat :=
  physAddr &&& entryAddrMask4k ||| (pagingFlagsToHw nxEnabled flags ||| pagePresent)

theorem leafEntry_present (nx : Bool) (physAddr flags : Nat) : leafEntry nx physAddr flags &&& pagePresent ≠ 0 := by
  have aligned := mask4k_aligned physAddr
  exact (leaf_entry_decodes nx (mask4k_of_aligned aligned.1 aligned.2)).1

section

variable (tree : TableTree s root)
  (done : pagingMapPage s root virtAddr physAddr flags = .ok (answer, t))
include tree done

theorem pagingMapPage_walk :
    (answer = false ∧ t = s ∧ ¬ MapAllowed s root virtAddr physAddr flags) ∨
      (answer = true ∧ MapAllowed s root virtAddr physAddr flags ∧
        ∃ pt middle, walkToPte s root virtAddr true ((flags &&& pagingFlagUser) != 0) =
            .ok (some ⟨pt, ptIndex virtAddr⟩, middle) ∧
          t = middle.setEntry pt (ptIndex virtAddr) (leafEntry s.nxEnabled physAddr flags)) := by
  simp only [pagingMapPageLocked] at done
  split at done
  · rename_i unaligned
    cases done
    refine .inl ⟨rfl, rfl, fun allowed => unaligned ?_⟩
    exact (page_aligned_iff _ _).mpr ⟨allowed.1, allowed.2.1⟩
  · rename_i aligned
    rw [not_not, page_aligned_iff] at aligned
    split at done
    · rename_i clash
      cases done
      exact .inl ⟨rfl, rfl, fun allowed => allowed.2.2.1 clash⟩
    · rename_i compatible
      have translated := translateWithCr3_eq_leaf tree virtAddr
      cases unmapped : s.leafAt root virtAddr with
      | some leaf =>
        simp only [translated, unmapped, Option.map_some, Option.isSome_some, ↓reduceIte] at done
        cases done
        exact .inl ⟨rfl, rfl, fun allowed => by simp [allowed.2.2.2] at unmapped⟩
      | none =>
        simp only [translated, unmapped, Option.map_none, Option.isSome_none, Bool.false_eq_true, ↓reduceIte] at done
        obtain ⟨⟨answered, middle⟩, walked, done⟩ := Lib.bind_ok done
        obtain ⟨pt, rfl, grown, -, -⟩ := walkToPte_create tree unmapped walked
        cases done
        refine .inr ⟨rfl, ⟨aligned.1, aligned.2, compatible, unmapped⟩, pt, middle, walked, ?_⟩
        simp only [leafEntry, grown.nxEnabled]

theorem pagingMapPage_cases :
    (answer = false ∧ t = s ∧ ¬ MapAllowed s root virtAddr physAddr flags) ∨
      (answer = true ∧ MapAllowed s root virtAddr physAddr flags ∧
        ∃ middle pt, Grown root s middle ∧ middle.tableAt root (walkPath virtAddr) = some pt ∧
          (flags &&& pagingFlagUser ≠ 0 → middle.UserWalk root virtAddr) ∧
          t = middle.setEntry pt (ptIndex virtAddr) (leafEntry s.nxEnabled physAddr flags)) := by
  rcases pagingMapPage_walk tree done with refused | ⟨accepted, allowed, pt, middle, walked, rfl⟩
  · exact .inl refused
  · obtain ⟨_, same, grown, reached, user⟩ := walkToPte_create tree allowed.2.2.2 walked
    grind

end

/-- A last-level entry is the leaf of its page. -/
theorem Paging.leafAt_small_iff : s.leafAt root virtAddr = some (.small entry) ↔
      ∃ pt, s.tableAt root (walkPath virtAddr) = some pt ∧ s.tables pt (ptIndex virtAddr) = entry ∧
        entry &&& pagePresent ≠ 0 := by
  cases reached : s.tableAt root (walkPath virtAddr) with
  | some pt =>
    grind [leafAt_of_table]
  | none =>
    have last := Paging.entryAt_eq_none reached (ptIndex virtAddr)
    rw [walkPath] at last
    simp only [Paging.leafAt, last, reduceCtorEq, false_and, exists_false, iff_false]
    grind

section

variable (tree : TableTree s root)
include tree

/-- The walk that looks for a last-level entry finds a present one exactly where the leaf is small. -/
theorem walkToPte_small (virtAddr : Nat) :
    (∃ pt entry, s.leafAt root virtAddr = some (.small entry) ∧ s.tableAt root (walkPath virtAddr) = some pt ∧
      s.tables pt (ptIndex virtAddr) = entry ∧ entry &&& pagePresent ≠ 0 ∧
      walkToPte s root virtAddr false false = .ok (some ⟨pt, ptIndex virtAddr⟩, s)) ∨
    (∀ entry, s.leafAt root virtAddr ≠ some (.small entry)) ∧ (walkToPte s root virtAddr false false = .ok (none, s) ∨
        ∃ pt, walkToPte s root virtAddr false false = .ok (some ⟨pt, ptIndex virtAddr⟩, s) ∧
          s.tables pt (ptIndex virtAddr) &&& pagePresent = 0) := by
  rw [walkToPte_find tree]
  cases reached : s.tableAt root (walkPath virtAddr) with
  | none =>
    refine .inr ⟨fun entry mapped => ?_, .inl rfl⟩
    obtain ⟨pt, arrived, -⟩ := Paging.leafAt_small_iff.mp mapped
    grind
  | some pt =>
    by_cases absent : s.tables pt (ptIndex virtAddr) &&& pagePresent = 0
    · grind [Paging.leafAt_of_table]
    · exact .inl ⟨pt, _, Paging.leafAt_small_iff.mpr ⟨pt, reached, rfl, absent⟩, rfl, rfl, absent, rfl⟩

theorem pagingUnmapPage_walk (done : pagingUnmapPage s root virtAddr = .ok (answer, t)) :
    (answer = none ∧ t = s ∧ ∀ entry, s.leafAt root virtAddr ≠ some (.small entry)) ∨
      ∃ pt entry, s.leafAt root virtAddr = some (.small entry) ∧ answer = some (entry &&& entryAddrMask4k) ∧
        s.tableAt root (walkPath virtAddr) = some pt ∧
        t = freeEmptyTables (s.setEntry pt (ptIndex virtAddr) 0) root virtAddr := by
  rcases walkToPte_small tree virtAddr with ⟨pt, entry, mapped, reached, rfl, present, found⟩ |
    ⟨missing, found | ⟨pt, found, absent⟩⟩
  · simp only [pagingUnmapPageLocked, found, bind, Except.bind, if_neg present] at done
    cases done
    grind
  · simp only [pagingUnmapPageLocked, found, bind, Except.bind] at done
    cases done
    grind
  · simp only [pagingUnmapPageLocked, found, bind, Except.bind, if_pos absent] at done
    cases done
    grind

theorem pagingUnmapPage_cases (done : pagingUnmapPage s root virtAddr = .ok (answer, t)) :
    (answer = none ∧ t = s ∧ ∀ entry, s.leafAt root virtAddr ≠ some (.small entry)) ∨
      ∃ pt entry, s.leafAt root virtAddr = some (.small entry) ∧ answer = some (entry &&& entryAddrMask4k) ∧
        s.tableAt root (walkPath virtAddr) = some pt ∧
        Pruned root (s.setEntry pt (ptIndex virtAddr) 0) t := by
  grind [pagingUnmapPage_walk, freeEmptyTables_pruned, TableTree.setLeaf]

/-- A page of its own can be unmapped. -/
theorem pagingUnmapPage_mapped (mapped : s.leafAt root virtAddr = some (.small entry)) :
    ∃ t, pagingUnmapPage s root virtAddr = .ok (some (entry &&& entryAddrMask4k), t) := by
  obtain ⟨pt, reached, rfl, present⟩ := Paging.leafAt_small_iff.mp mapped
  refine ⟨freeEmptyTables (s.setEntry pt (ptIndex virtAddr) 0) root virtAddr, ?_⟩
  simp only [pagingUnmapPageLocked, walkToPte_find tree, reached, Option.map_some, bind, Except.bind]
  rw [if_neg present]
  rfl

theorem pagingProtectPage_cases (done : pagingProtectPage s root virtAddr flags = .ok (answer, t)) :
    (answer = false ∧ t = s ∧ ∀ entry, s.leafAt root virtAddr ≠ some (.small entry)) ∨
      ∃ pt entry, s.leafAt root virtAddr = some (.small entry) ∧ answer = true ∧
        s.tableAt root (walkPath virtAddr) = some pt ∧
        t = s.setEntry pt (ptIndex virtAddr) (leafEntry s.nxEnabled entry flags) := by
  rcases walkToPte_small tree virtAddr with ⟨pt, entry, mapped, reached, rfl, present, found⟩ |
    ⟨missing, found | ⟨pt, found, absent⟩⟩
  · simp only [pagingProtectPageLocked, found, bind, Except.bind, if_neg present] at done
    cases done
    exact .inr ⟨pt, _, mapped, rfl, reached, rfl⟩
  · simp only [pagingProtectPageLocked, found, bind, Except.bind] at done
    cases done
    grind
  · simp only [pagingProtectPageLocked, found, bind, Except.bind, if_pos absent] at done
    cases done
    grind

end

/-- One page of the address space changed its leaf and no other did. Tables come
from free frames, and a frame that is freed was a table. -/
structure Rebound (root virtAddr : Nat) (leaf : Option Leaf) (s t : Paging) : Prop where
  tree : TableTree t root
  leaves : ∀ other, t.leafAt root other = if pageNumber other = pageNumber virtAddr then leaf else s.leafAt root other
  origin : ∀ path table, path.length ≤ 3 → t.tableAt root path = some table →
    s.tableAt root path = some table ∨ s.pmm.bitTest (table / 4096) = false
  freed : ∀ page, s.pmm.bitTest page = true → t.pmm.bitTest page = true ∨
    ∃ path, path.length ≤ 3 ∧ s.tableAt root path = some (page * 4096)
  total : t.pmm.info.totalPages = s.pmm.info.totalPages
  highest : t.pmm.info.highestPhysicalAddress = s.pmm.info.highestPhysicalAddress
  rootPml4Phys : t.info.rootPml4Phys = s.info.rootPml4Phys
  nxEnabled : t.nxEnabled = s.nxEnabled
  initialized : t.initialized = s.initialized

section

variable (tree : TableTree s root) (reached : s.tableAt root (walkPath virtAddr) = some pt)
include tree reached

private theorem TableTree.setEntry_rebound (shape : entry = 0 ∨ entry &&& pagePresent ≠ 0) :
    Rebound root virtAddr (if entry &&& pagePresent ≠ 0 then some (.small entry) else none) s
      (s.setEntry pt (ptIndex virtAddr) entry) where
  tree := tree.setLeaf reached shape
  leaves := tree.leafAt_setLeaf reached entry
  origin := by
    grind [tableAt_setLeaf]
  freed := fun _ used => .inl used
  total := rfl
  highest := rfl
  rootPml4Phys := rfl
  nxEnabled := rfl
  initialized := rfl

theorem TableTree.setLeaf_rebound (present : entry &&& pagePresent ≠ 0) :
    Rebound root virtAddr (some (.small entry)) s (s.setEntry pt (ptIndex virtAddr) entry) := by
  have rebound := tree.setEntry_rebound reached (.inr present)
  grind

theorem TableTree.clearLeaf_rebound :
    Rebound root virtAddr none s (s.setEntry pt (ptIndex virtAddr) 0) :=
  tree.setEntry_rebound reached (.inl rfl)

end

theorem Rebound.pruned (rebound : Rebound root virtAddr leaf s middle) (pruned : Pruned root middle t) :
    Rebound root virtAddr leaf s t where
  tree := pruned.tree
  leaves := fun other => (pruned.leaves other).trans (rebound.leaves other)
  origin := fun path table short arrived => rebound.origin path table short (pruned.tables path table short arrived)
  freed := by
    grind [freed, Pruned.freed, origin]
  total := pruned.total.trans rebound.total
  highest := pruned.highest.trans rebound.highest
  rootPml4Phys := pruned.rootPml4Phys.trans rebound.rootPml4Phys
  nxEnabled := pruned.nxEnabled.trans rebound.nxEnabled
  initialized := pruned.initialized.trans rebound.initialized

theorem Grown.rebound (grown : Grown root s middle)
    (rebound : Rebound root virtAddr leaf middle t) : Rebound root virtAddr leaf s t where
  tree := rebound.tree
  leaves := by
    intro other
    rw [rebound.leaves, grown.leaves]
  origin := by
    grind [Rebound.origin, origin, used]
  freed := by
    grind [Rebound.freed, used, origin]
  total := rebound.total.trans grown.total
  highest := rebound.highest.trans grown.highest
  rootPml4Phys := rebound.rootPml4Phys.trans grown.rootPml4Phys
  nxEnabled := rebound.nxEnabled.trans grown.nxEnabled
  initialized := rebound.initialized.trans grown.initialized

theorem pagingMapPage_rebound (tree : TableTree s root)
    (done : pagingMapPage s root virtAddr physAddr flags = .ok (answer, t)) :
    (answer = false ∧ t = s ∧ ¬ MapAllowed s root virtAddr physAddr flags) ∨
      (answer = true ∧ MapAllowed s root virtAddr physAddr flags ∧
        Rebound root virtAddr (some (.small (leafEntry s.nxEnabled physAddr flags))) s t) := by
  grind [pagingMapPage_cases, Grown.rebound, TableTree.setLeaf_rebound, Grown.tree, leafEntry_present]

theorem pagingUnmapPage_rebound (tree : TableTree s root) (done : pagingUnmapPage s root virtAddr = .ok (answer, t)) :
    (answer = none ∧ t = s ∧ ∀ entry, s.leafAt root virtAddr ≠ some (.small entry)) ∨
      ∃ entry, s.leafAt root virtAddr = some (.small entry) ∧ answer = some (entry &&& entryAddrMask4k) ∧
        Rebound root virtAddr none s t := by
  rcases pagingUnmapPage_cases tree done with refused | ⟨pt, entry, mapped, answered, reached, pruned⟩
  · exact .inl refused
  · exact .inr ⟨entry, mapped, answered, (tree.clearLeaf_rebound reached).pruned pruned⟩

theorem pagingProtectPage_rebound (tree : TableTree s root)
    (done : pagingProtectPage s root virtAddr flags = .ok (answer, t)) :
    (answer = false ∧ t = s ∧ ∀ entry, s.leafAt root virtAddr ≠ some (.small entry)) ∨
      ∃ entry, s.leafAt root virtAddr = some (.small entry) ∧ answer = true ∧
        Rebound root virtAddr (some (.small (leafEntry s.nxEnabled entry flags))) s t := by
  grind [pagingProtectPage_cases, TableTree.setLeaf_rebound, leafEntry_present]

/-- The address field of a last-level entry is the frame it was written for. -/
theorem leafEntry_frame (nx : Bool) (physAddr flags : Nat) :
    leafEntry nx physAddr flags &&& entryAddrMask4k = physAddr &&& entryAddrMask4k := by
  have aligned := mask4k_aligned physAddr
  exact (leaf_entry_decodes nx (mask4k_of_aligned aligned.1 aligned.2)).2.1

end Velox
