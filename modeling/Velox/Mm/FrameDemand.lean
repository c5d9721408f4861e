import Mathlib.Data.Finset.Union
import Velox.Mm.VmallocSafety

namespace Velox

variable {fault : Panic} {path : List (Fin 512)} {frame : Nat} {pmm : Pmm}

section Pmm

variable {s t : Pmm} {frame : Nat}

theorem Allocated.freePages (got : Allocated s frame t) (before : s.Ready) (after : t.Ready) :
    t.info.freePages + 1 = s.info.freePages := by
  rw [after.free, before.free, got.total]
  refine (Lib.count_insert got.below ?_ fun page => ?_).symm
  · simp [got.bits]
  grind [clear, bits]

/-- Only an allocator without free frames refuses one. -/
theorem pmmTryAllocPagePhys_none_iff (ready : s.Ready) : (pmmTryAllocPagePhys s).1 = none ↔ s.info.freePages = 0 := by
  constructor
  · intro refused
    by_contra some'
    rw [ready.free] at some'
    obtain ⟨page, below, clear⟩ := Nat.count_ne_iff_exists.mp some'
    grind [pmmTryAllocPagePhys_of_free, pmmTryAllocPagePhys_failed]
  · intro full
    simp [pmmTryAllocPagePhys, full]

end Pmm

/-- The places of the three tables on the way to an address. -/
def wayTables (virtAddr : Nat) : Finset (List (Fin 512)) :=
  {[pml4Index virtAddr], [pml4Index virtAddr, pdptIndex virtAddr], walkPath virtAddr}

/-- The places on the way to some pages. -/
def pagesTables (pages : List Nat) : Finset (List (Fin 512)) := pages.toFinset.biUnion wayTables

/-- The places among some where there is no table. -/
def Paging.missing (s : Paging) (root : Nat) (paths : Finset (List (Fin 512))) : Finset (List (Fin 512)) :=
  paths.filter fun path => s.tableAt root path = none

/-- The frames that it takes to map some pages, for the pages and for the tables on the way. -/
def Paging.demand (s : Paging) (root : Nat) (pages : List Nat) : Nat :=
  pages.length + (s.missing root (pagesTables pages)).card

theorem wayTables_short {virtAddr : Nat} (member : path ∈ wayTables virtAddr) : path.length ≤ 3 := by
  simp only [wayTables, Finset.mem_insert, Finset.mem_singleton] at member
  rcases member with rfl | rfl | rfl <;> simp [walkPath]

theorem pagesTables_short {pages : List Nat} (member : path ∈ pagesTables pages) :
    path.length ≤ 3 := by
  obtain ⟨page, -, on⟩ := Finset.mem_biUnion.mp member
  exact wayTables_short on

theorem pagesTables_cons (page : Nat) (pages : List Nat) :
    pagesTables (page :: pages) = wayTables page ∪ pagesTables pages := by
  rw [pagesTables, List.toFinset_cons, Finset.biUnion_insert, pagesTables]

section Draws

variable {s t u : Paging} {root frames more : Nat} {paths others : Finset (List (Fin 512))}

/-- The state `t` has the tables of `s` and those at some places, which with some frames for other
uses were taken from the free ones. -/
structure Draws (root : Nat) (paths : Finset (List (Fin 512))) (frames : Nat) (s t : Paging) : Prop where
  tables : ∀ path, path.length ≤ 3 → (t.tableAt root path = none ↔ s.tableAt root path = none ∧ path ∉ paths)
  left : t.pmm.info.freePages + frames + (s.missing root paths).card = s.pmm.info.freePages

/-- What is missing of some places after others have been filled. -/
theorem Draws.missing_union (drawn : Draws root paths frames s t) (short : ∀ path ∈ others, path.length ≤ 3) :
    (s.missing root (paths ∪ others)).card = (s.missing root paths).card + (t.missing root others).card := by
  have later : t.missing root others = s.missing root others \ paths := by
    ext path
    simp only [Paging.missing, Finset.mem_filter, Finset.mem_sdiff]
    constructor
    · rintro ⟨member, missing⟩
      obtain ⟨missing', new⟩ := (drawn.tables path (short path member)).mp missing
      grind
    · rintro ⟨⟨member, missing⟩, new⟩
      exact ⟨member, (drawn.tables path (short path member)).mpr ⟨missing, new⟩⟩
  have apart : Disjoint (s.missing root paths) (t.missing root others) := by
    rw [later]
    exact Finset.disjoint_sdiff.mono_left (Finset.filter_subset _ _)
  have both : s.missing root (paths ∪ others) = s.missing root paths ∪ t.missing root others := by
    rw [later]
    ext path
    simp only [Paging.missing, Finset.mem_filter, Finset.mem_union, Finset.mem_sdiff]
    tauto
  rw [both, Finset.card_union_of_disjoint apart]

theorem Draws.trans (first : Draws root paths frames s t) (second : Draws root others more t u)
    (short : ∀ path ∈ others, path.length ≤ 3) : Draws root (paths ∪ others) (frames + more) s u where
  tables := by
    intro path bounded
    rw [second.tables path bounded, first.tables path bounded, Finset.mem_union, not_or, and_assoc]
  left := by
    rw [first.missing_union short]
    grind [left]

/-- What cannot be had after some tables were made could not be had together with them. -/
theorem Draws.short (drawn : Draws root paths 0 s t) (bounded : ∀ path ∈ others, path.length ≤ 3)
    (short : t.pmm.info.freePages < (t.missing root others).card) :
    s.pmm.info.freePages < (s.missing root (paths ∪ others)).card := by
  grind [missing_union, left]

theorem Paging.missing_mono (s : Paging) (root : Nat) (fewer : paths ⊆ others) :
    (s.missing root paths).card ≤ (s.missing root others).card :=
  Finset.card_le_card (Finset.filter_subset_filter _ fewer)

end Draws

section Walk

variable {s t : Paging} {root : Nat} {path : List (Fin 512)} {index : Fin 512} {parent table : Nat} {user : Bool}

/-- A table is taken from the free frames where there was none. -/
theorem getOrCreateTable_draws (tree : TableTree s root) (short : path.length ≤ 2)
    (reached : s.tableAt root path = some parent) (done : getOrCreateTable s parent index user = .ok (table, t)) :
    Draws root {path ++ [index]} 0 s t := by
  have passes : s.tableAt root (path ++ [index]) ≠ none →
      (∀ other, other.length ≤ 3 → t.tableAt root other = s.tableAt root other) → t.pmm = s.pmm →
      Draws root {path ++ [index]} 0 s t := by
    intro there paths pmm
    refine ⟨fun other bounded => ?_, ?_⟩
    · grind
    · rw [pmm, Paging.missing, Finset.filter_singleton, if_neg there]
      rfl
  rcases getOrCreateTable_cases tree short reached done with ⟨present, small, -, passed⟩ | ⟨graft, -⟩
  · have there : s.tableAt root (path ++ [index]) ≠ none := by
      rw [Paging.tableAt_snoc, Paging.entryAt_of_tableAt reached, Option.bind_some, tableChild_of_table present small]
      simp
    rcases passed with ⟨rfl, -⟩ | ⟨-, rfl⟩
    · grind
    · exact passes there (fun other => tree.tableAt_relabel reached short (tableChild_or_user _)) rfl
  · have vacant : s.tableAt root (path ++ [index]) = none := by
      rw [Paging.tableAt_snoc, graft.vacant]
      rfl
    refine ⟨fun other bounded => ?_, ?_⟩
    · rw [graft.tableAt tree bounded, Finset.mem_singleton]
      grind [Paging.tableAt_of_stuck]
    · rw [Paging.missing, Finset.filter_singleton, if_pos vacant, Finset.card_singleton]
      exact graft.allocated.freePages tree.ready graft.ready

/-- Only a table that is needed and cannot be had stops the walk. -/
theorem getOrCreateTable_short (tree : TableTree s root) (reached : s.tableAt root path = some parent)
    (small : s.tables parent index &&& pagePs = 0) (halted : getOrCreateTable s parent index user = .error fault) :
    s.pmm.info.freePages < (s.missing root {path ++ [index]}).card := by
  unfold getOrCreateTable at halted
  dsimp only at halted
  split at halted
  · grind
  · rename_i absent
    rw [not_not] at absent
    have vacant : s.tableAt root (path ++ [index]) = none := by
      rw [Paging.tableAt_snoc, Paging.entryAt_of_tableAt reached, Option.bind_some, tableChild_of_absent absent]
    rw [Paging.missing, Finset.filter_singleton, if_pos vacant, Finset.card_singleton, Nat.lt_one_iff]
    rcases Lib.bind_error halted with halted | ⟨value, -, halted⟩
    · unfold allocTablePage at halted
      split at halted
      · rename_i pmm refused
        exact (pmmTryAllocPagePhys_none_iff tree.ready).mp (by rw [refused])
      · rename_i frame pmm taken
        have aligned := (pmmTryAllocPagePhys_allocated taken).aligned
        grind
    · cases halted

variable {virtAddr : Nat}

theorem walkToPte_draws (tree : TableTree s root) (unmapped : s.leafAt root virtAddr = none) {answer : Option PteRef}
    (done : walkToPte s root virtAddr true user = .ok (answer, t)) : Draws root (wayTables virtAddr) 0 s t := by
  obtain ⟨pdpt, s₁, pd, s₂, pt, first, second, third, -⟩ := walkToPte_chain tree unmapped done
  have start : s.tableAt root [] = some root := rfl
  obtain ⟨grown₁, reached₁, -⟩ := getOrCreateTable_grown tree (by simp) start first
  obtain ⟨grown₂, reached₂, -⟩ := getOrCreateTable_grown grown₁.tree (by simp) reached₁ second
  have drawn₁ := getOrCreateTable_draws tree (by simp) start first
  have drawn₂ := getOrCreateTable_draws grown₁.tree (by simp) reached₁ second
  have drawn₃ := getOrCreateTable_draws grown₂.tree (by simp) reached₂ third
  exact drawn₁.trans (drawn₂.trans drawn₃ (by simp)) (by simp)

theorem walkToPte_short (tree : TableTree s root) (unmapped : s.leafAt root virtAddr = none)
    (halted : walkToPte s root virtAddr true user = .error fault) :
    s.pmm.info.freePages < (s.missing root (wayTables virtAddr)).card := by
  have start : s.tableAt root [] = some root := rfl
  simp only [walkToPte, tree.root_mask, Bool.not_true, Bool.false_eq_true, and_false, ↓reduceIte] at halted
  rcases Lib.bind_error halted with halted | ⟨⟨pdpt, s₁⟩, first, halted⟩
  · refine (getOrCreateTable_short tree start (tree.not_huge (by simp) start _) halted).trans_le ?_
    exact s.missing_mono root (by simp [wayTables])
  obtain ⟨grown₁, reached₁, -⟩ := getOrCreateTable_grown tree (by simp) start first
  have drawn₁ := getOrCreateTable_draws tree (by simp) start first
  have small₁ := grown₁.tree.not_huge (by simp) reached₁ (pdptIndex virtAddr)
  simp only [small₁, ne_eq, not_true_eq_false, ↓reduceIte] at halted
  rcases Lib.bind_error halted with halted | ⟨⟨pd, s₂⟩, second, halted⟩
  · refine (drawn₁.short (by simp) (getOrCreateTable_short grown₁.tree reached₁ small₁ halted)).trans_le ?_
    refine s.missing_mono root ?_
    intro path member
    simp only [Finset.mem_union, Finset.mem_singleton] at member
    rcases member with rfl | rfl <;> simp [wayTables]
  obtain ⟨grown₂, reached₂, -⟩ := getOrCreateTable_grown grown₁.tree (by simp) reached₁ second
  have drawn₂ := getOrCreateTable_draws grown₁.tree (by simp) reached₁ second
  have small₂ := (grown₁.trans grown₂).not_huge reached₂ unmapped
  simp only [small₂, not_true_eq_false, ↓reduceIte] at halted
  rcases Lib.bind_error halted with halted | ⟨value, -, halted⟩
  · exact drawn₁.short (by simp) (drawn₂.short (by simp) (getOrCreateTable_short grown₂.tree reached₂ small₂ halted))
  · cases halted

end Walk

section Map

variable {s t u : Paging} {root virtAddr physAddr flags : Nat}

theorem pagingMapPage_draws (tree : TableTree s root)
    (done : pagingMapPage s root virtAddr physAddr flags = .ok (true, t)) : Draws root (wayTables virtAddr) 0 s t := by
  rcases pagingMapPage_walk tree done with ⟨no, -⟩ | ⟨-, allowed, pt, middle, walked, rfl⟩
  · cases no
  · obtain ⟨_, same, grown, reached, -⟩ := walkToPte_create tree allowed.2.2.2 walked
    have drawn := walkToPte_draws tree allowed.2.2.2 walked
    refine ⟨fun path bounded => ?_, drawn.left⟩
    grind [TableTree.tableAt_setLeaf, Grown.tree, Draws.tables]

theorem pagingMapPage_short (tree : TableTree s root)
    (halted : pagingMapPage s root virtAddr physAddr flags = .error fault) :
    MapAllowed s root virtAddr physAddr flags ∧ s.pmm.info.freePages < (s.missing root (wayTables virtAddr)).card := by
  simp only [pagingMapPageLocked] at halted
  split at halted
  · cases halted
  rename_i aligned
  rw [not_not, page_aligned_iff] at aligned
  split at halted
  · cases halted
  rename_i compatible
  split at halted
  · cases halted
  rename_i untranslated
  have unmapped : s.leafAt root virtAddr = none := by
    rw [translateWithCr3_eq_leaf tree, Bool.not_eq_true, Option.isSome_eq_false_iff, Option.isNone_iff_eq_none,
      Option.map_eq_none_iff] at untranslated
    exact untranslated
  refine ⟨⟨aligned.1, aligned.2, compatible, unmapped⟩, ?_⟩
  rcases Lib.bind_error halted with halted | ⟨⟨answer, middle⟩, walked, halted⟩
  · exact walkToPte_short tree unmapped halted
  · obtain ⟨pt, rfl, -⟩ := walkToPte_create tree unmapped walked
    cases halted

/-- A page that can be mapped, given the frames for it. -/
def Paging.Mappable (s : Paging) (root flags page : Nat) : Prop :=
  ¬ (flags &&& pagingFlagGlobal ≠ 0 ∧ flags &&& pagingFlagUser ≠ 0) ∧ s.leafAt root page = none

/-- All pages can be mapped, and the frames for them are there. -/
def Paging.Supplies (s : Paging) (root flags : Nat) (pages : List Nat) : Prop :=
  (∀ page ∈ pages, s.Mappable root flags page) ∧ s.demand root pages ≤ s.pmm.info.freePages

/-- The frames last for the pages before some page and for that page, but not for the tables on the
way to it. -/
def Paging.TablesShort (s : Paging) (root flags : Nat) (pages : List Nat) : Prop :=
  ∃ before page, before ++ [page] <+: pages ∧ (∀ other ∈ before ++ [page], s.Mappable root flags other) ∧
    s.demand root before < s.pmm.info.freePages ∧ s.pmm.info.freePages < s.demand root (before ++ [page])

theorem Paging.demand_nil (s : Paging) (root : Nat) : s.demand root [] = 0 := by
  simp [demand, pagesTables, missing]

theorem Paging.demand_single (s : Paging) (root page : Nat) :
    s.demand root [page] = 1 + (s.missing root (wayTables page)).card := by
  simp [demand, pagesTables]

theorem Paging.missing_withPmm (s : Paging) (pmm : Pmm) (root : Nat) (paths : Finset (List (Fin 512))) :
    ({ s with pmm := pmm } : Paging).missing root paths = s.missing root paths := rfl

section Page

variable {page : Nat} {rest : List Nat}

section

variable (drawn : Draws root (wayTables page) 1 s u)
include drawn

/-- The demand of the pages after one that has been mapped. -/
theorem Draws.demand_cons (rest : List Nat) :
    s.demand root (page :: rest) = 1 + (s.missing root (wayTables page)).card + u.demand root rest := by
  rw [Paging.demand, pagesTables_cons, drawn.missing_union fun _ => pagesTables_short, Paging.demand, List.length_cons]
  omega

section

variable (mappable : s.Mappable root flags page)
  (same : ∀ other ∈ rest, (u.Mappable root flags other ↔ s.Mappable root flags other))
include mappable same

theorem Draws.supplies_cons :
    s.Supplies root flags (page :: rest) ↔ u.Supplies root flags rest := by
  have left := drawn.left
  rw [Paging.Supplies, Paging.Supplies, drawn.demand_cons, List.forall_mem_cons]
  grind

theorem Draws.tablesShort_cons :
    s.TablesShort root flags (page :: rest) ↔ u.TablesShort root flags rest := by
  have left := drawn.left
  constructor
  · rintro ⟨before, last, initial, all, enough, short⟩
    cases before with
    | nil =>
      -- The first page has been mapped, so that the frames lasted for it.
      obtain ⟨rfl, -⟩ := List.cons_prefix_cons.mp initial
      rw [List.nil_append, s.demand_single] at short
      omega
    | cons first before =>
      obtain ⟨rfl, onward⟩ := List.cons_prefix_cons.mp initial
      rw [List.cons_append, drawn.demand_cons] at short
      rw [drawn.demand_cons] at enough
      refine ⟨before, last, onward, fun other member => ?_, by omega, by omega⟩
      grind
  · rintro ⟨before, last, initial, all, enough, short⟩
    refine ⟨page :: before, last, List.cons_prefix_cons.mpr ⟨rfl, initial⟩, ?_, ?_, ?_⟩
    · grind
    · rw [drawn.demand_cons]
      omega
    · rw [List.cons_append, drawn.demand_cons]
      omega

end

end

end Page

/-- One pass of the mapping loop draws a frame for the page and the frames for its tables. -/
theorem mapPass_draws (tree : TableTree s root) (taken : pmmTryAllocPagePhys s.pmm = (some frame, pmm))
    (called : pagingMapPage { s with pmm := pmm } root virtAddr frame flags = .ok (true, u)) :
    Draws root (wayTables virtAddr) 1 s u := by
  have tree' := tree.allocFrame taken
  have drawn := pagingMapPage_draws tree' called
  have less := (pmmTryAllocPagePhys_allocated taken).freePages tree.ready tree'.ready
  have left := drawn.left
  rw [s.missing_withPmm] at left
  dsimp only at left
  exact ⟨drawn.tables, by omega⟩

section Loop

variable {addr mapped count : Nat} {offsets : List Nat}

/-- What a pass that mapped its page leaves of the pages after it. -/
theorem mapPass_mappable (tree : TableTree s root) {offset : Nat} {rest : List Nat}
    (taken : pmmTryAllocPagePhys s.pmm = (some frame, pmm))
    (called : pagingMapPage { s with pmm := pmm } root (addr + offset) frame flags = .ok (true, u))
    (apart : ∀ page ∈ rest, pageNumber (addr + offset) ≠ pageNumber page) :
    TableTree u root ∧ s.Mappable root flags (addr + offset) ∧
      ∀ page ∈ rest, (u.Mappable root flags page ↔ s.Mappable root flags page) := by
  rcases pagingMapPage_rebound (tree.allocFrame taken) called with ⟨no, -⟩ | ⟨-, allowed, rebound⟩
  · cases no
  · refine ⟨rebound.tree, ⟨allowed.2.2.1, allowed.2.2.2⟩, fun page member => ?_⟩
    rw [Paging.Mappable, rebound.leaves, if_neg (apart page member).symm]
    rfl

/-- The mapping loop panics only where the frames do not last for the tables of a page. -/
theorem mapPages_halts (tree : TableTree s root) (fits : ∀ offset ∈ offsets, addr + offset < 2 ^ 64)
    (apart : (offsets.map (addr + ·)).Pairwise fun first second => pageNumber first ≠ pageNumber second)
    (halted : mapPages root addr flags offsets mapped s = .error fault) :
    s.TablesShort root flags (offsets.map (addr + ·)) := by
  induction offsets generalizing s mapped with
  | nil => cases halted
  | cons offset rest ih =>
    rw [List.map_cons, List.pairwise_cons] at apart
    simp only [mapPages, Nat.mod_eq_of_lt (fits offset List.mem_cons_self)] at halted
    split at halted
    · cases halted
    rename_i frame pmm taken
    have tree' := tree.allocFrame taken
    have less := (pmmTryAllocPagePhys_allocated taken).freePages tree.ready tree'.ready
    rcases Lib.bind_error halted with stopped | ⟨⟨ok, u⟩, called, halted⟩
    · obtain ⟨allowed, short⟩ := pagingMapPage_short tree' stopped
      refine ⟨[], addr + offset, List.cons_prefix_cons.mpr ⟨rfl, List.nil_prefix⟩, ?_, ?_, ?_⟩
      · exact List.forall_mem_singleton.mpr ⟨allowed.2.2.1, allowed.2.2.2⟩
      · rw [Paging.demand_nil]
        omega
      grind [Paging.missing_withPmm, Paging.demand_single]
    · cases ok with
      | false => cases halted
      | true =>
        obtain ⟨grown, mappable, same⟩ := mapPass_mappable tree taken called apart.1
        grind [Draws.tablesShort_cons, mapPass_draws]

/-- A mapping loop that ends had the frames for every table it needed, and ends after the last page
iff all pages can be had. -/
theorem mapPages_returns (tree : TableTree s root) (fits : ∀ offset ∈ offsets, addr + offset < 2 ^ 64 ∧ (addr + offset) % 4096 = 0)
    (apart : (offsets.map (addr + ·)).Pairwise fun first second => pageNumber first ≠ pageNumber second)
    (done : mapPages root addr flags offsets mapped s = .ok (count, t)) :
    ¬ s.TablesShort root flags (offsets.map (addr + ·)) ∧
      (count = mapped + offsets.length * 4096 ↔ s.Supplies root flags (offsets.map (addr + ·))) := by
  induction offsets generalizing s mapped with
  | nil =>
    cases done
    refine ⟨?_, by simp [Paging.Supplies, Paging.demand_nil]⟩
    rintro ⟨before, page, initial, -⟩
    simp at initial
  | cons offset rest ih =>
    rw [List.map_cons, List.pairwise_cons] at apart
    obtain ⟨small, aligned⟩ := fits offset List.mem_cons_self
    simp only [mapPages, Nat.mod_eq_of_lt small] at done
    have stops : count = mapped → ¬ s.TablesShort root flags ((offset :: rest).map (addr + ·)) →
        ¬ s.Supplies root flags ((offset :: rest).map (addr + ·)) →
        ¬ s.TablesShort root flags ((offset :: rest).map (addr + ·)) ∧
          (count = mapped + (offset :: rest).length * 4096 ↔ s.Supplies root flags ((offset :: rest).map (addr + ·))) := by
      grind
    split at done
    · rename_i pmm failed
      cases done
      have none' := (pmmTryAllocPagePhys_none_iff tree.ready).mp (by rw [failed])
      refine stops rfl ?_ ?_
      · rintro ⟨before, page, -, -, enough, -⟩
        omega
      · rintro ⟨-, enough⟩
        rw [Paging.demand, List.length_map, List.length_cons] at enough
        omega
    · rename_i frame pmm taken
      obtain ⟨⟨ok, u⟩, called, done⟩ := Lib.bind_ok done
      cases ok with
      | false =>
        cases done
        have refused : ¬ s.Mappable root flags (addr + offset) := by
          rintro ⟨compatible, unmapped⟩
          rcases pagingMapPage_walk (tree.allocFrame taken) called with ⟨-, -, refused⟩ | ⟨accepted, -⟩
          · exact refused ⟨aligned, (pmmTryAllocPagePhys_allocated taken).aligned, compatible, unmapped⟩
          · cases accepted
        refine stops rfl ?_ fun supplied => refused (supplied.1 _ List.mem_cons_self)
        rintro ⟨before, page, initial, all, -⟩
        cases before with
        | nil =>
          grind
        | cons first before =>
          grind
      | true =>
        obtain ⟨grown, mappable, same⟩ := mapPass_mappable tree taken called apart.1
        have drawn := mapPass_draws tree taken called
        obtain ⟨enough, counted⟩ := ih grown (fun other member => fits other (List.mem_cons_of_mem _ member)) apart.2 done
        rw [List.map_cons, drawn.tablesShort_cons mappable same, drawn.supplies_cons mappable same, ← counted]
        refine ⟨enough, ?_⟩
        rw [List.length_cons, pmmPageSize]
        omega

end Loop

end Map

end Velox
