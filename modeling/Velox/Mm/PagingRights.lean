import Velox.Mm.PageMap

namespace Velox

variable {state next : RightsState} {call : PagingCall}

structure Rights where
  writable : Bool
  user : Bool
  noExec : Bool
deriving DecidableEq, Repr

/-- The rights the processor grants through a full walk: write and user accesses
need their bit at all four levels, no-execute is read off the leaf. -/
def Paging.effectiveRights (s : Paging) (root virtAddr : Nat) : Option Rights :=
  let pml4e := s.tables root (pml4Index virtAddr)
  let pdpte := s.tables (pml4e &&& entryAddrMask4k) (pdptIndex virtAddr)
  let pde := s.tables (pdpte &&& entryAddrMask4k) (pdIndex virtAddr)
  let pte := s.tables (pde &&& entryAddrMask4k) (ptIndex virtAddr)
  let walk := [pml4e, pdpte, pde, pte]
  if walk.all (· &&& pagePresent ≠ 0) ∧ pdpte &&& pagePs = 0 ∧ pde &&& pagePs = 0 then
    some {
      writable := walk.all (· &&& pageWritable ≠ 0)
      user := walk.all (· &&& pageUser ≠ 0)
      noExec := pte &&& pageNx ≠ 0 }
  else none

/-- The rights a request asks for. -/
def requestedRights (nxEnabled : Bool) (flags : Nat) : Rights where
  writable := flags &&& pagingFlagWritable ≠ 0
  user := flags &&& pagingFlagUser ≠ 0
  noExec := (flags &&& pagingFlagExec) = 0 ∧ nxEnabled

/-- All three upper entries of a walk carry `PAGE_USER`. -/
def Paging.upperUser (s : Paging) (root virtAddr : Nat) : Bool :=
  let pml4e := s.tables root (pml4Index virtAddr)
  let pdpte := s.tables (pml4e &&& entryAddrMask4k) (pdptIndex virtAddr)
  let pde := s.tables (pdpte &&& entryAddrMask4k) (pdIndex virtAddr)
  [pml4e, pdpte, pde].all (· &&& pageUser ≠ 0)

/-- The paging state and, for every page mapped by `paging_map_page`, the flags
of the last request for it that succeeded. -/
structure RightsState where
  paging : Paging
  requested : Fin (2 ^ 36) → Option Nat

def RightsState.root (state : RightsState) : Nat := state.paging.info.rootPml4Phys

/-- A successful call replaces the request for its page. Protecting a page that
`paging_map_page` did not map makes no request to follow. -/
def recordRequest (requested : Fin (2 ^ 36) → Option Nat) : PagingCall → Fin (2 ^ 36) → Option Nat
  | .map virtAddr _ flags => Function.update requested (virtPage virtAddr) (some flags)
  | .unmap virtAddr => Function.update requested (virtPage virtAddr) none
  | .protect virtAddr flags =>
    Function.update requested (virtPage virtAddr) ((requested (virtPage virtAddr)).map fun _ => flags)

def rightsStep (state : RightsState) (call : PagingCall) : Except Panic (PagingAnswer × RightsState) := do
  let (answer, paging) ← pagingStep state.paging call
  return (answer, {
    paging := paging
    requested := if answer.accepted then recordRequest state.requested call else state.requested })

/-- `paging_protect_page` rewrites the leaf only. A request to open a page to user
accesses is met where the tables above the page are open already. -/
def TablesOpen (state : RightsState) : PagingCall → Prop
  | .protect virtAddr flags => flags &&& pagingFlagUser ≠ 0 → (state.requested (virtPage virtAddr)).isSome →
      state.paging.upperUser state.root virtAddr
  | _ => True

instance (state : RightsState) : DecidablePred (TablesOpen state)
  | .map _ _ _ => inferInstanceAs (Decidable True)
  | .unmap _ => inferInstanceAs (Decidable True)
  | .protect _ _ => inferInstanceAs (Decidable (_ → _ → _))

variable {s t : Paging} {root virtAddr : Nat}

/-- The entries above a last-level entry, read one after the other. -/
theorem Paging.upper_entries (reached : s.tableAt root (walkPath virtAddr) = some pt) :
    ∃ pml4e pdpte pde, s.tables root (pml4Index virtAddr) = pml4e ∧
      s.tables (pml4e &&& entryAddrMask4k) (pdptIndex virtAddr) = pdpte ∧
      s.tables (pdpte &&& entryAddrMask4k) (pdIndex virtAddr) = pde ∧ pde &&& entryAddrMask4k = pt ∧
      (∀ entry ∈ [pml4e, pdpte, pde], entry &&& pagePresent ≠ 0 ∧ entry &&& pagePs = 0) ∧
      s.entryAt root [] (pml4Index virtAddr) = some pml4e ∧
      s.entryAt root [pml4Index virtAddr] (pdptIndex virtAddr) = some pdpte ∧
      s.entryAt root [pml4Index virtAddr, pdptIndex virtAddr] (pdIndex virtAddr) = some pde := by
  simp only [Paging.tableAt, walkPath, Lib.follow, Option.bind_eq_some_iff] at reached
  obtain ⟨pdpt, linked4, pd, linked3, _, linked2, last⟩ := reached
  cases last
  obtain ⟨present4, small4, rfl⟩ := tableChild_eq_some.mp linked4
  obtain ⟨present3, small3, rfl⟩ := tableChild_eq_some.mp linked3
  obtain ⟨present2, small2, rfl⟩ := tableChild_eq_some.mp linked2
  refine ⟨_, _, _, rfl, rfl, rfl, rfl, ?_, rfl, ?_, ?_⟩
  · grind
  · simp [Paging.entryAt, Lib.entryAt, Lib.follow, linked4]
  · simp [Paging.entryAt, Lib.entryAt, Lib.follow, linked4, linked3]

theorem Paging.upperUser_iff (reached : s.tableAt root (walkPath virtAddr) = some pt) :
    s.upperUser root virtAddr = true ↔ s.UserWalk root virtAddr := by
  obtain ⟨pml4e, pdpte, pde, rfl, rfl, rfl, -, -, found4, found3, found2⟩ := Paging.upper_entries reached
  simp only [Paging.upperUser, List.all_cons, List.all_nil, Bool.and_true, Bool.and_eq_true, decide_eq_true_eq]
  constructor
  · rintro ⟨user4, user3, user2⟩ path index through
    rcases prefix_three through with ⟨rfl, rfl⟩ | ⟨rfl, rfl⟩ | ⟨rfl, rfl⟩
    · grind
    · grind
    grind
  · intro user
    obtain ⟨_, found4', user4⟩ := user [] _ ⟨[pdptIndex virtAddr, pdIndex virtAddr], rfl⟩
    obtain ⟨_, found3', user3⟩ := user [pml4Index virtAddr] _ ⟨[pdIndex virtAddr], rfl⟩
    obtain ⟨_, found2', user2⟩ := user [pml4Index virtAddr, pdptIndex virtAddr] _ ⟨[], rfl⟩
    grind

/-- Every table below the root is writable as a whole, so a page's own entry
decides all rights but the user right. -/
theorem TableTree.effectiveRights_eq (tree : TableTree s root) {entry : Nat}
    (mapped : s.leafAt root virtAddr = some (.small entry)) :
    s.effectiveRights root virtAddr = some {
      writable := entry &&& pageWritable ≠ 0
      user := entry &&& pageUser ≠ 0 ∧ s.upperUser root virtAddr
      noExec := entry &&& pageNx ≠ 0 } := by
  obtain ⟨pt, reached, read1, present⟩ := Paging.leafAt_small_iff.mp mapped
  obtain ⟨pml4e, pdpte, pde, read4, read3, read2, rfl, upper, found4, found3, found2⟩ := Paging.upper_entries reached
  have writable : ∀ path index entry, path.length < 3 → s.entryAt root path index = some entry →
      entry &&& pagePresent ≠ 0 → entry &&& pageWritable ≠ 0 := by
    intro path index entry short found present
    rcases tree.shaped path index entry (by omega) found with rfl | ⟨-, writable, -⟩
    · simp at present
    · exact writable short
  simp only [List.mem_cons, List.not_mem_nil, or_false, forall_eq_or_imp, forall_eq] at upper
  have writable4 := writable _ _ _ (by simp) found4 upper.1.1
  have writable3 := writable _ _ _ (by simp) found3 upper.2.1.1
  have writable2 := writable _ _ _ (by simp) found2 upper.2.2.1
  simp only [Paging.effectiveRights, Paging.upperUser, read4, read3, read2, read1]
  rw [if_pos (by simp [upper, present])]
  simp [writable4, writable3, writable2, Bool.and_comm, Bool.and_left_comm]

/-- A written entry carries the bits its flags ask for. -/
theorem leafEntry_rights (nxEnabled : Bool) (physAddr flags : Nat) :
    (leafEntry nxEnabled physAddr flags &&& pageWritable ≠ 0 ↔ flags &&& pagingFlagWritable ≠ 0) ∧
      (leafEntry nxEnabled physAddr flags &&& pageUser ≠ 0 ↔ flags &&& pagingFlagUser ≠ 0) ∧
      (leafEntry nxEnabled physAddr flags &&& pageNx ≠ 0 ↔ flags &&& pagingFlagExec = 0 ∧ nxEnabled = true) := by
  have aligned := mask4k_aligned physAddr
  exact (leaf_entry_decodes nxEnabled (mask4k_of_aligned aligned.1 aligned.2)).2.2

/-- Every followed page has the leaf of its request, and the tables above a page
requested for user accesses are open. -/
structure RequestsMet (state : RightsState) : Prop where
  tree : TableTree state.paging state.root
  leaf : ∀ virtAddr flags, state.requested (virtPage virtAddr) = some flags →
    ∃ physAddr, state.paging.leafAt state.root virtAddr =
      some (.small (leafEntry state.paging.nxEnabled physAddr flags))
  opened : ∀ virtAddr flags, state.requested (virtPage virtAddr) = some flags → flags &&& pagingFlagUser ≠ 0 →
    state.paging.UserWalk state.root virtAddr

theorem walkPath_congr (same : pageNumber v = pageNumber w) : walkPath v = walkPath w := by
  obtain ⟨l4, l3, l2, -⟩ := (pageNumber_eq_iff v w).mp same
  simp only [walkPath, l4, l3, l2]

theorem Paging.UserWalk.congr {v w : Nat} (same : pageNumber v = pageNumber w) (user : s.UserWalk root w) :
    s.UserWalk root v := by
  rwa [Paging.UserWalk, walkPath_congr same]

/-- The last-level entries are no part of the walk above them. -/
theorem TableTree.userWalk_setLeaf (tree : TableTree s root)
    (reached : s.tableAt root (walkPath target) = some pt) (entry other : Nat) :
    (s.setEntry pt (ptIndex target) entry).UserWalk root other ↔ s.UserWalk root other := by
  have same : ∀ path index, path ++ [index] <+: walkPath other →
      (s.setEntry pt (ptIndex target) entry).entryAt root path index = s.entryAt root path index := by
    intro path index through
    have bound := through.length_le
    simp only [List.length_append, walkPath, List.length_cons, List.length_nil] at bound
    have above : ¬ (path = walkPath target ∧ index = ptIndex target) := by
      rintro ⟨rfl, -⟩
      simp [walkPath] at bound
    rw [tree.entryAt_setLeaf reached entry index (by omega), if_neg above]
  unfold Paging.UserWalk
  grind

/-- The rights of a followed page are the requested ones exactly when a request
for user accesses finds its tables open. -/
theorem TableTree.rights_iff (tree : TableTree s root)
    (mapped : s.leafAt root virtAddr = some (.small (leafEntry nxEnabled physAddr flags))) :
    s.effectiveRights root virtAddr = some (requestedRights nxEnabled flags) ↔
      (flags &&& pagingFlagUser ≠ 0 → s.UserWalk root virtAddr) := by
  obtain ⟨pt, reached, -⟩ := Paging.leafAt_small_iff.mp mapped
  obtain ⟨writable, user, exec⟩ := leafEntry_rights nxEnabled physAddr flags
  simp only [tree.effectiveRights_eq mapped, requestedRights, writable, user, exec, ← Paging.upperUser_iff reached,
    Option.some.injEq, Rights.mk.injEq, true_and, and_true, decide_eq_decide]
  simp

section

variable (met : RequestsMet state)
include met

theorem RequestsMet.rights (followed : state.requested (virtPage virtAddr) = some flags) :
    state.paging.effectiveRights state.root virtAddr = some (requestedRights state.paging.nxEnabled flags) := by
  obtain ⟨physAddr, mapped⟩ := met.leaf virtAddr flags followed
  exact (met.tree.rights_iff mapped).mpr (met.opened virtAddr flags followed)

/-- A call that rebinds one page and leaves open tables open keeps all other
requests met; the request for its own page is met if the new leaf meets it. -/
theorem RequestsMet.rebind {leaf : Option Leaf}
    (rebound : Rebound state.root virtAddr leaf state.paging t)
    (walks : ∀ other, t.leafAt state.root other ≠ none → state.paging.UserWalk state.root other →
      t.UserWalk state.root other) (asked : ∀ flags, request = some flags →
      ∃ physAddr, leaf = some (.small (leafEntry state.paging.nxEnabled physAddr flags)))
    (opened : ∀ flags, request = some flags → flags &&& pagingFlagUser ≠ 0 → t.UserWalk state.root virtAddr) :
    RequestsMet ⟨t, Function.update state.requested (virtPage virtAddr) request⟩ := by
  have sameRoot : RightsState.root ⟨t, Function.update state.requested (virtPage virtAddr) request⟩ = state.root :=
    rebound.rootPml4Phys
  have leaves : ∀ other flags,
      Function.update state.requested (virtPage virtAddr) request (virtPage other) = some flags →
      ∃ physAddr, t.leafAt state.root other = some (.small (leafEntry state.paging.nxEnabled physAddr flags)) := by
    intro other flags followed
    rw [rebound.leaves]
    by_cases same : pageNumber other = pageNumber virtAddr
    · rw [virtPage_eq_iff.mpr same, Function.update_self] at followed
      grind
    · rw [Function.update_of_ne (virtPage_eq_iff.not.mpr same)] at followed
      grind [leaf]
  refine ⟨sameRoot ▸ rebound.tree, ?_, ?_⟩
  · grind [Rebound.nxEnabled]
  · intro other flags followed user
    rw [sameRoot]
    obtain ⟨physAddr, mapped⟩ := leaves other flags followed
    dsimp only at followed
    by_cases same : pageNumber other = pageNumber virtAddr
    · rw [virtPage_eq_iff.mpr same, Function.update_self] at followed
      exact (opened flags followed user).congr same
    · rw [Function.update_of_ne (virtPage_eq_iff.not.mpr same)] at followed
      grind [opened]

theorem RequestsMet.map
    (done : pagingMapPage state.paging state.root virtAddr physAddr flags = .ok (true, t)) :
    RequestsMet ⟨t, Function.update state.requested (virtPage virtAddr) (some flags)⟩ := by
  rcases pagingMapPage_rebound met.tree done with ⟨no, -⟩ | ⟨-, -, rebound⟩
  · cases no
  rcases pagingMapPage_cases met.tree done with ⟨no, -⟩ | ⟨-, -, middle, pt, grown, reached, user, rfl⟩
  · cases no
  have walks := grown.tree.userWalk_setLeaf reached (leafEntry state.paging.nxEnabled physAddr flags)
  refine met.rebind rebound (fun other _ open' => (walks other).mpr (grown.userWalk open')) ?_ ?_
  · grind
  grind

theorem RequestsMet.unmap {frame : Nat}
    (done : pagingUnmapPage state.paging state.root virtAddr = .ok (some frame, t)) :
    RequestsMet ⟨t, Function.update state.requested (virtPage virtAddr) none⟩ := by
  rcases pagingUnmapPage_rebound met.tree done with ⟨no, -⟩ | ⟨_, -, -, rebound⟩
  · cases no
  rcases pagingUnmapPage_cases met.tree done with ⟨no, -⟩ | ⟨pt, _, -, -, reached, pruned⟩
  · cases no
  refine met.rebind rebound ?_ (fun flags no => nomatch no) (fun flags no => nomatch no)
  intro other mapped user path index through
  obtain ⟨entry, found, bit⟩ := (met.tree.userWalk_setLeaf reached 0 other).mpr user path index through
  refine ⟨entry, ?_, bit⟩
  rw [pruned.walks other path index _ through, found]
  rwa [← pruned.leaves]

theorem RequestsMet.protect (allowed : TablesOpen state (.protect virtAddr flags))
    (done : pagingProtectPage state.paging state.root virtAddr flags = .ok (true, t)) :
    RequestsMet ⟨t, recordRequest state.requested (.protect virtAddr flags)⟩ := by
  rcases pagingProtectPage_rebound met.tree done with ⟨no, -⟩ | ⟨leaf, -, -, rebound⟩
  · cases no
  rcases pagingProtectPage_cases met.tree done with ⟨no, -⟩ | ⟨pt, entry, -, -, reached, rfl⟩
  · cases no
  have walks := met.tree.userWalk_setLeaf reached (leafEntry state.paging.nxEnabled entry flags)
  refine met.rebind rebound (fun other _ => (walks other).mpr) ?_ ?_
  · intro asked same
    obtain ⟨_, -, rfl⟩ := Option.map_eq_some_iff.mp same
    exact ⟨leaf, rfl⟩
  · intro asked same wanted
    obtain ⟨before, followed, rfl⟩ := Option.map_eq_some_iff.mp same
    exact (walks virtAddr).mpr ((Paging.upperUser_iff reached).mp (allowed wanted (by simp [followed])))

theorem rightsStep_keeps (taken : rightsStep state call = .ok (answer, next)) :
    next.root = state.root ∧ next.paging.nxEnabled = state.paging.nxEnabled := by
  obtain ⟨⟨answered, paging⟩, stepped, rest⟩ := Lib.bind_ok taken
  cases rest
  have keeps := (pagingStep_keeps met.tree stepped).1
  exact ⟨keeps.rootPml4Phys, keeps.nxEnabled⟩

theorem rightsStep_met (allowed : TablesOpen state call)
    (taken : rightsStep state call = .ok (answer, next)) :
    RequestsMet next := by
  obtain ⟨⟨answered, paging⟩, stepped, rest⟩ := Lib.bind_ok taken
  cases rest
  have refused := (pagingStep_keeps met.tree stepped).2
  cases accepted : answer.accepted with
  | false =>
    obtain rfl := refused accepted
    exact met
  | true =>
    cases call with
    | map virtAddr physAddr flags =>
      obtain ⟨⟨ok, next⟩, done, rest⟩ := Lib.bind_ok stepped
      cases rest
      cases accepted
      exact met.map done
    | unmap virtAddr =>
      obtain ⟨⟨unbound, next⟩, done, rest⟩ := Lib.bind_ok stepped
      cases rest
      obtain ⟨frame, rfl⟩ := Option.isSome_iff_exists.mp accepted
      exact met.unmap done
    | protect virtAddr flags =>
      obtain ⟨⟨ok, next⟩, done, rest⟩ := Lib.bind_ok stepped
      cases rest
      cases accepted
      exact met.protect allowed done

/-- A followed page that is protected has the requested rights exactly when a
request for user accesses finds its tables open. -/
theorem rightsStep_protect_iff (followed : (state.requested (virtPage virtAddr)).isSome)
    (taken : rightsStep state (.protect virtAddr flags) = .ok (.flag true, next)) :
    next.paging.effectiveRights next.root virtAddr = some (requestedRights next.paging.nxEnabled flags) ↔
      TablesOpen state (.protect virtAddr flags) := by
  obtain ⟨⟨answered, paging⟩, stepped, rest⟩ := Lib.bind_ok taken
  cases rest
  obtain ⟨⟨ok, next⟩, done, rest⟩ := Lib.bind_ok stepped
  cases rest
  rcases pagingProtectPage_cases met.tree done with ⟨no, -⟩ | ⟨pt, entry, -, -, reached, rfl⟩
  · cases no
  have present := leafEntry_present state.paging.nxEnabled entry flags
  have leaf := met.tree.leafAt_setLeaf reached (leafEntry state.paging.nxEnabled entry flags) virtAddr
  rw [if_pos rfl, if_pos present] at leaf
  refine ((met.tree.setLeaf reached (.inr present)).rights_iff leaf).trans ?_
  rw [met.tree.userWalk_setLeaf reached, ← Paging.upperUser_iff reached]
  simp only [TablesOpen, followed, true_implies]

end

/-- The effective rights of a page mapped by `paging_map_page` are those of the
last request for it, in every run whose user protections all find their tables
open. A user protection that finds a table closed is not met. -/
theorem effective_rights_follow_requests {boot : Boot} {s : Paging} {state : RightsState}
    {trace : List (PagingCall × PagingAnswer)} (reached : Reached boot s)
    (run : Lib.Steps (Lib.guarded TablesOpen rightsStep) ⟨s, fun _ => none⟩ trace state) :
    (∀ virtAddr flags, state.requested (virtPage virtAddr) = some flags →
      state.paging.effectiveRights s.info.rootPml4Phys virtAddr = some (requestedRights s.nxEnabled flags)) ∧
    ∀ virtAddr flags next, (state.requested (virtPage virtAddr)).isSome →
      rightsStep state (.protect virtAddr flags) = .ok (.flag true, next) →
      (next.paging.effectiveRights s.info.rootPml4Phys virtAddr = some (requestedRights s.nxEnabled flags) ↔
        TablesOpen state (.protect virtAddr flags)) := by
  have start : RequestsMet ⟨s, fun _ => none⟩ :=
    ⟨reached.space.tree, (fun _ _ no => by cases no), (fun _ _ no _ => by cases no)⟩
  obtain ⟨met, sameRoot, sameNx⟩ : RequestsMet state ∧ state.root = s.info.rootPml4Phys ∧
      state.paging.nxEnabled = s.nxEnabled := by
    refine Lib.Steps.invariant (fun current => RequestsMet current ∧ current.root = s.info.rootPml4Phys ∧
      current.paging.nxEnabled = s.nxEnabled) ?_ ⟨start, rfl, rfl⟩ run
    rintro current call answer next ⟨met, sameRoot, sameNx⟩ taken
    obtain ⟨allowed, stepped⟩ := Lib.guarded_ok taken
    obtain ⟨keptRoot, keptNx⟩ := rightsStep_keeps met stepped
    exact ⟨rightsStep_met met allowed stepped, keptRoot.trans sameRoot, keptNx.trans sameNx⟩
  refine ⟨fun virtAddr flags followed => ?_, fun virtAddr flags next followed taken => ?_⟩
  · grind [RequestsMet.rights]
  · obtain ⟨keptRoot, keptNx⟩ := rightsStep_keeps met taken
    grind [rightsStep_protect_iff]

/-- A kernel page beside a user page is opened to users, and stays open when its
neighbour is unmapped. -/
theorem effective_rights_follow_requests_tiny : ∃ state,
    Lib.Steps (Lib.guarded TablesOpen rightsStep) ⟨tinyPagingReady, fun _ => none⟩
      [(.map 0x400000 0x5000 1, .flag true), (.map 0x401000 0x6000 3, .flag true),
        (.protect 0x400000 3, .flag true), (.unmap 0x401000, .frame (some 0x6000))] state ∧
    state.requested (virtPage 0x400000) = some 3 ∧
    state.paging.effectiveRights tinyPagingReady.info.rootPml4Phys 0x400000 = some ⟨true, true, true⟩ := by
  obtain ⟨state, run, followed⟩ := Lib.Steps.exists_of_replay_test
    (show (Lib.replay (Lib.guarded TablesOpen rightsStep) ⟨tinyPagingReady, fun _ => none⟩
      [(.map 0x400000 0x5000 1, .flag true), (.map 0x401000 0x6000 3, .flag true),
        (.protect 0x400000 3, .flag true), (.unmap 0x401000, .frame (some 0x6000))]).any
        (fun state => state.requested (virtPage 0x400000) = some 3) = true by decide +kernel)
  have followed := of_decide_eq_true followed
  refine ⟨state, run, followed, ?_⟩
  rw [(effective_rights_follow_requests tinyPagingReady_reached run).1 0x400000 3 followed]
  decide +kernel

/-- A page mapped for the kernel and then protected for users stays closed to
users: the tables above it never got the user bit. -/
theorem protect_user_without_effect : ∃ state,
    Reached tinyBoot tinyPagingReady ∧
    Lib.Steps rightsStep ⟨tinyPagingReady, fun _ => none⟩
      [(.map 0x400000 0x5000 1, .flag true), (.protect 0x400000 3, .flag true)] state ∧
    state.requested (virtPage 0x400000) = some 3 ∧
    state.paging.effectiveRights tinyPagingReady.info.rootPml4Phys 0x400000 = some ⟨true, false, true⟩ ∧
    requestedRights tinyPagingReady.nxEnabled 3 = ⟨true, true, true⟩ := by
  obtain ⟨state, run, test⟩ := Lib.Steps.exists_of_replay_test
    (show (Lib.replay rightsStep ⟨tinyPagingReady, fun _ => none⟩
      [(.map 0x400000 0x5000 1, .flag true), (.protect 0x400000 3, .flag true)]).any
        (fun state => state.requested (virtPage 0x400000) = some 3 ∧
          state.paging.effectiveRights tinyPagingReady.info.rootPml4Phys 0x400000 = some ⟨true, false, true⟩) = true
      by decide +kernel)
  obtain ⟨followed, rights⟩ := of_decide_eq_true test
  exact ⟨state, tinyPagingReady_reached, run, followed, rights, by decide +kernel⟩

end Velox
