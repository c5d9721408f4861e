import Velox.Mm.PagingRanges
import Velox.Mm.PagingRights
import Velox.Mm.PagingSpace

namespace Velox

/-- The calls of the paging code, with those for ranges. -/
inductive SpaceCall where
  | map (virtAddr physAddr flags : Nat)
  | mapRange (virtAddr physAddr size flags : Nat)
  | unmap (virtAddr : Nat)
  | protect (virtAddr flags : Nat)
  | protectRange (virtAddr size flags : Nat)
deriving DecidableEq, Repr

/-- The calls on the kernel root. -/
def spaceStep (s : Paging) : SpaceCall → Except Panic (PagingAnswer × Paging)
  | .map virtAddr physAddr flags => pagingStep s (.map virtAddr physAddr flags)
  | .mapRange virtAddr physAddr size flags => do
    let (ok, s) ← pagingMapRange s s.info.rootPml4Phys virtAddr physAddr size flags
    return (.flag ok, s)
  | .unmap virtAddr => pagingStep s (.unmap virtAddr)
  | .protect virtAddr flags => pagingStep s (.protect virtAddr flags)
  | .protectRange virtAddr size flags => do
    let (ok, s) ← pagingProtectRange s s.info.rootPml4Phys virtAddr size flags
    return (.flag ok, s)

def Leaf.entry : Leaf → Nat
  | .small entry => entry
  | .huge entry => entry

/-- An entry with both bits. -/
def GlobalUser (entry : Nat) : Prop := entry &&& pageGlobal ≠ 0 ∧ entry &&& pageUser ≠ 0

instance : DecidablePred GlobalUser := fun entry =>
  inferInstanceAs (Decidable (entry &&& pageGlobal ≠ 0 ∧ entry &&& pageUser ≠ 0))

/-- Flags that ask for both. -/
def AsksGlobalUser (flags : Nat) : Prop := flags &&& pagingFlagGlobal ≠ 0 ∧ flags &&& pagingFlagUser ≠ 0

/-- No leaf below a root has both bits. -/
def LeavesApart (root : Nat) (s : Paging) : Prop :=
  ∀ virtAddr leaf, s.leafAt root virtAddr = some leaf → ¬ GlobalUser leaf.entry

def NoGlobalUser (s : Paging) : Prop := LeavesApart s.info.rootPml4Phys s

/-- A call that gives both bits to a page: only the calls that change rights do not check the flags. -/
def SpaceCall.Grants (s : Paging) : SpaceCall → Prop
  | .protect virtAddr flags =>
    AsksGlobalUser flags ∧ ∃ entry, s.leafAt s.info.rootPml4Phys virtAddr = some (.small entry)
  | .protectRange virtAddr size flags =>
    AsksGlobalUser flags ∧ ProtectRangeEnters virtAddr size ∧
      ∃ offset ∈ strides 0 (alignUp size pageSize4k) pageSize4k,
        ∃ entry, s.leafAt s.info.rootPml4Phys (virtAddr + offset) = some (.small entry)
  | _ => False

theorem leafEntry_globalUser (nxEnabled : Bool) (physAddr flags : Nat) :
    GlobalUser (leafEntry nxEnabled physAddr flags) ↔ AsksGlobalUser flags := by
  have aligned := mask4k_aligned physAddr
  refine and_congr ?_ (leafEntry_rights nxEnabled physAddr flags).2.1
  rw [leafEntry, or_flags_bit (mask4k_of_aligned aligned.1 aligned.2) (by decide), Nat.and_or_distrib_right,
    show pagePresent &&& pageGlobal = 0 by decide, Nat.or_zero, pagingFlagsToHw_global]

section Init

variable {s t : Paging} {root : Nat}

/-- All leaves are closed to user mode. -/
def KernelLeaves (root : Nat) (s : Paging) : Prop :=
  ∀ virtAddr leaf, s.leafAt root virtAddr = some leaf → leaf.entry &&& pageUser = 0

theorem KernelLeaves.stable (s₀ : Paging) (root : Nat) :
    InitStable root fun s => Laid s₀ root s ∧ KernelLeaves root s where
  page4k := by
    intro s t virtAddr physAddr holds done
    obtain ⟨laid, leaves⟩ := mapPage4k_laid holds.1 done
    refine ⟨laid, fun other leaf found => ?_⟩
    rw [leaves] at found
    split at found
    · cases found
      simp only [Leaf.entry, Lib.or_and_eq_zero, Nat.and_assoc]
      exact ⟨⟨Nat.and_zero _, by decide⟩, by decide⟩
    · exact holds.2 other leaf found
  page2m := by
    intro s t virtAddr physAddr holds done
    obtain ⟨laid, leaves⟩ := mapPage2m_laid holds.1 done
    refine ⟨laid, fun other leaf found => ?_⟩
    rw [leaves] at found
    split at found
    · cases found
      simp only [Leaf.entry, hugeEntry, Lib.or_and_eq_zero, Nat.and_assoc]
      exact ⟨⟨⟨Nat.and_zero _, by decide⟩, by decide⟩, by decide⟩
    · exact holds.2 other leaf found
  congr := by
    intro s t holds pmm tables recorded
    refine ⟨holds.1.congr pmm tables recorded, fun other leaf found => holds.2 other leaf ?_⟩
    simpa only [Paging.leafAt, Paging.entryAt, tables] using found

/-- `paging_init` opens nothing to user mode. -/
theorem pagingInit_noGlobalUser (atBoot : AtBoot boot s) (done : pagingInit boot s = .ok t) : NoGlobalUser t := by
  obtain ⟨blank, started⟩ := atBoot.started
  obtain ⟨newPml4, s₁, pages, s₂, s₃, s₄, -, allocated, kernel, hhdm, passthrough, skipStart, skipEnd, -, rfl⟩ :=
    pagingInit_stages atBoot.fresh done
  have laid := allocTablePage_laid (pmmInit_ready started) atBoot.total allocated
  have empty : KernelLeaves newPml4 { s₁ with info := { s₁.info with rootPml4Phys := newPml4 } } := by
    intro virtAddr leaf found
    have none' : ∀ index rest, s₁.tableAt newPml4 (index :: rest) = none := by
      intro index rest
      by_contra some'
      obtain ⟨table, reached⟩ := Option.ne_none_iff_exists'.mp some'
      cases (allocTablePage_only allocated reached).1
    simp only [Paging.tableAt] at none'
    simp [Paging.leafAt, Paging.entryAt, Lib.entryAt, none'] at found
  obtain ⟨laid', leaves⟩ := (KernelLeaves.stable s newPml4).filled ⟨laid, empty⟩ kernel hhdm passthrough
  intro virtAddr leaf found both
  have recorded := laid'.built.recorded
  rw [recorded] at found
  exact both.2 (leaves virtAddr leaf found)

end Init

section Calls

variable {s t : Paging} {root virtAddr physAddr flags : Nat}

/-- What is mapped does not get both bits, since the flags have been checked. -/
theorem RangeMapped.leavesApart (mapped : RangeMapped root virtAddr physAddr flags offsets s t)
    (apart : LeavesApart root s) : LeavesApart root t := by
  intro other leaf found
  by_cases here : ∃ offset ∈ offsets, pageNumber (virtAddr + offset) = pageNumber other
  · obtain ⟨offset, member, same⟩ := here
    rw [← t.leafAt_pageNumber root same, mapped.inside offset member] at found
    cases found
    rw [Leaf.entry, leafEntry_globalUser]
    exact (mapped.allowed offset member).2.2.1
  · refine apart other leaf ?_
    grind [outside]

/-- Changing rights gives both bits to the pages it visits if the flags ask for them. -/
theorem Touched.leavesApart_iff {pages : List Nat}
    (touched : Touched root (Leaf.withRights nxEnabled flags) pages s t)
    (apart : LeavesApart root s) :
    LeavesApart root t ↔ ¬ (AsksGlobalUser flags ∧ ∃ page ∈ pages, ∃ entry, s.leafAt root page = some (.small entry)) := by
  constructor
  · rintro kept ⟨asks, page, member, entry, small⟩
    have now := touched page
    rw [if_pos ⟨page, member, rfl⟩, small, Leaf.withRights, Leaf.onSmall] at now
    exact kept page _ now ((leafEntry_globalUser nxEnabled entry flags).mpr asks)
  · intro harmless other leaf found both
    rw [touched other] at found
    split at found
    · rename_i visited
      obtain ⟨page, member, same⟩ := visited
      cases before : s.leafAt root other with
      | none =>
        rw [before] at found
        cases found
      | some old =>
        rw [before] at found
        cases old with
        | small entry =>
          cases found
          rw [← s.leafAt_pageNumber root same] at before
          exact harmless ⟨(leafEntry_globalUser nxEnabled entry flags).mp both, page, member, entry, before⟩
        | huge entry =>
          cases found
          exact apart other _ before both
    · exact apart other leaf found both

/-- What one call does: it keeps the tree, and the bits apart unless it grants both. -/
theorem spaceStep_noGlobalUser (tree : TableTree s s.info.rootPml4Phys) {call : SpaceCall}
    (taken : spaceStep s call = .ok (answer, t)) :
    TableTree t t.info.rootPml4Phys ∧ (NoGlobalUser s → (NoGlobalUser t ↔ ¬ call.Grants s)) := by
  have same : TableTree s s.info.rootPml4Phys ∧ (NoGlobalUser s → (NoGlobalUser s ↔ ¬ False)) :=
    ⟨tree, fun apart => iff_of_true apart not_false⟩
  have mapped : ∀ {offsets virtAddr physAddr flags}, RangeMapped s.info.rootPml4Phys virtAddr physAddr flags offsets s t →
      TableTree t t.info.rootPml4Phys ∧ (NoGlobalUser s → (NoGlobalUser t ↔ ¬ False)) := by
    intro offsets virtAddr physAddr flags mapped
    rw [NoGlobalUser, NoGlobalUser, mapped.rootPml4Phys]
    exact ⟨mapped.tree, fun apart => iff_of_true (mapped.leavesApart apart) not_false⟩
  have touched : ∀ {nxEnabled flags pages}, TableTree t s.info.rootPml4Phys →
      t.info.rootPml4Phys = s.info.rootPml4Phys → Touched s.info.rootPml4Phys (Leaf.withRights nxEnabled flags) pages s t →
      TableTree t t.info.rootPml4Phys ∧ (NoGlobalUser s → (NoGlobalUser t ↔ ¬ (AsksGlobalUser flags ∧
        ∃ page ∈ pages, ∃ entry, s.leafAt s.info.rootPml4Phys page = some (.small entry)))) := by
    intro nxEnabled flags pages tree' recorded touched
    rw [NoGlobalUser, NoGlobalUser, recorded]
    exact ⟨tree', touched.leavesApart_iff⟩
  cases call with
  | map virtAddr physAddr flags =>
    obtain ⟨⟨ok, u⟩, called, done⟩ := Lib.bind_ok taken
    cases done
    cases ok with
    | false =>
      rcases pagingMapPage_rebound tree called with ⟨-, rfl, -⟩ | ⟨no, -⟩
      · exact same
      · cases no
    | true =>
      rcases pagingMapPage_rebound tree called with ⟨no, -⟩ | ⟨-, -, rebound⟩
      · cases no
      · have single : RangeMapped s.info.rootPml4Phys virtAddr physAddr flags [0] s t := .cons tree called (.nil rebound.tree)
        exact mapped single
  | mapRange virtAddr physAddr size flags =>
    obtain ⟨⟨ok, u⟩, called, done⟩ := Lib.bind_ok taken
    cases done
    by_cases enters : MapRangeEnters virtAddr physAddr size
    · rw [pagingMapRange_enters enters] at called
      rcases mapRangePages_cases tree enters.fits called with ⟨-, whole⟩ | ⟨-, before, stop, -, part, -⟩
      · exact mapped whole
      · exact mapped part
    · rw [pagingMapRange_refused enters] at called
      cases called
      exact same
  | unmap virtAddr =>
    obtain ⟨⟨unbound, u⟩, called, done⟩ := Lib.bind_ok taken
    cases done
    rcases pagingUnmapPage_rebound tree called with ⟨-, rfl, -⟩ | ⟨entry, -, -, rebound⟩
    · exact same
    · rw [NoGlobalUser, NoGlobalUser, rebound.rootPml4Phys]
      refine ⟨rebound.tree, fun apart => iff_of_true (fun other leaf found => apart other leaf ?_) not_false⟩
      rw [rebound.leaves] at found
      grind
  | protect virtAddr flags =>
    obtain ⟨⟨ok, u⟩, called, done⟩ := Lib.bind_ok taken
    cases done
    obtain ⟨ok', t', called', tree', changed, ⟨-, recorded⟩, -⟩ := pagingProtectPage_touched tree virtAddr flags
    rw [called] at called'
    cases called'
    simpa only [SpaceCall.Grants, List.mem_singleton, exists_eq_left] using touched tree' recorded changed
  | protectRange virtAddr size flags =>
    obtain ⟨⟨ok, u⟩, called, done⟩ := Lib.bind_ok taken
    cases done
    by_cases enters : ProtectRangeEnters virtAddr size
    · obtain ⟨ok', t', called', tree', changed, recorded, -⟩ := pagingProtectRange_enters tree enters flags
      rw [called] at called'
      cases called'
      simpa only [SpaceCall.Grants, enters, true_and, List.mem_map, exists_exists_and_eq_and] using touched tree' recorded changed
    · rw [pagingProtectRange_refused enters] at called
      cases called
      simpa only [SpaceCall.Grants, enters, false_and, and_false] using same

end Calls

/-- No global user page exists at any point of a history after `paging_init` iff no call of it changes
the rights of a page with flags that ask for both. -/
theorem global_user_absent_iff {boot : Boot} {s₀ s t : Paging} {trace : List (SpaceCall × PagingAnswer)}
    (atBoot : AtBoot boot s₀) (init : pagingInit boot s₀ = .ok s) (run : Lib.Steps spaceStep s trace t) :
    (∀ past u, past <+: trace → Lib.Steps spaceStep s past u → NoGlobalUser u) ↔
      ∀ past call answer u, past ++ [(call, answer)] <+: trace → Lib.Steps spaceStep s past u → ¬ SpaceCall.Grants u call :=
  run.always_iff (fun u => TableTree u u.info.rootPml4Phys) NoGlobalUser SpaceCall.Grants
    (fun tree taken => spaceStep_noGlobalUser tree taken)
    (pagingInit_space atBoot init).tree (pagingInit_noGlobalUser atBoot init)

theorem global_user_absent_iff_tiny : ∃ t,
    Lib.Steps spaceStep tinyPagingReady [(.map 0x400000 0x5000 (pagingFlagWritable ||| pagingFlagUser), .flag true)] t ∧
    NoGlobalUser t := by
  obtain ⟨t, run⟩ := Lib.Steps.exists_of_replay (show (Lib.replay spaceStep tinyPagingReady
    [(.map 0x400000 0x5000 (pagingFlagWritable ||| pagingFlagUser), .flag true)]).isSome = true by decide +kernel)
  have started : pagingInit tinyBoot tinyPaging = .ok tinyPagingReady := Lib.eq_ok_outcome _ (by decide +kernel)
  refine ⟨t, run, (global_user_absent_iff tinyPaging_atBoot started run).mpr ?_ _ t List.prefix_rfl run⟩
  intro past call answer u initial _
  cases past with
  | nil =>
    obtain ⟨same, -⟩ := List.cons_prefix_cons.mp initial
    cases same
    exact not_false
  | cons event past =>
    obtain ⟨-, rest⟩ := List.cons_prefix_cons.mp initial
    simp at rest

/-- A page that is open to user mode is made global by a change of its rights. -/
theorem protect_makes_global_user : AtBoot tinyBoot tinyPaging ∧ pagingInit tinyBoot tinyPaging = .ok tinyPagingReady ∧ ∃ t,
    Lib.Steps spaceStep tinyPagingReady
      [(.map 0x400000 0x5000 (pagingFlagWritable ||| pagingFlagUser), .flag true),
        (.protect 0x400000 (pagingFlagUser ||| pagingFlagGlobal), .flag true)] t ∧
    ∃ leaf, t.leafAt t.info.rootPml4Phys 0x400000 = some leaf ∧ GlobalUser leaf.entry := by
  obtain ⟨t, run, passed⟩ := Lib.Steps.exists_of_replay_test (show (Lib.replay spaceStep tinyPagingReady
    [(.map 0x400000 0x5000 (pagingFlagWritable ||| pagingFlagUser), .flag true),
      (.protect 0x400000 (pagingFlagUser ||| pagingFlagGlobal), .flag true)]).any (fun t =>
        (t.leafAt t.info.rootPml4Phys 0x400000).any fun leaf => GlobalUser leaf.entry) = true by decide +kernel)
  obtain ⟨leaf, found, both⟩ := (Option.any_eq_true _ _).mp passed
  exact ⟨tinyPaging_atBoot, Lib.eq_ok_outcome _ (by decide +kernel), t, run, leaf, found, of_decide_eq_true both⟩

end Velox
