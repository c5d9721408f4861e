import Velox.Mm.Handover
import Mathlib.Data.List.Rotate

namespace Velox

/-- A search that starts in the middle of a list and goes around finds what a search from its
head finds, if nothing before the middle is looked for. -/
theorem find?_rotate {α : Type} {list : List α} {test : α → Bool} {start : Nat} (inside : start ≤ list.length)
    (nothing : ∀ a ∈ list.take start, test a = false) : (list.rotate start).find? test = list.find? test := by
  grind [List.rotate_eq_drop_append_take, List.take_append_drop]

namespace Pmm

/-- The scan of the allocator without a hint. -/
def lowestFree (s : Pmm) : Option Nat := (List.range s.info.totalPages).find? fun page => !s.bitTest page

theorem lowestFree_eq_some {s : Pmm} : s.lowestFree = some page ↔
    page < s.info.totalPages ∧ s.bitTest page = false ∧ ∀ lower < page, s.bitTest lower = true := by
  rw [lowestFree, List.find?_range_eq_some]
  grind

theorem lowestFree_eq_none {s : Pmm} : s.lowestFree = none ↔ ∀ page < s.info.totalPages, s.bitTest page = true := by
  simp [lowestFree]

/-- Every frame below the hint is used. -/
structure Hinted (s : Pmm) : Prop extends s.Ready where
  lower : ∀ page < s.nextSearch, s.bitTest page = true

variable {s t : Pmm}

/-- The frames in the order of the scan. -/
theorem scan_eq_rotate {start : Nat} (inside : start < s.info.totalPages) :
    (List.range s.info.totalPages).map (s.scanPage start) = (List.range s.info.totalPages).rotate start := by
  apply List.ext_getElem
  · simp
  · intro k below _
    simp only [List.length_map, List.length_range] at below
    simp only [List.getElem_map, List.getElem_range, List.getElem_rotate, List.length_range, scanPage]
    split
    · rw [show k + start = start + k - s.info.totalPages + s.info.totalPages by omega, Nat.add_mod_right,
        Nat.mod_eq_of_lt (by omega)]
    · rw [Nat.mod_eq_of_lt (by omega), Nat.add_comm]

/-- The scan from the hint finds the lowest free frame. -/
theorem Hinted.find?_scan (hinted : s.Hinted) :
    ((List.range s.info.totalPages).map (s.scanPage s.nextSearch)).find? (fun page => !s.bitTest page) =
      s.lowestFree := by
  have inside := hinted.hint
  rw [scan_eq_rotate inside]
  apply find?_rotate
  · grind
  grind [lower]

/-- The frames that the scan comes to behind the end of memory are all used. -/
theorem Hinted.wrapped (hinted : s.Hinted) (steps : scanned < s.info.totalPages)
    (around : s.info.totalPages ≤ s.nextSearch + scanned) :
    s.bitTest (s.scanPage s.nextSearch scanned) = true := by
  apply hinted.lower
  simp only [scanPage, ge_iff_le, around, ↓reduceIte]
  omega

end Pmm

variable {s t : Pmm}

theorem pmmTryAllocPagePhys_eq (hinted : s.Hinted) : pmmTryAllocPagePhys s = match s.lowestFree with
      | none => (none, s)
      | some page => (some (page * pmmPageSize),
          { s.markPageUsed page with nextSearch := if page + 1 ≥ s.info.totalPages then 0 else page + 1 }) := by
  by_cases full : s.info.freePages = 0
  · have none' : s.lowestFree = none := by
      rw [Pmm.lowestFree_eq_none]
      intro page below
      by_contra clear
      rw [hinted.free] at full
      exact Nat.count_iff_forall_not.mp full page below (by simpa using clear)
    simp [pmmTryAllocPagePhys, full, none']
  · unfold pmmTryAllocPagePhys
    have positive := hinted.positive
    have inside := hinted.hint
    cases found : s.lowestFree <;>
      simp [hinted.initialized, full, Nat.ne_of_gt positive, Nat.not_le.mpr inside, hinted.find?_scan, found]

theorem pmmTryAllocPagePhys_hinted (hinted : s.Hinted) : (pmmTryAllocPagePhys s).2.Hinted := by
  refine ⟨pmmTryAllocPagePhys_ready hinted.toReady, ?_⟩
  rw [pmmTryAllocPagePhys_eq hinted]
  cases found : s.lowestFree with
  | none => exact hinted.lower
  | some page =>
    obtain ⟨below, -, earlier⟩ := Pmm.lowestFree_eq_some.mp found
    intro lower smaller
    change (s.markPageUsed page).bitTest lower = true
    rw [Pmm.markPageUsed_bitTest]
    grind

theorem pmmFreePagePhys_hinted (hinted : s.Hinted) (physAddr : Nat) : (pmmFreePagePhys s physAddr).Hinted := by
  refine ⟨pmmFreePagePhys_ready hinted.toReady physAddr, ?_⟩
  intro lower smaller
  rw [pmmFreePagePhys_bitTest]
  by_cases frees : s.Frees physAddr
  · rw [pmmFreePagePhys_of_frees frees] at smaller
    have both : lower < physAddr / 4096 ∧ lower < s.nextSearch := lt_min_iff.mp smaller
    exact ⟨hinted.lower lower both.2, fun same => absurd same.2 both.1.ne⟩
  · rw [pmmFreePagePhys_ignored frees] at smaller
    exact ⟨hinted.lower lower smaller, fun same => frees same.1⟩

theorem pmmInit_hinted (started : pmmInit boot s₀ = .ok s) : s.Hinted := by
  have ready := pmmInit_ready started
  refine ⟨ready, ?_⟩
  obtain ⟨total, bytes, base, marked, -, -, -, -, markedEq, rfl⟩ := pmmInit_ok started
  intro lower smaller
  have zero : lower = 0 := by
    grind
  subst zero
  have positive : 0 < marked.info.totalPages := ready.positive
  rw [markedEq, Pmm.markPageUsed_totalPages] at positive
  change marked.bitTest 0 = true
  rw [markedEq, Pmm.markPageUsed_bitTest, Bool.or_eq_true]
  grind

/-- What happens to the allocator after `pmm_init`: the calls of its clients, with any argument,
and the reclaim of the boot loader's memory. -/
inductive PmmEvent where
  | call (call : PmmCall)
  | reclaim (skipPhysStart skipPhysEnd : Nat)
deriving DecidableEq, Repr

def pmmEventStep (boot : Boot) (s : Pmm) : PmmEvent → Except Panic (Option Nat × Pmm)
  | .call call => pmmStep s call
  | .reclaim skipPhysStart skipPhysEnd =>
    .ok (none, (reclaimBootloaderReclaimable boot.memoryMap s skipPhysStart skipPhysEnd).2)

theorem pmmEventStep_hinted (hinted : s.Hinted)
    (taken : pmmEventStep boot s event = .ok (answer, t)) : t.Hinted := by
  cases event with
  | call call =>
    cases call with
    | tryAlloc =>
      have next : (pmmTryAllocPagePhys s).2 = t := congrArg Prod.snd (Except.ok.inj taken)
      exact next ▸ pmmTryAllocPagePhys_hinted hinted
    | free physAddr =>
      cases taken
      exact pmmFreePagePhys_hinted hinted physAddr
  | reclaim skipPhysStart skipPhysEnd =>
    cases taken
    rw [reclaim_eq_foldl]
    exact List.foldlRecOn _ _ hinted fun _ kept phys _ => pmmFreePagePhys_hinted kept phys

/-- In every state that a history of the allocator leads to, an allocation answers with what the
scan from frame 0 finds: it succeeds iff a frame is free, with the lowest one, and the part of its
own scan that wraps around finds nothing. -/
theorem search_hint_transparent (boot : Boot) (s₀ s t : Pmm) (trace : List (PmmEvent × Option Nat))
    (started : pmmInit boot s₀ = .ok s) (run : Lib.Steps (pmmEventStep boot) s trace t) :
    (pmmTryAllocPagePhys t).1 = t.lowestFree.map (· * pmmPageSize) ∧
    ((pmmTryAllocPagePhys t).1 ≠ none ↔ ∃ page < t.info.totalPages, t.bitTest page = false) ∧
    (∀ frame, (pmmTryAllocPagePhys t).1 = some frame ↔ ∃ page < t.info.totalPages, frame = page * pmmPageSize ∧
      t.bitTest page = false ∧ ∀ lower < page, t.bitTest lower = true) ∧
    t.nextSearch < t.info.totalPages ∧
    ∀ scanned < t.info.totalPages, t.info.totalPages ≤ t.nextSearch + scanned →
      t.bitTest (t.scanPage t.nextSearch scanned) = true := by
  have hinted : t.Hinted := run.invariant Pmm.Hinted pmmEventStep_hinted (pmmInit_hinted started)
  have answer : (pmmTryAllocPagePhys t).1 = t.lowestFree.map (· * pmmPageSize) := by
    grind [pmmTryAllocPagePhys_eq]
  refine ⟨answer, ?_, fun frame => ?_, hinted.hint, fun scanned steps around => hinted.wrapped steps around⟩
  · rw [answer, Ne, Option.map_eq_none_iff, Pmm.lowestFree_eq_none]
    simp
  · rw [answer, Option.map_eq_some_iff]
    constructor
    · rintro ⟨page, found, rfl⟩
      obtain ⟨below, clear, earlier⟩ := Pmm.lowestFree_eq_some.mp found
      grind
    · rintro ⟨page, below, rfl, clear, earlier⟩
      exact ⟨page, Pmm.lowestFree_eq_some.mpr ⟨below, clear, earlier⟩, rfl⟩

theorem search_hint_transparent_tiny :
    ∃ s t, pmmInit tinyBoot blankPmm = .ok s ∧
      Lib.Steps (pmmEventStep tinyBoot) s
        [(.call .tryAlloc, some 0x1000), (.reclaim 0 0, none), (.call (.free 0x1000), none)] t ∧
      (pmmTryAllocPagePhys t).1 = t.lowestFree.map (· * pmmPageSize) := by
  have started : pmmInit tinyBoot blankPmm = .ok (Lib.outcome blankPmm (pmmInit tinyBoot blankPmm)) :=
    Lib.eq_ok_outcome _ (by decide +kernel)
  obtain ⟨t, run⟩ : ∃ t, Lib.Steps (pmmEventStep tinyBoot) (Lib.outcome blankPmm (pmmInit tinyBoot blankPmm))
      [(.call .tryAlloc, some 0x1000), (.reclaim 0 0, none), (.call (.free 0x1000), none)] t :=
    Lib.Steps.exists_of_replay (by decide +kernel)
  exact ⟨_, t, started, run, (search_hint_transparent _ _ _ _ _ started run).1⟩

end Velox
