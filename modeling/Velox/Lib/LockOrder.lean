import Velox.Lib.LockPaths
import Mathlib.Data.Finset.Basic

namespace Velox.Lib

variable {Lock Switch : Type} {rank : Lock → Nat}

/-- Locks that may be held at each end of a path. -/
abbrev Reach (Lock : Type) := Ending Lock → Finset Lock

/-- What the check says of the end of a path: nothing of a panic. -/
def Climbed (rank : Lock → Nat) (reach : Reach Lock) (held : Finset Lock) : Ending Lock → Prop
  | .spin l => ∀ other ∈ held, rank other < rank l
  | .jump .panic => True
  | ending => held ⊆ reach ending

theorem Climbed.mono {reach more : Reach Lock} (climbed : Climbed rank reach last ending)
    (fewer : reach ending ⊆ more ending) : Climbed rank more last ending := by
  rcases ending with _ | ⟨_ | _ | _ | _⟩ | _ <;> first | exact climbed | exact climbed.trans fewer

theorem Ending.again_iff {ending : Ending Lock} : ending.again = true ↔ ending = .next ∨ ending = .jump .cont := by
  rcases ending with _ | ⟨_ | _ | _ | _⟩ | _ <;> simp [again]

theorem Ending.returns_iff {ending : Ending Lock} : ending.returns = true ↔ ending = .next ∨ ending = .jump .ret := by
  rcases ending with _ | ⟨_ | _ | _ | _⟩ | _ <;> simp [returns]

variable [DecidableEq Lock]

/-- The paths of code whatever other processors do, from the locks that it holds to those that it
holds at the end: any lock may be another's, and the path ends where it waits for it. -/
inductive Walk : LockCode Lock Switch → Finset Lock → Ending Lock → Finset Lock → Prop where
  | skip : Walk .skip held .next held
  | leave : Walk (.leave jump) held (.jump jump) held
  | lock : Walk (.lock l) held .next (insert l held)
  | lockWaits : Walk (.lock l) held (.spin l) held
  | unlock : Walk (.unlock l) held .next (held.erase l)
  | lockIrqsave : Walk (.lockIrqsave l) held .next (insert l held)
  | lockIrqsaveWaits : Walk (.lockIrqsave l) held (.spin l) held
  | unlockIrqrestore : Walk (.unlockIrqrestore l) held .next (held.erase l)
  | seqNext (head : Walk first held .next middle) (tail : Walk second middle ending last) :
      Walk (.seq first second) held ending last
  | seqLeave (head : Walk first held ending last) (leaves : ending ≠ .next) :
      Walk (.seq first second) held ending last
  | branchYes (taken : Walk yes held ending last) : Walk (.branch yes no) held ending last
  | branchNo (taken : Walk no held ending last) : Walk (.branch yes no) held ending last
  | ifOnYes (taken : Walk yes held ending last) : Walk (.ifOn switch yes no) held ending last
  | ifOnNo (taken : Walk no held ending last) : Walk (.ifOn switch yes no) held ending last
  | loopDone : Walk (.loop body) held .next held
  | loopAgain (round : Walk body held ending middle) (again : ending.again = true)
      (rest : Walk (.loop body) middle final last) : Walk (.loop body) held final last
  | loopLeave (round : Walk body held ending last) (leaves : ending.again = false) :
      Walk (.loop body) held ending.afterLoop last
  | callReturns (inner : Walk body held ending last) (returns : ending.returns = true) :
      Walk (.call body) held .next last
  | callStops (inner : Walk body held ending last) (stops : ending.returns = false) :
      Walk (.call body) held ending last

namespace LockCode

/-- The locks that may be held after code: too many rather than too few. -/
def reach : LockCode Lock Switch → Finset Lock → Reach Lock
  | skip, held, ending => if ending = .next then held else ∅
  | leave jump, held, ending => if ending = .jump jump then held else ∅
  | lock l, held, ending | lockIrqsave l, held, ending => if ending = .next then insert l held else ∅
  | unlock l, held, ending | unlockIrqrestore l, held, ending => if ending = .next then held.erase l else ∅
  | seq first second, held, ending =>
    let rest := second.reach (first.reach held .next) ending
    if ending = .next then rest else first.reach held ending ∪ rest
  | branch yes no, held, ending | ifOn _ yes no, held, ending => yes.reach held ending ∪ no.reach held ending
  | loop body, held, ending =>
    if ending = .next then held else if ending = .jump .ret then body.reach held ending else ∅
  | call body, held, ending =>
    if ending = .next then body.reach held .next ∪ body.reach held (.jump .ret)
    else if ending = .jump .ret then ∅ else body.reach held ending

/-- Every lock is taken above those that are held, and a loop's rounds add none. -/
def climbs (rank : Lock → Nat) : LockCode Lock Switch → Finset Lock → Bool
  | lock l, held | lockIrqsave l, held => ∀ other ∈ held, rank other < rank l
  | seq first second, held => first.climbs rank held && second.climbs rank (first.reach held .next)
  | branch yes no, held | ifOn _ yes no, held => yes.climbs rank held && no.climbs rank held
  | loop body, held =>
    body.climbs rank held && [.next, .jump .cont, .jump .brk].all fun ending => body.reach held ending ⊆ held
  | call body, held => body.climbs rank held
  | skip, _ | leave _, _ | unlock _, _ | unlockIrqrestore _, _ => true

end LockCode

open Finset (subset_union_left subset_union_right)

/-- Whatever path code has taken, the lock that it waits for is above those that it holds. -/
theorem Walk.climbed {code : LockCode Lock Switch} (walk : Walk code held ending last)
    (climbs : code.climbs rank most = true) (within : held ⊆ most) : Climbed rank (code.reach most) last ending := by
  induction walk generalizing most with
  | skip | loopDone => exact within
  | @leave jump => cases jump <;> trivial
  | lock | lockIrqsave => exact Finset.insert_subset_insert _ within
  | lockWaits | lockIrqsaveWaits => exact fun other member => of_decide_eq_true climbs other (within member)
  | unlock | unlockIrqrestore => exact Finset.erase_subset_erase _ within
  | seqNext _ _ headIh tailIh =>
    obtain ⟨first, second⟩ := Bool.and_eq_true .. ▸ climbs
    refine (tailIh second (headIh first within)).mono ?_
    rw [LockCode.reach]
    split
    · exact subset_rfl
    · exact subset_union_right
  | seqLeave _ leaves headIh =>
    obtain ⟨first, -⟩ := Bool.and_eq_true .. ▸ climbs
    refine (headIh first within).mono ?_
    rw [LockCode.reach, if_neg leaves]
    exact subset_union_left
  | branchYes _ ih | ifOnYes _ ih =>
    obtain ⟨yes, -⟩ := Bool.and_eq_true .. ▸ climbs
    exact (ih yes within).mono subset_union_left
  | branchNo _ ih | ifOnNo _ ih =>
    obtain ⟨-, no⟩ := Bool.and_eq_true .. ▸ climbs
    exact (ih no within).mono subset_union_right
  | loopAgain _ again _ roundIh restIh =>
    refine restIh climbs ?_
    simp only [LockCode.climbs, Bool.and_eq_true, List.all_eq_true, decide_eq_true_eq] at climbs
    have round := roundIh climbs.1 within
    rcases Ending.again_iff.mp again with rfl | rfl <;> exact round.trans (climbs.2 _ (by simp))
  | @loopLeave _ _ ending _ _ leaves ih =>
    simp only [LockCode.climbs, Bool.and_eq_true, List.all_eq_true, decide_eq_true_eq] at climbs
    have round := ih climbs.1 within
    rcases ending with _ | ⟨_ | _ | _ | _⟩ | l
    · cases leaves
    · exact round.trans (climbs.2 _ (by simp))
    · cases leaves
    · exact round
    · trivial
    · exact round
  | callReturns _ returns ih =>
    have inner := ih climbs within
    rcases Ending.returns_iff.mp returns with rfl | rfl
    · exact inner.trans subset_union_left
    · exact inner.trans subset_union_right
  | callStops _ stops ih =>
    refine (ih climbs within).mono ?_
    rw [LockCode.reach, if_neg (by rintro rfl; cases stops), if_neg (by rintro rfl; cases stops)]

end Velox.Lib
