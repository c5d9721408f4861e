import Mathlib.Logic.Function.Basic

/-! The paths of a function as far as spinlocks go: it takes and gives back locks, calls, and
branches, loops and leaves on data that is not part of the picture. -/

namespace Velox.Lib

/-- The ways to leave a statement other than falling through to the next one. -/
inductive Jump where
  | brk
  | cont
  | ret
  | panic
  deriving DecidableEq, Repr

inductive LockCode (Lock Switch : Type) where
  | skip
  | leave (jump : Jump)
  | lock (l : Lock)
  | unlock (l : Lock)
  /-- `flags = spin_lock_irqsave(&l)`, into the function's own variable. -/
  | lockIrqsave (l : Lock)
  /-- `spin_unlock_irqrestore(&l, flags)`. -/
  | unlockIrqrestore (l : Lock)
  | seq (first second : LockCode Lock Switch)
  /-- A condition on data: either branch may be taken. -/
  | branch (yes no : LockCode Lock Switch)
  /-- A condition on a global switch, which the state knows. -/
  | ifOn (switch : Switch) (yes no : LockCode Lock Switch)
  /-- Any number of rounds. -/
  | loop (body : LockCode Lock Switch)
  | call (body : LockCode Lock Switch)

inductive Ending (Lock : Type) where
  | next
  | jump (jump : Jump)
  /-- The lock is held and nobody on this processor will give it back. -/
  | spin (l : Lock)
  deriving DecidableEq, Repr

/-- A processor: the locks, the interrupt flag, the running function's saved flags and the
global switches. -/
structure LockState (Lock Switch : Type) where
  held : Lock → Bool
  irq : Bool
  flags : Bool
  isOn : Switch → Bool

variable {Lock Switch : Type}

namespace Ending

/-- A loop goes on with its next round. -/
def again : Ending Lock → Bool
  | next => true
  | jump .cont => true
  | _ => false

/-- What the statement after a loop sees. -/
def afterLoop : Ending Lock → Ending Lock
  | jump .brk => next
  | ending => ending

/-- The caller goes on. -/
def returns : Ending Lock → Bool
  | next => true
  | jump .ret => true
  | _ => false

end Ending

namespace LockCode

def block : List (LockCode Lock Switch) → LockCode Lock Switch
  | [] => skip
  | [last] => last
  | first :: rest => seq first (block rest)

/-- `if (..) { body }` for a condition on data. -/
def may (body : LockCode Lock Switch) : LockCode Lock Switch := branch body skip

/-- Every lock the code may take, also in the functions it calls. -/
def takes : LockCode Lock Switch → List Lock
  | skip | leave _ | unlock _ | unlockIrqrestore _ => []
  | lock l | lockIrqsave l => [l]
  | seq first second | branch first second | ifOn _ first second => first.takes ++ second.takes
  | loop body | call body => body.takes

/-- Whether the code reads a switch, also in the functions it calls. -/
def reads [DecidableEq Switch] (switch : Switch) : LockCode Lock Switch → Bool
  | skip | leave _ | lock _ | unlock _ | lockIrqsave _ | unlockIrqrestore _ => false
  | seq first second | branch first second => first.reads switch || second.reads switch
  | ifOn other first second => other == switch || first.reads switch || second.reads switch
  | loop body | call body => body.reads switch

end LockCode

section Semantics

variable [DecidableEq Lock]

namespace LockState

def acquire (s : LockState Lock Switch) (l : Lock) : LockState Lock Switch :=
  { s with held := Function.update s.held l true }

def release (s : LockState Lock Switch) (l : Lock) : LockState Lock Switch :=
  { s with held := Function.update s.held l false }

variable {s : LockState Lock Switch} {l other : Lock}

theorem acquire_self : (s.acquire l).held l = true := Function.update_self ..

theorem acquire_other (apart : other ≠ l) : (s.acquire l).held other = s.held other :=
  Function.update_of_ne apart ..

theorem release_self : (s.release l).held l = false := Function.update_self ..

theorem release_other (apart : other ≠ l) : (s.release l).held other = s.held other :=
  Function.update_of_ne apart ..

end LockState

/-- The finite runs of a piece of code on one processor. A lock that is held stays held, so
taking it again is a run that ends in `spin`. -/
inductive Exec : LockCode Lock Switch → LockState Lock Switch → Ending Lock → LockState Lock Switch → Prop where
  | skip : Exec .skip s .next s
  | leave : Exec (.leave jump) s (.jump jump) s
  | lock (free : s.held l = false) : Exec (.lock l) s .next (s.acquire l)
  | lockSpin (taken : s.held l = true) : Exec (.lock l) s (.spin l) s
  | unlock : Exec (.unlock l) s .next (s.release l)
  | lockIrqsave (free : s.held l = false) :
      Exec (.lockIrqsave l) s .next { s.acquire l with flags := s.irq, irq := false }
  | lockIrqsaveSpin (taken : s.held l = true) : Exec (.lockIrqsave l) s (.spin l) { s with irq := false }
  | unlockIrqrestore : Exec (.unlockIrqrestore l) s .next { s.release l with irq := s.flags }
  | seqNext (head : Exec first s .next t) (tail : Exec second t ending u) : Exec (.seq first second) s ending u
  | seqLeave (head : Exec first s ending t) (leaves : ending ≠ .next) : Exec (.seq first second) s ending t
  | branchYes (taken : Exec yes s ending t) : Exec (.branch yes no) s ending t
  | branchNo (taken : Exec no s ending t) : Exec (.branch yes no) s ending t
  | ifOnYes (on : s.isOn switch = true) (taken : Exec yes s ending t) : Exec (.ifOn switch yes no) s ending t
  | ifOnNo (off : s.isOn switch = false) (taken : Exec no s ending t) : Exec (.ifOn switch yes no) s ending t
  | loopDone : Exec (.loop body) s .next s
  | loopAgain (round : Exec body s ending t) (again : ending.again = true)
      (rest : Exec (.loop body) t final u) : Exec (.loop body) s final u
  | loopLeave (round : Exec body s ending t) (leaves : ending.again = false) : Exec (.loop body) s ending.afterLoop t
  | callReturns (inner : Exec body s ending t) (returns : ending.returns = true) :
      Exec (.call body) s .next { t with flags := s.flags }
  | callStops (inner : Exec body s ending t) (stops : ending.returns = false) : Exec (.call body) s ending t

/-- What a function has taken so far: its locks, and whether it holds interrupts off with the
flag of its entry saved. -/
structure Frame (Lock : Type) where
  held : List Lock := []
  masked : Bool := false
  deriving DecidableEq, Repr

namespace LockCode

/-- Every path from the frame keeps the discipline and ends as `post` allows: no lock is taken
twice, none is given back that was not taken, a loop's rounds leave the frame as it was, and
a called function gives back everything and takes no lock of its caller. A path that panics
need not end in any way. -/
def keeps (isOn : Switch → Bool) : LockCode Lock Switch → (Ending Lock → Frame Lock → Bool) → Frame Lock → Bool
  | skip, post, frame => post .next frame
  | leave jump, post, frame => jump == .panic || post (.jump jump) frame
  | lock l, post, frame =>
    !frame.held.contains l && post .next { frame with held := l :: frame.held }
  | unlock l, post, frame =>
    frame.held.contains l && post .next { frame with held := frame.held.filter (· ≠ l) }
  | lockIrqsave l, post, frame =>
    !frame.held.contains l && !frame.masked && post .next ⟨l :: frame.held, true⟩
  | unlockIrqrestore l, post, frame =>
    frame.held.contains l && frame.masked && post .next ⟨frame.held.filter (· ≠ l), false⟩
  | seq first second, post, frame =>
    first.keeps isOn (fun ending after =>
      if ending = .next then second.keeps isOn post after else post ending after) frame
  | branch yes no, post, frame => yes.keeps isOn post frame && no.keeps isOn post frame
  | ifOn switch yes no, post, frame =>
    if isOn switch then yes.keeps isOn post frame else no.keeps isOn post frame
  | loop body, post, frame =>
    post .next frame && body.keeps isOn (fun ending after =>
      if ending.again then after == frame else post ending.afterLoop after) frame
  | call body, post, frame =>
    body.keeps isOn (fun ending after => ending.returns && after == {}) {} &&
      body.takes.all (fun l => !frame.held.contains l) && post .next frame

/-- The check of a whole function. -/
def balanced (isOn : Switch → Bool) (code : LockCode Lock Switch) : Bool :=
  code.keeps isOn (fun ending after => ending.returns && after == {}) {}

/-- No run spins, and a run that returns leaves every lock and the interrupt flag as they were. -/
def GivesBack (code : LockCode Lock Switch) (s : LockState Lock Switch) : Prop :=
  ∀ {ending t}, Exec code s ending t → ending = .jump .panic ∨ ending.returns = true ∧ t.held = s.held ∧ t.irq = s.irq

end LockCode

/-- A frame describes the processor, relative to the locks and the flag of the entry. -/
structure Fits (entry : Lock → Bool) (irq : Bool) (isOn : Switch → Bool) (frame : Frame Lock)
    (s : LockState Lock Switch) : Prop where
  held : ∀ l, s.held l = (frame.held.contains l || entry l)
  own : ∀ l ∈ frame.held, entry l = false
  unmasked : frame.masked = false → s.irq = irq
  masked : frame.masked = true → s.flags = irq
  isOn : s.isOn = isOn

variable {entry : Lock → Bool} {irq : Bool} {isOn : Switch → Bool} {frame : Frame Lock}
variable {s t : LockState Lock Switch} {l : Lock}

theorem Fits.start (s : LockState Lock Switch) : Fits s.held s.irq s.isOn {} s :=
  ⟨fun l => by simp, fun l member => by simp at member, fun _ => rfl, fun on => by simp at on, rfl⟩

section

variable (fits : Fits entry irq isOn frame s)
include fits

theorem Fits.not_taken (away : frame.held.contains l = false) (free : entry l = false) :
    s.held l = false := by
  rw [fits.held, away, free, Bool.or_self]

theorem Fits.acquire (free : entry l = false) :
    (∀ other, (s.acquire l).held other = ((l :: frame.held).contains other || entry other)) ∧
      ∀ other ∈ l :: frame.held, entry other = false := by
  refine ⟨fun other => ?_, List.forall_mem_cons.mpr ⟨free, fits.own⟩⟩
  by_cases same : other = l
  · subst same
    rw [LockState.acquire_self, List.contains_cons, beq_self_eq_true, Bool.true_or, Bool.true_or]
  · rw [LockState.acquire_other same, fits.held, List.contains_cons, beq_false_of_ne same, Bool.false_or]

theorem Fits.release (member : frame.held.contains l = true) :
    (∀ other, (s.release l).held other = ((frame.held.filter (· ≠ l)).contains other || entry other)) ∧
      ∀ other ∈ frame.held.filter (· ≠ l), entry other = false := by
  refine ⟨fun other => ?_, fun other kept => fits.own other (List.mem_filter.mp kept).1⟩
  by_cases same : other = l
  · subst same
    have gone : (frame.held.filter (· ≠ other)).contains other = false := by simp
    rw [LockState.release_self, gone, fits.own other (List.contains_iff_mem.mp member), Bool.or_self]
  grind [LockState.release_other, held]

theorem Fits.lock (free : entry l = false) :
    Fits entry irq isOn { frame with held := l :: frame.held } (s.acquire l) :=
  ⟨(fits.acquire free).1, (fits.acquire free).2, fits.unmasked, fits.masked, fits.isOn⟩

theorem Fits.unlock (member : frame.held.contains l = true) :
    Fits entry irq isOn { frame with held := frame.held.filter (· ≠ l) } (s.release l) :=
  ⟨(fits.release member).1, (fits.release member).2, fits.unmasked, fits.masked, fits.isOn⟩

/-- The flag of the entry is saved when interrupts have not been held off before. -/
theorem Fits.lockIrqsave (unmasked : frame.masked = false) (free : entry l = false) :
    Fits entry irq isOn ⟨l :: frame.held, true⟩ { s.acquire l with flags := s.irq, irq := false } :=
  ⟨(fits.acquire free).1, (fits.acquire free).2, nofun, fun _ => fits.unmasked unmasked, fits.isOn⟩

theorem Fits.unlockIrqrestore (masked : frame.masked = true)
    (member : frame.held.contains l = true) :
    Fits entry irq isOn ⟨frame.held.filter (· ≠ l), false⟩ { s.release l with irq := s.flags } :=
  ⟨(fits.release member).1, (fits.release member).2, fun _ => fits.masked masked, nofun, fits.isOn⟩

/-- The frame of the callee is empty; the caller's frame describes the processor again once
the callee has given everything back. -/
theorem Fits.returned (inner : Fits s.held s.irq isOn {} t) :
    Fits entry irq isOn frame { t with flags := s.flags } where
  held l := by
    have same := inner.held l
    exact same.trans (fits.held l)
  own := fits.own
  unmasked off := (inner.unmasked rfl).trans (fits.unmasked off)
  masked on := fits.masked on
  isOn := inner.isOn

end

/-- What the check says of one run: it panics, or it ends, without spinning, in a frame that
`post` allows. -/
def Ends (entry : Lock → Bool) (irq : Bool) (isOn : Switch → Bool)
    (post : Ending Lock → Frame Lock → Bool) (ending : Ending Lock)
    (t : LockState Lock Switch) : Prop :=
  ending = .jump .panic ∨ (∀ l, ending ≠ .spin l) ∧ ∃ after, post ending after = true ∧ Fits entry irq isOn after t

theorem Ends.mono {post : Ending Lock → Frame Lock → Bool} {ending : Ending Lock}
    (ends : Ends entry irq isOn post ending t)
    (weaken : ∀ after, post ending after = true → weaker ending after = true) :
    Ends entry irq isOn weaker ending t := by
  rcases ends with panics | ⟨calm, after, allowed, fits⟩
  · exact .inl panics
  · exact .inr ⟨calm, after, weaken after allowed, fits⟩

theorem LockCode.keeps_call {post : Ending Lock → Frame Lock → Bool}
    (kept : (call body).keeps isOn post frame = true) :
    body.balanced isOn = true ∧ (∀ l ∈ body.takes, frame.held.contains l = false) ∧ post .next frame = true := by
  simp only [keeps, Bool.and_eq_true, List.all_eq_true, Bool.not_eq_true'] at kept
  exact ⟨kept.1.1, kept.1.2, kept.2⟩

/-- Every run of code that passes the check ends as the check says. The induction is on the
run, so that a loop's later rounds are covered by the same frame as its first. -/
theorem Exec.ends {code : LockCode Lock Switch} {ending : Ending Lock} {post : Ending Lock → Frame Lock → Bool}
    (run : Exec code s ending t) (kept : code.keeps isOn post frame = true) (free : ∀ l ∈ code.takes, entry l = false)
    (fits : Fits entry irq isOn frame s) : Ends entry irq isOn post ending t := by
  induction run generalizing entry irq isOn post frame with
  | skip =>
    exact .inr ⟨nofun, frame, kept, fits⟩
  | @leave jump s =>
    rcases Bool.or_eq_true .. ▸ kept with panics | allowed
    · exact .inl (by grind)
    · exact .inr ⟨nofun, frame, allowed, fits⟩
  | lock _ =>
    simp only [LockCode.keeps, Bool.and_eq_true] at kept
    exact .inr ⟨nofun, _, kept.2, fits.lock (free _ List.mem_cons_self)⟩
  | lockSpin taken =>
    simp only [LockCode.keeps, Bool.and_eq_true, Bool.not_eq_true'] at kept
    rw [fits.not_taken kept.1 (free _ List.mem_cons_self)] at taken
    grind
  | unlock =>
    simp only [LockCode.keeps, Bool.and_eq_true] at kept
    exact .inr ⟨nofun, _, kept.2, fits.unlock kept.1⟩
  | lockIrqsave _ =>
    simp only [LockCode.keeps, Bool.and_eq_true, Bool.not_eq_true'] at kept
    exact .inr ⟨nofun, _, kept.2, fits.lockIrqsave kept.1.2 (free _ List.mem_cons_self)⟩
  | lockIrqsaveSpin taken =>
    simp only [LockCode.keeps, Bool.and_eq_true, Bool.not_eq_true'] at kept
    rw [fits.not_taken kept.1.1 (free _ List.mem_cons_self)] at taken
    grind
  | unlockIrqrestore =>
    simp only [LockCode.keeps, Bool.and_eq_true] at kept
    exact .inr ⟨nofun, _, kept.2, fits.unlockIrqrestore kept.1.2 kept.1.1⟩
  | seqNext _ _ headIh tailIh =>
    rcases headIh kept (fun l member => free l (List.mem_append_left _ member)) fits with
      panics | ⟨-, middle, onward, fits⟩
    · cases panics
    · dsimp only at onward
      rw [if_pos rfl] at onward
      exact tailIh onward (fun l member => free l (List.mem_append_right _ member)) fits
  | seqLeave _ leaves headIh =>
    refine (headIh kept (fun l member => free l (List.mem_append_left _ member)) fits).mono ?_
    grind
  | branchYes _ ih =>
    obtain ⟨kept, -⟩ := Bool.and_eq_true .. ▸ kept
    exact ih kept (fun l member => free l (List.mem_append_left _ member)) fits
  | branchNo _ ih =>
    obtain ⟨-, kept⟩ := Bool.and_eq_true .. ▸ kept
    exact ih kept (fun l member => free l (List.mem_append_right _ member)) fits
  | ifOnYes on _ ih =>
    rw [LockCode.keeps, ← fits.isOn, if_pos on, fits.isOn] at kept
    exact ih kept (fun l member => free l (List.mem_append_left _ member)) fits
  | ifOnNo off _ ih =>
    rw [LockCode.keeps, ← fits.isOn, if_neg (Bool.eq_false_iff.mp off), fits.isOn] at kept
    exact ih kept (fun l member => free l (List.mem_append_right _ member)) fits
  | loopDone =>
    obtain ⟨allowed, -⟩ := Bool.and_eq_true .. ▸ kept
    exact .inr ⟨nofun, frame, allowed, fits⟩
  | loopAgain _ again _ roundIh restIh =>
    obtain ⟨-, round⟩ := Bool.and_eq_true .. ▸ kept
    rcases roundIh round free fits with panics | ⟨-, after, same, fits⟩
    · rw [panics] at again
      exact absurd again Bool.false_ne_true
    grind
  | @loopLeave body s ending t _ leaves roundIh =>
    obtain ⟨-, round⟩ := Bool.and_eq_true .. ▸ kept
    rcases roundIh round free fits with panics | ⟨calm, after, allowed, fits⟩
    · exact .inl (by rw [panics, Ending.afterLoop]; rintro ⟨⟩)
    · dsimp only at allowed
      rw [if_neg (Bool.eq_false_iff.mp leaves)] at allowed
      refine .inr ⟨fun l => ?_, after, allowed, fits⟩
      unfold Ending.afterLoop
      grind
  | callReturns _ returns ih =>
    obtain ⟨body, apart, allowed⟩ := LockCode.keeps_call kept
    have unheld : ∀ l ∈ _, _ := fun l member => fits.not_taken (apart l member) (free l member)
    rcases ih body unheld (fits.isOn ▸ Fits.start _) with panics | ⟨-, after, given, inner⟩
    · rw [panics] at returns
      exact absurd returns Bool.false_ne_true
    · rw [Bool.and_eq_true, beq_iff_eq] at given
      exact .inr ⟨nofun, frame, allowed, fits.returned (given.2 ▸ inner)⟩
  | callStops _ stops ih =>
    obtain ⟨body, apart, -⟩ := LockCode.keeps_call kept
    have unheld : ∀ l ∈ _, _ := fun l member => fits.not_taken (apart l member) (free l member)
    rcases ih body unheld (fits.isOn ▸ Fits.start _) with panics | ⟨-, after, given, -⟩
    · exact .inl panics
    grind

/-- A function that passes the check gives back every lock it takes. -/
theorem LockCode.givesBack_of_balanced {code : LockCode Lock Switch}
    (balanced : code.balanced s.isOn = true) (free : ∀ l ∈ code.takes, s.held l = false) :
    code.GivesBack s := by
  intro ending t run
  rcases run.ends balanced free (Fits.start s) with panics | ⟨-, after, given, fits⟩
  · exact .inl panics
  · rw [Bool.and_eq_true, beq_iff_eq] at given
    obtain ⟨returns, same⟩ := given
    subst same
    refine .inr ⟨returns, funext fun l => ?_, fits.unmasked rfl⟩
    have held := fits.held l
    grind

theorem LockCode.GivesBack.calm {code : LockCode Lock Switch} (gives : code.GivesBack s) :
    ¬ Exec code s (.spin l) t := by
  intro run
  rcases gives run with panics | ⟨returns, -⟩
  · cases panics
  · cases returns

/-- The check depends on the switches the code reads. -/
theorem LockCode.keeps_congr [DecidableEq Switch] {code : LockCode Lock Switch}
    (same : ∀ switch, code.reads switch = true → isOn switch = isOn' switch) :
    ∀ post frame, code.keeps isOn post frame = code.keeps isOn' post frame := by
  induction code with
  | skip | leave | lock | unlock | lockIrqsave | unlockIrqrestore => exact fun _ _ => rfl
  | seq first second firstIh secondIh =>
    intro post frame
    have head := firstIh fun switch used => same switch (by rw [reads, used, Bool.true_or])
    have tail := secondIh fun switch used => same switch (by rw [reads, used, Bool.or_true])
    simp only [keeps, head, tail]
  | branch yes no yesIh noIh =>
    intro post frame
    have first := yesIh fun switch used => same switch (by rw [reads, used, Bool.true_or])
    have second := noIh fun switch used => same switch (by rw [reads, used, Bool.or_true])
    rw [keeps, keeps, first, second]
  | ifOn switch yes no yesIh noIh =>
    intro post frame
    have first := yesIh fun switch used => same switch (by rw [reads, used, Bool.or_true, Bool.true_or])
    have second := noIh fun switch used => same switch (by rw [reads, used, Bool.or_true])
    have here := same switch (by rw [reads, beq_self_eq_true, Bool.true_or, Bool.true_or])
    rw [keeps, keeps, first, second, here]
  | loop body ih =>
    intro post frame
    rw [keeps, keeps, ih same]
  | call body ih =>
    intro post frame
    rw [keeps, keeps, ih same]

theorem LockCode.balanced_congr [DecidableEq Switch] {code : LockCode Lock Switch}
    (same : ∀ switch, code.reads switch = true → isOn switch = isOn' switch) :
    code.balanced isOn = code.balanced isOn' :=
  keeps_congr same _ _

end Semantics

end Velox.Lib
