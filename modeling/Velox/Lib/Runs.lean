import Mathlib.Init

/-! Finite runs of a deterministic machine whose operations answer with an
output or abort. An aborted operation never extends a run. -/

namespace Velox.Lib

universe u

variable {State : Type u} {Op Output Fault : Type}

/-- The completed operations from one state to another, with their answers. -/
inductive Steps (step : State → Op → Except Fault (Output × State)) : State → List (Op × Output) → State → Prop where
  | done : Steps step state [] state
  | more (first : step state op = .ok (output, middle))
      (rest : Steps step middle trace final) :
      Steps step state ((op, output) :: trace) final

variable {step : State → Op → Except Fault (Output × State)}
variable {start middle final : State}

theorem Steps.single (taken : step start op = .ok (output, final)) : Steps step start [(op, output)] final :=
  .more taken .done

/-- Split a run at any point of its trace. -/
theorem Steps.split {first : List (Op × Output)} (run : Steps step start (first ++ second) final) :
    ∃ middle, Steps step start first middle ∧ Steps step middle second final := by
  induction first generalizing start with
  | nil => exact ⟨start, .done, run⟩
  | cons event rest ih =>
    cases run with
    | more taken remaining =>
      obtain ⟨middle, before, after⟩ := ih remaining
      exact ⟨middle, .more taken before, after⟩

/-- What every operation preserves holds at the end of every run. -/
theorem Steps.invariant (Holds : State → Prop)
    (preserved : ∀ {state op output next}, Holds state →
      step state op = .ok (output, next) → Holds next) (initial : Holds start)
    (run : Steps step start trace final) : Holds final := by
  induction run with
  | done => exact initial
  | more taken _ ih => grind

/-- The invariant rule for what relates a state to the trace that led there. -/
theorem Steps.invariant_trace (Holds : List (Op × Output) → State → Prop)
    (preserved : ∀ {past state op output next}, Holds past state →
      step state op = .ok (output, next) → Holds (past ++ [(op, output)]) next)
    {past : List (Op × Output)} (initial : Holds past start) (run : Steps step start trace final) :
    Holds (past ++ trace) final := by
  induction run generalizing past with
  | done => rwa [List.append_nil]
  | more taken _ ih =>
    grind

/-- A property that one kind of operation breaks and no other one does holds all along a run iff no
such operation occurs in it. -/
theorem Steps.always_iff (Inv Good : State → Prop) (Bad : State → Op → Prop)
    (kept : ∀ {state op output next}, Inv state → step state op = .ok (output, next) →
      Inv next ∧ (Good state → (Good next ↔ ¬ Bad state op))) (initial : Inv start)
    (good : Good start) (run : Steps step start trace final) :
    (∀ past state, past <+: trace → Steps step start past state → Good state) ↔
      ∀ past op output state, past ++ [(op, output)] <+: trace → Steps step start past state → ¬ Bad state op := by
  induction run with
  | done =>
    constructor
    · simp
    · intro _ past state initial' run
      cases List.prefix_nil.mp initial'
      cases run
      exact good
  | @more start op output middle trace final first rest ih =>
    obtain ⟨inv, effect⟩ := kept initial first
    -- A run along a later prefix passes through the same second state.
    have onward : ∀ {past state}, Steps step start ((op, output) :: past) state → Steps step middle past state := by
      intro past state run
      cases run with
      | more first' rest' =>
        grind
    constructor
    · intro always past op' output' state initial' run
      cases past with
      | nil =>
        cases run
        obtain ⟨same, -⟩ := List.cons_prefix_cons.mp initial'
        cases same
        exact (effect good).mp (always [(op, output)] middle (List.cons_prefix_cons.mpr ⟨rfl, List.nil_prefix⟩) (.single first))
      | cons event past =>
        obtain ⟨rfl, initial''⟩ := List.cons_prefix_cons.mp initial'
        have good' := always [(op, output)] middle (List.cons_prefix_cons.mpr ⟨rfl, List.nil_prefix⟩) (.single first)
        refine (ih inv good').mp (fun past' state' within run' => ?_) past op' output' state initial'' (onward run)
        exact always ((op, output) :: past') state' (List.cons_prefix_cons.mpr ⟨rfl, within⟩) (.more first run')
    · intro never past state initial' run
      cases past with
      | nil =>
        cases run
        exact good
      | cons event past =>
        obtain ⟨rfl, initial''⟩ := List.cons_prefix_cons.mp initial'
        have good' := (effect good).mpr (never [] op output start (List.cons_prefix_cons.mpr ⟨rfl, List.nil_prefix⟩) .done)
        refine (ih inv good').mpr (fun past' op' output' state' within run' => ?_) past state initial'' (onward run)
        exact never ((op, output) :: past') op' output' state' (List.cons_prefix_cons.mpr ⟨rfl, within⟩) (.more first run')

/-- Forward simulation: a concrete run is matched, operation for operation and
answer for answer, by a run of the abstract machine. -/
theorem Steps.simulation {Abstract : Type u} {Fault' : Type}
    {abstractStep : Abstract → Op → Except Fault' (Output × Abstract)}
    (Related : State → Abstract → Prop) (Allowed : Op → Prop)
    (matched : ∀ {state op output next abstract}, Related state abstract → Allowed op →
      step state op = .ok (output, next) →
      ∃ abstract', abstractStep abstract op = .ok (output, abstract') ∧ Related next abstract')
    {abstract : Abstract} (initial : Related start abstract)
    (allowed : ∀ event ∈ trace, Allowed event.1) (run : Steps step start trace final) :
    ∃ abstract', Steps abstractStep abstract trace abstract' ∧ Related final abstract' := by
  induction run generalizing abstract with
  | done => exact ⟨abstract, .done, initial⟩
  | more taken _ ih =>
    obtain ⟨next, answered, related⟩ := matched initial (allowed _ List.mem_cons_self) taken
    obtain ⟨last, rest, finished⟩ :=
      ih related (fun event member => allowed event (List.mem_cons_of_mem _ member))
    exact ⟨last, .more answered rest, finished⟩

/-- Run a machine along a trace, as long as it answers as the trace says. -/
def replay [DecidableEq Output] (step : State → Op → Except Fault (Output × State)) :
    State → List (Op × Output) → Option State
  | state, [] => some state
  | state, (op, expected) :: trace =>
    match step state op with
    | .ok (output, next) => if output = expected then replay step next trace else none
    | .error _ => none

theorem Steps.of_replay [DecidableEq Output] (replayed : replay step start trace = some final) :
    Steps step start trace final := by
  induction trace generalizing start with
  | nil =>
    cases replayed
    exact .done
  | cons event rest ih =>
    simp only [replay] at replayed
    split at replayed
    · rename_i output next taken
      split at replayed
      · rename_i same
        exact .more (same ▸ taken) (ih replayed)
      · cases replayed
    · cases replayed

/-- A replayed trace together with a test of the state it ends in. -/
theorem Steps.exists_of_replay_test [DecidableEq Output]
    (replayed : (replay step start trace).any test = true) :
    ∃ final, Steps step start trace final ∧ test final = true := by
  cases ended : replay step start trace with
  | none => simp [ended] at replayed
  | some final => grind [of_replay]

theorem Steps.exists_of_replay [DecidableEq Output]
    (replayed : (replay step start trace).isSome = true) : ∃ final, Steps step start trace final :=
  (Option.isSome_iff_exists.mp replayed).imp fun _ => .of_replay

/-- The value of a computation that is known to finish. -/
def outcome {α ε : Type} (fallback : α) : Except ε α → α
  | .ok value => value
  | .error _ => fallback

theorem eq_ok_outcome {α ε : Type} {result : Except ε α} (fallback : α)
    (finished : result.isOk = true) : result = .ok (outcome fallback result) := by
  cases result with
  | ok value => rfl
  | error fault => cases finished

/-- A computation whose value passes a test has a value. -/
theorem exists_ok_of_test {α ε : Type} {result : Except ε α} {test : α → Bool}
    (passed : result.toOption.any test = true) : ∃ value, result = .ok value ∧ test value = true := by
  cases result with
  | ok value => exact ⟨value, rfl, passed⟩
  | error fault => cases passed

/-- Why a computation aborted. -/
def fault? {α ε : Type} : Except ε α → Option ε
  | .ok _ => none
  | .error fault => some fault

theorem eq_error_of_fault {α ε : Type} {result : Except ε α} {fault : ε} (aborted : fault? result = some fault) :
    result = .error fault := by
  cases result with
  | ok value => cases aborted
  | error cause =>
    cases aborted
    rfl

/-- A sequence that finished got a value from its first part. -/
theorem bind_ok {α β ε : Type} {first : Except ε α} {next : α → Except ε β} {result : β}
    (done : (first >>= next) = .ok result) : ∃ value, first = .ok value ∧ next value = .ok result := by
  cases first with
  | ok value => exact ⟨value, rfl, done⟩
  | error fault => cases done

/-- A sequence goes on with the value of its first part. -/
theorem bind_of_ok {α β ε : Type} {first : Except ε α} {next : α → Except ε β} {value : α}
    (done : first = .ok value) : (first >>= next) = next value := by
  rw [done]
  rfl

/-- A sequence finishes iff its parts do. -/
theorem bind_returns_iff {α β ε : Type} {first : Except ε α} {next : α → Except ε β} :
    (∃ result, (first >>= next) = .ok result) ↔ ∃ value, first = .ok value ∧ ∃ result, next value = .ok result := by
  constructor
  · rintro ⟨result, done⟩
    obtain ⟨value, started, done⟩ := bind_ok done
    grind
  · rintro ⟨value, started, result, done⟩
    exact ⟨result, (bind_of_ok started).trans done⟩

/-- A sequence that aborted did so in its first part, or after it. -/
theorem bind_error {α β ε : Type} {first : Except ε α} {next : α → Except ε β} {fault : ε}
    (halted : (first >>= next) = .error fault) :
    first = .error fault ∨ ∃ value, first = .ok value ∧ next value = .error fault := by
  cases first with
  | ok value => exact .inr ⟨value, rfl, halted⟩
  | error cause =>
    cases halted
    exact .inl rfl

/-- What every pass of a loop that may abort preserves holds after the loop. -/
theorem foldlM_invariant_mem {α β ε : Type} {body : α → β → Except ε α} (Holds : α → Prop) {items : List β}
    (preserved : ∀ {state item next}, item ∈ items → Holds state → body state item = .ok next → Holds next)
    {start final : α} (initial : Holds start) (done : items.foldlM body start = .ok final) : Holds final := by
  induction items generalizing start with
  | nil =>
    cases done
    exact initial
  | cons item rest ih =>
    grind [bind_ok]

/-- An invariant that speaks of the items already passed. -/
theorem foldlM_progress {α β ε : Type} {body : α → β → Except ε α} (Holds : List β → α → Prop) {items : List β}
    (preserved : ∀ {passed state item next}, item ∈ items → Holds passed state → body state item = .ok next →
      Holds (passed ++ [item]) next)
    {start final : α} (initial : Holds [] start) (done : items.foldlM body start = .ok final) : Holds items final := by
  suffices onward : ∀ (rest passed : List β) (state : α), (∀ item ∈ rest, item ∈ items) → Holds passed state →
      rest.foldlM body state = .ok final → Holds (passed ++ rest) final from
    onward items [] start (fun _ member => member) initial done
  intro rest
  induction rest with
  | nil =>
    intro passed state _ holds done
    cases done
    rwa [List.append_nil]
  | cons item rest ih =>
    intro passed state within holds done
    obtain ⟨next, first, remaining⟩ := bind_ok done
    have stepped := preserved (within item List.mem_cons_self) holds first
    have ended := ih (passed ++ [item]) next (fun _ member => within _ (List.mem_cons_of_mem _ member)) stepped remaining
    grind

/-- A loop whose passes all succeed where its invariant holds. -/
theorem foldlM_total {α β ε : Type} {body : α → β → Except ε α} (Holds : List β → α → Prop) {items : List β}
    (passes : ∀ {passed item rest state}, items = passed ++ item :: rest → Holds passed state →
      ∃ next, body state item = .ok next ∧ Holds (passed ++ [item]) next)
    {start : α} (initial : Holds [] start) : ∃ final, items.foldlM body start = .ok final := by
  suffices onward : ∀ (rest passed : List β) (state : α), items = passed ++ rest → Holds passed state →
      ∃ final, rest.foldlM body state = .ok final from onward items [] start rfl initial
  intro rest
  induction rest with
  | nil => exact fun _ state _ _ => ⟨state, rfl⟩
  | cons item rest ih =>
    grind [bind_of_ok]

theorem mapM_eq {α β ε : Type} {f : α → Except ε β} {g : α → β} {items : List α}
    (each : ∀ item ∈ items, f item = .ok (g item)) : items.mapM f = .ok (items.map g) := by
  induction items with
  | nil => rfl
  | cons item rest ih =>
    rw [List.mapM_cons, bind_of_ok (each item List.mem_cons_self),
      bind_of_ok (ih fun other member => each other (List.mem_cons_of_mem _ member))]
    rfl

theorem mapM_ok {α β ε : Type} {f : α → Except ε β} {items : List α} {results : List β}
    (done : items.mapM f = .ok results) : ∀ item ∈ items, ∃ result, f item = .ok result := by
  induction items generalizing results with
  | nil => simp
  | cons item rest ih =>
    rw [List.mapM_cons] at done
    obtain ⟨result, first, onward⟩ := bind_ok done
    obtain ⟨others, remaining, -⟩ := bind_ok onward
    grind

theorem foldlM_invariant {α β ε : Type} {body : α → β → Except ε α} (Holds : α → Prop)
    (preserved : ∀ {state item next}, Holds state → body state item = .ok next → Holds next)
    {items : List β} {start final : α} (initial : Holds start)
    (done : items.foldlM body start = .ok final) : Holds final :=
  foldlM_invariant_mem Holds (fun _ => preserved) initial done

/-- Why a run cannot go on: the code aborted, a loop did not end, or the caller
broke the contract. -/
inductive Halt (Fault : Type) where
  | fault (cause : Fault)
  | diverged
  | misuse
deriving DecidableEq, Repr

/-- A call of the code as a step of a run. -/
def attempt {α : Type u} {ε : Type} : Except ε α → Except (Halt ε) α
  | .ok value => .ok value
  | .error cause => .error (.fault cause)

theorem attempt_ok {α : Type u} {ε : Type} {call : Except ε α} {value : α} (done : attempt call = .ok value) :
    call = .ok value := by
  cases call with
  | ok result =>
    cases done
    rfl
  | error cause => cases done

/-- The call ends: it aborts, or it returns a value that satisfies `Post`. -/
def Yields {α : Type u} {ε : Type} (call : Except (Halt ε) α) (Post : α → Prop) : Prop :=
  match call with
  | .ok value => Post value
  | .error (.fault _) => True
  | .error _ => False

section Yields

variable {α β ε : Type} {Post : α → Prop} {call : Except (Halt ε) α}

theorem Yields.ok (ends : Yields call Post) (done : call = .ok value) : Post value := by
  subst done
  exact ends

theorem Yields.ends (ends : Yields call Post) : call ≠ .error .diverged := by
  rintro rfl
  exact ends

theorem Yields.bind {next : α → Except (Halt ε) β} (first : Yields call Post)
    (onward : ∀ value, Post value → Yields (next value) Final) : Yields (call >>= next) Final := by
  cases call with
  | ok value => exact onward value first
  | error halt =>
    cases halt with
    | fault cause => trivial
    | diverged => exact first.elim
    | misuse => exact first.elim

theorem Yields.attempt {inner : Except ε α} (holds : ∀ value, inner = .ok value → Post value) :
    Yields (attempt inner) Post := by
  cases inner with
  | ok value => exact holds value rfl
  | error cause => trivial

end Yields

/-- The call returns a value that satisfies `Post`, or it stops for a reason that is
`Excused`. -/
def Ensures {α ε : Type} (Excused : ε → Prop) (call : Except ε α) (Post : α → Prop) : Prop :=
  match call with
  | .ok value => Post value
  | .error cause => Excused cause

section Ensures

variable {α β ε : Type} {Excused : ε → Prop} {Post : α → Prop} {call : Except ε α}

theorem Ensures.ok (ensures : Ensures Excused call Post) (done : call = .ok value) : Post value := by
  subst done
  exact ensures

theorem Ensures.bind {next : α → Except ε β} (first : Ensures Excused call Post)
    (onward : ∀ value, Post value → Ensures Excused (next value) Final) :
    Ensures Excused (call >>= next) Final := by
  cases call with
  | ok value => exact onward value first
  | error cause => exact first

theorem Ensures.result (ensures : Ensures Excused call Post) :
    Ensures Excused call fun value => Post value ∧ call = .ok value := by
  cases call with
  | ok value => exact ⟨ensures, rfl⟩
  | error cause => exact ensures

theorem Ensures.mono (first : Ensures Excused call Post)
    (weaker : ∀ value, Post value → Weaker value) : Ensures Excused call Weaker := by
  cases call with
  | ok value => exact weaker value first
  | error cause => exact first

theorem Ensures.excuse (first : Ensures Excused call Post)
    (weaker : ∀ cause, Excused cause → Excused' cause) : Ensures Excused' call Post := by
  cases call with
  | ok value => exact first
  | error cause => exact weaker cause first

end Ensures

/-- A machine whose steps are taken only where a condition holds. -/
def guarded (Allowed : State → Op → Prop) [∀ state op, Decidable (Allowed state op)]
    (step : State → Op → Except Fault (Output × State)) (state : State) (op : Op) :
    Except (Halt Fault) (Output × State) :=
  if Allowed state op then attempt (step state op) else .error .misuse

theorem guarded_ok [∀ state op, Decidable (Allowed state op)]
    {step : State → Op → Except Fault (Output × State)} {state next : State}
    (taken : guarded Allowed step state op = .ok (output, next)) :
    Allowed state op ∧ step state op = .ok (output, next) := by
  unfold guarded at taken
  grind [attempt_ok]

/-- A loop of the source, cut off after `fuel` passes. A pass either goes on with a
new state or leaves the loop with a result. -/
def loop {α : Type u} {β : Type v} (body : α → α ⊕ β) : Nat → α → Option β
  | 0, _ => none
  | fuel + 1, state =>
    match body state with
    | .inl next => loop body fuel next
    | .inr result => some result

/-- The states that a loop comes to before its passes. -/
inductive Visits {α : Type u} {β : Type v} (body : α → α ⊕ β) (start : α) : α → Prop where
  | start : Visits body start start
  | pass (earlier : Visits body start state) (again : body state = .inl next) : Visits body start next

/-- A loop that was cut off has not ended. -/
def finish {ε : Type} {β : Type v} : Option (Except (Halt ε) β) → Except (Halt ε) β
  | none => .error .diverged
  | some result => result

theorem finish_ok {ε : Type} {β : Type v} {ended : Option (Except (Halt ε) β)} {value : β}
    (done : finish ended = .ok value) : ended = some (.ok value) := by
  cases ended with
  | none => cases done
  | some result => exact congrArg some done

section Loop

variable {α : Type u} {β : Type v} {body : α → α ⊕ β} {fuel : Nat} {state : α} {result : β}

theorem loop_mono (ended : loop body fuel state = some result) {more : Nat} (enough : fuel ≤ more) :
    loop body more state = some result := by
  induction fuel generalizing state more with
  | zero => cases ended
  | succ fuel ih =>
    obtain ⟨more, rfl⟩ : ∃ rest, more = rest + 1 := ⟨more - 1, by omega⟩
    simp only [loop] at ended ⊢
    grind

/-- The result does not depend on where a loop is cut off. -/
theorem loop_unique {more : Nat} {other : β} (ended : loop body fuel state = some result)
    (ended' : loop body more state = some other) : result = other := by
  have first := loop_mono ended (Nat.le_max_left fuel more)
  have second := loop_mono ended' (Nat.le_max_right fuel more)
  grind

/-- Two loops whose passes are the same wherever the first one comes. -/
theorem loop_congr {other : α → α ⊕ β} (Holds : α → Prop) (same : ∀ {state}, Holds state → other state = body state)
    (again : ∀ {state next}, Holds state → body state = .inl next → Holds next) (initial : Holds state) :
    loop other fuel state = loop body fuel state := by
  induction fuel generalizing state with
  | zero => rfl
  | succ fuel ih =>
    simp only [loop, same initial]
    grind

/-- The rule for partial correctness. -/
theorem loop_result (Holds : α → Prop) (Result : β → Prop)
    (again : ∀ {state next}, Holds state → body state = .inl next → Holds next)
    (leave : ∀ {state result}, Holds state → body state = .inr result → Result result)
    (initial : Holds state) (ended : loop body fuel state = some result) : Result result := by
  induction fuel generalizing state with
  | zero => cases ended
  | succ fuel ih =>
    simp only [loop] at ended
    grind

/-- A loop leaves from a state it came to. -/
theorem loop_visits (ended : loop body fuel state = some result) :
    ∃ last, Visits body state last ∧ body last = .inr result := by
  suffices onward : ∀ fuel later, Visits body state later → loop body fuel later = some result →
      ∃ last, Visits body state last ∧ body last = .inr result from onward fuel state .start ended
  intro fuel
  induction fuel with
  | zero =>
    intro later _ ended
    cases ended
  | succ fuel ih =>
    intro later visit ended
    simp only [loop] at ended
    cases pass : body later with
    | inl next =>
      rw [pass] at ended
      exact ih next (.pass visit pass) ended
    | inr value =>
      grind

/-- From every state that it came to, a loop that ended goes on to the same result. -/
theorem Visits.loop {later : α} (visit : Visits body state later) (ended : loop body fuel state = some result) :
    ∃ rest, loop body (rest + 1) later = some result := by
  induction visit with
  | start =>
    cases fuel with
    | zero => cases ended
    | succ rest => exact ⟨rest, ended⟩
  | pass _ again ih =>
    obtain ⟨rest, ended⟩ := ih
    simp only [Lib.loop, again] at ended
    cases rest with
    | zero => cases ended
    | succ rest => exact ⟨rest, ended⟩

/-- The same for a loop that may abort, and is cut off. -/
theorem finish_ensures {ε γ : Type} {body : α → α ⊕ Except (Halt ε) γ} {Excused : Halt ε → Prop} (Holds : α → Prop)
    {Post : γ → Prop} (again : ∀ {state next}, Holds state → body state = .inl next → Holds next)
    (leave : ∀ {state result}, Holds state → body state = .inr result → Ensures Excused result Post)
    (cut : Excused .diverged) (initial : Holds state) : Ensures Excused (finish (loop body fuel state)) Post := by
  cases ended : loop body fuel state with
  | none => exact cut
  | some result => exact loop_result Holds (fun result => Ensures Excused result Post) again leave initial ended

/-- The rule for total correctness: an invariant with a bound that every pass
which goes on makes smaller. -/
theorem loop_total (Holds : Nat → α → Prop) (Result : β → Prop)
    (again : ∀ {bound state next}, Holds bound state → body state = .inl next → ∃ less < bound, Holds less next)
    (leave : ∀ {bound state result}, Holds bound state → body state = .inr result → Result result)
    {bound : Nat} (initial : Holds bound state) (enough : bound < fuel) :
    ∃ result, loop body fuel state = some result ∧ Result result := by
  induction fuel generalizing state bound with
  | zero => omega
  | succ fuel ih =>
    simp only [loop]
    cases pass : body state with
    | inl next =>
      grind
    | inr value => grind

end Loop

end Velox.Lib
