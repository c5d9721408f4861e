import Velox.Lib.Chain
import Velox.Lib.Runs
import Mathlib.Data.List.TakeWhile

/-! The listeners of `arch/x86_64/drivers/IO/ps2_keyboard.c`: a list ordered by priority,
and the delivery of scancodes along it. -/

namespace Velox

/-- The fields of a listener that its owner sets; a handler of zero is `NULL`. -/
structure KbdListener where
  handler : Nat
  ctx : Nat
  priority : Int

structure KbdEvent where
  keycode : UInt8
  e0Prefix : Bool
  pressed : Bool

/-- Listeners by their addresses. `next` at an address is the field of that listener, and at
`NULL`, where no listener is, it is `g_kbd_list`: the two kinds of place that `pp` points to. -/
structure Kbd where
  listener : Nat → KbdListener
  next : Nat → Nat
  e0Prefix : Bool := false

def Kbd.priority (s : Kbd) (listener : Nat) : Int := (s.listener listener).priority

/-- The loop of `kbd_register_listener`: where to insert, or that the listener is there. -/
def registerBody (s : Kbd) (listener pp : Nat) : Nat ⊕ Option Nat :=
  if s.next pp = 0 then .inr (some pp)
  else if s.next pp = listener then .inr none
  else if s.priority (s.next pp) < s.priority listener then .inr (some pp)
  else .inl (s.next pp)

def kbdRegisterListener (fuel : Nat) (s : Kbd) (listener : Nat) : Option (Bool × Kbd) :=
  if listener = 0 ∨ (s.listener listener).handler = 0 then some (false, s)
  else
    match Lib.loop (registerBody s listener) fuel 0 with
    | none => none
    | some none => some (false, s)
    | some (some pp) =>
      some (true, { s with next := Function.update (Function.update s.next listener (s.next pp)) pp listener })

def unregisterBody (s : Kbd) (listener pp : Nat) : Nat ⊕ Kbd :=
  if s.next pp = 0 then .inr s
  else if s.next pp = listener then
    .inr { s with next := Function.update (Function.update s.next pp (s.next listener)) listener 0 }
  else .inl (s.next pp)

def kbdUnregisterListener (fuel : Nat) (s : Kbd) (listener : Nat) : Option Kbd :=
  if listener = 0 then some s else Lib.loop (unregisterBody s listener) fuel 0

/-- A call of a handler with the event and the context. -/
abbrev KbdCall := Nat × KbdEvent × Nat

def deliverBody (s : Kbd) (event : KbdEvent) (state : Nat × List KbdCall) : Nat × List KbdCall ⊕ List KbdCall :=
  let (listener, calls) := state
  if listener = 0 then .inr calls
  else
    let fields := s.listener listener
    .inl (s.next listener, if fields.handler ≠ 0 then calls ++ [(fields.handler, event, fields.ctx)] else calls)

def kbdEvent (s : Kbd) (code : UInt8) : KbdEvent := ⟨code &&& 0x7F, s.e0Prefix, code &&& 0x80 = 0⟩

def ps2KeyboardIrq (fuel : Nat) (s : Kbd) (code : UInt8) : Option (List KbdCall × Kbd) :=
  if code = 0xE0 then some ([], { s with e0Prefix := true })
  else (Lib.loop (deliverBody s (kbdEvent s code)) fuel (s.next 0, [])).map fun calls => (calls, { s with e0Prefix := false })

/-- The states that calls lead to, with the registered listeners in the order of their
registration. Owners write to the fields of listeners that are not registered. -/
inductive KbdReached : Kbd → List Nat → Prop where
  | start (empty : s.next 0 = 0) : KbdReached s []
  | write (earlier : KbdReached s order) (free : listener ∉ order) (real : listener ≠ 0) (fields : KbdListener) (next : Nat) :
      KbdReached { s with listener := Function.update s.listener listener fields, next := Function.update s.next listener next } order
  | register (earlier : KbdReached s order) (done : kbdRegisterListener fuel s listener = some (answer, t)) :
      KbdReached t (if answer then order ++ [listener] else order)
  | unregister (earlier : KbdReached s order) (done : kbdUnregisterListener fuel s listener = some t) :
      KbdReached t (order.filter (· ≠ listener))
  | scancode (earlier : KbdReached s order) (done : ps2KeyboardIrq fuel s code = some (calls, t)) : KbdReached t order

/-- The list from `g_kbd_list` on passes `nodes`: by descending priority, and for each priority
in the order of registration. -/
structure KbdInv (s : Kbd) (order nodes : List Nat) : Prop where
  chain : Lib.Segment s.next 0 (0 :: nodes) 0
  real : 0 ∉ nodes
  handlers : ∀ node ∈ nodes, (s.listener node).handler ≠ 0
  sorted : nodes.Pairwise fun first second => s.priority second ≤ s.priority first
  once : order.Nodup
  ties : ∀ k, nodes.filter (s.priority · = k) = order.filter (s.priority · = k)

section Lists

variable {s t : Kbd} {order nodes after : List Nat} {listener pp : Nat}

theorem KbdInv.mem_iff (inv : KbdInv s order nodes) : listener ∈ nodes ↔ listener ∈ order := by
  have same := congrArg (listener ∈ ·) (inv.ties (s.priority listener))
  simpa using same

theorem KbdInv.nodup (inv : KbdInv s order nodes) : nodes.Nodup := by
  rw [List.nodup_iff_count_le_one]
  intro listener
  have one := List.nodup_iff_count_le_one.mp inv.once listener
  have here : ∀ list : List Nat, list.count listener = (list.filter (s.priority · = s.priority listener)).count listener :=
    fun list => (List.count_filter (by simp)).symm
  rwa [here, inv.ties, ← here]

/-- Where the search for a place ends: at the listener, or behind the last of the first
listeners whose priority is not lower. -/
theorem loop_registerBody (chain : Lib.Segment s.next (s.next pp) after 0) (real : 0 ∉ after) :
    ∃ fuel, Lib.loop (registerBody s listener) fuel pp =
      some (if listener ∈ after.takeWhile (fun node => s.priority listener ≤ s.priority node) then none
        else some ((pp :: after.takeWhile (fun node => s.priority listener ≤ s.priority node)).getLast (List.cons_ne_nil _ _))) := by
  induction after generalizing pp with
  | nil =>
    have stop : s.next pp = 0 := chain
    exact ⟨1, by simp [Lib.loop, registerBody, stop]⟩
  | cons node rest ih =>
    obtain ⟨here, behind⟩ := chain
    obtain ⟨proper, real⟩ := not_or.mp (List.mem_cons.not.mp real)
    by_cases same : node = listener
    · exact ⟨1, by simp [Lib.loop, registerBody, here, same, Ne.symm (same ▸ proper)]⟩
    by_cases lower : s.priority node < s.priority listener
    · exact ⟨1, by simp [Lib.loop, registerBody, here, same, lower, Ne.symm proper]⟩
    · obtain ⟨fuel, ended⟩ := ih behind real
      refine ⟨fuel + 1, ?_⟩
      have pass : registerBody s listener pp = .inl node := by simp [registerBody, here, same, lower, Ne.symm proper]
      rw [Lib.loop, pass]
      simp only [ended]
      rw [List.takeWhile_cons_of_pos (by simpa using lower)]
      simp [Ne.symm same]

theorem loop_unregisterBody (chain : Lib.Segment s.next (s.next pp) after 0) (real : 0 ∉ after) : ∃ fuel t,
    Lib.loop (unregisterBody s listener) fuel pp = some t ∧ (listener ∉ after ∧ t = s ∨
      ∃ front back, after = front ++ listener :: back ∧ t = { s with next := Function.update (Function.update s.next
        ((pp :: front).getLast (List.cons_ne_nil _ _)) (s.next listener)) listener 0 }) := by
  induction after generalizing pp with
  | nil =>
    have stop : s.next pp = 0 := chain
    exact ⟨1, s, by simp [Lib.loop, unregisterBody, stop], .inl ⟨by simp, rfl⟩⟩
  | cons node rest ih =>
    obtain ⟨here, behind⟩ := chain
    obtain ⟨proper, real⟩ := not_or.mp (List.mem_cons.not.mp real)
    by_cases same : node = listener
    · subst same
      exact ⟨1, _, by simp [Lib.loop, unregisterBody, here, Ne.symm proper], .inr ⟨[], rest, rfl, rfl⟩⟩
    · obtain ⟨fuel, t, ended, result⟩ := ih behind real
      have pass : unregisterBody s listener pp = .inl node := by simp [unregisterBody, here, same, Ne.symm proper]
      refine ⟨fuel + 1, t, by rw [Lib.loop, pass]; exact ended, ?_⟩
      grind

theorem loop_deliverBody (event : KbdEvent) (chain : Lib.Segment s.next listener after 0) (real : 0 ∉ after)
    (handlers : ∀ node ∈ after, (s.listener node).handler ≠ 0) (calls : List KbdCall) :
    ∃ fuel, Lib.loop (deliverBody s event) fuel (listener, calls) =
      some (calls ++ after.map fun node => ((s.listener node).handler, event, (s.listener node).ctx)) := by
  induction after generalizing listener calls with
  | nil =>
    have stop : listener = 0 := chain
    exact ⟨1, by simp [Lib.loop, deliverBody, stop]⟩
  | cons node rest ih =>
    obtain ⟨rfl, behind⟩ := chain
    obtain ⟨proper, real⟩ := not_or.mp (List.mem_cons.not.mp real)
    obtain ⟨first, handlers⟩ := List.forall_mem_cons.mp handlers
    obtain ⟨fuel, ended⟩ := ih behind real handlers (calls ++ [((s.listener listener).handler, event, (s.listener listener).ctx)])
    refine ⟨fuel + 1, ?_⟩
    simp [Lib.loop, deliverBody, Ne.symm proper, first, ended]

/-- Changes elsewhere do not matter. -/
theorem KbdInv.congr (inv : KbdInv s order nodes) (chain : Lib.Segment t.next 0 (0 :: nodes) 0)
    (same : ∀ node ∈ nodes, t.listener node = s.listener node) : KbdInv t order nodes := by
  have priority : ∀ node ∈ nodes, t.priority node = s.priority node := fun node member => by
    rw [Kbd.priority, same node member, Kbd.priority]
  refine ⟨chain, inv.real, fun node member => same node member ▸ inv.handlers node member, ?_, inv.once, fun k => ?_⟩
  · grind [List.Pairwise.imp_of_mem, sorted]
  · rw [List.filter_congr fun node member => by rw [priority node member], inv.ties]
    exact List.filter_congr fun node member => by rw [priority node (inv.mem_iff.mpr member)]

/-- Behind the first listeners whose priority is not lower, all priorities are lower. -/
theorem KbdInv.lower (inv : KbdInv s order nodes) (listener : Nat) :
    ∀ node ∈ nodes.dropWhile (fun node => s.priority listener ≤ s.priority node), s.priority node < s.priority listener := by
  have sorted := inv.sorted.sublist (List.dropWhile_sublist (fun node => s.priority listener ≤ s.priority node))
  cases rest : nodes.dropWhile (fun node => s.priority listener ≤ s.priority node) with
  | nil => simp
  | cons first others =>
    have head : s.priority first < s.priority listener := by
      grind [List.dropWhile_get_zero_not]
    rw [rest] at sorted
    refine List.forall_mem_cons.mpr ⟨head, fun node member => ?_⟩
    exact Int.lt_of_le_of_lt ((List.pairwise_cons.mp sorted).1 node member) head

/-- The place that `pp` points to, among the places before it and the listeners behind it. -/
theorem kbd_whole (front rest : List Nat) :
    0 :: (front ++ rest) = (0 :: front).dropLast ++ (0 :: front).getLast (List.cons_ne_nil _ _) :: rest :=
  (congrArg (· ++ rest) (List.dropLast_append_getLast (List.cons_ne_nil 0 front))).symm.trans (List.append_assoc _ _ _)

theorem KbdInv.insert (inv : KbdInv s order nodes) (real : listener ≠ 0) (handler : (s.listener listener).handler ≠ 0)
    (new : listener ∉ nodes) {front : List Nat} (parts : nodes = front ++ after)
    (higher : ∀ node ∈ front, s.priority listener ≤ s.priority node)
    (lower : ∀ node ∈ after, s.priority node < s.priority listener) :
    KbdInv { s with next := Function.update (Function.update s.next listener
        (s.next ((0 :: front).getLast (List.cons_ne_nil _ _)))) ((0 :: front).getLast (List.cons_ne_nil _ _)) listener }
      (order ++ [listener]) (front ++ listener :: after) := by
  have whole := kbd_whole front
  subst parts
  have apart : (0 :: (front ++ after)).Nodup := List.nodup_cons.mpr ⟨inv.real, inv.nodup⟩
  refine ⟨?_, ?_, ?_, ?_, ?_, fun k => ?_⟩
  · grind [chain, Lib.Segment.insert]
  · grind
  · intro node member
    rcases List.mem_append.mp member with early | late
    · exact inv.handlers node (List.mem_append_left _ early)
    · rcases List.mem_cons.mp late with rfl | late
      · exact handler
      · exact inv.handlers node (List.mem_append_right _ late)
  · obtain ⟨first, second, crossed⟩ := List.pairwise_append.mp inv.sorted
    refine List.pairwise_append.mpr ⟨first, List.pairwise_cons.mpr ⟨fun node member => Int.le_of_lt (lower node member), second⟩, ?_⟩
    intro node early other late
    rcases List.mem_cons.mp late with rfl | late
    · exact higher node early
    · exact crossed node early other late
  · exact List.nodup_append.mpr ⟨inv.once, List.nodup_singleton _, by
      rintro a member b here rfl
      exact new (inv.mem_iff.mpr (List.mem_singleton.mp here ▸ member))⟩
  · -- Among equals the new listener is the last one, since all behind it have lower priorities.
    have ties := inv.ties k
    show (front ++ listener :: after).filter (s.priority · = k) = (order ++ [listener]).filter (s.priority · = k)
    rw [List.filter_append, List.filter_append, ← ties, List.filter_cons, List.filter_singleton]
    by_cases equal : s.priority listener = k
    · have none' : after.filter (s.priority · = k) = [] :=
        List.filter_eq_nil_iff.mpr fun node member => by grind
      simp [equal, none']
    · simp [equal]

theorem KbdInv.register (inv : KbdInv s order nodes) (listener : Nat) : ∃ fuel answer t nodes',
    kbdRegisterListener fuel s listener = some (answer, t) ∧
      KbdInv t (if answer then order ++ [listener] else order) nodes' ∧ (listener ∈ nodes → answer = false ∧ t = s) := by
  by_cases refused : listener = 0 ∨ (s.listener listener).handler = 0
  · exact ⟨0, false, s, nodes, if_pos refused, inv, fun _ => ⟨rfl, rfl⟩⟩
  obtain ⟨real, handler⟩ := not_or.mp refused
  obtain ⟨fuel, ended⟩ := @loop_registerBody s nodes listener 0 inv.chain.2 inv.real
  have parts := (List.takeWhile_append_dropWhile (p := fun node => s.priority listener ≤ s.priority node) (l := nodes)).symm
  have lower := inv.lower listener
  refine ⟨fuel, ?_⟩
  rw [kbdRegisterListener, if_neg refused, ended]
  by_cases present : listener ∈ nodes.takeWhile (fun node => s.priority listener ≤ s.priority node)
  · rw [if_pos present]
    grind
  · rw [if_neg present]
    have new : listener ∉ nodes := by
      grind
    refine ⟨true, _, _, rfl, inv.insert real handler new parts ?_ lower, fun member => absurd member new⟩
    grind [List.mem_takeWhile_imp]

theorem KbdInv.unregister (inv : KbdInv s order nodes) (listener : Nat) : ∃ fuel t nodes',
    kbdUnregisterListener fuel s listener = some t ∧ KbdInv t (order.filter (· ≠ listener)) nodes' := by
  have absent : listener ∉ nodes → order.filter (· ≠ listener) = order := by
    intro away
    refine List.filter_eq_self.mpr fun node member => ?_
    simpa using fun same : node = listener => away (inv.mem_iff.mpr (same ▸ member))
  by_cases null : listener = 0
  · exact ⟨0, s, nodes, if_pos null, by grind [real]⟩
  obtain ⟨fuel, t, ended, away | ⟨front, back, parts, changed⟩⟩ := @loop_unregisterBody s nodes listener 0 inv.chain.2 inv.real
  · exact ⟨fuel, t, nodes, by rw [kbdUnregisterListener, if_neg null, ended], by grind⟩
  · refine ⟨fuel, t, front ++ back, by rw [kbdUnregisterListener, if_neg null, ended], ?_⟩
    have apart : (0 :: nodes).Nodup := List.nodup_cons.mpr ⟨inv.real, inv.nodup⟩
    have whole := kbd_whole front
    have left : front ++ back = nodes.filter (· ≠ listener) := by
      have nodup := inv.nodup
      rw [parts] at nodup ⊢
      rw [List.filter_append, List.filter_cons_of_neg (by simp), List.filter_eq_self.mpr, List.filter_eq_self.mpr] <;> grind
    have chain := inv.chain
    subst changed
    rw [left]
    refine ⟨?_, fun member => inv.real (List.mem_filter.mp member).1,
      fun node member => inv.handlers node (List.mem_filter.mp member).1, inv.sorted.filter _, inv.once.filter _, fun k => ?_⟩
    · grind [Lib.Segment.remove]
    · show (nodes.filter (· ≠ listener)).filter (s.priority · = k) = (order.filter (· ≠ listener)).filter (s.priority · = k)
      rw [List.filter_comm, inv.ties, List.filter_comm]

theorem registerListener_unique {fuel more : Nat} {answer answer' : Bool} (done : kbdRegisterListener fuel s listener = some (answer, t))
    (done' : kbdRegisterListener more s listener = some (answer', t')) : answer = answer' ∧ t = t' := by
  simp only [kbdRegisterListener] at done done'
  grind [Lib.loop_unique]

/-- The invariant holds in every state that the calls lead to. -/
theorem KbdReached.inv (reached : KbdReached s order) : ∃ nodes, KbdInv s order nodes := by
  induction reached with
  | start empty => exact ⟨[], ⟨⟨rfl, empty⟩, by simp, by simp, .nil, .nil, by simp⟩⟩
  | @write s order listener earlier free real fields next ih =>
    obtain ⟨nodes, inv⟩ := ih
    have away : listener ∉ nodes := fun member => free (inv.mem_iff.mp member)
    refine ⟨nodes, inv.congr (inv.chain.write (by simpa [real] using away) next) fun node member => ?_⟩
    grind
  | @register s order fuel listener answer t earlier done ih =>
    obtain ⟨nodes, inv⟩ := ih
    obtain ⟨more, answer', t', nodes', done', inv', -⟩ := inv.register listener
    grind [registerListener_unique]
  | @unregister s order fuel listener t earlier done ih =>
    obtain ⟨nodes, inv⟩ := ih
    obtain ⟨more, t', nodes', done', inv'⟩ := inv.unregister listener
    rw [kbdUnregisterListener] at done done'
    split at done
    · grind
    · rename_i real
      rw [if_neg real] at done'
      grind [Lib.loop_unique]
  | @scancode s order fuel code calls t earlier done ih =>
    obtain ⟨nodes, inv⟩ := ih
    have same : t.listener = s.listener ∧ t.next = s.next := by
      rw [ps2KeyboardIrq] at done
      split at done
      · grind
      · obtain ⟨_, -, rest⟩ := Option.map_eq_some_iff.mp done
        grind
    exact ⟨nodes, inv.congr (same.2 ▸ inv.chain) fun node _ => by rw [same.1]⟩

end Lists

/-- After any calls, the list from `g_kbd_list` ends after each registered listener once, by
descending priority and among equals in the order of registration. A registered listener is refused
and nothing changes, every call returns, and a completed scancode goes to the listeners in this order. -/
theorem kbd_listeners_ordered {s : Kbd} {order : List Nat} (reached : KbdReached s order) :
    ∃ nodes, Lib.Segment s.next (s.next 0) nodes 0 ∧ nodes.Nodup ∧ 0 ∉ nodes ∧ (∀ listener, listener ∈ nodes ↔ listener ∈ order) ∧
      (nodes.Pairwise fun first second => s.priority second ≤ s.priority first) ∧
      (∀ k, nodes.filter (s.priority · = k) = order.filter (s.priority · = k)) ∧
      (∀ listener, ∃ fuel answer t, kbdRegisterListener fuel s listener = some (answer, t) ∧
        (listener ∈ order → answer = false ∧ t = s)) ∧
      (∀ listener, ∃ fuel t, kbdUnregisterListener fuel s listener = some t) ∧
      ∀ code, code ≠ 0xE0 → ∃ fuel, ps2KeyboardIrq fuel s code = some
        (nodes.map fun node => ((s.listener node).handler, kbdEvent s code, (s.listener node).ctx), { s with e0Prefix := false }) := by
  obtain ⟨nodes, inv⟩ := reached.inv
  refine ⟨nodes, inv.chain.2, inv.nodup, inv.real, fun _ => inv.mem_iff, inv.sorted, inv.ties, fun listener => ?_,
    fun listener => ?_, fun code completed => ?_⟩
  · obtain ⟨fuel, answer, t, -, done, -, again⟩ := inv.register listener
    exact ⟨fuel, answer, t, done, fun member => again (inv.mem_iff.mpr member)⟩
  · obtain ⟨fuel, t, -, done, -⟩ := inv.unregister listener
    grind
  · obtain ⟨fuel, ended⟩ := loop_deliverBody (kbdEvent s code) inv.chain.2 inv.real inv.handlers []
    exact ⟨fuel, by rw [ps2KeyboardIrq, if_neg completed, ended]; rfl⟩

/-- Two listeners, the second one of higher priority. -/
def twoListeners : Kbd := ⟨fun p => ⟨1, 0, p⟩, fun _ => 0, false⟩

theorem kbd_listeners_ordered_two : ∃ s, KbdReached s [16, 32] ∧ s.next 0 = 32 ∧
    ∃ nodes, Lib.Segment s.next (s.next 0) nodes 0 ∧ ∀ listener, listener ∈ nodes ↔ listener ∈ [16, 32] := by
  have start : KbdReached twoListeners [] := .start rfl
  have first : KbdReached _ [16] := @KbdReached.register _ _ 1 16 true _ start rfl
  have second : KbdReached _ [16, 32] := @KbdReached.register _ _ 1 32 true _ first rfl
  obtain ⟨nodes, chain, -, -, members, -⟩ := kbd_listeners_ordered second
  exact ⟨_, second, rfl, nodes, chain, members⟩

end Velox
