import Mathlib.Data.List.Nodup
import Mathlib.Logic.Function.Basic
import Mathlib.Order.Basic

/-! Linked structures in a flat memory: a list of nodes that a successor function
leads through, and lists that are linked in both directions. -/

namespace Velox.Lib

variable {Node : Type} {next prev : Node → Node} {first stop node : Node} {nodes before after : List Node}

/-- Following `next` from `first` passes exactly `nodes` and arrives at `stop`. -/
def Segment (next : Node → Node) : Node → List Node → Node → Prop
  | first, [], stop => first = stop
  | first, node :: rest, stop => first = node ∧ Segment next (next node) rest stop

instance Segment.decidable [DecidableEq Node] (next : Node → Node) :
    (first : Node) → (nodes : List Node) → (stop : Node) → Decidable (Segment next first nodes stop)
  | first, [], stop => inferInstanceAs (Decidable (first = stop))
  | first, node :: rest, stop =>
    have := Segment.decidable next (next node) rest stop
    inferInstanceAs (Decidable (first = node ∧ Segment next (next node) rest stop))

theorem segment_append : Segment next first (before ++ node :: after) stop ↔
      Segment next first before node ∧ Segment next (next node) after stop := by
  induction before generalizing first with
  | nil => simp [Segment]
  | cons head rest ih => simp only [List.cons_append, Segment, ih, and_assoc]

theorem segment_concat :
    Segment next first (before ++ [node]) stop ↔ Segment next first before node ∧ next node = stop :=
  segment_append

/-- A walk that ends outside its nodes passes the same ones every time. -/
theorem Segment.unique {other : List Node} (segment : Segment next first nodes stop)
    (segment' : Segment next first other stop) (proper : stop ∉ nodes) (proper' : stop ∉ other) : nodes = other := by
  induction nodes generalizing first other with
  | nil =>
    cases other with
    | nil => rfl
    | cons head rest =>
      obtain ⟨rfl, -⟩ := segment'
      cases segment
      simp at proper'
  | cons head rest ih =>
    obtain ⟨rfl, onward⟩ := segment
    cases other with
    | nil =>
      cases segment'
      simp at proper
    | cons head' rest' =>
      obtain ⟨rfl, onward'⟩ := segment'
      grind

/-- A segment reads its own nodes only. -/
theorem Segment.congr {other : Node → Node} (segment : Segment next first nodes stop)
    (same : ∀ node ∈ nodes, other node = next node) : Segment other first nodes stop := by
  induction nodes generalizing first with
  | nil => exact segment
  | cons head rest ih =>
    obtain ⟨rfl, onward⟩ := segment
    refine ⟨rfl, ?_⟩
    grind

theorem Segment.start (segment : Segment next first (node :: nodes) stop) : first = node := segment.1

section

variable (segment : Segment next first nodes stop)
include segment

theorem Segment.start_mem (moved : first ≠ stop) : first ∈ nodes := by
  cases nodes with
  | nil => exact absurd segment moved
  | cons node rest =>
    rw [segment.start]
    exact List.mem_cons_self

theorem Segment.getElem?_succ {i : Nat} {onward : Node} (here : nodes[i]? = some node)
    (there : nodes[i + 1]? = some onward) : next node = onward := by
  induction nodes generalizing first i with
  | nil => simp at here
  | cons head rest ih =>
    cases i with
    | zero =>
      cases rest with
      | nil => simp at there
      | cons follower rest =>
        cases here
        cases there
        exact segment.2.start
    | succ i => exact ih segment.2 here there

/-- What holds at the start and is passed on by every node holds at every node. -/
theorem Segment.forall_mem (Holds : Node → Prop) (start : Holds first)
    (onward : ∀ node ∈ nodes, Holds node → Holds (next node)) : ∀ node ∈ nodes, Holds node := by
  induction nodes generalizing first with
  | nil => simp
  | cons head rest ih =>
    obtain ⟨rfl, rest'⟩ := segment
    grind

end

section Order

variable [Preorder Node]

/-- Where every step leads upwards, the nodes come in order and lie between the ends. -/
theorem Segment.ascending (segment : Segment next first nodes stop) (grows : ∀ node ∈ nodes, node ≤ next node) :
    first ≤ stop ∧ nodes.Pairwise (fun lower upper => next lower ≤ upper) ∧
      ∀ node ∈ nodes, first ≤ node ∧ next node ≤ stop := by
  induction nodes generalizing first with
  | nil =>
    cases segment
    simp
  | cons head rest ih =>
    obtain ⟨rfl, onward⟩ := segment
    obtain ⟨reaches, ordered, inside⟩ := ih onward fun node member => grows node (List.mem_cons_of_mem _ member)
    have step := grows _ List.mem_cons_self
    refine ⟨step.trans reaches, List.pairwise_cons.mpr ⟨fun node member => (inside node member).1, ordered⟩, ?_⟩
    grind

end Order

variable [DecidableEq Node]

theorem Segment.write (segment : Segment next first nodes stop) (away : node ∉ nodes) (target : Node) :
    Segment (Function.update next node target) first nodes stop :=
  segment.congr fun other member =>
    Function.update_of_ne (fun same : other = node => away (same ▸ member)) target next

/-- The last node of a segment can be led elsewhere. -/
theorem Segment.redirect (segment : Segment next first (before ++ [node]) stop) (apart : node ∉ before)
    (target : Node) : Segment (Function.update next node target) first (before ++ [node]) target := by
  rw [segment_concat] at segment ⊢
  exact ⟨segment.1.write apart target, Function.update_self _ _ _⟩

omit [DecidableEq Node] in
theorem Segment.start_eq (segment : Segment next first nodes stop) : first = nodes.head?.getD stop := by
  cases nodes with
  | nil => exact segment
  | cons node rest => exact segment.start

/-- A node is left out by leading its predecessor past it. The first node has no
predecessor; there the segment starts one node later. -/
theorem Segment.unlink {next' : Node → Node} {null behind : Node}
    (segment : Segment next first (before ++ node :: after) stop) (apart : (before ++ after).Nodup)
    (proper : null ∉ before ++ after) (behindIs : behind = before.getLast?.getD null)
    (bypassed : behind ≠ null → next' behind = next node)
    (kept : ∀ other ∈ before ++ after, other ≠ behind → next' other = next other) :
    ∃ start, start = (if behind = null then next node else first) ∧ Segment next' start (before ++ after) stop := by
  obtain ⟨lead, onward⟩ := segment_append.mp segment
  refine ⟨_, rfl, ?_⟩
  have rest : Segment next' (next node) after stop := by
    grind [congr]
  rcases List.eq_nil_or_concat' before with rfl | ⟨upper, last, rfl⟩
  · grind
  · obtain rfl : behind = last := by simpa using behindIs
    have real : behind ≠ null := fun same => proper (by simp [same])
    rw [if_neg real, List.append_assoc, List.singleton_append]
    obtain ⟨lead, -⟩ := segment_concat.mp lead
    refine segment_append.mpr ⟨lead.congr ?_, ?_⟩
    · grind
    grind

/-- A list linked in both directions, `null` standing for no node. -/
structure Doubly (next prev : Node → Node) (null head : Node) (nodes : List Node) : Prop where
  nodup : nodes.Nodup
  proper : null ∉ nodes
  forward : Segment next head nodes null
  backward : ∃ last, Segment prev last nodes.reverse null

variable {null head head' : Node} {next' prev' : Node → Node}

omit [DecidableEq Node] in
theorem Doubly.empty (next prev : Node → Node) (null : Node) : Doubly next prev null null [] :=
  ⟨.nil, by simp, rfl, null, rfl⟩

omit [DecidableEq Node] in
/-- The links of a node name its neighbours. -/
theorem Doubly.neighbours (linked : Doubly next prev null head (before ++ node :: after)) :
    next node = after.head?.getD null ∧ prev node = before.getLast?.getD null := by
  obtain ⟨last, backward⟩ := linked.backward
  rw [List.reverse_append, List.reverse_cons, List.append_assoc, List.singleton_append] at backward
  refine ⟨(segment_append.mp linked.forward).2.start_eq, ?_⟩
  rw [← List.head?_reverse]
  exact (segment_append.mp backward).2.start_eq

omit [DecidableEq Node] in
theorem Doubly.reverse (linked : Doubly next prev null head nodes) : ∃ last, Doubly prev next null last nodes.reverse := by
  obtain ⟨last, backward⟩ := linked.backward
  refine ⟨last, List.nodup_reverse.mpr linked.nodup, fun member => linked.proper (List.mem_reverse.mp member),
    backward, head, ?_⟩
  rw [List.reverse_reverse]
  exact linked.forward

omit [DecidableEq Node] in
/-- The successor of a node leads back to it. -/
theorem Doubly.prev_next (linked : Doubly next prev null head nodes) (member : node ∈ nodes)
    (real : next node ≠ null) : next node ∈ nodes ∧ next node ≠ node ∧ prev (next node) = node := by
  obtain ⟨before, after, rfl⟩ := List.append_of_mem member
  have nextIs := linked.neighbours.1
  cases after with
  | nil => exact absurd nextIs real
  | cons follower rest =>
    have nextIs : next node = follower := nextIs
    have apart := (List.nodup_cons.mp (List.nodup_append.mp linked.nodup).2.1).1
    rw [nextIs]
    refine ⟨by simp, fun same => apart (by simp [same]), ?_⟩
    rw [← List.singleton_append, ← List.append_assoc] at linked
    rw [linked.neighbours.2]
    simp

omit [DecidableEq Node] in
/-- The predecessor of a node leads to it. -/
theorem Doubly.next_prev (linked : Doubly next prev null head nodes) (member : node ∈ nodes)
    (real : prev node ≠ null) : prev node ∈ nodes ∧ prev node ≠ node ∧ next (prev node) = node := by
  obtain ⟨last, reversed⟩ := linked.reverse
  obtain ⟨inside, different, back⟩ := reversed.prev_next (List.mem_reverse.mpr member) real
  grind

omit [DecidableEq Node] in
theorem Doubly.prev_eq_null (linked : Doubly next prev null head nodes) (member : node ∈ nodes) :
    prev node = null ↔ head = node := by
  obtain ⟨before, after, rfl⟩ := List.append_of_mem member
  have proper := linked.proper
  have prevIs := linked.neighbours.2
  rcases List.eq_nil_or_concat' before with rfl | ⟨upper, last, rfl⟩
  · exact ⟨fun _ => linked.forward.start, fun _ => prevIs⟩
  · constructor
    · grind
    · have lead := (segment_append.mp linked.forward).1
      have same := lead.start_eq
      have apart := linked.nodup
      cases upper with
      | nil => simp_all
      | cons first rest => simp_all

omit [DecidableEq Node] in
/-- A new node in front. -/
theorem Doubly.push (linked : Doubly next prev null head nodes) (new : node ∉ nodes) (proper : node ≠ null)
    (nextNode : next' node = head) (prevNode : prev' node = null) (prevHead : head ≠ null → prev' head = node)
    (nextKept : ∀ other ∈ nodes, next' other = next other)
    (prevKept : ∀ other ∈ nodes, other ≠ head → prev' other = prev other) :
    Doubly next' prev' null node (node :: nodes) := by
  refine ⟨List.nodup_cons.mpr ⟨new, linked.nodup⟩, ?_, ⟨rfl, ?_⟩, ?_⟩
  · intro member
    rcases List.mem_cons.mp member with same | later
    · exact proper same.symm
    · exact linked.proper later
  · rw [nextNode]
    exact linked.forward.congr nextKept
  · obtain ⟨last, backward⟩ := linked.backward
    cases nodes with
    | nil => exact ⟨node, rfl, prevNode⟩
    | cons front rest =>
      obtain rfl := linked.forward.start
      have proper' : head ≠ null := fun same => linked.proper (same ▸ List.mem_cons_self)
      rw [List.reverse_cons] at backward
      rw [List.reverse_cons, List.reverse_cons]
      refine ⟨last, segment_append.mpr ⟨segment_concat.mpr ⟨?_, prevHead proper'⟩, prevNode⟩⟩
      refine (segment_concat.mp backward).1.congr fun other member => ?_
      have later := List.mem_reverse.mp member
      refine prevKept other (List.mem_cons_of_mem _ later) ?_
      rintro rfl
      exact (List.nodup_cons.mp linked.nodup).1 later

/-- Any node taken out. -/
theorem Doubly.remove (linked : Doubly next prev null head nodes) (member : node ∈ nodes)
    (moved : head' = if prev node = null then next node else head)
    (bypassNext : prev node ≠ null → next' (prev node) = next node)
    (bypassPrev : next node ≠ null → prev' (next node) = prev node)
    (nextKept : ∀ other ∈ nodes, other ≠ node → other ≠ prev node → next' other = next other)
    (prevKept : ∀ other ∈ nodes, other ≠ node → other ≠ next node → prev' other = prev other) :
    Doubly next' prev' null head' (nodes.erase node) := by
  obtain ⟨before, after, rfl⟩ := List.append_of_mem member
  obtain ⟨nextIs, prevIs⟩ := linked.neighbours
  obtain ⟨out, apart⟩ := List.nodup_cons.mp (List.nodup_middle.mp linked.nodup)
  have erased : (before ++ node :: after).erase node = before ++ after := by
    grind
  have listed : ∀ other ∈ before ++ after, other ∈ before ++ node :: after ∧ other ≠ node := by
    grind
  have proper : null ∉ before ++ after := fun member => linked.proper (listed null member).1
  rw [erased]
  refine ⟨apart, proper, ?_, ?_⟩
  · obtain ⟨start, startIs, forward⟩ := linked.forward.unlink apart proper prevIs bypassNext
      fun other member => nextKept other (listed other member).1 (listed other member).2
    grind
  · -- Read backwards, the successor is the predecessor.
    obtain ⟨last, backward⟩ := linked.backward
    have turned : ∀ other, other ∈ after.reverse ++ before.reverse ↔ other ∈ before ++ after := by
      grind
    rw [List.reverse_append, List.reverse_cons, List.append_assoc, List.singleton_append] at backward
    obtain ⟨start, -, backward⟩ := backward.unlink (by grind)
      ((turned null).not.mpr proper) (by grind) bypassPrev
      fun other member => prevKept other (listed other ((turned other).mp member)).1
        (listed other ((turned other).mp member)).2
    grind

/-- A queue that is linked from its head, with a pointer to its last node. -/
structure Fifo (next : Node → Node) (null head tail : Node) (items : List Node) : Prop where
  nodup : items.Nodup
  proper : null ∉ items
  chain : Segment next head items null
  last : tail = items.getLast?.getD null

section Fifo

variable {tail : Node} {items : List Node}

omit [DecidableEq Node] in
theorem Fifo.empty (next : Node → Node) (null : Node) : Fifo next null null null [] := ⟨.nil, by simp, rfl, rfl⟩

omit [DecidableEq Node] in
theorem Fifo.head_eq_null (fifo : Fifo next null head tail items) : head = null ↔ items = [] := by
  cases items with
  | nil => exact ⟨fun _ => rfl, fun _ => fifo.chain⟩
  | cons node rest =>
    refine ⟨fun none' => ?_, nofun⟩
    rw [fifo.chain.start] at none'
    grind [List.mem_cons_self, proper]

omit [DecidableEq Node] in
theorem Fifo.tail_mem (fifo : Fifo next null head tail items) (some' : items ≠ []) : tail ∈ items := by
  rw [fifo.last, List.getLast?_eq_some_getLast some', Option.getD_some]
  simp

omit [DecidableEq Node] in
theorem Fifo.congr (fifo : Fifo next null head tail items) (same : ∀ node ∈ items, next' node = next node) :
    Fifo next' null head tail items :=
  ⟨fifo.nodup, fifo.proper, fifo.chain.congr same, fifo.last⟩

/-- The first node is taken off. -/
theorem Fifo.pop (fifo : Fifo next null head tail (node :: items)) :
    Fifo (Function.update next node null) null (next node) (if next node = null then null else tail) items := by
  obtain ⟨fresh, nodup⟩ := List.nodup_cons.mp fifo.nodup
  have proper : null ∉ items := fun late => fifo.proper (List.mem_cons_of_mem _ late)
  have rest : Fifo (Function.update next node null) null (next node) (items.getLast?.getD null) items :=
    ⟨nodup, proper, fifo.chain.2.write fresh null, rfl⟩
  cases items with
  | nil =>
    rw [if_pos (show next node = null from fifo.chain.2)]
    exact rest
  | cons first later =>
    rw [if_neg fun none' => absurd (rest.head_eq_null.mp none') (List.cons_ne_nil _ _), fifo.last]
    exact rest

/-- A node is put on an empty queue. -/
theorem Fifo.push_empty (real : node ≠ null) : Fifo (Function.update next node null) null node node [node] :=
  ⟨List.nodup_singleton node, by simpa using real.symm, ⟨rfl, Function.update_self ..⟩, rfl⟩

/-- A node is put behind the last one. -/
theorem Fifo.push (fifo : Fifo next null head tail items) (some' : items ≠ []) (real : node ≠ null) (new : node ∉ items) :
    Fifo (Function.update (Function.update next node null) tail node) null head node (items ++ [node]) := by
  rcases List.eq_nil_or_concat' items with rfl | ⟨front, last, rfl⟩
  · exact absurd rfl some'
  obtain rfl : tail = last := by simpa using fifo.last
  have apart : tail ∉ front := fun early => (List.nodup_append.mp fifo.nodup).2.2 tail early tail List.mem_cons_self rfl
  refine ⟨?_, ?_, ?_, by simp⟩
  · exact List.nodup_append.mpr ⟨fifo.nodup, List.nodup_singleton node, fun a early b here same =>
      new (List.mem_singleton.mp here ▸ same ▸ early)⟩
  · rw [List.mem_append, List.mem_singleton]
    rintro (early | same)
    · exact fifo.proper early
    · exact real same.symm
  · refine segment_concat.mpr ⟨(fifo.chain.write new null).redirect apart node, ?_⟩
    grind

end Fifo

section Single

/-- A node is put in behind `prev`. -/
theorem Segment.insert {prev : Node} (segment : Segment next first (before ++ prev :: after) stop)
    (apart : (before ++ prev :: after).Nodup) (new : node ∉ before ++ prev :: after) :
    Segment (Function.update (Function.update next node (next prev)) prev node) first (before ++ prev :: node :: after) stop := by
  obtain ⟨lead, rest⟩ := segment_append.mp segment
  obtain ⟨-, behind, crossed⟩ := List.nodup_append.mp apart
  have early : prev ∉ before := fun early => crossed prev early prev List.mem_cons_self rfl
  refine segment_append.mpr ⟨(lead.write (fun member => new (List.mem_append_left _ member)) _).write early _, ?_⟩
  rw [Function.update_self]
  refine ⟨rfl, ?_⟩
  grind [write]

/-- The node behind `prev` is taken out and led elsewhere. -/
theorem Segment.remove {prev : Node} (segment : Segment next first (before ++ prev :: node :: after) stop)
    (apart : (before ++ prev :: node :: after).Nodup) (target : Node) :
    Segment (Function.update (Function.update next prev (next node)) node target) first (before ++ prev :: after) stop := by
  obtain ⟨lead, -, rest⟩ := segment_append.mp segment
  refine segment_append.mpr ⟨(lead.write (by grind) _).write (by grind) _, ?_⟩
  grind [write]

end Single

end Velox.Lib
