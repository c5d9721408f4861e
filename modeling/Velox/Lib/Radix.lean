import Mathlib.Data.List.Infix
import Mathlib.Logic.Function.Basic

/-! Radix trees stored in a flat memory of nodes. A node is a row of entries;
an entry may name a child node. -/

namespace Velox.Lib

variable {Node Index Entry : Type} [DecidableEq Node] [DecidableEq Index]

/-- Write one entry of one node. -/
def writeEntry (memory : Node → Index → Entry) (node : Node) (index : Index) (entry : Entry) : Node → Index → Entry :=
  Function.update memory node (Function.update (memory node) index entry)

theorem writeEntry_here (memory : Node → Index → Entry) (node : Node) (index : Index) (entry : Entry) :
    writeEntry memory node index entry node index = entry := by
  simp [writeEntry]

theorem writeEntry_elsewhere (memory : Node → Index → Entry) {node other : Node} (entry : Entry)
    (different : other ≠ node ∨ place ≠ index) :
    writeEntry memory node index entry other place = memory other place := by
  unfold writeEntry
  by_cases same : other = node
  · subst other
    rcases different with absurdity | moved
    · grind
    · simp [moved]
  · simp [same]

variable (child : Entry → Option Node)

/-- The node a path of indices leads to. -/
def follow (memory : Node → Index → Entry) : Node → List Index → Option Node
  | node, [] => some node
  | node, index :: path => (child (memory node index)).bind fun next => follow memory next path

variable {child} {memory : Node → Index → Entry} {root : Node}

omit [DecidableEq Node] [DecidableEq Index] in
theorem follow_append (first second : List Index) : follow child memory root (first ++ second) =
      (follow child memory root first).bind fun next => follow child memory next second := by
  induction first generalizing root with
  | nil => rfl
  | cons index rest ih =>
    simp only [List.cons_append, follow]
    cases child (memory root index) with
    | none => rfl
    | some next => exact ih

omit [DecidableEq Node] [DecidableEq Index] in
theorem follow_snoc {path : List Index} {node : Node} (index : Index)
    (reached : follow child memory root path = some node) :
    follow child memory root (path ++ [index]) = child (memory node index) := by
  rw [follow_append, reached]
  simp only [Option.bind_some, follow]
  simp

/-- The entry at one place of the node a path leads to. -/
def entryAt (child : Entry → Option Node) (memory : Node → Index → Entry) (root : Node)
    (path : List Index) (index : Index) : Option Entry :=
  (follow child memory root path).map fun node => memory node index

omit [DecidableEq Node] [DecidableEq Index] in
theorem follow_snoc_eq (path : List Index) (index : Index) :
    follow child memory root (path ++ [index]) = (entryAt child memory root path index).bind child := by
  cases reached : follow child memory root path with
  | none => simp [follow_append, entryAt, reached]
  | some node => simp [follow_snoc index reached, entryAt, reached]

/-- No node is reached by two different paths of at most `depth` indices. -/
def Unshared (child : Entry → Option Node) (memory : Node → Index → Entry) (root : Node)
    (depth : Nat) : Prop :=
  ∀ first second node, first.length ≤ depth → second.length ≤ depth →
    follow child memory root first = some node → follow child memory root second = some node →
    first = second

omit [DecidableEq Node] [DecidableEq Index] in
/-- Two memories that agree on the nodes above the last level have the same paths. -/
theorem follow_congr {other : Node → Index → Entry} {depth : Nat}
    (agree : ∀ path node, path.length < depth → follow child memory root path = some node →
      other node = memory node) (path : List Index) (short : path.length ≤ depth) :
    follow child other root path = follow child memory root path := by
  suffices step : ∀ (rest before : List Index) (node : Node), (before ++ rest).length ≤ depth →
      follow child memory root before = some node →
      follow child other node rest = follow child memory node rest from
    step path [] root short rfl
  intro rest
  induction rest with
  | nil => exact fun _ _ _ _ => rfl
  | cons index rest ih =>
    intro before node bounded reached
    have row : other node = memory node := by
      grind
    simp only [follow, row]
    cases found : child (memory node index) with
    | none => rfl
    | some next =>
      apply ih (before ++ [index]) next (by simpa using bounded)
      rw [follow_snoc index reached, found]

omit [DecidableEq Node] [DecidableEq Index] in
/-- Two memories that agree on every entry a walk reads give the same walk. -/
theorem follow_congr_along {other : Node → Index → Entry} {start node : Node}
    (reached : follow child memory start before = some node)
    (agree : ∀ first step last at', before ++ rest = first ++ step :: last →
      before.length ≤ first.length → follow child memory start first = some at' →
      other at' step = memory at' step) :
    follow child other node rest = follow child memory node rest := by
  induction rest generalizing before node with
  | nil => rfl
  | cons step rest ih =>
    have same := agree before step rest node rfl (Nat.le_refl _) reached
    simp only [follow, same]
    cases found : child (memory node step) with
    | none => rfl
    | some next =>
      have onward : follow child memory start (before ++ [step]) = some next := by
        rw [follow_snoc step reached, found]
      grind

section Write

variable {depth : Nat} {path other : List Index} {node : Node} {index place : Index}

omit [DecidableEq Node] [DecidableEq Index] in
theorem entryAt_of_follow (reached : follow child memory root path = some node) (place : Index) :
    entryAt child memory root path place = some (memory node place) := by
  simp [entryAt, reached]

variable (unshared : Unshared child memory root depth) (reached : follow child memory root path = some node)
  (inside : path.length ≤ depth)
include unshared reached inside

omit [DecidableEq Node] [DecidableEq Index] in
/-- The node and place of an entry off the written one are not the written ones. -/
private theorem written_elsewhere (short : other.length ≤ depth)
    (arrived : follow child memory root other = some at')
    (different : ¬ (other = path ∧ place = index)) : at' ≠ node ∨ place ≠ index := by
  by_contra hit
  simp only [not_or, not_not] at hit
  obtain ⟨rfl, rfl⟩ := hit
  exact different ⟨unshared other path _ short inside arrived reached, rfl⟩

/-- A write leaves every path alone that does not pass through it. -/
theorem follow_writeEntry_off (entry : Entry) (short : other.length ≤ depth)
    (off : ¬ (path ++ [index]) <+: other) :
    follow child (writeEntry memory node index entry) root other = follow child memory root other := by
  have start : follow child memory root [] = some root := rfl
  apply follow_congr_along start
  intro first step last at' joined _ arrived
  rw [List.nil_append] at joined
  have bounded : first.length ≤ depth := by
    grind
  apply writeEntry_elsewhere
  apply written_elsewhere unshared reached inside bounded arrived
  rintro ⟨rfl, rfl⟩
  exact off ⟨last, by simp [joined]⟩

/-- The path to the written node is kept. -/
theorem follow_writeEntry_self (entry : Entry) :
    follow child (writeEntry memory node index entry) root path = some node := by
  grind [follow_writeEntry_off]

/-- Below a write, paths continue from the child of the new entry. -/
theorem follow_writeEntry_on (entry : Entry) (rest : List Index) :
    follow child (writeEntry memory node index entry) root (path ++ index :: rest) =
      (child entry).bind fun next => follow child (writeEntry memory node index entry) next rest := by
  rw [follow_append, follow_writeEntry_self unshared reached inside]
  simp only [Option.bind_some, follow, writeEntry_here]

/-- Rewriting an entry without moving its child keeps every path. -/
theorem follow_writeEntry_same {entry : Entry} (same : child entry = child (memory node index))
    (short : other.length ≤ depth) :
    follow child (writeEntry memory node index entry) root other = follow child memory root other := by
  by_cases through : (path ++ [index]) <+: other
  · obtain ⟨rest, rfl⟩ := through
    rw [List.append_assoc, List.singleton_append, follow_writeEntry_on unshared reached inside, follow_append,
      reached]
    simp only [Option.bind_some, follow, same]
    cases found : child (memory node index) with
    | none => rfl
    | some next =>
      have below : follow child memory root (path ++ [index]) = some next := by
        rw [follow_snoc index reached, found]
      apply follow_congr_along below
      intro first step last at' joined longer arrived
      have bounded : first.length ≤ depth := by
        grind
      apply writeEntry_elsewhere
      -- A path back to the written node would be a cycle.
      apply written_elsewhere unshared reached inside bounded arrived
      grind
  grind [follow_writeEntry_off]

/-- Clearing an entry prunes exactly the paths through it. -/
theorem follow_writeEntry_prune {entry : Entry} (empty : child entry = none) (short : other.length ≤ depth) :
    follow child (writeEntry memory node index entry) root other =
      if (path ++ [index]) <+: other then none else follow child memory root other := by
  split
  · rename_i through
    obtain ⟨rest, rfl⟩ := through
    grind [follow_writeEntry_on]
  grind [follow_writeEntry_off]

/-- An entry that is not the written one is kept where the path to it is. -/
private theorem entryAt_writeEntry_kept {entry : Entry} (short : other.length ≤ depth)
    (kept : follow child (writeEntry memory node index entry) root other = follow child memory root other)
    (different : ¬ (other = path ∧ place = index)) :
    entryAt child (writeEntry memory node index entry) root other place = entryAt child memory root other place := by
  unfold entryAt
  rw [kept]
  cases arrived : follow child memory root other with
  | none => rfl
  | some at' =>
    simp only [Option.map_some, Option.some.injEq]
    exact writeEntry_elsewhere memory entry
      (written_elsewhere unshared reached inside short arrived different)

/-- Entries off the written place are kept together with their paths. -/
theorem entryAt_writeEntry_off (entry : Entry) (short : other.length ≤ depth)
    (off : ¬ (path ++ [index]) <+: (other ++ [place])) :
    entryAt child (writeEntry memory node index entry) root other place = entryAt child memory root other place := by
  apply entryAt_writeEntry_kept unshared reached inside short
  · grind [follow_writeEntry_off]
  grind

theorem entryAt_writeEntry_here (entry : Entry) :
    entryAt child (writeEntry memory node index entry) root path index = some entry := by
  grind [entryAt_of_follow, follow_writeEntry_self, writeEntry_here]

theorem entryAt_writeEntry_same {entry : Entry} (same : child entry = child (memory node index))
    (short : other.length ≤ depth) :
    entryAt child (writeEntry memory node index entry) root other place =
      if other = path ∧ place = index then some entry else entryAt child memory root other place := by
  split
  · grind [entryAt_writeEntry_here]
  · rename_i different
    exact entryAt_writeEntry_kept unshared reached inside short
      (follow_writeEntry_same unshared reached inside same short) different

theorem entryAt_writeEntry_prune {entry : Entry} (empty : child entry = none) (short : other.length ≤ depth) :
    entryAt child (writeEntry memory node index entry) root other place =
      if other = path ∧ place = index then some entry
      else if (path ++ [index]) <+: other then none else entryAt child memory root other place := by
  have follows : follow child (writeEntry memory node index entry) root other = _ :=
    follow_writeEntry_prune unshared reached inside empty short
  split
  · grind [entryAt_writeEntry_here]
  · rename_i different
    split
    · rename_i through
      rw [if_pos through] at follows
      simp [entryAt, follows]
    · rename_i off
      rw [if_neg off] at follows
      exact entryAt_writeEntry_kept unshared reached inside short follows different

theorem Unshared.prune {entry : Entry} (empty : child entry = none) :
    Unshared child (writeEntry memory node index entry) root depth := by
  intro first second at' firstShort secondShort firstReached secondReached
  rw [follow_writeEntry_prune unshared reached inside empty firstShort] at firstReached
  rw [follow_writeEntry_prune unshared reached inside empty secondShort] at secondReached
  split at firstReached
  · cases firstReached
  · split at secondReached
    · cases secondReached
    · exact unshared first second at' firstShort secondShort firstReached secondReached

theorem Unshared.relabel {entry : Entry} (same : child entry = child (memory node index)) :
    Unshared child (writeEntry memory node index entry) root depth := by
  intro first second at' firstShort secondShort firstReached secondReached
  rw [follow_writeEntry_same unshared reached inside same firstShort] at firstReached
  rw [follow_writeEntry_same unshared reached inside same secondShort] at secondReached
  exact unshared first second at' firstShort secondShort firstReached secondReached

section Graft

variable {entry : Entry} {fresh : Node} (linked : child entry = some fresh)
  (unreached : ∀ other, other.length ≤ depth → follow child memory root other ≠ some fresh)
  (empty : ∀ place, child (memory fresh place) = none)
include linked unreached empty

/-- Hanging a fresh empty node under an entry adds exactly one path. -/
theorem follow_writeEntry_graft (short : other.length ≤ depth) :
    follow child (writeEntry memory node index entry) root other = if other = path ++ [index] then some fresh
      else if (path ++ [index]) <+: other then none else follow child memory root other := by
  by_cases through : (path ++ [index]) <+: other
  · obtain ⟨rest, rfl⟩ := through
    have apart : fresh ≠ node := by
      grind
    rw [List.append_assoc, List.singleton_append, follow_writeEntry_on unshared reached inside, linked]
    cases rest with
    | nil => simp [follow]
    | cons step rest =>
      simp [follow, writeEntry_elsewhere memory entry (.inl apart), empty]
  grind [follow_writeEntry_off]

theorem entryAt_writeEntry_graft (short : other.length ≤ depth) :
    entryAt child (writeEntry memory node index entry) root other place =
      if other = path ∧ place = index then some entry
      else if other = path ++ [index] then some (memory fresh place)
      else if (path ++ [index]) <+: other then none else entryAt child memory root other place := by
  have follows : follow child (writeEntry memory node index entry) root other = _ :=
    follow_writeEntry_graft unshared reached inside linked unreached empty short
  split
  · grind [entryAt_writeEntry_here]
  · rename_i different
    split
    · have apart : fresh ≠ node := by
        grind
      grind [entryAt_of_follow, writeEntry_elsewhere]
    · rename_i elsewhere
      rw [if_neg elsewhere] at follows
      split
      · rename_i through
        rw [if_pos through] at follows
        simp [entryAt, follows]
      · rename_i off
        rw [if_neg off] at follows
        exact entryAt_writeEntry_kept unshared reached inside short follows different

theorem Unshared.graft : Unshared child (writeEntry memory node index entry) root depth := by
  intro first second at' firstShort secondShort firstReached secondReached
  rw [follow_writeEntry_graft unshared reached inside linked unreached empty firstShort] at firstReached
  rw [follow_writeEntry_graft unshared reached inside linked unreached empty secondShort] at secondReached
  split at firstReached
  · grind
  · split at firstReached
    · cases firstReached
    · split at secondReached
      · grind
      · split at secondReached
        · cases secondReached
        · exact unshared first second at' firstShort secondShort firstReached secondReached

end Graft

end Write

end Velox.Lib
