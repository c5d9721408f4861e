import Mathlib.Data.Fintype.Order
import Mathlib.Data.List.Nodup
import Mathlib.Logic.Relation

/-! Depth-first traversal of places that hold items, where an item can lead to a
further place and no record is kept of the places seen. -/

namespace Velox.Lib

section Visit

variable {Place Item : Type} (items : Place → List Item) (child : Item → Option Place)

/-- Each item stands behind everything that was found below it. -/
def visitItems (visit : Place → Option (List Item)) : List Item → Option (List Item)
  | [] => some []
  | item :: rest => do
    let below ← (child item).elim (some []) visit
    let later ← visitItems visit rest
    return below ++ item :: later

/-- The traversal, given up below `fuel` nested places. -/
def visit : Nat → Place → Option (List Item)
  | 0, _ => none
  | fuel + 1, place => visitItems child (visit fuel) (items place)

/-- What a traversal of the items `todo` that comes to an end puts out. -/
inductive Listed : List Item → List Item → Prop where
  | nil : Listed [] []
  | leaf (last : child item = none) (later : Listed rest out) : Listed (item :: rest) (item :: out)
  | node (leads : child item = some place) (below : Listed (items place) found) (later : Listed rest out) :
      Listed (item :: rest) (found ++ item :: out)

/-- The second item is at the place that the first one leads to. -/
def Under (first second : Item) : Prop := ∃ place, child first = some place ∧ second ∈ items place

/-- Items that a traversal from `root` can come to. -/
inductive Reachable (root : Place) : Item → Prop where
  | root (member : item ∈ items root) : Reachable root item
  | under (earlier : Reachable root parent) (next : Under items child parent item) : Reachable root item

variable {items child} {root : Place} {todo out : List Item} {item : Item}

theorem visitItems_append (visit : Place → Option (List Item)) (first second : List Item) :
    visitItems child visit (first ++ second) =
      (visitItems child visit first).bind fun out => (visitItems child visit second).map (out ++ ·) := by
  induction first with
  | nil => simp [visitItems]
  | cons item rest ih =>
    simp only [List.cons_append, visitItems, ih]
    cases (child item).elim (some []) visit <;> cases visitItems child visit rest <;>
      cases visitItems child visit second <;> simp

theorem visitItems_listed {visit : Place → Option (List Item)}
    (places : ∀ {place out}, visit place = some out → Listed items child (items place) out)
    (ended : visitItems child visit todo = some out) : Listed items child todo out := by
  induction todo generalizing out with
  | nil => cases ended; exact .nil
  | cons item rest ih =>
    simp only [visitItems, Option.bind_eq_bind, Option.bind_eq_some_iff] at ended
    obtain ⟨below, found, later, rest', same⟩ := ended
    cases same
    cases leads : child item with
    | none =>
      rw [leads] at found
      cases found
      exact .leaf leads (ih rest')
    | some place =>
      rw [leads] at found
      exact .node leads (places found) (ih rest')

theorem visit_listed {fuel : Nat} {place : Place} (ended : visit items child fuel place = some out) :
    Listed items child (items place) out := by
  induction fuel generalizing place out with
  | zero => cases ended
  | succ fuel ih => exact visitItems_listed ih ended

theorem visitItems_mono {visit more : Place → Option (List Item)}
    (kept : ∀ {place out}, visit place = some out → more place = some out)
    (ended : visitItems child visit todo = some out) : visitItems child more todo = some out := by
  induction todo generalizing out with
  | nil => exact ended
  | cons item rest ih =>
    simp only [visitItems, Option.bind_eq_bind, Option.bind_eq_some_iff] at ended ⊢
    obtain ⟨below, found, later, rest', same⟩ := ended
    refine ⟨below, ?_, later, ih rest', same⟩
    cases leads : child item with
    | none => simpa [leads] using found
    | some place => rw [leads] at found; exact kept found

theorem visit_succ {fuel : Nat} {place : Place} (ended : visit items child fuel place = some out) :
    visit items child (fuel + 1) place = some out := by
  induction fuel generalizing place out with
  | zero => cases ended
  | succ fuel ih => exact visitItems_mono ih ended

theorem visit_mono {fuel more : Nat} (enough : fuel ≤ more) {place : Place}
    (ended : visit items child fuel place = some out) : visit items child more place = some out := by
  induction enough with
  | refl => exact ended
  | step _ ih => exact visit_succ ih

theorem Listed.visitItems (listed : Listed items child todo out) :
    ∃ fuel, visitItems child (visit items child fuel) todo = some out := by
  induction listed with
  | nil => exact ⟨0, rfl⟩
  | leaf last _ ih =>
    obtain ⟨fuel, ended⟩ := ih
    exact ⟨fuel, by simp [Lib.visitItems, last, ended]⟩
  | node leads _ _ ihBelow ihLater =>
    -- The item's own place needs one level more than what is found there.
    obtain ⟨fuel, found⟩ := ihBelow
    obtain ⟨fuel', ended⟩ := ihLater
    refine ⟨max (fuel + 1) fuel', ?_⟩
    have below := visit_mono (Nat.le_max_left (fuel + 1) fuel') (show visit items child (fuel + 1) _ = _ from found)
    have later := visitItems_mono (visit_mono (Nat.le_max_right (fuel + 1) fuel')) ended
    simp [Lib.visitItems, leads, below, later]

theorem exists_visit_iff {place : Place} :
    (∃ fuel, visit items child fuel place = some out) ↔ Listed items child (items place) out := by
  constructor
  · rintro ⟨fuel, ended⟩
    exact visit_listed ended
  · intro listed
    obtain ⟨fuel, ended⟩ := listed.visitItems
    exact ⟨fuel + 1, ended⟩

theorem Listed.mem_iff (listed : Listed items child todo out) :
    item ∈ out ↔ ∃ first ∈ todo, Relation.ReflTransGen (Under items child) first item := by
  induction listed with
  | nil => simp
  | leaf last _ ih =>
    simp only [List.mem_cons, ih, exists_eq_or_imp]
    rw [Relation.ReflTransGen.cases_head_iff]
    simp [Under, last, eq_comm]
  | node leads _ _ ihBelow ihLater =>
    simp only [List.mem_append, List.mem_cons, ihBelow, ihLater, exists_eq_or_imp]
    rw [← or_assoc, or_comm (b := item = _)]
    refine or_congr_left ?_
    rw [Relation.ReflTransGen.cases_head_iff]
    refine or_congr eq_comm ?_
    simp [Under, leads]

theorem reachable_iff : Reachable items child root item ↔
    ∃ first ∈ items root, Relation.ReflTransGen (Under items child) first item := by
  constructor
  · intro reached
    induction reached with
    | root member => exact ⟨_, member, .refl⟩
    | under _ next ih =>
      obtain ⟨first, member, path⟩ := ih
      exact ⟨first, member, path.tail next⟩
  · rintro ⟨first, member, path⟩
    induction path with
    | refl => exact .root member
    | tail _ next ih => exact ih.under next

theorem Listed.cons (listed : Listed items child todo out) (ends : Acc (flip (Under items child)) item) :
    ∃ out, Listed items child (item :: todo) out := by
  induction ends generalizing todo out with
  | intro item _ ih =>
    cases leads : child item with
    | none => exact ⟨_, .leaf leads listed⟩
    | some place =>
      have below : ∀ todo ⊆ items place, ∃ found, Listed items child todo found := by
        intro todo inside
        induction todo with
        | nil => exact ⟨[], .nil⟩
        | cons next todo ihTodo =>
          obtain ⟨member, inside⟩ := List.cons_subset.mp inside
          obtain ⟨found, listed⟩ := ihTodo inside
          exact ih next ⟨place, leads, member⟩ listed
      obtain ⟨found, listed'⟩ := below (items place) (List.Subset.refl _)
      exact ⟨_, .node leads listed' listed⟩

/-- A traversal ends iff nothing in it has an endless way down. -/
theorem exists_listed_iff :
    (∃ out, Listed items child todo out) ↔ ∀ item ∈ todo, Acc (flip (Under items child)) item := by
  constructor
  · rintro ⟨out, listed⟩
    induction listed with
    | nil => simp
    | leaf last _ ih =>
      refine List.forall_mem_cons.mpr ⟨⟨_, ?_⟩, ih⟩
      rintro _ ⟨place, leads, _⟩
      simp [last] at leads
    | node leads _ _ ihBelow ihLater =>
      refine List.forall_mem_cons.mpr ⟨⟨_, ?_⟩, ihLater⟩
      rintro next ⟨place, leads', member⟩
      rw [leads, Option.some.injEq] at leads'
      exact ihBelow next (leads' ▸ member)
  · intro ends
    induction todo with
    | nil => exact ⟨[], .nil⟩
    | cons item rest ih =>
      obtain ⟨first, ends⟩ := List.forall_mem_cons.mp ends
      obtain ⟨later, listed⟩ := ih ends
      exact listed.cons first

section Homes

variable (unique : ∀ place, (items place).Nodup)
  (home : ∀ {item place other}, item ∈ items place → item ∈ items other → place = other)
  (top : ∀ item, child item ≠ some root)
include home

/-- Reachable items that lead to one place with something in it are the same. -/
def OneParent (items : Place → List Item) (child : Item → Option Place) (root : Place) : Prop :=
  ∀ {first second place}, Reachable items child root first → Reachable items child root second →
    child first = some place → child second = some place → items place ≠ [] → first = second

include top in
theorem OneParent.acyclic (one : OneParent items child root) (reached : Reachable items child root item) :
    ¬ Relation.TransGen (Under items child) item item := by
  have onward : ∀ {first last}, Reachable items child root first →
      Relation.ReflTransGen (Under items child) first last → Reachable items child root last := by
    intro first last start path
    induction path with
    | refl => exact start
    | tail _ next ih => exact ih.under next
  induction reached with
  | root member =>
    intro cycle
    obtain ⟨before, -, place, leads, member'⟩ := Relation.TransGen.tail'_iff.mp cycle
    exact top before (home member' member ▸ leads)
  | under earlier next ih =>
    -- The way back comes through the one item that leads here, which then has a cycle too.
    intro cycle
    obtain ⟨before, path, place, leads, member⟩ := Relation.TransGen.tail'_iff.mp cycle
    obtain ⟨place', leads', member'⟩ := next
    have same := home member' member
    subst same
    have parent := one (onward (earlier.under ⟨_, leads', member'⟩) path) earlier leads leads' (List.ne_nil_of_mem member)
    subst parent
    exact ih (.head' ⟨_, leads', member'⟩ path)

include top in
theorem OneParent.ends [Finite Item] (one : OneParent items child root) : ∃ out, Listed items child (items root) out := by
  rw [exists_listed_iff]
  intro item member
  let Down := fun later earlier => Reachable items child root earlier ∧ Under items child earlier later
  have irreflexive : Std.Irrefl (Relation.TransGen Down) := by
    refine ⟨fun item cycle => ?_⟩
    obtain ⟨-, -, reached, -⟩ := Relation.TransGen.tail'_iff.mp cycle
    have upward := Relation.transGen_swap.mpr cycle
    exact one.acyclic home top reached (upward.lift id fun _ _ step => step.2)
  have ended := (Finite.wellFounded_of_trans_of_irrefl (Relation.TransGen Down)).apply item
  have reached : Reachable items child root item := .root member
  clear member
  induction ended with
  | intro item _ ih =>
    exact ⟨_, fun next step => ih next (.single ⟨reached, step⟩) (reached.under step)⟩

section Counts

variable [DecidableEq Item] [DecidableEq Place]
include unique

/-- An item is found as often as something leads to its place. -/
theorem Listed.count_eq {place : Place} (listed : Listed items child todo out) (member : item ∈ items place) :
    out.count item = todo.count item + out.countP (child · = some place) := by
  have once : ∀ other, (items other).count item = if other = place then 1 else 0 := by
    intro other
    split
    · rename_i same
      exact List.count_eq_one_of_mem (unique other) (same ▸ member)
    · rename_i different
      exact List.count_eq_zero.mpr fun member' => different (home member' member)
  induction listed with
  | nil => simp
  | leaf last _ ih => simp [List.count_cons, last, ih]; omega
  | node leads _ _ ihBelow ihLater =>
    simp only [List.count_append, List.count_cons, List.countP_append, List.countP_cons, ihBelow, ihLater, once,
      leads, Option.some.injEq, decide_eq_true_eq]
    omega

include top in
/-- The traversal ends with every item once iff no two items that it comes to lead to one place
with something in it. -/
theorem exists_listed_nodup_iff [Finite Item] :
    (∃ out, Listed items child (items root) out ∧ out.Nodup) ↔ OneParent items child root := by
  constructor
  · rintro ⟨out, listed, nodup⟩ first second place reached reached' leads leads' filled
    obtain ⟨item, member⟩ := List.exists_mem_of_ne_nil _ filled
    have count := listed.count_eq unique home member
    have bound := List.nodup_iff_count_le_one.mp nodup item
    by_contra different
    have both : [first, second].Subperm out := by
      refine (List.nodup_cons.mpr ⟨by simpa using different, List.nodup_singleton _⟩).subperm ?_
      intro other member
      rw [listed.mem_iff, ← reachable_iff]
      rcases List.mem_pair.mp member with rfl | rfl
      · exact reached
      · exact reached'
    have two := both.countP_le (child · = some place)
    simp [leads, leads'] at two
    omega
  · intro one
    obtain ⟨out, listed⟩ := one.ends home top
    refine ⟨out, listed, List.nodup_iff_count_eq_one.mpr fun item member => ?_⟩
    rw [listed.mem_iff, ← reachable_iff] at member
    -- Down from the root, each item is found as often as the one item that leads to it.
    induction member with
    | root member =>
      rw [listed.count_eq unique home member, List.count_eq_one_of_mem (unique root) member]
      simp [top]
    | @under parent item earlier next ih =>
      obtain ⟨place, leads, member⟩ := next
      have away : item ∉ items root := fun member' => top parent (home member member' ▸ leads)
      rw [listed.count_eq unique home member, List.count_eq_zero.mpr away, Nat.zero_add, ← ih]
      refine List.countP_congr fun other member' => ?_
      rw [listed.mem_iff, ← reachable_iff] at member'
      simp only [decide_eq_true_eq, beq_iff_eq]
      exact ⟨fun leads' => one member' earlier leads' leads (List.ne_nil_of_mem member), fun same => same ▸ leads⟩

end Counts

end Homes

end Visit

end Velox.Lib
