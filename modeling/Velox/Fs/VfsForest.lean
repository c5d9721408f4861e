import Velox.Fs.Vfs
import Velox.Lib.Chain

namespace Velox

variable {M : Type}

/-- Reasons to stop other than the use of a freed node or a wrong `kfree`. -/
def Excused (halt : Lib.Halt FsFault) : Prop := halt ≠ .fault .danglingNode ∧ halt ≠ .fault .badFree

abbrev Sound {α : Type} (call : FsM α) (Post : α → Prop) : Prop := Lib.Ensures Excused call Post

theorem Vfs.node_sound {Excused : Lib.Halt FsFault → Prop} {s : Vfs M} {address : Nat} {node : VfsNode}
    (here : s.nodes address = some node) : Lib.Ensures Excused (s.node address) fun found => node = found := by
  rw [Vfs.node_eq here]
  exact rfl

/-- From a child to the next one. -/
def Vfs.next (s : Vfs M) (link : Option Nat) : Option Nat := (link.bind s.nodes).bind VfsNode.nextSibling

structure Forest (s : Vfs M) (children : Nat → List Nat) : Prop where
  bounded : ∀ {a node}, s.nodes a = some node → a < s.fresh
  linked : ∀ {a node}, s.nodes a = some node → Lib.Segment s.next node.firstChild ((children a).map some) none
  child : ∀ {a node c}, s.nodes a = some node → c ∈ children a → a < c ∧ ∃ below, s.nodes c = some below ∧ below.parent = some a
  parent : ∀ {c node a}, s.nodes c = some node → node.parent = some a → (∃ above, s.nodes a = some above) ∧ c ∈ children a
  nodup : ∀ {a node}, s.nodes a = some node → (children a).Nodup
  typed : ∀ {a node}, s.nodes a = some node → node.ops = some .fat32Dir → node.type &&& vfsNodeDir ≠ 0

/-- `a` is `root` or has it above itself. -/
inductive Below (s : Vfs M) (root : Nat) : Nat → Prop where
  | here : Below s root root
  | under (alive : s.nodes a = some node) (up : node.parent = some above) (below : Below s root above) : Below s root a

section Forest

variable {env : FsEnv} {s t : Vfs M} {children : Nat → List Nat} {dir address : Nat} {node node' : VfsNode}

theorem Forest.vacant (forest : Forest s children) : ∀ a, s.fresh ≤ a → s.nodes a = none := by
  intro a above
  cases here : s.nodes a with
  | none => rfl
  | some node => exact absurd (forest.bounded here) (Nat.not_lt.mpr above)

/-- The forest depends on the nodes only, and addresses may be left out. -/
theorem Forest.of_nodes (forest : Forest s children) (same : t.nodes = s.nodes) (grows : s.fresh ≤ t.fresh) :
    Forest t children where
  bounded := fun here => lt_of_lt_of_le (forest.bounded (same ▸ here)) grows
  linked := fun here => by
    have linked := forest.linked (same ▸ here)
    rwa [show t.next = s.next from funext fun link => by rw [Vfs.next, Vfs.next, same]]
  child := fun here member => by
    rw [same]
    exact forest.child (same ▸ here) member
  parent := fun here up => by
    grind [parent]
  nodup := fun here => forest.nodup (same ▸ here)
  typed := fun here => forest.typed (same ▸ here)

/-- Changing what is kept about a node does not change the tree. -/
theorem Forest.update (forest : Forest s children) (here : s.nodes address = some node)
    (edit : t.nodes = Function.update s.nodes address (some node')) (fresh : t.fresh = s.fresh)
    (parent : node'.parent = node.parent) (first : node'.firstChild = node.firstChild)
    (next : node'.nextSibling = node.nextSibling) (type : node'.type = node.type) (ops : node'.ops = node.ops) :
    Forest t children := by
  have found : ∀ {a other}, t.nodes a = some other → ∃ old, s.nodes a = some old ∧ other.parent = old.parent ∧
      other.firstChild = old.firstChild ∧ other.type = old.type ∧ other.ops = old.ops := by
    intro a other there
    rw [edit] at there
    grind
  have kept : ∀ {a old}, s.nodes a = some old → ∃ other, t.nodes a = some other ∧ other.parent = old.parent := by
    rw [edit]
    grind
  have links : t.next = s.next := by
    funext link
    cases link with
    | none => rfl
    | some a =>
      simp only [Vfs.next, Option.bind_some, edit]
      grind
  refine ⟨fun there => ?_, fun there => ?_, fun there member => ?_, fun there up => ?_, fun there => ?_, fun there => ?_⟩
  · obtain ⟨old, there, -⟩ := found there
    rw [fresh]
    exact forest.bounded there
  · grind [linked]
  · obtain ⟨old, there, -⟩ := found there
    obtain ⟨older, below, below', up⟩ := forest.child there member
    grind
  · grind [parent]
  · grind [nodup]
  grind [typed]

/-- The children after a directory got a new one. -/
def grownChildren (children : Nat → List Nat) (dir fresh : Nat) : Nat → List Nat :=
  Function.update (Function.update children fresh []) dir (fresh :: children dir)

theorem grownChildren_dir : grownChildren children dir fresh dir = fresh :: children dir :=
  Function.update_self ..

theorem grownChildren_fresh (other : fresh ≠ dir) : grownChildren children dir fresh fresh = [] := by
  rw [grownChildren, Function.update_of_ne other, Function.update_self]

theorem grownChildren_other {a : Nat} (notDir : a ≠ dir) (notFresh : a ≠ fresh) :
    grownChildren children dir fresh a = children a := by
  rw [grownChildren, Function.update_of_ne notDir, Function.update_of_ne notFresh]

/-- The nodes after a new one was put in front of a directory's children. -/
structure Sprouted (s t : Vfs M) (dir : Nat) (node node' : VfsNode) : Prop where
  above : t.nodes dir = some { node with firstChild := some s.fresh }
  below : t.nodes s.fresh = some node'
  elsewhere : ∀ {a}, a ≠ dir → a ≠ s.fresh → t.nodes a = s.nodes a

theorem Sprouted.of_edit (other : s.fresh ≠ dir)
    (edit : t.nodes = Function.update (Function.update s.nodes s.fresh (some node')) dir
      (some { node with firstChild := some s.fresh })) : Sprouted s t dir node node' where
  above := by rw [edit, Function.update_self]
  below := by rw [edit, Function.update_of_ne other, Function.update_self]
  elsewhere notDir notFresh := by rw [edit, Function.update_of_ne notDir, Function.update_of_ne notFresh]

section

variable (sprouted : Sprouted s t dir node node')
include sprouted

theorem Sprouted.cases {a : Nat} (there : t.nodes a = some new) :
    (a = dir ∧ new = { node with firstChild := some s.fresh }) ∨ (a = s.fresh ∧ new = node') ∨
      (s.nodes a = some new ∧ a ≠ dir ∧ a ≠ s.fresh) := by
  by_cases atDir : a = dir
  · grind [above]
  by_cases atFresh : a = s.fresh
  · rw [atFresh, sprouted.below] at there
    grind
  grind [elsewhere]

section

variable {a : Nat} (forest : Forest s children) (here : s.nodes dir = some node)
  (there : s.nodes a = some old)
include forest here there

/-- An old node is still there, with its parent. -/
theorem Sprouted.kept :
    ∃ new, t.nodes a = some new ∧ new.parent = old.parent := by
  by_cases same : a = dir
  · subst same
    cases here.symm.trans there
    exact ⟨_, sprouted.above, rfl⟩
  · exact ⟨old, by rw [sprouted.elsewhere same (Nat.ne_of_lt (forest.bounded there))]; exact there, rfl⟩

/-- The chain through the children of an old node is still there. -/
theorem Sprouted.segment :
    Lib.Segment t.next old.firstChild ((children a).map some) none := by
  refine (forest.linked there).congr fun link member => ?_
  obtain ⟨c, inside, rfl⟩ := List.mem_map.mp member
  obtain ⟨-, child, alive, -⟩ := forest.child there inside
  simp only [Vfs.next, Option.bind_some]
  by_cases same : c = dir
  · subst same
    rw [sprouted.above, here]
    rfl
  · rw [sprouted.elsewhere same (Nat.ne_of_lt (forest.bounded alive))]

end

end

section

variable (forest : Forest s children)
include forest

/-- A new child in front of the others. -/
theorem Forest.grown (here : s.nodes dir = some node) (own : node'.parent = some dir)
    (first : node'.firstChild = none) (next : node'.nextSibling = node.firstChild)
    (typed : node'.ops = some .fat32Dir → node'.type &&& vfsNodeDir ≠ 0)
    (edit : t.nodes = Function.update (Function.update s.nodes s.fresh (some node')) dir
      (some { node with firstChild := some s.fresh })) (fresh : t.fresh = s.fresh + 1) :
    Forest t (grownChildren children dir s.fresh) := by
  have below := forest.bounded here
  have other : s.fresh ≠ dir := fun same => absurd below (by omega)
  have sprouted := Sprouted.of_edit other edit
  -- A child of an old node is a child still.
  have stays : ∀ {a c old}, s.nodes a = some old → c ∈ children a →
      a < c ∧ ∃ child, t.nodes c = some child ∧ child.parent = some a := by
    intro a c old there member
    obtain ⟨older, child, alive, up⟩ := forest.child there member
    obtain ⟨still, there, same⟩ := sprouted.kept forest here alive
    grind
  constructor
  case bounded =>
    intro a new there
    rw [fresh]
    rcases sprouted.cases there with ⟨rfl, -⟩ | ⟨rfl, -⟩ | ⟨old, -⟩
    · omega
    · exact Nat.lt_succ_self _
    · exact Nat.lt_succ_of_lt (forest.bounded old)
  case linked =>
    intro a new there
    rcases sprouted.cases there with ⟨rfl, rfl⟩ | ⟨rfl, rfl⟩ | ⟨old, notDir, notFresh⟩
    · rw [grownChildren_dir]
      refine ⟨rfl, ?_⟩
      rw [Vfs.next, Option.bind_some, sprouted.below, Option.bind_some, next]
      exact sprouted.segment forest here here
    · rw [grownChildren_fresh other, first]
      rfl
    grind [grownChildren_other, Sprouted.segment]
  case child =>
    intro a new c there member
    rcases sprouted.cases there with ⟨rfl, rfl⟩ | ⟨rfl, rfl⟩ | ⟨old, notDir, notFresh⟩
    · rw [grownChildren_dir] at member
      rcases List.mem_cons.mp member with rfl | member
      · grind [Sprouted.below]
      grind
    · grind [grownChildren_fresh]
    grind [grownChildren_other]
  case parent =>
    intro c new a there up
    have known : (∃ above, s.nodes a = some above) ∧ (c ∈ children a ∨ (c = s.fresh ∧ a = dir)) := by
      rcases sprouted.cases there with ⟨rfl, rfl⟩ | ⟨rfl, rfl⟩ | ⟨old, -⟩
      · exact (forest.parent here up).imp_right .inl
      · grind
      · exact (forest.parent old up).imp_right .inl
    obtain ⟨⟨above, old⟩, member⟩ := known
    obtain ⟨still, there', -⟩ := sprouted.kept forest here old
    by_cases same : a = dir
    · grind [grownChildren_dir]
    · rw [grownChildren_other same (Nat.ne_of_lt (forest.bounded old))]
      grind
  case nodup =>
    intro a new there
    rcases sprouted.cases there with ⟨rfl, rfl⟩ | ⟨rfl, rfl⟩ | ⟨old, notDir, notFresh⟩
    · rw [grownChildren_dir]
      refine List.nodup_cons.mpr ⟨fun member => ?_, forest.nodup here⟩
      obtain ⟨-, child, alive, -⟩ := forest.child here member
      exact absurd (forest.bounded alive) (lt_irrefl _)
    · rw [grownChildren_fresh other]
      exact List.nodup_nil
    grind [grownChildren_other, nodup]
  case typed =>
    intro a new there
    rcases sprouted.cases there with ⟨rfl, rfl⟩ | ⟨rfl, rfl⟩ | ⟨old, -⟩
    · grind [typed]
    · exact typed
    · exact forest.typed old

/-- A new node that has no parent. -/
theorem Forest.root (own : node.parent = none) (first : node.firstChild = none)
    (typed : node.ops = some .fat32Dir → node.type &&& vfsNodeDir ≠ 0)
    (edit : t.nodes = Function.update s.nodes s.fresh (some node)) (fresh : t.fresh = s.fresh + 1) :
    Forest t (Function.update children s.fresh []) := by
  have atFresh : t.nodes s.fresh = some node := by rw [edit, Function.update_self]
  have elsewhere : ∀ {a}, a ≠ s.fresh → t.nodes a = s.nodes a := fun other => by rw [edit, Function.update_of_ne other]
  have old : ∀ {a other}, s.nodes a = some other → a ≠ s.fresh := fun there => Nat.ne_of_lt (forest.bounded there)
  have cases' : ∀ {a new}, t.nodes a = some new → (a = s.fresh ∧ new = node) ∨ (s.nodes a = some new ∧ a ≠ s.fresh) := by
    grind
  constructor
  case bounded =>
    intro a new there
    rw [fresh]
    rcases cases' there with ⟨rfl, -⟩ | ⟨there, -⟩
    · exact Nat.lt_succ_self _
    · exact Nat.lt_succ_of_lt (forest.bounded there)
  case linked =>
    intro a new there
    rcases cases' there with ⟨rfl, rfl⟩ | ⟨there, other⟩
    · rw [Function.update_self, first]
      rfl
    · rw [Function.update_of_ne other]
      refine (forest.linked there).congr fun link member => ?_
      obtain ⟨c, inside, rfl⟩ := List.mem_map.mp member
      obtain ⟨-, child, alive, -⟩ := forest.child there inside
      simp only [Vfs.next, Option.bind_some, elsewhere (old alive)]
  case child =>
    intro a new c there member
    rcases cases' there with ⟨rfl, rfl⟩ | ⟨there, other⟩
    · grind
    · rw [Function.update_of_ne other] at member
      obtain ⟨older, child, alive, up⟩ := forest.child there member
      grind
  case parent =>
    grind [parent]
  case nodup =>
    grind [nodup]
  grind [typed]

theorem Forest.le_of_below {root a : Nat} (below : Below s root a) : root ≤ a := by
  induction below with
  | here => exact le_refl _
  | under alive up _ ih =>
    obtain ⟨⟨above, there⟩, member⟩ := forest.parent alive up
    exact le_trans ih (le_of_lt (forest.child there member).1)

omit forest in
theorem Below.trans {root a : Nat} (upper : Below s root a) (lower : Below s a c) : Below s root c := by
  induction lower with
  | here => exact upper
  | under alive up _ ih => exact .under alive up ih

theorem Forest.below_child {a : Nat} (here : s.nodes a = some node) (member : c ∈ children a) :
    Below s a c := by
  obtain ⟨-, below, alive, up⟩ := forest.child here member
  exact .under alive up .here

/-- What lies below a node lies below one of its children. -/
theorem Forest.below_cases {a : Nat} (below : Below s a c) :
    c = a ∨ ∃ child ∈ children a, Below s child c := by
  induction below with
  | here => exact .inl rfl
  | under alive up _ ih =>
    obtain ⟨-, member⟩ := forest.parent alive up
    rcases ih with rfl | ⟨child, inside, below⟩
    · exact .inr ⟨_, member, .here⟩
    · exact .inr ⟨child, inside, .under alive up below⟩

omit forest in
/-- Two nodes above a third one are above each other. -/
theorem Below.linear {a : Nat} (first : Below s a c) (second : Below s b c) : Below s a b ∨ Below s b a := by
  induction first generalizing b with
  | here => exact .inr second
  | under alive up below ih =>
    cases second with
    | here => exact .inl (.under alive up below)
    | under alive' up' below' =>
      grind

/-- The trees of two children have nothing in common. -/
theorem Forest.siblings_apart {a : Nat} (here : s.nodes a = some node) (member : b ∈ children a)
    (member' : b' ∈ children a) (first : Below s b c) (second : Below s b' c) : b = b' := by
  obtain ⟨younger, _, alive, up⟩ := forest.child here member
  obtain ⟨younger', _, alive', up'⟩ := forest.child here member'
  rcases first.linear second with above | above
  · cases above with
    | here => rfl
    | under there there' above =>
      cases alive'.symm.trans there
      cases up'.symm.trans there'
      exact absurd (forest.le_of_below above) (by omega)
  · cases above with
    | here => rfl
    | under there there' above =>
      cases alive.symm.trans there
      cases up.symm.trans there'
      exact absurd (forest.le_of_below above) (by omega)

/-- Without a whole tree the others are as they were. -/
theorem Forest.prune {root : Nat} (here : s.nodes root = some node) (top : node.parent = none)
    (gone : ∀ a, Below s root a → t.nodes a = none)
    (kept : ∀ a, ¬ Below s root a → t.nodes a = s.nodes a) (fresh : t.fresh = s.fresh) :
    Forest t children := by
  have old : ∀ {a other}, t.nodes a = some other → s.nodes a = some other ∧ ¬ Below s root a := by
    grind
  have child : ∀ {a other c}, t.nodes a = some other → c ∈ children a →
      a < c ∧ ∃ below, t.nodes c = some below ∧ s.nodes c = some below ∧ below.parent = some a := by
    intro a other c there member
    obtain ⟨before, apart⟩ := old there
    obtain ⟨older, below, alive, up⟩ := forest.child before member
    refine ⟨older, below, ?_, alive, up⟩
    rw [kept c fun under => ?_, alive]
    cases under with
    | here =>
      grind
    | under alive' up' below' =>
      grind
  refine ⟨fun there => ?_, fun there => ?_, fun there member => ?_, fun there up => ?_, fun there => ?_, fun there => ?_⟩
  · rw [fresh]
    exact forest.bounded (old there).1
  · refine (forest.linked (old there).1).congr fun link member => ?_
    obtain ⟨c, inside, rfl⟩ := List.mem_map.mp member
    obtain ⟨-, below, alive, alive', -⟩ := child there inside
    simp only [Vfs.next, Option.bind_some, alive, alive']
  · grind
  · obtain ⟨before, apart⟩ := old there
    obtain ⟨⟨above, alive⟩, member⟩ := forest.parent before up
    exact ⟨⟨above, by rw [kept _ fun below => apart (.under before up below), alive]⟩, member⟩
  · exact forest.nodup (old there).1
  · exact forest.typed (old there).1

/-- The children that a search passes. -/
theorem Forest.length_children (here : s.nodes dir = some node) :
    (children dir).length ≤ s.fresh := by
  have bounded : (children dir) ⊆ List.range s.fresh := by
    intro c member
    obtain ⟨-, below, alive, -⟩ := forest.child here member
    exact List.mem_range.mpr (forest.bounded alive)
  calc (children dir).length ≤ (List.range s.fresh).length :=
        ((forest.nodup here).subperm bounded).length_le
    _ = s.fresh := List.length_range

end

/-- Whether a child is the one that a search wants. -/
def Vfs.wants (s : Vfs M) (wanted : VfsNode → Bool) (child : Nat) : Bool := (s.nodes child).any wanted

theorem findChild_walk {cs : List Nat} {first : Option Nat} {fuel : Nat}
    (segment : Lib.Segment s.next first (cs.map some) none)
    (alive : ∀ c ∈ cs, ∃ node, s.nodes c = some node) (enough : cs.length < fuel) :
    Lib.loop (findChildPass s wanted) fuel first = some (.ok (cs.find? (s.wants wanted))) := by
  induction cs generalizing first fuel with
  | nil =>
    obtain ⟨fuel, rfl⟩ : ∃ rest, fuel = rest + 1 := ⟨fuel - 1, by omega⟩
    obtain rfl : first = none := segment
    rfl
  | cons c rest ih =>
    obtain ⟨fuel, rfl⟩ : ∃ rest, fuel = rest + 1 := ⟨fuel - 1, by omega⟩
    obtain ⟨rfl, onward⟩ := segment
    obtain ⟨node, here⟩ := alive c List.mem_cons_self
    have test : s.wants wanted c = wanted node := by rw [Vfs.wants, here, Option.any_some]
    simp only [Lib.loop, findChildPass, here]
    by_cases hit : wanted node = true
    · grind
    · rw [Vfs.next, Option.bind_some, here, Option.bind_some] at onward
      grind

section

variable (forest : Forest s children) (here : s.nodes dir = some node)
include forest here

theorem Forest.children_alive :
    ∀ c ∈ children dir, ∃ below, s.nodes c = some below := by
  intro c member
  obtain ⟨-, below, alive, -⟩ := forest.child here member
  exact ⟨below, alive⟩

/-- The search finds the first child that is wanted. -/
theorem Forest.findChild_eq {fuel : Nat} (enough : s.fresh < fuel) :
    findChild s fuel node wanted = .ok ((children dir).find? (s.wants wanted)) := by
  rw [findChild, findChild_walk (forest.linked here) (forest.children_alive here)
    (lt_of_le_of_lt (forest.length_children here) enough)]
  rfl

theorem Forest.findChild_sound (wanted : VfsNode → Bool) (fuel : Nat) :
    Sound (findChild s fuel node wanted) fun found => found = (children dir).find? (s.wants wanted) := by
  unfold findChild
  cases ended : Lib.loop (findChildPass s wanted) fuel node.firstChild with
  | none => exact ⟨nofun, nofun⟩
  | some result =>
    obtain rfl := Lib.loop_unique ended
      (findChild_walk (forest.linked here) (forest.children_alive here) (Nat.lt_succ_self _))
    exact rfl

end

end Forest

end Velox
