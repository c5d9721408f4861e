import Velox.Fs.VfsCalls
import Velox.Fs.VfsMounts
import Mathlib.Algebra.BigOperators.Group.Finset.Basic

namespace Velox

open Finset

variable {node : VfsNode} {a address : Nat}

def Fat32Inode.blocks (inode : Fat32Inode) (address : Nat) : Multiset Block :=
  match inode.dirCache with
  | none => {.inode address}
  | some _ => {.dirCache address, .inode address}

def VfsNode.blocks (node : VfsNode) (address : Nat) : Multiset Block :=
  match node.data with
  | none => {.name address, .node address}
  | some inode => inode.blocks address + {.name address, .node address}

def VfsMount.blocks (mnt : VfsMount) : Multiset Block := {.mount mnt.root, .path mnt.root}

section Blocks

variable {M : Type} {s t : Vfs M}

def Vfs.blocksAt (s : Vfs M) (address : Nat) : Multiset Block :=
  match s.nodes address with
  | none => 0
  | some node => node.blocks address

def Vfs.treeBlocks (s : Vfs M) : Multiset Block := ∑ address ∈ range s.fresh, s.blocksAt address

def mountBlocks (mounts : List VfsMount) : Multiset Block := (mounts.map VfsMount.blocks).sum

def fileBlocks (files : Nat → Option VfsFile) (opened : Nat) : Multiset Block :=
  ∑ file ∈ range opened, if (files file).isSome then {.file file} else 0

/-- Every block that the nodes, the mounts and the open files are made of. -/
def Vfs.blocks (s : Vfs M) : Multiset Block := s.treeBlocks + mountBlocks s.mounts + fileBlocks s.files s.opened

theorem blocksAt_some (here : s.nodes address = some node) :
    s.blocksAt address = node.blocks address := by
  rw [Vfs.blocksAt, here]

theorem blocksAt_none (vacant : s.nodes address = none) : s.blocksAt address = 0 := by
  rw [Vfs.blocksAt, vacant]

theorem blocksAt_congr (same : t.nodes address = s.nodes address) : t.blocksAt address = s.blocksAt address := by
  rw [Vfs.blocksAt, Vfs.blocksAt, same]

/-- Addresses that are not in use yet hold nothing. -/
theorem treeBlocks_range (forest : Forest s children) (grows : s.fresh ≤ n) :
    ∑ address ∈ range n, s.blocksAt address = s.treeBlocks := by
  refine (sum_subset (range_subset_range.mpr grows) fun a _ outside => ?_).symm
  exact blocksAt_none (forest.vacant a (Nat.not_lt.mp fun below => outside (mem_range.mpr below)))

/-- One node of two trees that differ only there. -/
theorem sum_update {f g : Nat → Multiset Block} {added : Multiset Block}
    (inside : a < n) (other : ∀ x, x ≠ a → g x = f x) (here : g a = added + f a) :
    ∑ x ∈ range n, g x = added + ∑ x ∈ range n, f x := by
  rw [← add_sum_erase _ g (mem_range.mpr inside), ← add_sum_erase _ f (mem_range.mpr inside), here, add_assoc]
  grind [sum_congr]

section Files

variable {files : Nat → Option VfsFile} {opened file : Nat} {held held' : VfsFile}

theorem fileBlocks_open : fileBlocks (Function.update files opened (some held)) (opened + 1) =
    {.file opened} + fileBlocks files opened := by
  rw [fileBlocks, sum_range_succ, Function.update_self, add_comm]
  refine congrArg _ (sum_congr rfl fun file member => ?_)
  grind

theorem fileBlocks_close (there : files file = some held) (below : file < opened) :
    fileBlocks files opened = {.file file} + fileBlocks (Function.update files file none) opened := by
  refine sum_update below (fun other apart => ?_) ?_
  · grind
  grind

theorem fileBlocks_update (there : files file = some held) :
    fileBlocks (Function.update files file (some held')) opened = fileBlocks files opened := by
  refine sum_congr rfl fun other _ => ?_
  grind

end Files

end Blocks

section Effects

variable {M : Type} {env : FsEnv} {s t : Vfs M} {children : Nat → List Nat} {touched : Nat} {blocks blocks' : Multiset Block}

/-- A node that changes in place keeps its blocks and may get some more. -/
theorem treeBlocks_edited {added : Multiset Block} (forest : Forest s children)
    (here : s.nodes touched = some node)
    (edit : Edited s (Function.update s.nodes touched (some node')) s.fresh t)
    (more : node'.blocks touched = added + node.blocks touched) :
    t.treeBlocks = added + s.treeBlocks := by
  rw [Vfs.treeBlocks, edit.fresh]
  refine sum_update (forest.bounded here) (fun x other => blocksAt_congr ?_) ?_
  · rw [edit.nodes, Function.update_of_ne other]
  · rw [blocksAt_some here, ← more, blocksAt_some]
    rw [edit.nodes, Function.update_self]

/-- An effect hands out the blocks of what it adds. -/
theorem Effect.added (effect : Effect env s blocks touched t blocks') (forest : Forest s children) :
    ∃ added, blocks' = added + blocks ∧ t.treeBlocks = added + s.treeBlocks := by
  cases effect with
  | same kept grows =>
    refine ⟨0, (zero_add _).symm, ?_⟩
    have same : t.blocksAt = s.blocksAt := funext fun a => blocksAt_congr (by rw [kept.nodes])
    rw [zero_add, Vfs.treeBlocks, same, treeBlocks_range forest grows]
  | grown child =>
    obtain ⟨inode, ent, -, -, -, edit⟩ := child.entry
    have below := forest.bounded child.here
    have last : t.blocksAt s.fresh = {.inode s.fresh, .name s.fresh, .node s.fresh} := by
      rw [Vfs.blocksAt, edit.nodes, Function.update_of_ne (Nat.ne_of_gt below), Function.update_self]
      rfl
    have rest : ∑ a ∈ range s.fresh, t.blocksAt a = s.treeBlocks := by
      refine sum_congr rfl fun a member => ?_
      rw [Vfs.blocksAt, Vfs.blocksAt, edit.nodes]
      by_cases same : a = touched
      · rw [same, Function.update_self, child.here]
        rfl
      grind
    refine ⟨{.inode s.fresh, .name s.fresh, .node s.fresh}, by simp, ?_⟩
    rw [Vfs.treeBlocks, edit.fresh, sum_range_succ, last, rest, add_comm]
  | listed here _ data unlisted _ edit =>
    refine ⟨{.dirCache touched}, rfl, treeBlocks_edited forest here edit ?_⟩
    simp only [VfsNode.blocks, data, Fat32Inode.blocks, unlisted]
    rfl
  | restated here data _ _ _ _ edit =>
    refine ⟨0, (zero_add _).symm, treeBlocks_edited forest here edit ?_⟩
    simp only [VfsNode.blocks, data, Fat32Inode.blocks, zero_add]

end Effects

section Felling

open Classical

variable {M : Type} {mem : Allocator M} {Owns : M → Multiset Block → Prop} {env : FsEnv} {s t u : Vfs M}
variable {children : Nat → List Nat} {blocks : Multiset Block}

/-- The blocks of a whole tree. -/
noncomputable def belowBlocks (s : Vfs M) (root : Nat) : Multiset Block :=
  ∑ address ∈ range s.fresh with Below s root address, s.blocksAt address

/-- The tree of a node is the node and the trees of its children. -/
theorem belowBlocks_eq (forest : Forest s children) (here : s.nodes a = some node) :
    belowBlocks s a = node.blocks a + ((children a).map (belowBlocks s)).sum := by
  have split : (range s.fresh).filter (Below s a) =
      insert a ((children a).toFinset.biUnion fun c => (range s.fresh).filter (Below s c)) := by
    ext x
    simp only [mem_filter, mem_range, mem_insert, mem_biUnion, List.mem_toFinset]
    constructor
    · grind [Forest.below_cases]
    · rintro (rfl | ⟨c, member, inside, below⟩)
      · exact ⟨forest.bounded here, .here⟩
      · exact ⟨inside, (forest.below_child here member).trans below⟩
  have outside : a ∉ (children a).toFinset.biUnion fun c => (range s.fresh).filter (Below s c) := by
    simp only [mem_biUnion, List.mem_toFinset, mem_filter, not_exists, not_and]
    intro c member _ below
    have older := (forest.child here member).1
    exact absurd (forest.le_of_below below) (Nat.not_le.mpr older)
  have disjoint : ((children a).toFinset : Set Nat).PairwiseDisjoint fun c => (range s.fresh).filter (Below s c) := by
    intro c member c' member' other
    refine disjoint_left.mpr fun x below below' => other ?_
    exact forest.siblings_apart here (List.mem_toFinset.mp member) (List.mem_toFinset.mp member') (mem_filter.mp below).2
      (mem_filter.mp below').2
  rw [belowBlocks, split, sum_insert outside, sum_biUnion disjoint, List.sum_toFinset _ (forest.nodup here),
    blocksAt_some here]
  rfl

/-- These nodes are gone, and besides at most the memory has changed. -/
structure Felled (s : Vfs M) (Gone : Nat → Prop) (t : Vfs M) : Prop where
  gone : ∀ x, Gone x → t.nodes x = none
  kept : ∀ x, ¬ Gone x → t.nodes x = s.nodes x
  fresh : t.fresh = s.fresh
  mounts : t.mounts = s.mounts
  files : t.files = s.files
  opened : t.opened = s.opened

theorem Felled.trans (first : Felled s Gone t) (second : Felled t Gone' u)
    (both : ∀ x, Both x ↔ Gone x ∨ Gone' x) : Felled s Both u where
  gone := fun x gone => by
    by_cases now : Gone' x
    · exact second.gone x now
    · rw [second.kept x now]
      exact first.gone x (((both x).mp gone).resolve_right now)
  kept := fun x kept => by
    have apart := not_or.mp fun either => kept ((both x).mpr either)
    rw [second.kept x apart.2, first.kept x apart.1]
  fresh := second.fresh.trans first.fresh
  mounts := second.mounts.trans first.mounts
  files := second.files.trans first.files
  opened := second.opened.trans first.opened

theorem freeNode_effect (frees : Frees mem Owns) (here : s.nodes a = some node)
    (owns : Owns s.memory (node.blocks a + blocks)) :
    ∃ t, freeNode mem s a node = .ok t ∧ Felled s (· = a) t ∧ Owns t.memory blocks := by
  have destroys : ∀ {s₁ : Vfs M}, SameTree s s₁ → Owns s₁.memory (.name a ::ₘ .node a ::ₘ blocks) →
      ∃ t, vfsNodeDestroy mem s₁ a = .ok t ∧ Felled s (· = a) t ∧ Owns t.memory blocks := by
    intro s₁ same owns₁
    obtain ⟨t, destroyed, edit, owns'⟩ := vfsNodeDestroy_effect frees (same.nodes ▸ here) owns₁
    have whole := same.edited edit
    refine ⟨t, destroyed, ⟨?_, ?_, whole.fresh.trans same.fresh, whole.mounts, whole.files, whole.opened⟩, owns'⟩
    · rintro x rfl
      rw [whole.nodes, Function.update_self]
    · intro x other
      rw [whole.nodes, Function.update_of_ne other, same.nodes]
  unfold VfsNode.blocks at owns
  unfold freeNode
  cases data : node.data with
  | none =>
    grind [SameTree.refl, Multiset.insert_eq_cons, Multiset.singleton_add, Multiset.cons_add]
  | some inode =>
    rw [data] at owns
    unfold Fat32Inode.blocks at owns
    dsimp only at owns ⊢
    cases listing : inode.dirCache with
    | none =>
      rw [listing] at owns
      obtain ⟨s₁, freed, same, owns₁⟩ := @Frees.kfree _ _ _ s (.name a ::ₘ .node a ::ₘ blocks) frees (.inode a)
        (by simpa only [Multiset.insert_eq_cons, Multiset.singleton_add, Multiset.cons_add] using owns)
      rw [freed]
      exact destroys same owns₁
    | some listed =>
      rw [listing] at owns
      obtain ⟨s₁, freed, same, owns₁⟩ := @Frees.kfree _ _ _ s (.inode a ::ₘ .name a ::ₘ .node a ::ₘ blocks) frees
        (.dirCache a) (by simpa only [Multiset.insert_eq_cons, Multiset.singleton_add, Multiset.cons_add] using owns)
      obtain ⟨s₂, freed', same', owns₂⟩ := frees.kfree owns₁
      dsimp only [bind, Except.bind]
      grind [Edited.same]

/-- A loop was cut off because it may not make enough passes. -/
def CutOff (Short : Prop) (halt : Lib.Halt FsFault) : Prop := halt = .diverged ∧ Short

/-- The loop over some children, given what the calls for them do. -/
theorem freeChildren_effect (forest : Forest s children) (here : s.nodes a = some node)
    (fells : ∀ {c s' blocks}, c ∈ children a → (∀ x, Below s c x → s'.nodes x = s.nodes x) →
      Owns s'.memory (belowBlocks s c + blocks) →
      Lib.Ensures (CutOff Short) (freeTree s' c) fun t => Felled s' (Below s c) t ∧ Owns t.memory blocks)
    (some' : cs ⊆ children a) (distinct : cs.Nodup) {first : Option Nat}
    (segment : Lib.Segment s.next first (cs.map some) none)
    (intact : ∀ c ∈ cs, ∀ x, Below s c x → s'.nodes x = s.nodes x)
    (owns : Owns s'.memory ((cs.map (belowBlocks s)).sum + blocks)) {fuel : Nat}
    (enough : cs.length < fuel ∨ Short) :
    Lib.Ensures (CutOff Short) (Lib.finish (Lib.loop (freeChildrenPass freeTree) fuel (first, s'))) fun t =>
      Felled s' (fun x => ∃ c ∈ cs, Below s c x) t ∧ Owns t.memory blocks := by
  induction cs generalizing first fuel s' with
  | nil =>
    obtain rfl : first = none := segment
    cases fuel with
    | zero => exact ⟨rfl, enough.resolve_left (Nat.not_lt_zero _)⟩
    | succ fuel => exact ⟨⟨fun x => by simp, fun x _ => rfl, rfl, rfl, rfl, rfl⟩, by simpa using owns⟩
  | cons c rest ih =>
    cases fuel with
    | zero => exact ⟨rfl, enough.resolve_left (Nat.not_lt_zero _)⟩
    | succ fuel =>
      obtain ⟨rfl, onward⟩ := segment
      have member := some' List.mem_cons_self
      obtain ⟨-, child, alive, -⟩ := forest.child here member
      rw [List.map_cons, List.sum_cons, add_assoc] at owns
      have still : s'.nodes c = some child := (intact c List.mem_cons_self c .here).trans alive
      rw [Vfs.next, Option.bind_some, alive, Option.bind_some] at onward
      have fell := fells member (intact c List.mem_cons_self) owns
      simp only [Lib.loop, freeChildrenPass, Vfs.node_eq still]
      cases freed : freeTree s' c with
      | error halt =>
        rw [freed] at fell
        exact fell
      | ok s₁ =>
        obtain ⟨felled, owns₁⟩ := fell.ok freed
        refine (ih (fun x inside => some' (List.mem_cons_of_mem _ inside)) distinct.of_cons onward
          (fun c' member' x below => ?_) owns₁ (enough.imp_left Nat.lt_of_succ_lt_succ)).mono ?_
        · rw [felled.kept x fun below' => ?_]
          · grind
          · obtain rfl := forest.siblings_apart here (some' (List.mem_cons_of_mem _ member')) member below below'
            grind
        · rintro t ⟨felled', owns'⟩
          exact ⟨felled.trans felled' fun x => by simp, owns'⟩

/-- `fat32_vfs_free_tree` removes a tree and gives its blocks back, each once. -/
theorem fat32VfsFreeTree_effect (frees : Frees mem Owns) (forest : Forest s children)
    (enough : s.fresh < env.fuel ∨ Short) {depth : Nat} (here : s.nodes a = some node)
    (intact : ∀ x, Below s a x → s'.nodes x = s.nodes x)
    (deep : s.fresh ≤ a + depth ∨ Short) (owns : Owns s'.memory (belowBlocks s a + blocks)) :
    Lib.Ensures (CutOff Short) (fat32VfsFreeTree mem env depth s' a) fun t =>
      Felled s' (Below s a) t ∧ Owns t.memory blocks := by
  induction depth generalizing a node s' blocks with
  | zero =>
    have below := forest.bounded here
    exact ⟨rfl, deep.resolve_left (by omega)⟩
  | succ depth ih =>
    rw [belowBlocks_eq forest here, add_comm (node.blocks a), add_assoc] at owns
    have apart : ¬ ∃ c ∈ children a, Below s c a := by
      rintro ⟨c, member, below⟩
      have older := (forest.child here member).1
      exact absurd (forest.le_of_below below) (Nat.not_le.mpr older)
    have here' : s'.nodes a = some node := (intact a .here).trans here
    refine .bind (Vfs.node_sound here') ?_
    rintro _ rfl
    refine .bind (freeChildren_effect forest here ?_ (List.Subset.refl _) (forest.nodup here) (forest.linked here)
      (fun c member x below => intact x ((forest.below_child here member).trans below)) owns
      (enough.imp_left (lt_of_le_of_lt (forest.length_children here)))) ?_
    · intro c s' blocks member intact owns
      obtain ⟨older, child, alive, -⟩ := forest.child here member
      grind
    rintro s₁ ⟨felled, owns₁⟩
    have here₁ : s₁.nodes a = some node := (felled.kept a apart).trans here'
    obtain ⟨t, freed, felled', owns'⟩ := freeNode_effect frees here₁ owns₁
    refine .bind (Vfs.node_sound here₁) ?_
    rintro _ rfl
    rw [freed]
    refine ⟨felled.trans felled' fun x => ⟨fun below => ?_, ?_⟩, owns'⟩
    · exact (forest.below_cases below).symm.imp_right id
    · rintro (⟨c, member, below⟩ | rfl)
      · exact (forest.below_child here member).trans below
      · exact .here

end Felling

end Velox
