import Velox.Fs.VfsEffects
import Velox.Fs.VfsPath

namespace Velox

open Lib (Bytes)

variable {node : VfsNode} {address a : Nat}

variable {M : Type}

/-- A node that is there, and is the root of a mount or has a parent. -/
def Linked (s : Vfs M) (address : Nat) : Prop :=
  ∃ node, s.nodes address = some node ∧ (node.parent = none → ∃ mnt ∈ s.mounts, mnt.root = address)

/-- A sequence of effects on nodes that a mount leads to. -/
inductive Effects (env : FsEnv) (s : Vfs M) (blocks : Multiset Block) : Vfs M → Multiset Block → Prop where
  | done : Effects env s blocks s blocks
  | more {t u : Vfs M} (before : Effects env s blocks t blocks') (linked : Linked t touched)
      (last : Effect env t blocks' touched u blocks'') : Effects env s blocks u blocks''

/-- The tree between two calls. While a volume is being mounted there is one root more
than there are mounts. -/
structure Planted (s : Vfs M) (children : Nat → List Nat) (loose : Option Nat) : Prop extends Forest s children where
  filled : ∀ {a node}, s.nodes a = some node → ∃ inode, node.data = some inode
  mounted : ∀ mnt ∈ s.mounts, ∃ node, s.nodes mnt.root = some node ∧ node.parent = none
  distinct : (s.mounts.map VfsMount.root).Nodup
  covered : ∀ {a node}, s.nodes a = some node → node.parent = none → loose = some a ∨ ∃ mnt ∈ s.mounts, mnt.root = a
  apart : ∀ {a}, loose = some a → (∃ node, s.nodes a = some node ∧ node.parent = none) ∧ ∀ mnt ∈ s.mounts, mnt.root ≠ a

/-- Nothing but the tree has changed, and every node is where it was. -/
structure Retains (s t : Vfs M) : Prop where
  nodes : ∀ {a node}, s.nodes a = some node → ∃ node', t.nodes a = some node' ∧ node'.parent = node.parent
  mounts : t.mounts = s.mounts
  files : t.files = s.files
  opened : t.opened = s.opened
  fresh : s.fresh ≤ t.fresh

section Planted

variable {env : FsEnv} {s t u : Vfs M} {children : Nat → List Nat} {loose : Option Nat} {touched : Nat}
variable {blocks blocks' blocks'' : Multiset Block}

theorem Retains.refl (s : Vfs M) : Retains s s := ⟨fun here => ⟨_, here, rfl⟩, rfl, rfl, rfl, le_refl _⟩

theorem Retains.trans (first : Retains s t) (second : Retains t u) : Retains s u := by
  refine ⟨fun here => ?_, second.mounts.trans first.mounts, second.files.trans first.files, second.opened.trans first.opened,
    le_trans first.fresh second.fresh⟩
  obtain ⟨node', there, same⟩ := first.nodes here
  obtain ⟨node'', there', same'⟩ := second.nodes there
  grind

theorem Retains.linked (retains : Retains s t) (linked : Linked s address) : Linked t address := by
  obtain ⟨node, here, root⟩ := linked
  obtain ⟨node', there, same⟩ := retains.nodes here
  exact ⟨node', there, by grind [mounts]⟩

/-- What an update of one node retains. -/
theorem retains_of_update (here : s.nodes address = some node)
    (edit : Edited s (Function.update s.nodes address (some node')) s.fresh t)
    (parent : node'.parent = node.parent) : Retains s t := by
  refine ⟨fun {a other} there => ?_, edit.mounts, edit.files, edit.opened, le_of_eq edit.fresh.symm⟩
  rw [edit.nodes]
  grind

section

variable (effect : Effect env s blocks touched t blocks')
include effect

theorem Effect.retains (forest : Forest s children) : Retains s t := by
  cases effect with
  | same kept grows => exact ⟨fun here => ⟨_, by rw [kept.nodes, here], rfl⟩, kept.mounts, kept.files, kept.opened, grows⟩
  | grown child =>
    obtain ⟨inode, ent, -, -, -, edit⟩ := child.entry
    refine ⟨fun {a node} here => ?_, edit.mounts, edit.files, edit.opened, by rw [edit.fresh]; exact Nat.le_succ _⟩
    rw [edit.nodes]
    by_cases same : a = touched
    · subst same
      cases child.here.symm.trans here
      simp
    · rw [Function.update_of_ne same, Function.update_of_ne (Nat.ne_of_lt (forest.bounded here))]
      grind
  | listed here _ _ _ _ edit => exact retains_of_update here edit rfl
  | restated here _ _ _ _ _ edit => exact retains_of_update here edit rfl

/-- An effect leaves the other nodes alone. -/
theorem Effect.elsewhere (forest : Forest s children) (other : a ≠ touched)
    (here : s.nodes a = some node) : t.nodes a = some node := by
  cases effect with
  | same kept grows => rw [kept.nodes, here]
  | grown child =>
    obtain ⟨inode, ent, -, -, -, edit⟩ := child.entry
    rw [edit.nodes, Function.update_of_ne other, Function.update_of_ne (Nat.ne_of_lt (forest.bounded here)), here]
  | listed _ _ _ _ _ edit => rw [edit.nodes, Function.update_of_ne other, here]
  | restated _ _ _ _ _ _ edit => rw [edit.nodes, Function.update_of_ne other, here]

omit effect in
/-- A directory that is a FAT32 directory has the type of one. -/
theorem entryOps_dir (ops : some (entryOps ent) = some NodeOps.fat32Dir) : entryType ent &&& vfsNodeDir ≠ 0 := by
  unfold entryOps at ops
  grind

theorem Effect.forest (forest : Forest s children) :
    ∃ children', Forest t children' := by
  cases effect with
  | same kept grows => exact ⟨children, forest.of_nodes kept.nodes grows⟩
  | grown child =>
    obtain ⟨inode, ent, -, -, -, edit⟩ := child.entry
    exact ⟨_, forest.grown child.here rfl rfl rfl (fun ops => entryOps_dir ops) edit.nodes edit.fresh⟩
  | listed here _ _ _ _ edit => exact ⟨children, forest.update here edit.nodes edit.fresh rfl rfl rfl rfl rfl⟩
  | restated here _ _ _ _ _ edit => exact ⟨children, forest.update here edit.nodes edit.fresh rfl rfl rfl rfl rfl⟩

/-- A node after an effect: it was there with the same parent, or it is a new child. -/
theorem Effect.node_cases (here : t.nodes a = some node) :
    (∃ old, s.nodes a = some old ∧ node.parent = old.parent ∧ ((∃ inode, old.data = some inode) → ∃ inode, node.data = some inode)) ∨
      (node.parent = some touched ∧ ∃ inode, node.data = some inode) := by
  have update : ∀ {address : Nat} {old new : VfsNode}, s.nodes address = some old →
      Edited s (Function.update s.nodes address (some new)) s.fresh t → new.parent = old.parent →
      (∃ inode, new.data = some inode) → ∃ old, s.nodes a = some old ∧ node.parent = old.parent ∧
        ((∃ inode, old.data = some inode) → ∃ inode, node.data = some inode) := by
    intro address old new there edit parent data
    rw [edit.nodes] at here
    grind
  cases effect with
  | same kept grows => grind [Edited.nodes]
  | grown child =>
    obtain ⟨inode, ent, data, -, -, edit⟩ := child.entry
    rw [edit.nodes] at here
    by_cases same : a = touched
    · grind [Grafted.here]
    rw [Function.update_of_ne same] at here
    by_cases new : a = s.fresh
    · subst new
      rw [Function.update_self] at here
      cases here
      exact .inr ⟨rfl, _, rfl⟩
    grind
  | listed there _ _ _ _ edit => exact .inl (update there edit rfl ⟨_, rfl⟩)
  | restated there _ _ _ _ _ edit => exact .inl (update there edit rfl ⟨_, rfl⟩)

end

theorem Planted.effect (planted : Planted s children loose) (effect : Effect env s blocks touched t blocks') :
    ∃ children', Planted t children' loose := by
  obtain ⟨children', forest⟩ := effect.forest planted.toForest
  have retains := effect.retains planted.toForest
  refine ⟨children', forest, fun here => ?_, fun mnt member => ?_, ?_, fun here top => ?_, fun root => ?_⟩
  · rcases effect.node_cases here with ⟨old, there, -, data⟩ | ⟨-, data⟩
    · exact data (planted.filled there)
    · exact data
  · rw [retains.mounts] at member
    obtain ⟨node, here, top⟩ := planted.mounted mnt member
    obtain ⟨node', there, same⟩ := retains.nodes here
    grind
  · rw [retains.mounts]
    exact planted.distinct
  · rw [retains.mounts]
    rcases effect.node_cases here with ⟨old, there, same, -⟩ | ⟨child, -⟩
    · grind [covered]
    grind
  grind [apart, Retains.nodes, Retains.mounts]

theorem Effects.trans (first : Effects env s blocks t blocks') (second : Effects env t blocks' u blocks'') :
    Effects env s blocks u blocks'' := by
  induction second with
  | done => exact first
  | more _ linked last ih => exact .more ih linked last

/-- What every effect preserves is preserved by a sequence of them. -/
theorem Effects.invariant (Holds : Vfs M → Multiset Block → Prop)
    (preserved : ∀ {s blocks touched t blocks'}, Holds s blocks → Linked s touched →
      Effect env s blocks touched t blocks' → Holds t blocks')
    (initial : Holds s blocks) (effects : Effects env s blocks t blocks') : Holds t blocks' := by
  induction effects with
  | done => exact initial
  | more _ linked last ih => grind

theorem Planted.effects (planted : Planted s children loose) (effects : Effects env s blocks t blocks') :
    (∃ children', Planted t children' loose) ∧ Retains s t := by
  induction effects with
  | done => grind [Retains.refl]
  | more _ _ last ih =>
    obtain ⟨⟨children', planted'⟩, retains⟩ := ih
    exact ⟨planted'.effect last, retains.trans (last.retains planted'.toForest)⟩

theorem Planted.loose_unlinked (planted : Planted s children (some a)) : ¬ Linked s a := by
  rintro ⟨node, here, root⟩
  grind [apart]

/-- Effects do not touch a root that no mount has. -/
theorem Effects.untouched (planted : Planted s children (some a)) (here : s.nodes a = some node)
    (effects : Effects env s blocks t blocks') : t.nodes a = some node := by
  induction effects with
  | done => exact here
  | more before linked last ih =>
    obtain ⟨⟨children', planted'⟩, -⟩ := planted.effects before
    refine last.elsewhere planted'.toForest ?_ ih
    grind [Planted.loose_unlinked]

end Planted

section Calls

variable {mem : Allocator M} {Owns : M → Multiset Block → Prop} {env : FsEnv} {s t : Vfs M}
variable {blocks : Multiset Block} {children : Nat → List Nat} {loose : Option Nat}

/-- The tree after a call, with the blocks that are then handed out. -/
structure Reshaped (Owns : M → Multiset Block → Prop) (env : FsEnv) (loose : Option Nat) (s : Vfs M)
    (blocks : Multiset Block) (t : Vfs M) (blocks' : Multiset Block) : Prop where
  owns : Owns t.memory blocks'
  effects : Effects env s blocks t blocks'
  planted : ∃ children, Planted t children loose

theorem Linked.child (forest : Forest s children) {child : Nat} (here : s.nodes dir = some node)
    (member : child ∈ children dir) : Linked s child := by
  obtain ⟨-, below, alive, up⟩ := forest.child here member
  exact ⟨below, alive, fun top => by rw [top] at up; cases up⟩

theorem Grafted.linked (forest : Forest s children) {name : List UInt8}
    (grown : Grafted env s dir node name t) : Linked t s.fresh := by
  obtain ⟨inode, ent, -, -, -, edit⟩ := grown.entry
  refine ⟨{ entryNode inode.vol ent with parent := some dir, nextSibling := node.firstChild }, ?_, fun top => by cases top⟩
  rw [edit.nodes, Function.update_of_ne (Nat.ne_of_gt (forest.bounded grown.here)), Function.update_self]

section

variable (accounts : Accounting mem Owns) (owns : Owns s.memory blocks)
  (planted : Planted s children loose)
include accounts owns planted

theorem vfsLookupChild_reshaped {dir : Nat} (linked : Linked s dir) (name : List UInt8) :
    Sound (vfsLookupChild mem env s dir name) fun (found, t) =>
      ∃ blocks', Reshaped Owns env loose s blocks t blocks' ∧ ∀ child, found = some child → Linked t child := by
  obtain ⟨node, here, -⟩ := id linked
  refine .bind (Vfs.node_sound here) ?_
  rintro _ rfl
  have known : Sound (vfsFindChild s env.fuel node name >>= fun found => pure (found, s)) fun (found, t) =>
      ∃ blocks', Reshaped Owns env loose s blocks t blocks' ∧ ∀ child, found = some child → Linked t child := by
    refine .bind (planted.findChild_sound here _ _) ?_
    rintro found rfl
    refine ⟨blocks, ⟨owns, .done, children, planted⟩, fun child hit => ?_⟩
    exact Linked.child planted.toForest here (List.mem_of_find?_eq_some hit)
  match ops : node.ops with
  | some .fat32File => exact known
  | none => exact known
  | some .fat32Dir =>
    refine (fat32VfsLookup_effect accounts owns planted.toForest here (planted.typed here ops) name).mono ?_
    rintro ⟨found, t⟩ (⟨rfl, child, rfl, hit⟩ | ⟨rfl, kept, grows, owns'⟩ | ⟨rfl, grown, owns'⟩)
    · refine ⟨blocks, ⟨owns, .done, children, planted⟩, fun child' same => ?_⟩
      cases same
      exact Linked.child planted.toForest here (List.mem_of_find?_eq_some hit)
    · have effect : Effect env s blocks dir t blocks := .same kept grows
      exact ⟨blocks, ⟨owns', .more .done linked effect, planted.effect effect⟩, fun _ no => by cases no⟩
    · have effect : Effect env s blocks dir t _ := .grown grown
      refine ⟨_, ⟨owns', .more .done linked effect, planted.effect effect⟩, fun child same => ?_⟩
      cases same
      exact Grafted.linked planted.toForest grown

omit accounts owns planted in
theorem Reshaped.refl (owns : Owns s.memory blocks) (planted : Planted s children loose) :
    Reshaped Owns env loose s blocks s blocks :=
  ⟨owns, .done, children, planted⟩

omit accounts owns planted in
theorem Reshaped.trans (first : Reshaped Owns env loose s blocks t blocks')
    (second : Reshaped Owns env loose t blocks' u blocks'') :
    Reshaped Owns env loose s blocks u blocks'' :=
  ⟨second.owns, first.effects.trans second.effects, second.planted⟩

/-- A pass of `vfs_resolve_path` from a linked node either goes on from one or is over. -/
theorem resolvePass_reshaped (p : List UInt8) {dir : Nat} (linked : Linked s dir) :
    match resolvePass mem env (p, dir, s) with
    | .inl (_, onward, t) => ∃ blocks', Reshaped Owns env loose s blocks t blocks' ∧ Linked t onward
    | .inr result => Sound result fun ((_, found), t) =>
        ∃ blocks', Reshaped Owns env loose s blocks t blocks' ∧ ∀ node, found = some node → Linked t node := by
  have still : Reshaped Owns env loose s blocks s blocks := .refl owns planted
  simp only [resolvePass]
  by_cases spent : p = []
  · rw [if_pos spent]
    exact ⟨blocks, still, fun node same => by cases same; exact linked⟩
  rw [if_neg spent]
  by_cases empty : (p.takeWhile (· ≠ 0x2F)).length = 0
  · grind
  rw [if_neg empty]
  by_cases long : vfsNameMax < (p.takeWhile (· ≠ 0x2F)).length
  · rw [if_pos long]
    exact ⟨blocks, still, fun _ no => by cases no⟩
  rw [if_neg long]
  have looks := @vfsLookupChild_reshaped _ _ _ env _ _ _ _ accounts owns planted _ linked (p.takeWhile (· ≠ 0x2F))
  cases looked : vfsLookupChild mem env s dir (p.takeWhile (· ≠ 0x2F)) with
  | error halt =>
    rw [looked] at looks
    exact looks
  | ok answer =>
    obtain ⟨found, s₁⟩ := answer
    obtain ⟨blocks', reshaped, onward⟩ := looks.ok looked
    cases found with
    | none => exact ⟨blocks', reshaped, fun _ no => by cases no⟩
    | some child =>
      have linked' := onward child rfl
      obtain ⟨node, here, -⟩ := id linked'
      dsimp only
      rw [Vfs.node_eq here]
      dsimp only
      split
      · grind
      · rename_i next
        split at next
        · cases next
          exact ⟨blocks', reshaped, fun _ no => by cases no⟩
        · cases next

theorem vfsResolvePath_reshaped (path : List UInt8) :
    Sound (vfsResolvePath mem env s path) fun ((_, found), t) =>
      ∃ blocks', Reshaped Owns env loose s blocks t blocks' ∧ ∀ node, found = some node → Linked t node := by
  have start : Reshaped Owns env loose s blocks s blocks := .refl owns planted
  unfold vfsResolvePath
  dsimp only
  split
  · exact ⟨blocks, start, fun _ no => by cases no⟩
  split
  · exact ⟨blocks, start, fun _ no => by cases no⟩
  have scanned := vfsFindMountForPath_cases s.mounts path (vfsTrimPathLen path)
  split
  · exact ⟨blocks, start, fun _ no => by cases no⟩
  rename_i mnt found
  rw [found] at scanned
  obtain ⟨root, here, -⟩ := planted.mounted mnt scanned.1
  have linked : Linked s mnt.root := ⟨root, here, fun _ => ⟨mnt, scanned.1, rfl⟩⟩
  refine Lib.finish_ensures (fun state => ∃ blocks', Reshaped Owns env loose s blocks state.2.2 blocks' ∧
    Linked state.2.2 state.2.1) ?_ ?_ excused_diverged ⟨blocks, start, linked⟩
  · rintro ⟨p, node, s₁⟩ ⟨p', node', s₂⟩ ⟨blocks₁, reshaped, linked⟩ again
    obtain ⟨children₁, planted₁⟩ := reshaped.planted
    have pass := @resolvePass_reshaped _ _ _ env _ _ _ _ accounts reshaped.owns planted₁ p _ linked
    grind [Reshaped.trans]
  · rintro ⟨p, node, s₁⟩ result ⟨blocks₁, reshaped, linked⟩ left
    obtain ⟨children₁, planted₁⟩ := reshaped.planted
    have pass := @resolvePass_reshaped _ _ _ env _ _ _ _ accounts reshaped.owns planted₁ p _ linked
    grind [Lib.Ensures.mono, Reshaped.trans]

omit accounts owns planted in
/-- A call on one linked node. -/
theorem Affected.reshaped {touched : Nat} (affected : Affected Owns env s blocks touched t) (planted : Planted s children loose)
    (linked : Linked s touched) : ∃ blocks', Reshaped Owns env loose s blocks t blocks' := by
  obtain ⟨blocks', owns, effect⟩ := affected
  exact ⟨blocks', owns, .more .done linked effect, planted.effect effect⟩

theorem vfsStatNode_reshaped (linked : Linked s address) :
    Sound (vfsStatNode mem env s address) fun (_, t) => ∃ blocks', Reshaped Owns env loose s blocks t blocks' := by
  obtain ⟨node, here, -⟩ := id linked
  refine .bind (Vfs.node_sound here) ?_
  rintro _ rfl
  split
  · refine (fat32VfsStat_effect accounts owns here fun parent up => (planted.parent here up).1).mono ?_
    exact fun _ affected => affected.reshaped planted linked
  · exact ⟨blocks, .refl owns planted⟩

theorem vfsStat_reshaped (path : List UInt8) :
    Sound (vfsStat mem env s path) fun (_, t) => ∃ blocks', Reshaped Owns env loose s blocks t blocks' := by
  refine .bind (vfsResolvePath_reshaped accounts owns planted path) ?_
  rintro ⟨⟨rc, found⟩, s₁⟩ ⟨blocks₁, reshaped, linked⟩
  cases found with
  | none => exact ⟨blocks₁, reshaped⟩
  | some address =>
    obtain ⟨children₁, planted₁⟩ := reshaped.planted
    refine (vfsStatNode_reshaped accounts reshaped.owns planted₁ (linked address rfl)).mono ?_
    rintro ⟨report, t⟩ ⟨blocks₂, reshaped'⟩
    exact ⟨blocks₂, reshaped.trans reshaped'⟩

omit accounts owns planted in
/-- The walk to a child by its index stays within the children. -/
theorem nthChild_walk {cs : List Nat} {first : Option Nat} (segment : Lib.Segment s.next first (cs.map some) none)
    (alive : ∀ c ∈ cs, ∃ node, s.nodes c = some node) (fuel index : Nat) :
    Sound (Lib.finish (Lib.loop (nthChildPass s) fuel (index, first))) fun _ => True := by
  induction fuel generalizing cs first index with
  | zero => exact excused_diverged
  | succ fuel ih =>
    cases cs with
    | nil =>
      obtain rfl : first = none := segment
      trivial
    | cons c rest =>
      obtain ⟨rfl, onward⟩ := segment
      obtain ⟨node, here⟩ := alive c List.mem_cons_self
      simp only [Lib.loop, nthChildPass, here]
      by_cases zero : index = 0
      · rw [if_pos zero]
        trivial
      · rw [Vfs.next, Option.bind_some, here, Option.bind_some] at onward
        grind

theorem vfsReaddir_reshaped (linked : Linked s address) (index : Nat) :
    Sound (vfsReaddir mem env s address index) fun (_, t) => ∃ blocks', Reshaped Owns env loose s blocks t blocks' := by
  obtain ⟨node, here, -⟩ := id linked
  have still : ∃ blocks', Reshaped Owns env loose s blocks s blocks' := ⟨blocks, .refl owns planted⟩
  have children : Sound (Lib.finish (Lib.loop (nthChildPass s) env.fuel (index, node.firstChild))) fun _ => True :=
    nthChild_walk (planted.linked here) (planted.children_alive here) _ _
  refine .bind (Vfs.node_sound here) ?_
  rintro _ rfl
  split
  · exact still
  rename_i isDir
  split
  · refine (fat32VfsReaddir_effect accounts owns here isDir index).mono ?_
    exact fun _ affected => affected.reshaped planted linked
  all_goals
    refine .bind children ?_
    rintro child -
    cases child with
    | none => exact still
    | some child =>
      dsimp only
      split <;> exact still

end

end Calls

end Velox
