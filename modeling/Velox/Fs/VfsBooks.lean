import Velox.Fs.VfsLedger
import Mathlib.Tactic.Abel

namespace Velox

open Finset
open Lib (Bytes)

variable {node : VfsNode} {path : List UInt8} {after : List VfsMount} {a : Nat}

variable {M : Type}

structure Ledger (base : Multiset Block) (loose : Option Nat) (s : Vfs M) (blocks : Multiset Block) : Prop where
  planted : ∃ children, Planted s children loose
  counted : blocks = base + s.blocks
  files : ∀ {file held}, s.files file = some held → file < s.opened ∧ Linked s held.node

/-- The books of some memory. -/
def Booked (Owns : M → Multiset Block → Prop) (base : Multiset Block) (loose : Option Nat) (s : Vfs M) : Prop :=
  ∃ blocks, Owns s.memory blocks ∧ Ledger base loose s blocks

section Books

variable {mem : Allocator M} {Owns : M → Multiset Block → Prop} {env : FsEnv} {s t : Vfs M}
variable {base blocks blocks' : Multiset Block} {loose : Option Nat}

theorem Ledger.effect {touched : Nat} (ledger : Ledger base loose s blocks) (effect : Effect env s blocks touched t blocks') :
    Ledger base loose t blocks' := by
  obtain ⟨children, planted⟩ := ledger.planted
  obtain ⟨added, rfl, tree⟩ := effect.added planted.toForest
  have retains := effect.retains planted.toForest
  refine ⟨planted.effect effect, ?_, fun {file held} there => ?_⟩
  · rw [ledger.counted, Vfs.blocks, Vfs.blocks, tree, retains.mounts, retains.files, retains.opened]
    abel
  · rw [retains.files] at there
    obtain ⟨below, linked⟩ := ledger.files there
    grind [Retains.opened, Retains.linked]

theorem Reshaped.booked (ledger : Ledger base loose s blocks) (reshaped : Reshaped Owns env loose s blocks t blocks') :
    Ledger base loose t blocks' :=
  reshaped.effects.invariant (Ledger base loose) (fun ledger _ effect => ledger.effect effect) ledger

theorem Linked.congr (nodes : t.nodes = s.nodes) (mounts : t.mounts = s.mounts) : Linked t a ↔ Linked s a := by
  unfold Linked
  rw [nodes, mounts]

theorem Planted.same (planted : Planted s children loose) (nodes : t.nodes = s.nodes)
    (fresh : t.fresh = s.fresh) (mounts : t.mounts = s.mounts) : Planted t children loose := by
  refine ⟨planted.toForest.of_nodes nodes (le_of_eq fresh.symm), ?_, ?_, ?_, ?_, ?_⟩
  all_goals
    try rw [nodes]
    try rw [mounts]
  · exact planted.filled
  · exact planted.mounted
  · exact planted.distinct
  · exact planted.covered
  · exact planted.apart

/-- The books do not look at the memory. -/
theorem Ledger.same (ledger : Ledger base loose s blocks) (same : SameTree s t) : Ledger base loose t blocks := by
  obtain ⟨children, planted⟩ := ledger.planted
  refine ⟨⟨children, planted.same same.nodes same.fresh same.mounts⟩, ?_, fun {file held} there => ?_⟩
  · rw [ledger.counted, Vfs.blocks, Vfs.blocks, same.mounts, same.files, same.opened, Vfs.treeBlocks, Vfs.treeBlocks, same.fresh, sum_congr rfl fun a _ => blocksAt_congr (congrFun same.nodes a)]
  · rw [same.files] at there
    rw [same.opened, Linked.congr same.nodes same.mounts]
    exact ledger.files there

/-- What a call that only touches the tree does. -/
theorem booked_of_reshaped {α : Type} {call : FsM (α × Vfs M)} (ledger : Ledger base loose s blocks)
    (sound : Sound call fun (_, t) => ∃ blocks', Reshaped Owns env loose s blocks t blocks') :
    Sound call fun (_, t) => Booked Owns base loose t :=
  sound.mono fun _ ⟨blocks', reshaped⟩ => ⟨blocks', reshaped.owns, reshaped.booked ledger⟩

theorem Vfs.file_sound (s : Vfs M) (file : Nat) : Sound (s.file file) fun held => s.files file = some held := by
  unfold Vfs.file
  split
  · exact ⟨nofun, nofun⟩
  · assumption

/-- A change of the files only. -/
theorem Ledger.refile (ledger : Ledger base loose s blocks) {files : Nat → Option VfsFile}
    (linked : ∀ {file held}, files file = some held → file < opened ∧ Linked s held.node)
    (counted : blocks' + fileBlocks s.files s.opened = blocks + fileBlocks files opened) :
    Ledger base loose { s with files := files, opened := opened } blocks' := by
  obtain ⟨children, planted⟩ := ledger.planted
  refine ⟨⟨children, planted.same rfl rfl rfl⟩, ?_, linked⟩
  refine add_right_cancel (b := fileBlocks s.files s.opened) ?_
  rw [counted, ledger.counted]
  change base + (s.treeBlocks + mountBlocks s.mounts + _) + _ = base + (s.treeBlocks + mountBlocks s.mounts + _) + _
  abel

section

variable (accounts : Accounting mem Owns)
include accounts

theorem vfsOpen_booked (booked : Booked Owns base loose s) (path : List UInt8) (flags : Nat) :
    Sound (vfsOpen mem env s path flags) fun (_, t) => Booked Owns base loose t := by
  obtain ⟨blocks, owns, ledger⟩ := booked
  obtain ⟨children, planted⟩ := ledger.planted
  refine .bind (vfsResolvePath_reshaped accounts owns planted path) ?_
  rintro ⟨⟨rc, found⟩, s₁⟩ ⟨blocks₁, reshaped, linked⟩
  have ledger₁ := reshaped.booked ledger
  cases found with
  | none => exact ⟨blocks₁, reshaped.owns, ledger₁⟩
  | some address =>
    dsimp only
    rcases taken : s₁.kmalloc mem (.file s₁.opened) with ⟨granted, s₂⟩
    obtain ⟨same, owns₂⟩ := accounts.kmalloc reshaped.owns taken
    have ledger₂ := ledger₁.same same
    have linked₂ := (Linked.congr same.nodes same.mounts).mpr (linked address rfl)
    cases granted with
    | false => exact ⟨blocks₁, owns₂, ledger₂⟩
    | true =>
      obtain ⟨node, here, -⟩ := id linked₂
      refine .bind (Vfs.node_sound here) ?_
      rintro _ rfl
      refine ⟨_, owns₂, ledger₂.refile (fun {file held} there => ?_) ?_⟩
      · by_cases new : file = s₂.opened
        · grind
        · rw [Function.update_of_ne new] at there
          obtain ⟨below, linked⟩ := ledger₂.files there
          grind
      · rw [fileBlocks_open, if_pos rfl, same.opened, ← Multiset.singleton_add]
        abel

theorem vfsClose_booked (booked : Booked Owns base loose s) (file : Nat) :
    Sound (vfsClose mem s file) fun (_, t) => Booked Owns base loose t := by
  obtain ⟨blocks, owns, ledger⟩ := booked
  refine .bind (Vfs.file_sound s file) ?_
  intro held there
  obtain ⟨below, node, here, -⟩ := ledger.files there
  refine .bind (Vfs.node_sound here) ?_
  rintro _ rfl
  -- The block of the file is one of those handed out.
  have closed := fileBlocks_close there below
  have owns' : Owns s.memory (.file file ::ₘ (base + (s.treeBlocks + mountBlocks s.mounts +
      fileBlocks (Function.update s.files file none) s.opened))) := by
    rw [← Multiset.singleton_add]
    rw [ledger.counted, Vfs.blocks, closed] at owns
    grind
  obtain ⟨s₁, freed, same, owns₁⟩ := accounts.kfree owns'
  rw [freed]
  have ledger' := ledger.same same
  refine ⟨_, owns₁, ledger'.refile (fun {other held'} open' => ?_) ?_⟩
  · by_cases this : other = file
    · grind
    · rw [Function.update_of_ne this] at open'
      exact ledger'.files open'
  · rw [ledger.counted, Vfs.blocks, same.files, same.opened, closed]
    abel

theorem fat32VfsRead_effect (owns : Owns s.memory blocks) {held : VfsFile}
    (here : s.nodes held.node = some node) (buf : Bytes) (len : Nat) :
    Sound (fat32VfsRead mem env s held buf len) fun (_, t) => SameTree s t ∧ Owns t.memory blocks := by
  refine .bind (Vfs.node_sound here) ?_
  rintro _ rfl
  cases data : node.data with
  | none => exact ⟨.refl s, owns⟩
  | some inode =>
    refine (withClusterBuf_effect accounts owns _ fun clusterBuf => ?_).mono fun _ ⟨same, owns', _⟩ => ⟨same, owns'⟩
    split
    · exact excused_diverged
    · trivial

theorem vfsRead_booked (booked : Booked Owns base loose s) (file : Nat) (buf : Bytes) (len : Nat) :
    Sound (vfsRead mem env s file buf len) fun (_, t) => Booked Owns base loose t := by
  obtain ⟨blocks, owns, ledger⟩ := id booked
  refine .bind (Vfs.file_sound s file) ?_
  intro held there
  obtain ⟨below, node, here, -⟩ := ledger.files there
  refine .bind (Vfs.node_sound here) ?_
  rintro _ rfl
  split
  · refine .bind (fat32VfsRead_effect accounts owns here buf len) ?_
    rintro ⟨⟨ret, buf⟩, s₁⟩ ⟨same, owns₁⟩
    have ledger₁ := ledger.same same
    have there₁ : s₁.files file = some held := by rw [same.files, there]
    refine ⟨_, owns₁, ledger₁.refile (fun {other held'} open' => ?_) ?_⟩
    · by_cases this : other = file
      · rw [this, Function.update_self] at open'
        cases open'
        have known := ledger₁.files there₁
        grind
      · rw [Function.update_of_ne this] at open'
        exact ledger₁.files open'
    · rw [fileBlocks_update there₁]
  all_goals exact booked

theorem vfsFstat_booked (booked : Booked Owns base loose s) (file : Nat) :
    Sound (vfsFstat mem env s file) fun (_, t) => Booked Owns base loose t := by
  obtain ⟨blocks, owns, ledger⟩ := booked
  obtain ⟨children, planted⟩ := ledger.planted
  refine .bind (Vfs.file_sound s file) ?_
  intro held there
  exact booked_of_reshaped ledger (vfsStatNode_reshaped accounts owns planted (ledger.files there).2)

end

section Mounting

variable {children : Nat → List Nat} {root : Nat}

/-- The loose root becomes the root of a mount. -/
theorem Planted.mount (planted : Planted s children (some root)) (here : mnt.root = root) :
    Planted { s with mounts := mnt :: s.mounts } children none := by
  obtain ⟨alive, apart⟩ := planted.apart rfl
  refine ⟨planted.toForest.of_nodes rfl (le_refl _), planted.filled, fun mnt' member => ?_, ?_, fun there top => ?_, nofun⟩
  · rcases List.mem_cons.mp member with rfl | member
    · grind
    grind [mounted]
  · refine List.nodup_cons.mpr ⟨fun member => ?_, planted.distinct⟩
    grind
  · rcases planted.covered there top with same | ⟨mnt', member, same⟩
    · grind
    grind

/-- The root of a mount becomes loose. -/
theorem Planted.detach (planted : Planted s children none) (split : s.mounts = before ++ mnt :: after) :
    Planted { s with mounts := before ++ after } children (some mnt.root) := by
  have distinct := planted.distinct
  rw [split, List.map_append, List.map_cons, List.nodup_middle, List.nodup_cons, ← List.map_append] at distinct
  have inside : ∀ mnt' ∈ before ++ after, mnt' ∈ s.mounts := by
    grind
  refine ⟨planted.toForest.of_nodes rfl (le_refl _), planted.filled, fun mnt' member => planted.mounted mnt' (inside _ member),
    distinct.2, fun there top => ?_, fun same => ?_⟩
  · grind [covered]
  grind [mounted]

/-- The tree of the loose root is gone. -/
theorem Planted.uproot (planted : Planted s children (some root)) (felled : Felled s (Below s root) t) :
    Planted t children none := by
  obtain ⟨⟨node, here, top⟩, apart⟩ := planted.apart rfl
  have old : ∀ {a other}, t.nodes a = some other → s.nodes a = some other := by
    grind [Felled.gone, Felled.kept]
  refine ⟨planted.toForest.prune here top felled.gone felled.kept felled.fresh, fun there => planted.filled (old there), ?_, ?_,
    fun there top' => ?_, nofun⟩
  · rw [felled.mounts]
    intro mnt member
    obtain ⟨root', there, top'⟩ := planted.mounted mnt member
    refine ⟨root', ?_, top'⟩
    rw [felled.kept _ fun below => ?_, there]
    cases below with
    | here => grind
    | under alive up _ =>
      grind
  · rw [felled.mounts]
    exact planted.distinct
  · rw [felled.mounts]
    rcases planted.covered (old there) top' with same | mounted
    · cases same
      rw [felled.gone _ .here] at there
      cases there
    · exact .inr mounted

/-- The blocks of the nodes that are not in a tree. -/
noncomputable def restBlocks (s : Vfs M) (root : Nat) : Multiset Block :=
  open Classical in ∑ address ∈ range s.fresh with ¬ Below s root address, s.blocksAt address

theorem treeBlocks_split (s : Vfs M) (root : Nat) : s.treeBlocks = belowBlocks s root + restBlocks s root := by
  classical
  rw [Vfs.treeBlocks, ← sum_filter_add_sum_filter_not _ (Below s root)]
  rfl

theorem Felled.treeBlocks (felled : Felled s (Below s root) t) : t.treeBlocks = restBlocks s root := by
  classical
  rw [Vfs.treeBlocks, felled.fresh, ← sum_filter_add_sum_filter_not (range s.fresh) (Below s root) t.blocksAt]
  have none' : ∑ a ∈ range s.fresh with Below s root a, t.blocksAt a = 0 :=
    sum_eq_zero fun a member => blocksAt_none (felled.gone a (mem_filter.mp member).2)
  rw [none', zero_add]
  exact sum_congr rfl fun a member => blocksAt_congr (felled.kept a (mem_filter.mp member).2)

/-- Without the tree of the loose root the books are right again, unless a file is open in
it. -/
theorem Ledger.uproot (ledger : Ledger base (some root) s blocks) : ∃ rest, blocks = belowBlocks s root + rest ∧
      rest = base + (restBlocks s root + mountBlocks s.mounts + fileBlocks s.files s.opened) ∧
      ∀ {t}, Felled s (Below s root) t → (∀ {file held}, s.files file = some held → ¬ Below s root held.node) →
        Ledger base none t rest := by
  obtain ⟨children, planted⟩ := ledger.planted
  refine ⟨_, ?_, rfl, fun {t} felled idle => ⟨⟨children, planted.uproot felled⟩, ?_, fun {file held} there => ?_⟩⟩
  · rw [ledger.counted, Vfs.blocks, treeBlocks_split s root]
    abel
  · rw [Vfs.blocks, felled.treeBlocks, felled.mounts, felled.files, felled.opened]
  · rw [felled.files] at there
    obtain ⟨below, node, here, top⟩ := ledger.files there
    rw [felled.opened]
    exact ⟨below, node, by rw [felled.kept _ (idle there), here], by rw [felled.mounts]; exact top⟩

/-- A new loose root. -/
theorem Ledger.plant (ledger : Ledger base none s blocks) {inode : Fat32Inode}
    (edit : Edited s (Function.update s.nodes s.fresh (some node)) (s.fresh + 1) t) (top : node.parent = none)
    (leaf : node.firstChild = none) (type : node.type &&& vfsNodeDir ≠ 0) (data : node.data = some inode)
    (unlisted : inode.dirCache = none) :
    Ledger base (some s.fresh) t (.inode s.fresh ::ₘ .name s.fresh ::ₘ .node s.fresh ::ₘ blocks) := by
  obtain ⟨children, planted⟩ := ledger.planted
  have here : t.nodes s.fresh = some node := by rw [edit.nodes, Function.update_self]
  have old : ∀ {a other}, s.nodes a = some other → t.nodes a = some other := by
    intro a other there
    rw [edit.nodes, Function.update_of_ne (Nat.ne_of_lt (planted.bounded there)), there]
  have cases' : ∀ {a other}, t.nodes a = some other → (a = s.fresh ∧ other = node) ∨ s.nodes a = some other := by
    intro a other there
    by_cases new : a = s.fresh
    · grind
    · rw [edit.nodes, Function.update_of_ne new] at there
      exact .inr there
  refine ⟨⟨_, planted.toForest.root top leaf (fun _ => type) edit.nodes edit.fresh, ?_, ?_, ?_, ?_, ?_⟩, ?_, ?_⟩
  · grind [Planted.filled]
  · rw [edit.mounts]
    grind [Planted.mounted]
  · rw [edit.mounts]
    exact planted.distinct
  · intro a other there up
    rw [edit.mounts]
    rcases cases' there with ⟨rfl, rfl⟩ | there
    · exact .inl rfl
    · exact .inr ((planted.covered there up).resolve_left nofun)
  · rintro a ⟨⟩
    rw [edit.mounts]
    refine ⟨⟨node, here, top⟩, fun mnt member same => ?_⟩
    obtain ⟨root, there, -⟩ := planted.mounted mnt member
    exact absurd (planted.bounded there) (by omega)
  · have last : t.blocksAt s.fresh = {.inode s.fresh, .name s.fresh, .node s.fresh} := by
      rw [blocksAt_some here]
      simp only [VfsNode.blocks, data, Fat32Inode.blocks, unlisted]
      rfl
    have rest : ∑ a ∈ range s.fresh, t.blocksAt a = s.treeBlocks := by
      refine sum_congr rfl fun a member => blocksAt_congr ?_
      rw [edit.nodes, Function.update_of_ne (Nat.ne_of_lt (mem_range.mp member))]
    have tree : t.treeBlocks = s.treeBlocks + {.inode s.fresh, .name s.fresh, .node s.fresh} := by
      rw [Vfs.treeBlocks, edit.fresh, sum_range_succ, last, rest]
    rw [ledger.counted, Vfs.blocks, Vfs.blocks, tree, edit.mounts, edit.files, edit.opened]
    simp only [Multiset.insert_eq_cons, ← Multiset.singleton_add]
    abel
  · intro file held there
    rw [edit.files] at there
    obtain ⟨below, node', here', top'⟩ := ledger.files there
    rw [edit.opened]
    exact ⟨below, node', old here', by rw [edit.mounts]; exact top'⟩

theorem mountBlocks_cons (mnt : VfsMount) (mounts : List VfsMount) :
    mountBlocks (mnt :: mounts) = mnt.blocks + mountBlocks mounts := by
  rfl

theorem addMount_booked (accounts : Accounting mem Owns) (owns : Owns s.memory blocks) (ledger : Ledger base (some root) s blocks)
    (path : List UInt8) (pathLen : Nat) :
    Sound (s.addMount mem root path pathLen) fun (rc, t) =>
      (rc < 0 ∧ SameTree s t ∧ Owns t.memory blocks) ∨ (rc = 0 ∧ Booked Owns base none t) := by
  unfold Vfs.addMount
  rcases first : s.kmalloc mem (.mount root) with ⟨granted, s₁⟩
  obtain ⟨same, owns₁⟩ := accounts.kmalloc owns first
  cases granted with
  | false => exact .inl ⟨by decide, same, owns₁⟩
  | true =>
    dsimp only
    rcases second : s₁.kmalloc mem (.path root) with ⟨granted, s₂⟩
    obtain ⟨same', owns₂⟩ := accounts.kmalloc owns₁ second
    have whole := same.same same'
    cases granted with
    | false =>
      obtain ⟨s₃, freed, same'', owns₃⟩ := accounts.kfree owns₂
      dsimp only
      rw [freed]
      exact .inl ⟨(by decide : vfsErrNomem < 0), whole.same same'', owns₃⟩
    | true =>
      have ledger₂ := ledger.same whole
      obtain ⟨children, planted⟩ := ledger₂.planted
      refine .inr ⟨rfl, _, owns₂, ⟨children, planted.mount rfl⟩, ?_, fun {file held} there => ?_⟩
      · rw [if_pos rfl, if_pos rfl, ledger₂.counted, Vfs.blocks, Vfs.blocks, mountBlocks_cons]
        change _ ::ₘ _ ::ₘ _ = base + (s₂.treeBlocks + _ + _)
        rw [VfsMount.blocks, Multiset.insert_eq_cons, ← Multiset.singleton_add, ← Multiset.singleton_add _ (base + _),
          ← Multiset.singleton_add (Block.mount root)]
        abel
      · obtain ⟨below, node, here, top⟩ := ledger₂.files there
        refine ⟨below, node, here, fun none' => ?_⟩
        grind

/-- `vfs_mount` refuses, or it makes the mount of the loose root. -/
theorem vfsMount_booked (accounts : Accounting mem Owns) (owns : Owns s.memory blocks) (ledger : Ledger base (some root) s blocks)
    (path : List UInt8) :
    Sound (vfsMount mem env s root path) fun (rc, t) =>
      (rc < 0 ∧ Booked Owns base (some root) t ∧ Retains s t ∧ t.nodes root = s.nodes root) ∨
        (rc = 0 ∧ Booked Owns base none t) := by
  obtain ⟨children, planted⟩ := ledger.planted
  obtain ⟨⟨top, here, -⟩, -⟩ := planted.apart rfl
  have still : Booked Owns base (some root) s ∧ Retains s s ∧ s.nodes root = s.nodes root := ⟨⟨_, owns, ledger⟩, .refl s, rfl⟩
  have adds : ∀ {s₁ blocks₁}, Owns s₁.memory blocks₁ → Ledger base (some root) s₁ blocks₁ → Retains s s₁ →
      s₁.nodes root = s.nodes root →
      Sound (s₁.addMount mem root path (vfsTrimPathLen path)) fun (rc, t) =>
        (rc < 0 ∧ Booked Owns base (some root) t ∧ Retains s t ∧ t.nodes root = s.nodes root) ∨
          (rc = 0 ∧ Booked Owns base none t) := by
    intro s₁ blocks₁ owns₁ ledger₁ retains kept
    refine (addMount_booked accounts owns₁ ledger₁ path _).mono ?_
    rintro ⟨rc, t⟩ (⟨negative, same, owns₂⟩ | made)
    · refine .inl ⟨negative, ⟨_, owns₂, ledger₁.same same⟩, retains.trans ?_, by rw [same.nodes, kept]⟩
      exact ⟨fun there => ⟨_, by rw [same.nodes, there], rfl⟩, same.mounts, same.files, same.opened, le_of_eq same.fresh.symm⟩
    · exact .inr made
  unfold vfsMount
  dsimp only
  split
  · exact .inl ⟨(by decide : vfsErrInval < 0), still⟩
  split
  · exact .inl ⟨(by decide : vfsErrInval < 0), still⟩
  split
  · exact .inl ⟨(by decide : vfsErrExist < 0), still⟩
  split
  · refine .bind (vfsResolvePath_reshaped accounts owns planted path).result ?_
    rintro ⟨⟨rc, point⟩, s₁⟩ ⟨⟨blocks₁, reshaped, linked⟩, resolved⟩
    have ledger₁ := reshaped.booked ledger
    have retains := (planted.effects reshaped.effects).2
    have kept : s₁.nodes root = s.nodes root := (reshaped.effects.untouched planted here).trans here.symm
    cases point with
    | none =>
      rcases (vfsResolvePath_result resolved).2 with ⟨-, no⟩ | ⟨negative, -⟩
      · cases no
      · exact .inl ⟨negative, ⟨_, reshaped.owns, ledger₁⟩, retains, kept⟩
    | some point =>
      obtain ⟨node, there, -⟩ := linked point rfl
      refine .bind (Vfs.node_sound there) ?_
      rintro _ rfl
      split
      · exact .inl ⟨(by decide : vfsErrNotdir < 0), ⟨_, reshaped.owns, ledger₁⟩, retains, kept⟩
      grind [Reshaped.owns]
  grind

/-- A root without children is its whole tree. -/
theorem Forest.below_leaf (forest : Forest s children) (here : s.nodes a = some node)
    (leaf : node.firstChild = none) : Below s a x ↔ x = a := by
  have none' : children a = [] := by
    have linked := forest.linked here
    cases list : children a with
    | nil => rfl
    | cons c rest =>
      grind [Lib.Segment.start]
  constructor
  · grind [below_cases]
  · rintro rfl
    exact .here

/-- A loose root without children is taken out again. -/
theorem removeRoot_booked (accounts : Accounting mem Owns) (booked : Booked Owns base (some root) s)
    (here : s.nodes root = some node) (leaf : node.firstChild = none) :
    ∃ t, freeNode mem s root node = .ok t ∧ Felled s (· = root) t ∧ Booked Owns base none t := by
  obtain ⟨blocks, owns, ledger⟩ := booked
  obtain ⟨children, planted⟩ := ledger.planted
  obtain ⟨rest, rfl, -, onward⟩ := ledger.uproot
  have alone : ∀ x, Below s root x ↔ x = root := fun x => planted.toForest.below_leaf here leaf
  have single : belowBlocks s root = node.blocks root := by
    classical
    rw [belowBlocks, filter_congr fun x _ => alone x, filter_eq', if_pos (mem_range.mpr (planted.bounded here)),
      sum_singleton, blocksAt_some here]
  rw [single] at owns
  obtain ⟨t, freed, felled, owns'⟩ := freeNode_effect accounts.toFrees here owns
  refine ⟨t, freed, felled, rest, owns', onward ⟨fun x below => felled.gone x ((alone x).mp below),
    fun x apart => felled.kept x fun same => apart ((alone x).mpr same), felled.fresh, felled.mounts, felled.files,
    felled.opened⟩ fun {file held} there below => ?_⟩
  have linked := (ledger.files there).2
  rw [(alone _).mp below] at linked
  exact planted.loose_unlinked linked

/-- The node that `fat32_vfs_mount` makes. -/
def rootNode (vol : Fat32Vol) : VfsNode :=
  { createdNode [] vfsNodeDir (some .fat32Dir) with
    data := some {
      vol := vol
      firstCluster := vol.rootCluster
      size := 0
      attributes := fatAttrDirectory
      dirCache := none } }

/-- `fat32_vfs_mount` adds a tree, or only what the lookup of the mount point left in the
trees that were there. -/
theorem fat32VfsMount_booked (accounts : Accounting mem Owns) (booked : Booked Owns base none s) (vol : Fat32Vol)
    (path : List UInt8) :
    Sound (fat32VfsMount mem env s vol path) fun (rc, t) =>
      Booked Owns base none t ∧ ((rc < 0 ∧ Retains s t) ∨ rc = 0) := by
  obtain ⟨blocks, owns, ledger⟩ := booked
  obtain ⟨children, planted⟩ := ledger.planted
  unfold fat32VfsMount
  obtain ⟨found, s₁, created, effect⟩ := vfsNodeCreate_effect accounts owns [] vfsNodeDir (some .fat32Dir)
  rw [created]
  dsimp only [bind, Except.bind]
  cases found with
  | none =>
    obtain ⟨same, owns₁⟩ := effect
    refine ⟨⟨blocks, owns₁, ledger.same same⟩, .inl ⟨(by decide : vfsErrNomem < 0), ?_⟩⟩
    have effect : Effect env s blocks 0 s₁ blocks := .of_same same
    exact effect.retains planted.toForest
  | some root =>
    obtain ⟨rfl, -, made, owns₁⟩ := effect
    dsimp only
    rcases inodes : s₁.kmalloc mem (.inode s.fresh) with ⟨granted, s₂⟩
    obtain ⟨same, owns₂⟩ := accounts.kmalloc owns₁ inodes
    have whole := made.same same
    have here : s₂.nodes s.fresh = some (createdNode [] vfsNodeDir (some .fat32Dir)) := by
      rw [whole.nodes, Function.update_self]
    cases granted with
    | false =>
      obtain ⟨s₃, destroyed, gone, owns₃⟩ := vfsNodeDestroy_effect accounts.toFrees here owns₂
      dsimp only
      rw [destroyed]
      have back : s₃.nodes = s.nodes := by
        rw [gone.nodes, whole.nodes, Function.update_idem, ← planted.vacant _ (le_refl s.fresh), Function.update_eq_self]
      have all := whole.trans gone
      have effect : Effect env s blocks 0 s₃ blocks := .same ⟨back, rfl, all.mounts, all.files, all.opened⟩
        (by rw [all.fresh, whole.fresh]; exact Nat.le_succ _)
      exact ⟨⟨blocks, owns₃, ledger.effect effect⟩, .inl ⟨(by decide : vfsErrNomem < 0), effect.retains planted.toForest⟩⟩
    | true =>
      dsimp only
      rw [Vfs.node_eq here]
      -- The root has its inode now, and no mount has the root yet.
      have edit : Edited s (Function.update s.nodes s.fresh (some (rootNode vol))) (s.fresh + 1)
          (s₂.setNode s.fresh (rootNode vol)) :=
        ⟨by rw [Vfs.setNode, whole.nodes, Function.update_idem], whole.fresh, whole.mounts, whole.files, whole.opened⟩
      have ledger₃ := ledger.plant edit rfl rfl (show vfsNodeDir &&& vfsNodeDir ≠ 0 by decide) rfl rfl
      have owns₃ : Owns (s₂.setNode s.fresh (rootNode vol)).memory _ := owns₂
      have there : (s₂.setNode s.fresh (rootNode vol)).nodes s.fresh = some (rootNode vol) := Function.update_self ..
      have before : Retains s (s₂.setNode s.fresh (rootNode vol)) := by
        refine ⟨fun {a old} alive => ⟨old, ?_, rfl⟩, edit.mounts, edit.files, edit.opened, ?_⟩
        · rw [edit.nodes, Function.update_of_ne (Nat.ne_of_lt (planted.bounded alive)), alive]
        · rw [edit.fresh]
          exact Nat.le_succ _
      refine .bind (vfsMount_booked accounts owns₃ ledger₃ path) ?_
      rintro ⟨rc, s₄⟩ (⟨negative, booked, retains, kept⟩ | ⟨rfl, booked⟩)
      · obtain ⟨t, freed, felled, booked'⟩ := removeRoot_booked accounts booked (kept.trans there) rfl
        obtain ⟨s₅, inodeFreed, destroyed⟩ := Lib.bind_ok freed
        simp only [if_pos negative, inodeFreed, destroyed]
        have onward := before.trans retains
        refine ⟨booked', .inl ⟨negative, fun {a old} alive => ?_, felled.mounts.trans onward.mounts,
          felled.files.trans onward.files, felled.opened.trans onward.opened, felled.fresh ▸ onward.fresh⟩⟩
        rw [felled.kept a (Nat.ne_of_lt (planted.bounded alive))]
        exact onward.nodes alive
      · exact ⟨booked, .inr rfl⟩

/-- The mount that `vfs_unmount_detach` looks for. -/
def VfsMount.isAt (path : List UInt8) (mnt : VfsMount) : Bool :=
  mnt.pathLen = vfsTrimPathLen path ∧ mnt.path.take (vfsTrimPathLen path) = path.take (vfsTrimPathLen path)

theorem vfsUnmountDetach_eq (absolute : path.headD 0 = 0x2F) :
    vfsUnmountDetach mem s path = match s.mounts.find? (VfsMount.isAt path) with
      | none => .ok ((vfsErrNoent, none), s)
      | some mnt => do
        let s ← Vfs.kfree mem { s with mounts := s.mounts.eraseP (VfsMount.isAt path) } (.path mnt.root)
        let s ← s.kfree mem (.mount mnt.root)
        return ((0, some mnt.root), s) := by
  rw [vfsUnmountDetach, if_neg (not_not.mpr absolute)]
  rfl

theorem Below.congr (same : t.nodes = s.nodes) : Below t root a ↔ Below s root a := by
  constructor
  · intro below
    induction below with
    | here => exact .here
    | under alive up _ ih => exact .under (same ▸ alive) up ih
  · intro below
    induction below with
    | here => exact .here
    | under alive up _ ih => exact .under (same ▸ alive) up ih

theorem belowBlocks_congr (same : t.nodes = s.nodes) (fresh : t.fresh = s.fresh) : belowBlocks t root = belowBlocks s root := by
  classical
  rw [belowBlocks, belowBlocks, fresh]
  exact sum_congr (filter_congr fun _ _ => Below.congr same) fun a _ => blocksAt_congr (congrFun same a)

theorem mountBlocks_split :
    mountBlocks (before ++ mnt :: after) = mnt.blocks + mountBlocks (before ++ after) := by
  simp only [mountBlocks, List.map_append, List.map_cons, List.sum_append, List.sum_cons]
  abel

/-- What `vfs_unmount_detach` does when there is a mount at the path and no file is open
in its tree. -/
theorem vfsUnmountDetach_booked (frees : Frees mem Owns) (owns : Owns s.memory blocks)
    (ledger : Ledger base none s blocks) (absolute : path.headD 0 = 0x2F)
    (found : s.mounts.find? (VfsMount.isAt path) = some mnt)
    (idle : ∀ {file held}, s.files file = some held → ¬ Below s mnt.root held.node) :
    ∃ t rest, vfsUnmountDetach mem s path = .ok ((0, some mnt.root), t) ∧ Owns t.memory rest ∧
      Ledger base (some mnt.root) t rest ∧ blocks = mnt.blocks + rest ∧ t.nodes = s.nodes ∧ t.fresh = s.fresh ∧
      t.files = s.files := by
  obtain ⟨children, planted⟩ := ledger.planted
  obtain ⟨here, before, after, split, others⟩ := List.find?_eq_some_iff_append.mp found
  have erased : s.mounts.eraseP (VfsMount.isAt path) = before ++ after := by
    grind
  have planted' := planted.detach split
  have counted : blocks = .path mnt.root ::ₘ .mount mnt.root ::ₘ
      (base + (s.treeBlocks + mountBlocks (before ++ after) + fileBlocks s.files s.opened)) := by
    rw [ledger.counted, Vfs.blocks, split, mountBlocks_split, VfsMount.blocks]
    simp only [Multiset.insert_eq_cons, ← Multiset.singleton_add]
    abel
  rw [counted] at owns
  obtain ⟨s₁, freed, same, owns₁⟩ := @Frees.kfree _ _ _ { s with mounts := before ++ after } _ frees _ owns
  obtain ⟨s₂, freed', same', owns₂⟩ := frees.kfree owns₁
  have whole := same.same same'
  refine ⟨s₂, _, ?_, owns₂, ⟨⟨children, planted'.same whole.nodes whole.fresh whole.mounts⟩, ?_, fun {file held} there => ?_⟩, ?_,
    whole.nodes, whole.fresh, whole.files⟩
  · rw [vfsUnmountDetach_eq absolute, found]
    dsimp only
    rw [erased, freed]
    dsimp only [bind, Except.bind]
    rw [freed']
    rfl
  · rw [Vfs.blocks, whole.mounts, whole.files, whole.opened, Vfs.treeBlocks, Vfs.treeBlocks, whole.fresh,
      sum_congr rfl fun a _ => blocksAt_congr (congrFun whole.nodes a)]
    rfl
  · rw [whole.files] at there
    rw [whole.opened, Linked.congr whole.nodes whole.mounts]
    obtain ⟨below, node, alive, top⟩ := ledger.files there
    refine ⟨below, node, alive, fun up => ?_⟩
    obtain ⟨mnt', member, same⟩ := top up
    rw [split] at member
    rcases List.mem_append.mp member with member | member
    · grind
    rcases List.mem_cons.mp member with rfl | member
    · exact absurd (same ▸ .here) (idle there)
    grind
  · rw [counted, VfsMount.blocks]
    simp only [Multiset.insert_eq_cons, ← Multiset.singleton_add]
    abel

/-- `fat32_vfs_unmount` gives back the blocks of the mount and of its tree, each once. -/
theorem fat32VfsUnmount_booked (frees : Frees mem Owns) (owns : Owns s.memory blocks)
    (ledger : Ledger base none s blocks) {path : List UInt8} (absolute : path.headD 0 = 0x2F) {mnt : VfsMount}
    (found : s.mounts.find? (VfsMount.isAt path) = some mnt)
    (idle : ∀ {file held}, s.files file = some held → ¬ Below s mnt.root held.node) :
    Lib.Ensures (CutOff (env.fuel ≤ s.fresh)) (fat32VfsUnmount mem env s path) fun (rc, t) =>
      rc = 0 ∧ ∃ rest, Owns t.memory rest ∧ Ledger base none t rest ∧ blocks = mnt.blocks + belowBlocks s mnt.root + rest ∧
        (∀ a, Below s mnt.root a → t.nodes a = none) ∧ (∀ a, ¬ Below s mnt.root a → t.nodes a = s.nodes a) := by
  obtain ⟨s₁, rest, detached, owns₁, ledger₁, rfl, nodes, fresh, files⟩ :=
    vfsUnmountDetach_booked frees owns ledger absolute found idle
  obtain ⟨children, planted⟩ := ledger₁.planted
  obtain ⟨⟨top, here, -⟩, -⟩ := planted.apart rfl
  obtain ⟨rest', rfl, -, onward⟩ := ledger₁.uproot
  unfold fat32VfsUnmount
  rw [detached]
  dsimp only [bind, Except.bind]
  refine .bind (fat32VfsFreeTree_effect frees planted.toForest ?_ here (fun _ _ => rfl) ?_ owns₁) ?_
  · omega
  · omega
  rintro t ⟨felled, owns'⟩
  refine ⟨rfl, rest', owns', onward felled fun {file held} there => ?_, ?_, fun a below => ?_, fun a apart => ?_⟩
  · rw [files] at there
    grind [Below.congr]
  · rw [belowBlocks_congr nodes fresh, add_assoc]
  · exact felled.gone a ((Below.congr nodes).mpr below)
  · rw [felled.kept a fun below => apart ((Below.congr nodes).mp below), nodes]

end Mounting

end Books

end Velox
