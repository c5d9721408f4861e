import Velox.Fs.VfsBooks
import Velox.Fs.DirAgree
import Mathlib.Algebra.BigOperators.Group.Finset.Piecewise
import Mathlib.Algebra.Order.BigOperators.Group.Finset

namespace Velox

open Lib (Bytes)

variable {a : Nat} {node : VfsNode} {blocks : Multiset Block} {block : Block}

/-- The blocks that are handed out and those that were given back, and how often
`kmalloc` was called. -/
structure BlockHeap where
  live : Multiset Block
  freed : Multiset Block
  calls : Nat
deriving DecidableEq

/-- A heap where `kmalloc` succeeds as some rule has it, and where `kfree` of a block that
is not handed out is a fault. -/
def heap (grants : Nat → Bool) : Allocator BlockHeap where
  kmalloc := fun m block =>
    if grants m.calls then (true, ⟨block ::ₘ m.live, m.freed, m.calls + 1⟩) else (false, ⟨m.live, m.freed, m.calls + 1⟩)
  kfree := fun m block =>
    if block ∈ m.live then .ok ⟨m.live.erase block, block ::ₘ m.freed, m.calls⟩ else .error (.fault .badFree)

theorem heap_freed (owns : m.live = block ::ₘ blocks) :
    (heap grants).kfree m block = .ok ⟨blocks, block ::ₘ m.freed, m.calls⟩ := by
  simp only [heap]
  rw [if_pos (by grind), owns, Multiset.erase_cons_head]

theorem accounting_heap (grants : Nat → Bool) : Accounting (heap grants) fun m blocks => m.live = blocks where
  freed := fun owns => ⟨_, heap_freed owns, rfl⟩
  granted := fun {m block m' blocks} owns done => by
    grind [heap]
  refused := fun {m block m' blocks} owns done => by
    grind [heap]

/-- What is given back is followed as well, as long as nothing is handed out. -/
theorem frees_heap (grants : Nat → Bool) (total : Multiset Block) :
    Frees (heap grants) fun m blocks => m.live = blocks ∧ m.freed + m.live = total where
  freed := fun {m block blocks} owns => by
    refine ⟨_, heap_freed owns.1, rfl, ?_⟩
    rw [← owns.2, owns.1, Multiset.cons_add, Multiset.add_cons]

/-- A call of the file system. Files are named by what `vfs_open` returned. -/
inductive VfsCall where
  | mount (vol : Fat32Vol) (path : List UInt8)
  | unmount (path : List UInt8)
  | resolve (path : List UInt8)
  | stat (path : List UInt8)
  | openFile (path : List UInt8) (flags : Nat)
  | closeFile (file : Nat)
  | readFile (file : Nat) (buf : Bytes) (len : Nat)
  | statFile (file : Nat)
  | readdir (file index : Nat)

section Runs

variable {M : Type}

/-- The result of a call, with the node or the file that it stored. -/
def vfsCall (mem : Allocator M) (env : FsEnv) (s : Vfs M) : VfsCall → FsM ((Int × Option Nat) × Vfs M)
  | .mount vol path => do
    let (rc, s) ← fat32VfsMount mem env s vol path
    return ((rc, none), s)
  | .unmount path => do
    let (rc, s) ← fat32VfsUnmount mem env s path
    return ((rc, none), s)
  | .resolve path => vfsResolvePath mem env s path
  | .stat path => do
    let ((rc, _), s) ← vfsStat mem env s path
    return ((rc, none), s)
  | .openFile path flags => vfsOpen mem env s path flags
  | .closeFile file => do
    let (rc, s) ← vfsClose mem s file
    return ((rc, none), s)
  | .readFile file buf len => do
    let ((rc, _), s) ← vfsRead mem env s file buf len
    return ((rc, none), s)
  | .statFile file => do
    let ((rc, _), s) ← vfsFstat mem env s file
    return ((rc, none), s)
  | .readdir file index => do
    let held ← s.file file
    let ((rc, _), s) ← vfsReaddir mem env s held.node index
    return ((rc, none), s)

/-- Whether a node is in the tree of a root, by the parents above it. -/
def Vfs.inTree (s : Vfs M) (root : Nat) : Nat → Nat → Bool
  | 0, _ => false
  | steps + 1, a =>
    a == root ||
      match (s.nodes a).bind VfsNode.parent with
      | none => false
      | some above => s.inTree root steps above

/-- No file is open in the tree that a call unmounts. -/
def UnmountIdle (s : Vfs M) : VfsCall → Prop
  | .unmount path => ∀ file < s.opened, ∀ held ∈ s.files file, ∀ mnt ∈ s.mounts.find? (VfsMount.isAt path),
      s.inTree mnt.root s.fresh held.node = false
  | _ => True

instance (s : Vfs M) (call : VfsCall) : Decidable (UnmountIdle s call) := by
  cases call <;> unfold UnmountIdle <;> infer_instance

variable {mem : Allocator M} {Owns : M → Multiset Block → Prop} {env : FsEnv} {s t : Vfs M} {base : Multiset Block}

theorem Forest.inTree (forest : Forest s children) {root : Nat} (below : Below s root a)
    {steps : Nat} (enough : a < steps) : s.inTree root steps a = true := by
  induction below generalizing steps with
  | here =>
    obtain ⟨steps, rfl⟩ : ∃ rest, steps = rest + 1 := ⟨steps - 1, by omega⟩
    simp [Vfs.inTree]
  | under alive up _ ih =>
    obtain ⟨steps, rfl⟩ : ∃ rest, steps = rest + 1 := ⟨steps - 1, by omega⟩
    obtain ⟨⟨above, there⟩, member⟩ := forest.parent alive up
    have older := (forest.child there member).1
    simp only [Vfs.inTree, alive, Option.bind_some, up, ih (show _ < steps by omega), Bool.or_true]

/-- A file that is open in a tree keeps it from being idle. -/
theorem UnmountIdle.apart {path : List UInt8}
    (idle : UnmountIdle s (.unmount path)) (ledger : Ledger base none s blocks)
    (found : s.mounts.find? (VfsMount.isAt path) = some mnt) {file : Nat} {held : VfsFile}
    (there : s.files file = some held) : ¬ Below s mnt.root held.node := by
  obtain ⟨children, planted⟩ := ledger.planted
  obtain ⟨below, node, here, -⟩ := ledger.files there
  intro inside
  have no := idle file below held there mnt found
  rw [planted.toForest.inTree inside (planted.bounded here)] at no
  cases no

theorem fat32VfsUnmount_none {path : List UInt8} (none' : path.headD 0 ≠ 0x2F ∨ s.mounts.find? (VfsMount.isAt path) = none) :
    ∃ rc < 0, fat32VfsUnmount mem env s path = .ok (rc, s) := by
  unfold fat32VfsUnmount
  by_cases absolute : path.headD 0 = 0x2F
  · have missing : s.mounts.find? (VfsMount.isAt path) = none := none'.resolve_left (not_not.mpr absolute)
    rw [vfsUnmountDetach_eq absolute, missing]
    exact ⟨vfsErrNoent, by decide, rfl⟩
  · rw [vfsUnmountDetach, if_pos absolute]
    exact ⟨vfsErrInval, by decide, rfl⟩

/-- Every call keeps the books, and none uses a node that is gone or gives back what was
not handed out. -/
theorem vfsCall_booked (accounts : Accounting mem Owns) (booked : Booked Owns base none s) {call : VfsCall}
    (idle : UnmountIdle s call) : Sound (vfsCall mem env s call) fun (_, t) => Booked Owns base none t := by
  obtain ⟨blocks, owns, ledger⟩ := id booked
  obtain ⟨children, planted⟩ := ledger.planted
  cases call with
  | mount vol path => exact .bind (fat32VfsMount_booked accounts booked vol path) fun _ kept => kept.1
  | unmount path =>
    have refused : (path.headD 0 ≠ 0x2F ∨ s.mounts.find? (VfsMount.isAt path) = none) →
        Sound (vfsCall mem env s (.unmount path)) fun (_, t) => Booked Owns base none t := by
      intro none'
      obtain ⟨rc, -, done⟩ := @fat32VfsUnmount_none _ mem env _ _ none'
      simp only [vfsCall]
      rw [done]
      exact booked
    by_cases absolute : path.headD 0 = 0x2F
    · cases found : s.mounts.find? (VfsMount.isAt path) with
      | none => grind
      | some mnt =>
        have unmounts := @fat32VfsUnmount_booked _ mem Owns env _ _ _ accounts.toFrees owns ledger path absolute mnt found
          fun there => idle.apart ledger found there
        refine .bind (unmounts.excuse fun halt cut => ?_) fun _ ⟨_, rest, owns', kept, _⟩ => ⟨rest, owns', kept⟩
        rw [cut.1]
        exact excused_diverged
    grind
  | resolve path =>
    refine (vfsResolvePath_reshaped accounts owns planted path).mono ?_
    exact fun _ ⟨blocks', reshaped, _⟩ => ⟨blocks', reshaped.owns, reshaped.booked ledger⟩
  | stat path => exact .bind (booked_of_reshaped ledger (vfsStat_reshaped accounts owns planted path)) fun _ kept => kept
  | openFile path flags => exact vfsOpen_booked accounts booked path flags
  | closeFile file => exact .bind (vfsClose_booked accounts booked file) fun _ kept => kept
  | readFile file buf len => exact .bind (vfsRead_booked accounts booked file buf len) fun _ kept => kept
  | statFile file => exact .bind (vfsFstat_booked accounts booked file) fun _ kept => kept
  | readdir file index =>
    refine .bind (Vfs.file_sound s file) fun held there => ?_
    exact .bind (booked_of_reshaped ledger (vfsReaddir_reshaped accounts owns planted (ledger.files there).2 index))
      fun _ kept => kept

/-- The books of a run that unmounts idle trees only. -/
theorem booked_of_run (accounts : Accounting mem Owns) {memory : M} (owns : Owns memory base)
    {trace : List (VfsCall × Int × Option Nat)}
    (run : Lib.Steps (Lib.guarded UnmountIdle (vfsCall mem env)) (vfsInit memory) trace s) : Booked Owns base none s := by
  refine run.invariant (Booked Owns base none) (fun {s call answer t} booked taken => ?_) ⟨base, owns, ?_⟩
  · obtain ⟨idle, done⟩ := Lib.guarded_ok taken
    exact (vfsCall_booked accounts booked idle).ok done
  · refine ⟨⟨fun _ => [], ⟨nofun, nofun, nofun, nofun, nofun, nofun⟩, nofun, nofun, List.nodup_nil, nofun, nofun⟩, ?_, nofun⟩
    simp [vfsInit, Vfs.blocks, Vfs.treeBlocks, mountBlocks, fileBlocks]

/-- The blocks of a node are among those of the file system. -/
theorem Planted.mem_blocks (planted : Planted s children none) (here : s.nodes a = some node) :
    .node a ∈ s.blocks ∧ .inode a ∈ s.blocks := by
  have inside : ∀ block ∈ node.blocks a, block ∈ s.blocks := by
    intro block member
    rw [← blocksAt_some here] at member
    refine Multiset.mem_add.mpr (.inl (Multiset.mem_add.mpr (.inl ?_)))
    exact Multiset.mem_sum.mpr ⟨a, Finset.mem_range.mpr (planted.bounded here), member⟩
  obtain ⟨inode, data⟩ := planted.filled here
  refine ⟨inside _ ?_, inside _ ?_⟩
  all_goals
    simp only [VfsNode.blocks, data, Fat32Inode.blocks]
    split <;> simp

end Runs

section Files

variable {env : FsEnv} {grants : Nat → Bool} {base : Multiset Block} {s : Vfs BlockHeap}

/-- When trees are unmounted only while no file is open in them, every open file has its
node and its inode, and no call meets a node that is gone. -/
theorem open_files_keep_their_nodes {trace : List (VfsCall × Int × Option Nat)}
    (run : Lib.Steps (Lib.guarded UnmountIdle (vfsCall (heap grants) env)) (vfsInit ⟨base, 0, 0⟩) trace s) :
    (∀ file held, s.files file = some held → ∃ node inode, s.nodes held.node = some node ∧ node.data = some inode ∧
      .node held.node ∈ s.memory.live ∧ .inode held.node ∈ s.memory.live) ∧
    ∀ call, UnmountIdle s call → vfsCall (heap grants) env s call ≠ .error (.fault .danglingNode) := by
  have booked := booked_of_run (accounting_heap grants) (show (BlockHeap.mk base 0 0).live = base from rfl) run
  refine ⟨fun file held there => ?_, fun call idle failed => ?_⟩
  · obtain ⟨blocks, owns, ledger⟩ := booked
    obtain ⟨children, planted⟩ := ledger.planted
    obtain ⟨-, node, here, -⟩ := ledger.files there
    obtain ⟨inode, data⟩ := planted.filled here
    obtain ⟨nodeLive, inodeLive⟩ := planted.mem_blocks here
    rw [owns, ledger.counted]
    grind
  · have sound : Sound (vfsCall (heap grants) env s call) _ := vfsCall_booked (accounting_heap grants) booked idle
    rw [failed] at sound
    exact sound.1 rfl

/-- A volume with the file `A`, and room for a few passes. -/
def oneFileEnv : FsEnv := ⟨sampleDir 512 oneFile 0, 10, fun _ _ => 0⟩

def slashA : List UInt8 := [0x2F, 0x41]

theorem open_files_keep_their_nodes_sample : ∃ s : Vfs BlockHeap,
    Lib.Steps (Lib.guarded UnmountIdle (vfsCall (heap fun _ => true) oneFileEnv)) (vfsInit ⟨0, 0, 0⟩)
      [(.mount (sampleVol 100 98) [0x2F], (0, none)), (.openFile slashA 0, (0, some 0)), (.statFile 0, (0, none))] s ∧
    (∃ held, s.files 0 = some held ∧ ∃ node inode, s.nodes held.node = some node ∧ node.data = some inode ∧
      .node held.node ∈ s.memory.live ∧ .inode held.node ∈ s.memory.live) := by
  obtain ⟨s, run, test⟩ := Lib.Steps.exists_of_replay_test
    (show (Lib.replay (Lib.guarded UnmountIdle (vfsCall (heap fun _ => true) oneFileEnv)) (vfsInit ⟨0, 0, 0⟩)
      [(.mount (sampleVol 100 98) [0x2F], (0, none)), (.openFile slashA 0, (0, some 0)), (.statFile 0, (0, none))]).any
        (fun s => (s.files 0).isSome) = true by decide +kernel)
  obtain ⟨held, there⟩ := Option.isSome_iff_exists.mp test
  exact ⟨s, run, held, there, (open_files_keep_their_nodes run).1 0 held there⟩

/-- A file is open on `A` when the volume is unmounted: its node is gone, and `vfs_fstat`
and `vfs_close` look at it. -/
theorem open_file_loses_its_node : ∃ s : Vfs BlockHeap,
    Lib.Steps (vfsCall (heap fun _ => true) oneFileEnv) (vfsInit ⟨0, 0, 0⟩)
      [(.mount (sampleVol 100 98) [0x2F], (0, none)), (.openFile slashA 0, (0, some 0)), (.unmount [0x2F], (0, none))] s ∧
    (∃ held, s.files 0 = some held ∧ s.nodes held.node = none ∧ .node held.node ∉ s.memory.live) ∧
    vfsCall (heap fun _ => true) oneFileEnv s (.statFile 0) = .error (.fault .danglingNode) ∧
    vfsCall (heap fun _ => true) oneFileEnv s (.closeFile 0) = .error (.fault .danglingNode) := by
  obtain ⟨s, run, test⟩ := Lib.Steps.exists_of_replay_test
    (show (Lib.replay (vfsCall (heap fun _ => true) oneFileEnv) (vfsInit ⟨0, 0, 0⟩)
      [(.mount (sampleVol 100 98) [0x2F], (0, none)), (.openFile slashA 0, (0, some 0)), (.unmount [0x2F], (0, none))]).any
        (fun s => ∃ held ∈ s.files 0, s.nodes held.node = none ∧ .node held.node ∉ s.memory.live) = true by
      decide +kernel)
  obtain ⟨held, there, gone, dead⟩ := of_decide_eq_true test
  have there : s.files 0 = some held := there
  have file : s.file 0 = .ok held := by rw [Vfs.file, there]
  have node : s.node held.node = .error (.fault .danglingNode) := by rw [Vfs.node, gone]
  refine ⟨s, run, ⟨held, there, gone, dead⟩, ?_, ?_⟩
  · dsimp only [vfsCall, vfsFstat, vfsStatNode, bind, Except.bind]
    grind
  · dsimp only [vfsCall, vfsClose, bind, Except.bind]
    grind

end Files

section Blocks

variable {M : Type} {s : Vfs M}

theorem mem_nodeBlocks (member : block ∈ node.blocks a) :
    block = .node a ∨ block = .name a ∨ block = .inode a ∨ block = .dirCache a := by
  unfold VfsNode.blocks Fat32Inode.blocks at member
  split at member
  · simp at member
    tauto
  · split at member
    · simp at member
      tauto
    · simp at member
      tauto

theorem nodup_nodeBlocks (node : VfsNode) (a : Nat) : (node.blocks a).Nodup := by
  unfold VfsNode.blocks Fat32Inode.blocks
  split
  · simp
  · split <;> simp

/-- The address of the node that a block is of. -/
def Block.address : Block → Nat
  | .node a | .name a | .inode a | .dirCache a | .mount a | .path a | .file a => a
  | .clusterBuf => 0

/-- The blocks of a tree are all different. -/
theorem nodup_belowBlocks (s : Vfs M) (root : Nat) : (belowBlocks s root).Nodup := by
  classical
  have own : ∀ {a block}, block ∈ s.blocksAt a → block.address = a := by
    intro a block member
    unfold Vfs.blocksAt at member
    split at member
    · cases member
    · rcases mem_nodeBlocks member with rfl | rfl | rfl | rfl <;> rfl
  have once : ∀ a, (s.blocksAt a).Nodup := by
    unfold Vfs.blocksAt
    grind [Multiset.nodup_zero, nodup_nodeBlocks]
  refine Multiset.nodup_iff_count_le_one.mpr fun block => ?_
  rw [belowBlocks, Multiset.count_sum']
  refine le_trans (Finset.sum_le_sum fun a _ => ?_) (?_ : ∑ a ∈ _, (if a = block.address then 1 else 0) ≤ 1)
  · split
    · exact Multiset.nodup_iff_count_le_one.mp (once a) block
    · rename_i other
      exact le_of_eq (Multiset.count_eq_zero.mpr fun member => other (own member).symm)
  · rw [Finset.sum_ite_eq']
    split <;> decide

theorem nodup_mountedBlocks (s : Vfs M) (mnt : VfsMount) : (mnt.blocks + belowBlocks s mnt.root).Nodup := by
  refine Multiset.nodup_add.mpr ⟨by simp [VfsMount.blocks], nodup_belowBlocks s _, ?_⟩
  refine Multiset.disjoint_left.mpr fun {block} mine below => ?_
  obtain ⟨a, -, member⟩ := Multiset.mem_sum.mp below
  unfold Vfs.blocksAt at member
  split at member
  · cases member
  · have kind := mem_nodeBlocks member
    simp only [VfsMount.blocks, Multiset.insert_eq_cons, Multiset.mem_cons, Multiset.mem_singleton] at mine
    grind

/-- Every node is in the tree of one mount. -/
theorem Planted.one_mount (planted : Planted s children none) (here : s.nodes a = some node) :
    ∃ mnt ∈ s.mounts, Below s mnt.root a ∧ ∀ other ∈ s.mounts, Below s other.root a → other = mnt := by
  have top : ∀ {a node}, s.nodes a = some node → ∃ mnt ∈ s.mounts, Below s mnt.root a := by
    intro a
    induction a using Nat.strong_induction_on with
    | h a ih =>
      intro node here
      cases up : node.parent with
      | none =>
        obtain ⟨mnt, member, rfl⟩ := (planted.covered here up).resolve_left nofun
        exact ⟨mnt, member, .here⟩
      | some above =>
        obtain ⟨⟨dir, there⟩, member⟩ := planted.parent here up
        obtain ⟨mnt, inside, below⟩ := ih above (planted.child there member).1 there
        exact ⟨mnt, inside, .under here up below⟩
  -- Nothing is above the root of a mount.
  have root : ∀ {mnt r}, mnt ∈ s.mounts → Below s r mnt.root → r = mnt.root := by
    intro mnt r member below
    obtain ⟨node, here, top⟩ := planted.mounted mnt member
    cases below with
    | here => rfl
    | under alive up _ =>
      grind
  obtain ⟨mnt, member, below⟩ := top here
  refine ⟨mnt, member, below, fun other member' below' => ?_⟩
  refine List.inj_on_of_nodup_map planted.distinct member' member ?_
  rcases below'.linear below with above | above
  · exact root member above
  grind

end Blocks

section Accounts

variable {env : FsEnv} {grants : Nat → Bool} {base : Multiset Block} {s : Vfs BlockHeap}

end Accounts

end Velox
