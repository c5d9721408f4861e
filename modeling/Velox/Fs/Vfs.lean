import Velox.Fs.Fat32Dir
import Mathlib.Data.Multiset.AddSub

/-! The virtual file system of `fs/vfs/vfs.c` over `fs/vfs/fat32_vfs.c`. What `kmalloc` and
`kfree` do is a parameter. -/

namespace Velox

open Lib (Bytes)

def vfsNameMax : Nat := 255
def vfsNodeFile : Nat := 0x0001
def vfsNodeDir : Nat := 0x0002

def vfsErrNoent : Int := -2
def vfsErrIo : Int := -5
def vfsErrNomem : Int := -12
def vfsErrExist : Int := -17
def vfsErrNotdir : Int := -20
def vfsErrInval : Int := -22
def vfsErrNametoolong : Int := -36
def vfsErrNotsup : Int := -95

/-- `fat32_dir_ops` and `fat32_file_ops`. -/
inductive NodeOps where
  | fat32Dir
  | fat32File
deriving DecidableEq, Repr

/-- The listing is there when `dir_cache_loaded` is set. -/
structure Fat32Inode where
  vol : Fat32Vol
  firstCluster : Nat
  size : Nat
  attributes : UInt8
  dirCache : Option (List Fat32Dirent)
deriving DecidableEq, Repr

structure VfsNode where
  name : List UInt8
  type : Nat
  size : Nat
  ops : Option NodeOps
  data : Option Fat32Inode
  parent : Option Nat
  firstChild : Option Nat
  nextSibling : Option Nat
deriving DecidableEq, Repr

structure VfsMount where
  path : List UInt8
  pathLen : Nat
  root : Nat
deriving DecidableEq, Repr

structure VfsFile where
  node : Nat
  pos : Nat
  flags : Nat
deriving DecidableEq, Repr

/-- The blocks of the heap by what they are for: the record of a node, its name, its
inode and the listing of its inode; the record of a mount and its path, by the root; a
file; and the cluster buffer of a scan. -/
inductive Block where
  | node (address : Nat)
  | name (address : Nat)
  | inode (address : Nat)
  | dirCache (address : Nat)
  | mount (root : Nat)
  | path (root : Nat)
  | file (address : Nat)
  | clusterBuf
deriving DecidableEq, Repr

abbrev FsM := Except (Lib.Halt FsFault)

/-- `kmalloc`, which may have no memory left, and `kfree`. -/
structure Allocator (M : Type) where
  kmalloc : M → Block → Bool × M
  kfree : M → Block → FsM M

/-- Memory that is always there. -/
def ample : Allocator Unit where
  kmalloc := fun _ _ => (true, ())
  kfree := fun _ _ => .ok ()

/-- The nodes and the open files by their address, `g_mounts`, the memory, and how many
cluster buffers have been handed out. -/
structure Vfs (M : Type) where
  nodes : Nat → Option VfsNode
  fresh : Nat
  mounts : List VfsMount
  files : Nat → Option VfsFile
  opened : Nat
  memory : M
  buffers : Nat

def vfsInit {M : Type} (memory : M) : Vfs M := ⟨fun _ => none, 0, [], fun _ => none, 0, memory, 0⟩

/-- The string in a buffer, up to its terminator. -/
def cString (bytes : List UInt8) : List UInt8 := bytes.takeWhile (· ≠ 0)

section Nodes

variable {M : Type} (mem : Allocator M)

def Vfs.node (s : Vfs M) (address : Nat) : FsM VfsNode :=
  match s.nodes address with
  | none => .error (.fault .danglingNode)
  | some node => .ok node

theorem Vfs.node_eq {s : Vfs M} {address : Nat} {node : VfsNode} (here : s.nodes address = some node) :
    s.node address = .ok node := by
  rw [Vfs.node, here]

def Vfs.setNode (s : Vfs M) (address : Nat) (node : VfsNode) : Vfs M :=
  { s with nodes := Function.update s.nodes address (some node) }

def Vfs.kmalloc (s : Vfs M) (block : Block) : Bool × Vfs M :=
  match mem.kmalloc s.memory block with
  | (granted, memory) => (granted, { s with memory := memory })

def Vfs.kfree (s : Vfs M) (block : Block) : FsM (Vfs M) :=
  match mem.kfree s.memory block with
  | .error halt => .error halt
  | .ok memory => .ok { s with memory := memory }

section

variable {mem} {s t : Vfs M} {block : Block} {granted : Bool}

theorem Vfs.kmalloc_cases (done : s.kmalloc mem block = (granted, t)) :
    ∃ memory, mem.kmalloc s.memory block = (granted, memory) ∧ t = { s with memory := memory } := by
  cases done
  exact ⟨_, rfl, rfl⟩

theorem Vfs.kfree_cases (done : s.kfree mem block = .ok t) :
    ∃ memory, mem.kfree s.memory block = .ok memory ∧ t = { s with memory := memory } := by
  unfold Vfs.kfree at done
  grind

end

def vfsNodeCreate (s : Vfs M) (name : List UInt8) (type : Nat) (ops : Option NodeOps) : FsM ((Option Nat) × Vfs M) :=
  match s.kmalloc mem (.node s.fresh) with
  | (false, s) => .ok (none, s)
  | (true, s) =>
    if vfsNameMax < (cString name).length then do
      let s ← s.kfree mem (.node s.fresh)
      return (none, s)
    else
      match s.kmalloc mem (.name s.fresh) with
      | (false, s) => do
        let s ← s.kfree mem (.node s.fresh)
        return (none, s)
      | (true, s) =>
        let node : VfsNode := {
          name := cString name
          type := type
          size := 0
          ops := ops
          data := none
          parent := none
          firstChild := none
          nextSibling := none }
        .ok (some s.fresh, { s.setNode s.fresh node with fresh := s.fresh + 1 })

def vfsNodeDestroy (s : Vfs M) (address : Nat) : FsM (Vfs M) := do
  let _ ← s.node address
  let s ← s.kfree mem (.name address)
  let s ← s.kfree mem (.node address)
  return { s with nodes := Function.update s.nodes address none }

def vfsAddChild (s : Vfs M) (parent child : Nat) : FsM (Int × Vfs M) := do
  let dir ← s.node parent
  if dir.type &&& vfsNodeDir = 0 then return (vfsErrNotdir, s)
  let node ← s.node child
  let s := s.setNode child { node with parent := some parent, nextSibling := dir.firstChild }
  return (0, s.setNode parent { dir with firstChild := some child })

/-- The walk over the children that `vfs_find_child` and `fat32_find_child_ci` make. -/
def findChildPass (s : Vfs M) (wanted : VfsNode → Bool) : Option Nat → Option Nat ⊕ FsM (Option Nat)
  | none => .inr (.ok none)
  | some child =>
    match s.nodes child with
    | none => .inr (.error (.fault .danglingNode))
    | some node => if wanted node then .inr (.ok (some child)) else .inl node.nextSibling

def findChild (s : Vfs M) (fuel : Nat) (dir : VfsNode) (wanted : VfsNode → Bool) : FsM (Option Nat) :=
  Lib.finish (Lib.loop (findChildPass s wanted) fuel dir.firstChild)

def vfsFindChild (s : Vfs M) (fuel : Nat) (dir : VfsNode) (name : List UInt8) : FsM (Option Nat) :=
  findChild s fuel dir fun child => cString child.name = cString name

def fat32FindChildCi (s : Vfs M) (fuel : Nat) (dir : VfsNode) (name : List UInt8) : FsM (Option Nat) :=
  findChild s fuel dir fun child => fat32NameEqualCi child.name name

def fat32VfsMakeNode (s : Vfs M) (vol : Fat32Vol) (ent : Fat32Dirent) : FsM ((Option Nat) × Vfs M) := do
  let type := if ent.attributes &&& fatAttrDirectory ≠ 0 then vfsNodeDir else vfsNodeFile
  let ops := if type &&& vfsNodeDir ≠ 0 then NodeOps.fat32Dir else .fat32File
  match ← vfsNodeCreate mem s ent.name type (some ops) with
  | (none, s) => return (none, s)
  | (some address, s) =>
    match s.kmalloc mem (.inode address) with
    | (false, s) =>
      let s ← vfsNodeDestroy mem s address
      return (none, s)
    | (true, s) =>
      let node ← s.node address
      let inode : Fat32Inode := {
        vol := vol
        firstCluster := ent.firstCluster
        size := ent.fileSize
        attributes := ent.attributes
        dirCache := none }
      return (some address, s.setNode address { node with data := some inode, size := ent.fileSize })

end Nodes

section Fat32Ops

variable {M : Type} (mem : Allocator M) (env : FsEnv)

/-- A function of `fat32.c` that takes a cluster buffer, unless it returns before that,
and gives it back. -/
def withClusterBuf {α : Type} (s : Vfs M) (taken : Bool) (scan : Option Bytes → FsM α) : FsM (α × Vfs M) :=
  if taken then
    match s.kmalloc mem .clusterBuf with
    | (false, s) => do
      let result ← scan none
      return (result, s)
    | (true, s) => do
      let result ← scan (some (env.buffers s.buffers))
      let s ← { s with buffers := s.buffers + 1 }.kfree mem .clusterBuf
      return (result, s)
  else do
    let result ← scan none
    return (result, s)

def inodeLookup (s : Vfs M) (inode : Fat32Inode) (name : List UInt8) : FsM ((Int × Option Fat32Dirent) × Vfs M) :=
  withClusterBuf mem env s (2 ≤ inode.firstCluster) fun clusterBuf =>
    fat32Lookup env.disk inode.vol env.fuel clusterBuf inode.firstCluster name

/-- The entry of a name in a directory, from its listing or from the disk. -/
def fat32VfsFindEntry (s : Vfs M) (inode : Fat32Inode) (name : List UInt8) : FsM ((Option Fat32Dirent) × Vfs M) :=
  match inode.dirCache with
  | some entries => .ok (entries.find? fun ent => fat32NameEqualCi ent.name name, s)
  | none => do
    let ((rc, found), s) ← inodeLookup mem env s inode name
    if rc < 0 then return (none, s)
    return (found, s)

def fat32VfsLookup (s : Vfs M) (dir : Nat) (name : List UInt8) : FsM ((Option Nat) × Vfs M) := do
  let node ← s.node dir
  match ← fat32FindChildCi s env.fuel node name with
  | some cached => return (some cached, s)
  | none =>
    match node.data with
    | none => return (none, s)
    | some inode =>
      match ← fat32VfsFindEntry mem env s inode name with
      | (none, s) => return (none, s)
      | (some ent, s) =>
        match ← fat32VfsMakeNode mem s inode.vol ent with
        | (none, s) => return (none, s)
        | (some child, s) =>
          let (rc, s) ← vfsAddChild s dir child
          if rc < 0 then
            let s ← vfsNodeDestroy mem s child
            return (none, s)
          return (some child, s)

/-- The loop of `fat32_vfs_load_dir_cache` on the capacity: a listing that fits, or an
error. -/
def loadDirPass (dir : Nat) (inode : Fat32Inode) :
    Nat × Vfs M → (Nat × Vfs M) ⊕ FsM (Except Int (List Fat32Dirent) × Vfs M)
  | (cap, s) =>
    if cap = 0 then .inr (.ok (.error vfsErrNomem, s))
    else
      match s.kmalloc mem (.dirCache dir) with
      | (false, s) => .inr (.ok (.error vfsErrNomem, s))
      | (true, s) =>
        match withClusterBuf mem env s true fun clusterBuf =>
          fat32ReadDir env.disk inode.vol env.fuel clusterBuf inode.firstCluster cap with
        | .error halt => .inr (.error halt)
        | .ok ((ok, entries), s) =>
          if ok ∧ entries.length < cap then .inr (.ok (.ok entries, s))
          else
            match s.kfree mem (.dirCache dir) with
            | .error halt => .inr (.error halt)
            | .ok s => if ok then .inl (cap * 2 % 2 ^ 32, s) else .inr (.ok (.error vfsErrIo, s))

/-- The result, with the listing that is there after it. -/
def fat32VfsLoadDirCache (s : Vfs M) (dir : Nat) (node : VfsNode) (inode : Fat32Inode) :
    FsM ((Int × Option (List Fat32Dirent)) × Vfs M) := do
  match inode.dirCache with
  | some entries => return ((0, some entries), s)
  | none =>
    match ← Lib.finish (Lib.loop (loadDirPass mem env dir inode) env.fuel (64, s)) with
    | (.error rc, s) => return ((rc, none), s)
    | (.ok entries, s) =>
      return ((0, some entries), s.setNode dir { node with data := some { inode with dirCache := some entries } })

/-- What `readdir` returns for an entry, with the name and the type it stores. -/
def direntReport (ent : Fat32Dirent) : Int × Option (List UInt8 × Nat) :=
  if vfsNameMax < (cString ent.name).length then (vfsErrNametoolong, none)
  else (1, some (cString ent.name, if ent.attributes &&& fatAttrDirectory ≠ 0 then vfsNodeDir else vfsNodeFile))

def fat32VfsReaddir (s : Vfs M) (dir index : Nat) : FsM ((Int × Option (List UInt8 × Nat)) × Vfs M) := do
  let node ← s.node dir
  match node.data with
  | none => return ((vfsErrIo, none), s)
  | some inode =>
    let ((rc, cache), s) ← fat32VfsLoadDirCache mem env s dir node inode
    if rc < 0 ∧ rc ≠ vfsErrNomem then return ((rc, none), s)
    match cache with
    | some entries =>
      match entries[index]? with
      | none => return ((0, none), s)
      | some ent => return (direntReport ent, s)
    | none =>
      -- Without a listing the entry is looked up on the disk.
      let ((rc, found), s) ← withClusterBuf mem env s (2 ≤ inode.firstCluster) fun clusterBuf =>
        fat32ReaddirIndex env.disk inode.vol env.fuel clusterBuf inode.firstCluster index
      if rc ≤ 0 then return ((rc, none), s)
      match found with
      | none => .error .misuse
      | some ent => return (direntReport ent, s)

/-- The type and the size that `stat` reports. -/
def fat32VfsStat (s : Vfs M) (address : Nat) : FsM ((Int × Option (Nat × Nat)) × Vfs M) := do
  let node ← s.node address
  match node.data with
  | none => return ((vfsErrIo, none), s)
  | some inode =>
    match node.parent with
    | none => return ((0, some (node.type, node.size)), s)
    | some parent =>
      let dir ← s.node parent
      match dir.data with
      | none => return ((0, some (node.type, node.size)), s)
      | some up =>
        let ((rc, found), s) ← inodeLookup mem env s up node.name
        if rc ≠ 0 then return ((0, some (node.type, node.size)), s)
        match found with
        | none => .error .misuse
        | some ent =>
          let inode := { inode with size := ent.fileSize, attributes := ent.attributes }
          return ((0, some (node.type, ent.fileSize)),
            s.setNode address { node with data := some inode, size := ent.fileSize })

/-- What `read` returns, with what it leaves in the caller's buffer. -/
def fat32VfsRead (s : Vfs M) (file : VfsFile) (buf : Bytes) (len : Nat) : FsM ((Int × Bytes) × Vfs M) := do
  let node ← s.node file.node
  match node.data with
  | none => return ((vfsErrIo, buf), s)
  | some inode =>
    let taken := file.pos < inode.size ∧ len ≠ 0 ∧ 2 ≤ inode.firstCluster
    withClusterBuf mem env s taken fun clusterBuf =>
      match fat32ReadFileAt env.disk inode.vol env.fuel clusterBuf inode.firstCluster inode.size file.pos buf len with
      | none => .error .diverged
      | some result => .ok result

end Fat32Ops

def vfsStrlen (path : List UInt8) : Nat := (cString path).length

def vfsTrimPathLen (path : List UInt8) : Nat :=
  max (min 1 (vfsStrlen path)) ((cString path).rdropWhile (· = 0x2F)).length

def vfsSkipSlashes (p : List UInt8) : List UInt8 := p.dropWhile (· = 0x2F)

def vfsPathIsPrefix (path : List UInt8) (pathLen : Nat) (mnt : VfsMount) : Bool :=
  if mnt.pathLen = 0 then false
  else if mnt.pathLen = 1 then 1 ≤ pathLen && path.headD 0 == 0x2F
  else if pathLen < mnt.pathLen then false
  else if path.take mnt.pathLen ≠ mnt.path.take mnt.pathLen then false
  else if pathLen = mnt.pathLen then true
  else path.getD mnt.pathLen 0 == 0x2F

/-- The last of the longest matches in the list. -/
def vfsFindMountForPath (mounts : List VfsMount) (path : List UInt8) (pathLen : Nat) : Option VfsMount :=
  mounts.foldl (fun best mnt =>
    if vfsPathIsPrefix path pathLen mnt && (best.map VfsMount.pathLen).getD 0 ≤ mnt.pathLen then some mnt else best) none

section Paths

variable {M : Type} (mem : Allocator M) (env : FsEnv)

def vfsLookupChild (s : Vfs M) (dir : Nat) (name : List UInt8) : FsM ((Option Nat) × Vfs M) := do
  let node ← s.node dir
  match node.ops with
  | some .fat32Dir => fat32VfsLookup mem env s dir name
  | some .fat32File | none =>
    let found ← vfsFindChild s env.fuel node name
    return (found, s)

/-- The loop of `vfs_resolve_path`, on the rest of the path, the node reached, and the
tree. -/
def resolvePass : List UInt8 × Nat × Vfs M → (List UInt8 × Nat × Vfs M) ⊕ FsM ((Int × Option Nat) × Vfs M)
  | (p, node, s) =>
    if p = [] then .inr (.ok ((0, some node), s))
    else
      let seg := p.takeWhile (· ≠ 0x2F)
      let p := p.drop seg.length
      if seg.length = 0 then .inl (vfsSkipSlashes p, node, s)
      else if vfsNameMax < seg.length then .inr (.ok ((vfsErrNametoolong, none), s))
      else
        match vfsLookupChild mem env s node seg with
        | .error halt => .inr (.error halt)
        | .ok (none, s) => .inr (.ok ((vfsErrNoent, none), s))
        | .ok (some node, s) =>
          let p := vfsSkipSlashes p
          match s.node node with
          | .error halt => .inr (.error halt)
          | .ok found =>
            if p ≠ [] ∧ found.type &&& vfsNodeDir = 0 then .inr (.ok ((vfsErrNotdir, none), s))
            else .inl (p, node, s)

/-- The result of `vfs_resolve_path` and what it stored in `*out_node`. -/
def vfsResolvePath (s : Vfs M) (path : List UInt8) : FsM ((Int × Option Nat) × Vfs M) :=
  if path.headD 0 ≠ 0x2F then .ok ((vfsErrInval, none), s)
  else
    let pathLen := vfsTrimPathLen path
    if pathLen = 0 then .ok ((vfsErrInval, none), s)
    else
      match vfsFindMountForPath s.mounts path pathLen with
      | none => .ok ((vfsErrNoent, none), s)
      | some mnt =>
        let p := (path.take pathLen).drop mnt.pathLen
        let p := if 1 < mnt.pathLen ∧ p.headD 0 = 0x2F then p.drop 1 else p
        Lib.finish (Lib.loop (resolvePass mem env) env.fuel (vfsSkipSlashes p, mnt.root, s))

/-- The end of `vfs_mount`, which allocates the mount and its path. -/
def Vfs.addMount (s : Vfs M) (root : Nat) (path : List UInt8) (pathLen : Nat) : FsM (Int × Vfs M) :=
  match s.kmalloc mem (.mount root) with
  | (false, s) => .ok (vfsErrNomem, s)
  | (true, s) =>
    match s.kmalloc mem (.path root) with
    | (false, s) => do
      let s ← s.kfree mem (.mount root)
      return (vfsErrNomem, s)
    | (true, s) => .ok (0, { s with mounts := ⟨path.take pathLen, pathLen % 2 ^ 16, root⟩ :: s.mounts })

def vfsMount (s : Vfs M) (root : Nat) (path : List UInt8) : FsM (Int × Vfs M) :=
  if path.headD 0 ≠ 0x2F then .ok (vfsErrInval, s)
  else
    let pathLen := vfsTrimPathLen path
    if pathLen = 0 then .ok (vfsErrInval, s)
    else if s.mounts.any fun mnt => mnt.pathLen = pathLen ∧ mnt.path.take pathLen = path.take pathLen then
      .ok (vfsErrExist, s)
    else if 1 < pathLen ∧ s.mounts ≠ [] then do
      let ((rc, point), s) ← vfsResolvePath mem env s path
      match point with
      | none => return (rc, s)
      | some point =>
        let node ← s.node point
        if node.type &&& vfsNodeDir = 0 then return (vfsErrNotdir, s)
        s.addMount mem root path pathLen
    else s.addMount mem root path pathLen

/-- `vfs_unmount_detach`, with what it stored in `*out_root`. -/
def vfsUnmountDetach (s : Vfs M) (path : List UInt8) : FsM ((Int × Option Nat) × Vfs M) :=
  if path.headD 0 ≠ 0x2F then .ok ((vfsErrInval, none), s)
  else
    let pathLen := vfsTrimPathLen path
    let here (mnt : VfsMount) : Bool := mnt.pathLen = pathLen ∧ mnt.path.take pathLen = path.take pathLen
    match s.mounts.find? here with
    | none => .ok ((vfsErrNoent, none), s)
    | some mnt => do
      let s := { s with mounts := s.mounts.eraseP here }
      let s ← s.kfree mem (.path mnt.root)
      let s ← s.kfree mem (.mount mnt.root)
      return ((0, some mnt.root), s)

def fat32VfsMount (s : Vfs M) (vol : Fat32Vol) (path : List UInt8) : FsM (Int × Vfs M) := do
  match ← vfsNodeCreate mem s [] vfsNodeDir (some .fat32Dir) with
  | (none, s) => return (vfsErrNomem, s)
  | (some root, s) =>
    match s.kmalloc mem (.inode root) with
    | (false, s) =>
      let s ← vfsNodeDestroy mem s root
      return (vfsErrNomem, s)
    | (true, s) =>
      let node ← s.node root
      let inode : Fat32Inode := {
        vol := vol
        firstCluster := vol.rootCluster
        size := 0
        attributes := fatAttrDirectory
        dirCache := none }
      let (rc, s) ← vfsMount mem env (s.setNode root { node with data := some inode }) root path
      if rc < 0 then
        let s ← s.kfree mem (.inode root)
        let s ← vfsNodeDestroy mem s root
        return (rc, s)
      return (0, s)

/-- The loop of `fat32_vfs_free_tree` over the children. -/
def freeChildrenPass (freeTree : Vfs M → Nat → FsM (Vfs M)) : Option Nat × Vfs M → (Option Nat × Vfs M) ⊕ FsM (Vfs M)
  | (none, s) => .inr (.ok s)
  | (some child, s) =>
    match s.node child with
    | .error halt => .inr (.error halt)
    | .ok node =>
      match freeTree s child with
      | .error halt => .inr (.error halt)
      | .ok s => .inl (node.nextSibling, s)

/-- The end of `fat32_vfs_free_tree`, for the node itself. -/
def freeNode (s : Vfs M) (address : Nat) (node : VfsNode) : FsM (Vfs M) :=
  match node.data with
  | none => vfsNodeDestroy mem s address
  | some inode =>
    match inode.dirCache with
    | none => do
      let s ← s.kfree mem (.inode address)
      vfsNodeDestroy mem s address
    | some _ => do
      let s ← s.kfree mem (.dirCache address)
      let s ← s.kfree mem (.inode address)
      vfsNodeDestroy mem s address

/-- `fat32_vfs_free_tree`, down to a depth. -/
def fat32VfsFreeTree : Nat → Vfs M → Nat → FsM (Vfs M)
  | 0, _, _ => .error .diverged
  | depth + 1, s, address => do
    let node ← s.node address
    let s ← Lib.finish (Lib.loop (freeChildrenPass (fat32VfsFreeTree depth)) env.fuel (node.firstChild, s))
    let node ← s.node address
    freeNode mem s address node

def fat32VfsUnmount (s : Vfs M) (path : List UInt8) : FsM (Int × Vfs M) := do
  let ((rc, root), s) ← vfsUnmountDetach mem s path
  match root with
  | none => return (rc, s)
  | some root =>
    let s ← fat32VfsFreeTree mem env env.fuel s root
    return (0, s)

/-- The walk to a child by its index. -/
def nthChildPass (s : Vfs M) : Nat × Option Nat → (Nat × Option Nat) ⊕ FsM (Option VfsNode)
  | (_, none) => .inr (.ok none)
  | (index, some child) =>
    match s.nodes child with
    | none => .inr (.error (.fault .danglingNode))
    | some node => if index = 0 then .inr (.ok (some node)) else .inl (index - 1, node.nextSibling)

/-- `vfs_readdir` on an open file, given by its node. -/
def vfsReaddir (s : Vfs M) (file index : Nat) : FsM ((Int × Option (List UInt8 × Nat)) × Vfs M) := do
  let dir ← s.node file
  if dir.type &&& vfsNodeDir = 0 then return ((vfsErrNotdir, none), s)
  match dir.ops with
  | some .fat32Dir => fat32VfsReaddir mem env s file index
  | some .fat32File | none =>
    match ← Lib.finish (Lib.loop (nthChildPass s) env.fuel (index, dir.firstChild)) with
    | none => return ((0, none), s)
    | some child =>
      if vfsNameMax < child.name.length then return ((vfsErrNametoolong, none), s)
      return ((1, some (child.name, child.type)), s)

def vfsStatNode (s : Vfs M) (address : Nat) : FsM ((Int × Option (Nat × Nat)) × Vfs M) := do
  let node ← s.node address
  match node.ops with
  | some _ => fat32VfsStat mem env s address
  | none => return ((0, some (node.type, node.size)), s)

def vfsStat (s : Vfs M) (path : List UInt8) : FsM ((Int × Option (Nat × Nat)) × Vfs M) := do
  let ((rc, found), s) ← vfsResolvePath mem env s path
  match found with
  | none => return ((rc, none), s)
  | some address => vfsStatNode mem env s address

/-- The result of `vfs_open` and the file it stored in `*out_file`. The `open` of FAT32
nodes does nothing. -/
def vfsOpen (s : Vfs M) (path : List UInt8) (flags : Nat) : FsM ((Int × Option Nat) × Vfs M) := do
  let ((rc, found), s) ← vfsResolvePath mem env s path
  match found with
  | none => return ((rc, none), s)
  | some address =>
    match s.kmalloc mem (.file s.opened) with
    | (false, s) => return ((vfsErrNomem, none), s)
    | (true, s) =>
      let _ ← s.node address
      return ((0, some s.opened),
        { s with files := Function.update s.files s.opened (some ⟨address, 0, flags⟩), opened := s.opened + 1 })

/-- A file that the caller has opened and not closed. -/
def Vfs.file (s : Vfs M) (file : Nat) : FsM VfsFile :=
  match s.files file with
  | none => .error .misuse
  | some file => .ok file

/-- No node of FAT32 has a `close`; the node is looked at for one. -/
def vfsClose (s : Vfs M) (file : Nat) : FsM (Int × Vfs M) := do
  let open' ← s.file file
  let _ ← s.node open'.node
  let s ← s.kfree mem (.file file)
  return (0, { s with files := Function.update s.files file none })

def vfsRead (s : Vfs M) (file : Nat) (buf : Bytes) (len : Nat) : FsM ((Int × Bytes) × Vfs M) := do
  let open' ← s.file file
  let node ← s.node open'.node
  match node.ops with
  | some .fat32File =>
    let ((ret, buf), s) ← fat32VfsRead mem env s open' buf len
    let pos := if 0 < ret then (open'.pos + ret.toNat) % 2 ^ 64 else open'.pos
    return ((ret, buf), { s with files := Function.update s.files file (some { open' with pos := pos }) })
  | some .fat32Dir | none => return ((vfsErrNotsup, buf), s)

def vfsFstat (s : Vfs M) (file : Nat) : FsM ((Int × Option (Nat × Nat)) × Vfs M) := do
  let open' ← s.file file
  vfsStatNode mem env s open'.node

end Paths

end Velox
