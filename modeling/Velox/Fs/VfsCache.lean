import Velox.Fs.VfsSafety
import Velox.Fs.Fat32Walk

namespace Velox

open Lib (Bytes components)

variable {path : List UInt8} {disk : Disk}

variable {M : Type}

/-- A node shows an entry: the root of the volume, or the entry of its name in the
directory above. -/
structure Mirror (disk : Disk) (vol : Fat32Vol) (s : Vfs M) (node : VfsNode) (inode : Fat32Inode) (ent : Fat32Dirent) :
    Prop where
  data : node.data = some inode
  onVol : inode.vol = vol
  cluster : inode.firstCluster = ent.firstCluster
  inodeSize : inode.size = ent.fileSize
  attributes : inode.attributes = ent.attributes
  type : node.type = entryType ent
  size : node.size = ent.fileSize
  ops : node.ops = some (entryOps ent)
  listing : ∀ es, inode.dirCache = some es → ∃ n, Lists disk vol n ent.firstCluster .initial es
  dirAt : ent.attributes &&& fatAttrDirectory ≠ 0 → DirAt disk vol ent.firstCluster
  top : node.parent = none → ent = fat32MakeRootDirent vol
  found : ∀ up, node.parent = some up → ∃ dir above, s.nodes up = some dir ∧ dir.data = some above ∧
    dir.type &&& vfsNodeDir ≠ 0 ∧ Finds disk vol above.firstCluster node.name ent

def Mirrors (disk : Disk) (vol : Fat32Vol) (s : Vfs M) : Prop :=
  ∀ a node, s.nodes a = some node → ∃ inode ent, Mirror disk vol s node inode ent

section Entries

variable {ent : Fat32Dirent}

theorem entryType_dir : entryType ent &&& vfsNodeDir ≠ 0 ↔ ent.attributes &&& fatAttrDirectory ≠ 0 := by
  unfold entryType
  by_cases dir : ent.attributes &&& fatAttrDirectory ≠ 0
  · rw [if_pos dir]
    exact ⟨fun _ => dir, fun _ => by decide⟩
  · rw [if_neg dir]
    exact ⟨fun no => absurd rfl no, fun no => absurd no dir⟩

theorem entryOps_iff : entryOps ent = .fat32Dir ↔ ent.attributes &&& fatAttrDirectory ≠ 0 := by
  rw [← entryType_dir, entryOps]
  simp

end Entries

section Mirrors

variable {env : FsEnv} {vol : Fat32Vol} {s t : Vfs M} {children : Nat → List Nat} {touched : Nat}
variable {blocks blocks' : Multiset Block} {node : VfsNode} {inode : Fat32Inode} {ent : Fat32Dirent}

/-- The nodes stay where they are on the disk. -/
def Stays (s t : Vfs M) : Prop :=
  ∀ a dir above, s.nodes a = some dir → dir.data = some above → ∃ dir' above', t.nodes a = some dir' ∧
    dir'.data = some above' ∧ dir'.type = dir.type ∧ above'.firstCluster = above.firstCluster

theorem Mirror.moved (mirror : Mirror env.disk vol s node inode ent) (stays : Stays s t) :
    Mirror env.disk vol t node inode ent :=
  { mirror with
    found := fun up above => by
      obtain ⟨dir, above, there, data, isDir, finds⟩ := mirror.found up above
      obtain ⟨dir', above', there', data', type, cluster⟩ := stays _ _ _ there data
      grind }

/-- An update of a node that keeps what the nodes below look at. -/
theorem stays_of_update (here : s.nodes touched = some node) (data : node.data = some inode)
    (edit : t.nodes = Function.update s.nodes touched (some node'))
    (data' : node'.data = some inode') (type : node'.type = node.type)
    (cluster : inode'.firstCluster = inode.firstCluster) : Stays s t := by
  intro a dir above there stored
  rw [edit]
  grind

section

variable (mirror : Mirror env.disk vol s node inode ent) (settled : VolumeSettled env.disk vol)
  (isDir : node.type &&& vfsNodeDir ≠ 0)
include mirror settled isDir

/-- The entry that a lookup makes a node for is the one on the disk. -/
theorem Mirror.finds {name : List UInt8} {next : Fat32Dirent}
    (entry : EntryOf env inode name next) :
    Finds env.disk vol inode.firstCluster name next := by
  have dirAt := mirror.dirAt (entryType_dir.mp (mirror.type ▸ isDir))
  rw [mirror.cluster]
  unfold EntryOf at entry
  split at entry
  · rename_i entries listed
    obtain ⟨n, lists⟩ := mirror.listing _ listed
    have proper : 2 ≤ ent.firstCluster := by
      by_contra low
      rw [lists.eq_nil fun inside => low inside.1] at entry
      cases entry
    obtain ⟨At, fixed, here⟩ := settled _ dirAt
    refine ⟨n + 1, ?_⟩
    rw [(lists.answers fixed here proper (Nat.lt_succ_self n) fun _ => 0).2.1 name, entry]
  · obtain ⟨buf, rc, looked, positive⟩ := entry
    obtain rfl := fat32Lookup_zero looked (Int.not_lt.mpr positive)
    grind [onVol, cluster, VolumeSettled.finds]

/-- A listing that is kept is what the directory lists. -/
theorem Mirror.lists (listing : ListingOf env inode es) :
    ∃ n, Lists env.disk vol n ent.firstCluster .initial es := by
  obtain ⟨At, fixed, here⟩ := settled _ (mirror.dirAt (entryType_dir.mp (mirror.type ▸ isDir)))
  obtain ⟨buf, cap, done, room⟩ := listing
  rw [mirror.onVol, mirror.cluster] at done
  obtain ⟨n, listed, -, lists, same⟩ := readDir_lists fixed here (Nat.zero_le _) (Lib.finish_ok done) room
  grind

end

/-- An entry that a lookup found has the name it was looked up by. -/
theorem EntryOf.folded {name : List UInt8} (entry : EntryOf env inode name ent) : foldName name = foldName ent.name := by
  unfold EntryOf at entry
  split at entry
  · have hit := List.find?_some entry
    exact ((fat32NameEqualCi_iff _ _).mp hit).symm
  · obtain ⟨buf, rc, looked, -⟩ := entry
    exact (fat32Lookup_found looked).1.symm

/-- The other nodes show what they showed when one was changed and stays where it is. -/
theorem Mirrors.update (mirrors : Mirrors env.disk vol s) (stays : Stays s t) {a : Nat}
    {now : VfsNode} (edit : t.nodes = Function.update s.nodes a (some now)) {inode : Fat32Inode}
    (shown : Mirror env.disk vol t now inode ent) : Mirrors env.disk vol t := by
  intro other node there
  rw [edit] at there
  by_cases same : other = a
  · grind
  · rw [Function.update_of_ne same] at there
    obtain ⟨inode, ent, mirror⟩ := mirrors _ _ there
    exact ⟨inode, ent, mirror.moved stays⟩

theorem Mirrors.effect (mirrors : Mirrors env.disk vol s) (settled : VolumeSettled env.disk vol) (forest : Forest s children)
    (effect : Effect env s blocks touched t blocks') : Mirrors env.disk vol t := by
  cases effect with
  | same kept grows =>
    intro a node here
    rw [kept.nodes] at here
    obtain ⟨inode, ent, mirror⟩ := mirrors _ _ here
    exact ⟨inode, ent, mirror.moved fun a _ _ there data => ⟨_, _, by rw [kept.nodes, there], data, rfl, rfl⟩⟩
  | @grown dirNode name' t child =>
    obtain ⟨inode, next, data, entry, -, edit⟩ := child.entry
    obtain ⟨inode', ent, mirror⟩ := mirrors _ _ child.here
    cases mirror.data.symm.trans data
    have finds := mirror.finds settled child.isDir entry
    have dirAt := mirror.dirAt (entryType_dir.mp (mirror.type ▸ child.isDir))
    have stays : Stays s t := by
      intro a dir above there stored
      rw [edit.nodes]
      by_cases same : a = touched
      · subst same
        cases child.here.symm.trans there
        grind
      · refine ⟨dir, above, ?_, stored, rfl, rfl⟩
        rw [Function.update_of_ne same, Function.update_of_ne (Nat.ne_of_lt (forest.bounded there)), there]
    intro a node there
    rw [edit.nodes] at there
    by_cases same : a = touched
    · subst same
      rw [Function.update_self] at there
      cases there
      have moved := mirror.moved stays
      exact ⟨inode, ent, { moved with }⟩
    rw [Function.update_of_ne same] at there
    by_cases new : a = s.fresh
    · subst new
      rw [Function.update_self] at there
      cases there
      have folded : foldName name' = foldName (cString next.name) := by
        rw [foldName_cString, entry.folded]
      refine ⟨_, next, rfl, mirror.onVol, rfl, rfl, rfl, rfl, rfl, rfl, nofun,
        fun isDir => .sub (mirror.cluster ▸ dirAt) finds isDir, nofun, ?_⟩
      rintro up ⟨⟩
      exact ⟨{ dirNode with firstChild := some s.fresh }, inode, by rw [edit.nodes, Function.update_self], data, child.isDir,
        finds.congr folded⟩
    · rw [Function.update_of_ne new] at there
      obtain ⟨inode, ent, mirror⟩ := mirrors _ _ there
      exact ⟨inode, ent, mirror.moved stays⟩
  | listed here isDir data unlisted listing edit =>
    have stays := stays_of_update here data edit.nodes rfl rfl rfl
    obtain ⟨inode', ent, mirror⟩ := mirrors _ _ here
    cases mirror.data.symm.trans data
    have moved := mirror.moved stays
    refine mirrors.update stays edit.nodes { moved with data := rfl, listing := ?_ }
    grind [Mirror.lists]
  | restated here data up above data' entry edit =>
    have stays := stays_of_update here data edit.nodes rfl rfl rfl
    obtain ⟨inode', ent, mirror⟩ := mirrors _ _ here
    cases mirror.data.symm.trans data
    -- The lookup finds the entry that the node shows already.
    obtain ⟨dir, dirInode, there, stored, isDir, finds⟩ := mirror.found _ up
    cases above.symm.trans there
    cases data'.symm.trans stored
    obtain ⟨dirInode', dirEnt, dirMirror⟩ := mirrors _ _ above
    cases dirMirror.data.symm.trans data'
    obtain ⟨buf, looked⟩ := entry
    have dirAt := dirMirror.dirAt (entryType_dir.mp (dirMirror.type ▸ isDir))
    rw [dirMirror.onVol, dirMirror.cluster] at looked
    rw [dirMirror.cluster] at finds
    have equal := finds.unique (settled.finds dirAt looked)
    have moved := mirror.moved stays
    exact mirrors.update stays edit.nodes
      { moved with data := rfl, inodeSize := by rw [equal], attributes := by rw [equal], size := by rw [equal] }

end Mirrors

section Resolve

variable {env : FsEnv} {vol : Fat32Vol} {s t : Vfs Unit} {children : Nat → List Nat} {blocks blocks' : Multiset Block}

theorem Mirrors.effects (mirrors : Mirrors env.disk vol s) (settled : VolumeSettled env.disk vol)
    (planted : Planted s children loose) (effects : Effects env s blocks t blocks') :
    Mirrors env.disk vol t := by
  induction effects with
  | done => exact mirrors
  | more before _ last ih =>
    obtain ⟨⟨children', planted'⟩, -⟩ := planted.effects before
    exact ih.effect settled planted'.toForest last

/-- A child with a name shows the entry of the name in the directory. -/
theorem Mirrors.child (mirrors : Mirrors env.disk vol s) {child : Nat} {node : VfsNode}
    {inode : Fat32Inode} (here : s.nodes dir = some node) (data : node.data = some inode)
    (there : s.nodes child = some below) (up : below.parent = some dir) {name : List UInt8}
    (named : foldName below.name = foldName name) :
    node.type &&& vfsNodeDir ≠ 0 ∧
      ∃ inode' next, Finds env.disk vol inode.firstCluster name next ∧ Mirror env.disk vol s below inode' next := by
  obtain ⟨inode', next, mirror⟩ := mirrors _ _ there
  obtain ⟨node', above, here', data', isDir, finds⟩ := mirror.found dir up
  grind [Finds.congr]

section

variable (settled : VolumeSettled env.disk vol)
include settled

/-- What a lookup returns shows the entry of the name. -/
theorem vfsLookupChild_mirror (mirrors : Mirrors env.disk vol s)
    (planted : Planted s children none) {child : Nat} {node : VfsNode} {inode : Fat32Inode}
    (here : s.nodes dir = some node) (linked : Linked s dir)
    (mirror : Mirror env.disk vol s node inode ent) {name : List UInt8}
    (done : vfsLookupChild ample env s dir name = .ok (some child, t)) :
    Mirrors env.disk vol t ∧ (∃ children', Planted t children' none) ∧ Linked t child ∧
      ent.attributes &&& fatAttrDirectory ≠ 0 ∧ ∃ below inode' next, t.nodes child = some below ∧
        Finds env.disk vol ent.firstCluster name next ∧ Mirror env.disk vol t below inode' next := by
  have owns : Uncounted s.memory 0 := trivial
  obtain ⟨blocks', reshaped, linked'⟩ := (vfsLookupChild_reshaped accounting_ample owns planted linked name).ok done
  have mirrors' := mirrors.effects settled planted reshaped.effects
  refine ⟨mirrors', reshaped.planted, linked' child rfl, ?_⟩
  -- A child that was there already.
  have known : ∀ {below : VfsNode}, t = s → s.nodes child = some below → below.parent = some dir →
      foldName below.name = foldName name → ent.attributes &&& fatAttrDirectory ≠ 0 ∧
        ∃ below inode' next, t.nodes child = some below ∧ Finds env.disk vol ent.firstCluster name next ∧
          Mirror env.disk vol t below inode' next := by
    rintro below rfl there up named
    obtain ⟨isDir, inode', next, finds, shows'⟩ := mirrors.child here mirror.data there up named
    rw [mirror.type, entryType_dir] at isDir
    grind [Mirror.cluster]
  unfold vfsLookupChild at done
  rw [Vfs.node_eq here] at done
  dsimp only [bind, Except.bind] at done
  rw [mirror.ops] at done
  cases kind : entryOps ent with
  | fat32Dir =>
    rw [kind] at done
    have isDir : node.type &&& vfsNodeDir ≠ 0 := by
      rw [mirror.type, entryType_dir]
      exact entryOps_iff.mp kind
    rcases (fat32VfsLookup_effect accounting_ample owns planted.toForest here isDir name).ok done with ⟨rfl, found, same, hit⟩ | ⟨no, -⟩ | ⟨same, grown, -⟩
    · obtain ⟨-, below, there, up⟩ := planted.child here (List.mem_of_find?_eq_some hit)
      have named := List.find?_some hit
      rw [Vfs.wants, there, Option.any_some, fat32NameEqualCi_iff] at named
      grind
    · cases no
    · cases same
      obtain ⟨inode', next, data, entry, -, edit⟩ := grown.entry
      have other : s.fresh ≠ dir := Nat.ne_of_gt (planted.bounded here)
      have there : t.nodes s.fresh = some { entryNode inode'.vol next with parent := some dir, nextSibling := node.firstChild } := by
        rw [edit.nodes, Function.update_of_ne other, Function.update_self]
      have dirThere : t.nodes dir = some { node with firstChild := some s.fresh } := by rw [edit.nodes, Function.update_self]
      have named : foldName (cString next.name) = foldName name := by rw [foldName_cString, entry.folded]
      obtain ⟨-, inode'', next', finds, shows'⟩ := mirrors'.child dirThere mirror.data there rfl named
      rw [mirror.cluster] at finds
      exact ⟨entryOps_iff.mp kind, _, inode'', next', there, finds, shows'⟩
  | fat32File =>
    rw [kind] at done
    obtain ⟨found, searched, onward⟩ := Lib.bind_ok done
    cases onward
    have hit := (planted.findChild_sound here _ _).ok searched
    obtain ⟨-, below, there, up⟩ := planted.child here (List.mem_of_find?_eq_some hit.symm)
    obtain ⟨isDir, -⟩ := mirrors.child here mirror.data there up rfl
    rw [mirror.type, entryType_dir, ← entryOps_iff, kind] at isDir
    cases isDir

/-- A path that resolves leads to a node that shows the entry at the end of the walk. -/
theorem resolve_sound {names : List (List UInt8)} (mirrors : Mirrors env.disk vol s)
    (planted : Planted s children none) {a b : Nat} {node : VfsNode} {inode : Fat32Inode}
    {ent : Fat32Dirent} (here : s.nodes a = some node) (linked : Linked s a)
    (mirror : Mirror env.disk vol s node inode ent)
    (done : resolveComponents ample env s a names = .ok ((0, some b), t)) :
    ∃ below inode' last, t.nodes b = some below ∧ Walk env.disk vol ent names last ∧ Mirror env.disk vol t below inode' last := by
  induction names generalizing s children a node inode ent with
  | nil =>
    cases done
    exact ⟨node, inode, ent, here, .here, mirror⟩
  | cons name rest ih =>
    rw [resolveComponents] at done
    split at done
    · cases done
    obtain ⟨⟨_ | child, s₁⟩, looked, onward⟩ := Lib.bind_ok done
    · cases onward
    · obtain ⟨found, read, onward⟩ := Lib.bind_ok onward
      split at onward
      · cases onward
      obtain ⟨mirrors₁, ⟨children₁, planted₁⟩, linked₁, isDir, below, inode', next, there, finds, mirror₁⟩ :=
        vfsLookupChild_mirror settled mirrors planted here linked mirror looked
      obtain ⟨below', inode'', last, there', walk, mirror'⟩ := ih mirrors₁ planted₁ there linked₁ mirror₁ onward
      exact ⟨below', inode'', last, there', .down isDir finds walk, mirror'⟩

omit settled in
theorem fat32VfsMakeNode_ample {ent : Fat32Dirent} (short : ¬ vfsNameMax < (cString ent.name).length) :
    ∃ t, fat32VfsMakeNode ample s vol ent = .ok (some s.fresh, t) := by
  simp only [fat32VfsMakeNode, vfsNodeCreate, Vfs.kmalloc, ample, if_neg short, bind, Except.bind, Vfs.node, Vfs.setNode,
    Function.update_self]
  exact ⟨_, rfl⟩

/-- The entry of a name, whether a listing is kept or not. -/
theorem fat32VfsFindEntry_ample {node : VfsNode} {inode : Fat32Inode} {next : Fat32Dirent}
    (mirror : Mirror env.disk vol s node inode ent)
    (isDir : ent.attributes &&& fatAttrDirectory ≠ 0) {name : List UInt8}
    (looks : ∀ buf, fat32Lookup env.disk vol env.fuel (some buf) ent.firstCluster name = .ok (0, some next)) :
    ∃ t, fat32VfsFindEntry ample env s inode name = .ok (some next, t) ∧ SameTree s t := by
  have finds : Finds env.disk vol ent.firstCluster name next := ⟨_, looks fun _ => 0⟩
  unfold fat32VfsFindEntry
  cases listing : inode.dirCache with
  | some es =>
    obtain ⟨n, lists⟩ := mirror.listing es listing
    obtain ⟨At, fixed, here⟩ := settled _ (mirror.dirAt isDir)
    have answer := (lists.answers fixed here finds.proper (Nat.lt_succ_self n) fun _ => 0).2.1 name
    refine ⟨s, ?_, .refl s⟩
    grind [fat32Lookup_mono]
  | none =>
    have taken : decide (2 ≤ ent.firstCluster) = true := decide_eq_true finds.proper
    simp only [inodeLookup, withClusterBuf, taken, if_true, Vfs.kmalloc, Vfs.kfree, ample, mirror.onVol, mirror.cluster, looks,
      bind, Except.bind]
    exact ⟨_, rfl, ⟨rfl, rfl, rfl, rfl, rfl⟩⟩

theorem vfsLookupChild_complete (planted : Planted s children none) {dir : Nat} {node : VfsNode}
    {inode : Fat32Inode} {ent next : Fat32Dirent} (here : s.nodes dir = some node)
    (mirror : Mirror env.disk vol s node inode ent)
    (isDir : ent.attributes &&& fatAttrDirectory ≠ 0) {name : List UInt8}
    (looks : ∀ buf, fat32Lookup env.disk vol env.fuel (some buf) ent.firstCluster name = .ok (0, some next))
    (enough : s.fresh < env.fuel) :
    ∃ child t, vfsLookupChild ample env s dir name = .ok (some child, t) ∧ t.fresh ≤ s.fresh + 1 := by
  unfold vfsLookupChild fat32VfsLookup fat32FindChildCi
  rw [Vfs.node_eq here]
  dsimp only [bind, Except.bind]
  rw [mirror.ops, entryOps_iff.mpr isDir]
  rw [planted.findChild_eq here enough]
  cases hit : (children dir).find? (s.wants fun child => fat32NameEqualCi child.name name) with
  | some child => exact ⟨child, s, rfl, Nat.le_succ _⟩
  | none =>
    rw [mirror.data]
    obtain ⟨s₁, found, same⟩ := fat32VfsFindEntry_ample settled mirror isDir looks
    dsimp only
    rw [found]
    dsimp only
    have short : ¬ vfsNameMax < (cString next.name).length := by
      have fits := (fat32Lookup_found (looks fun _ => 0)).2
      have prefix' := (List.takeWhile_prefix (· ≠ (0 : UInt8)) (l := next.name)).length_le
      exact Nat.not_lt.mpr (le_trans prefix' fits)
    have owns : Uncounted s₁.memory 0 := trivial
    have vacant : s₁.nodes s₁.fresh = none := by
      rw [same.nodes, same.fresh]
      exact planted.vacant _ (le_refl _)
    obtain ⟨made, s₂, makes, effect⟩ := fat32VfsMakeNode_effect accounting_ample owns inode.vol next vacant
    obtain ⟨s₂', makes'⟩ := @fat32VfsMakeNode_ample inode.vol s₁ next short
    cases makes.symm.trans makes'
    obtain ⟨-, -, made, -⟩ := effect
    rw [makes]
    dsimp only
    have other : dir ≠ s₁.fresh := by
      rw [same.fresh]
      exact Nat.ne_of_lt (planted.bounded here)
    have dirHere : s₂.nodes dir = some node := by rw [made.nodes, Function.update_of_ne other, same.nodes, here]
    have childHere : s₂.nodes s₁.fresh = some (entryNode inode.vol next) := by rw [made.nodes, Function.update_self]
    rw [vfsAddChild_eq dirHere (mirror.type ▸ entryType_dir.mpr isDir) childHere]
    refine ⟨_, _, rfl, ?_⟩
    show s₂.fresh ≤ _
    rw [made.fresh, same.fresh]

end

/-- A walk on the disk is made by the resolver, with room for as many lookups as they take
and for the nodes that there are. -/
theorem resolve_complete (settled : VolumeSettled disk vol) {last : Fat32Dirent}
    (walk : Walk disk vol ent names last) (whole : ∀ name ∈ names, cString name = name)
    (dirAt : ent.attributes &&& fatAttrDirectory ≠ 0 → DirAt disk vol ent.firstCluster) :
    ∃ n, ∀ fuel ≥ n, ∀ buffers {s : Vfs Unit} {children a node inode}, Mirrors disk vol s → Planted s children none →
      s.nodes a = some node → Linked s a → Mirror disk vol s node inode ent → s.fresh + names.length ≤ fuel →
      ∃ b t, resolveComponents ample ⟨disk, fuel, buffers⟩ s a names = .ok ((0, some b), t) := by
  induction walk with
  | here => exact ⟨0, fun _ _ _ s _ a _ _ _ _ _ _ _ _ => ⟨a, s, rfl⟩⟩
  | @down ent next last name rest isDir finds onward ih =>
    have below := dirAt isDir
    obtain ⟨m, looks⟩ := settled.lookup below finds
    obtain ⟨n, resolves⟩ := ih (fun name member => whole name (List.mem_cons_of_mem _ member)) (.sub below finds)
    have short : ¬ vfsNameMax < name.length := by
      obtain ⟨folded, fits⟩ := fat32Lookup_found (looks m (le_refl m) fun _ => 0)
      have length := cString_length_of_fold folded
      have prefix' : (cString next.name).length ≤ next.name.length := (List.takeWhile_prefix _).length_le
      grind
    refine ⟨max m n, fun fuel enough buffers s children a node inode mirrors planted here linked mirror room => ?_⟩
    rw [List.length_cons] at room
    obtain ⟨child, s₁, looked, fresh⟩ := @vfsLookupChild_complete ⟨disk, fuel, buffers⟩ _ _ _ settled planted _ _ _ _ _ here mirror
      isDir _ (looks fuel (le_trans (Nat.le_max_left m n) enough)) (show s.fresh < fuel by omega)
    obtain ⟨mirrors₁, ⟨children₁, planted₁⟩, linked₁, -, node₁, inode₁, next', there, finds', mirror₁⟩ :=
      vfsLookupChild_mirror settled mirrors planted here linked mirror looked
    cases finds.unique finds'
    rw [resolveComponents, if_neg short, looked]
    dsimp only [bind, Except.bind]
    rw [Vfs.node_eq there]
    dsimp only
    have passes : ¬ (rest ≠ [] ∧ node₁.type &&& vfsNodeDir = 0) := by
      rintro ⟨more, file⟩
      cases onward with
      | here => exact more rfl
      | down isDir' _ _ => exact entryType_dir.mpr isDir' (mirror₁.type ▸ file)
    rw [if_neg passes]
    exact resolves fuel (le_trans (Nat.le_max_right m n) enough) buffers mirrors₁ planted₁ there linked₁ mirror₁ (by omega)

end Resolve

section Runs

variable {env : FsEnv} {vol : Fat32Vol} {s t u : Vfs Unit}

theorem Mirrors.congr (mirrors : Mirrors env.disk vol s) (nodes : t.nodes = s.nodes) : Mirrors env.disk vol t := by
  intro a node here
  rw [nodes] at here
  obtain ⟨inode, ent, mirror⟩ := mirrors a node here
  exact ⟨inode, ent, mirror.moved fun a _ _ there data => ⟨_, _, by rw [nodes, there], data, rfl, rfl⟩⟩

/-- The trees have changed by lookups and listings only. -/
def Follows (env : FsEnv) (s t : Vfs Unit) : Prop :=
  ∃ u blocks blocks', Effects env s blocks u blocks' ∧ t.nodes = u.nodes ∧ t.mounts = u.mounts

theorem Reshaped.follows {blocks : Multiset Block}
    (reshaped : Reshaped Owns env loose s blocks u blocks') (nodes : t.nodes = u.nodes)
    (mounts : t.mounts = u.mounts) : Follows env s t :=
  ⟨u, blocks, blocks', reshaped.effects, nodes, mounts⟩

theorem SameTree.follows (same : SameTree s u) (nodes : t.nodes = u.nodes) (mounts : t.mounts = u.mounts) : Follows env s t :=
  ⟨s, 0, 0, .done, nodes.trans same.nodes, mounts.trans same.mounts⟩

/-- A call that mounts and unmounts nothing. -/
def Asks : VfsCall → Prop
  | .mount .. | .unmount .. => False
  | _ => True

instance : DecidablePred Asks
  | .mount .. | .unmount .. => isFalse not_false
  | .resolve .. | .stat .. | .openFile .. | .closeFile .. | .readFile .. | .statFile .. | .readdir .. => isTrue trivial

theorem vfsCall_follows (booked : Booked Uncounted base none s) {call : VfsCall}
    (asks : Asks call) : Sound (vfsCall ample env s call) fun (_, t) => Follows env s t := by
  obtain ⟨blocks, owns, ledger⟩ := booked
  obtain ⟨children, planted⟩ := ledger.planted
  cases call with
  | mount vol path => exact asks.elim
  | unmount path => exact asks.elim
  | resolve path =>
    exact (vfsResolvePath_reshaped accounting_ample owns planted path).mono fun _ ⟨_, reshaped, _⟩ => reshaped.follows rfl rfl
  | stat path =>
    exact .bind (vfsStat_reshaped accounting_ample owns planted path) fun _ ⟨_, reshaped⟩ => reshaped.follows rfl rfl
  | openFile path flags =>
    refine .bind (vfsResolvePath_reshaped accounting_ample owns planted path) ?_
    rintro ⟨⟨rc, found⟩, s₁⟩ ⟨blocks₁, reshaped, linked⟩
    cases found with
    | none => exact reshaped.follows rfl rfl
    | some address =>
      obtain ⟨node, here, -⟩ := linked address rfl
      have there : ({ s₁ with memory := () } : Vfs Unit).nodes address = some node := here
      exact .bind (Vfs.node_sound there) fun _ _ => reshaped.follows rfl rfl
  | closeFile file =>
    refine .bind (.bind (Vfs.file_sound s file) fun held there => ?_) fun _ kept => kept
    obtain ⟨-, node, here, -⟩ := ledger.files there
    exact .bind (Vfs.node_sound here) fun _ _ => (SameTree.refl s).follows rfl rfl
  | readFile file buf len =>
    refine .bind (.bind (Vfs.file_sound s file) fun held there => ?_) fun _ kept => kept
    obtain ⟨-, node, here, -⟩ := ledger.files there
    refine .bind (Vfs.node_sound here) ?_
    rintro _ rfl
    split
    · exact .bind (fat32VfsRead_effect accounting_ample owns here buf len) fun _ ⟨same, _⟩ => same.follows rfl rfl
    · exact (SameTree.refl s).follows rfl rfl
    · exact (SameTree.refl s).follows rfl rfl
  | statFile file =>
    refine .bind (.bind (Vfs.file_sound s file) fun held there => ?_) fun _ kept => kept
    exact (vfsStatNode_reshaped accounting_ample owns planted (ledger.files there).2).mono
      fun _ ⟨_, reshaped⟩ => reshaped.follows rfl rfl
  | readdir file index =>
    refine .bind (Vfs.file_sound s file) fun held there => ?_
    exact .bind (vfsReaddir_reshaped accounting_ample owns planted (ledger.files there).2 index)
      fun _ ⟨_, reshaped⟩ => reshaped.follows rfl rfl

/-- The volume is mounted at `/`, and what is kept of it shows the disk. -/
structure Cached (disk : Disk) (vol : Fat32Vol) (s : Vfs Unit) : Prop where
  booked : Booked Uncounted 0 none s
  mirrors : Mirrors disk vol s
  mounted : ∃ root, s.mounts = [⟨[0x2F], 1, root⟩]

theorem Cached.call (cached : Cached env.disk vol s) (settled : VolumeSettled env.disk vol)
    {call : VfsCall} (asks : Asks call) (done : vfsCall ample env s call = .ok (answer, t)) :
    Cached env.disk vol t := by
  have idle : UnmountIdle s call := by
    cases call <;> trivial
  obtain ⟨u, blocks, blocks', effects, nodes, mounts⟩ := (vfsCall_follows cached.booked asks).ok done
  obtain ⟨_, _, ledger⟩ := cached.booked
  obtain ⟨children, planted⟩ := ledger.planted
  refine ⟨(vfsCall_booked accounting_ample cached.booked idle).ok done, ?_, ?_⟩
  · exact (cached.mirrors.effects settled planted effects).congr nodes
  · rw [mounts, (planted.effects effects).2.mounts]
    exact cached.mounted

/-- The mount of the volume on an empty tree. -/
theorem cached_of_mount (done : fat32VfsMount ample env (vfsInit ()) vol [0x2F] = .ok (0, s)) : Cached env.disk vol s := by
  have empty : Booked Uncounted 0 none (vfsInit ()) := @booked_of_run _ ample Uncounted env _ 0 accounting_ample () trivial [] .done
  have booked := ((fat32VfsMount_booked accounting_ample empty vol [0x2F]).ok done).1
  have made : s.nodes = Function.update (fun _ => none) 0 (some (rootNode vol)) ∧ s.mounts = [⟨[0x2F], 1, 0⟩] := by
    have computed : fat32VfsMount ample env (vfsInit ()) vol [0x2F] = .ok (0, _) := rfl
    cases computed.symm.trans done
    exact ⟨Function.update_idem .., rfl⟩
  refine ⟨booked, fun a node here => ?_, 0, made.2⟩
  rw [made.1] at here
  by_cases root : a = 0
  · rw [root, Function.update_self] at here
    cases here
    have isDir : (fat32MakeRootDirent vol).attributes &&& fatAttrDirectory ≠ 0 :=
      show fatAttrDirectory &&& fatAttrDirectory ≠ 0 by decide
    exact ⟨_, fat32MakeRootDirent vol, rfl, rfl, rfl, rfl, rfl, (if_pos isDir).symm, rfl,
      congrArg some (entryOps_iff.mpr isDir).symm, nofun, fun _ => .root, fun _ => rfl, nofun⟩
  grind

theorem components_whole {name : List UInt8} (member : name ∈ components 0x2F (cString path)) :
    cString name = name := by
  refine List.takeWhile_eq_self_iff.mpr fun byte inside => ?_
  have passed := List.mem_takeWhile_imp (Lib.components_subset member inside)
  exact passed

/-- The components of a path below `/`. -/
theorem components_below_slash (absolute : path.headD 0 = 0x2F) :
    components 0x2F ((trimmedPath path).drop 1) = components 0x2F (cString path) := by
  grind [trimmedPath_absolute, components_trimmedPath, Lib.components_cons_sep]

theorem vfsFindMountForPath_slash (absolute : path.headD 0 = 0x2F) (root : Nat) :
    vfsFindMountForPath [⟨[0x2F], 1, root⟩] path (vfsTrimPathLen path) = some ⟨[0x2F], 1, root⟩ := by
  have positive : 1 ≤ vfsTrimPathLen path := by
    rw [← trimmedPath_length absolute]
    exact List.length_pos_iff.mpr (trimmedPath_ne_nil path)
  simp only [vfsFindMountForPath, vfsPathIsPrefix, List.foldl_cons, List.foldl_nil, absolute, positive, decide_true, beq_self_eq_true,
    Bool.and_self, if_true, if_false, Nat.one_ne_zero, Option.map_none, Option.getD_none, Nat.zero_le]

/-- What the caller sees of a node is the entry. -/
def Shows (t : Vfs Unit) (a : Nat) (ent : Fat32Dirent) : Prop :=
  ∃ node inode, t.nodes a = some node ∧ node.data = some inode ∧ inode.firstCluster = ent.firstCluster ∧
    node.size = ent.fileSize ∧ inode.size = ent.fileSize ∧ inode.attributes = ent.attributes ∧ node.type = entryType ent

theorem Mirror.shows {node : VfsNode} {inode : Fat32Inode}
    (mirror : Mirror disk vol s node inode ent) {a : Nat} (here : s.nodes a = some node) :
    Shows s a ent :=
  ⟨node, inode, here, mirror.data, mirror.cluster, mirror.size, mirror.inodeSize, mirror.attributes, mirror.type⟩

theorem Cached.root (cached : Cached disk vol s) :
    ∃ children root node inode, Planted s children none ∧ s.mounts = [⟨[0x2F], 1, root⟩] ∧ s.nodes root = some node ∧ Linked s root ∧
      Mirror disk vol s node inode (fat32MakeRootDirent vol) := by
  obtain ⟨_, _, ledger⟩ := cached.booked
  obtain ⟨children, planted⟩ := ledger.planted
  obtain ⟨root, mounts⟩ := cached.mounted
  have member : (⟨[0x2F], 1, root⟩ : VfsMount) ∈ s.mounts := by
    grind
  obtain ⟨node, here, top⟩ := planted.mounted _ member
  obtain ⟨inode, ent, mirror⟩ := cached.mirrors _ _ here
  refine ⟨children, root, node, inode, planted, mounts, here, ⟨node, here, fun _ => ⟨_, member, rfl⟩⟩, ?_⟩
  exact mirror.top top ▸ mirror

/-- The cached file system over a volume is the volume, whatever was asked before: a path
resolves when `fat32_lookup_path` finds it, and to a node that shows its entry. -/
theorem vfs_cache_transparent {index : Int} (mount : fat32Mount env.disk index = some vol)
    (inSectors : ∀ cluster, DirAt env.disk vol cluster → ScanInSectors env.disk vol cluster)
    (start : fat32VfsMount ample env (vfsInit ()) vol [0x2F] = .ok (0, s))
    {trace : List (VfsCall × Int × Option Nat)}
    (run : Lib.Steps (Lib.guarded (fun _ call => Asks call) (vfsCall ample env)) s trace t)
    {path : List UInt8} (absolute : path.headD 0 = 0x2F) :
    (∀ fuel buffers a u, vfsResolvePath ample ⟨env.disk, fuel, buffers⟩ t path = .ok ((0, some a), u) →
      ∃ ent, Shows u a ent ∧
        ∃ n, ∀ fuel ≥ n, ∀ buffers, fat32LookupPath ⟨env.disk, fuel, buffers⟩ vol path = .ok (0, some ent)) ∧
    ∀ fuel buffers ent, fat32LookupPath ⟨env.disk, fuel, buffers⟩ vol path = .ok (0, some ent) →
      ∃ n, ∀ fuel ≥ n, ∀ buffers, ∃ a u,
        vfsResolvePath ample ⟨env.disk, fuel, buffers⟩ t path = .ok ((0, some a), u) ∧ Shows u a ent := by
  have settled : VolumeSettled env.disk vol := fun cluster dirAt => (inSectors cluster dirAt).fixed (fat32Mount_mounted mount)
  have cached : Cached env.disk vol t := by
    refine run.invariant (Cached env.disk vol) (fun {s call answer t} cached taken => ?_) (cached_of_mount start)
    obtain ⟨asks, done⟩ := Lib.guarded_ok taken
    exact cached.call settled asks done
  obtain ⟨children, root, node, inode, planted, mounts, here, linked, mirror⟩ := cached.root
  have covers : vfsFindMountForPath t.mounts path (vfsTrimPathLen path) = some ⟨[0x2F], 1, root⟩ := by
    grind [vfsFindMountForPath_slash]
  have sound : ∀ {fuel buffers a u}, vfsResolvePath ample ⟨env.disk, fuel, buffers⟩ t path = .ok ((0, some a), u) →
      ∃ last, Walk env.disk vol (fat32MakeRootDirent vol) (components 0x2F (cString path)) last ∧ Shows u a last := by
    intro fuel buffers a u resolved
    have walked := vfsResolvePath_found absolute covers resolved
    rw [components_below_slash absolute] at walked
    obtain ⟨below, inode', last, there, walk, mirror'⟩ :=
      @resolve_sound ⟨env.disk, fuel, buffers⟩ _ _ _ _ settled _ cached.mirrors planted _ _ _ _ _ here linked mirror walked
    grind [Mirror.shows]
  refine ⟨fun fuel buffers a u resolved => ?_, fun fuel buffers ent found => ?_⟩
  · obtain ⟨last, walk, shows'⟩ := sound resolved
    exact ⟨last, shows', fat32LookupPath_complete settled walk⟩
  · have walk := fat32LookupPath_sound settled found
    obtain ⟨n, resolves⟩ := resolve_complete settled walk (fun name member => components_whole member) fun _ => .root
    refine ⟨max n (path.length + 1 + t.fresh + (components 0x2F (cString path)).length), fun fuel enough buffers => ?_⟩
    obtain ⟨a, u, resolved⟩ := resolves fuel (by omega) buffers cached.mirrors planted here linked mirror (by omega)
    grind [vfsResolvePath_eq, components_below_slash, Walk.unique]

/-- After a `vfs_stat` of the file, its path still resolves to its entry. -/
theorem vfs_cache_transparent_sample : ∃ s t : Vfs Unit,
    fat32VfsMount ample oneFileEnv (vfsInit ()) (sampleVol 100 98) [0x2F] = .ok (0, s) ∧
    Lib.Steps (Lib.guarded (fun _ call => Asks call) (vfsCall ample oneFileEnv)) s [(.stat slashA, (0, none))] t ∧
    ∃ n, ∀ fuel ≥ n, ∀ buffers, ∃ a u, vfsResolvePath ample ⟨oneFileEnv.disk, fuel, buffers⟩ t slashA = .ok ((0, some a), u) ∧
      Shows u a ⟨[0x61], 0x20, 5, 200, ⟨0, 0⟩, ⟨0, 0⟩, ⟨0, 0⟩⟩ := by
  obtain ⟨s, start⟩ : ∃ s, fat32VfsMount ample oneFileEnv (vfsInit ()) (sampleVol 100 98) [0x2F] = .ok (0, s) := ⟨_, rfl⟩
  obtain ⟨t, run⟩ := Lib.Steps.exists_of_replay (show (Lib.replay
    (Lib.guarded (fun _ call => Asks call) (vfsCall ample oneFileEnv)) s [(.stat slashA, (0, none))]).isSome = true by
      cases start
      decide +kernel)
  have found : fat32LookupPath ⟨oneFileEnv.disk, 10, fun _ _ => 0⟩ (sampleVol 100 98) slashA =
      .ok (0, some ⟨[0x61], 0x20, 5, 200, ⟨0, 0⟩, ⟨0, 0⟩, ⟨0, 0⟩⟩) := by
    decide +kernel
  have mounted : fat32Mount oneFileEnv.disk 0 = some (sampleVol 100 98) := by decide +kernel
  have transparent := vfs_cache_transparent mounted (fun _ _ => .inl rfl) start run (show slashA.headD 0 = 0x2F from rfl)
  exact ⟨s, t, start, run, transparent.2 _ _ _ found⟩

/-- The path of a file that was left in the buffer of the lookup resolves, on a volume
where `fat32_lookup_path` finds nothing when its buffers held zeros. -/
theorem vfs_cache_sees_stale_bytes :
    let stale : Bytes := fun i => if i < 512 then 0 else (oneFile.lookup (i - 512)).getD 0
    fat32Mount (sampleDir 1024 [] 0xE5) 0 = some wideVol ∧
      (∃ s, Lib.Steps (vfsCall ample ⟨sampleDir 1024 [] 0xE5, 10, fun _ => stale⟩) (vfsInit ())
        [(.mount wideVol [0x2F], (0, none)), (.resolve slashA, (0, some 1))] s) ∧
      fat32LookupPath ⟨sampleDir 1024 [] 0xE5, 10, fun _ _ => 0⟩ wideVol slashA = .ok (fat32ErrNoent, none) := by
  refine ⟨by decide +kernel, Lib.Steps.exists_of_replay ?_, by decide +kernel⟩
  decide +kernel

end Runs

end Velox
