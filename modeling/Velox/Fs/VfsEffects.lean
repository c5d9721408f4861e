import Velox.Fs.VfsForest
import Velox.Fs.DirScan

namespace Velox

open Lib (Bytes)

/-- `Owns` says which blocks a memory has handed out: `kfree` takes one back. -/
structure Frees {M : Type} (mem : Allocator M) (Owns : M → Multiset Block → Prop) : Prop where
  freed : ∀ {m block blocks}, Owns m (block ::ₘ blocks) → ∃ m', mem.kfree m block = .ok m' ∧ Owns m' blocks

/-- And `kmalloc` adds one or has none left. -/
structure Accounting {M : Type} (mem : Allocator M) (Owns : M → Multiset Block → Prop) : Prop extends Frees mem Owns where
  granted : ∀ {m block m' blocks}, Owns m blocks → mem.kmalloc m block = (true, m') → Owns m' (block ::ₘ blocks)
  refused : ∀ {m block m' blocks}, Owns m blocks → mem.kmalloc m block = (false, m') → Owns m' blocks

/-- The blocks of memory that is always there are not counted. -/
def Uncounted (_ : Unit) (_ : Multiset Block) : Prop := True

theorem accounting_ample : Accounting ample Uncounted where
  granted := fun _ _ => trivial
  refused := fun _ _ => trivial
  freed := fun _ => ⟨(), rfl, trivial⟩

/-- The nodes have changed to these, and besides at most the memory. -/
structure Edited {M : Type} (s : Vfs M) (nodes : Nat → Option VfsNode) (fresh : Nat) (t : Vfs M) : Prop where
  nodes : t.nodes = nodes
  fresh : t.fresh = fresh
  mounts : t.mounts = s.mounts
  files : t.files = s.files
  opened : t.opened = s.opened

/-- Only the memory has changed. -/
abbrev SameTree {M : Type} (s t : Vfs M) : Prop := Edited s s.nodes s.fresh t

section Edited

variable {M : Type} {s t u : Vfs M} {nodes nodes' : Nat → Option VfsNode} {fresh fresh' : Nat}

theorem Edited.trans (first : Edited s nodes fresh t) (second : Edited t nodes' fresh' u) : Edited s nodes' fresh' u :=
  ⟨second.nodes, second.fresh, second.mounts.trans first.mounts, second.files.trans first.files,
    second.opened.trans first.opened⟩

theorem SameTree.refl (s : Vfs M) : SameTree s s := ⟨rfl, rfl, rfl, rfl, rfl⟩

theorem Edited.same (first : Edited s nodes fresh t) (second : SameTree t u) : Edited s nodes fresh u :=
  first.trans ⟨second.nodes.trans first.nodes, second.fresh.trans first.fresh, second.mounts, second.files, second.opened⟩

theorem SameTree.edited (first : SameTree s t) (second : Edited t nodes fresh u) : Edited s nodes fresh u :=
  Edited.trans first second

end Edited

section Effects

variable {M : Type} {mem : Allocator M} {Owns : M → Multiset Block → Prop} {env : FsEnv} {s t : Vfs M}
variable {blocks : Multiset Block}

theorem Accounting.kmalloc (accounts : Accounting mem Owns) (owns : Owns s.memory blocks) {block : Block} {granted : Bool}
    (done : s.kmalloc mem block = (granted, t)) :
    SameTree s t ∧ Owns t.memory (if granted then block ::ₘ blocks else blocks) := by
  obtain ⟨memory, answered, rfl⟩ := Vfs.kmalloc_cases done
  refine ⟨⟨rfl, rfl, rfl, rfl, rfl⟩, ?_⟩
  cases granted with
  | true => grind [granted]
  | false => exact accounts.refused owns answered

theorem Frees.kfree (frees : Frees mem Owns) {block : Block} (owns : Owns s.memory (block ::ₘ blocks)) :
    ∃ t, s.kfree mem block = .ok t ∧ SameTree s t ∧ Owns t.memory blocks := by
  obtain ⟨memory, freed, owns'⟩ := frees.freed owns
  exact ⟨{ s with memory := memory }, by rw [Vfs.kfree, freed], ⟨rfl, rfl, rfl, rfl, rfl⟩, owns'⟩

/-- The record that `vfs_node_create` fills in. -/
def createdNode (name : List UInt8) (type : Nat) (ops : Option NodeOps) : VfsNode where
  name := cString name
  type := type
  size := 0
  ops := ops
  data := none
  parent := none
  firstChild := none
  nextSibling := none

theorem vfsNodeCreate_effect (accounts : Accounting mem Owns) (owns : Owns s.memory blocks) (name : List UInt8) (type : Nat)
    (ops : Option NodeOps) :
    ∃ found t, vfsNodeCreate mem s name type ops = .ok (found, t) ∧ match found with
      | none => SameTree s t ∧ Owns t.memory blocks
      | some address => address = s.fresh ∧ ¬ vfsNameMax < (cString name).length ∧
          Edited s (Function.update s.nodes s.fresh (some (createdNode name type ops))) (s.fresh + 1) t ∧
          Owns t.memory (.name address ::ₘ .node address ::ₘ blocks) := by
  unfold vfsNodeCreate
  rcases first : s.kmalloc mem (.node s.fresh) with ⟨granted, s₁⟩
  obtain ⟨same, owns₁⟩ := accounts.kmalloc owns first
  cases granted with
  | false => grind
  | true =>
    dsimp only
    rw [same.fresh]
    by_cases long : vfsNameMax < (cString name).length
    · obtain ⟨s₂, freed, same', owns₂⟩ := accounts.kfree owns₁
      rw [if_pos long, freed]
      exact ⟨none, s₂, rfl, same.same same', owns₂⟩
    rw [if_neg long]
    rcases second : s₁.kmalloc mem (.name s.fresh) with ⟨granted, s₂⟩
    obtain ⟨same', owns₂⟩ := accounts.kmalloc owns₁ second
    cases granted with
    | false =>
      obtain ⟨s₃, freed, same'', owns₃⟩ := accounts.kfree owns₂
      dsimp only
      rw [same'.fresh, same.fresh, freed]
      exact ⟨none, s₃, rfl, (same.same same').same same'', owns₃⟩
    | true =>
      refine ⟨_, _, rfl, ?_⟩
      have whole := same.same same'
      refine ⟨whole.fresh, long, ⟨?_, ?_, whole.mounts, whole.files, whole.opened⟩, ?_⟩
      · rw [Vfs.setNode, whole.fresh, whole.nodes]
        rfl
      · rw [whole.fresh]
      · rw [whole.fresh]
        exact owns₂

theorem vfsNodeDestroy_effect (frees : Frees mem Owns) {address : Nat} {node : VfsNode}
    (here : s.nodes address = some node) (owns : Owns s.memory (.name address ::ₘ .node address ::ₘ blocks)) :
    ∃ t, vfsNodeDestroy mem s address = .ok t ∧
      Edited s (Function.update s.nodes address none) s.fresh t ∧ Owns t.memory blocks := by
  obtain ⟨s₁, freed, same, owns₁⟩ := frees.kfree owns
  obtain ⟨s₂, freed', same', owns₂⟩ := frees.kfree owns₁
  rw [vfsNodeDestroy, Vfs.node_eq here]
  dsimp only [bind, Except.bind]
  rw [freed]
  dsimp only
  rw [freed']
  have whole := same.same same'
  exact ⟨_, rfl, ⟨by rw [whole.nodes], whole.fresh, whole.mounts, whole.files, whole.opened⟩, owns₂⟩

def entryType (ent : Fat32Dirent) : Nat := if ent.attributes &&& fatAttrDirectory ≠ 0 then vfsNodeDir else vfsNodeFile

def entryOps (ent : Fat32Dirent) : NodeOps := if entryType ent &&& vfsNodeDir ≠ 0 then .fat32Dir else .fat32File

/-- The node that `fat32_vfs_make_node` makes for an entry. -/
def entryNode (vol : Fat32Vol) (ent : Fat32Dirent) : VfsNode :=
  { createdNode ent.name (entryType ent) (some (entryOps ent)) with
    size := ent.fileSize
    data := some {
      vol := vol
      firstCluster := ent.firstCluster
      size := ent.fileSize
      attributes := ent.attributes
      dirCache := none } }

theorem fat32VfsMakeNode_effect (accounts : Accounting mem Owns) (owns : Owns s.memory blocks)
    (vol : Fat32Vol) (ent : Fat32Dirent) (vacant : s.nodes s.fresh = none) :
    ∃ found t, fat32VfsMakeNode mem s vol ent = .ok (found, t) ∧ match found with
      | none => Edited s s.nodes t.fresh t ∧ s.fresh ≤ t.fresh ∧ Owns t.memory blocks
      | some address => address = s.fresh ∧ ¬ vfsNameMax < (cString ent.name).length ∧
          Edited s (Function.update s.nodes s.fresh (some (entryNode vol ent))) (s.fresh + 1) t ∧
          Owns t.memory (.inode address ::ₘ .name address ::ₘ .node address ::ₘ blocks) := by
  obtain ⟨found, s₁, created, effect⟩ :=
    vfsNodeCreate_effect accounts owns ent.name (entryType ent) (some (entryOps ent))
  change ∃ found t, (vfsNodeCreate mem s ent.name (entryType ent) (some (entryOps ent)) >>= _) = .ok (found, t) ∧ _
  rw [created]
  cases found with
  | none =>
    obtain ⟨same, owns₁⟩ := effect
    exact ⟨none, s₁, rfl, ⟨same.nodes, rfl, same.mounts, same.files, same.opened⟩, le_of_eq same.fresh.symm, owns₁⟩
  | some address =>
    obtain ⟨rfl, short, created, owns₁⟩ := effect
    dsimp only [bind, Except.bind]
    rcases third : s₁.kmalloc mem (.inode s.fresh) with ⟨granted, s₂⟩
    obtain ⟨same, owns₂⟩ := accounts.kmalloc owns₁ third
    have whole := created.same same
    have here : s₂.nodes s.fresh = some (createdNode ent.name (entryType ent) (some (entryOps ent))) := by
      rw [whole.nodes]
      simp
    cases granted with
    | false =>
      obtain ⟨s₃, destroyed, gone, owns₃⟩ := vfsNodeDestroy_effect accounts.toFrees here owns₂
      dsimp only
      rw [destroyed]
      have back : Function.update s₂.nodes s.fresh none = s.nodes := by
        rw [whole.nodes, Function.update_idem, ← vacant, Function.update_eq_self]
      have all := whole.trans gone
      refine ⟨none, s₃, rfl, ⟨all.nodes.trans back, rfl, all.mounts, all.files, all.opened⟩, ?_, owns₃⟩
      rw [all.fresh, whole.fresh]
      exact Nat.le_succ _
    | true =>
      dsimp only
      rw [Vfs.node_eq here]
      refine ⟨_, _, rfl, rfl, short, ⟨?_, whole.fresh, whole.mounts, whole.files, whole.opened⟩, owns₂⟩
      show Function.update s₂.nodes s.fresh _ = _
      rw [whole.nodes, Function.update_idem]
      rfl

/-- A scan with the cluster buffer is the scan with some buffer, and leaves the tree and the
blocks as they are. -/
theorem withClusterBuf_eq (accounts : Accounting mem Owns) (owns : Owns s.memory blocks) (taken : Bool) :
    ∃ buf t, SameTree s t ∧ Owns t.memory blocks ∧ ∀ {α : Type} (scan : Option Bytes → FsM α),
      withClusterBuf mem env s taken scan = do return (← scan buf, t) := by
  unfold withClusterBuf
  cases taken with
  | false => exact ⟨none, s, .refl s, owns, fun scan => rfl⟩
  | true =>
    rcases first : s.kmalloc mem .clusterBuf with ⟨granted, s₁⟩
    obtain ⟨same, owns₁⟩ := accounts.kmalloc owns first
    cases granted with
    | false => exact ⟨none, s₁, same, owns₁, fun scan => rfl⟩
    | true =>
      obtain ⟨s₂, freed, same', owns₂⟩ :=
        @Frees.kfree _ _ _ { s₁ with buffers := s₁.buffers + 1 } _ accounts.toFrees .clusterBuf owns₁
      refine ⟨some (env.buffers s₁.buffers), s₂,
        same.same ⟨same'.nodes, same'.fresh, same'.mounts, same'.files, same'.opened⟩, owns₂, fun scan => ?_⟩
      simp only [freed]
      rfl

/-- A scan sees no buffer or one with some old contents. -/
theorem withClusterBuf_effect {α : Type} (accounts : Accounting mem Owns) (owns : Owns s.memory blocks) (taken : Bool)
    {scan : Option Bytes → FsM α} (excused : ∀ buf, Sound (scan buf) fun _ => True) :
    Sound (withClusterBuf mem env s taken scan) fun (result, t) =>
      SameTree s t ∧ Owns t.memory blocks ∧ ∃ buf, scan buf = .ok result := by
  obtain ⟨buf, t, same, owns', scanned⟩ := withClusterBuf_eq accounts owns taken
  rw [scanned]
  exact .bind (excused buf).result fun result ⟨_, done⟩ => ⟨same, owns', buf, done⟩

theorem excused_of_overrun {fault : FsFault} (overrun : fault = .nameOverrun) : Excused (.fault fault) := by
  subst overrun
  exact ⟨nofun, nofun⟩

theorem excused_diverged : Excused .diverged := ⟨nofun, nofun⟩

theorem fat32IterDir_excused {σ : Type} (cb : Fat32Dirent → σ → Int × σ) (disk : Disk) (vol : Fat32Vol) (fuel : Nat)
    (buf : Option Bytes) (cluster : Nat) (ctx : σ) :
    Sound (fat32IterDir cb disk vol fuel buf cluster ctx) fun _ => True := by
  unfold fat32IterDir
  split
  · trivial
  cases buf with
  | none => trivial
  | some buf =>
    refine Lib.finish_ensures (fun _ => True) (fun _ _ => trivial) (fun {walk result} _ left => ?_) excused_diverged trivial
    unfold iterDirPass at left
    split at left
    · cases left
      trivial
    split at left
    · cases left
      trivial
    split at left
    · rename_i overrun
      cases left
      exact excused_of_overrun (iterDirEntries_error overrun)
    · cases left
      trivial
    · dsimp only at left
      split at left
      · cases left
        trivial
      split at left
      · cases left
        trivial
      · cases left

section

variable (disk : Disk) (vol : Fat32Vol) (fuel : Nat) (buf : Option Bytes)
include disk vol fuel buf

theorem fat32Lookup_excused (cluster : Nat) (name : List UInt8) :
    Sound (fat32Lookup disk vol fuel buf cluster name) fun _ => True := by
  refine .bind (fat32IterDir_excused _ _ _ _ _ _ _) fun result _ => ?_
  dsimp only
  split <;> trivial

theorem fat32ReaddirIndex_excused (cluster index : Nat) :
    Sound (fat32ReaddirIndex disk vol fuel buf cluster index) fun _ => True := by
  refine .bind (fat32IterDir_excused _ _ _ _ _ _ _) fun result _ => ?_
  dsimp only
  split <;> trivial

theorem fat32ReadDir_excused (cluster cap : Nat) :
    Sound (fat32ReadDir disk vol fuel buf cluster cap) fun _ => True := by
  cases buf with
  | none => trivial
  | some buf =>
    refine Lib.finish_ensures (fun _ => True) (fun _ _ => trivial) (fun {walk result} _ left => ?_) excused_diverged trivial
    unfold readDirPass at left
    split at left
    · cases left
      trivial
    split at left
    · cases left
      trivial
    split at left
    · rename_i overrun
      cases left
      exact excused_of_overrun (processDirEntries_error overrun)
    · cases left
      trivial
    · dsimp only at left
      split at left
      · cases left
        trivial
      · cases left

end

/-- A lookup that found an entry had a buffer. -/
theorem fat32Lookup_none {disk : Disk} {fuel : Nat} {name : List UInt8}
    {found : Option Fat32Dirent}
    (done : fat32Lookup disk vol fuel none cluster name = .ok (rc, found)) : rc < 0 := by
  unfold fat32Lookup fat32IterDir at done
  split at done
  · cases done
    decide
  · cases done
    decide

/-- An entry that the disk, or the listing kept of it, has for a name. -/
def EntryOf (env : FsEnv) (inode : Fat32Inode) (name : List UInt8) (ent : Fat32Dirent) : Prop :=
  match inode.dirCache with
  | some entries => entries.find? (fun ent => fat32NameEqualCi ent.name name) = some ent
  | none => ∃ buf rc, fat32Lookup env.disk inode.vol env.fuel (some buf) inode.firstCluster name = .ok (rc, some ent) ∧
      0 ≤ rc

theorem fat32VfsFindEntry_effect (accounts : Accounting mem Owns) (owns : Owns s.memory blocks) (inode : Fat32Inode)
    (name : List UInt8) :
    Sound (fat32VfsFindEntry mem env s inode name) fun (found, t) =>
      SameTree s t ∧ Owns t.memory blocks ∧ ∀ ent, found = some ent → EntryOf env inode name ent := by
  unfold fat32VfsFindEntry EntryOf
  cases listing : inode.dirCache with
  | some entries => exact ⟨.refl s, owns, fun _ same => same⟩
  | none =>
    refine .bind (withClusterBuf_effect accounts owns _ fun buf => fat32Lookup_excused _ _ _ _ _ _) ?_
    rintro ⟨⟨rc, hit⟩, s₁⟩ ⟨same, owns₁, buf, scanned⟩
    dsimp only
    split
    · exact ⟨same, owns₁, fun _ no => by cases no⟩
    · rename_i positive
      refine ⟨same, owns₁, fun ent hit' => ?_⟩
      cases buf with
      | none => exact absurd (fat32Lookup_none scanned) positive
      | some buf => grind

/-- A directory got a child for an entry. -/
structure Grafted (env : FsEnv) (s : Vfs M) (dir : Nat) (node : VfsNode) (name : List UInt8) (t : Vfs M) : Prop where
  here : s.nodes dir = some node
  isDir : node.type &&& vfsNodeDir ≠ 0
  entry : ∃ inode ent, node.data = some inode ∧ EntryOf env inode name ent ∧ ¬ vfsNameMax < (cString ent.name).length ∧
    Edited s (Function.update (Function.update s.nodes s.fresh
      (some { entryNode inode.vol ent with parent := some dir, nextSibling := node.firstChild }))
        dir (some { node with firstChild := some s.fresh })) (s.fresh + 1) t

section Lookup

variable {children : Nat → List Nat} {dir : Nat} {node : VfsNode}

theorem vfsAddChild_eq {child : Nat} (here : s.nodes dir = some node)
    (isDir : node.type &&& vfsNodeDir ≠ 0) (there : s.nodes child = some below) :
    vfsAddChild s dir child = .ok (0, (s.setNode child { below with parent := some dir, nextSibling := node.firstChild }).setNode
      dir { node with firstChild := some child }) := by
  rw [vfsAddChild, Vfs.node_eq here]
  dsimp only [bind, Except.bind]
  rw [if_neg isDir, Vfs.node_eq there]
  rfl

/-- What `fat32_vfs_lookup` does: a child that is there, nothing, or a new child. -/
theorem fat32VfsLookup_effect (accounts : Accounting mem Owns) (owns : Owns s.memory blocks) (forest : Forest s children)
    (here : s.nodes dir = some node) (isDir : node.type &&& vfsNodeDir ≠ 0) (name : List UInt8) :
    Sound (fat32VfsLookup mem env s dir name) fun (found, t) =>
      (t = s ∧ ∃ child, found = some child ∧
        (children dir).find? (s.wants fun child => fat32NameEqualCi child.name name) = some child) ∨
      (found = none ∧ Edited s s.nodes t.fresh t ∧ s.fresh ≤ t.fresh ∧ Owns t.memory blocks) ∨
      (found = some s.fresh ∧ Grafted env s dir node name t ∧
        Owns t.memory (.inode s.fresh ::ₘ .name s.fresh ::ₘ .node s.fresh ::ₘ blocks)) := by
  refine .bind (Vfs.node_sound here) ?_
  rintro _ rfl
  refine .bind (forest.findChild_sound here _ _) ?_
  rintro cached searched
  cases cached with
  | some child => exact .inl ⟨rfl, child, rfl, searched.symm⟩
  | none =>
    cases data : node.data with
    | none => exact .inr (.inl ⟨rfl, ⟨rfl, rfl, rfl, rfl, rfl⟩, le_refl _, owns⟩)
    | some inode =>
      refine .bind (fat32VfsFindEntry_effect accounts owns inode name) ?_
      rintro ⟨hit, s₁⟩ ⟨same, owns₁, entry⟩
      cases hit with
      | none =>
        exact .inr (.inl ⟨rfl, ⟨same.nodes, rfl, same.mounts, same.files, same.opened⟩, le_of_eq same.fresh.symm, owns₁⟩)
      | some ent =>
        obtain ⟨made, s₂, makes, effect⟩ := fat32VfsMakeNode_effect accounts owns₁ inode.vol ent
          (by rw [same.nodes, same.fresh]; exact forest.vacant _ (le_refl _))
        dsimp only
        rw [makes]
        cases made with
        | none =>
          obtain ⟨kept, grows, owns₂⟩ := effect
          refine .inr (.inl ⟨rfl, ⟨kept.nodes.trans same.nodes, rfl, kept.mounts.trans same.mounts,
            kept.files.trans same.files, kept.opened.trans same.opened⟩, ?_, owns₂⟩)
          grind [Edited.fresh]
        | some child =>
          obtain ⟨rfl, short, made, owns₂⟩ := effect
          rw [same.fresh] at owns₂ made ⊢
          rw [same.nodes] at made
          have other : dir ≠ s.fresh := Nat.ne_of_lt (forest.bounded here)
          have dirHere : s₂.nodes dir = some node := by
            rw [made.nodes, Function.update_of_ne other]
            exact here
          have childHere : s₂.nodes s.fresh = some (entryNode inode.vol ent) := by
            rw [made.nodes, Function.update_self]
          dsimp only [bind, Except.bind]
          rw [vfsAddChild_eq dirHere isDir childHere]
          refine .inr (.inr ⟨rfl, ⟨here, isDir, inode, ent, data, entry ent rfl, short, ?_⟩, owns₂⟩)
          have whole := same.edited made
          refine ⟨?_, whole.fresh, whole.mounts, whole.files, whole.opened⟩
          show Function.update (Function.update s₂.nodes s.fresh _) dir _ = _
          rw [made.nodes, Function.update_idem]

end Lookup

/-- The whole of a directory, as `fat32_read_dir` gives it when there is room to spare. -/
def ListingOf (env : FsEnv) (inode : Fat32Inode) (es : List Fat32Dirent) : Prop :=
  ∃ buf cap, fat32ReadDir env.disk inode.vol env.fuel (some buf) inode.firstCluster cap = .ok (true, es) ∧ es.length < cap

theorem loadDir_effect (accounts : Accounting mem Owns) (owns : Owns s.memory blocks) (dir fuel cap : Nat) (inode : Fat32Inode) :
    Sound (Lib.finish (Lib.loop (loadDirPass mem env dir inode) fuel (cap, s))) fun (loaded, t) =>
      SameTree s t ∧ (∀ rc, loaded = .error rc → rc < 0 ∧ Owns t.memory blocks) ∧
        ∀ es, loaded = .ok es → ListingOf env inode es ∧ Owns t.memory (.dirCache dir ::ₘ blocks) := by
  induction fuel generalizing s cap with
  | zero => exact excused_diverged
  | succ fuel ih =>
    simp only [Lib.loop, loadDirPass]
    by_cases none' : cap = 0
    · rw [if_pos none']
      exact ⟨.refl _, fun _ failed => by cases failed; exact ⟨by decide, owns⟩, fun _ no => by cases no⟩
    rw [if_neg none']
    rcases first : s.kmalloc mem (.dirCache dir) with ⟨granted, s₁⟩
    obtain ⟨same, owns₁⟩ := accounts.kmalloc owns first
    cases granted with
    | false => exact ⟨same, fun _ failed => by cases failed; exact ⟨by decide, owns₁⟩, fun _ no => by cases no⟩
    | true =>
      have scan := @withClusterBuf_effect _ _ _ env _ _ _ accounts owns₁ true
        (fun clusterBuf => fat32ReadDir env.disk inode.vol env.fuel clusterBuf inode.firstCluster cap)
        fun _ => fat32ReadDir_excused _ _ _ _ _ _
      dsimp only
      cases scanned : withClusterBuf mem env s₁ true fun clusterBuf =>
          fat32ReadDir env.disk inode.vol env.fuel clusterBuf inode.firstCluster cap with
      | error halt =>
        rw [scanned] at scan
        exact scan
      | ok result =>
        obtain ⟨⟨ok, entries⟩, s₂⟩ := result
        obtain ⟨same', owns₂, buf, listed⟩ := scan.ok scanned
        dsimp only
        by_cases fits : ok = true ∧ entries.length < cap
        · rw [if_pos fits]
          refine ⟨same.same same', fun _ no => (by cases no), fun es whole => ?_⟩
          cases whole
          refine ⟨?_, owns₂⟩
          obtain ⟨rfl, room⟩ := fits
          cases buf with
          | none => cases listed
          | some buf => exact ⟨buf, cap, listed, room⟩
        · obtain ⟨s₃, freed, same'', owns₃⟩ := accounts.kfree owns₂
          rw [if_neg fits, freed]
          have whole := (same.same same').same same''
          cases ok with
          | false => exact ⟨whole, fun _ failed => by cases failed; exact ⟨by decide, owns₃⟩, fun _ no => by cases no⟩
          | true =>
            grind [Lib.Ensures.mono, Edited.same]

/-- One change that a call makes to the tree, at one node, with the blocks that are
handed out before and after it. -/
inductive Effect (env : FsEnv) (s : Vfs M) (blocks : Multiset Block) (touched : Nat) : Vfs M → Multiset Block → Prop where
  | same {t : Vfs M} (kept : Edited s s.nodes t.fresh t) (grows : s.fresh ≤ t.fresh) : Effect env s blocks touched t blocks
  | grown {t : Vfs M} (child : Grafted env s touched node name t) :
      Effect env s blocks touched t (.inode s.fresh ::ₘ .name s.fresh ::ₘ .node s.fresh ::ₘ blocks)
  | listed {t : Vfs M} (here : s.nodes touched = some node) (isDir : node.type &&& vfsNodeDir ≠ 0)
      (data : node.data = some inode) (unlisted : inode.dirCache = none) (listing : ListingOf env inode es)
      (edit : Edited s (Function.update s.nodes touched
        (some { node with data := some { inode with dirCache := some es } })) s.fresh t) :
      Effect env s blocks touched t (.dirCache touched ::ₘ blocks)
  | restated {t : Vfs M} (here : s.nodes touched = some node) (data : node.data = some inode)
      (up : node.parent = some parent) (there : s.nodes parent = some dir) (data' : dir.data = some above)
      (entry : ∃ buf, fat32Lookup env.disk above.vol env.fuel (some buf) above.firstCluster node.name = .ok (0, some ent))
      (edit : Edited s (Function.update s.nodes touched
        (some { node with
          data := some { inode with size := ent.fileSize, attributes := ent.attributes }
          size := ent.fileSize })) s.fresh t) :
      Effect env s blocks touched t blocks

variable {touched : Nat}

theorem Effect.of_same (same : SameTree s t) : Effect env s blocks touched t blocks :=
  .same ⟨same.nodes, rfl, same.mounts, same.files, same.opened⟩ (le_of_eq same.fresh.symm)

/-- After an effect, with the blocks that are then handed out. -/
def Affected (Owns : M → Multiset Block → Prop) (env : FsEnv) (s : Vfs M) (blocks : Multiset Block) (touched : Nat)
    (t : Vfs M) : Prop :=
  ∃ blocks', Owns t.memory blocks' ∧ Effect env s blocks touched t blocks'

theorem Affected.of_same (same : SameTree s t) (owns : Owns t.memory blocks) : Affected Owns env s blocks touched t :=
  ⟨blocks, owns, .of_same same⟩

section

variable (accounts : Accounting mem Owns) (owns : Owns s.memory blocks)
include accounts owns

theorem fat32VfsLoadDirCache_effect {node : VfsNode} {inode : Fat32Inode}
    (here : s.nodes dir = some node) (isDir : node.type &&& vfsNodeDir ≠ 0)
    (data : node.data = some inode) :
    Sound (fat32VfsLoadDirCache mem env s dir node inode) fun ((_, cache), t) =>
      Affected Owns env s blocks dir t ∧ (cache = none → SameTree s t ∧ Owns t.memory blocks) := by
  unfold fat32VfsLoadDirCache
  cases listing : inode.dirCache with
  | some entries => exact ⟨.of_same (.refl s) owns, fun no => by cases no⟩
  | none =>
    refine .bind (loadDir_effect accounts owns dir _ _ inode) ?_
    rintro ⟨answer, s₂⟩ ⟨same, failed, whole⟩
    cases answer with
    | error rc =>
      have owns₂ := (failed _ rfl).2
      exact ⟨.of_same same owns₂, fun _ => ⟨same, owns₂⟩⟩
    | ok es =>
      obtain ⟨listed, owns₂⟩ := whole _ rfl
      refine ⟨⟨_, owns₂, .listed here isDir data listing listed ?_⟩, fun no => by cases no⟩
      exact ⟨by rw [Vfs.setNode, same.nodes], same.fresh, same.mounts, same.files, same.opened⟩

theorem fat32VfsReaddir_effect {node : VfsNode} (here : s.nodes dir = some node)
    (isDir : node.type &&& vfsNodeDir ≠ 0) (index : Nat) :
    Sound (fat32VfsReaddir mem env s dir index) fun (_, t) => Affected Owns env s blocks dir t := by
  unfold fat32VfsReaddir
  refine .bind (Vfs.node_sound here) ?_
  rintro _ rfl
  dsimp only
  cases data : node.data with
  | none => exact .of_same (.refl s) owns
  | some inode =>
    refine .bind (fat32VfsLoadDirCache_effect accounts owns here isDir data) ?_
    rintro ⟨⟨rc, cache⟩, s₁⟩ ⟨affected, unlisted⟩
    dsimp only
    split
    · exact affected
    cases cache with
    | some entries =>
      dsimp only
      split <;> exact affected
    | none =>
      obtain ⟨same, owns₁⟩ := unlisted rfl
      refine .bind (withClusterBuf_effect accounts owns₁ _ fun _ => fat32ReaddirIndex_excused _ _ _ _ _ _) ?_
      rintro ⟨⟨rc', found⟩, s₂⟩ ⟨same', owns₂, -⟩
      have affected : Affected Owns env s blocks dir s₂ := .of_same (same.same same') owns₂
      dsimp only
      split
      · exact affected
      split
      · exact ⟨nofun, nofun⟩
      · exact affected

theorem fat32VfsStat_effect {address : Nat} {node : VfsNode} (here : s.nodes address = some node)
    (upper : ∀ parent, node.parent = some parent → ∃ dir, s.nodes parent = some dir) :
    Sound (fat32VfsStat mem env s address) fun (_, t) => Affected Owns env s blocks address t := by
  unfold fat32VfsStat
  refine .bind (Vfs.node_sound here) ?_
  rintro _ rfl
  dsimp only
  cases data : node.data with
  | none => exact .of_same (.refl s) owns
  | some inode =>
    dsimp only
    cases up : node.parent with
    | none => exact .of_same (.refl s) owns
    | some parent =>
      obtain ⟨dir, there⟩ := upper parent up
      refine .bind (Vfs.node_sound there) ?_
      rintro _ rfl
      cases data' : dir.data with
      | none => exact .of_same (.refl s) owns
      | some above =>
        refine .bind (withClusterBuf_effect accounts owns _ fun buf => fat32Lookup_excused _ _ _ _ _ _) ?_
        rintro ⟨⟨rc, found⟩, s₁⟩ ⟨same, owns₁, buf, scanned⟩
        dsimp only
        split
        · exact .of_same same owns₁
        rename_i zero
        obtain rfl : rc = 0 := not_not.mp zero
        cases found with
        | none => exact ⟨nofun, nofun⟩
        | some ent =>
          refine ⟨blocks, owns₁, .restated here data up there data' ?_
            ⟨by rw [Vfs.setNode, same.nodes, up], same.fresh, same.mounts, same.files, same.opened⟩⟩
          cases buf with
          | none => exact absurd (fat32Lookup_none scanned) (Int.lt_irrefl 0)
          | some buf => exact ⟨buf, scanned⟩

end

end Effects

end Velox
