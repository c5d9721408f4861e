import Velox.Fs.VfsPath

namespace Velox

open Lib (components)

/-- The same tree under another mount table. -/
def Vfs.remount {M : Type} (s : Vfs M) (mounts : List VfsMount) : Vfs M := { s with mounts := mounts }

def remounted {M α : Type} (mounts : List VfsMount) : FsM (α × Vfs M) → FsM (α × Vfs M) :=
  Except.map fun (result, s) => (result, s.remount mounts)

section Remount

variable {M : Type} {mem : Allocator M} {env : FsEnv} {s : Vfs M} {mounts : List VfsMount}

theorem kmalloc_remount (block : Block) :
    (s.remount mounts).kmalloc mem block = ((s.kmalloc mem block).1, (s.kmalloc mem block).2.remount mounts) := rfl

theorem kfree_remount (block : Block) :
    (s.remount mounts).kfree mem block = (s.kfree mem block).map (·.remount mounts) := by
  have same : (s.remount mounts).memory = s.memory := rfl
  simp only [Vfs.kfree, same]
  cases mem.kfree s.memory block with
  | error halt => rfl
  | ok memory => rfl

theorem vfsNodeCreate_remount (name : List UInt8) (type : Nat) (ops : Option NodeOps) :
    vfsNodeCreate mem (s.remount mounts) name type ops = remounted mounts (vfsNodeCreate mem s name type ops) := by
  have same : (s.remount mounts).fresh = s.fresh := rfl
  unfold vfsNodeCreate
  rw [kmalloc_remount, same]
  rcases s.kmalloc mem (.node s.fresh) with ⟨_ | _, s₁⟩
  · rfl
  · have same₁ : (s₁.remount mounts).fresh = s₁.fresh := rfl
    dsimp only
    split
    · rw [same₁, kfree_remount]
      cases s₁.kfree mem (.node s₁.fresh) with
      | error halt => rfl
      | ok s₂ => rfl
    · rw [kmalloc_remount, same₁]
      rcases s₁.kmalloc mem (.name s₁.fresh) with ⟨_ | _, s₂⟩
      · have same₂ : (s₂.remount mounts).fresh = s₂.fresh := rfl
        dsimp only
        rw [same₂, kfree_remount]
        cases s₂.kfree mem (.node s₂.fresh) with
        | error halt => rfl
        | ok s₃ => rfl
      · rfl

theorem vfsNodeDestroy_remount (address : Nat) :
    vfsNodeDestroy mem (s.remount mounts) address = (vfsNodeDestroy mem s address).map (·.remount mounts) := by
  have same : (s.remount mounts).node = s.node := rfl
  unfold vfsNodeDestroy
  rw [same]
  cases s.node address with
  | error halt => rfl
  | ok node =>
    dsimp only [bind, Except.bind]
    rw [kfree_remount]
    cases s.kfree mem (.name address) with
    | error halt => rfl
    | ok s₁ =>
      dsimp only [Except.map]
      rw [kfree_remount]
      cases s₁.kfree mem (.node address) with
      | error halt => rfl
      | ok s₂ => rfl

theorem fat32VfsMakeNode_remount (vol : Fat32Vol) (ent : Fat32Dirent) :
    fat32VfsMakeNode mem (s.remount mounts) vol ent = remounted mounts (fat32VfsMakeNode mem s vol ent) := by
  unfold fat32VfsMakeNode
  dsimp only
  rw [vfsNodeCreate_remount]
  rcases vfsNodeCreate mem s ent.name _ _ with halt | ⟨_ | address, s₁⟩
  · rfl
  · rfl
  · dsimp only [remounted, Except.map, bind, Except.bind]
    rw [kmalloc_remount]
    rcases s₁.kmalloc mem (.inode address) with ⟨_ | _, s₂⟩
    · dsimp only
      rw [vfsNodeDestroy_remount]
      cases vfsNodeDestroy mem s₂ address with
      | error halt => rfl
      | ok s₃ => rfl
    · have same : (s₂.remount mounts).node = s₂.node := rfl
      dsimp only
      rw [same]
      cases s₂.node address with
      | error halt => rfl
      | ok node => rfl

theorem vfsAddChild_remount (parent child : Nat) :
    vfsAddChild (s.remount mounts) parent child = remounted mounts (vfsAddChild s parent child) := by
  have same : (s.remount mounts).node = s.node := rfl
  unfold vfsAddChild
  rw [same]
  cases s.node parent with
  | error halt => rfl
  | ok dir =>
    dsimp only [bind, Except.bind]
    split
    · rfl
    · cases s.node child with
      | error halt => rfl
      | ok node => rfl

theorem withClusterBuf_remount {α : Type} (taken : Bool) (scan : Option Lib.Bytes → FsM α) :
    withClusterBuf mem env (s.remount mounts) taken scan = remounted mounts (withClusterBuf mem env s taken scan) := by
  unfold withClusterBuf
  cases taken with
  | false =>
    cases scan none with
    | error halt => rfl
    | ok result => rfl
  | true =>
    rw [kmalloc_remount]
    rcases s.kmalloc mem .clusterBuf with ⟨_ | _, s₁⟩
    · cases scan none with
      | error halt => rfl
      | ok result => rfl
    · have same : (s₁.remount mounts).buffers = s₁.buffers := rfl
      dsimp only
      rw [same]
      cases scan (some (env.buffers s₁.buffers)) with
      | error halt => rfl
      | ok result =>
        rw [show { s₁.remount mounts with buffers := s₁.buffers + 1 } =
          ({ s₁ with buffers := s₁.buffers + 1 } : Vfs M).remount mounts from rfl, kfree_remount]
        cases Vfs.kfree mem { s₁ with buffers := s₁.buffers + 1 } .clusterBuf with
        | error halt => rfl
        | ok s₂ => rfl

theorem fat32VfsFindEntry_remount (inode : Fat32Inode) (name : List UInt8) :
    fat32VfsFindEntry mem env (s.remount mounts) inode name = remounted mounts (fat32VfsFindEntry mem env s inode name) := by
  unfold fat32VfsFindEntry
  cases inode.dirCache with
  | some entries => rfl
  | none =>
    simp only [inodeLookup, withClusterBuf_remount]
    rcases withClusterBuf mem env s _ _ with halt | ⟨⟨rc, found⟩, s₁⟩
    · rfl
    · dsimp only [bind, Except.bind, remounted, Except.map]
      split <;> rfl

theorem fat32VfsLookup_remount (dir : Nat) (name : List UInt8) :
    fat32VfsLookup mem env (s.remount mounts) dir name = remounted mounts (fat32VfsLookup mem env s dir name) := by
  have same : (s.remount mounts).node = s.node := rfl
  have children : ∀ node, fat32FindChildCi (s.remount mounts) env.fuel node name = fat32FindChildCi s env.fuel node name :=
    fun _ => rfl
  unfold fat32VfsLookup
  rw [same]
  cases s.node dir with
  | error halt => rfl
  | ok node =>
    dsimp only [bind, Except.bind]
    rw [children]
    rcases fat32FindChildCi s env.fuel node name with halt | _ | cached
    · rfl
    · cases node.data with
      | none => rfl
      | some inode =>
        dsimp only
        rw [fat32VfsFindEntry_remount]
        rcases fat32VfsFindEntry mem env s inode name with halt | ⟨_ | ent, s₁⟩
        · rfl
        · rfl
        · dsimp only [remounted, Except.map]
          rw [fat32VfsMakeNode_remount]
          rcases fat32VfsMakeNode mem s₁ inode.vol ent with halt | ⟨_ | child, s₂⟩
          · rfl
          · rfl
          · dsimp only [remounted, Except.map]
            rw [vfsAddChild_remount]
            rcases vfsAddChild s₂ dir child with halt | ⟨rc, s₃⟩
            · rfl
            · dsimp only [remounted, Except.map]
              split
              · rw [vfsNodeDestroy_remount]
                cases vfsNodeDestroy mem s₃ child with
                | error halt => rfl
                | ok s₄ => rfl
              · rfl
    · rfl

theorem vfsLookupChild_remount (dir : Nat) (name : List UInt8) :
    vfsLookupChild mem env (s.remount mounts) dir name = remounted mounts (vfsLookupChild mem env s dir name) := by
  have same : (s.remount mounts).node = s.node := rfl
  have children : ∀ node, vfsFindChild (s.remount mounts) env.fuel node name = vfsFindChild s env.fuel node name :=
    fun _ => rfl
  unfold vfsLookupChild
  rw [same]
  cases s.node dir with
  | error halt => rfl
  | ok node =>
    dsimp only [bind, Except.bind]
    rcases node.ops with _ | _ | _
    · rw [children]
      cases vfsFindChild s env.fuel node name with
      | error halt => rfl
      | ok found => rfl
    · exact fat32VfsLookup_remount dir name
    · rw [children]
      cases vfsFindChild s env.fuel node name with
      | error halt => rfl
      | ok found => rfl

/-- The walk does not look at the mount table. -/
theorem resolvePass_remount (p : List UInt8) (node : Nat) : resolvePass mem env (p, node, s.remount mounts) =
      (resolvePass mem env (p, node, s)).map (fun (p, node, s) => (p, node, s.remount mounts)) (remounted mounts) := by
  simp only [resolvePass]
  by_cases empty : p = []
  · simp only [if_pos empty]
    rfl
  by_cases slash : (p.takeWhile (· ≠ 0x2F)).length = 0
  · grind
  by_cases long : vfsNameMax < (p.takeWhile (· ≠ 0x2F)).length
  · simp only [if_neg empty, if_neg slash, if_pos long]
    rfl
  simp only [if_neg empty, if_neg slash, if_neg long]
  rw [vfsLookupChild_remount]
  rcases vfsLookupChild mem env s node _ with halt | ⟨_ | child, s₁⟩
  · rfl
  · rfl
  · have same : (s₁.remount mounts).node = s₁.node := rfl
    dsimp only [remounted, Except.map]
    rw [same]
    cases s₁.node child with
    | error halt => rfl
    | ok found =>
      dsimp only
      split <;> rfl

theorem resolve_loop_remount {fuel : Nat} (p : List UInt8) (node : Nat) :
    Lib.loop (resolvePass mem env) fuel (p, node, s.remount mounts) =
      (Lib.loop (resolvePass mem env) fuel (p, node, s)).map (remounted mounts) := by
  induction fuel generalizing p node s with
  | zero => rfl
  | succ fuel ih =>
    simp only [Lib.loop, resolvePass_remount]
    grind

end Remount

section Results

variable {M : Type} {mem : Allocator M} {env : FsEnv} {s t : Vfs M} {path : List UInt8} {root : Nat} {rc : Int}

theorem resolve_loop_mounts {fuel : Nat} {node : Nat} {result : Int × Option Nat}
    (done : Lib.loop (resolvePass mem env) fuel (p, node, s) = some (.ok (result, t))) :
    t.mounts = s.mounts := by
  have same := @resolve_loop_remount _ mem env s s.mounts fuel p node
  rw [show s.remount s.mounts = s from rfl, done] at same
  have kept : t = t.remount s.mounts := by
    injection same with same
    injection same with same
    grind
  rw [kept]
  rfl

/-- The loop stores a node exactly when it succeeds. -/
theorem resolve_loop_out {fuel : Nat} {node : Nat}
    (done : Lib.loop (resolvePass mem env) fuel (p, node, s) = some (.ok ((rc, out), t))) :
    (rc = 0 ∧ out.isSome) ∨ (rc < 0 ∧ out = none) := by
  refine Lib.loop_result (fun _ => True)
    (fun result => ∀ rc out t, result = .ok ((rc, out), t) → (rc = 0 ∧ out.isSome) ∨ (rc < 0 ∧ out = none))
    (fun _ _ => trivial) (fun {state result} _ pass => ?_) trivial done rc out t rfl
  rintro rc out t rfl
  simp only [resolvePass] at pass
  split at pass
  · grind
  split at pass
  · cases pass
  split at pass
  · cases pass
    exact .inr ⟨by decide, rfl⟩
  split at pass
  · cases pass
  · cases pass
    exact .inr ⟨by decide, rfl⟩
  split at pass
  · cases pass
  split at pass
  · cases pass
    exact .inr ⟨by decide, rfl⟩
  · cases pass

theorem vfsResolvePath_result (done : vfsResolvePath mem env s path = .ok ((rc, out), t)) :
    t.mounts = s.mounts ∧ ((rc = 0 ∧ out.isSome) ∨ (rc < 0 ∧ out = none)) := by
  unfold vfsResolvePath at done
  split at done
  · cases done
    exact ⟨rfl, .inr ⟨by decide, rfl⟩⟩
  dsimp only at done
  split at done
  · cases done
    exact ⟨rfl, .inr ⟨by decide, rfl⟩⟩
  split at done
  · cases done
    exact ⟨rfl, .inr ⟨by decide, rfl⟩⟩
  · have ended := Lib.finish_ok done
    exact ⟨resolve_loop_mounts ended, resolve_loop_out ended⟩

/-- The tree as the check of the mount point leaves it: `vfs_mount` looks for the
directory when there is a mount already and the path is not the root. -/
def Checked (mem : Allocator M) (env : FsEnv) (s : Vfs M) (path : List UInt8) (t : Vfs M) : Prop :=
  t = s ∨ ∃ point, vfsResolvePath mem env s path = .ok ((0, some point), t)

theorem Checked.mounts (checked : Checked mem env s path t) : t.mounts = s.mounts := by
  rcases checked with rfl | ⟨point, resolved⟩
  · rfl
  · exact (vfsResolvePath_result resolved).1

/-- The mount that `vfs_mount` makes. -/
def newMount (root : Nat) (path : List UInt8) : VfsMount :=
  ⟨path.take (vfsTrimPathLen path), vfsTrimPathLen path % 2 ^ 16, root⟩

theorem addMount_cases (done : s.addMount mem root path (vfsTrimPathLen path) = .ok (rc, t)) :
    (rc < 0 ∧ t.mounts = s.mounts) ∨
      rc = 0 ∧ ∃ memory, t = { s with memory := memory, mounts := newMount root path :: s.mounts } := by
  unfold Vfs.addMount at done
  rcases first : s.kmalloc mem (.mount root) with ⟨granted, s₁⟩
  obtain ⟨memory, -, rfl⟩ := Vfs.kmalloc_cases first
  rw [first] at done
  cases granted with
  | false =>
    cases done
    exact .inl ⟨by decide, rfl⟩
  | true =>
    dsimp only at done
    rcases second : Vfs.kmalloc mem { s with memory := memory } (.path root) with ⟨granted, s₂⟩
    obtain ⟨memory', -, rfl⟩ := Vfs.kmalloc_cases second
    rw [second] at done
    cases granted with
    | false =>
      obtain ⟨s₃, freed, onward⟩ := Lib.bind_ok done
      obtain ⟨memory'', -, rfl⟩ := Vfs.kfree_cases freed
      cases onward
      exact .inl ⟨by decide, rfl⟩
    | true =>
      cases done
      exact .inr ⟨rfl, memory', rfl⟩

/-- What `vfs_mount` does: it refuses and leaves the table alone, or it adds the mount. -/
theorem vfsMount_cases (absolute : path.headD 0 = 0x2F) (done : vfsMount mem env s root path = .ok (rc, t)) :
    (rc < 0 ∧ t.mounts = s.mounts) ∨ rc = 0 ∧ (∀ mnt ∈ s.mounts, ¬ (mnt.pathLen = vfsTrimPathLen path ∧
          mnt.path.take (vfsTrimPathLen path) = path.take (vfsTrimPathLen path))) ∧
        ∃ before memory, Checked mem env s path before ∧
          t = { before with memory := memory, mounts := newMount root path :: before.mounts } := by
  rw [vfsMount, if_neg (not_not.mpr absolute)] at done
  dsimp only at done
  split at done
  · cases done
    exact .inl ⟨by decide, rfl⟩
  split at done
  · cases done
    exact .inl ⟨by decide, rfl⟩
  have free : ∀ mnt ∈ s.mounts, ¬ (mnt.pathLen = vfsTrimPathLen path ∧
      mnt.path.take (vfsTrimPathLen path) = path.take (vfsTrimPathLen path)) := by
    grind
  split at done
  · obtain ⟨⟨⟨rc', point⟩, before⟩, resolved, onward⟩ := Lib.bind_ok done
    obtain ⟨kept, result⟩ := vfsResolvePath_result resolved
    cases point with
    | none =>
      cases onward
      grind
    | some point =>
      rcases result with ⟨rfl, -⟩ | ⟨-, none'⟩
      · obtain ⟨node, -, onward⟩ := Lib.bind_ok onward
        split at onward
        · cases onward
          exact .inl ⟨by decide, kept⟩
        · rcases addMount_cases onward with ⟨negative, kept'⟩ | ⟨rfl, memory, rfl⟩
          · grind
          · exact .inr ⟨rfl, free, before, memory, .inr ⟨point, resolved⟩, rfl⟩
      · cases none'
  · rcases addMount_cases done with refused | ⟨rfl, memory, rfl⟩
    · exact .inl refused
    · exact .inr ⟨rfl, free, s, memory, .inl rfl, rfl⟩

/-- Mounts stay as `vfs_mount` makes them. -/
theorem vfsMount_formed (absolute : path.headD 0 = 0x2F) (formed : ∀ mnt ∈ s.mounts, mnt.WellFormed)
    (done : vfsMount mem env s root path = .ok (rc, t)) : ∀ mnt ∈ t.mounts, mnt.WellFormed := by
  rcases vfsMount_cases absolute done with ⟨-, kept⟩ | ⟨-, -, before, memory, checked, rfl⟩
  · grind
  · intro mnt member
    rcases List.mem_cons.mp member with rfl | old
    · have text := take_trimPathLen absolute
      have length := trimmedPath_length absolute
      refine ⟨?_, ?_, Nat.mod_lt _ (by decide)⟩
      · have positive : vfsTrimPathLen path ≠ 0 := fun zero => by
          rw [zero] at length
          exact trimmedPath_ne_nil path (List.length_eq_zero_iff.mp length)
        obtain ⟨n, succ⟩ := Nat.exists_eq_succ_of_ne_zero positive
        cases path with
        | nil => cases absolute
        | cons byte rest =>
          rw [newMount, succ]
          exact absolute
      · dsimp only [newMount]
        grind
    grind [Checked.mounts]

end Results

/-- After a mount: its path names the new root, the paths elsewhere name what they named,
and unmounting gives the root and the table from before back. -/
structure MountRoundTrip (env : FsEnv) (s : Vfs Unit) (root : Nat) (path : List UInt8) (t before : Vfs Unit) : Prop where
  checked : Checked ample env s path before
  resolves : vfsResolvePath ample env t path = .ok ((0, some root), t)
  others : ∀ other, ¬ components 0x2F (cString path) <+: components 0x2F (cString other) →
    vfsResolvePath ample env t other = remounted t.mounts (vfsResolvePath ample env before other)
  detached : vfsUnmountDetach ample t path = .ok ((0, some root), before)
  table : before.mounts = s.mounts

theorem PathCovers.components {stored : List UInt8} (covers : PathCovers stored text) :
    Lib.components 0x2F stored <+: Lib.components 0x2F text := by
  obtain ⟨-, rest, rfl, rfl | rfl | slash⟩ := covers
  · exact List.nil_prefix
  · simp
  · cases rest with
    | nil => cases slash
    | cons byte rest =>
      grind [Lib.components_append_sep]

section RoundTrip

variable {env : FsEnv} {before : Vfs Unit} {path : List UInt8} {root : Nat}

section

variable (absolute : path.headD 0 = 0x2F) (short : vfsTrimPathLen path < 2 ^ 16)
include absolute short

/-- The mount of a path whose length fits its field. -/
theorem addMount_stored :
    (newMount root path).stored = trimmedPath path := by
  rw [newMount, VfsMount.stored, Nat.mod_eq_of_lt short, List.take_take, Nat.min_self, take_trimPathLen absolute]

section

variable (formed : ∀ mnt ∈ (newMount root path :: before.mounts), mnt.WellFormed)
include formed

theorem addMount_resolves (free : ∀ mnt ∈ before.mounts, ¬ (mnt.pathLen = vfsTrimPathLen path ∧
      mnt.path.take (vfsTrimPathLen path) = path.take (vfsTrimPathLen path)))
    (fuel : 0 < env.fuel) :
    vfsResolvePath ample env (before.remount (newMount root path :: before.mounts)) path =
      .ok ((0, some root), before.remount (newMount root path :: before.mounts)) := by
  have length := trimmedPath_length absolute
  have stored := @addMount_stored path root absolute short
  have scanned := vfsFindMountForPath_cases (newMount root path :: before.mounts) path (vfsTrimPathLen path)
  have own : vfsPathIsPrefix path (vfsTrimPathLen path)
      (newMount root path) = true := by
    rw [vfsPathIsPrefix_iff absolute (formed _ List.mem_cons_self), stored]
    exact ⟨trimmedPath_ne_nil path, [], (List.append_nil _).symm, .inr (.inl rfl)⟩
  have chosen : vfsFindMountForPath (newMount root path :: before.mounts) path (vfsTrimPathLen path) =
      some (newMount root path) := by
    cases found : vfsFindMountForPath (newMount root path :: before.mounts) path (vfsTrimPathLen path) with
    | none =>
      grind
    | some best =>
      rw [found] at scanned
      obtain ⟨member, here, longest⟩ := scanned
      rcases List.mem_cons.mp member with rfl | old
      · rfl
      · -- Another match as long as the path has its bytes, which `vfs_mount` has refused.
        have covers := (vfsPathIsPrefix_iff absolute (formed best member)).mp here
        have atLeast := longest _ List.mem_cons_self own
        have atMost := covers.length_le
        have storedLength := (formed best member).stored_length
        rw [newMount, Nat.mod_eq_of_lt short] at atLeast
        dsimp only at atLeast
        obtain ⟨-, rest, split, -⟩ := covers
        have whole : rest = [] := by
          have total := congrArg List.length split
          rw [List.length_append] at total
          exact List.length_eq_zero_iff.mp (by omega)
        have exact' : best.pathLen = vfsTrimPathLen path := by omega
        refine absurd ⟨exact', ?_⟩ (free best old)
        rw [take_trimPathLen absolute, split, whole, List.append_nil, VfsMount.stored, exact']
  have positive : vfsTrimPathLen path ≠ 0 := fun zero => by
    rw [zero] at length
    exact trimmedPath_ne_nil path (List.length_eq_zero_iff.mp length)
  have rest : (path.take (vfsTrimPathLen path)).drop (vfsTrimPathLen path % 2 ^ 16) = [] := by
    grind [List.drop_of_length_le]
  obtain ⟨passes, more⟩ := Nat.exists_eq_succ_of_ne_zero (Nat.pos_iff_ne_zero.mp fuel)
  rw [vfsResolvePath, if_neg (not_not.mpr absolute)]
  dsimp only [Vfs.remount]
  rw [if_neg positive, chosen]
  dsimp only [newMount]
  rw [rest, more]
  simp [Lib.finish, Lib.loop, resolvePass, vfsSkipSlashes]

theorem addMount_others {other : List UInt8}
    (apart : ¬ components 0x2F (cString path) <+: components 0x2F (cString other)) :
    vfsResolvePath ample env (before.remount (newMount root path :: before.mounts)) other =
      remounted (newMount root path :: before.mounts) (vfsResolvePath ample env before other) := by
  unfold vfsResolvePath
  by_cases relative : other.headD 0 ≠ 0x2F
  · rw [if_pos relative, if_pos relative]
    rfl
  rw [if_neg relative, if_neg relative]
  dsimp only
  split
  · rfl
  have skipped : vfsFindMountForPath (before.remount (newMount root path :: before.mounts)).mounts other (vfsTrimPathLen other) =
      vfsFindMountForPath before.mounts other (vfsTrimPathLen other) := by
    have outside : vfsPathIsPrefix other (vfsTrimPathLen other)
        (newMount root path) = false := by
      refine Bool.eq_false_iff.mpr fun here => apart ?_
      have covers := (vfsPathIsPrefix_iff (not_not.mp relative) (formed _ List.mem_cons_self)).mp here
      grind [addMount_stored, components_trimmedPath, PathCovers.components]
    simp only [vfsFindMountForPath, Vfs.remount, List.foldl_cons, outside, Bool.false_and, Bool.false_eq_true, if_false]
  rw [skipped]
  cases vfsFindMountForPath before.mounts other (vfsTrimPathLen other) with
  | none => rfl
  | some mnt =>
    dsimp only
    generalize vfsSkipSlashes _ = p
    have walked := @resolve_loop_remount _ ample env before (newMount root path :: before.mounts) env.fuel p mnt.root
    rw [walked]
    cases Lib.loop (resolvePass ample env) env.fuel (p, mnt.root, before) with
    | none => rfl
    | some result => rfl

end

theorem addMount_detached :
    vfsUnmountDetach ample (before.remount (newMount root path :: before.mounts)) path = .ok ((0, some root), before) := by
  rw [vfsUnmountDetach, if_neg (not_not.mpr absolute)]
  simp only [Vfs.remount, newMount, Nat.mod_eq_of_lt short, List.take_take, Nat.min_self, and_self, decide_true,
    List.find?_cons_of_pos, List.eraseP_cons_of_pos]
  rfl

end

/-- A length that does not fit the field is not found again. -/
theorem detach_long {M : Type} {mem : Allocator M} {t : Vfs M} (absolute : path.headD 0 = 0x2F)
    (long : 2 ^ 16 ≤ vfsTrimPathLen path) (formed : ∀ mnt ∈ t.mounts, mnt.WellFormed) :
    vfsUnmountDetach mem t path = .ok ((vfsErrNoent, none), t) := by
  have none' : t.mounts.find? (fun mnt => decide (mnt.pathLen = vfsTrimPathLen path ∧
      mnt.path.take (vfsTrimPathLen path) = path.take (vfsTrimPathLen path))) = none := by
    refine List.find?_eq_none.mpr fun mnt member => ?_
    have word := (formed mnt member).word
    grind
  rw [vfsUnmountDetach, if_neg (not_not.mpr absolute)]
  simp only [none']

end RoundTrip

/-- A mount can be found and undone exactly when the length of its path fits the field
that `vfs_mount` keeps it in; one that is refused leaves the table as it was. -/
theorem vfs_mount_round_trip {env : FsEnv} {root : Nat} {path : List UInt8} (absolute : path.headD 0 = 0x2F)
    (fuel : 0 < env.fuel) :
    (∀ {M : Type} (mem : Allocator M) (s t : Vfs M) (rc : Int), vfsMount mem env s root path = .ok (rc, t) → rc ≠ 0 →
      t.mounts = s.mounts) ∧
    ∀ s t : Vfs Unit, (∀ mnt ∈ s.mounts, mnt.WellFormed) → vfsMount ample env s root path = .ok (0, t) →
      ((∃ before, MountRoundTrip env s root path t before) ↔ vfsTrimPathLen path < 2 ^ 16) := by
  refine ⟨fun mem s t rc done refused => ?_, fun s t formed done => ?_⟩
  · rcases vfsMount_cases absolute done with ⟨-, kept⟩ | ⟨zero, -⟩
    · exact kept
    omega
  · have formed' := vfsMount_formed absolute formed done
    rcases vfsMount_cases absolute done with ⟨negative, -⟩ | ⟨-, free, before, memory, checked, rfl⟩
    · omega
    refine ⟨fun ⟨_, roundTrip⟩ => ?_, fun short => ⟨before, ?_⟩⟩
    · by_contra long
      have lost := @detach_long _ _ ample _ absolute (Nat.not_lt.mp long) formed'
      rw [roundTrip.detached] at lost
      cases lost
    · have free' := checked.mounts ▸ free
      exact ⟨checked, addMount_resolves absolute short formed' free' fuel, fun _ => addMount_others absolute short formed',
        addMount_detached absolute short, checked.mounts⟩

theorem answered {M α : Type} {call : FsM (α × Vfs M)} {answer : α} (done : call.map Prod.fst = .ok answer) :
    ∃ t, call = .ok (answer, t) := by
  rcases call with halt | ⟨result, t⟩
  · cases done
  · cases done
    exact ⟨t, rfl⟩

/-- `/mnt/a` in the sample tree. -/
theorem vfs_mount_round_trip_sample :
    ∃ t before, vfsMount ample sampleEnv { sampleTree with mounts := [⟨[0x2F], 1, 0⟩] } 3 [0x2F, 0x6D, 0x6E, 0x74, 0x2F, 0x61] =
        .ok (0, t) ∧
      MountRoundTrip sampleEnv { sampleTree with mounts := [⟨[0x2F], 1, 0⟩] } 3 [0x2F, 0x6D, 0x6E, 0x74, 0x2F, 0x61]
        t before := by
  obtain ⟨t, done⟩ := answered (show (vfsMount ample sampleEnv { sampleTree with mounts := [⟨[0x2F], 1, 0⟩] } 3
    [0x2F, 0x6D, 0x6E, 0x74, 0x2F, 0x61]).map Prod.fst = .ok 0 by decide +kernel)
  have formed : ∀ mnt ∈ [(⟨[0x2F], 1, 0⟩ : VfsMount)], mnt.WellFormed := by
    rintro mnt (_ | ⟨_, ⟨⟩⟩)
    exact ⟨rfl, by decide, by decide⟩
  obtain ⟨before, roundTrip⟩ := ((vfs_mount_round_trip rfl (by decide)).2 _ _ formed done).mpr (by decide +kernel)
  grind

/-- A slash and a name. -/
def longPath (n : Nat) : List UInt8 := 0x2F :: List.replicate n 0x61

theorem trim_longPath (n : Nat) : vfsTrimPathLen (longPath n) = n + 1 := by
  have text : cString (longPath n) = longPath n := by
    refine List.takeWhile_eq_self_iff.mpr fun byte member => ?_
    rcases List.mem_cons.mp member with rfl | other
    · decide
    grind
  have length : (longPath n).length = n + 1 := by simp [longPath]
  rw [vfsTrimPathLen, vfsStrlen, text, length]
  cases n with
  | zero => rfl
  | succ n =>
    have kept : (longPath (n + 1)).rdropWhile (· = 0x2F) = longPath (n + 1) := by
      simp [longPath, List.getLast_cons]
    grind

/-- Mounted on a path of 65536 bytes, a root cannot be found and cannot be unmounted. -/
theorem long_mount_is_lost :
    ∃ t, vfsMount ample sampleEnv sampleTree 3 (longPath 65535) = .ok (0, t) ∧
      (vfsResolvePath ample sampleEnv t (longPath 65535)).map Prod.fst = .ok (vfsErrNoent, none) ∧
      vfsUnmountDetach ample t (longPath 65535) = .ok ((vfsErrNoent, none), t) ∧ t.mounts ≠ sampleTree.mounts := by
  have absolute : (longPath 65535).headD 0 = 0x2F := rfl
  have mounted : vfsMount ample sampleEnv sampleTree 3 (longPath 65535) =
      .ok (0, sampleTree.remount [newMount 3 (longPath 65535)]) := by
    rw [vfsMount, if_neg (not_not.mpr absolute), newMount]
    simp only [trim_longPath]
    rfl
  have formed := vfsMount_formed absolute (by simp [sampleTree]) mounted
  refine ⟨_, mounted, ?_, detach_long absolute (le_of_eq (trim_longPath 65535).symm) formed, List.cons_ne_nil _ _⟩
  rw [vfsResolvePath, if_neg (not_not.mpr absolute)]
  simp only [Vfs.remount, newMount, trim_longPath]
  rfl

end Velox
