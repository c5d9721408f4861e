import Velox.Fs.Vfs
import Velox.Lib.Split
import Mathlib.Data.List.Pairwise

namespace Velox

open Lib (components)

variable {text p : List UInt8} {other : VfsMount} {node : Nat}

/-- `path[0..path_len)` of a mount. -/
def VfsMount.stored (mnt : VfsMount) : List UInt8 := mnt.path.take mnt.pathLen

/-- The path without the slashes at its end. -/
def trimmedPath (path : List UInt8) : List UInt8 :=
  let text := (cString path).rdropWhile (· = 0x2F)
  if text = [] then [0x2F] else text

/-- The stored path leads to a component boundary of the path. -/
def PathCovers (stored path : List UInt8) : Prop :=
  stored ≠ [] ∧ ∃ rest, path = stored ++ rest ∧ (stored = [0x2F] ∨ rest = [] ∨ rest.head? = some 0x2F)

/-- The mount with the longest stored path that covers a path. -/
structure LongestMatch (mounts : List VfsMount) (path : List UInt8) (mnt : VfsMount) : Prop where
  member : mnt ∈ mounts
  covers : PathCovers mnt.stored path
  longest : ∀ other ∈ mounts, PathCovers other.stored path → other = mnt ∨ other.stored.length < mnt.stored.length

section Text

variable {path : List UInt8}

theorem cString_take (path : List UInt8) : path.take (cString path).length = cString path :=
  List.prefix_iff_eq_take.mp (List.takeWhile_prefix _) |>.symm

theorem take_of_prefix (start : text <+: cString path) : path.take text.length = text := by
  obtain ⟨rest, whole⟩ := start
  have first : text <+: path := ⟨rest ++ path.drop (cString path).length, by
    grind [List.take_append_drop, cString_take]⟩
  exact (List.prefix_iff_eq_take.mp first).symm

theorem cString_absolute (absolute : path.headD 0 = 0x2F) : ∃ rest, cString path = 0x2F :: rest := by
  cases path with
  | nil => cases absolute
  | cons byte rest =>
    obtain rfl : byte = 0x2F := absolute
    exact ⟨cString rest, by simp [cString]⟩

theorem trimmedPath_length (absolute : path.headD 0 = 0x2F) : (trimmedPath path).length = vfsTrimPathLen path := by
  obtain ⟨rest, text⟩ := cString_absolute absolute
  unfold trimmedPath vfsTrimPathLen vfsStrlen
  dsimp only
  split
  · grind
  · rename_i some'
    have positive := List.length_pos_iff.mpr some'
    omega

/-- The bytes that the code takes as the path. -/
theorem take_trimPathLen (absolute : path.headD 0 = 0x2F) : path.take (vfsTrimPathLen path) = trimmedPath path := by
  rw [← trimmedPath_length absolute]
  refine take_of_prefix ?_
  unfold trimmedPath
  grind [cString_absolute, List.rdropWhile_prefix]

theorem components_trimmedPath (path : List UInt8) :
    components 0x2F (trimmedPath path) = components 0x2F (cString path) := by
  unfold trimmedPath
  dsimp only
  split
  · rename_i empty
    rw [← @Lib.components_rdropWhile _ _ _ (cString path), empty]
    rfl
  simp

theorem trimmedPath_ne_nil (path : List UInt8) : trimmedPath path ≠ [] := by
  unfold trimmedPath
  grind

theorem trimmedPath_absolute (absolute : path.headD 0 = 0x2F) : ∃ rest, trimmedPath path = 0x2F :: rest := by
  have text := take_trimPathLen absolute
  have length := trimmedPath_length absolute
  cases shape : trimmedPath path with
  | nil => exact absurd shape (trimmedPath_ne_nil path)
  | cons byte rest =>
    cases path with
    | nil => cases absolute
    | cons first others =>
      grind

end Text

/-- A mount as `vfs_mount` makes it. -/
structure VfsMount.WellFormed (mnt : VfsMount) : Prop where
  absolute : mnt.path.headD 0 = 0x2F
  fits : mnt.pathLen ≤ mnt.path.length
  word : mnt.pathLen < 2 ^ 16

theorem PathCovers.length_le {stored path : List UInt8} (covers : PathCovers stored path) : stored.length ≤ path.length := by
  obtain ⟨-, rest, rfl, -⟩ := covers
  simp

section Selection

variable {path : List UInt8} {mnt : VfsMount} {mounts : List VfsMount}

theorem VfsMount.WellFormed.stored_length (formed : mnt.WellFormed) : mnt.stored.length = mnt.pathLen := by
  rw [VfsMount.stored, List.length_take, Nat.min_eq_left formed.fits]

theorem covers_iff {stored : List UInt8} (long : 2 ≤ stored.length) :
    PathCovers stored text ↔ stored.length ≤ text.length ∧ text.take stored.length = stored ∧
      (text.length = stored.length ∨ text.getD stored.length 0 = 0x2F) := by
  have some' : stored ≠ [] := fun empty => by simp [empty] at long
  have other : stored ≠ [0x2F] := fun one => by simp [one] at long
  constructor
  · rintro ⟨-, rest, rfl, root | stop | slash⟩
    · exact absurd root other
    · subst stop
      simp
    · cases rest with
      | nil => cases slash
      | cons byte rest =>
        grind
  · rintro ⟨-, start, boundary⟩
    refine ⟨some', text.drop stored.length, ?_, .inr ?_⟩
    · grind [List.take_append_drop]
    grind [List.head?_drop]

/-- The test that the code makes is the test for a cover. -/
theorem vfsPathIsPrefix_iff (absolute : path.headD 0 = 0x2F) (formed : mnt.WellFormed) :
    vfsPathIsPrefix path (vfsTrimPathLen path) mnt = true ↔ PathCovers mnt.stored (trimmedPath path) := by
  have length := trimmedPath_length absolute
  have text := take_trimPathLen absolute
  unfold vfsPathIsPrefix
  by_cases none' : mnt.pathLen = 0
  · have empty : mnt.stored = [] := by rw [VfsMount.stored, none', List.take_zero]
    simp [none', PathCovers, empty]
  by_cases one : mnt.pathLen = 1
  · obtain ⟨rest, start⟩ := trimmedPath_absolute absolute
    have root : mnt.stored = [0x2F] := by
      have head := formed.absolute
      cases shape : mnt.path with
      | nil => simp [shape] at head
      | cons byte others =>
        rw [shape] at head
        obtain rfl : byte = 0x2F := head
        simp [VfsMount.stored, one, shape]
    have covers : PathCovers mnt.stored (trimmedPath path) :=
      ⟨by simp [root], rest, by rw [root, start]; rfl, .inl root⟩
    grind
  · have storedLength := formed.stored_length
    rw [covers_iff (by omega), storedLength, length, if_neg none', if_neg one]
    by_cases short : vfsTrimPathLen path < mnt.pathLen
    · grind
    have same : (trimmedPath path).take mnt.pathLen = path.take mnt.pathLen := by
      grind
    rw [if_neg short, same, ← VfsMount.stored]
    grind

/-- What the scan over the mounts keeps: a match that no other is longer than. -/
theorem vfsFindMountForPath_cases (mounts : List VfsMount) (path : List UInt8) (pathLen : Nat) :
    match vfsFindMountForPath mounts path pathLen with
    | none => ∀ mnt ∈ mounts, vfsPathIsPrefix path pathLen mnt = false
    | some best => best ∈ mounts ∧ vfsPathIsPrefix path pathLen best = true ∧
        ∀ mnt ∈ mounts, vfsPathIsPrefix path pathLen mnt = true → mnt.pathLen ≤ best.pathLen := by
  unfold vfsFindMountForPath
  induction mounts using List.reverseRecOn with
  | nil => simp
  | append_singleton before last ih =>
    rw [List.foldl_append, List.foldl_cons, List.foldl_nil]
    grind

/-- A mount table as calls of `vfs_mount` make it, no two mounts of which have the same
stored path. -/
structure MountTable (mounts : List VfsMount) : Prop where
  formed : ∀ mnt ∈ mounts, mnt.WellFormed
  distinct : mounts.Pairwise fun mnt other => mnt.stored ≠ other.stored

theorem MountTable.unique (table : MountTable mounts) (member : mnt ∈ mounts)
    (member' : other ∈ mounts) (same : mnt.stored = other.stored) : mnt = other := by
  have : Std.Symm fun mnt other : VfsMount => mnt.stored ≠ other.stored := ⟨fun _ _ apart => apart.symm⟩
  by_contra differ
  exact table.distinct.forall member member' differ same

theorem PathCovers.eq_of_length {stored other : List UInt8} (covers : PathCovers stored text)
    (covers' : PathCovers other text)
    (length : stored.length = other.length) : stored = other := by
  obtain ⟨-, rest, rfl, -⟩ := covers
  obtain ⟨-, rest', same, -⟩ := covers'
  exact (List.append_inj same length).1

theorem LongestMatch.unique (longest : LongestMatch mounts text mnt)
    (longest' : LongestMatch mounts text other) : mnt = other := by
  rcases longest.longest other longest'.member longest'.covers with same | shorter
  · exact same.symm
  rcases longest'.longest mnt longest.member longest.covers with same | shorter'
  · exact same
  · omega

/-- The scan finds the longest match. -/
theorem vfsFindMountForPath_iff (table : MountTable mounts) (absolute : path.headD 0 = 0x2F) :
    vfsFindMountForPath mounts path (vfsTrimPathLen path) = some mnt ↔ LongestMatch mounts (trimmedPath path) mnt := by
  have scanned := vfsFindMountForPath_cases mounts path (vfsTrimPathLen path)
  have tested : ∀ mnt ∈ mounts, _ := fun mnt member => vfsPathIsPrefix_iff absolute (table.formed mnt member)
  have found : ∀ best, vfsFindMountForPath mounts path (vfsTrimPathLen path) = some best →
      LongestMatch mounts (trimmedPath path) best := by
    intro best found
    rw [found] at scanned
    obtain ⟨member, here, longest⟩ := scanned
    have covers := (tested best member).mp here
    refine ⟨member, covers, fun other inside covers' => ?_⟩
    grind [VfsMount.WellFormed.stored_length, MountTable.formed, MountTable.unique, PathCovers.eq_of_length]
  refine ⟨found mnt, fun longest => ?_⟩
  cases chosen : vfsFindMountForPath mounts path (vfsTrimPathLen path) with
  | none =>
    have here := (tested mnt longest.member).mpr longest.covers
    grind [LongestMatch.member]
  | some best => rw [(found best chosen).unique longest]

theorem vfsFindMountForPath_perm {order : List VfsMount} (table : MountTable mounts) (absolute : path.headD 0 = 0x2F)
    (reordered : order.Perm mounts) :
    vfsFindMountForPath order path (vfsTrimPathLen path) = vfsFindMountForPath mounts path (vfsTrimPathLen path) := by
  have table' : MountTable order :=
    ⟨fun mnt member => table.formed mnt (reordered.mem_iff.mp member),
      (reordered.pairwise_iff fun apart => apart.symm).mpr table.distinct⟩
  refine Option.ext fun mnt => ?_
  rw [vfsFindMountForPath_iff table' absolute, vfsFindMountForPath_iff table absolute]
  constructor
  · intro longest
    exact ⟨reordered.mem_iff.mp longest.member, longest.covers,
      fun other member => longest.longest other (reordered.mem_iff.mpr member)⟩
  · intro longest
    exact ⟨reordered.mem_iff.mpr longest.member, longest.covers,
      fun other member => longest.longest other (reordered.mem_iff.mp member)⟩

end Selection

section Walk

variable {M : Type} {mem : Allocator M} {env : FsEnv} {s : Vfs M} {path : List UInt8}

/-- The walk over the components of a path: the first one that is too long, is not
there, or is no directory although another follows, ends it. -/
def resolveComponents {M : Type} (mem : Allocator M) (env : FsEnv) (s : Vfs M) (node : Nat) :
    List (List UInt8) → FsM ((Int × Option Nat) × Vfs M)
  | [] => .ok ((0, some node), s)
  | name :: rest =>
    if vfsNameMax < name.length then .ok ((vfsErrNametoolong, none), s)
    else do
      match ← vfsLookupChild mem env s node name with
      | (none, s) => return ((vfsErrNoent, none), s)
      | (some child, s) =>
        let found ← s.node child
        if rest ≠ [] ∧ found.type &&& vfsNodeDir = 0 then return ((vfsErrNotdir, none), s)
        resolveComponents mem env s child rest

theorem skipSlashes_head (p : List UInt8) : (vfsSkipSlashes p).head? ≠ some 0x2F := by
  intro slash
  have stopped := List.head?_dropWhile_not (fun byte => decide (byte = 0x2F)) p
  rw [vfsSkipSlashes] at slash
  grind

theorem skipSlashes_eq_nil (start : p.head? ≠ some 0x2F) (none' : components 0x2F p = []) : p = [] := by
  by_contra some'
  rw [(Lib.components_cons some' start).2] at none'
  cases none'

/-- The loop of `vfs_resolve_path` is the walk over the components. -/
theorem resolve_loop {fuel : Nat} (start : p.head? ≠ some 0x2F)
    (enough : (components 0x2F p).length < fuel) :
    Lib.loop (resolvePass mem env) fuel (p, node, s) = some (resolveComponents mem env s node (components 0x2F p)) := by
  induction fuel generalizing s node p with
  | zero => omega
  | succ fuel ih =>
    by_cases empty : p = []
    · subst empty
      rfl
    obtain ⟨some', split⟩ := Lib.components_cons empty start
    have length : (p.takeWhile (· ≠ 0x2F)).length ≠ 0 := fun zero => some' (List.length_eq_zero_iff.mp zero)
    rw [split, List.length_cons] at enough
    rw [split, Lib.loop, resolvePass, if_neg empty, resolveComponents]
    rw [if_neg length]
    by_cases long : vfsNameMax < (p.takeWhile (· ≠ 0x2F)).length
    · grind
    rw [if_neg long, if_neg long]
    have skipped := @Lib.components_dropWhile _ _ 0x2F (p.drop (p.takeWhile (· ≠ 0x2F)).length)
    have last : vfsSkipSlashes (p.drop (p.takeWhile (· ≠ 0x2F)).length) ≠ [] ↔
        components 0x2F (p.drop (p.takeWhile (· ≠ 0x2F)).length) ≠ [] := by
      rw [← skipped, ← vfsSkipSlashes]
      refine not_congr ⟨fun nil => by rw [nil]; rfl, skipSlashes_eq_nil (skipSlashes_head _)⟩
    cases vfsLookupChild mem env s node (p.takeWhile (· ≠ 0x2F)) with
    | error halt => rfl
    | ok result =>
      obtain ⟨_ | child, s'⟩ := result
      · rfl
      · dsimp only [bind, Except.bind]
        cases s'.node child with
        | error halt => rfl
        | ok found =>
          simp only [last]
          by_cases stuck : components 0x2F (p.drop (p.takeWhile (· ≠ 0x2F)).length) ≠ [] ∧ found.type &&& vfsNodeDir = 0
          · rw [if_pos stuck, if_pos stuck]
            rfl
          · rw [if_neg stuck, if_neg stuck]
            dsimp only
            rw [ih (skipSlashes_head _) (by rw [vfsSkipSlashes, skipped]; omega), vfsSkipSlashes, skipped]

/-- The rest of the path behind a mount point has the components that are walked. -/
theorem components_rest {pathLen : Nat} :
    components 0x2F (vfsSkipSlashes (if 1 < pathLen ∧ p.headD 0 = 0x2F then p.drop 1 else p)) = components 0x2F p := by
  rw [vfsSkipSlashes, Lib.components_dropWhile]
  split
  · rename_i slash
    cases p with
    | nil => rfl
    | cons byte rest =>
      obtain rfl : byte = 0x2F := slash.2
      simp
  · rfl

/-- `vfs_resolve_path` up to its loop. -/
theorem vfsResolvePath_loop (absolute : path.headD 0 = 0x2F) : vfsResolvePath mem env s path =
      match vfsFindMountForPath s.mounts path (vfsTrimPathLen path) with
      | none => .ok ((vfsErrNoent, none), s)
      | some mnt =>
        let p := (trimmedPath path).drop mnt.pathLen
        let p := if 1 < mnt.pathLen ∧ p.headD 0 = 0x2F then p.drop 1 else p
        Lib.finish (Lib.loop (resolvePass mem env) env.fuel (vfsSkipSlashes p, mnt.root, s)) := by
  have length := trimmedPath_length absolute
  have positive : vfsTrimPathLen path ≠ 0 := fun zero => by
    rw [zero] at length
    exact trimmedPath_ne_nil path (List.length_eq_zero_iff.mp length)
  rw [vfsResolvePath, if_neg (not_not.mpr absolute)]
  grind [take_trimPathLen]

theorem vfsResolvePath_eq (absolute : path.headD 0 = 0x2F) (enough : path.length < env.fuel) :
    vfsResolvePath mem env s path = match vfsFindMountForPath s.mounts path (vfsTrimPathLen path) with
      | none => .ok ((vfsErrNoent, none), s)
      | some mnt => resolveComponents mem env s mnt.root (components 0x2F ((trimmedPath path).drop mnt.pathLen)) := by
  rw [vfsResolvePath_loop absolute]
  cases vfsFindMountForPath s.mounts path (vfsTrimPathLen path) with
  | none => rfl
  | some mnt =>
    dsimp only
    rw [resolve_loop (skipSlashes_head _), components_rest]
    · rfl
    · rw [components_rest]
      refine lt_of_le_of_lt Lib.components_length (lt_of_le_of_lt ?_ enough)
      rw [← take_trimPathLen absolute, List.length_drop, List.length_take]
      omega

/-- A path that was resolved, in however many passes. -/
theorem vfsResolvePath_found (absolute : path.headD 0 = 0x2F) {mnt : VfsMount}
    (covers : vfsFindMountForPath s.mounts path (vfsTrimPathLen path) = some mnt) {answer : (Int × Option Nat) × Vfs M}
    (done : vfsResolvePath mem env s path = .ok answer) :
    resolveComponents mem env s mnt.root (components 0x2F ((trimmedPath path).drop mnt.pathLen)) = .ok answer := by
  rw [vfsResolvePath_loop absolute, covers] at done
  have ended := Lib.finish_ok done
  have same := Lib.loop_unique ended (resolve_loop (skipSlashes_head _) (Nat.lt_succ_self _))
  rw [components_rest] at same
  exact same.symm

theorem resolveComponents_out {names : List (List UInt8)} {rc : Int} {out : Option Nat} {s' : Vfs M}
    (done : resolveComponents mem env s node names = .ok ((rc, out), s')) : out.isSome ↔ rc = 0 := by
  induction names generalizing s node with
  | nil =>
    cases done
    simp
  | cons name rest ih =>
    rw [resolveComponents] at done
    split at done
    · cases done
      decide
    obtain ⟨⟨_ | child, s₁⟩, -, onward⟩ := Lib.bind_ok done
    · cases onward
      decide
    · obtain ⟨found, -, onward⟩ := Lib.bind_ok onward
      split at onward
      · cases onward
        decide
      · exact ih onward

end Walk

/-- `vfs_resolve_path` walks from the root of the longest match over the components
behind it, in whatever order the mounts are listed. -/
theorem vfs_resolve_path_meets_spec {M : Type} {mem : Allocator M} {env : FsEnv} {s : Vfs M} {path : List UInt8}
    (table : MountTable s.mounts) (absolute : path.headD 0 = 0x2F) (enough : path.length < env.fuel) :
    (∀ mnt rest, LongestMatch s.mounts (trimmedPath path) mnt → trimmedPath path = mnt.stored ++ rest →
      vfsResolvePath mem env s path = resolveComponents mem env s mnt.root (components 0x2F rest)) ∧
    ((∀ mnt ∈ s.mounts, ¬ PathCovers mnt.stored (trimmedPath path)) →
      vfsResolvePath mem env s path = .ok ((vfsErrNoent, none), s)) ∧
    ((∃ mnt ∈ s.mounts, PathCovers mnt.stored (trimmedPath path)) →
      ∃! mnt, LongestMatch s.mounts (trimmedPath path) mnt) ∧
    (∀ order, order.Perm s.mounts → vfsFindMountForPath order path (vfsTrimPathLen path) =
      vfsFindMountForPath s.mounts path (vfsTrimPathLen path)) ∧
    ∀ rc out s', vfsResolvePath mem env s path = .ok ((rc, out), s') → (out.isSome ↔ rc = 0) := by
  have scanned := vfsFindMountForPath_cases s.mounts path (vfsTrimPathLen path)
  rw [vfsResolvePath_eq absolute enough]
  refine ⟨fun mnt rest longest split => ?_, fun uncovered => ?_, fun ⟨mnt, member, covers⟩ => ?_,
    fun order reordered => vfsFindMountForPath_perm table absolute reordered, fun rc out s' done => ?_⟩
  · rw [(vfsFindMountForPath_iff table absolute).mpr longest]
    dsimp only
    rw [split, ← (table.formed mnt longest.member).stored_length, List.drop_left]
  · cases chosen : vfsFindMountForPath s.mounts path (vfsTrimPathLen path) with
    | none => rfl
    | some mnt =>
      have longest := (vfsFindMountForPath_iff table absolute).mp chosen
      exact absurd longest.covers (uncovered mnt longest.member)
  · cases chosen : vfsFindMountForPath s.mounts path (vfsTrimPathLen path) with
    | none =>
      have here := (vfsPathIsPrefix_iff absolute (table.formed mnt member)).mpr covers
      grind
    | some best =>
      have longest := (vfsFindMountForPath_iff table absolute).mp chosen
      exact ⟨best, longest, fun other found => found.unique longest⟩
  · split at done
    · cases done
      decide
    · exact resolveComponents_out done

/-- A tree without a file system of its own: `/mnt/a` in one part, and a part with the
file `x`. -/
def sampleTree : Vfs Unit where
  nodes := fun address => [
    { name := [], type := vfsNodeDir, size := 0, ops := none, data := none, parent := none, firstChild := some 1, nextSibling := none },
    { name := [0x6D, 0x6E, 0x74], type := vfsNodeDir, size := 0, ops := none, data := none, parent := some 0, firstChild := some 2, nextSibling := none },
    { name := [0x61], type := vfsNodeDir, size := 0, ops := none, data := none, parent := some 1, firstChild := none, nextSibling := none },
    { name := [], type := vfsNodeDir, size := 0, ops := none, data := none, parent := none, firstChild := some 4, nextSibling := none },
    { name := [0x78], type := vfsNodeFile, size := 9, ops := none, data := none, parent := some 3, firstChild := none, nextSibling := none }][address]?
  fresh := 5
  mounts := []
  files := fun _ => none
  opened := 0
  memory := ()
  buffers := 0

/-- The second part mounted on `/mnt/a` of the first. -/
def sampleMounted : Vfs Unit :=
  { sampleTree with mounts := [⟨[0x2F, 0x6D, 0x6E, 0x74, 0x2F, 0x61], 6, 3⟩, ⟨[0x2F], 1, 0⟩] }

def sampleEnv : FsEnv := ⟨⟨⟨true, fun _ _ => true, fun _ => 0⟩, []⟩, 100, fun _ _ => 0⟩

/-- `/mnt/a//x/` and the path `/mnt/ab`, which only looks like the mount point. -/
theorem vfs_resolve_path_meets_spec_sample :
    (vfsResolvePath ample sampleEnv sampleMounted [0x2F, 0x6D, 0x6E, 0x74, 0x2F, 0x61, 0x2F, 0x2F, 0x78, 0x2F]).map Prod.fst =
        .ok (0, some 4) ∧
      (vfsResolvePath ample sampleEnv sampleMounted [0x2F, 0x6D, 0x6E, 0x74, 0x2F, 0x61, 0x62]).map Prod.fst =
        .ok (vfsErrNoent, none) := by
  have table : MountTable sampleMounted.mounts :=
    ⟨by simp only [sampleMounted, List.forall_mem_cons]; exact ⟨⟨rfl, by decide, by decide⟩, ⟨rfl, by decide, by decide⟩, by simp⟩, by decide⟩
  constructor
  · obtain ⟨resolved, -⟩ := @vfs_resolve_path_meets_spec _ ample sampleEnv sampleMounted
      [0x2F, 0x6D, 0x6E, 0x74, 0x2F, 0x61, 0x2F, 0x2F, 0x78, 0x2F] table rfl (by decide)
    rw [resolved ⟨[0x2F, 0x6D, 0x6E, 0x74, 0x2F, 0x61], 6, 3⟩ [0x2F, 0x2F, 0x78]
      ((vfsFindMountForPath_iff table rfl).mp (by decide +kernel)) (by decide +kernel)]
    decide +kernel
  · obtain ⟨resolved, -⟩ := @vfs_resolve_path_meets_spec _ ample sampleEnv sampleMounted
      [0x2F, 0x6D, 0x6E, 0x74, 0x2F, 0x61, 0x62] table rfl (by decide)
    rw [resolved ⟨[0x2F], 1, 0⟩ [0x6D, 0x6E, 0x74, 0x2F, 0x61, 0x62]
      ((vfsFindMountForPath_iff table rfl).mp (by decide +kernel)) (by decide +kernel)]
    decide +kernel

end Velox
