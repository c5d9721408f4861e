import Velox.Fs.VfsMounts

namespace Velox

open Lib (components)

variable {path : List UInt8} {node : Nat}

/-- The root of the mount chosen for a path and the components left to walk. -/
def mountTarget (mounts : List VfsMount) (path : List UInt8) : Option (Nat × List (List UInt8)) :=
  (vfsFindMountForPath mounts path (vfsTrimPathLen path)).map fun mnt =>
    (mnt.root, components 0x2F ((trimmedPath path).drop mnt.pathLen))

/-- What a walk can see of its components: those before the first one that is too long,
and whether there is one. -/
def readable (names : List (List UInt8)) : List (List UInt8) × Bool :=
  (names.takeWhile (·.length ≤ vfsNameMax), names.any (vfsNameMax < ·.length))

/-- The walks start at one root and see the same components, or both see at once a
component that is too long. -/
def SameTarget : Option (Nat × List (List UInt8)) → Option (Nat × List (List UInt8)) → Prop
  | none, none => True
  | some (root, names), some (root', names') =>
    readable names = readable names' ∧ (root = root' ∨ readable names = ([], true))
  | _, _ => False

section Readable

variable {M : Type} {mem : Allocator M} {env : FsEnv} {s : Vfs M} {name : List UInt8} {names others : List (List UInt8)}

theorem readable_long (long : vfsNameMax < name.length) : readable (name :: names) = ([], true) := by
  simp [readable, long]

theorem readable_short (short : ¬ vfsNameMax < name.length) :
    readable (name :: names) = (name :: (readable names).1, (readable names).2) := by
  simp [readable, short, Nat.not_lt.mp short]

theorem readable_eq_nil (none' : readable names = ([], false)) : names = [] := by
  cases names with
  | nil => rfl
  | cons name rest =>
    grind [readable_long, readable_short]

/-- A component that is too long comes first. -/
theorem readable_eq_long (none' : readable names = ([], true)) :
    ∃ name rest, names = name :: rest ∧ vfsNameMax < name.length := by
  cases names with
  | nil => cases none'
  | cons name rest =>
    grind [readable_short]

theorem resolveComponents_long (none' : readable names = ([], true)) :
    resolveComponents mem env s node names = .ok ((vfsErrNametoolong, none), s) := by
  obtain ⟨name, rest, rfl, long⟩ := readable_eq_long none'
  rw [resolveComponents, if_pos long]

/-- A walk sees nothing else of its components. -/
theorem resolveComponents_readable (same : readable names = readable others) :
    resolveComponents mem env s node names = resolveComponents mem env s node others := by
  induction names generalizing s node others with
  | nil => rw [readable_eq_nil same.symm]
  | cons name rest ih =>
    by_cases long : vfsNameMax < name.length
    · rw [readable_long long] at same
      rw [resolveComponents_long (readable_long long), resolveComponents_long same.symm]
    · rw [readable_short long] at same
      cases others with
      | nil => cases same
      | cons name' rest' =>
        by_cases long' : vfsNameMax < name'.length
        · grind [readable_long]
        rw [readable_short long'] at same
        obtain ⟨first, flag⟩ := Prod.mk.inj same
        obtain ⟨rfl, before⟩ := List.cons.inj first
        have onward : readable rest = readable rest' := Prod.ext before flag
        have ends : rest = [] ↔ rest' = [] := by
          constructor
          · rintro rfl
            exact readable_eq_nil onward.symm
          · rintro rfl
            exact readable_eq_nil onward
        rw [resolveComponents, resolveComponents, if_neg long, if_neg long]
        simp only [ne_eq, ends, ih onward]

end Readable

/-- The walk that a target stands for. -/
def resolveTarget {M : Type} (mem : Allocator M) (env : FsEnv) (s : Vfs M) :
    Option (Nat × List (List UInt8)) → FsM ((Int × Option Nat) × Vfs M)
  | none => .ok ((vfsErrNoent, none), s)
  | some (root, names) => resolveComponents mem env s root names

theorem vfsResolvePath_target {M : Type} {mem : Allocator M} {env : FsEnv} {s : Vfs M} (absolute : path.headD 0 = 0x2F)
    (enough : path.length < env.fuel) :
    vfsResolvePath mem env s path = resolveTarget mem env s (mountTarget s.mounts path) := by
  rw [vfsResolvePath_eq absolute enough, mountTarget]
  cases vfsFindMountForPath s.mounts path (vfsTrimPathLen path) with
  | none => rfl
  | some mnt => rfl

/-- A node of a tree that has no file system of its own. -/
def plainNode (name : List UInt8) (type : Nat) (child : Option Nat) : VfsNode where
  name := name
  type := type
  size := 0
  ops := none
  data := none
  parent := none
  firstChild := child
  nextSibling := none

section Plain

variable {M : Type} {mem : Allocator M} {env : FsEnv} {s : Vfs M} {node : Nat} {own name : List UInt8} {type : Nat}

theorem lookup_plain_empty (here : s.nodes node = some (plainNode own type none)) (enough : 1 < env.fuel) :
    vfsLookupChild mem env s node name = .ok (none, s) := by
  obtain ⟨fuel, more⟩ : ∃ fuel, env.fuel = fuel + 1 := ⟨env.fuel - 1, by omega⟩
  simp [vfsLookupChild, Vfs.node, here, plainNode, vfsFindChild, findChild, findChildPass, Lib.loop, Lib.finish, more,
    bind, Except.bind, pure, Except.pure]

theorem lookup_plain_child {child : Nat} {childName : List UInt8} {childType : Nat} {below : Option Nat}
    (here : s.nodes node = some (plainNode own type (some child)))
    (there : s.nodes child = some (plainNode childName childType below)) (enough : 1 < env.fuel) :
    vfsLookupChild mem env s node name = .ok (if cString childName = cString name then some child else none, s) := by
  obtain ⟨fuel, more⟩ : ∃ fuel, env.fuel = fuel + 2 := ⟨env.fuel - 2, by omega⟩
  by_cases same : cString childName = cString name
  · simp [vfsLookupChild, Vfs.node, here, there, plainNode, vfsFindChild, findChild, findChildPass, Lib.loop, Lib.finish,
      more, bind, Except.bind, pure, Except.pure, same]
  · simp [vfsLookupChild, Vfs.node, here, there, plainNode, vfsFindChild, findChild, findChildPass, Lib.loop, Lib.finish,
      more, bind, Except.bind, pure, Except.pure, same]

/-- Where a walk ends that starts in an empty directory. -/
def emptyResult (node : Nat) : List (List UInt8) → Int × Option Nat
  | [] => (0, some node)
  | name :: _ => if vfsNameMax < name.length then (vfsErrNametoolong, none) else (vfsErrNoent, none)

theorem resolve_empty (here : s.nodes node = some (plainNode own type none)) (enough : 1 < env.fuel)
    (names : List (List UInt8)) : resolveComponents mem env s node names = .ok (emptyResult node names, s) := by
  cases names with
  | nil => rfl
  | cons name rest =>
    rw [resolveComponents, emptyResult]
    split
    · rfl
    · rw [lookup_plain_empty here enough]
      rfl

/-- With a file in it, a walk over the name of the file does not miss it. -/
theorem resolve_file {child : Nat} {childName : List UInt8} {rest : List (List UInt8)}
    (here : s.nodes node = some (plainNode own type (some child)))
    (there : s.nodes child = some (plainNode childName vfsNodeFile none)) (enough : 1 < env.fuel)
    (short : ¬ vfsNameMax < name.length) :
    ∃ result, resolveComponents mem env s node (name :: rest) = .ok (result, s) ∧
      (cString childName = cString name → result ≠ (vfsErrNoent, none)) ∧
      (cString childName ≠ cString name → result = (vfsErrNoent, none)) := by
  rw [resolveComponents, if_neg short, lookup_plain_child here there enough]
  by_cases same : cString childName = cString name
  · rw [if_pos same]
    dsimp only [bind, Except.bind]
    rw [Vfs.node_eq there]
    dsimp only
    by_cases last : rest = []
    · subst last
      exact ⟨(0, some child), rfl, fun _ none' => Option.some_ne_none _ (congrArg Prod.snd none'), fun other => absurd same other⟩
    · rw [if_pos ⟨last, show vfsNodeFile &&& vfsNodeDir = 0 by decide⟩]
      exact ⟨_, rfl, fun _ => by decide, fun other => absurd same other⟩
  · rw [if_neg same]
    exact ⟨_, rfl, fun equal => absurd equal same, fun _ => rfl⟩

end Plain

/-- A row of directories, each in the one before it, from `root` on, the last with at
most one file in it; all other nodes are empty directories. -/
def chainTree (mounts : List VfsMount) (root base : Nat) (dirs : List (List UInt8)) (file : Option (List UInt8)) : Vfs Unit where
  nodes := fun address =>
    let names := dirs ++ file.toList
    let child (i : Nat) : Option Nat := if i < names.length then some (base + i) else none
    if address = root then some (plainNode [] vfsNodeDir (child 0))
    else if address < base then some (plainNode [] vfsNodeDir none)
    else
      match names[address - base]? with
      | none => some (plainNode [] vfsNodeDir none)
      | some name =>
        some (plainNode name (if address - base < dirs.length then vfsNodeDir else vfsNodeFile) (child (address - base + 1)))
  fresh := base + dirs.length + 1
  mounts := mounts
  files := fun _ => none
  opened := 0
  memory := ()
  buffers := 0

section ChainTree

variable {env : FsEnv} {mounts : List VfsMount} {root base : Nat} {dirs : List (List UInt8)} {file : Option (List UInt8)}

/-- The directories of the row, by their depth. -/
def chainPlace (root base : Nat) : Nat → Nat
  | 0 => root
  | depth + 1 => base + depth

theorem chainTree_node (below : root < base) {i : Nat} {name : List UInt8} (here : (dirs ++ file.toList)[i]? = some name) :
    (chainTree mounts root base dirs file).nodes (base + i) =
      some (plainNode name (if i < dirs.length then vfsNodeDir else vfsNodeFile)
        (if i + 1 < (dirs ++ file.toList).length then some (base + (i + 1)) else none)) := by
  have other : base + i ≠ root := by omega
  have behind : ¬ base + i < base := by omega
  simp only [chainTree, if_neg other, if_neg behind, Nat.add_sub_cancel_left, here]

theorem chainTree_place (below : root < base) {i : Nat} (inside : i ≤ dirs.length) :
    ∃ own, (chainTree mounts root base dirs file).nodes (chainPlace root base i) =
      some (plainNode own vfsNodeDir (if i < (dirs ++ file.toList).length then some (base + i) else none)) := by
  cases i with
  | zero => exact ⟨[], by simp only [chainPlace, chainTree, if_true]⟩
  | succ i =>
    have here : (dirs ++ file.toList)[i]? = some (dirs.get ⟨i, inside⟩) := by
      grind
    refine ⟨dirs.get ⟨i, inside⟩, ?_⟩
    rw [chainPlace, chainTree_node below here, if_pos (show i < dirs.length from inside)]

/-- A walk over the names of the row reaches its end. -/
theorem chainTree_follow (below : root < base) (enough : 1 < env.fuel) (short : ∀ name ∈ dirs, ¬ vfsNameMax < name.length)
    (rest : List (List UInt8)) {i : Nat} (inside : i ≤ dirs.length) :
    resolveComponents ample env (chainTree mounts root base dirs file) (chainPlace root base i) (dirs.drop i ++ rest) =
      resolveComponents ample env (chainTree mounts root base dirs file) (chainPlace root base dirs.length) rest := by
  obtain ⟨left, total⟩ := Nat.exists_eq_add_of_le inside
  induction left generalizing i with
  | zero =>
    grind
  | succ left ih =>
    have more : i < dirs.length := by omega
    obtain ⟨own, here⟩ := @chainTree_place mounts root base dirs file below i inside
    have here' : (dirs ++ file.toList)[i]? = some (dirs.get ⟨i, more⟩) := by
      grind
    have there := @chainTree_node mounts root base dirs file below i _ here'
    rw [if_pos (show i < (dirs ++ file.toList).length by grind)] at here
    rw [if_pos more] at there
    have first : dirs.drop i = dirs.get ⟨i, more⟩ :: dirs.drop (i + 1) := List.drop_eq_getElem_cons more
    rw [first, List.cons_append, resolveComponents, if_neg (short _ (List.get_mem _ _)), lookup_plain_child here there enough,
      if_pos rfl]
    dsimp only [bind, Except.bind]
    rw [Vfs.node_eq there]
    dsimp only
    rw [if_neg fun stuck => absurd stuck.2 (show vfsNodeDir &&& vfsNodeDir ≠ 0 by decide)]
    exact ih (i := i + 1) more (by omega)

end ChainTree

section Distinguish

variable {mounts : List VfsMount} {root root' : Nat} {names others : List (List UInt8)}

/-- Two walks that see different components come apart behind some of them. -/
theorem readable_split (names others : List (List UInt8)) :
    readable names = readable others ∨ ∃ before after after', names = before ++ after ∧ others = before ++ after' ∧
      (∀ name ∈ before, ¬ vfsNameMax < name.length) ∧
      ((∀ node, emptyResult node after ≠ emptyResult node after') ∨
        ∃ name rest name' rest', after = name :: rest ∧ after' = name' :: rest' ∧
          ¬ vfsNameMax < name.length ∧ ¬ vfsNameMax < name'.length ∧ name ≠ name') := by
  induction names generalizing others with
  | nil =>
    cases others with
    | nil => exact .inl rfl
    | cons name rest =>
      refine .inr ⟨[], [], name :: rest, rfl, rfl, by simp, .inl fun node same => ?_⟩
      by_cases long : vfsNameMax < name.length
      · simp [emptyResult, long] at same
      · simp [emptyResult, long] at same
  | cons name rest ih =>
    cases others with
    | nil =>
      refine .inr ⟨[], name :: rest, [], rfl, rfl, by simp, .inl fun node same => ?_⟩
      by_cases long : vfsNameMax < name.length
      · simp [emptyResult, long] at same
      · simp [emptyResult, long] at same
    | cons name' rest' =>
      by_cases long : vfsNameMax < name.length
      · by_cases long' : vfsNameMax < name'.length
        · grind [readable_long]
        · refine .inr ⟨[], _, _, rfl, rfl, by simp, .inl fun node same => ?_⟩
          simp only [emptyResult, if_pos long, if_neg long'] at same
          cases same
      · by_cases long' : vfsNameMax < name'.length
        · refine .inr ⟨[], _, _, rfl, rfl, by simp, .inl fun node same => ?_⟩
          simp only [emptyResult, if_pos long', if_neg long] at same
          cases same
        · by_cases equal : name = name'
          · rcases ih rest' with same | ⟨before, after, after', rfl, rfl, short, apart⟩
            · grind [readable_short]
            grind
          · exact .inr ⟨[], _, _, rfl, rfl, by simp, .inr ⟨name, rest, name', rest', rfl, rfl, long, long', equal⟩⟩

/-- The walks end alike in every tree under the mounts. -/
def EndAlike (mounts : List VfsMount) (root : Nat) (names : List (List UInt8)) (root' : Nat)
    (others : List (List UInt8)) : Prop :=
  ∃ enough, ∀ (env : FsEnv) (s : Vfs Unit), s.mounts = mounts → enough < env.fuel →
    (resolveComponents ample env s root names).map Prod.fst = (resolveComponents ample env s root' others).map Prod.fst

theorem cString_eq_self (clean : (0 : UInt8) ∉ name) : cString name = name :=
  List.takeWhile_eq_self_iff.mpr fun byte member => by
    grind

theorem endAlike_readable (clean : ∀ name ∈ names, (0 : UInt8) ∉ name) (clean' : ∀ name ∈ others, (0 : UInt8) ∉ name)
    (alike : EndAlike mounts root names root others) : readable names = readable others := by
  obtain ⟨enough, alike⟩ := alike
  rcases readable_split names others with same | ⟨before, after, after', rfl, rfl, short, apart⟩
  · exact same
  exfalso
  let env : FsEnv := { sampleEnv with fuel := enough + 2 }
  have fuel : 1 < env.fuel := by grind
  have follow : ∀ file rest, resolveComponents ample env (chainTree mounts root (root + 1) before file) root (before ++ rest) =
      resolveComponents ample env (chainTree mounts root (root + 1) before file) (chainPlace root (root + 1) before.length) rest :=
    fun file rest => chainTree_follow (Nat.lt_succ_self root) fuel short rest (Nat.zero_le _)
  rcases apart with differ | ⟨name, rest, name', rest', rfl, rfl, long, long', differ⟩
  · have same := alike env (chainTree mounts root (root + 1) before none) rfl (by grind)
    obtain ⟨own, here⟩ := @chainTree_place mounts root (root + 1) before none (Nat.lt_succ_self root) _ (le_refl _)
    rw [if_neg (by simp)] at here
    rw [follow, follow, resolve_empty here fuel, resolve_empty here fuel] at same
    exact differ _ (Except.ok.inj same)
  · have same := alike env (chainTree mounts root (root + 1) before (some name)) rfl (by grind)
    obtain ⟨own, here⟩ := @chainTree_place mounts root (root + 1) before (some name) (Nat.lt_succ_self root) _ (le_refl _)
    rw [if_pos (by simp)] at here
    have there := @chainTree_node mounts root (root + 1) before (some name) (Nat.lt_succ_self root) before.length name
      (by simp)
    rw [if_neg (Nat.lt_irrefl _), if_neg (by simp)] at there
    obtain ⟨result, walked, found, -⟩ := @resolve_file _ ample env _ _ own name _ _ name rest here there fuel long
    obtain ⟨result', walked', -, missed⟩ := @resolve_file _ ample env _ _ own name' _ _ name rest' here there fuel long'
    rw [follow, follow, walked, walked'] at same
    have apart : cString name ≠ cString name' := by
      grind [cString_eq_self]
    exact found rfl ((Except.ok.inj same).trans (missed apart))

/-- In some tree a walk does not miss its first component, while any other root is an
empty directory. -/
theorem exists_walk_reaching (mounts : List VfsMount) (root root' : Nat) (names : List (List UInt8)) (enough : Nat) :
    ∃ (env : FsEnv) (s : Vfs Unit), s.mounts = mounts ∧ enough < env.fuel ∧ 1 < env.fuel ∧
      (root ≠ root' → s.nodes root' = some (plainNode [] vfsNodeDir none)) ∧
      (resolveComponents ample env s root names).map Prod.fst ≠ .ok (vfsErrNoent, none) := by
  let env : FsEnv := { sampleEnv with fuel := enough + 2 }
  have fuel : 1 < env.fuel := by grind
  have more : enough < env.fuel := by grind
  let base := max root root' + 1
  have below : root < base := by omega
  have there : ∀ file, root ≠ root' →
      (chainTree mounts root base [] file).nodes root' = some (plainNode [] vfsNodeDir none) := by
    intro file other
    have behind : root' < base := by omega
    simp only [chainTree, if_neg other.symm, if_pos behind]
  cases names with
  | nil =>
    refine ⟨env, chainTree mounts root base [] none, rfl, more, fuel, there none, fun same => ?_⟩
    exact Option.some_ne_none _ (congrArg Prod.snd (Except.ok.inj same))
  | cons name rest =>
    refine ⟨env, chainTree mounts root base [] (some name), rfl, more, fuel, there _, fun same => ?_⟩
    by_cases long : vfsNameMax < name.length
    · rw [resolveComponents, if_pos long] at same
      cases same
    obtain ⟨own, here⟩ := @chainTree_place mounts root base [] (some name) below 0 (le_refl _)
    rw [chainPlace, if_pos (by simp)] at here
    have file := @chainTree_node mounts root base [] (some name) below 0 name rfl
    obtain ⟨result, walked, found, -⟩ := @resolve_file _ ample env _ _ own name _ _ name rest here file fuel long
    rw [walked] at same
    exact found rfl (Except.ok.inj same)

/-- Walks from different roots end alike only at a component that is too long. -/
theorem endAlike_root (other : root ≠ root') (alike : EndAlike mounts root names root' others) :
    readable names = ([], true) ∧ readable others = ([], true) := by
  obtain ⟨enough, alike⟩ := alike
  -- The other walk cannot miss its first component here, so it has none, or one too long.
  obtain ⟨env, s, table, more, fuel, empty, reaches⟩ := exists_walk_reaching mounts root root' names enough
  have same := alike env s table more
  rw [resolve_empty (empty other) fuel] at same
  rw [same] at reaches
  obtain ⟨env', s', table', more', fuel', empty', reaches'⟩ := exists_walk_reaching mounts root' root others enough
  have same' := alike env' s' table' more'
  rw [resolve_empty (empty' other.symm) fuel'] at same'
  rw [← same'] at reaches'
  cases others with
  | nil =>
    cases names with
    | nil => exact absurd (Option.some.inj (Prod.mk.inj (Except.ok.inj same')).2) other
    | cons name rest =>
      by_cases long : vfsNameMax < name.length
      · rw [resolveComponents, if_pos long] at same
        exact absurd (congrArg Prod.snd (Except.ok.inj same)).symm (Option.some_ne_none _)
      · simp [emptyResult, long, Except.map] at reaches'
  | cons name' rest' =>
    by_cases long' : vfsNameMax < name'.length
    · refine ⟨?_, readable_long long'⟩
      cases names with
      | nil =>
        rw [resolveComponents, if_pos long'] at same'
        exact absurd (congrArg Prod.snd (Except.ok.inj same')) (Option.some_ne_none _)
      | cons name rest =>
        by_cases long : vfsNameMax < name.length
        · exact readable_long long
        · simp [emptyResult, long, Except.map] at reaches'
    · simp [emptyResult, long', Except.map] at reaches

end Distinguish

/-- The components of a path hold no terminator. -/
theorem mountTarget_clean {mounts : List VfsMount} {root : Nat} {names : List (List UInt8)}
    (target : mountTarget mounts path = some (root, names)) : ∀ name ∈ names, (0 : UInt8) ∉ name := by
  obtain ⟨mnt, -, same⟩ := Option.map_eq_some_iff.mp target
  obtain ⟨-, rfl⟩ := Prod.mk.inj same
  intro name member zero
  have inside := List.mem_of_mem_drop (Lib.components_subset member zero)
  unfold trimmedPath at inside
  dsimp only at inside
  split at inside
  · simp at inside
  · have text := (List.rdropWhile_prefix _ _).subset inside
    simpa using List.mem_takeWhile_imp text

/-- Two absolute paths name the same under a mount table, in every tree, exactly when
they choose the same root and leave the same to walk. -/
theorem spellings_name_same {mounts : List VfsMount} {path other : List UInt8} (absolute : path.headD 0 = 0x2F)
    (absolute' : other.headD 0 = 0x2F) :
    (∀ (M : Type) (mem : Allocator M) (env : FsEnv) (s : Vfs M), s.mounts = mounts → path.length < env.fuel →
      other.length < env.fuel →
      (vfsResolvePath mem env s path).map Prod.fst = (vfsResolvePath mem env s other).map Prod.fst) ↔
      SameTarget (mountTarget mounts path) (mountTarget mounts other) := by
  constructor
  · intro alike
    have walks : ∀ (env : FsEnv) (s : Vfs Unit), s.mounts = mounts → max path.length other.length < env.fuel →
        (resolveTarget ample env s (mountTarget mounts path)).map Prod.fst =
          (resolveTarget ample env s (mountTarget mounts other)).map Prod.fst := by
      intro env s table enough
      have same := alike Unit ample env s table (by omega) (by omega)
      grind [vfsResolvePath_target]
    cases target : mountTarget mounts path with
    | none =>
      cases target' : mountTarget mounts other with
      | none => trivial
      | some found =>
        obtain ⟨env, s, table, enough, -, -, reaches⟩ := exists_walk_reaching mounts found.1 0 found.2 _
        have same := walks env s table enough
        rw [target, target'] at same
        exact absurd same.symm reaches
    | some found =>
      cases target' : mountTarget mounts other with
      | none =>
        obtain ⟨env, s, table, enough, -, -, reaches⟩ := exists_walk_reaching mounts found.1 0 found.2 _
        have same := walks env s table enough
        rw [target, target'] at same
        exact absurd same reaches
      | some found' =>
        have ends : EndAlike mounts found.1 found.2 found'.1 found'.2 := by
          refine ⟨max path.length other.length, fun env s table enough => ?_⟩
          have same := walks env s table enough
          rw [target, target'] at same
          exact same
        obtain ⟨root, names⟩ := found
        obtain ⟨root', names'⟩ := found'
        by_cases start : root = root'
        · subst start
          exact ⟨endAlike_readable (mountTarget_clean target) (mountTarget_clean target') ends, .inl rfl⟩
        · obtain ⟨long, long'⟩ := endAlike_root start ends
          exact ⟨long.trans long'.symm, .inr long⟩
  · intro same M mem env s table enough enough'
    subst table
    rw [vfsResolvePath_target absolute enough, vfsResolvePath_target absolute' enough']
    revert same
    rcases mountTarget s.mounts path with _ | ⟨root, names⟩ <;>
      rcases mountTarget s.mounts other with _ | ⟨root', names'⟩ <;> intro same
    · rfl
    · exact same.elim
    · exact same.elim
    · obtain ⟨seen, start⟩ := same
      dsimp only [resolveTarget]
      grind [resolveComponents_readable, resolveComponents_long]

/-- Slashes behind the mount point do not matter. -/
theorem spellings_name_same_sample :
    (vfsResolvePath ample sampleEnv sampleMounted [0x2F, 0x6D, 0x6E, 0x74, 0x2F, 0x61, 0x2F, 0x2F, 0x78, 0x2F]).map Prod.fst =
      (vfsResolvePath ample sampleEnv sampleMounted [0x2F, 0x6D, 0x6E, 0x74, 0x2F, 0x61, 0x2F, 0x78]).map Prod.fst := by
  have target : mountTarget sampleMounted.mounts [0x2F, 0x6D, 0x6E, 0x74, 0x2F, 0x61, 0x2F, 0x2F, 0x78, 0x2F] =
      mountTarget sampleMounted.mounts [0x2F, 0x6D, 0x6E, 0x74, 0x2F, 0x61, 0x2F, 0x78] := by decide +kernel
  have shape : mountTarget sampleMounted.mounts [0x2F, 0x6D, 0x6E, 0x74, 0x2F, 0x61, 0x2F, 0x78] = some (3, [[0x78]]) := by
    decide +kernel
  refine (spellings_name_same rfl rfl).mpr ?_ Unit ample sampleEnv sampleMounted rfl (by decide) (by decide)
  rw [target, shape]
  exact ⟨rfl, .inl rfl⟩

/-- With the part that has `x` mounted on `/mnt/a`, the path `/mnt//a/x` is looked for in
the directory below it. -/
theorem doubled_slash_misses_mount :
    ∃ s s', vfsMount ample sampleEnv sampleTree 0 [0x2F] = .ok (0, s) ∧
      vfsMount ample sampleEnv s 3 [0x2F, 0x6D, 0x6E, 0x74, 0x2F, 0x61] = .ok (0, s') ∧
      components 0x2F [0x2F, 0x6D, 0x6E, 0x74, 0x2F, 0x61, 0x2F, 0x78] =
        components 0x2F [0x2F, 0x6D, 0x6E, 0x74, 0x2F, 0x2F, 0x61, 0x2F, 0x78] ∧
      (vfsResolvePath ample sampleEnv s' [0x2F, 0x6D, 0x6E, 0x74, 0x2F, 0x61, 0x2F, 0x78]).map Prod.fst = .ok (0, some 4) ∧
      (vfsResolvePath ample sampleEnv s' [0x2F, 0x6D, 0x6E, 0x74, 0x2F, 0x2F, 0x61, 0x2F, 0x78]).map Prod.fst =
        .ok (vfsErrNoent, none) := by
  refine ⟨{ sampleTree with mounts := [⟨[0x2F], 1, 0⟩] }, sampleMounted, rfl, rfl, ?_⟩
  decide +kernel

end Velox
