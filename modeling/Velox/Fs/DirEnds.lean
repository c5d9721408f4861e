import Velox.Fs.DirAgree
import Velox.Fs.Vfs

namespace Velox

open Lib (Bytes)

variable {more : Nat} {inode : Fat32Inode} {lfn' : LfnState} {env : FsEnv}

/-- A walk that comes to the cluster does not go on from it: it is no cluster of a chain, it
cannot be read, it holds the end marker, or its table entry cannot be read. -/
def StopsAt (disk : Disk) (vol : Fat32Vol) (cluster : Nat) : Prop :=
  ¬ (2 ≤ cluster ∧ cluster < fat32Bad) ∨ match fat32ReadCluster disk vol cluster fun _ => 0 with
    | none => True
    | some filled => (∃ raw ∈ rawEntries vol filled, raw 0 = 0) ∨ fat32ReadFatEntry disk vol cluster = fat32Bad

/-- Following the table from the cluster leads to one where walks stop. -/
def Stops (disk : Disk) (vol : Fat32Vol) (cluster : Nat) : Prop :=
  ∃ n, StopsAt disk vol ((fat32ReadFatEntry disk vol)^[n] cluster)

section Scans

variable {raw : Bytes} {rest raws : List Bytes} {lfn : LfnState} {maxEntries : Nat} {out : List Fat32Dirent}

theorem entryKind_marker : entryKind lfn raw = .marker ↔ raw 0 = 0 := by
  unfold entryKind
  grind

theorem marker_later (marker : ∃ found ∈ raw :: rest, found 0 = 0) (other : entryKind lfn raw ≠ .marker) :
    ∃ found ∈ rest, found 0 = 0 := by
  obtain ⟨found, member, zero⟩ := marker
  rcases List.mem_cons.mp member with rfl | behind
  · exact absurd (entryKind_marker.mpr zero) other
  grind

theorem processDirEntries_marker (marker : ∃ raw ∈ raws, raw 0 = 0) {out' : List Fat32Dirent} :
    processDirEntries maxEntries raws lfn out ≠ .ok (false, lfn', out') := by
  induction raws generalizing lfn out with
  | nil => simp at marker
  | cons raw rest ih =>
    intro done
    rw [processDirEntries_cons] at done
    split at done
    · cases done
    · rename_i kind
      exact ih (marker_later marker (by rw [kind]; rintro ⟨⟩)) done
    · rename_i kind
      split at done
      · exact ih (marker_later marker (by rw [kind]; rintro ⟨⟩)) done
      · cases done
    · rename_i kind
      exact ih (marker_later marker (by rw [kind]; rintro ⟨⟩)) done

theorem iterDirEntries_marker {σ : Type} {cb : Fat32Dirent → σ → Int × σ} {ctx ctx' : σ}
    (marker : ∃ raw ∈ raws, raw 0 = 0) :
    iterDirEntries cb raws lfn ctx ≠ .ok (none, lfn', ctx') := by
  induction raws generalizing lfn ctx with
  | nil => simp at marker
  | cons raw rest ih =>
    intro done
    rw [iterDirEntries_cons] at done
    split at done
    · cases done
    · rename_i kind
      exact ih (marker_later marker (by rw [kind]; rintro ⟨⟩)) done
    · cases done
    · rename_i kind
      split at done
      · cases done
      split at done
      · cases done
      · exact ih (marker_later marker (by rw [kind]; rintro ⟨⟩)) done

/-- Without room nothing is decoded, and only an end marker stops the scan of a cluster. -/
theorem processDirEntries_full (full : maxEntries ≤ out.length) (running : ∀ raw ∈ raws, raw 0 ≠ 0) :
    ∃ lfn', processDirEntries maxEntries raws lfn out = .ok (false, lfn', out) := by
  induction raws generalizing lfn with
  | nil => exact ⟨lfn, rfl⟩
  | cons raw rest ih =>
    have others := fun next member => running next (List.mem_cons_of_mem raw member)
    rw [processDirEntries_cons]
    split
    · rename_i kind
      exact absurd (entryKind_marker.mp kind) (running raw List.mem_cons_self)
    · exact ih others
    · rw [if_pos full]
      exact ih others
    · rw [if_pos full]
      exact ih others

end Scans

section Walks

variable {disk : Disk} {vol : Fat32Vol} {cluster n : Nat} {lfn : LfnState} {buf : Bytes}

theorem rawEntries_other (mounted : vol.Mounted) (sector512 : vol.bpb.bytesPerSector = 512) {filled : Bytes}
    (read : fat32ReadCluster disk vol cluster buf = some filled) (other : Bytes) :
    ∃ filled', fat32ReadCluster disk vol cluster other = some filled' ∧ rawEntries vol filled' = rawEntries vol filled := by
  obtain ⟨filled', read', same, -⟩ := fat32ReadCluster_other read other
  refine ⟨filled', read', rawEntries_congr fun i below => same i ?_⟩
  rw [mounted.bytesPerCluster, sector512] at below
  omega

/-- What a walk finds at a cluster where it stops, whatever its buffer holds. -/
theorem StopsAt.cases (stops : StopsAt disk vol cluster) (mounted : vol.Mounted)
    (inside : 2 ≤ cluster ∧ cluster < fat32Bad) (buf : Bytes) :
    fat32ReadCluster disk vol cluster buf = none ∨ ∃ filled, fat32ReadCluster disk vol cluster buf = some filled ∧
        ((∃ raw ∈ rawEntries vol filled, raw 0 = 0) ∨ fat32ReadFatEntry disk vol cluster = fat32Bad) := by
  rcases stops with outside | found
  · omega
  cases read : fat32ReadCluster disk vol cluster fun _ => 0 with
  | none => exact .inl (fat32ReadCluster_none read buf)
  | some filled =>
    by_cases sector512 : vol.bpb.bytesPerSector = 512
    · obtain ⟨filled', read', same⟩ := rawEntries_other mounted sector512 read buf
      grind
    · obtain ⟨filled', read', -⟩ := fat32ReadCluster_other read buf
      grind [Fat32Vol.Mounted.large, fat32ReadFatEntry_large]

theorem readDir_ends (mounted : vol.Mounted) (maxEntries : Nat)
    (stops : StopsAt disk vol ((fat32ReadFatEntry disk vol)^[n] cluster)) (out : List Fat32Dirent) (buf : Bytes) :
    ∃ result, Lib.loop (readDirPass disk vol maxEntries) (n + 1) ⟨cluster, lfn, out, buf⟩ = some result ∧
      result ≠ .error .diverged := by
  induction n generalizing cluster lfn out buf with
  | zero =>
    have here : StopsAt disk vol cluster := stops
    by_cases inside : 2 ≤ cluster ∧ cluster < fat32Bad
    · rw [readDir_pass inside]
      rcases here.cases mounted inside buf with failed | ⟨filled, read, marker | bad⟩
      · exact ⟨.ok (false, out), by rw [failed], nofun⟩
      · simp only [read]
        split
        · simp
        · simp
        grind [processDirEntries_marker]
      · simp only [read, if_pos bad]
        split <;> simp
    · exact ⟨_, readDir_past inside, nofun⟩
  | succ n ih =>
    by_cases inside : 2 ≤ cluster ∧ cluster < fat32Bad
    · rw [readDir_pass inside]
      split
      · simp
      split
      · simp
      · simp
      split
      · simp
      · exact ih stops _ _
    · exact ⟨_, readDir_past inside, nofun⟩

theorem iterDir_ends {σ : Type} (cb : Fat32Dirent → σ → Int × σ) (mounted : vol.Mounted)
    (stops : StopsAt disk vol ((fat32ReadFatEntry disk vol)^[n] cluster)) (ctx : σ) (buf : Bytes) :
    ∃ result, Lib.loop (iterDirPass cb disk vol) (n + 1) ⟨cluster, lfn, ctx, buf⟩ = some result ∧
      result ≠ .error .diverged := by
  induction n generalizing cluster lfn ctx buf with
  | zero =>
    have here : StopsAt disk vol cluster := stops
    by_cases inside : 2 ≤ cluster ∧ cluster < fat32Bad
    · rw [iterDir_pass inside]
      rcases here.cases mounted inside buf with failed | ⟨filled, read, marker | bad⟩
      · exact ⟨.ok (fat32ErrIo, ctx), by rw [failed], nofun⟩
      · simp only [read]
        split
        · simp
        · simp
        grind [iterDirEntries_marker]
      · simp only [read, if_pos bad]
        split <;> simp
    · exact ⟨_, iterDir_past inside, nofun⟩
  | succ n ih =>
    by_cases inside : 2 ≤ cluster ∧ cluster < fat32Bad
    · rw [iterDir_pass inside]
      split
      · simp
      split
      · simp
      · simp
      split
      · simp
      split
      · simp
      · exact ih stops _ _
    · exact ⟨_, iterDir_past inside, nofun⟩

/-- A walk goes on from a cluster where it does not stop. -/
theorem readDir_onward (mounted : vol.Mounted) (runs : ¬ StopsAt disk vol cluster) (lfn : LfnState) (buf : Bytes) :
    ∃ lfn' filled, ∀ fuel, Lib.loop (readDirPass disk vol 0) (fuel + 1) ⟨cluster, lfn, [], buf⟩ =
      Lib.loop (readDirPass disk vol 0) fuel ⟨fat32ReadFatEntry disk vol cluster, lfn', [], filled⟩ := by
  obtain ⟨inside, found⟩ := not_or.mp runs
  rw [not_not] at inside
  cases read : fat32ReadCluster disk vol cluster fun _ => 0 with
  | none => simp [read] at found
  | some zeros =>
    simp only [read, not_or, not_exists, not_and] at found
    have sector512 : vol.bpb.bytesPerSector = 512 := by
      by_contra other
      have large := mounted.large other
      exact found.2 (fat32ReadFatEntry_large (by omega) cluster)
    obtain ⟨filled, read', same⟩ := rawEntries_other mounted sector512 read buf
    obtain ⟨lfn', processed⟩ := @processDirEntries_full (rawEntries vol filled) lfn 0 [] (le_refl 0)
      fun raw member => found.1 raw (same ▸ member)
    refine ⟨lfn', filled, fun fuel => ?_⟩
    simp only [readDir_pass inside, read', processed, if_neg found.2]

theorem readDir_diverges (mounted : vol.Mounted) (runs : ¬ Stops disk vol cluster) (fuel : Nat) (lfn : LfnState)
    (buf : Bytes) : Lib.loop (readDirPass disk vol 0) fuel ⟨cluster, lfn, [], buf⟩ = none := by
  induction fuel generalizing cluster lfn buf with
  | zero => rfl
  | succ fuel ih =>
    have here : ¬ StopsAt disk vol cluster := fun stops => runs ⟨0, stops⟩
    obtain ⟨lfn', filled, onward⟩ := readDir_onward mounted here lfn buf
    rw [onward]
    exact ih (fun ⟨n, stops⟩ => runs ⟨n + 1, stops⟩) lfn' filled

end Walks

/-- With enough fuel no walk over the directory is cut off. -/
def DirWalksEnd (disk : Disk) (vol : Fat32Vol) (dirCluster : Nat) : Prop :=
  ∃ fuel, ∀ more ≥ fuel, ∀ buf,
    (∀ maxEntries, fat32ReadDir disk vol more (some buf) dirCluster maxEntries ≠ .error .diverged) ∧
    (∀ name, fat32Lookup disk vol more (some buf) dirCluster name ≠ .error .diverged) ∧
    ∀ i, fat32ReaddirIndex disk vol more (some buf) dirCluster i ≠ .error .diverged

section Functions

variable {disk : Disk} {vol : Fat32Vol} {dirCluster n : Nat}

theorem fat32IterDir_ends {σ : Type} (cb : Fat32Dirent → σ → Int × σ) (mounted : vol.Mounted)
    (stops : StopsAt disk vol ((fat32ReadFatEntry disk vol)^[n] dirCluster)) (enough : n < more)
    (clusterBuf : Option Bytes) (ctx : σ) :
    fat32IterDir cb disk vol more clusterBuf dirCluster ctx ≠ .error .diverged := by
  unfold fat32IterDir
  split
  · rintro ⟨⟩
  split
  · rintro ⟨⟩
  · rename_i buf
    obtain ⟨result, ended, fine⟩ := @iterDir_ends disk vol dirCluster n .initial σ cb mounted stops ctx buf
    rw [Lib.loop_mono ended enough]
    exact fine

theorem fat32ReadDir_ends (mounted : vol.Mounted)
    (stops : StopsAt disk vol ((fat32ReadFatEntry disk vol)^[n] dirCluster)) (enough : n < more)
    (clusterBuf : Option Bytes) (maxEntries : Nat) :
    fat32ReadDir disk vol more clusterBuf dirCluster maxEntries ≠ .error .diverged := by
  unfold fat32ReadDir
  split
  · rintro ⟨⟩
  · rename_i buf
    obtain ⟨result, ended, fine⟩ := @readDir_ends disk vol dirCluster n .initial mounted maxEntries stops [] buf
    rw [Lib.loop_mono ended enough]
    exact fine

/-- A call that is followed by tests of its result. -/
theorem bind_ne_diverged {α β : Type} {call : FsM α} {rest : α → FsM β} (first : call ≠ .error .diverged)
    (others : ∀ value, call = .ok value → rest value ≠ .error .diverged) : (call >>= rest) ≠ .error .diverged := by
  cases call with
  | error halt => exact fun same => first (congrArg Except.error (Except.error.inj same))
  | ok value => exact others value rfl

section

variable (mounted : vol.Mounted)
  (stops : StopsAt disk vol ((fat32ReadFatEntry disk vol)^[n] dirCluster)) (enough : n < more)
  (clusterBuf : Option Bytes)
include mounted stops enough clusterBuf

theorem fat32Lookup_ends (name : List UInt8) :
    fat32Lookup disk vol more clusterBuf dirCluster name ≠ .error .diverged := by
  refine bind_ne_diverged (fat32IterDir_ends _ mounted stops enough clusterBuf none) ?_
  rintro ⟨rc, found⟩ -
  dsimp only
  split <;> rintro ⟨⟩

theorem fat32ReaddirIndex_ends (i : Nat) :
    fat32ReaddirIndex disk vol more clusterBuf dirCluster i ≠ .error .diverged := by
  refine bind_ne_diverged (fat32IterDir_ends _ mounted stops enough clusterBuf (0, none)) ?_
  rintro ⟨rc, reached, found⟩ -
  dsimp only
  split <;> rintro ⟨⟩

end

theorem dirWalksEnd_iff (mounted : vol.Mounted) : DirWalksEnd disk vol dirCluster ↔ Stops disk vol dirCluster := by
  constructor
  · rintro ⟨fuel, ends⟩
    by_contra runs
    apply (ends fuel (le_refl _) fun _ => 0).1 0
    rw [fat32ReadDir, readDir_diverges mounted runs]
    rfl
  · rintro ⟨n, stops⟩
    refine ⟨n + 1, fun more enough buf => ⟨?_, ?_, ?_⟩⟩
    · grind [fat32ReadDir_ends]
    · grind [fat32Lookup_ends]
    grind [fat32ReaddirIndex_ends]

end Functions

section Paths

variable {disk : Disk} {vol : Fat32Vol}

theorem fat32SkipSlashes_length (p : List UInt8) : (fat32SkipSlashes p).length ≤ p.length :=
  (List.dropWhile_suffix _).length_le

/-- What is left of a path after one component is shorter. -/
theorem copySegment_shorter {p name rest : List UInt8} (some' : p.headD 0 ≠ 0)
    (copied : fat32CopySegment p 257 = .ok (name, rest)) : (fat32SkipSlashes rest).length < p.length := by
  unfold fat32CopySegment at copied
  dsimp only at copied
  split at copied
  · cases copied
  cases copied
  cases p with
  | nil => exact absurd rfl some'
  | cons c rest =>
    by_cases slash : c = 0x2F
    · have bound := fat32SkipSlashes_length rest
      simpa [slash, fat32SkipSlashes, List.takeWhile_cons] using Nat.lt_succ_of_le bound
    · have kept : (c ≠ 0 ∧ c ≠ 0x2F) := ⟨some', slash⟩
      have bound := fat32SkipSlashes_length ((c :: rest).drop ((c :: rest).takeWhile fun c => c ≠ 0 ∧ c ≠ 0x2F).length)
      refine lt_of_le_of_lt bound ?_
      rw [List.length_drop, List.takeWhile_cons, if_pos (decide_eq_true kept), List.length_cons, List.length_cons]
      omega

/-- A lookup gives the same answer for all fuel from some amount on. -/
theorem fat32Lookup_settles (mounted : vol.Mounted) {dirCluster : Nat} (stops : Stops disk vol dirCluster) (buf : Bytes)
    (name : List UInt8) : ∃ fuel answer, answer ≠ .error .diverged ∧
      ∀ more ≥ fuel, fat32Lookup disk vol more (some buf) dirCluster name = answer := by
  obtain ⟨n, stopsAt⟩ := stops
  refine ⟨n + 1, fat32Lookup disk vol (n + 1) (some buf) dirCluster name,
    fat32Lookup_ends mounted stopsAt (Nat.lt_succ_self n) (some buf) name, ?_⟩
  intro more enough
  obtain ⟨result, ended, -⟩ := @iterDir_ends disk vol dirCluster n .initial _ (fat32LookupCb name) mounted stopsAt none buf
  rw [fat32Lookup, fat32Lookup, fat32IterDir, fat32IterDir, ended, Lib.loop_mono ended enough]

section

variable (mounted : vol.Mounted) (everywhere : ∀ cluster, Stops disk vol cluster)
  (buffers : Nat → Bytes)
include mounted everywhere buffers

/-- One pass over a path, with enough fuel for its lookup: it leaves the loop or has less to go. -/
theorem lookupPathPass_settles (s : PathWalk) : ∃ fuel outcome,
      (∀ more ≥ fuel, lookupPathPass ⟨disk, more, buffers⟩ vol s = outcome) ∧
      (∀ result, outcome = .inr result → result ≠ .error .diverged) ∧
      ∀ next, outcome = .inl next → next.rest.length < s.rest.length := by
  by_cases done : s.rest.headD 0 = 0
  · exact ⟨0, .inr (.ok (0, s.current)), fun more _ => by rw [lookupPathPass, if_pos done], by simp, by simp⟩
  cases copied : fat32CopySegment s.rest 257 with
  | error rc =>
    refine ⟨0, .inr (.ok (rc, none)), fun more _ => ?_, by simp, by simp⟩
    rw [lookupPathPass, if_neg done, copied]
  | ok parts =>
    obtain ⟨name, rest⟩ := parts
    have shorter := copySegment_shorter done copied
    obtain ⟨fuel, answer, fine, settled⟩ :=
      fat32Lookup_settles mounted (everywhere s.dirCluster) (buffers s.calls) name
    refine ⟨fuel, lookupPathPass ⟨disk, fuel, buffers⟩ vol s, ?_, ?_, ?_⟩
    · intro more enough
      simp only [lookupPathPass, if_neg done, copied, settled more enough, settled fuel (le_refl _)]
    · intro result left
      simp only [lookupPathPass, if_neg done, copied, settled fuel (le_refl _)] at left
      grind
    · intro next onward
      simp only [lookupPathPass, if_neg done, copied, settled fuel (le_refl _)] at onward
      grind

theorem lookupPath_ends (s : PathWalk) : ∃ fuel, ∀ more ≥ fuel, ∀ passes ≥ fuel,
      ∃ result, Lib.loop (lookupPathPass ⟨disk, more, buffers⟩ vol) passes s = some result ∧
        result ≠ .error .diverged := by
  -- every pass consumes a component of the path
  induction length : s.rest.length using Nat.strong_induction_on generalizing s with
  | _ length ih =>
    obtain ⟨fuel, outcome, settled, leaves, shorter⟩ := lookupPathPass_settles mounted everywhere buffers s
    cases outcome with
    | inr result =>
      refine ⟨fuel + 1, fun more enough passes many => ⟨result, ?_, leaves result rfl⟩⟩
      obtain ⟨passes, rfl⟩ : ∃ rest, passes = rest + 1 := ⟨passes - 1, by omega⟩
      rw [Lib.loop, settled more (by omega)]
    | inl next =>
      obtain ⟨fuel', ends⟩ := ih next.rest.length (length ▸ shorter next rfl) next rfl
      refine ⟨max fuel fuel' + 1, fun more enough passes many => ?_⟩
      obtain ⟨passes, rfl⟩ : ∃ rest, passes = rest + 1 := ⟨passes - 1, by omega⟩
      obtain ⟨result, ended, fine⟩ := ends more (by omega) passes (by omega)
      refine ⟨result, ?_, fine⟩
      rw [Lib.loop, settled more (by omega)]
      exact ended

theorem fat32LookupPath_ends (path : List UInt8) :
    ∃ fuel, ∀ more ≥ fuel, fat32LookupPath ⟨disk, more, buffers⟩ vol path ≠ .error .diverged := by
  obtain ⟨fuel, ends⟩ := lookupPath_ends mounted everywhere buffers ⟨fat32SkipSlashes path, vol.rootCluster, none, 0⟩
  refine ⟨fuel, fun more enough => ?_⟩
  obtain ⟨result, ended, fine⟩ := ends more enough more enough
  unfold fat32LookupPath
  split
  · rintro ⟨⟩
  dsimp only
  split
  · rintro ⟨⟩
  · rw [ended]
    exact fine

end

end Paths

section Readdir

variable {M : Type} {mem : Allocator M} {disk : Disk} {buffers : Nat → Bytes}

section

variable (frees : ∀ memory block, mem.kfree memory block ≠ .error .diverged)
include frees

theorem Vfs.kfree_ends (s : Vfs M) (block : Block) :
    s.kfree mem block ≠ .error .diverged := by
  unfold Vfs.kfree
  grind

theorem withClusterBuf_ends {α : Type} {scan : Option Bytes → FsM α}
    (scans : ∀ clusterBuf, scan clusterBuf ≠ .error .diverged) (s : Vfs M) (taken : Bool) :
    withClusterBuf mem env s taken scan ≠ .error .diverged := by
  unfold withClusterBuf
  split
  · split
    · exact bind_ne_diverged (scans none) fun _ _ => nofun
    · refine bind_ne_diverged (scans _) fun _ _ => ?_
      exact bind_ne_diverged (Vfs.kfree_ends frees _ _) fun _ _ => nofun
  · exact bind_ne_diverged (scans none) fun _ _ => nofun

section

variable
  (reads : ∀ clusterBuf cap, fat32ReadDir env.disk inode.vol env.fuel clusterBuf inode.firstCluster cap ≠ .error .diverged)
include reads

/-- The capacity doubles until a listing fits or the 32-bit product is zero. -/
theorem loadDir_ends (dir : Nat) (s : Vfs M) {passes : Nat} (enough : 26 < passes) :
    ∃ result, Lib.loop (loadDirPass mem env dir inode) passes (64, s) = some result ∧ result ≠ .error .diverged := by
  refine Lib.loop_total (fun bound (state : Nat × Vfs M) => bound ≤ 26 ∧ state.1 = 2 ^ (32 - bound) % 2 ^ 32) _
    ?_ ?_ ⟨le_refl 26, rfl⟩ enough
  · rintro bound ⟨cap, s⟩ ⟨cap', t⟩ ⟨small, size⟩ onward
    have positive : 0 < bound := by
      rcases Nat.eq_zero_or_pos bound with rfl | positive
      · simp only [loadDirPass, show cap = 0 from size, if_true] at onward
        cases onward
      · exact positive
    refine ⟨bound - 1, by omega, by omega, ?_⟩
    have doubled : cap' = cap * 2 % 2 ^ 32 := by
      simp only [loadDirPass] at onward
      grind
    have power : 2 ^ (32 - (bound - 1)) = 2 ^ (32 - bound) * 2 := by
      rw [← Nat.pow_succ]
      congr 1
      omega
    omega
  · rintro bound ⟨cap, s⟩ result - left
    simp only [loadDirPass] at left
    grind [withClusterBuf_ends, Vfs.kfree_ends]

theorem fat32VfsLoadDirCache_ends (enough : 26 < env.fuel) (s : Vfs M) (dir : Nat)
    (node : VfsNode) :
    fat32VfsLoadDirCache mem env s dir node inode ≠ .error .diverged := by
  unfold fat32VfsLoadDirCache
  split
  · rintro ⟨⟩
  · obtain ⟨result, ended, fine⟩ := loadDir_ends frees reads dir s enough
    rw [ended]
    refine bind_ne_diverged fine fun value _ => ?_
    split <;> rintro ⟨⟩

end

theorem fat32VfsReaddir_ends {s : Vfs M} {dir : Nat}
    (mounted : ∀ node inode, s.nodes dir = some node → node.data = some inode → inode.vol.Mounted)
    (stops : ∀ node inode, s.nodes dir = some node → node.data = some inode → Stops disk inode.vol inode.firstCluster)
    (index : Nat) :
    ∃ fuel, ∀ more ≥ fuel, fat32VfsReaddir mem ⟨disk, more, buffers⟩ s dir index ≠ .error .diverged := by
  cases here : s.nodes dir with
  | none =>
    refine ⟨0, fun more _ => ?_⟩
    rw [fat32VfsReaddir, Vfs.node, here]
    rintro ⟨⟩
  | some node =>
    cases data : node.data with
    | none =>
      refine ⟨0, fun more _ => ?_⟩
      rw [fat32VfsReaddir, Vfs.node_eq here]
      refine bind_ne_diverged (by rintro ⟨⟩) fun value same => ?_
      cases same
      rw [data]
      rintro ⟨⟩
    | some inode =>
      obtain ⟨n, stopsAt⟩ := stops node inode here data
      have volume := mounted node inode here data
      refine ⟨n + 27, fun more enough => ?_⟩
      rw [fat32VfsReaddir, Vfs.node_eq here]
      refine bind_ne_diverged (by rintro ⟨⟩) fun value same => ?_
      cases same
      rw [data]
      refine bind_ne_diverged (fat32VfsLoadDirCache_ends frees
        (fat32ReadDir_ends volume stopsAt (by dsimp only; omega)) (by dsimp only; omega) s dir node) fun loaded _ => ?_
      dsimp only
      split
      · rintro ⟨⟩
      split
      · split <;> rintro ⟨⟩
      · refine bind_ne_diverged (withClusterBuf_ends frees
          (fun clusterBuf => fat32ReaddirIndex_ends volume stopsAt (by omega) clusterBuf index) _ _) fun found _ => ?_
        split
        · rintro ⟨⟩
        split <;> rintro ⟨⟩

end

end Readdir

/-- With enough fuel the walks over all directories end, and with them the lookups of paths and
the reads of directory nodes. -/
structure DirectoriesEnd (disk : Disk) (vol : Fat32Vol) : Prop where
  walks : ∀ dirCluster, DirWalksEnd disk vol dirCluster
  paths : ∀ buffers path, ∃ fuel, ∀ more ≥ fuel, fat32LookupPath ⟨disk, more, buffers⟩ vol path ≠ .error .diverged
  nodes : ∀ (M : Type) (mem : Allocator M), (∀ memory block, mem.kfree memory block ≠ .error .diverged) →
    ∀ (s : Vfs M) dir, (∀ node inode, s.nodes dir = some node → node.data = some inode → inode.vol = vol) →
      ∀ buffers index, ∃ fuel, ∀ more ≥ fuel, fat32VfsReaddir mem ⟨disk, more, buffers⟩ s dir index ≠ .error .diverged

/-- The directory walks of a disk end iff every chain of its table stops. -/
theorem dir_walks_end_iff {disk : Disk} {index : Int} {vol : Fat32Vol} (mount : fat32Mount disk index = some vol) :
    DirectoriesEnd disk vol ↔ ∀ cluster, Stops disk vol cluster := by
  have mounted := fat32Mount_mounted mount
  constructor
  · intro ends cluster
    exact (dirWalksEnd_iff mounted).mp (ends.walks cluster)
  · intro everywhere
    refine ⟨fun cluster => (dirWalksEnd_iff mounted).mpr (everywhere cluster),
      fat32LookupPath_ends mounted everywhere, ?_⟩
    intro M mem frees s dir volume buffers i
    refine fat32VfsReaddir_ends frees (fun node inode here data => ?_) (fun node inode here data => ?_) i
    · grind
    grind

/-- Three clusters, each a chain of its own. -/
def endedDisk : Disk := sampleDisk 5 [(2, fat32Eoc), (3, fat32Eoc), (4, fat32Eoc)]

theorem dir_walks_end_ended : DirectoriesEnd endedDisk (sampleVol 5 3) := by
  refine (dir_walks_end_iff (show fat32Mount endedDisk 0 = some (sampleVol 5 3) by decide +kernel)).mpr ?_
  intro cluster
  have entries : ∀ c < 5, 2 ≤ c → fat32ReadFatEntry endedDisk (sampleVol 5 3) c = fat32Eoc := by decide +kernel
  by_cases inside : 2 ≤ cluster ∧ cluster < 5
  · refine ⟨1, .inl ?_⟩
    rw [Function.iterate_one, entries cluster inside.2 inside.1]
    decide
  · refine ⟨0, ?_⟩
    have refused : fat32ReadCluster endedDisk (sampleVol 5 3) cluster (fun _ => 0) = none := by
      rw [fat32ReadCluster, if_pos]
      simp only [sampleVol]
      omega
    right
    rw [Function.iterate_zero, id_eq, refused]
    trivial

/-- A directory of deleted entries in a cluster that follows itself. -/
def loopingDir : Disk where
  drive := {
    ready := true
    completes := fun _ _ => true
    byte := fun address => if 2560 ≤ address ∧ address < 3072 then 0xE5 else sampleByte 100 [(2, 2)] address }
  partitions := [⟨3, 100⟩]

theorem loopingDir_scan (lfn : LfnState) (buf : Bytes) : ∃ filled lfn',
    fat32ReadCluster loopingDir (sampleVol 100 98) 2 buf = some filled ∧
      scanEntries lfn (rawEntries (sampleVol 100 98) filled) = ([], .running lfn') := by
  have mount : fat32Mount loopingDir 0 = some (sampleVol 100 98) := by decide +kernel
  have zeros : (fat32ReadCluster loopingDir (sampleVol 100 98) 2 fun _ => 0).any
      (fun filled => (rawEntries (sampleVol 100 98) filled).all fun raw => raw 0 == 0xE5) = true := by decide +kernel
  cases read : fat32ReadCluster loopingDir (sampleVol 100 98) 2 fun _ => 0 with
  | none =>
    grind
  | some first =>
    obtain ⟨filled, read', same⟩ := rawEntries_other (fat32Mount_mounted mount) rfl read buf
    have deleted : ∀ raw ∈ rawEntries (sampleVol 100 98) filled, raw 0 = 0xE5 := by
      grind
    obtain ⟨lfn', scanned⟩ := scanEntries_deleted deleted lfn
    grind

/-- Neither `fat32_read_dir` nor `fat32_lookup` comes to an end on it. -/
theorem dir_walks_diverge_looping :
    fat32Mount loopingDir 0 = some (sampleVol 100 98) ∧
      ∀ fuel, (∀ maxEntries, fat32ReadDir loopingDir (sampleVol 100 98) fuel (some fun _ => 0) 2 maxEntries =
          .error .diverged) ∧
        ∀ name, fat32Lookup loopingDir (sampleVol 100 98) fuel (some fun _ => 0) 2 name = .error .diverged := by
  have inside : 2 ≤ 2 ∧ 2 < fat32Bad := by decide
  have next : fat32ReadFatEntry loopingDir (sampleVol 100 98) 2 = 2 := by decide +kernel
  have reads : ∀ maxEntries fuel lfn buf,
      Lib.loop (readDirPass loopingDir (sampleVol 100 98) maxEntries) fuel ⟨2, lfn, [], buf⟩ = none := by
    intro maxEntries fuel
    induction fuel with
    | zero => exact fun _ _ => rfl
    | succ fuel ih =>
      intro lfn buf
      obtain ⟨filled, lfn', read, scanned⟩ := loopingDir_scan lfn buf
      have processed := @processDirEntries_scan maxEntries (rawEntries (sampleVol 100 98) filled) lfn [] (Nat.zero_le _)
      grind [List.append_nil, List.take_nil, readDir_pass]
  have iterates : ∀ name fuel lfn buf,
      Lib.loop (iterDirPass (fat32LookupCb name) loopingDir (sampleVol 100 98)) fuel ⟨2, lfn, none, buf⟩ = none := by
    intro name fuel
    induction fuel with
    | zero => exact fun _ _ => rfl
    | succ fuel ih =>
      intro lfn buf
      obtain ⟨filled, lfn', read, scanned⟩ := loopingDir_scan lfn buf
      have iterated := @iterDirEntries_scan _ (fat32LookupCb name) (rawEntries (sampleVol 100 98) filled) lfn none
      simp only [scanned, feed] at iterated
      simp only [iterDir_pass inside, read, iterated, next]
      exact ih lfn' filled
  refine ⟨by decide +kernel, fun fuel => ⟨fun maxEntries => ?_, fun name => ?_⟩⟩
  · rw [fat32ReadDir, reads]
    rfl
  · rw [fat32Lookup, fat32IterDir, if_neg (by decide), iterates]
    rfl

end Velox
