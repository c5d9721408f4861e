import Velox.Fs.DirEnds
import Velox.Fs.Fat32Walk

/-! The paths of `fs/fat32.c` by their names: `fat32_lookup_path` as a walk over the components,
`fat32_read_dir_path`, and on what their answers depend. -/

namespace Velox

open Lib (Bytes components)

/-- The walk of `fat32_lookup_path` over names, from a directory on, after some lookups. -/
def lookupNames (env : FsEnv) (vol : Fat32Vol) : Nat → Nat → List (List UInt8) → FsM (Int × Option Fat32Dirent)
  | _, _, [] => .ok (0, some (fat32MakeRootDirent vol))
  | calls, cluster, name :: rest =>
    if 257 ≤ name.length then .ok (fat32ErrNametoolong, none)
    else
      match fat32Lookup env.disk vol env.fuel (some (env.buffers calls)) cluster name with
      | .error halt => .error halt
      | .ok (rc, found) =>
        if rc < 0 then .ok (rc, none)
        else
          match found with
          | none => .error .misuse
          | some current =>
            if rest = [] then .ok (0, some current)
            else if current.attributes &&& fatAttrDirectory = 0 then .ok (fat32ErrNotdir, none)
            else if current.firstCluster < 2 then .ok (fat32ErrIo, none)
            else lookupNames env vol (calls + 1) current.firstCluster rest

/-- The result of `fat32_read_dir_path`, and the entries that it wrote if it came to writing some. The
listing has its buffer after those of the lookups. -/
def fat32ReadDirPath (env : FsEnv) (vol : Fat32Vol) (path : List UInt8) (maxEntries : Nat) :
    FsM (Int × Option (List Fat32Dirent)) := do
  let (rc, found) ← fat32LookupPath env vol path
  if rc < 0 then return (rc, none)
  match found with
  | none => .error .misuse
  | some dirent =>
    if dirent.attributes &&& fatAttrDirectory = 0 then return (fat32ErrNotdir, none)
    let dirCluster := if dirent.firstCluster < 2 then vol.rootCluster else dirent.firstCluster
    let buffer := env.buffers (components 0x2F (cString path)).length
    let (listed, out) ← fat32ReadDir env.disk vol env.fuel (some buffer) dirCluster maxEntries
    return (if listed then 0 else fat32ErrIo, some out)

section Names

variable {env : FsEnv} {vol : Fat32Vol} {p path : List UInt8} {cluster calls fuel : Nat} {current : Option Fat32Dirent}

/-- The loop over a path is the walk over its components. -/
theorem lookupPath_names (some' : cString p ≠ []) (start : (cString p).head? ≠ some 0x2F)
    (enough : (components 0x2F (cString p)).length < fuel) :
    Lib.loop (lookupPathPass env vol) fuel ⟨p, cluster, current, calls⟩ =
      some (lookupNames env vol calls cluster (components 0x2F (cString p))) := by
  induction fuel generalizing p cluster current calls with
  | zero => omega
  | succ fuel ih =>
    obtain ⟨split, start'⟩ := components_behind some' start
    rw [split, List.length_cons] at enough
    rw [split, lookupNames]
    simp only [Lib.loop, lookupPathPass, fat32CopySegment]
    rw [if_neg (fun head => some' (cString_eq_nil.mpr head))]
    by_cases long : 257 ≤ (p.takeWhile fun c => c ≠ 0 ∧ c ≠ 0x2F).length
    · grind
    rw [if_neg long, if_neg long]
    dsimp only
    cases fat32Lookup env.disk vol env.fuel (some (env.buffers calls)) cluster
        (p.takeWhile fun c => c ≠ 0 ∧ c ≠ 0x2F) with
    | error halt => rfl
    | ok answer =>
      obtain ⟨rc, found⟩ := answer
      dsimp only
      by_cases negative : rc < 0
      · grind
      rw [if_neg negative, if_neg negative]
      cases found with
      | none => rfl
      | some ent =>
        dsimp only
        by_cases ended : cString (fat32SkipSlashes (p.drop (p.takeWhile fun c => c ≠ 0 ∧ c ≠ 0x2F).length)) = []
        · rw [if_neg (not_not.mpr (cString_eq_nil.mp ended)), if_pos ((components_nil_iff start').mpr ended)]
          obtain ⟨fuel, rfl⟩ : ∃ rest, fuel = rest + 1 := ⟨fuel - 1, by omega⟩
          simp only [Lib.loop, lookupPathPass]
          rw [if_pos (cString_eq_nil.mp ended)]
        · have more := fun none' => ended ((components_nil_iff start').mp none')
          rw [if_pos (fun head => ended (cString_eq_nil.mpr head)), if_neg more]
          grind

/-- `fat32_lookup_path` walks over the components of its path. -/
theorem fat32LookupPath_eq (enough : (components 0x2F (cString path)).length < env.fuel) :
    fat32LookupPath env vol path = lookupNames env vol 0 vol.rootCluster (components 0x2F (cString path)) := by
  unfold fat32LookupPath
  by_cases empty : path.headD 0 = 0
  · rw [if_pos empty, cString_eq_nil.mpr empty]
    rfl
  rw [if_neg empty, ← components_skipSlashes]
  by_cases spent : cString (fat32SkipSlashes path) = []
  · rw [if_pos (cString_eq_nil.mp spent), spent]
    rfl
  · rw [if_neg fun head => spent (cString_eq_nil.mpr head)]
    have start : (cString (fat32SkipSlashes path)).head? ≠ some 0x2F :=
      (AtEntry.root spent : AtEntry env.disk vol _ _ _ _).start
    rw [lookupPath_names spent start (by rwa [components_skipSlashes])]
    rfl

end Names

section Lookups

variable {disk : Disk} {vol : Fat32Vol} {cluster fuel : Nat} {buf filled : Bytes} {name : List UInt8} {ent : Fat32Dirent}
variable {es : List Fat32Dirent} {ended : ScanEnd}

theorem feed_lookup_hit (hit : es.find? (fun d => fat32NameEqualCi d.name name) = some ent) :
    feed (fat32LookupCb name) es none = (some 0, some ent) := by
  induction es with
  | nil => cases hit
  | cons d rest ih =>
    rw [List.find?_cons] at hit
    cases same : fat32NameEqualCi d.name name with
    | true =>
      rw [same] at hit
      cases hit
      simp [feed, fat32LookupCb, same]
    | false =>
      rw [same] at hit
      simpa [feed, fat32LookupCb, same] using ih hit

theorem feed_lookup_miss (miss : es.find? (fun d => fat32NameEqualCi d.name name) = none) :
    feed (fat32LookupCb name) es none = (none, none) := by
  induction es with
  | nil => rfl
  | cons d rest ih =>
    rw [List.find?_cons] at miss
    cases same : fat32NameEqualCi d.name name with
    | true =>
      grind
    | false =>
      rw [same] at miss
      simpa [feed, fat32LookupCb, same] using ih miss

section

variable (inside : 2 ≤ cluster ∧ cluster < fat32Bad)
  (read : fat32ReadCluster disk vol cluster buf = some filled)
include inside read

/-- A lookup whose first cluster lists the name. -/
theorem fat32Lookup_hit (scanned : scanEntries .initial (rawEntries vol filled) = (es, ended))
    (hit : es.find? (fun d => fat32NameEqualCi d.name name) = some ent) :
    fat32Lookup disk vol (fuel + 1) (some buf) cluster name = .ok (0, some ent) := by
  have iterated := @iterDirEntries_scan _ (fat32LookupCb name) (rawEntries vol filled) .initial none
  simp only [scanned, feed_lookup_hit hit] at iterated
  obtain ⟨lfn, iterated⟩ := iterated
  rw [fat32Lookup, fat32IterDir, if_neg (Nat.not_lt.mpr inside.1), iterDir_pass inside, read]
  simp only [iterated]
  rfl

/-- A lookup that comes to the end marker in its first cluster. -/
theorem fat32Lookup_miss (scanned : scanEntries .initial (rawEntries vol filled) = (es, .marker))
    (miss : es.find? (fun d => fat32NameEqualCi d.name name) = none) :
    fat32Lookup disk vol (fuel + 1) (some buf) cluster name = .ok (fat32ErrNoent, none) := by
  have iterated := @iterDirEntries_scan _ (fat32LookupCb name) (rawEntries vol filled) .initial none
  simp only [scanned, feed_lookup_miss miss] at iterated
  obtain ⟨lfn, iterated⟩ := iterated
  rw [fat32Lookup, fat32IterDir, if_neg (Nat.not_lt.mpr inside.1), iterDir_pass inside, read]
  simp only [iterated]
  rfl

/-- A lookup that goes on to a table entry that cannot be read. -/
theorem fat32Lookup_lost {lfn : LfnState}
    (scanned : scanEntries .initial (rawEntries vol filled) = (es, .running lfn))
    (miss : es.find? (fun d => fat32NameEqualCi d.name name) = none)
    (bad : fat32ReadFatEntry disk vol cluster = fat32Bad) :
    fat32Lookup disk vol (fuel + 1) (some buf) cluster name = .ok (fat32ErrIo, none) := by
  have iterated := @iterDirEntries_scan _ (fat32LookupCb name) (rawEntries vol filled) .initial none
  simp only [scanned, feed_lookup_miss miss] at iterated
  rw [fat32Lookup, fat32IterDir, if_neg (Nat.not_lt.mpr inside.1), iterDir_pass inside, read]
  simp only [iterated, if_pos bad]
  rfl

end

/-- A lookup that finds something does so in a cluster of a chain. -/
theorem Finds.inside (finds : Finds disk vol cluster name ent) : 2 ≤ cluster ∧ cluster < fat32Bad := by
  refine ⟨finds.proper, ?_⟩
  obtain ⟨fuel, found⟩ := finds
  by_contra past
  have outside : ¬ (2 ≤ cluster ∧ cluster < fat32Bad) := fun inside => past inside.2
  unfold fat32Lookup fat32IterDir at found
  split at found
  · cases found
  · cases fuel with
    | zero => cases found
    | succ fuel =>
      simp only [iterDir_past outside] at found
      cases found

/-- An entry that is found with zeros in the buffer is found whatever was there. -/
theorem Finds.lookup (finds : Finds disk vol cluster name ent) (mounted : vol.Mounted) :
    ∃ n, ∀ fuel ≥ n, ∀ buf, fat32Lookup disk vol fuel (some buf) cluster name = .ok (0, some ent) := by
  have inside := finds.inside
  obtain ⟨n, found⟩ := finds
  by_cases inSectors : ScanInSectors disk vol cluster
  · refine ⟨n, fun fuel enough buf => ?_⟩
    have settled : ScanSettled disk vol cluster := inSectors.fixed mounted
    grind [ScanSettled.lookup, fat32Lookup_mono]
  · simp only [ScanInSectors, not_or, not_forall, Classical.not_not, Nat.not_le] at inSectors
    obtain ⟨other, -, filled, read, lfn, running⟩ := inSectors
    obtain ⟨es, scanned⟩ : ∃ es, scanEntries .initial (diskEntries vol filled) = (es, .running lfn) :=
      ⟨_, Prod.ext rfl running⟩
    have zeros := scan_zeros mounted other read scanned
    have found' := fat32Lookup_mono found (Nat.le_succ n)
    refine ⟨1, fun fuel enough buf => ?_⟩
    obtain ⟨fuel, rfl⟩ : ∃ rest, fuel = rest + 1 := ⟨fuel - 1, by omega⟩
    -- The entry is one of those in the sectors read, so the scan does not leave them.
    cases looked : es.find? (fun d => fat32NameEqualCi d.name name) with
    | none =>
      grind [fat32Lookup_miss]
    | some d =>
      obtain ⟨filled', read', same, -⟩ := fat32ReadCluster_other read buf
      have parts : scanEntries .initial (rawEntries vol filled') =
          (es ++ (scanEntries lfn (staleEntries vol filled')).1, (scanEntries lfn (staleEntries vol filled')).2) := by
        rw [rawEntries_split mounted, scanEntries_append, diskEntries_congr same, scanned]
      grind [fat32Lookup_hit]

/-- A name that `fat32_copy_segment` lets pass and no entry has. -/
def longestName : List UInt8 := List.replicate 256 0x61

theorem cString_longestName : cString longestName = longestName := by
  refine List.takeWhile_eq_self_iff.mpr fun byte member => ?_
  rw [List.eq_of_mem_replicate member]
  decide

theorem find?_longestName (short : ∀ d ∈ es, d.name.length ≤ vfsNameMax) :
    es.find? (fun d => fat32NameEqualCi d.name longestName) = none := by
  refine List.find?_eq_none.mpr fun d member same => ?_
  have length := cString_length_of_fold ((fat32NameEqualCi_iff _ _).mp same)
  have whole : longestName.length = 256 := List.length_replicate
  have fits : (cString d.name).length ≤ d.name.length := (List.takeWhile_prefix _).length_le
  have bound := short d member
  rw [cString_longestName] at length
  unfold vfsNameMax at bound
  omega

/-- When a scan leaves the sectors read, so does a lookup of that name. -/
theorem lookup_varies (mounted : vol.Mounted) (proper : 2 ≤ cluster) (leaves : ¬ ScanInSectors disk vol cluster) (fuel : Nat) :
    fat32Lookup disk vol (fuel + 1) (some fun _ => 0) cluster longestName = .ok (fat32ErrNoent, none) ∧
      fat32Lookup disk vol (fuel + 1) (some fun _ => 0xE5) cluster longestName = .ok (fat32ErrIo, none) := by
  simp only [ScanInSectors, not_or, not_forall, Classical.not_not, Nat.not_le] at leaves
  obtain ⟨other, below, filled, read, lfn, running⟩ := leaves
  obtain ⟨es, scanned⟩ : ∃ es, scanEntries .initial (diskEntries vol filled) = (es, .running lfn) :=
    ⟨_, Prod.ext rfl running⟩
  have large := mounted.large other
  have short : ∀ d ∈ es, d.name.length ≤ vfsNameMax := by
    grind [scanEntries_names]
  have miss := find?_longestName short
  refine ⟨fat32Lookup_miss ⟨proper, below⟩ read (scan_zeros mounted other read scanned) miss, ?_⟩
  grind [scan_deleted, fat32Lookup_lost, fat32ReadFatEntry_large]

end Lookups

/-- A listing of the directory stays in the bytes that were read from the drive: they fill its
clusters, or they hold an end marker. -/
def EndMarked (disk : Disk) (vol : Fat32Vol) (dirCluster : Nat) : Prop :=
  vol.bpb.bytesPerSector = 512 ∨ fat32Bad ≤ dirCluster ∨
    ∀ filled, fat32ReadCluster disk vol dirCluster (fun _ => 0) = some filled → ∃ raw ∈ diskEntries vol filled, raw 0 = 0

section Listings

variable {disk : Disk} {vol : Fat32Vol} {cluster fuel maxEntries : Nat} {lfn : LfnState} {out : List Fat32Dirent}
variable {first second : List Bytes}

/-- What lies behind an end marker does not count. -/
theorem processDirEntries_marked (marker : ∃ raw ∈ first, raw 0 = 0) :
    processDirEntries maxEntries (first ++ second) lfn out = processDirEntries maxEntries first lfn out := by
  grind [processDirEntries_append, processDirEntries_marker]

theorem readDir_buffers (mounted : vol.Mounted) (sector512 : vol.bpb.bytesPerSector = 512) (buf buf' : Bytes) :
    Lib.loop (readDirPass disk vol maxEntries) fuel ⟨cluster, lfn, out, buf⟩ =
      Lib.loop (readDirPass disk vol maxEntries) fuel ⟨cluster, lfn, out, buf'⟩ := by
  induction fuel generalizing cluster lfn out buf buf' with
  | zero => rfl
  | succ fuel ih =>
    by_cases inside : 2 ≤ cluster ∧ cluster < fat32Bad
    · rw [readDir_pass inside, readDir_pass inside]
      cases read : fat32ReadCluster disk vol cluster buf with
      | none => rw [fat32ReadCluster_none read buf']
      | some filled =>
        obtain ⟨filled', read', same⟩ := rawEntries_other mounted sector512 read buf'
        grind
    grind [readDir_past]

/-- What a listing writes does not depend on what its buffer held. -/
theorem EndMarked.readDir (marked : EndMarked disk vol cluster) (mounted : vol.Mounted) (fuel maxEntries : Nat) (buf buf' : Bytes) :
    fat32ReadDir disk vol fuel (some buf) cluster maxEntries = fat32ReadDir disk vol fuel (some buf') cluster maxEntries := by
  simp only [fat32ReadDir]
  by_cases sector512 : vol.bpb.bytesPerSector = 512
  · grind [readDir_buffers]
  cases fuel with
  | zero => rfl
  | succ fuel =>
    by_cases inside : 2 ≤ cluster ∧ cluster < fat32Bad
    · rw [readDir_pass inside, readDir_pass inside]
      cases read : fat32ReadCluster disk vol cluster fun _ => 0 with
      | none => grind [fat32ReadCluster_none]
      | some filled =>
        rcases marked with same | past | marker
        · omega
        · omega
        obtain ⟨first, read₁, same₁, -⟩ := fat32ReadCluster_other read buf
        obtain ⟨second, read₂, same₂, -⟩ := fat32ReadCluster_other read buf'
        rw [read₁, read₂]
        dsimp only
        rw [rawEntries_split mounted, rawEntries_split mounted, diskEntries_congr same₁, diskEntries_congr same₂,
          processDirEntries_marked (marker filled read), processDirEntries_marked (marker filled read)]
        grind [processDirEntries_marker]
    grind [readDir_past]

/-- Without an end marker in the sectors read, a listing of no entries goes on to what the buffer held. -/
theorem listing_varies (mounted : vol.Mounted) (proper : 2 ≤ cluster) (leaves : ¬ EndMarked disk vol cluster) (fuel : Nat) :
    fat32ReadDir disk vol (fuel + 1) (some fun _ => 0) cluster 0 = .ok (true, []) ∧
      fat32ReadDir disk vol (fuel + 1) (some fun _ => 0xE5) cluster 0 = .ok (false, []) := by
  simp only [EndMarked, not_or, not_forall, not_exists, Nat.not_le] at leaves
  obtain ⟨other, below, filled, read, unmarked⟩ := leaves
  have large := mounted.large other
  have running : ∀ raw ∈ diskEntries vol filled, raw 0 ≠ 0 := fun raw member zero => unmarked raw ⟨member, zero⟩
  constructor
  · obtain ⟨filled', read', -, behind⟩ := fat32ReadCluster_other read fun _ => 0
    cases read.symm.trans read'
    obtain ⟨lfn, skipped⟩ := @processDirEntries_full _ .initial 0 [] (Nat.le_refl 0) running
    have zero := staleEntries_first behind
    have processed : ∃ lfn', processDirEntries 0 (rawEntries vol filled) .initial [] = .ok (true, lfn', []) := by
      rw [rawEntries_split mounted, processDirEntries_append, skipped]
      cases stale : staleEntries vol filled with
      | nil => grind [staleEntries_ne_nil]
      | cons raw rest =>
        have marker : entryKind lfn raw = .marker := entryKind_marker.mpr (zero raw (stale ▸ List.mem_cons_self))
        grind [processDirEntries_cons]
    obtain ⟨lfn', processed⟩ := processed
    simp only [fat32ReadDir, readDir_pass ⟨proper, below⟩, read, processed]
    rfl
  · obtain ⟨filled', read', same, behind⟩ := fat32ReadCluster_other read fun _ => 0xE5
    have deleted : ∀ raw ∈ rawEntries vol filled', raw 0 ≠ 0 := by
      intro raw member
      rw [rawEntries_split mounted, List.mem_append, diskEntries_congr same] at member
      rcases member with onDisk | stale
      · exact running raw onDisk
      · rw [staleEntries_first behind raw stale]
        decide
    obtain ⟨lfn, skipped⟩ := @processDirEntries_full _ .initial 0 [] (Nat.le_refl 0) deleted
    simp only [fat32ReadDir, readDir_pass ⟨proper, below⟩, read', skipped,
      fat32ReadFatEntry_large (show 512 < vol.bpb.bytesPerSector by omega), if_true]
    rfl

end Listings

end Velox
