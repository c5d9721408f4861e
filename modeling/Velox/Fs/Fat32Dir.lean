import Velox.Fs.Fat32
import Mathlib.Data.List.DropRight

/-! The directories of `fs/fat32.c`: long and short names, the two scanners, and
the lookups made of them. -/

namespace Velox

open Lib (Bytes le16 le32)

def fatAttrVolumeId : UInt8 := 0x08
def fatAttrDirectory : UInt8 := 0x10
def fatAttrLfn : UInt8 := 0x0F

structure Fat32Timestamp where
  rawDate : Nat
  rawTime : Nat
deriving DecidableEq, Repr

/-- `name` holds the bytes written before the terminator; the rest of the field is
zero. -/
structure Fat32Dirent where
  name : List UInt8
  attributes : UInt8
  firstCluster : Nat
  fileSize : Nat
  created : Fat32Timestamp
  modified : Fat32Timestamp
  accessed : Fat32Timestamp
deriving DecidableEq, Repr

/-- Writing a name of more than `FAT32_NAME_MAX` bytes, terminator included, past the
end of its field; using a node that is not there; giving a block back that is not
handed out. -/
inductive FsFault where
  | nameOverrun
  | danglingNode
  | badFree
deriving DecidableEq, Repr

/-- The long name collected so far; `total` is the length of `chars`. -/
structure LfnState where
  chars : List Nat
  expectedSeq : UInt8
  checksum : UInt8
  valid : Bool
deriving DecidableEq, Repr

def LfnState.initial : LfnState := ⟨[], 0, 0, false⟩

/-- `valid = false; total = 0`. -/
def LfnState.discard (lfn : LfnState) : LfnState := { lfn with chars := [], valid := false }

def lfnChecksum (name11 : Bytes) : UInt8 :=
  (List.range 11).foldl (fun sum i => (if sum &&& 1 ≠ 0 then (0x80 : UInt8) else 0) + (sum >>> 1) + name11 i) 0

/-- The code units of a slot: `name1`, `name2` and `name3`. -/
def lfnUnits (slot : Bytes) : List Nat :=
  [1, 3, 5, 7, 9, 14, 16, 18, 20, 22, 24, 28, 30].map (le16 slot)

def lfnPush (lfn : LfnState) (slot : Bytes) : LfnState :=
  if 20 * 13 < lfn.chars.length + 13 then { lfn with valid := false }
  else { lfn with chars := lfnUnits slot ++ lfn.chars }

def utf8Unit (cp : Nat) : List UInt8 :=
  if cp < 0x0080 then [UInt8.ofNat cp]
  else if cp < 0x0800 then [UInt8.ofNat (0xC0 ||| cp >>> 6), UInt8.ofNat (0x80 ||| cp &&& 0x3F)]
  else [UInt8.ofNat (0xE0 ||| cp >>> 12), UInt8.ofNat (0x80 ||| (cp >>> 6) &&& 0x3F), UInt8.ofNat (0x80 ||| cp &&& 0x3F)]

/-- Into a name field of 256 bytes. -/
def utf16leToUtf8 (chars : List Nat) : Except FsFault (List UInt8) :=
  let bytes := (chars.takeWhile (· ≠ 0)).flatMap utf8Unit
  if bytes.length + 1 ≤ 256 then .ok bytes else .error .nameOverrun

def fat32Tolower (c : UInt8) : UInt8 := if 0x41 ≤ c ∧ c ≤ 0x5A then c + 32 else c

def build83Name (raw : Bytes) : List UInt8 :=
  let base := ((List.range 8).map raw).rdropWhile (· = 0x20)
  let ext := ((List.range 3).map fun j => raw (8 + j)).rdropWhile (· = 0x20)
  base.map fat32Tolower ++ if ext = [] then [] else 0x2E :: ext.map fat32Tolower

/-- The 32 bytes of an entry. -/
def rawEntry (clusterBuf : Bytes) (i : Nat) : Bytes := fun j => if j < 32 then clusterBuf (i * 32 + j) else 0

def rawEntries (vol : Fat32Vol) (clusterBuf : Bytes) : List Bytes :=
  (List.range (vol.bytesPerCluster / 32)).map (rawEntry clusterBuf)

/-- The loop of `process_dir_cluster`: whether the end marker was met, the long name
state, and the entries written. -/
def processDirEntries (maxEntries : Nat) :
    List Bytes → LfnState → List Fat32Dirent → Except FsFault (Bool × LfnState × List Fat32Dirent)
  | [], lfn, out => .ok (false, lfn, out)
  | raw :: rest, lfn, out =>
    let first := raw 0
    if first = 0x00 then .ok (true, lfn, out)
    else if first = 0xE5 then processDirEntries maxEntries rest lfn.discard out
    else if raw 11 = fatAttrLfn then
      let seq := raw 0
      let lfn := if seq &&& 0x40 ≠ 0 then ⟨[], seq &&& 0xBF, raw 13, true⟩ else lfn
      let lfn := if !lfn.valid || seq &&& 0xBF != lfn.expectedSeq then { lfn with valid := false } else lfn
      let lfn :=
        if lfn.valid then
          let lfn := lfnPush lfn raw
          { lfn with expectedSeq := lfn.expectedSeq - 1 }
        else lfn
      processDirEntries maxEntries rest lfn out
    else if raw 11 &&& fatAttrVolumeId ≠ 0 then processDirEntries maxEntries rest lfn.discard out
    else if maxEntries ≤ out.length then processDirEntries maxEntries rest lfn.discard out
    else do
      let name ←
        if lfn.valid && lfn.chars.length > 0 && lfn.expectedSeq == 0 && lfnChecksum raw == lfn.checksum then
          utf16leToUtf8 lfn.chars
        else .ok (build83Name raw)
      let d : Fat32Dirent := {
        name := name
        attributes := raw 11
        firstCluster := le16 raw 20 * 2 ^ 16 + le16 raw 26
        fileSize := le32 raw 28
        created := ⟨le16 raw 16, le16 raw 14⟩
        modified := ⟨le16 raw 24, le16 raw 22⟩
        accessed := ⟨le16 raw 18, 0⟩ }
      processDirEntries maxEntries rest lfn.discard (out ++ [d])

def processDirCluster (vol : Fat32Vol) (clusterBuf : Bytes) (lfn : LfnState) (out : List Fat32Dirent)
    (maxEntries : Nat) : Except FsFault (Bool × LfnState × List Fat32Dirent) :=
  processDirEntries maxEntries (rawEntries vol clusterBuf) lfn out

/-- The variables of a walk over the clusters of a directory, with what it has
collected. -/
structure DirWalk (σ : Type) where
  cluster : Nat
  lfn : LfnState
  collected : σ
  clusterBuf : Bytes

def readDirPass (disk : Disk) (vol : Fat32Vol) (maxEntries : Nat) (s : DirWalk (List Fat32Dirent)) :
    DirWalk (List Fat32Dirent) ⊕ Except (Lib.Halt FsFault) (Bool × List Fat32Dirent) :=
  if ¬ (2 ≤ s.cluster ∧ s.cluster < fat32Bad) then .inr (.ok (true, s.collected))
  else
    match fat32ReadCluster disk vol s.cluster s.clusterBuf with
    | none => .inr (.ok (false, s.collected))
    | some clusterBuf =>
      match processDirCluster vol clusterBuf s.lfn s.collected maxEntries with
      | .error fault => .inr (.error (.fault fault))
      | .ok (true, _, out) => .inr (.ok (true, out))
      | .ok (false, lfn, out) =>
        let next := fat32ReadFatEntry disk vol s.cluster
        if next = fat32Bad then .inr (.ok (false, out))
        else .inl ⟨next, lfn, out, clusterBuf⟩

/-- The answer of `fat32_read_dir` and the entries it wrote. -/
def fat32ReadDir (disk : Disk) (vol : Fat32Vol) (fuel : Nat) (clusterBuf : Option Bytes) (dirCluster maxEntries : Nat) :
    Except (Lib.Halt FsFault) (Bool × List Fat32Dirent) :=
  match clusterBuf with
  | none => .ok (false, [])
  | some clusterBuf =>
    Lib.finish (Lib.loop (readDirPass disk vol maxEntries) fuel ⟨dirCluster, .initial, [], clusterBuf⟩)

/-- `fat32.c` and `fat32_vfs.c` have a copy each. A zero byte ends a name. -/
def fat32NameEqualCi : List UInt8 → List UInt8 → Bool
  | [], [] => true
  | [], b :: _ => b == 0
  | a :: _, [] => a == 0
  | a :: as, b :: bs =>
    if a ≠ 0 ∧ b ≠ 0 then fat32Tolower a == fat32Tolower b && fat32NameEqualCi as bs else a == 0 && b == 0

section Iterate

variable {σ : Type} (cb : Fat32Dirent → σ → Int × σ)

/-- The loop over a cluster in `fat32_iter_dir`: whether the walk is over, and with
which result. -/
def iterDirEntries : List Bytes → LfnState → σ → Except FsFault (Option Int × LfnState × σ)
  | [], lfn, ctx => .ok (none, lfn, ctx)
  | raw :: rest, lfn, ctx =>
    let first := raw 0
    if first = 0x00 then .ok (some 0, lfn, ctx)
    else if first = 0xE5 then iterDirEntries rest lfn.discard ctx
    else if raw 11 = fatAttrLfn then
      let seq := raw 0
      let lfn := if seq &&& 0x40 ≠ 0 then ⟨[], seq &&& 0xBF, raw 13, true⟩ else lfn
      let lfn := if !lfn.valid || seq &&& 0xBF != lfn.expectedSeq then { lfn with valid := false } else lfn
      let lfn :=
        if lfn.valid then
          let lfn := lfnPush lfn raw
          { lfn with expectedSeq := lfn.expectedSeq - 1 }
        else lfn
      iterDirEntries rest lfn ctx
    else if raw 11 &&& fatAttrVolumeId ≠ 0 then iterDirEntries rest lfn.discard ctx
    else do
      let name ←
        if lfn.valid && lfn.chars.length > 0 && lfn.expectedSeq == 0 && lfnChecksum raw == lfn.checksum then
          utf16leToUtf8 lfn.chars
        else .ok (build83Name raw)
      let d : Fat32Dirent := {
        name := name
        attributes := raw 11
        firstCluster := le16 raw 20 * 2 ^ 16 + le16 raw 26
        fileSize := le32 raw 28
        created := ⟨le16 raw 16, le16 raw 14⟩
        modified := ⟨le16 raw 24, le16 raw 22⟩
        accessed := ⟨le16 raw 18, 0⟩ }
      match cb d ctx with
      | (cbRc, ctx) =>
        if cbRc < 0 then .ok (some cbRc, lfn.discard, ctx)
        else if 0 < cbRc then .ok (some 0, lfn.discard, ctx)
        else iterDirEntries rest lfn.discard ctx

def iterDirPass (disk : Disk) (vol : Fat32Vol) (s : DirWalk σ) : DirWalk σ ⊕ Except (Lib.Halt FsFault) (Int × σ) :=
  if ¬ (2 ≤ s.cluster ∧ s.cluster < fat32Bad) then .inr (.ok (0, s.collected))
  else
    match fat32ReadCluster disk vol s.cluster s.clusterBuf with
    | none => .inr (.ok (fat32ErrIo, s.collected))
    | some clusterBuf =>
      match iterDirEntries cb (rawEntries vol clusterBuf) s.lfn s.collected with
      | .error fault => .inr (.error (.fault fault))
      | .ok (some rc, _, ctx) => .inr (.ok (rc, ctx))
      | .ok (none, lfn, ctx) =>
        let next := fat32ReadFatEntry disk vol s.cluster
        if next = fat32Bad then .inr (.ok (fat32ErrIo, ctx))
        else if fat32Eoc ≤ next then .inr (.ok (0, ctx))
        else .inl ⟨next, lfn, ctx, clusterBuf⟩

def fat32IterDir (disk : Disk) (vol : Fat32Vol) (fuel : Nat) (clusterBuf : Option Bytes) (dirCluster : Nat) (ctx : σ) :
    Except (Lib.Halt FsFault) (Int × σ) :=
  if dirCluster < 2 then .ok (fat32ErrInval, ctx)
  else
    match clusterBuf with
    | none => .ok (fat32ErrNomem, ctx)
    | some clusterBuf =>
      Lib.finish (Lib.loop (iterDirPass cb disk vol) fuel ⟨dirCluster, .initial, ctx, clusterBuf⟩)

end Iterate

def fat32LookupCb (name : List UInt8) (ent : Fat32Dirent) (found : Option Fat32Dirent) : Int × Option Fat32Dirent :=
  if fat32NameEqualCi ent.name name then (1, some ent) else (0, found)

def fat32ReaddirCb (target : Nat) (ent : Fat32Dirent) : Nat × Option Fat32Dirent → Int × Nat × Option Fat32Dirent
  | (current, found) => if current = target then (1, current, some ent) else (0, current + 1, found)

/-- The result of `fat32_lookup` and what it stored in `*out`. -/
def fat32Lookup (disk : Disk) (vol : Fat32Vol) (fuel : Nat) (clusterBuf : Option Bytes) (dirCluster : Nat)
    (name : List UInt8) : Except (Lib.Halt FsFault) (Int × Option Fat32Dirent) := do
  let (rc, found) ← fat32IterDir (fat32LookupCb name) disk vol fuel clusterBuf dirCluster none
  if rc < 0 then return (rc, found)
  return (if found.isSome then 0 else fat32ErrNoent, found)

def fat32ReaddirIndex (disk : Disk) (vol : Fat32Vol) (fuel : Nat) (clusterBuf : Option Bytes) (dirCluster index : Nat) :
    Except (Lib.Halt FsFault) (Int × Option Fat32Dirent) := do
  let (rc, _, found) ← fat32IterDir (fat32ReaddirCb index) disk vol fuel clusterBuf dirCluster (0, none)
  if rc < 0 then return (rc, found)
  return (if found.isSome then 1 else 0, found)

def fat32MakeRootDirent (vol : Fat32Vol) : Fat32Dirent where
  name := [0x2F]
  attributes := fatAttrDirectory
  firstCluster := vol.rootCluster
  fileSize := 0
  created := ⟨0, 0⟩
  modified := ⟨0, 0⟩
  accessed := ⟨0, 0⟩

def fat32SkipSlashes (p : List UInt8) : List UInt8 := p.dropWhile (· = 0x2F)

/-- The segment and what follows it. -/
def fat32CopySegment (p : List UInt8) (outCap : Nat) : Except Int (List UInt8 × List UInt8) :=
  let segment := p.takeWhile fun c => c ≠ 0 ∧ c ≠ 0x2F
  if outCap ≤ segment.length then .error fat32ErrNametoolong else .ok (segment, p.drop segment.length)

/-- The disk, how many passes a loop may make, and what the cluster buffers that
`kmalloc` hands out hold, by their number. -/
structure FsEnv where
  disk : Disk
  fuel : Nat
  buffers : Nat → Bytes

/-- The variables of `fat32_lookup_path`; `calls` counts its lookups. -/
structure PathWalk where
  rest : List UInt8
  dirCluster : Nat
  current : Option Fat32Dirent
  calls : Nat

def lookupPathPass (env : FsEnv) (vol : Fat32Vol) (s : PathWalk) :
    PathWalk ⊕ Except (Lib.Halt FsFault) (Int × Option Fat32Dirent) :=
  if s.rest.headD 0 = 0 then .inr (.ok (0, s.current))
  else
    match fat32CopySegment s.rest 257 with
    | .error rc => .inr (.ok (rc, none))
    | .ok (name, rest) =>
      match fat32Lookup env.disk vol env.fuel (some (env.buffers s.calls)) s.dirCluster name with
      | .error halt => .inr (.error halt)
      | .ok (rc, found) =>
        if rc < 0 then .inr (.ok (rc, none))
        else
          match found with
          | none => .inr (.error .misuse)
          | some current =>
            let rest := fat32SkipSlashes rest
            if rest.headD 0 ≠ 0 then
              if current.attributes &&& fatAttrDirectory = 0 then .inr (.ok (fat32ErrNotdir, none))
              else if current.firstCluster < 2 then .inr (.ok (fat32ErrIo, none))
              else .inl ⟨rest, current.firstCluster, some current, s.calls + 1⟩
            else .inl ⟨rest, s.dirCluster, some current, s.calls + 1⟩

/-- The result of `fat32_lookup_path` and what it stored in `*out`. -/
def fat32LookupPath (env : FsEnv) (vol : Fat32Vol) (path : List UInt8) :
    Except (Lib.Halt FsFault) (Int × Option Fat32Dirent) :=
  if path.headD 0 = 0 then .ok (0, some (fat32MakeRootDirent vol))
  else
    let p := fat32SkipSlashes path
    if p.headD 0 = 0 then .ok (0, some (fat32MakeRootDirent vol))
    else Lib.finish (Lib.loop (lookupPathPass env vol) env.fuel ⟨p, vol.rootCluster, none, 0⟩)

end Velox
