import Velox.Fs.DirScan

namespace Velox

open Lib (Bytes)

variable {lfn : LfnState}

section Sectors

variable {disk : Disk} {vol : Fat32Vol} {dirCluster cluster : Nat} {buf filled : Bytes}

/-- A cluster that can be read into one buffer can be read into another, and the
bytes from the disk are the same. -/
theorem fat32ReadCluster_other (read : fat32ReadCluster disk vol cluster buf = some filled) (other : Bytes) :
    ∃ filled', fat32ReadCluster disk vol cluster other = some filled' ∧
      (∀ i < 512 * vol.bpb.sectorsPerCluster, filled' i = filled i) ∧
      ∀ i, 512 * vol.bpb.sectorsPerCluster ≤ i → filled' i = other i := by
  have some' := fat32ReadCluster_isSome disk vol cluster other buf
  rw [read] at some'
  obtain ⟨filled', read'⟩ := Option.isSome_iff_exists.mp some'
  refine ⟨filled', read', fun i below => ?_, fun i above => ?_⟩
  · rw [fat32ReadCluster_bytes read', fat32ReadCluster_bytes read, if_pos below, if_pos below]
  · rw [fat32ReadCluster_bytes read', if_neg (Nat.not_lt.mpr above)]

theorem fat32ReadCluster_none (failed : fat32ReadCluster disk vol cluster buf = none) (other : Bytes) :
    fat32ReadCluster disk vol cluster other = none := by
  cases read : fat32ReadCluster disk vol cluster other with
  | none => rfl
  | some filled =>
    obtain ⟨_, read', -⟩ := fat32ReadCluster_other read buf
    grind

/-- With sectors of 512 bytes the drive fills whole clusters. -/
theorem scanFixed_of_512 (mounted : vol.Mounted) (sector512 : vol.bpb.bytesPerSector = 512) :
    ScanFixed disk vol fun _ _ => True where
  seen := by
    intro cluster lfn _ _ buf
    unfold clusterScan
    cases read : fat32ReadCluster disk vol cluster (fun _ => 0) with
    | none => rw [fat32ReadCluster_none read buf]
    | some filled =>
      obtain ⟨filled', read', same, -⟩ := fat32ReadCluster_other read buf
      rw [read', Option.map_some, Option.map_some, rawEntries, rawEntries, rawEntries_congr]
      grind [Fat32Vol.Mounted.bytesPerCluster]
  onward := fun _ _ _ _ => trivial

/-- The raw entries of a cluster that lie in the sectors read from the drive. -/
def diskEntries (vol : Fat32Vol) (filled : Bytes) : List Bytes :=
  (List.range (16 * vol.bpb.sectorsPerCluster)).map (rawEntry filled)

/-- A scan of the directory stays in the bytes that were read from the drive: they
fill its clusters, or it ends in its first cluster before it leaves them. -/
def ScanInSectors (disk : Disk) (vol : Fat32Vol) (dirCluster : Nat) : Prop :=
  vol.bpb.bytesPerSector = 512 ∨ fat32Bad ≤ dirCluster ∨
    ∀ filled, fat32ReadCluster disk vol dirCluster (fun _ => 0) = some filled →
      ∀ lfn, (scanEntries .initial (diskEntries vol filled)).2 ≠ .running lfn

/-- The raw entries behind these sectors. -/
def staleEntries (vol : Fat32Vol) (filled : Bytes) : List Bytes :=
  (List.range (vol.bytesPerCluster / 32 - 16 * vol.bpb.sectorsPerCluster)).map fun i =>
    rawEntry filled (16 * vol.bpb.sectorsPerCluster + i)

theorem rawEntries_split (mounted : vol.Mounted) (filled : Bytes) :
    rawEntries vol filled = diskEntries vol filled ++ staleEntries vol filled := by
  have enough : 16 * vol.bpb.sectorsPerCluster ≤ vol.bytesPerCluster / 32 := by
    have product := Nat.mul_le_mul_right vol.bpb.sectorsPerCluster mounted.sector
    rw [mounted.bytesPerCluster]
    omega
  rw [rawEntries, diskEntries, staleEntries]
  conv_lhs => rw [← Nat.add_sub_cancel' enough, List.range_add, List.map_append, List.map_map]
  rfl

theorem diskEntries_congr {first : Bytes}
    (same : ∀ i < 512 * vol.bpb.sectorsPerCluster, first i = second i) :
    diskEntries vol first = diskEntries vol second :=
  rawEntries_congr fun i below => same i (by omega)

theorem fat32ReadFatEntry_large (large : 512 < vol.bpb.bytesPerSector) (cluster : Nat) :
    fat32ReadFatEntry disk vol cluster = fat32Bad := by
  simp only [fat32ReadFatEntry, if_pos large]

/-- A scan that ends in the sectors read is the same for every buffer. -/
theorem scanFixed_of_ends (mounted : vol.Mounted) (large : 512 < vol.bpb.bytesPerSector)
    (ends : ∀ filled, fat32ReadCluster disk vol dirCluster (fun _ => 0) = some filled →
      ∀ lfn, (scanEntries .initial (diskEntries vol filled)).2 ≠ .running lfn) :
    ScanFixed disk vol fun cluster lfn => cluster = dirCluster ∧ lfn = .initial where
  seen := by
    rintro cluster lfn ⟨rfl, rfl⟩ - buf
    unfold clusterScan
    cases read : fat32ReadCluster disk vol cluster (fun _ => 0) with
    | none => rw [fat32ReadCluster_none read buf]
    | some filled =>
      obtain ⟨filled', read', same, -⟩ := fat32ReadCluster_other read buf
      grind [rawEntries_split, scanEntries_append, diskEntries_congr]
  onward := fun _ _ _ good => absurd (fat32ReadFatEntry_large large _) good

end Sectors

/-- Whatever the buffers hold: when `fat32_read_dir` with room to spare reports some
entries, the index reads and the lookups find these entries, and a smaller buffer
gets the first of them. -/
def DirScannersAgree (disk : Disk) (vol : Fat32Vol) (dirCluster : Nat) : Prop :=
  ∀ fuel buf maxEntries es, fat32ReadDir disk vol fuel (some buf) dirCluster maxEntries = .ok (true, es) →
    es.length < maxEntries → ∀ more ≥ fuel, ∀ buf',
      (∀ i, fat32ReaddirIndex disk vol more (some buf') dirCluster i = .ok (if i < es.length then 1 else 0, es[i]?)) ∧
      (∀ name, fat32Lookup disk vol more (some buf') dirCluster name =
        .ok (match es.find? fun d => fat32NameEqualCi d.name name with
          | some d => (0, some d)
          | none => (fat32ErrNoent, none))) ∧
      ∀ m, fat32ReadDir disk vol more (some buf') dirCluster m = .ok (true, es.take m)

section Agreement

variable {disk : Disk} {vol : Fat32Vol} {At : Nat → LfnState → Prop} {n dirCluster fuel : Nat} {es : List Fat32Dirent}
variable {filled : Bytes}

/-- What the four functions answer for a directory that lists some entries. -/
theorem Lists.answers (lists : Lists disk vol n dirCluster .initial es) (fixed : ScanFixed disk vol At)
    (here : At dirCluster .initial) (proper : 2 ≤ dirCluster) (enough : n < fuel) (buf : Bytes) :
    (∀ i, fat32ReaddirIndex disk vol fuel (some buf) dirCluster i = .ok (if i < es.length then 1 else 0, es[i]?)) ∧
    (∀ name, fat32Lookup disk vol fuel (some buf) dirCluster name =
      .ok (match es.find? fun d => fat32NameEqualCi d.name name with
        | some d => (0, some d)
        | none => (fat32ErrNoent, none))) ∧
    ∀ m, fat32ReadDir disk vol fuel (some buf) dirCluster m = .ok (true, es.take m) := by
  refine ⟨fun i => ?_, fun name => ?_, fun m => ?_⟩
  · obtain ⟨stopped, reached, fed, zero, -⟩ := feed_readdir i es 0 (Nat.zero_le i)
    rw [fat32ReaddirIndex, fat32IterDir, if_neg (Nat.not_lt.mpr proper), lists.iterDir fixed here enough, fed]
    simp only [Lib.finish, bind, Except.bind, zero, Nat.sub_zero]
    by_cases below : i < es.length
    · simp [below]
      rfl
    · simp [below]
      rfl
  · obtain ⟨stopped, fed, zero⟩ := feed_lookup name es
    rw [fat32Lookup, fat32IterDir, if_neg (Nat.not_lt.mpr proper), lists.iterDir fixed here enough, fed]
    simp only [Lib.finish, bind, Except.bind, zero]
    cases es.find? (fun d => fat32NameEqualCi d.name name) with
    | none => rfl
    | some d => rfl
  · rw [fat32ReadDir, lists.readDir fixed here (Nat.zero_le _) enough]
    rfl

theorem agree_of_fixed (fixed : ScanFixed disk vol At) (here : At dirCluster .initial) (proper : 2 ≤ dirCluster) :
    DirScannersAgree disk vol dirCluster := by
  intro fuel buf maxEntries es done room more enough buf'
  have ended : Lib.loop (readDirPass disk vol maxEntries) fuel ⟨dirCluster, .initial, [], buf⟩ = some (.ok (true, es)) := by
    rw [fat32ReadDir] at done
    revert done
    cases Lib.loop (readDirPass disk vol maxEntries) fuel ⟨dirCluster, .initial, [], buf⟩ with
    | none => exact fun no => by cases no
    | some result => exact fun done => congrArg some done
  obtain ⟨n, listed, below, lists, same⟩ := readDir_lists fixed here (Nat.zero_le _) ended room
  subst same
  exact lists.answers fixed here proper (lt_of_lt_of_le below enough) buf'

/-- A directory beyond all clusters lists nothing. -/
theorem scanFixed_of_past (past : fat32Bad ≤ dirCluster) :
    ScanFixed disk vol fun cluster _ => cluster = dirCluster where
  seen := fun same inside => absurd inside.2 (Nat.not_lt.mpr (same ▸ past))
  onward := fun same inside => absurd inside.2 (Nat.not_lt.mpr (same ▸ past))

theorem staleEntries_first {byte : UInt8} (behind : ∀ i, 512 * vol.bpb.sectorsPerCluster ≤ i → filled i = byte) :
    ∀ raw ∈ staleEntries vol filled, raw 0 = byte := by
  intro raw member
  obtain ⟨i, -, rfl⟩ := List.mem_map.mp member
  exact behind _ (by omega)

theorem scanEntries_marker (some' : raws ≠ []) (zero : ∀ raw ∈ raws, raw 0 = 0) (lfn : LfnState) :
    scanEntries lfn raws = ([], .marker) := by
  cases raws with
  | nil => exact absurd rfl some'
  | cons raw rest =>
    have first := zero raw List.mem_cons_self
    simp [scanEntries, entryKind, first]

/-- Deleted entries list nothing. -/
theorem scanEntries_deleted (deleted : ∀ raw ∈ raws, raw 0 = 0xE5) (lfn : LfnState) :
    ∃ lfn', scanEntries lfn raws = ([], .running lfn') := by
  induction raws generalizing lfn with
  | nil => exact ⟨lfn, rfl⟩
  | cons raw rest ih =>
    obtain ⟨lfn', scanned⟩ := ih (fun raw member => deleted raw (List.mem_cons_of_mem _ member)) lfn.discard
    have first := deleted raw List.mem_cons_self
    simp [scanEntries, entryKind, first, scanned]

section

variable (mounted : vol.Mounted) (other : vol.bpb.bytesPerSector ≠ 512)
include mounted other

theorem Fat32Vol.Mounted.large :
    1024 ≤ vol.bpb.bytesPerSector := by
  have none' : ∀ bps < 1024, 512 < bps → bps &&& (bps - 1) ≠ 0 := by decide +kernel
  grind [sector, power]

/-- With larger sectors there are entries behind those that were read. -/
theorem staleEntries_ne_nil (filled : Bytes) :
    staleEntries vol filled ≠ [] := by
  have product := Nat.mul_le_mul_right vol.bpb.sectorsPerCluster (mounted.large other)
  have sectors := mounted.sectors
  have rest : 0 < vol.bytesPerCluster / 32 - 16 * vol.bpb.sectorsPerCluster := by
    rw [mounted.bytesPerCluster]
    omega
  simp [staleEntries]
  omega

/-- Zeros behind the sectors read as an end marker. -/
theorem scan_zeros (read : fat32ReadCluster disk vol dirCluster (fun _ => 0) = some filled)
    (scanned : scanEntries .initial (diskEntries vol filled) = (es, .running lfn)) :
    scanEntries .initial (rawEntries vol filled) = (es, .marker) := by
  obtain ⟨filled', read', -, behind⟩ := fat32ReadCluster_other read fun _ => 0
  cases read.symm.trans read'
  rw [rawEntries_split mounted, scanEntries_append, scanned]
  simp only [scanEntries_marker (staleEntries_ne_nil mounted other filled) (staleEntries_first behind), List.append_nil]

end

/-- Deleted entries there lead on to the table. -/
theorem scan_deleted (mounted : vol.Mounted) (read : fat32ReadCluster disk vol dirCluster (fun _ => 0) = some filled)
    (scanned : scanEntries .initial (diskEntries vol filled) = (es, .running lfn)) :
    ∃ filled' lfn', fat32ReadCluster disk vol dirCluster (fun _ => 0xE5) = some filled' ∧
      scanEntries .initial (rawEntries vol filled') = (es, .running lfn') := by
  obtain ⟨filled', read', same, behind⟩ := fat32ReadCluster_other read fun _ => 0xE5
  obtain ⟨lfn', skipped⟩ := scanEntries_deleted (staleEntries_first behind) lfn
  grind [rawEntries_split, scanEntries_append, diskEntries_congr]

/-- When a scan leaves the sectors read, what it finds depends on the buffer. -/
theorem disagree_of_running (mounted : vol.Mounted) (other : vol.bpb.bytesPerSector ≠ 512)
    (inside : 2 ≤ dirCluster ∧ dirCluster < fat32Bad)
    (read : fat32ReadCluster disk vol dirCluster (fun _ => 0) = some filled)
    (running : (scanEntries .initial (diskEntries vol filled)).2 = .running lfn) :
    ¬ DirScannersAgree disk vol dirCluster := by
  have large := mounted.large other
  obtain ⟨es, scanned⟩ : ∃ es, scanEntries .initial (diskEntries vol filled) = (es, .running lfn) :=
    ⟨_, Prod.ext rfl running⟩
  have zeros := scan_zeros mounted other read scanned
  have listed : fat32ReadDir disk vol 1 (some fun _ => 0) dirCluster (es.length + 1) = .ok (true, es) := by
    have processed := @processDirEntries_scan (es.length + 1) (rawEntries vol filled) .initial [] (Nat.zero_le _)
    simp only [zeros] at processed
    obtain ⟨lfn', processed⟩ := processed
    simp only [fat32ReadDir, Lib.finish, readDir_pass inside, read, processed, List.nil_append,
      List.take_of_length_le (Nat.le_succ es.length)]
  obtain ⟨filled', lfn', read', scanned'⟩ := scan_deleted mounted read scanned
  intro agree
  have answer := (agree 1 _ _ es listed (Nat.lt_succ_self _) 1 (le_refl _) fun _ => 0xE5).1 es.length
  obtain ⟨stopped, reached, fed, -, all⟩ := feed_readdir es.length es 0 (Nat.zero_le _)
  cases all (le_refl _)
  have iterated := @iterDirEntries_scan _ (fat32ReaddirCb es.length) (rawEntries vol filled') .initial (0, none)
  simp only [scanned', fed] at iterated
  simp only [fat32ReaddirIndex, fat32IterDir, if_neg (Nat.not_lt.mpr inside.1), iterDir_pass inside, read', iterated,
    fat32ReadFatEntry_large (show 512 < vol.bpb.bytesPerSector by omega), if_true, Lib.finish, bind, Except.bind] at answer
  rw [if_pos (show fat32ErrIo < 0 by decide), if_neg (Nat.lt_irrefl _)] at answer
  cases answer

/-- What the buffers held does not matter to a scan that stays in the sectors read. -/
theorem ScanInSectors.fixed (inSectors : ScanInSectors disk vol dirCluster) (mounted : vol.Mounted) :
    ∃ At, ScanFixed disk vol At ∧ At dirCluster .initial := by
  by_cases sector512 : vol.bpb.bytesPerSector = 512
  · exact ⟨_, scanFixed_of_512 mounted sector512, trivial⟩
  have large := mounted.large sector512
  rcases inSectors with same | past | ends
  · omega
  · exact ⟨_, scanFixed_of_past past, rfl⟩
  · exact ⟨_, scanFixed_of_ends mounted (by omega) ends, rfl, rfl⟩

end Agreement

/-- A volume like `sampleDisk`, with some bytes given in the first sector of its
root directory. -/
def sampleDir (sectorSize : Nat) (directory : List (Nat × UInt8)) (filler : UInt8) : Disk where
  drive := {
    ready := true
    completes := fun _ _ => true
    byte := fun address =>
      if 2560 ≤ address ∧ address < 3072 then (directory.lookup (address - 2560)).getD filler
      else if address = 1548 then UInt8.ofNat (sectorSize / 256)
      else sampleByte 100 [(2, fat32Eoc)] address }
  partitions := [⟨3, 100⟩]

/-- One file: `A`, in cluster 5. -/
def oneFile : List (Nat × UInt8) :=
  [(0, 0x41), (1, 0x20), (2, 0x20), (3, 0x20), (4, 0x20), (5, 0x20), (6, 0x20), (7, 0x20), (8, 0x20), (9, 0x20),
    (10, 0x20), (11, 0x20), (26, 5), (28, 200)]

/-- The volume with sectors of 1024 bytes, of which the drive fills the first half. -/
def wideVol : Fat32Vol :=
  { sampleVol 100 98 with
    bpb := { (sampleVol 100 98).bpb with bytesPerSector := 1024 }
    bytesPerCluster := 1024 }

end Velox
