import Velox.Fs.Fat32Dir
import Velox.Fs.GptInit

namespace Velox

open Lib (Bytes)

section Confinement

variable {s : Gpt} {drive : AtaDrive} {index : Int} {record : GptRecord} {relativeLba count : Nat}

theorem filled_of_steps (made : Lib.Steps gptInit blankGpt trace s) : s.Filled :=
  made.invariant Gpt.Filled (fun filled done => gptInit_filled filled done)
    (fun _ below => absurd below (Nat.not_lt_zero _))

theorem Gpt.Filled.fromEntry (filled : s.Filled) (found : s.record? index = some record) : record.FromEntry := by
  unfold Gpt.record? at found
  split at found
  · cases found
    exact filled _ (by omega)
  · cases found

/-- Where no sum wraps, a partition's read stays in the partition. -/
theorem confinedRead_iff (filled : s.Filled) (relative : relativeLba < 2 ^ 64) :
    s.ConfinedRead drive index relativeLba count ↔
      ∀ record, s.record? index = some record → record.Accepts drive relativeLba count →
        relativeLba + count < 2 ^ 64 ∧ record.startLba ≤ record.endLba := by
  constructor
  · intro confined record found accepts
    obtain ⟨_, found', inside⟩ := confined _ _ (gptAsks_iff.mpr ⟨record, found, accepts, rfl, rfl⟩)
    cases found.symm.trans found'
    exact (confined_iff (filled.fromEntry found) relative accepts).mp inside
  · intro condition sector n asked
    obtain ⟨record, found, accepts, rfl, rfl⟩ := gptAsks_iff.mp asked
    have inside := (confined_iff (filled.fromEntry found) relative accepts).mpr (condition record found accepts)
    grind

end Confinement

/-- Two drives with the same sectors in a partition. -/
structure AgreeInside (record : GptRecord) (drive other : AtaDrive) : Prop where
  ready : other.ready = drive.ready
  completes : other.completes = drive.completes
  bytes : ∀ sector, record.startLba ≤ sector → sector ≤ record.endLba → ∀ i < 512,
    other.byte (512 * sector + i) = drive.byte (512 * sector + i)

/-- Two disks on which the operations on a volume do the same. -/
structure Fat32Alike (disk other : Disk) (vol : Fat32Vol) : Prop where
  readFileAt : ∀ fuel clusterBuf, ∀ firstCluster < 2 ^ 32, ∀ fileSize offset buf len,
    fat32ReadFileAt other vol fuel clusterBuf firstCluster fileSize offset buf len =
      fat32ReadFileAt disk vol fuel clusterBuf firstCluster fileSize offset buf len
  readDir : ∀ fuel clusterBuf dirCluster maxEntries,
    fat32ReadDir other vol fuel clusterBuf dirCluster maxEntries = fat32ReadDir disk vol fuel clusterBuf dirCluster maxEntries
  iterDir : ∀ {σ : Type} (cb : Fat32Dirent → σ → Int × σ) fuel clusterBuf dirCluster ctx,
    fat32IterDir cb other vol fuel clusterBuf dirCluster ctx = fat32IterDir cb disk vol fuel clusterBuf dirCluster ctx
  lookup : ∀ fuel clusterBuf dirCluster name,
    fat32Lookup other vol fuel clusterBuf dirCluster name = fat32Lookup disk vol fuel clusterBuf dirCluster name
  readdirIndex : ∀ fuel clusterBuf dirCluster index,
    fat32ReaddirIndex other vol fuel clusterBuf dirCluster index = fat32ReaddirIndex disk vol fuel clusterBuf dirCluster index
  lookupPath : ∀ fuel buffers path,
    fat32LookupPath ⟨other, fuel, buffers⟩ vol path = fat32LookupPath ⟨disk, fuel, buffers⟩ vol path

/-- The two reads that every operation is made of. A table entry is that of a cluster of
32 bits. -/
structure SameReads (disk other : Disk) (vol : Fat32Vol) : Prop where
  entry : ∀ cluster < 2 ^ 32, fat32ReadFatEntry other vol cluster = fat32ReadFatEntry disk vol cluster
  cluster : ∀ cluster buf, fat32ReadCluster other vol cluster buf = fat32ReadCluster disk vol cluster buf

namespace SameReads

variable {disk other : Disk} {vol : Fat32Vol} (same : SameReads disk other vol)
include same

theorem copyPass_eq : copyPass other vol = copyPass disk vol := by
  funext s
  unfold copyPass
  split
  · rfl
  · rename_i inside
    have low : s.cluster < 2 ^ 32 := lt_trans (not_not.mp inside).2.2 (by decide)
    rw [same.cluster, same.entry _ low]

theorem readDirPass_eq (maxEntries : Nat) : readDirPass other vol maxEntries = readDirPass disk vol maxEntries := by
  funext s
  unfold readDirPass
  split
  · rfl
  · rename_i inside
    have low : s.cluster < 2 ^ 32 := lt_trans (not_not.mp inside).2 (by decide)
    rw [same.cluster, same.entry _ low]

theorem iterDirPass_eq {σ : Type} (cb : Fat32Dirent → σ → Int × σ) :
    iterDirPass cb other vol = iterDirPass cb disk vol := by
  funext s
  unfold iterDirPass
  split
  · rfl
  · rename_i inside
    have low : s.cluster < 2 ^ 32 := lt_trans (not_not.mp inside).2 (by decide)
    rw [same.cluster, same.entry _ low]

theorem skip_eq {fuel cluster skip : Nat} (low : cluster < 2 ^ 32) :
    Lib.loop (skipPass other vol) fuel (cluster, skip) = Lib.loop (skipPass disk vol) fuel (cluster, skip) := by
  refine Lib.loop_congr (fun state => state.1 < 2 ^ 32) ?_ ?_ low
  · intro state low
    simp only [skipPass, same.entry state.1 low]
  · intro state next low pass
    simp only [skipPass] at pass
    split at pass
    · cases pass
    split at pass
    · cases pass
    split at pass
    · cases pass
    · rename_i middle
      cases pass
      exact lt_trans (Nat.not_le.mp middle) (by decide)

theorem fat32IterDir_eq {σ : Type} (cb : Fat32Dirent → σ → Int × σ) (fuel : Nat) (clusterBuf : Option Bytes)
    (dirCluster : Nat) (ctx : σ) :
    fat32IterDir cb other vol fuel clusterBuf dirCluster ctx = fat32IterDir cb disk vol fuel clusterBuf dirCluster ctx := by
  unfold fat32IterDir
  rw [same.iterDirPass_eq]

theorem fat32Lookup_eq (fuel : Nat) (clusterBuf : Option Bytes) (dirCluster : Nat) (name : List UInt8) :
    fat32Lookup other vol fuel clusterBuf dirCluster name = fat32Lookup disk vol fuel clusterBuf dirCluster name := by
  unfold fat32Lookup
  rw [same.fat32IterDir_eq]

theorem alike : Fat32Alike disk other vol where
  readFileAt := by
    intro fuel clusterBuf firstCluster low fileSize offset buf len
    unfold fat32ReadFileAt
    rw [same.copyPass_eq, same.skip_eq low]
  readDir := by
    intro fuel clusterBuf dirCluster maxEntries
    unfold fat32ReadDir
    rw [same.readDirPass_eq]
  iterDir := same.fat32IterDir_eq
  lookup := same.fat32Lookup_eq
  readdirIndex := by
    intro fuel clusterBuf dirCluster index
    unfold fat32ReaddirIndex
    rw [same.fat32IterDir_eq]
  lookupPath := by
    intro fuel buffers path
    have pass : lookupPathPass ⟨other, fuel, buffers⟩ vol = lookupPathPass ⟨disk, fuel, buffers⟩ vol := by
      unfold lookupPathPass
      simp only [same.fat32Lookup_eq]
    unfold fat32LookupPath
    rw [pass]

end SameReads

section Agree

variable {s : Gpt} {drive other : AtaDrive} {index : Int} {record : GptRecord} {relativeLba count : Nat}

theorem gptAsks_ready (ready : other.ready = drive.ready) :
    gptAsks (s.disk other) index relativeLba count = gptAsks (s.disk drive) index relativeLba count := by
  have asks : virtioBlkAsks other = virtioBlkAsks drive := by
    unfold virtioBlkAsks
    rw [ready]
  unfold gptAsks
  dsimp only [Gpt.disk]
  rw [asks]

section

variable (filled : s.Filled) (found : s.record? index = some record)
  (ordered : record.startLba ≤ record.endLba) (agree : AgreeInside record drive other)
include filled found ordered agree

/-- What a read of a partition returns is a matter of the partition's sectors. -/
theorem gptReadPartitionSectors_agree (whole : relativeLba + count < 2 ^ 64) (buf : Bytes) :
    gptReadPartitionSectors (s.disk other) index relativeLba count buf =
      gptReadPartitionSectors (s.disk drive) index relativeLba count buf := by
  have confined : s.ConfinedRead drive index relativeLba count := by
    refine (confinedRead_iff filled (by omega)).mpr fun record' found' _ => ?_
    grind
  rw [gptReadPartitionSectors_asks, gptReadPartitionSectors_asks, gptAsks_ready agree.ready]
  cases asked : gptAsks (s.disk drive) index relativeLba count with
  | none => rfl
  | some request =>
    obtain ⟨sector, n⟩ := request
    obtain ⟨_, found', inside⟩ := confined sector n asked
    cases found.symm.trans found'
    have bytes : ∀ i < 512 * n, other.byte (512 * sector + i) = drive.byte (512 * sector + i) := by
      intro i below
      have within := inside (i / 512) (by omega)
      have same := agree.bytes (sector + i / 512) within.1 within.2 (i % 512) (Nat.mod_lt _ (by decide))
      grind
    have filledAlike : (fun i => if i < 512 * n then other.byte (512 * sector + i) else buf i) =
        fun i => if i < 512 * n then drive.byte (512 * sector + i) else buf i := by
      grind
    simp only [Option.bind_some, Gpt.disk, agree.completes, filledAlike]

theorem fat32Mount_agree :
    fat32Mount (s.disk other) index = fat32Mount (s.disk drive) index := by
  unfold fat32Mount
  grind [gptReadPartitionSectors_agree]

end

theorem fat32Mount_index {disk : Disk} (done : fat32Mount disk index = some vol) : vol.gptPartitionIndex = index := by
  unfold fat32Mount at done
  grind

/-- A mounted volume asks for sectors whose numbers are far from wrapping, whatever its
metadata. -/
theorem sameReads_agree (filled : s.Filled) (found : s.record? index = some record)
    (ordered : record.startLba ≤ record.endLba) (agree : AgreeInside record drive other)
    (mount : fat32Mount (s.disk drive) index = some vol) :
    SameReads (s.disk drive) (s.disk other) vol := by
  have mounted := fat32Mount_mounted mount
  have place : vol.gptPartitionIndex = index := fat32Mount_index mount
  have reads : ∀ {relativeLba count : Nat} (buf : Bytes), relativeLba + count < 2 ^ 64 →
      readSectors (s.disk other) vol relativeLba count buf = readSectors (s.disk drive) vol relativeLba count buf := by
    unfold readSectors
    grind [gptReadPartitionSectors_agree]
  constructor
  · intro cluster small
    have fat := mounted.fat
    have table : cluster / (vol.bpb.bytesPerSector / 4) ≤ cluster := Nat.div_le_self _ _
    unfold fat32ReadFatEntry
    grind
  · intro cluster buf
    unfold fat32ReadCluster
    split
    · rfl
    · have data := mounted.data
      have sectors := mounted.sectors_lt
      have product : (cluster - 2) * vol.bpb.sectorsPerCluster ≤ 2 ^ 32 * 2 ^ 8 :=
        Nat.mul_le_mul (by omega) sectors.le
      grind [clusterToLba_eq]

end Agree

/-- A drive with two entries: the sectors 100 to 199, and one that starts at 100 and ends
at 50. -/
def twoEntryDrive : AtaDrive where
  ready := true
  completes := fun _ _ => true
  byte := fun i =>
    if 512 ≤ i ∧ i < 520 then gptSignature.getD (i - 512) 0
    else if i = 592 then 2
    else if i = 596 then 128
    else if i = 1024 ∨ i = 1152 then 1
    else if i = 1056 ∨ i = 1184 then 100
    else if i = 1064 then 199
    else if i = 1192 then 50
    else 0

/-- The first and the last sector of a partition. -/
def Gpt.ends (s : Gpt) (index : Int) : Option (Nat × Nat) :=
  (s.record? index).map fun record => (record.startLba, record.endLba)

theorem Gpt.record_of_ends {s : Gpt} {first last : Nat} (ends : s.ends index = some (first, last)) :
    ∃ record, s.record? index = some record ∧ record.startLba = first ∧ record.endLba = last := by
  obtain ⟨record, found, same⟩ := Option.map_eq_some_iff.mp ends
  grind

theorem twoEntryTable : ∃ s, Lib.Steps gptInit blankGpt [(twoEntryDrive, true)] s ∧
    s.ends 0 = some (100, 199) ∧ s.ends 1 = some (100, 50) ∧
    gptAsks (s.disk twoEntryDrive) 0 7 2 = some (107, 2) ∧
    gptAsks (s.disk twoEntryDrive) 0 (2 ^ 64 - 1) 1 = some (99, 1) ∧
    gptAsks (s.disk twoEntryDrive) 1 0 1 = some (100, 1) := by
  obtain ⟨s, run, test⟩ := Lib.Steps.exists_of_replay_test
    (show (Lib.replay gptInit blankGpt [(twoEntryDrive, true)]).any
      (fun s => s.ends 0 = some (100, 199) ∧ s.ends 1 = some (100, 50) ∧
        gptAsks (s.disk twoEntryDrive) 0 7 2 = some (107, 2) ∧
        gptAsks (s.disk twoEntryDrive) 0 (2 ^ 64 - 1) 1 = some (99, 1) ∧
        gptAsks (s.disk twoEntryDrive) 1 0 1 = some (100, 1)) = true by decide +kernel)
  grind

/-- Exactly the requests that pass the checks by a sum that wraps, or on an entry that ends
before it starts, reach outside their partition. A request that is not passed on fails, and on
an entry with its ends in order a volume is what the partition's own sectors make it. -/
theorem partition_reads_confined_iff {s : Gpt} {trace : List (AtaDrive × Bool)} (made : Lib.Steps gptInit blankGpt trace s)
    (drive : AtaDrive) (index : Int) :
    (∀ relativeLba < 2 ^ 64, ∀ count < 2 ^ 32,
      (s.ConfinedRead drive index relativeLba count ↔
        ∀ record, s.record? index = some record → record.Accepts drive relativeLba count →
          relativeLba + count < 2 ^ 64 ∧ record.startLba ≤ record.endLba) ∧
      (gptAsks (s.disk drive) index relativeLba count = none →
        ∀ buf, gptReadPartitionSectors (s.disk drive) index relativeLba count buf = none)) ∧
    ∀ record, s.record? index = some record → record.startLba ≤ record.endLba →
      ∀ other, AgreeInside record drive other →
        fat32Mount (s.disk other) index = fat32Mount (s.disk drive) index ∧
        ∀ vol, fat32Mount (s.disk drive) index = some vol → Fat32Alike (s.disk drive) (s.disk other) vol := by
  grind [filled_of_steps, confinedRead_iff, gptReadPartitionSectors_asks, fat32Mount_agree, SameReads.alike, sameReads_agree]

theorem partition_reads_confined_two : ∃ s, Lib.Steps gptInit blankGpt [(twoEntryDrive, true)] s ∧
    gptAsks (s.disk twoEntryDrive) 0 7 2 = some (107, 2) ∧ s.ConfinedRead twoEntryDrive 0 7 2 := by
  obtain ⟨s, run, ends, -, asked, -⟩ := twoEntryTable
  obtain ⟨record, found, first, last⟩ := Gpt.record_of_ends ends
  refine ⟨s, run, asked, ?_⟩
  refine (((partition_reads_confined_iff run twoEntryDrive 0).1 7 (by decide) 2 (by decide)).1).mpr ?_
  grind

/-- Of the entry from 100 to 199, the sector at 2⁶⁴ - 1 is sector 99. The other entry's first
sector is behind its last one. -/
theorem partition_read_escapes : ∃ s, Lib.Steps gptInit blankGpt [(twoEntryDrive, true)] s ∧
    s.ends 0 = some (100, 199) ∧ gptAsks (s.disk twoEntryDrive) 0 (2 ^ 64 - 1) 1 = some (99, 1) ∧
    s.ends 1 = some (100, 50) ∧ gptAsks (s.disk twoEntryDrive) 1 0 1 = some (100, 1) ∧
    ¬ s.ConfinedRead twoEntryDrive 0 (2 ^ 64 - 1) 1 ∧ ¬ s.ConfinedRead twoEntryDrive 1 0 1 := by
  obtain ⟨s, run, ends, reversed, -, before, behind⟩ := twoEntryTable
  obtain ⟨record, found, first, -⟩ := Gpt.record_of_ends ends
  obtain ⟨backwards, found₁, -, last⟩ := Gpt.record_of_ends reversed
  refine ⟨s, run, ends, before, reversed, behind, ?_, ?_⟩
  · intro confined
    obtain ⟨_, found', inside⟩ := confined _ _ before
    grind
  · intro confined
    obtain ⟨_, found', inside⟩ := confined _ _ behind
    grind

end Velox
