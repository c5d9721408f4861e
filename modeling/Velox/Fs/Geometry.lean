import Velox.Fs.Fat32Read

namespace Velox

variable {disk : Disk} {vol : Fat32Vol} {index : Int}

/-- The clusters that `fat32_read_cluster` does not refuse. -/
def Fat32Vol.Accepts (vol : Fat32Vol) (cluster : Nat) : Prop :=
  ¬ (cluster < 2 ∨ (vol.clusterCount + 1) % 2 ^ 32 < cluster)

/-- The sector that `fat32_read_fat_entry` reads. -/
def Fat32Vol.fatSector (vol : Fat32Vol) (cluster : Nat) : Nat :=
  (vol.fatStartLba + cluster / (vol.bpb.bytesPerSector / 4)) % 2 ^ 64

/-- The data region lies in the volume, the clusters in the data region, and their entries in the
first table. -/
structure Fat32Vol.Consistent (vol : Fat32Vol) : Prop where
  data : vol.dataStartLba ≤ vol.bpb.totalSectors32
  count : vol.clusterCount = (vol.bpb.totalSectors32 - vol.dataStartLba) / vol.bpb.sectorsPerCluster
  sectors : ∀ cluster, vol.Accepts cluster → vol.dataStartLba ≤ clusterToLba vol cluster ∧
    clusterToLba vol cluster + vol.bpb.sectorsPerCluster ≤ vol.bpb.totalSectors32
  entry : ∀ cluster, vol.Accepts cluster → vol.fatStartLba ≤ vol.fatSector cluster ∧
    vol.fatSector cluster < vol.fatStartLba + vol.bpb.fatSize32

/-- How many clusters the boot sector leaves behind its tables. -/
def Fat32Bpb.dataClusters (b : Fat32Bpb) : Nat :=
  (b.totalSectors32 - (b.reservedSectors + b.numFats * b.fatSize32)) / b.sectorsPerCluster

/-- The tables end inside the volume, and the first of them has an entry for every cluster. With
`2 ^ 32 - 1` clusters the range check of `fat32_read_cluster` wraps and refuses all of them. -/
def Fat32Bpb.Fits (b : Fat32Bpb) : Prop :=
  b.reservedSectors + b.numFats * b.fatSize32 ≤ b.totalSectors32 ∧ (b.dataClusters = 0 ∨ b.dataClusters = 2 ^ 32 - 1 ∨
      (b.dataClusters + 1) / (b.bytesPerSector / 4) < b.fatSize32)

instance (b : Fat32Bpb) : Decidable b.Fits := by
  unfold Fat32Bpb.Fits
  infer_instance

theorem Fat32Vol.Accepts.bounds (accepts : vol.Accepts cluster)
    (count : vol.clusterCount < 2 ^ 32) :
    2 ≤ cluster ∧ cluster ≤ vol.clusterCount + 1 ∧ cluster < 2 ^ 32 ∧ vol.clusterCount ≠ 2 ^ 32 - 1 := by
  unfold Fat32Vol.Accepts at accepts
  omega

/-- The last cluster is accepted unless there is none or the check wraps. -/
theorem Fat32Vol.accepts_last (some' : vol.clusterCount ≠ 0) (wraps : vol.clusterCount ≠ 2 ^ 32 - 1)
    (count : vol.clusterCount < 2 ^ 32) : vol.Accepts (vol.clusterCount + 1) := by
  unfold Fat32Vol.Accepts
  omega

theorem Fat32Vol.Mounted.fatSector_eq (mounted : vol.Mounted) (small : cluster < 2 ^ 32) :
    vol.fatSector cluster = vol.fatStartLba + cluster / (vol.bpb.bytesPerSector / 4) := by
  have fat := mounted.fat
  have quotient : cluster / (vol.bpb.bytesPerSector / 4) ≤ cluster := Nat.div_le_self _ _
  exact Nat.mod_eq_of_lt (by omega)

/-- A cluster inside the data region ends inside it. -/
theorem cluster_end_le (proper : 2 ≤ cluster) (inside : cluster ≤ count + 1)
    (fits : count = room / sectors) : (cluster - 2) * sectors + sectors ≤ room := by
  calc (cluster - 2) * sectors + sectors = (cluster - 2 + 1) * sectors := (Nat.succ_mul _ _).symm
    _ ≤ count * sectors := Nat.mul_le_mul_right _ (by omega)
    _ ≤ room := fits ▸ Nat.div_mul_le_self room sectors

/-- Where the subtraction of `fat32_mount` does not wrap, its narrowing does not either. -/
theorem fat32Mount_count (mount : fat32Mount disk index = some vol) (data : vol.dataStartLba ≤ vol.bpb.totalSectors32) :
    vol.clusterCount = (vol.bpb.totalSectors32 - vol.dataStartLba) / vol.bpb.sectorsPerCluster := by
  obtain ⟨sector, -, -, bpb, -, -, -, -, -, -, -, count⟩ := fat32Mount_ok mount
  have total : vol.bpb.totalSectors32 < 2 ^ 32 := by
    rw [bpb]
    exact Lib.le32_lt sector 32
  have quotient := Nat.div_le_self (vol.bpb.totalSectors32 - vol.dataStartLba) vol.bpb.sectorsPerCluster
  grind

/-- The geometry of an accepted volume is consistent iff its tables end inside the volume and
cover its clusters. -/
theorem geometry_consistent_iff (mount : fat32Mount disk index = some vol) : vol.Consistent ↔ vol.bpb.Fits := by
  have mounted := fat32Mount_mounted mount
  obtain ⟨sector, -, -, -, -, -, -, -, -, start, -, -⟩ := fat32Mount_ok mount
  have clusters : vol.bpb.dataClusters = (vol.bpb.totalSectors32 - vol.dataStartLba) / vol.bpb.sectorsPerCluster := by
    rw [start]
    rfl
  unfold Fat32Bpb.Fits
  rw [clusters, ← start]
  constructor
  · intro consistent
    refine ⟨consistent.data, ?_⟩
    rw [← consistent.count]
    by_contra uncovered
    simp only [not_or] at uncovered
    have last := Fat32Vol.accepts_last uncovered.1 uncovered.2.1 mounted.count
    have entry := (consistent.entry _ last).2
    rw [mounted.fatSector_eq (last.bounds mounted.count).2.2.1] at entry
    omega
  · rintro ⟨data, covered⟩
    have count := fat32Mount_count mount data
    refine ⟨data, count, ?_, ?_⟩
    · intro cluster accepts
      obtain ⟨proper, inside, small, -⟩ := accepts.bounds mounted.count
      have ends := cluster_end_le proper inside count
      grind [clusterToLba_eq]
    · intro cluster accepts
      obtain ⟨proper, inside, small, wraps⟩ := accepts.bounds mounted.count
      have monotone : cluster / (vol.bpb.bytesPerSector / 4) ≤ (vol.clusterCount + 1) / (vol.bpb.bytesPerSector / 4) :=
        Nat.div_le_div_right inside
      rw [mounted.fatSector_eq small]
      grind

theorem geometry_consistent_sample : (sampleVol 100 98).Consistent :=
  (geometry_consistent_iff (show fat32Mount (sampleDisk 100 []) 0 = some _ by decide +kernel)).mpr (by decide)

/-- Two volumes that are mounted: one ends before its data region starts, the other has more
clusters than its table has entries. -/
theorem geometry_inconsistent_sample :
    (fat32Mount hollowFile 0 = some (sampleVol 1 (2 ^ 32 - 1)) ∧
      ¬ (sampleVol 1 (2 ^ 32 - 1)).dataStartLba ≤ (sampleVol 1 (2 ^ 32 - 1)).bpb.totalSectors32) ∧
    (fat32Mount markedFile 0 = some (sampleVol 0x0FFFFFFA 0x0FFFFFF8) ∧
      (sampleVol 0x0FFFFFFA 0x0FFFFFF8).Accepts 128 ∧
      ¬ (sampleVol 0x0FFFFFFA 0x0FFFFFF8).fatSector 128 <
        (sampleVol 0x0FFFFFFA 0x0FFFFFF8).fatStartLba + (sampleVol 0x0FFFFFFA 0x0FFFFFF8).bpb.fatSize32) := by
  refine ⟨⟨by decide +kernel, by decide⟩, by decide +kernel, ?_, by decide⟩
  unfold Fat32Vol.Accepts
  decide

section Sectors

/-- A read of the cluster fills the whole buffer, from the sector of the cluster on, in the sectors
of the volume. -/
def Fat32Vol.Delivers (disk : Disk) (vol : Fat32Vol) (cluster : Nat) : Prop :=
  ∀ buf filled, fat32ReadCluster disk vol cluster buf = some filled → ∀ i < vol.bytesPerCluster,
    filled i = disk.partitionByte vol.gptPartitionIndex (clusterToLba vol cluster * vol.bpb.bytesPerSector + i)

/-- The bytes behind the sectors of the drive are those the buffer held before, so a cluster that
can be read is delivered only where the two sector sizes are the same. -/
theorem cluster_delivered_iff (mount : fat32Mount disk index = some vol) (cluster : Nat) :
    vol.Delivers disk cluster ↔ vol.bpb.bytesPerSector = 512 ∨ ∀ buf, fat32ReadCluster disk vol cluster buf = none := by
  have mounted := fat32Mount_mounted mount
  constructor
  · intro delivers
    by_contra wide
    obtain ⟨different, readable⟩ := not_or.mp wide
    obtain ⟨buf, read⟩ := not_forall.mp readable
    have larger : 512 < vol.bpb.bytesPerSector := lt_of_le_of_ne mounted.sector (Ne.symm different)
    have inside : 512 * vol.bpb.sectorsPerCluster < vol.bytesPerCluster := by
      rw [mounted.bytesPerCluster]
      exact Nat.mul_lt_mul_of_pos_right larger mounted.sectors
    have left : ∀ byte, byte = disk.partitionByte vol.gptPartitionIndex
        (clusterToLba vol cluster * vol.bpb.bytesPerSector + 512 * vol.bpb.sectorsPerCluster) := by
      intro byte
      have some' := fat32ReadCluster_isSome disk vol cluster buf fun _ => byte
      rw [Option.isSome_iff_ne_none.mpr read] at some'
      obtain ⟨filled, done⟩ := Option.isSome_iff_exists.mp some'.symm
      rw [← delivers _ _ done _ inside, fat32ReadCluster_bytes done, if_neg (Nat.lt_irrefl _)]
    exact absurd ((left 0).trans (left 1).symm) (by decide)
  · rintro (same | refused) buf filled done i inside
    · rw [mounted.bytesPerCluster, same] at inside
      rw [fat32ReadCluster_bytes done, if_pos inside, same, Nat.mul_comm]
    grind

theorem cluster_delivered_sample : (sampleVol 100 98).Delivers (sampleDisk 100 []) 5 :=
  (cluster_delivered_iff (show fat32Mount (sampleDisk 100 []) 0 = some _ by decide +kernel) 5).mpr (.inl rfl)

/-- The sample volume with sectors of 1024 bytes. -/
def sampleWide : Disk where
  drive := { (sampleDisk 100 []).drive with
    byte := fun address => if address = 1536 + 12 then 4 else sampleByte 100 [] address }
  partitions := (sampleDisk 100 []).partitions

def sampleWideVol : Fat32Vol :=
  { sampleVol 100 98 with
    bpb := { (sampleVol 100 98).bpb with bytesPerSector := 1024 }
    bytesPerCluster := 1024 }

/-- Half of the cluster is not filled. -/
theorem cluster_cut_short :
    fat32Mount sampleWide 0 = some sampleWideVol ∧ ¬ sampleWideVol.Delivers sampleWide 2 := by
  refine ⟨by decide +kernel, fun delivers => ?_⟩
  have some' : (fat32ReadCluster sampleWide sampleWideVol 2 fun _ => 0).isSome = true := by decide +kernel
  obtain ⟨filled, done⟩ := Option.isSome_iff_exists.mp some'
  have byte := delivers _ _ done 513 (by decide)
  rw [fat32ReadCluster_bytes done, if_neg (by decide)] at byte
  exact absurd byte (by decide +kernel)

end Sectors

end Velox
