import Velox.Fs.Fat32
import Velox.Lib.Chain
import Velox.Lib.Words

namespace Velox

open Lib (Bytes le16 le32)

variable {disk : Disk} {skip : Nat}

/-- The entry of a cluster in the first file allocation table. -/
def Fat32Vol.fatEntry (disk : Disk) (vol : Fat32Vol) (cluster : Nat) : Nat :=
  le32 (disk.partitionByte vol.gptPartitionIndex) (512 * vol.fatStartLba + 4 * cluster) &&& 0x0FFFFFFF

def Fat32Vol.clusterByte (disk : Disk) (vol : Fat32Vol) (cluster i : Nat) : UInt8 :=
  disk.partitionByte vol.gptPartitionIndex
    (512 * (vol.dataStartLba + (cluster - 2) * vol.bpb.sectorsPerCluster) + i)

def Fat32Vol.clusterBytes (disk : Disk) (vol : Fat32Vol) (cluster : Nat) : List UInt8 :=
  (List.range vol.bytesPerCluster).map (vol.clusterByte disk cluster)

/-- The sectors of a cluster and of its table entry can be read. -/
def Fat32Vol.Readable (disk : Disk) (vol : Fat32Vol) (cluster : Nat) : Prop :=
  (readSectors disk vol (vol.fatStartLba + cluster / 128) 1 fun _ => 0).isSome ∧
    (readSectors disk vol (clusterToLba vol cluster) vol.bpb.sectorsPerCluster fun _ => 0).isSome

/-- A file's clusters: they follow each other in the table, up to an end mark. -/
structure FileChain (disk : Disk) (vol : Fat32Vol) (firstCluster : Nat) (chain : List Nat) : Prop where
  linked : ∃ stop, Lib.Segment (vol.fatEntry disk) firstCluster chain stop ∧ fat32Eoc ≤ stop
  inside : ∀ cluster ∈ chain, 2 ≤ cluster ∧ cluster ≤ vol.clusterCount + 1

/-- What a mounted volume's numbers satisfy. -/
structure Fat32Vol.Mounted (vol : Fat32Vol) : Prop where
  bytesPerCluster : vol.bytesPerCluster = vol.bpb.bytesPerSector * vol.bpb.sectorsPerCluster
  sector : 512 ≤ vol.bpb.bytesPerSector
  power : vol.bpb.bytesPerSector &&& (vol.bpb.bytesPerSector - 1) = 0
  sectors : 0 < vol.bpb.sectorsPerCluster
  sectors_lt : vol.bpb.sectorsPerCluster < 2 ^ 8
  fat : vol.fatStartLba < 2 ^ 16
  data : vol.dataStartLba < 2 ^ 41
  count : vol.clusterCount < 2 ^ 32

/-- What `fat32_mount` checks of the boot sector, and what it derives from it. -/
theorem fat32Mount_ok (done : fat32Mount disk index = some vol) :
    ∃ sector, gptReadPartitionSectors disk index 0 1 (fun _ => 0) = some sector ∧
      vol.gptPartitionIndex = index ∧ vol.bpb = .ofSector sector ∧ vol.bpb.totalSectors16 = 0 ∧
      (512 ≤ vol.bpb.bytesPerSector ∧ vol.bpb.bytesPerSector &&& (vol.bpb.bytesPerSector - 1) = 0) ∧
      vol.bpb.sectorsPerCluster ≠ 0 ∧
      vol.bytesPerCluster = vol.bpb.bytesPerSector * vol.bpb.sectorsPerCluster ∧
      vol.fatStartLba = vol.bpb.reservedSectors ∧
      vol.dataStartLba = vol.bpb.reservedSectors + vol.bpb.numFats * vol.bpb.fatSize32 ∧
      vol.rootCluster = vol.bpb.rootCluster ∧
      vol.clusterCount = (vol.bpb.totalSectors32 + 2 ^ 64 - vol.dataStartLba) % 2 ^ 64 / vol.bpb.sectorsPerCluster % 2 ^ 32 := by
  unfold fat32Mount at done
  grind

theorem fat32Mount_mounted (done : fat32Mount disk index = some vol) : vol.Mounted := by
  obtain ⟨sector, -, -, bpb, -, ⟨large, power⟩, sectors, bytes, fat, data, -, count⟩ := fat32Mount_ok done
  have fats := (sector 16).toNat_lt
  have size := Lib.le32_lt sector 36
  have reserved := Lib.le16_lt sector 14
  have product : (sector 16).toNat * le32 sector 36 ≤ 2 ^ 8 * 2 ^ 32 := Nat.mul_le_mul fats.le size.le
  refine ⟨bytes, large, power, Nat.pos_of_ne_zero sectors, ?_, ?_, ?_, ?_⟩
  · rw [bpb]
    exact (sector 13).toNat_lt
  · rw [fat, bpb]
    exact reserved
  · rw [data, bpb]
    show le16 sector 14 + (sector 16).toNat * le32 sector 36 < 2 ^ 41
    omega
  omega

section Reads

variable {disk : Disk} {vol : Fat32Vol} {cluster : Nat}

theorem fat32ReadFatEntry_eq (mounted : vol.Mounted) (sector512 : vol.bpb.bytesPerSector = 512)
    (small : cluster < 2 ^ 32) (readable : vol.Readable disk cluster) :
    fat32ReadFatEntry disk vol cluster = vol.fatEntry disk cluster := by
  have fat := mounted.fat
  have sector : (vol.fatStartLba + cluster / 128) % 2 ^ 64 = vol.fatStartLba + cluster / 128 :=
    Nat.mod_eq_of_lt (by omega)
  simp only [fat32ReadFatEntry, sector512, Nat.reduceDiv, Nat.lt_irrefl, if_false, sector]
  cases read : readSectors disk vol (vol.fatStartLba + cluster / 128) 1 (fun _ => 0) with
  | none => simp [Fat32Vol.Readable, read] at readable
  | some filled =>
    simp only [Fat32Vol.fatEntry]
    congr 1
    refine Lib.le32_congr fun i inside => ?_
    rw [gptReadPartitionSectors_bytes read, if_pos (by omega)]
    congr 1
    omega

theorem clusterToLba_eq (mounted : vol.Mounted) (proper : 2 ≤ cluster) (small : cluster < 2 ^ 32) :
    clusterToLba vol cluster = vol.dataStartLba + (cluster - 2) * vol.bpb.sectorsPerCluster := by
  have data := mounted.data
  have wrapped : (cluster + 2 ^ 32 - 2) % 2 ^ 32 = cluster - 2 := by omega
  have product : (cluster - 2) * vol.bpb.sectorsPerCluster ≤ 2 ^ 32 * 2 ^ 8 :=
    Nat.mul_le_mul (by omega) mounted.sectors_lt.le
  rw [clusterToLba, wrapped, Nat.mod_eq_of_lt (by omega)]

theorem fat32ReadCluster_eq (mounted : vol.Mounted) (sector512 : vol.bpb.bytesPerSector = 512)
    (proper : 2 ≤ cluster) (inside : cluster ≤ vol.clusterCount + 1) (counted : vol.clusterCount ≠ 2 ^ 32 - 1)
    (readable : vol.Readable disk cluster) (buf : Bytes) :
    ∃ filled, fat32ReadCluster disk vol cluster buf = some filled ∧
      ∀ i < vol.bytesPerCluster, filled i = vol.clusterByte disk cluster i := by
  have count := mounted.count
  have small : cluster < 2 ^ 32 := by omega
  have range : ¬ (cluster < 2 ∨ (vol.clusterCount + 1) % 2 ^ 32 < cluster) := by omega
  have some' : (readSectors disk vol (clusterToLba vol cluster) vol.bpb.sectorsPerCluster buf).isSome :=
    (gptReadPartitionSectors_isSome _ _ _ _ _ _).trans readable.2
  obtain ⟨filled, read⟩ := Option.isSome_iff_exists.mp some'
  refine ⟨filled, by rw [fat32ReadCluster, if_neg range, read], fun i below => ?_⟩
  rw [mounted.bytesPerCluster, sector512] at below
  rw [gptReadPartitionSectors_bytes read, if_pos below, clusterToLba_eq mounted proper small, Fat32Vol.clusterByte]

/-- What a read fills: sectors of the drive, as many as the cluster has sectors of the volume. -/
theorem fat32ReadCluster_bytes {filled : Bytes}
    (done : fat32ReadCluster disk vol cluster buf = some filled) (i : Nat) :
    filled i = if i < 512 * vol.bpb.sectorsPerCluster then
      disk.partitionByte vol.gptPartitionIndex (512 * clusterToLba vol cluster + i) else buf i := by
  unfold fat32ReadCluster at done
  split at done
  · cases done
  · exact gptReadPartitionSectors_bytes done i

theorem fat32ReadCluster_isSome (disk : Disk) (vol : Fat32Vol) (cluster : Nat) (buf other : Bytes) :
    (fat32ReadCluster disk vol cluster buf).isSome = (fat32ReadCluster disk vol cluster other).isSome := by
  unfold fat32ReadCluster
  split
  · rfl
  · exact gptReadPartitionSectors_isSome ..

end Reads

/-- The byte at a position of a file. -/
def Fat32Vol.fileByte (disk : Disk) (vol : Fat32Vol) (chain : List Nat) (position : Nat) : UInt8 :=
  match chain[position / vol.bytesPerCluster]? with
  | none => 0
  | some cluster => vol.clusterByte disk cluster (position % vol.bytesPerCluster)

/-- The file is the concatenation of its clusters. -/
theorem fileByte_flatMap {vol : Fat32Vol}
    (below : position < chain.length * vol.bytesPerCluster) :
    (chain.flatMap (vol.clusterBytes disk))[position]? = some (vol.fileByte disk chain position) := by
  have pos : 0 < vol.bytesPerCluster := Nat.pos_of_ne_zero fun zero => by simp [zero] at below
  rw [Lib.getElem?_flatMap_blocks pos (by simp [Fat32Vol.clusterBytes])]
  have inside : position / vol.bytesPerCluster < chain.length := (Nat.div_lt_iff_lt_mul pos).mpr below
  simp [Fat32Vol.fileByte, Fat32Vol.clusterBytes, List.getElem?_eq_getElem inside, Nat.mod_lt _ pos]

section Loops

variable {disk : Disk} {vol : Fat32Vol} {firstCluster : Nat} {chain : List Nat}

/-- What the loops use of a chain, by the position in it. -/
structure ChainRead (disk : Disk) (vol : Fat32Vol) (firstCluster : Nat) (chain : List Nat) : Prop where
  size : 0 < vol.bytesPerCluster
  start : ∀ cluster, chain[0]? = some cluster → firstCluster = cluster
  proper : ∀ cluster ∈ chain, 2 ≤ cluster ∧ cluster < fat32Eoc
  onward : ∀ i cluster, chain[i]? = some cluster → i + 1 < chain.length →
    ∃ next, chain[i + 1]? = some next ∧ fat32ReadFatEntry disk vol cluster = next ∧ next ≠ fat32Bad
  contents : ∀ cluster ∈ chain, ∀ buf, ∃ filled, fat32ReadCluster disk vol cluster buf = some filled ∧
    ∀ i < vol.bytesPerCluster, filled i = vol.clusterByte disk cluster i

theorem FileChain.read (file : FileChain disk vol firstCluster chain) (mounted : vol.Mounted)
    (sector512 : vol.bpb.bytesPerSector = 512) (counted : vol.clusterCount ≠ 2 ^ 32 - 1)
    (readable : ∀ cluster ∈ chain, vol.Readable disk cluster) (unmarked : ∀ cluster ∈ chain, cluster < fat32Eoc)
    (good : ∀ cluster ∈ chain.tail, cluster ≠ fat32Bad) : ChainRead disk vol firstCluster chain := by
  obtain ⟨stop, linked, -⟩ := file.linked
  refine ⟨?_, ?_, fun cluster member => ⟨(file.inside cluster member).1, unmarked cluster member⟩, ?_, ?_⟩
  · rw [mounted.bytesPerCluster]
    exact Nat.mul_pos (by omega) mounted.sectors
  · intro cluster here
    cases chain with
    | nil => cases here
    | cons head rest =>
      cases here
      exact linked.start
  · intro i cluster here more
    have member := List.mem_of_getElem? here
    have count := mounted.count
    have inside := file.inside cluster member
    refine ⟨chain[i + 1], List.getElem?_eq_getElem more, ?_, ?_⟩
    · grind [fat32ReadFatEntry_eq, Lib.Segment.getElem?_succ]
    · have tail : chain.tail[i]? = some chain[i + 1] := by simp
      grind
  · intro cluster member buf
    obtain ⟨low, high⟩ := file.inside cluster member
    exact fat32ReadCluster_eq mounted sector512 low high counted (readable cluster member) buf

variable {offset position q cluster fuel : Nat}

theorem chain_index_lt (below : position < chain.length * vol.bytesPerCluster)
    (reached : q * vol.bytesPerCluster ≤ position) : q < chain.length :=
  Nat.lt_of_mul_lt_mul_right (lt_of_le_of_lt reached below)

section

variable (file : ChainRead disk vol firstCluster chain)
  (below : offset < chain.length * vol.bytesPerCluster) (here : chain[q]? = some cluster)
  (placed : q * vol.bytesPerCluster + skip = offset)
include file below here placed

/-- Past a whole cluster there is a next one, while the offset lies in the chain. -/
theorem skipPass_next (whole : vol.bytesPerCluster ≤ skip) :
    ∃ next, skipPass disk vol (cluster, skip) = .inl (next, skip - vol.bytesPerCluster) ∧
      chain[q + 1]? = some next := by
  have more : q + 1 < chain.length := chain_index_lt below (by rw [Nat.succ_mul]; omega)
  obtain ⟨next, there, read, good⟩ := file.onward q cluster here more
  have low := (file.proper next (List.mem_of_getElem? there)).2
  refine ⟨next, ?_, there⟩
  simp only [skipPass, if_neg (Nat.not_lt.mpr whole), read, if_neg good, if_neg (Nat.not_le.mpr low)]

/-- The skip loop arrives at the cluster that holds the offset. -/
theorem skip_reaches (enough : skip < fuel) :
    ∃ q' cluster' skip', Lib.loop (skipPass disk vol) fuel (cluster, skip) = some (.ok (cluster', skip')) ∧
      chain[q']? = some cluster' ∧ q' * vol.bytesPerCluster + skip' = offset ∧ skip' < vol.bytesPerCluster := by
  have size := file.size
  induction fuel generalizing q cluster skip with
  | zero => omega
  | succ fuel ih =>
    by_cases last : skip < vol.bytesPerCluster
    · refine ⟨q, cluster, skip, ?_, here, placed, last⟩
      simp only [Lib.loop, skipPass, if_pos last]
    · obtain ⟨next, pass, there⟩ := skipPass_next file below here placed (Nat.not_lt.mp last)
      simp only [Lib.loop, pass]
      exact ih there (by rw [Nat.succ_mul]; omega) (by omega)

end

/-- Inside a cluster the bytes of the file are those of the cluster. -/
theorem fileByte_cluster (here : chain[q]? = some cluster) (inside : i < vol.bytesPerCluster) :
    vol.fileByte disk chain (q * vol.bytesPerCluster + i) = vol.clusterByte disk cluster i := by
  have index : (q * vol.bytesPerCluster + i) / vol.bytesPerCluster = q := by
    rw [Nat.mul_comm, Nat.mul_add_div (by omega), Nat.div_eq_of_lt inside, Nat.add_zero]
  have rest : (q * vol.bytesPerCluster + i) % vol.bytesPerCluster = i := by
    rw [Nat.mul_comm, Nat.mul_add_mod, Nat.mod_eq_of_lt inside]
  simp only [Fat32Vol.fileByte, index, here, rest]

/-- The buffer holds the file from the offset on, up to a count. -/
def Delivered (disk : Disk) (vol : Fat32Vol) (chain : List Nat) (offset count : Nat) (before buf : Bytes) : Prop :=
  ∀ i, buf i = if i < count then vol.fileByte disk chain (offset + i) else before i

theorem Delivered.extend {clusterBuf : Bytes}
    (delivered : Delivered disk vol chain offset totalRead before buf)
    (here : chain[q]? = some cluster)
    (placed : q * vol.bytesPerCluster + intra = offset + totalRead)
    (inside : intra + chunk ≤ vol.bytesPerCluster)
    (filled : ∀ i < vol.bytesPerCluster, clusterBuf i = vol.clusterByte disk cluster i) :
    Delivered disk vol chain offset (totalRead + chunk) before
      (Lib.memcpy buf totalRead clusterBuf intra chunk) := by
  intro i
  unfold Lib.memcpy
  by_cases new : totalRead ≤ i ∧ i < totalRead + chunk
  · rw [if_pos new, if_pos new.2, filled _ (by omega), ← fileByte_cluster here (by omega)]
    congr 1
    omega
  · rw [if_neg new, delivered i]
    grind

/-- The copy loop delivers all that is left to read. -/
theorem copy_delivers (file : ChainRead disk vol firstCluster chain)
    (below : offset + count ≤ chain.length * vol.bytesPerCluster)
    (here : chain[q]? = some s.cluster)
    (placed : q * vol.bytesPerCluster + s.intra = offset + s.totalRead)
    (inside : s.intra < vol.bytesPerCluster) (left : s.totalRead + s.toRead = count)
    (wanted : 0 < s.toRead) (delivered : Delivered disk vol chain offset s.totalRead before s.buf)
    (enough : s.toRead < fuel) :
    ∃ buf, Lib.loop (copyPass disk vol) fuel s = some ((count : Int), buf) ∧
      Delivered disk vol chain offset count before buf := by
  induction fuel generalizing q s with
  | zero => omega
  | succ fuel ih =>
    have member := List.mem_of_getElem? here
    obtain ⟨clusterBuf, read, filled⟩ := file.contents _ member s.clusterBuf
    obtain ⟨chunk, chunk_eq⟩ : ∃ chunk, chunk = if s.toRead < vol.bytesPerCluster - s.intra then s.toRead
      else vol.bytesPerCluster - s.intra := ⟨_, rfl⟩
    have fits : s.intra + chunk ≤ vol.bytesPerCluster := by grind
    have moved := delivered.extend here placed fits filled
    have enter : ¬ ¬ (0 < s.toRead ∧ 2 ≤ s.cluster ∧ s.cluster < fat32Eoc) :=
      not_not.mpr ⟨wanted, file.proper _ member⟩
    simp only [Lib.loop, copyPass, if_neg enter, read, ← chunk_eq]
    by_cases last : s.toRead - chunk = 0
    · grind
    · have whole : chunk = vol.bytesPerCluster - s.intra := by grind
      have ahead : (q + 1) * vol.bytesPerCluster = offset + (s.totalRead + chunk) := by
        grind
      have more : q + 1 < chain.length := chain_index_lt (lt_of_lt_of_le (by omega) below) ahead.le
      obtain ⟨next, there, follows, good⟩ := file.onward q _ here more
      have low := (file.proper next (List.mem_of_getElem? there)).2
      simp only [if_neg last, follows, if_neg good, if_neg (Nat.not_le.mpr low)]
      exact ih there ahead file.size (by dsimp only; omega) (by dsimp only; omega) moved (by dsimp only; omega)

/-- Both loops together. -/
theorem fat32ReadFileAt_delivers (file : ChainRead disk vol firstCluster chain)
    (holds : fileSize ≤ chain.length * vol.bytesPerCluster)
    (wanted : ¬ (fileSize ≤ offset ∨ len = 0)) (buf clusterBuf : Bytes)
    (enough : offset + fileSize < fuel) :
    ∃ buf', fat32ReadFileAt disk vol fuel (some clusterBuf) firstCluster fileSize offset buf len =
        some (((min len (fileSize - offset) : Nat) : Int), buf') ∧
      Delivered disk vol chain offset (min len (fileSize - offset)) buf buf' := by
  obtain ⟨count, count_eq⟩ : ∃ count, count = min len (fileSize - offset) := ⟨_, rfl⟩
  have below : offset < chain.length * vol.bytesPerCluster := by omega
  have more : 0 < chain.length := chain_index_lt below (by omega)
  have start := List.getElem?_eq_getElem more
  rw [← file.start _ start] at start
  have proper := (file.proper _ (List.mem_of_getElem? start)).1
  obtain ⟨q, cluster, skip, skipped, here, placed, inside⟩ :=
    skip_reaches file below start (show 0 * vol.bytesPerCluster + offset = offset by omega)
      (show offset < fuel by omega)
  obtain ⟨buf', copied, delivered⟩ := copy_delivers file (show offset + count ≤ _ by omega)
    (s := ⟨cluster, skip, 0, count, buf, clusterBuf⟩) here placed inside (Nat.zero_add count) (by dsimp only; omega)
    (show Delivered disk vol chain offset 0 buf buf from fun i => by simp) (show count < fuel by omega)
  rw [fat32ReadFileAt, if_neg wanted, if_neg (by omega), if_neg (by omega)]
  grind

end Loops

/-- A read from a file with an intact chain ends, returns as many bytes as were
asked for and are left, delivers them, and touches nothing behind them. -/
theorem fat32_read_file_at_correct {disk : Disk} {index : Int} {vol : Fat32Vol}
    (mount : fat32Mount disk index = some vol) (sector512 : vol.bpb.bytesPerSector = 512)
    (counted : vol.clusterCount ≠ 2 ^ 32 - 1) {firstCluster fileSize : Nat} {chain : List Nat}
    (file : FileChain disk vol firstCluster chain) (unmarked : ∀ cluster ∈ chain, cluster < fat32Eoc)
    (good : ∀ cluster ∈ chain.tail, cluster ≠ fat32Bad) (readable : ∀ cluster ∈ chain, vol.Readable disk cluster)
    (holds : fileSize ≤ chain.length * vol.bytesPerCluster) (offset len : Nat) (buf clusterBuf : Bytes) :
    ∃ (fuel : Nat) (buf' : Bytes),
      (∀ more ≥ fuel, fat32ReadFileAt disk vol more (some clusterBuf) firstCluster fileSize offset buf len =
        some (((min len (fileSize - offset) : Nat) : Int), buf')) ∧
      (∀ i < min len (fileSize - offset), (chain.flatMap (vol.clusterBytes disk))[offset + i]? = some (buf' i)) ∧
      ∀ i, min len (fileSize - offset) ≤ i → buf' i = buf i := by
  by_cases nothing : fileSize ≤ offset ∨ len = 0
  · have none' : min len (fileSize - offset) = 0 := by omega
    refine ⟨0, buf, fun more _ => ?_, fun i no => absurd no (by omega), fun _ _ => rfl⟩
    rw [fat32ReadFileAt, if_pos nothing, none']
    rfl
  have read := file.read (fat32Mount_mounted mount) sector512 counted readable unmarked good
  obtain ⟨buf', -, delivered⟩ :=
    fat32ReadFileAt_delivers read holds nothing buf clusterBuf (Nat.lt_succ_self (offset + fileSize))
  refine ⟨offset + fileSize + 1, buf', fun more enough => ?_, fun i inside => ?_, fun i behind => ?_⟩
  · obtain ⟨other, returned, delivered'⟩ := fat32ReadFileAt_delivers read holds nothing buf clusterBuf enough
    rw [returned, show other = buf' from funext fun i => (delivered' i).trans (delivered i).symm]
  · rw [delivered i, if_pos inside]
    exact fileByte_flatMap (by omega)
  · rw [delivered i, if_neg (Nat.not_lt.mpr behind)]

/-- A volume of one-sector clusters in a partition from sector 3 on, with one
reserved sector and one table of which some entries are given. -/
def sampleByte (totalSectors : Nat) (table : List (Nat × Nat)) (address : Nat) : UInt8 :=
  if address < 1536 then 0
  else if address < 2048 then
    ([(12, 2), (13, 1), (14, 1), (16, 1), (32, UInt8.ofNat totalSectors), (33, UInt8.ofNat (totalSectors / 2 ^ 8)),
      (34, UInt8.ofNat (totalSectors / 2 ^ 16)), (35, UInt8.ofNat (totalSectors / 2 ^ 24)), (36, 1), (44, 2),
      (510, 0x55), (511, 0xAA)].lookup (address - 1536)).getD 0
  else
    match table.lookup ((address - 2048) / 4) with
    | some entry => UInt8.ofNat (entry / 256 ^ ((address - 2048) % 4))
    | none => UInt8.ofNat address

def sampleDisk (totalSectors : Nat) (table : List (Nat × Nat)) : Disk where
  drive := { ready := true, completes := fun _ _ => true, byte := sampleByte totalSectors table }
  partitions := [⟨3, 0x0FFFFFFC⟩]

def sampleVol (totalSectors clusterCount : Nat) : Fat32Vol where
  gptPartitionIndex := 0
  bpb := ⟨512, 1, 1, 1, 0, 0, 0, totalSectors, 1, 0, 2⟩
  bytesPerCluster := 512
  fatStartLba := 1
  dataStartLba := 2
  rootCluster := 2
  clusterCount := clusterCount

def sampleFile : Disk := sampleDisk 100 [(3, 5), (5, fat32Eoc)]

theorem fat32_read_file_at_correct_sample : ∃ (fuel : Nat) (buf' : Bytes),
    (∀ more ≥ fuel, fat32ReadFileAt sampleFile (sampleVol 100 98) more (some fun _ => 0) 3 700 500 (fun _ => 0) 1000 =
      some (200, buf')) ∧
    (∀ i < 200, ([3, 5].flatMap ((sampleVol 100 98).clusterBytes sampleFile))[500 + i]? = some (buf' i)) ∧
    ∀ i, 200 ≤ i → buf' i = 0 := by
  refine fat32_read_file_at_correct (show fat32Mount _ 0 = some _ by decide +kernel) rfl (by decide)
    ⟨⟨fat32Eoc, by decide +kernel, le_refl _⟩, by decide⟩ (by decide) (by decide) ?_ (by decide) 500 1000 _ _
  unfold Fat32Vol.Readable
  decide +kernel

/-- A large volume with a file in the clusters 2 and 0x0FFFFFF7. -/
def markedFile : Disk := sampleDisk 0x0FFFFFFA [(2, fat32Bad), (fat32Bad, fat32Eoc)]

/-- A volume with fewer sectors than its tables take. -/
def hollowFile : Disk := sampleDisk 1 [(2, fat32Eoc)]

/-- The number of a cluster can be the mark of a bad one; and a count of 2^32 - 1
clusters leaves none in range. -/
theorem fat32_read_file_at_refuses :
    (fat32Mount markedFile 0 = some (sampleVol 0x0FFFFFFA 0x0FFFFFF8) ∧
      FileChain markedFile (sampleVol 0x0FFFFFFA 0x0FFFFFF8) 2 [2, fat32Bad] ∧
      (∀ cluster ∈ [2, fat32Bad], (sampleVol 0x0FFFFFFA 0x0FFFFFF8).Readable markedFile cluster) ∧
      (fat32ReadFileAt markedFile (sampleVol 0x0FFFFFFA 0x0FFFFFF8) 2 (some fun _ => 0) 2 600 512 (fun _ => 0) 1).map
        Prod.fst = some fat32ErrIo) ∧
    fat32Mount hollowFile 0 = some (sampleVol 1 (2 ^ 32 - 1)) ∧
      FileChain hollowFile (sampleVol 1 (2 ^ 32 - 1)) 2 [2] ∧
      (∀ cluster ∈ [2], (sampleVol 1 (2 ^ 32 - 1)).Readable hollowFile cluster) ∧
      (fat32ReadFileAt hollowFile (sampleVol 1 (2 ^ 32 - 1)) 2 (some fun _ => 0) 2 1 0 (fun _ => 0) 1).map
        Prod.fst = some fat32ErrIo := by
  refine ⟨⟨by decide +kernel, ⟨⟨fat32Eoc, by decide +kernel, le_refl _⟩, by decide⟩, ?_, by decide +kernel⟩,
    by decide +kernel, ⟨⟨fat32Eoc, by decide +kernel, le_refl _⟩, by decide⟩, ?_, by decide +kernel⟩
  all_goals
    unfold Fat32Vol.Readable
    decide +kernel

end Velox
