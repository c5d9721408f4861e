import Velox.Fs.ReadChunks

namespace Velox

open Lib (Bytes)

variable {state : Nat × Nat} {filled : Bytes} {skip : Nat}

/-- The cluster is one of the volume's. -/
def Fat32Vol.InRange (vol : Fat32Vol) (cluster : Nat) : Prop := 2 ≤ cluster ∧ cluster ≤ vol.clusterCount + 1

/-- The start of the copy loop of a read, where the skip loop has arrived. -/
def copyStart (fileSize offset len : Nat) (buf clusterBuf : Bytes) (skipped : Nat × Nat) : FileCopy :=
  ⟨skipped.1, skipped.2, 0, min len (fileSize - offset), buf, clusterBuf⟩

/-- The clusters whose table entry the skip loop of a read looks up, and those that its copy loop
reads. -/
def Traversed (disk : Disk) (vol : Fat32Vol) (clusterBuf : Bytes) (firstCluster fileSize offset : Nat) (buf : Bytes)
    (len cluster : Nat) : Prop :=
  (∃ skip, Lib.Visits (skipPass disk vol) (firstCluster, offset) (cluster, skip) ∧ vol.bytesPerCluster ≤ skip) ∨
  ∃ skipped s, Lib.Visits (skipPass disk vol) (firstCluster, offset) skipped ∧ skipped.2 < vol.bytesPerCluster ∧
    Lib.Visits (copyPass disk vol) (copyStart fileSize offset len buf clusterBuf skipped) s ∧
    0 < s.toRead ∧ IsDataCluster s.cluster ∧ s.cluster = cluster

/-- A read from the start of the file that reaches a position has returned the same bytes before it,
unless it reports an error. -/
def SequentialAgrees (disk : Disk) (vol : Fat32Vol) (firstCluster fileSize offset count : Nat) (out : Bytes) : Prop :=
  ∀ fuel > fileSize, ∀ clusterBuf buf len, offset + count ≤ len → ∃ ret filled,
    fat32ReadFileAt disk vol fuel clusterBuf firstCluster fileSize 0 buf len = some (ret, filled) ∧
    (0 ≤ ret → ((offset + count : Nat) : Int) ≤ ret ∧ ∀ i < count, filled (offset + i) = out i)

section Skip

variable {disk : Disk} {vol : Fat32Vol} {firstCluster offset : Nat}

theorem skipPass_again {next : Nat × Nat}
    (again : skipPass disk vol (cluster, skip) = .inl next) :
    vol.bytesPerCluster ≤ skip ∧ next = (fat32ReadFatEntry disk vol cluster, skip - vol.bytesPerCluster) ∧
      next.1 ≠ fat32Bad ∧ next.1 < fat32Eoc := by
  simp only [skipPass] at again
  grind

theorem skipPass_leaves {result : Except Int (Nat × Nat)} (left : skipPass disk vol state = .inr result) :
    (state.2 < vol.bytesPerCluster ∧ result = .ok state) ∨ ∃ rc ≤ 0, result = .error rc := by
  simp only [skipPass] at left
  split at left
  · cases left
    exact .inl ⟨‹_›, rfl⟩
  split at left
  · cases left
    exact .inr ⟨_, by decide, rfl⟩
  grind

/-- Where the skip loop is, and the clusters it has looked up. -/
theorem visits_skip (visit : Lib.Visits (skipPass disk vol) (firstCluster, offset) state) :
    ∃ q, state.1 = (fat32ReadFatEntry disk vol)^[q] firstCluster ∧ q * vol.bytesPerCluster + state.2 = offset ∧
      (0 < q → state.1 < fat32Eoc) ∧ ∀ j < q, ∃ skip, vol.bytesPerCluster ≤ skip ∧
        Lib.Visits (skipPass disk vol) (firstCluster, offset) ((fat32ReadFatEntry disk vol)^[j] firstCluster, skip) := by
  induction visit with
  | start => exact ⟨0, rfl, by simp, by omega, by omega⟩
  | @pass state next earlier again ih =>
    obtain ⟨q, here, placed, -, passed⟩ := ih
    obtain ⟨whole, rfl, -, data⟩ := skipPass_again again
    refine ⟨q + 1, ?_, ?_, fun _ => data, fun j below => ?_⟩
    · rw [Function.iterate_succ_apply', ← here]
    · rw [Nat.succ_mul]
      omega
    · rcases Nat.lt_succ_iff_lt_or_eq.mp below with before | rfl
      · exact passed j before
      · exact ⟨state.2, whole, here ▸ earlier⟩

theorem skip_count {size : Nat} (placed : q * size + skip = offset) (last : skip < size) :
    offset / size = q ∧ offset % size = skip :=
  (Nat.div_mod_unique (by omega)).mpr ⟨by grind, last⟩

/-- Where the skip loop ends. -/
theorem visits_skip_last (visit : Lib.Visits (skipPass disk vol) (firstCluster, offset) state)
    (last : state.2 < vol.bytesPerCluster) : state =
      ((fat32ReadFatEntry disk vol)^[offset / vol.bytesPerCluster] firstCluster, offset % vol.bytesPerCluster) := by
  grind [visits_skip, skip_count]

end Skip

section Calls

variable {disk : Disk} {vol : Fat32Vol} {fuel firstCluster fileSize offset len n : Nat} {clusterBuf buf out : Bytes}

theorem fat32ReadCluster_inRange (read : fat32ReadCluster disk vol cluster buf = some filled) :
    vol.InRange cluster := by
  unfold fat32ReadCluster at read
  split at read
  · cases read
  · exact ⟨by omega, by omega⟩

/-- The start of a read that is not refused at once, where its skip loop ends. -/
theorem fat32ReadFileAt_copies (wanted : ¬ (fileSize ≤ offset ∨ len = 0))
    (proper : 2 ≤ firstCluster)
    (ended : Lib.loop (skipPass disk vol) fuel (firstCluster, offset) = some (.ok skipped)) :
    fat32ReadFileAt disk vol fuel (some clusterBuf) firstCluster fileSize offset buf len =
      Lib.loop (copyPass disk vol) fuel (copyStart fileSize offset len buf clusterBuf skipped) := by
  have clipped : (if fileSize - offset < len then fileSize - offset else len) = min len (fileSize - offset) := by
    split <;> omega
  rw [fat32ReadFileAt, if_neg wanted, if_neg (by omega), if_neg (by omega)]
  simp only [clipped, ended]
  rfl

/-- The loops of a read that returns something. -/
theorem fat32ReadFileAt_positive (positive : 0 < n)
    (done : fat32ReadFileAt disk vol fuel (some clusterBuf) firstCluster fileSize offset buf len = some ((n : Int), out)) :
    ¬ (fileSize ≤ offset ∨ len = 0) ∧ 2 ≤ firstCluster ∧ ∃ skipped,
      Lib.loop (skipPass disk vol) fuel (firstCluster, offset) = some (.ok skipped) ∧
      Lib.Visits (skipPass disk vol) (firstCluster, offset) skipped ∧ skipped.2 < vol.bytesPerCluster ∧
      Lib.loop (copyPass disk vol) fuel (copyStart fileSize offset len buf clusterBuf skipped) = some ((n : Int), out) := by
  have wanted : ¬ (fileSize ≤ offset ∨ len = 0) := by
    intro nothing
    rw [fat32ReadFileAt, if_pos nothing, Option.some.injEq, Prod.mk.injEq] at done
    omega
  have proper : 2 ≤ firstCluster := by
    by_contra reserved
    rw [fat32ReadFileAt, if_neg wanted, if_neg (by omega), if_pos (by omega), Option.some.injEq, Prod.mk.injEq] at done
    have refused := done.1
    unfold fat32ErrIo at refused
    omega
  cases ended : Lib.loop (skipPass disk vol) fuel (firstCluster, offset) with
  | none =>
    rw [fat32ReadFileAt, if_neg wanted, if_neg (by omega), if_neg (by omega)] at done
    simp [ended] at done
  | some result =>
    obtain ⟨last, visit, left⟩ := Lib.loop_visits ended
    rcases skipPass_leaves left with ⟨inside, rfl⟩ | ⟨rc, negative, rfl⟩
    · grind [fat32ReadFileAt_copies]
    · rw [fat32ReadFileAt, if_neg wanted, if_neg (by omega), if_neg (by omega)] at done
      grind

/-- It returns the same if its loops may run longer. -/
theorem fat32ReadFileAt_more (positive : 0 < n) {more : Nat} (enough : fuel ≤ more)
    (done : fat32ReadFileAt disk vol fuel (some clusterBuf) firstCluster fileSize offset buf len = some ((n : Int), out)) :
    fat32ReadFileAt disk vol more (some clusterBuf) firstCluster fileSize offset buf len = some ((n : Int), out) := by
  obtain ⟨wanted, proper, skipped, ended, -, -, copied⟩ := fat32ReadFileAt_positive positive done
  grind [fat32ReadFileAt_copies, Lib.loop_mono]

/-- The copy loop can read where it comes, if the read returns something. -/
theorem copy_reads {start : FileCopy} (positive : 0 < n)
    (copied : Lib.loop (copyPass disk vol) fuel start = some ((n : Int), out))
    (visit : Lib.Visits (copyPass disk vol) start s) (wanted : 0 < s.toRead)
    (data : IsDataCluster s.cluster) :
    ∃ filled, fat32ReadCluster disk vol s.cluster s.clusterBuf = some filled := by
  obtain ⟨rest, copied⟩ := visit.loop copied
  cases read : fat32ReadCluster disk vol s.cluster s.clusterBuf with
  | some filled => exact ⟨filled, rfl⟩
  | none =>
    have enter : ¬ ¬ (0 < s.toRead ∧ 2 ≤ s.cluster ∧ s.cluster < fat32Eoc) := not_not.mpr ⟨wanted, data⟩
    simp only [Lib.loop, copyPass, if_neg enter, read, Option.some.injEq, Prod.mk.injEq] at copied
    have refused := copied.1
    unfold fat32ErrIo at refused
    omega

/-- The first cluster that is copied from is a data cluster. -/
theorem copy_data (positive : 0 < n) (fresh : s.totalRead = 0)
    (copied : Lib.loop (copyPass disk vol) fuel s = some ((n : Int), out)) :
    IsDataCluster s.cluster := by
  by_contra other
  have skips : ¬ (0 < s.toRead ∧ 2 ≤ s.cluster ∧ s.cluster < fat32Eoc) := fun enter => other enter.2
  cases fuel with
  | zero => cases copied
  | succ fuel =>
    simp only [Lib.loop, copyPass, if_pos skips, fresh, Option.some.injEq, Prod.mk.injEq] at copied
    omega

/-- A pass that finds all that is left in its cluster. -/
theorem copyPass_whole (wanted : 0 < s.toRead) (data : IsDataCluster s.cluster)
    (read : fat32ReadCluster disk vol s.cluster s.clusterBuf = some filled)
    (fits : s.intra + s.toRead ≤ vol.bytesPerCluster) : copyPass disk vol s =
      .inr (((s.totalRead + s.toRead : Nat) : Int), Lib.memcpy s.buf s.totalRead filled s.intra s.toRead) := by
  have enter : ¬ ¬ (0 < s.toRead ∧ 2 ≤ s.cluster ∧ s.cluster < fat32Eoc) := not_not.mpr ⟨wanted, data⟩
  have chunk : (if s.toRead < vol.bytesPerCluster - s.intra then s.toRead else vol.bytesPerCluster - s.intra) = s.toRead := by
    split <;> omega
  simp only [copyPass, if_neg enter, read, chunk, Nat.sub_self, if_true]

/-- On a volume with larger sectors there is no way to a next cluster. -/
theorem copyPass_large (large : 512 < vol.bpb.bytesPerSector)
    (wanted : 0 < s.toRead) (data : IsDataCluster s.cluster)
    (read : fat32ReadCluster disk vol s.cluster s.clusterBuf = some filled)
    (more : vol.bytesPerCluster < s.intra + s.toRead) :
    ∃ buf, copyPass disk vol s = .inr (fat32ErrIo, buf) := by
  have enter : ¬ ¬ (0 < s.toRead ∧ 2 ≤ s.cluster ∧ s.cluster < fat32Eoc) := not_not.mpr ⟨wanted, data⟩
  have chunk : (if s.toRead < vol.bytesPerCluster - s.intra then s.toRead else vol.bytesPerCluster - s.intra) =
      vol.bytesPerCluster - s.intra := by
    split <;> omega
  have left : ¬ s.toRead - (vol.bytesPerCluster - s.intra) = 0 := by omega
  simp only [copyPass, if_neg enter, read, chunk, if_neg left, fat32ReadFatEntry_large large, if_true]
  exact ⟨_, rfl⟩

end Calls

section Positions

variable {disk : Disk} {vol : Fat32Vol} {fuel firstCluster fileSize offset len n : Nat} {clusterBuf buf out : Bytes}

/-- The copy loop reads from clusters of the volume only, so what matters are the clusters before. -/
theorem traversed_inRange_iff (positive : 0 < n)
    (done : fat32ReadFileAt disk vol fuel (some clusterBuf) firstCluster fileSize offset buf len = some ((n : Int), out)) :
    (∀ cluster, Traversed disk vol clusterBuf firstCluster fileSize offset buf len cluster → vol.InRange cluster) ↔
      ∀ j < offset / vol.bytesPerCluster, vol.InRange ((fat32ReadFatEntry disk vol)^[j] firstCluster) := by
  obtain ⟨-, -, skipped, -, visit, last, copied⟩ := fat32ReadFileAt_positive positive done
  constructor
  · intro inRange j below
    obtain ⟨q, -, placed, -, passed⟩ := visits_skip visit
    rw [(skip_count placed last).1] at below
    obtain ⟨skip, whole, earlier⟩ := passed j below
    exact inRange _ (.inl ⟨skip, earlier, whole⟩)
  · rintro inRange cluster (⟨skip, visit', whole⟩ | ⟨skipped', s, visit', last', copies, wanted, data, rfl⟩)
    · obtain ⟨j, here, placed, -, -⟩ := visits_skip visit'
      dsimp only at here placed
      rw [here]
      refine inRange j ((Nat.le_div_iff_mul_le (by omega)).mpr ?_)
      rw [Nat.succ_mul]
      omega
    · obtain rfl : skipped' = skipped := (visits_skip_last visit' last').trans (visits_skip_last visit last).symm
      grind [copy_reads, fat32ReadCluster_inRange]

/-- A chain of data clusters up to the one of a position holds the position. -/
theorem le_heldLength_of_data (size : 0 < vol.bytesPerCluster) (below : offset < fileSize)
    (data : ∀ j ≤ offset / vol.bytesPerCluster, IsDataCluster ((fat32ReadFatEntry disk vol)^[j] firstCluster)) :
    offset ≤ vol.heldLength disk firstCluster fileSize := by
  have few : offset / vol.bytesPerCluster < fileSize := lt_of_le_of_lt (Nat.div_le_self _ _) below
  have reaches : offset / vol.bytesPerCluster < vol.clustersHeld disk fileSize firstCluster := by
    by_contra less
    exact clustersHeld_left (by omega) (data _ (Nat.not_lt.mp less))
  have inside : offset < (offset / vol.bytesPerCluster + 1) * vol.bytesPerCluster := by
    rw [Nat.mul_comm]
    exact Nat.lt_mul_div_succ offset size
  exact le_min below.le (inside.le.trans (Nat.mul_le_mul_right _ reaches))

/-- With sectors of 512 bytes, both reads deliver what is held. -/
theorem sequentialAgrees_of_512 (mounted : vol.Mounted) (sector512 : vol.bpb.bytesPerSector = 512) (positive : 0 < n)
    (done : fat32ReadFileAt disk vol fuel (some clusterBuf) firstCluster fileSize offset buf len = some ((n : Int), out))
    (inside : offset ≤ vol.heldLength disk firstCluster fileSize) :
    SequentialAgrees disk vol firstCluster fileSize offset n out := by
  have done' := fat32ReadFileAt_more positive (Nat.le_max_left fuel (fileSize + 1)) done
  obtain ⟨result, read, held⟩ := fat32ReadFileAt_held mounted sector512 inside
    (show fileSize < max fuel (fileSize + 1) by omega) (some clusterBuf) buf len
  obtain rfl := Option.some.inj (done'.symm.trans read)
  obtain ⟨count, bytes⟩ := held (Int.natCast_nonneg n)
  intro fuel' enough clusterBuf' buf' len' reached
  obtain ⟨⟨ret, filled⟩, read', held'⟩ := fat32ReadFileAt_held mounted sector512 (Nat.zero_le _) enough clusterBuf' buf' len'
  refine ⟨ret, filled, read', fun fine => ?_⟩
  obtain ⟨count', bytes'⟩ := held' fine
  grind

/-- What a read can return from a volume with larger sectors: it ends in its first cluster. -/
theorem large_read (large : 512 < vol.bpb.bytesPerSector) (positive : 0 < n)
    (done : fat32ReadFileAt disk vol fuel (some clusterBuf) firstCluster fileSize offset buf len = some ((n : Int), out)) :
    IsDataCluster firstCluster ∧ n = min len (fileSize - offset) ∧ offset + n ≤ vol.bytesPerCluster ∧ ∃ filled,
      fat32ReadCluster disk vol firstCluster clusterBuf = some filled ∧ out = Lib.memcpy buf 0 filled offset n := by
  obtain ⟨wanted, proper, skipped, -, visit, last, copied⟩ := fat32ReadFileAt_positive positive done
  have start : skipped = (firstCluster, offset) := by
    cases visit with
    | start => rfl
    | pass _ again =>
      obtain ⟨-, rfl, good, -⟩ := skipPass_again again
      exact absurd (fat32ReadFatEntry_large large _) good
  subst start
  have data : IsDataCluster firstCluster := copy_data positive rfl copied
  have some' : 0 < (copyStart fileSize offset len buf clusterBuf (firstCluster, offset)).toRead := by
    dsimp only [copyStart]
    omega
  obtain ⟨filled, read⟩ := copy_reads positive copied .start some' data
  obtain ⟨rest, copied⟩ := Lib.Visits.start.loop copied
  rcases Nat.lt_or_ge vol.bytesPerCluster (offset + min len (fileSize - offset)) with more | fits
  · obtain ⟨buf', pass⟩ := copyPass_large large some' data read more
    simp only [Lib.loop, pass, Option.some.injEq, Prod.mk.injEq] at copied
    have refused := copied.1
    unfold fat32ErrIo at refused
    omega
  · have pass := copyPass_whole some' data read fits
    simp only [Lib.loop, pass, Option.some.injEq, Prod.mk.injEq] at copied
    dsimp only [copyStart] at copied
    obtain ⟨count, rfl⟩ := copied
    have count' : n = min len (fileSize - offset) := by omega
    exact ⟨data, count', count' ▸ fits, filled, read, by rw [count']⟩

theorem memcpy_start (below : i < chunk) :
    Lib.memcpy buf 0 filled intra chunk i = filled (intra + i) := by
  rw [Lib.memcpy, if_pos ⟨Nat.zero_le i, by omega⟩, Nat.sub_zero]

/-- A read that begins in the first cluster. -/
theorem fat32ReadFileAt_first (wanted : ¬ (fileSize ≤ offset ∨ len = 0)) (proper : 2 ≤ firstCluster)
    (inside : offset < vol.bytesPerCluster) : fat32ReadFileAt disk vol (fuel + 1) (some clusterBuf) firstCluster fileSize offset buf len =
      Lib.loop (copyPass disk vol) (fuel + 1) (copyStart fileSize offset len buf clusterBuf (firstCluster, offset)) := by
  refine fat32ReadFileAt_copies wanted proper ?_
  simp only [Lib.loop, skipPass, if_pos inside]

section

variable (large : 512 < vol.bpb.bytesPerSector) (positive : 0 < n)
  (done : fat32ReadFileAt disk vol fuel (some clusterBuf) firstCluster fileSize offset buf len = some ((n : Int), out))
include large positive done

/-- A volume with larger sectors returns the same from the sectors that were read. -/
theorem sequentialAgrees_of_large (inSectors : offset + n ≤ 512 * vol.bpb.sectorsPerCluster) :
    SequentialAgrees disk vol firstCluster fileSize offset n out := by
  obtain ⟨data, count, fits, filled, read, rfl⟩ := large_read large positive done
  intro fuel' enough clusterBuf' buf' len' reached
  obtain ⟨fuel', rfl⟩ : ∃ rest, fuel' = rest + 1 := ⟨fuel' - 1, by omega⟩
  have wanted : ¬ (fileSize ≤ 0 ∨ len' = 0) := by omega
  cases clusterBuf' with
  | none =>
    refine ⟨fat32ErrNomem, buf', ?_, fun no => absurd no (by decide)⟩
    rw [fat32ReadFileAt, if_neg wanted, if_neg (by omega), if_neg (by have := data.1; omega)]
  | some clusterBuf' =>
    rw [fat32ReadFileAt_first wanted data.1 (by omega)]
    obtain ⟨filled', read', same, -⟩ := fat32ReadCluster_other read clusterBuf'
    have some' : 0 < (copyStart fileSize 0 len' buf' clusterBuf' (firstCluster, 0)).toRead := by
      dsimp only [copyStart]
      omega
    rcases Nat.lt_or_ge vol.bytesPerCluster (0 + min len' (fileSize - 0)) with more | whole
    · obtain ⟨buf'', pass⟩ := copyPass_large large some' data read' more
      refine ⟨fat32ErrIo, buf'', ?_, fun no => absurd no (by decide)⟩
      simp only [Lib.loop, pass]
    · have pass := copyPass_whole some' data read' whole
      simp only [Lib.loop, pass]
      refine ⟨_, _, rfl, fun _ => ⟨?_, fun i below => ?_⟩⟩
      · dsimp only [copyStart]
        omega
      · dsimp only [copyStart]
        rw [memcpy_start below, memcpy_start (by omega), Nat.zero_add]
        exact same _ (by omega)

/-- Behind the sectors that were read there is what the buffer held before. -/
theorem inSectors_of_sequentialAgrees
    (agrees : SequentialAgrees disk vol firstCluster fileSize offset n out) :
    offset + n ≤ 512 * vol.bpb.sectorsPerCluster := by
  obtain ⟨data, count, fits, filled, read, -⟩ := large_read large positive done
  obtain ⟨ret, buf', read₀, same⟩ := agrees (fileSize + 1) (Nat.lt_succ_self _) (some fun _ => out (n - 1) + 1) buf (offset + n)
    (Nat.le_refl _)
  obtain ⟨filled', read', -, kept⟩ := fat32ReadCluster_other read fun _ => out (n - 1) + 1
  have some' : 0 < (copyStart fileSize 0 (offset + n) buf (fun _ => out (n - 1) + 1) (firstCluster, 0)).toRead := by
    dsimp only [copyStart]
    omega
  have pass := copyPass_whole some' data read' (show 0 + min (offset + n) (fileSize - 0) ≤ _ by omega)
  rw [fat32ReadFileAt_first (by omega) data.1 (by omega)] at read₀
  simp only [Lib.loop, pass, Option.some.injEq, Prod.mk.injEq] at read₀
  obtain ⟨rfl, rfl⟩ := read₀
  have last := (same (Int.natCast_nonneg _)).2 (n - 1) (by omega)
  dsimp only [copyStart] at last
  grind [memcpy_start]

end

/-- A read from the start returns nothing where the first cluster is a mark of the end. -/
theorem lt_eoc_of_sequentialAgrees (size : 0 < vol.bytesPerCluster) (positive : 0 < n) (below : offset < fileSize)
    (proper : 2 ≤ firstCluster) (agrees : SequentialAgrees disk vol firstCluster fileSize offset n out) :
    firstCluster < fat32Eoc := by
  by_contra mark
  obtain ⟨ret, buf', read, same⟩ := agrees (fileSize + 1) (Nat.lt_succ_self _) (some fun _ => 0) (fun _ => 0) (offset + n)
    (Nat.le_refl _)
  have outside : ¬ (0 < min (offset + n) (fileSize - 0) ∧ 2 ≤ firstCluster ∧ firstCluster < fat32Eoc) :=
    fun enter => mark enter.2.2
  have pass : copyPass disk vol (copyStart fileSize 0 (offset + n) (fun _ => 0) (fun _ => 0) (firstCluster, 0)) =
      .inr (0, fun _ => 0) := if_pos outside
  rw [fat32ReadFileAt_first (by omega) proper size] at read
  simp only [Lib.loop, pass, Option.some.injEq, Prod.mk.injEq] at read
  omega

end Positions

/-- A file whose chain leaves the clusters of the volume for a while: 110 is not one of them. -/
def strayFile : Disk := sampleDisk 100 [(2, 110), (110, 3), (3, fat32Eoc)]

/-- A read that returns something has traversed clusters of the volume only, and what it returned
is what a read from the start returns, iff every cluster it skipped is one of the volume and not a
mark of the end, and the volume has sectors of 512 bytes or the read ends in the sectors of the
drive that a cluster is read from. -/
theorem random_access_iff {disk : Disk} {index : Int} {vol : Fat32Vol} (mount : fat32Mount disk index = some vol)
    {fuel firstCluster fileSize offset len n : Nat} {clusterBuf buf out : Bytes} (positive : 0 < n)
    (done : fat32ReadFileAt disk vol fuel (some clusterBuf) firstCluster fileSize offset buf len = some ((n : Int), out)) :
    ((∀ cluster, Traversed disk vol clusterBuf firstCluster fileSize offset buf len cluster → vol.InRange cluster) ∧
      SequentialAgrees disk vol firstCluster fileSize offset n out) ↔
    (∀ j < offset / vol.bytesPerCluster, vol.InRange ((fat32ReadFatEntry disk vol)^[j] firstCluster) ∧
      (fat32ReadFatEntry disk vol)^[j] firstCluster < fat32Eoc) ∧
    (vol.bpb.bytesPerSector = 512 ∨ offset + n ≤ 512 * vol.bpb.sectorsPerCluster) := by
  have mounted := fat32Mount_mounted mount
  have sector := mounted.sector
  have size : 0 < vol.bytesPerCluster := by
    rw [mounted.bytesPerCluster]
    exact Nat.mul_pos (by omega) mounted.sectors
  obtain ⟨wanted, proper, skipped, -, visit, last, copied⟩ := fat32ReadFileAt_positive positive done
  obtain ⟨q, here, placed, data, passed⟩ := visits_skip visit
  have count := (skip_count placed last).1
  rw [traversed_inRange_iff positive done, count]
  constructor
  · rintro ⟨inRange, agrees⟩
    refine ⟨fun j below => ⟨inRange j below, ?_⟩, ?_⟩
    · obtain ⟨skip, -, earlier⟩ := passed j below
      obtain ⟨steps, there, -, entry, -⟩ := visits_skip earlier
      rcases Nat.eq_zero_or_pos steps with rfl | some'
      · have first := lt_eoc_of_sequentialAgrees size positive (by omega) proper agrees
        rw [show (fat32ReadFatEntry disk vol)^[j] firstCluster = firstCluster from there]
        exact first
      · exact entry some'
    · rcases Nat.eq_or_lt_of_le sector with same | large
      · exact .inl same.symm
      · exact .inr (inSectors_of_sequentialAgrees large positive done agrees)
  · rintro ⟨inRange, sectors⟩
    refine ⟨fun j below => (inRange j below).1, ?_⟩
    rcases Nat.eq_or_lt_of_le sector with same | large
    · refine sequentialAgrees_of_512 mounted same.symm positive done (le_heldLength_of_data size (by omega) ?_)
      intro j upTo
      rcases Nat.lt_or_eq_of_le (count ▸ upTo) with below | rfl
      · exact ⟨(inRange j below).1.1, (inRange j below).2⟩
      · rw [← here]
        exact copy_data positive rfl copied
    · exact sequentialAgrees_of_large large positive done (by omega)

theorem random_access_iff_sample : ∃ out,
    fat32ReadFileAt sampleFile (sampleVol 100 98) 2 (some fun _ => 0) 3 700 600 (fun _ => 0) 50 = some (50, out) ∧
      (∀ cluster, Traversed sampleFile (sampleVol 100 98) (fun _ => 0) 3 700 600 (fun _ => 0) 50 cluster →
        (sampleVol 100 98).InRange cluster) ∧
      SequentialAgrees sampleFile (sampleVol 100 98) 3 700 600 50 out := by
  have returned : (fat32ReadFileAt sampleFile (sampleVol 100 98) 2 (some fun _ => 0) 3 700 600 (fun _ => 0) 50).any
      (fun answer => answer.1 = ((50 : Nat) : Int)) = true := by decide +kernel
  obtain ⟨⟨ret, out⟩, done, count⟩ := (Option.any_eq_true _ _).mp returned
  obtain rfl : ret = ((50 : Nat) : Int) := of_decide_eq_true count
  refine ⟨out, done, ?_⟩
  refine (random_access_iff (show fat32Mount sampleFile 0 = some (sampleVol 100 98) by decide +kernel) (by decide) done).mpr ⟨?_, .inl rfl⟩
  intro j below
  obtain rfl : j = 0 := Nat.lt_one_iff.mp below
  exact ⟨⟨by decide, by decide⟩, by decide⟩

/-- A read at 1024 follows the chain through 110 into cluster 3. A read from the start reports an error. -/
theorem random_access_strays : fat32Mount strayFile 0 = some (sampleVol 100 98) ∧ ∃ out,
    fat32ReadFileAt strayFile (sampleVol 100 98) 3 (some fun _ => 0) 2 1536 1024 (fun _ => 0) 10 = some (10, out) ∧
      (∀ i < 10, out i = (sampleVol 100 98).clusterByte strayFile 3 i) ∧
      Traversed strayFile (sampleVol 100 98) (fun _ => 0) 2 1536 1024 (fun _ => 0) 10 110 ∧
      ¬ (sampleVol 100 98).InRange 110 ∧
      (fat32ReadFileAt strayFile (sampleVol 100 98) 3 (some fun _ => 0) 2 1536 0 (fun _ => 0) 1034).map Prod.fst =
        some fat32ErrIo := by
  have returned : (fat32ReadFileAt strayFile (sampleVol 100 98) 3 (some fun _ => 0) 2 1536 1024 (fun _ => 0) 10).any
      (fun answer => answer.1 = 10 ∧ ∀ i < 10, answer.2 i = (sampleVol 100 98).clusterByte strayFile 3 i) = true := by
    decide +kernel
  obtain ⟨⟨ret, out⟩, done, test⟩ := (Option.any_eq_true _ _).mp returned
  obtain ⟨rfl, bytes⟩ := of_decide_eq_true test
  have again : skipPass strayFile (sampleVol 100 98) (2, 1024) = .inl (110, 512) :=
    Sum.getLeft?_eq_some_iff.mp (by decide +kernel)
  refine ⟨by decide +kernel, out, done, bytes, .inl ⟨512, .pass .start again, by decide⟩, ?_, by decide +kernel⟩
  exact fun inRange => absurd inRange.2 (by decide)

end Velox
