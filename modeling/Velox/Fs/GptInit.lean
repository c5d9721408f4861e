import Velox.Fs.Fat32Read

namespace Velox

open Lib (Bytes le16 le32)

variable {offset : Nat}

/-- `gpt_partition_t`. -/
structure GptRecord where
  typeGuid : List UInt8
  uniqueGuid : List UInt8
  startLba : Nat
  endLba : Nat
  numSectors : Nat
  attributes : Nat
  name : Bytes

/-- `partitions` and `partition_count`. -/
structure Gpt where
  partitions : Nat → GptRecord
  count : Nat

inductive GptFault where
  /-- A byte behind the 32 sectors that hold the entries. -/
  | entryOverrun (offset : Nat)
  /-- A partition behind the 128 of the table. -/
  | tableOverrun

abbrev GptM := Except GptFault

section Entries

variable (buf : Bytes)

def entryByte (offset : Nat) : GptM UInt8 :=
  if offset < 512 * 32 then .ok (buf offset) else .error (.entryOverrun offset)

def entryBytes (offset count : Nat) : GptM (List UInt8) := (List.range count).mapM fun i => entryByte buf (offset + i)

def entry64 (offset : Nat) : GptM Nat := do
  let bytes ← entryBytes buf offset 8
  return bytes.foldr (fun byte rest => byte.toNat + 2 ^ 8 * rest) 0

/-- The loop that looks for a byte of the type that is not zero. -/
def entryEmpty : (left offset : Nat) → GptM Bool
  | 0, _ => .ok true
  | left + 1, offset => do
    let byte ← entryByte buf offset
    if byte ≠ 0 then return false
    entryEmpty left (offset + 1)

/-- The loop of `guid_to_utf8`, from a character on. -/
def guidToUtf8From (offset : Nat) : (left i : Nat) → Bytes → GptM Bytes
  | 0, _, out => .ok out
  | left + 1, i, out => do
    let low ← entryByte buf (offset + 2 * i)
    let high ← entryByte buf (offset + 2 * i + 1)
    let unit := low.toNat + 2 ^ 8 * high.toNat
    if unit = 0 then return out
    guidToUtf8From offset left (i + 1) (Function.update out i (if unit < 0x80 then low else 0x3F))

/-- `guid_to_utf8`, into what the name held before. -/
def guidToUtf8 (offset maxChars : Nat) (out : Bytes) : GptM Bytes := do
  let out ← guidToUtf8From buf offset (maxChars - 1) 0 out
  return Function.update out (maxChars - 1) 0

/-- One pass of the loop of `gpt_init`, on the entry at an offset. -/
def gptEntry (s : Gpt) (offset : Nat) : GptM Gpt := do
  if ← entryEmpty buf 16 offset then return s
  if 128 ≤ s.count then .error .tableOverrun
  let typeGuid ← entryBytes buf offset 16
  let uniqueGuid ← entryBytes buf (offset + 16) 16
  let startLba ← entry64 buf (offset + 32)
  let endLba ← entry64 buf (offset + 40)
  let attributes ← entry64 buf (offset + 48)
  let name ← guidToUtf8 buf (offset + 56) 72 (s.partitions s.count).name
  let record := {
    typeGuid := typeGuid
    uniqueGuid := uniqueGuid
    startLba := startLba
    endLba := endLba
    numSectors := (endLba + 2 ^ 64 - startLba + 1) % 2 ^ 64
    attributes := attributes
    name := name }
  return ⟨Function.update s.partitions s.count record, s.count + 1⟩

end Entries

/-- `"EFI PART"`. -/
def gptSignature : List UInt8 := [0x45, 0x46, 0x49, 0x20, 0x50, 0x41, 0x52, 0x54]

def gptInit (s : Gpt) (drive : AtaDrive) : GptM (Bool × Gpt) :=
  match virtioBlkRead drive 1 1 fun _ => 0 with
  | none => .ok (false, s)
  | some sector =>
    if (List.range 8).map sector ≠ gptSignature then .ok (false, s)
    else
      match virtioBlkRead drive 2 32 fun _ => 0 with
      | none => .ok (false, s)
      | some buf => do
        let count := le32 sector 80
        let esize := le32 sector 84
        let s ← (List.range count).foldlM (fun s i => gptEntry buf s (i * esize % 2 ^ 32)) { s with count := 0 }
        return (true, s)

/-- The disk behind a table. -/
def Gpt.disk (s : Gpt) (drive : AtaDrive) : Disk where
  drive := drive
  partitions := (List.range s.count).map fun i => ⟨(s.partitions i).startLba, (s.partitions i).numSectors⟩

/-- The partition of an index. -/
def Gpt.record? (s : Gpt) (index : Int) : Option GptRecord :=
  if 0 ≤ index ∧ index < s.count then some (s.partitions index.toNat) else none

/-- The sector and the count that `virtio_blk_read` programs the drive with. -/
def virtioBlkAsks (drive : AtaDrive) (sector count : Nat) : Option (Nat × Nat) :=
  if !drive.ready then none
  else if count = 0 ∨ 255 < count then none
  else if 0x0FFFFFFF < sector then none
  else some (sector, count)

/-- What a read of a partition asks the drive for. -/
def gptAsks (disk : Disk) (index : Int) (relativeLba count : Nat) : Option (Nat × Nat) :=
  if index < 0 then none
  else
    match disk.partitions[index.toNat]? with
    | none => none
    | some partition =>
      if partition.numSectors < (relativeLba + count) % 2 ^ 64 then none
      else virtioBlkAsks disk.drive ((partition.startLba + relativeLba) % 2 ^ 64) count

section Asks

/-- A read is what the drive makes of what it is asked for, and fails when it is not asked. -/
theorem gptReadPartitionSectors_asks (disk : Disk) (index : Int) (relativeLba count : Nat) (buf : Bytes) :
    gptReadPartitionSectors disk index relativeLba count buf =
      (gptAsks disk index relativeLba count).bind fun (sector, count) =>
        if disk.drive.completes sector count then
          some fun i => if i < 512 * count then disk.drive.byte (512 * sector + i) else buf i
        else none := by
  unfold gptReadPartitionSectors gptAsks
  by_cases negative : index < 0
  · grind
  rw [if_neg negative, if_neg negative]
  cases disk.partitions[index.toNat]? with
  | none => rfl
  | some partition =>
    by_cases short : partition.numSectors < (relativeLba + count) % 2 ^ 64
    · grind
    unfold virtioBlkRead virtioBlkAsks
    grind

/-- The requests that pass the checks of `gpt_read_partition_sectors` and of the driver. -/
def GptRecord.Accepts (record : GptRecord) (drive : AtaDrive) (relativeLba count : Nat) : Prop :=
  (relativeLba + count) % 2 ^ 64 ≤ record.numSectors ∧ drive.ready = true ∧ 0 < count ∧ count ≤ 255 ∧
    (record.startLba + relativeLba) % 2 ^ 64 ≤ 0x0FFFFFFF

theorem gptAsks_iff {s : Gpt} : gptAsks (s.disk drive) index relativeLba count = some (sector, n) ↔
      ∃ record, s.record? index = some record ∧ record.Accepts drive relativeLba count ∧
        sector = (record.startLba + relativeLba) % 2 ^ 64 ∧ n = count := by
  unfold gptAsks Gpt.record?
  by_cases negative : index < 0
  · grind
  rw [if_neg negative]
  by_cases inTable : index < s.count
  · have found : (s.disk drive).partitions[index.toNat]? =
        some ⟨(s.partitions index.toNat).startLba, (s.partitions index.toNat).numSectors⟩ := by
      have below : index.toNat < s.count := by omega
      simp [Gpt.disk, below]
    rw [if_pos ⟨by omega, inTable⟩, found]
    dsimp only [Gpt.disk]
    unfold virtioBlkAsks GptRecord.Accepts
    grind
  · have missing : (s.disk drive).partitions[index.toNat]? = none := by
      have above : s.count ≤ index.toNat := by omega
      simp [Gpt.disk, above]
    grind

/-- The sectors that a read asks the drive for are those of the partition. -/
def Gpt.ConfinedRead (s : Gpt) (drive : AtaDrive) (index : Int) (relativeLba count : Nat) : Prop :=
  ∀ sector n, gptAsks (s.disk drive) index relativeLba count = some (sector, n) →
    ∃ record, s.record? index = some record ∧ ∀ i < n, record.startLba ≤ sector + i ∧ sector + i ≤ record.endLba

/-- What `gpt_init` makes of an entry. -/
structure GptRecord.FromEntry (record : GptRecord) : Prop where
  start : record.startLba < 2 ^ 64
  last : record.endLba < 2 ^ 64
  sectors : record.numSectors = (record.endLba + 2 ^ 64 - record.startLba + 1) % 2 ^ 64

theorem confined_iff {record : GptRecord} (made : record.FromEntry)
    (relative : relativeLba < 2 ^ 64) (accepts : record.Accepts drive relativeLba count) :
    (∀ i < count, record.startLba ≤ (record.startLba + relativeLba) % 2 ^ 64 + i ∧
        (record.startLba + relativeLba) % 2 ^ 64 + i ≤ record.endLba) ↔
      relativeLba + count < 2 ^ 64 ∧ record.startLba ≤ record.endLba := by
  obtain ⟨start, last, sectors⟩ := made
  obtain ⟨fits, -, some', small, low⟩ := accepts
  grind

end Asks

section Table

variable {buf : Bytes} {s t : Gpt}

theorem entryBytes_length (done : entryBytes buf offset count = .ok bytes) : bytes.length = count := by
  have length : ∀ (list : List Nat) {bytes : List UInt8},
      list.mapM (fun i => entryByte buf (offset + i)) = .ok bytes → bytes.length = list.length := by
    intro list
    induction list with
    | nil =>
      intro bytes done
      cases done
      rfl
    | cons i rest ih =>
      intro bytes done
      rw [List.mapM_cons] at done
      obtain ⟨byte, -, onward⟩ := Lib.bind_ok done
      obtain ⟨others, read, onward⟩ := Lib.bind_ok onward
      cases onward
      grind
  rw [length _ done, List.length_range]

theorem littleEndian_lt (bytes : List UInt8) :
    bytes.foldr (fun byte rest => byte.toNat + 2 ^ 8 * rest) 0 < 2 ^ (8 * bytes.length) := by
  induction bytes with
  | nil => exact Nat.one_pos
  | cons byte rest ih =>
    have small := byte.toNat_lt
    rw [List.foldr_cons, List.length_cons, Nat.mul_add, Nat.mul_one, Nat.pow_add]
    omega

theorem entry64_lt (done : entry64 buf offset = .ok value) : value < 2 ^ 64 := by
  obtain ⟨bytes, read, onward⟩ := Lib.bind_ok done
  cases onward
  have small := littleEndian_lt bytes
  rwa [entryBytes_length read] at small

/-- Every partition of the table was made from an entry. -/
def Gpt.Filled (s : Gpt) : Prop := ∀ i < s.count, (s.partitions i).FromEntry

theorem gptEntry_filled (filled : s.Filled) (done : gptEntry buf s offset = .ok t) : t.Filled := by
  obtain ⟨empty, -, onward⟩ := Lib.bind_ok done
  split at onward
  · cases onward
    exact filled
  split at onward
  · cases onward
  obtain ⟨typeGuid, -, onward⟩ := Lib.bind_ok onward
  obtain ⟨uniqueGuid, -, onward⟩ := Lib.bind_ok onward
  obtain ⟨startLba, start, onward⟩ := Lib.bind_ok onward
  obtain ⟨endLba, last, onward⟩ := Lib.bind_ok onward
  obtain ⟨attributes, -, onward⟩ := Lib.bind_ok onward
  obtain ⟨name, -, onward⟩ := Lib.bind_ok onward
  cases onward
  intro i below
  dsimp only at below ⊢
  by_cases new : i = s.count
  · subst new
    rw [Function.update_self]
    exact ⟨entry64_lt start, entry64_lt last, rfl⟩
  · rw [Function.update_of_ne new]
    exact filled i (by omega)

theorem gptInit_filled {found : Bool} (filled : s.Filled)
    (done : gptInit s drive = .ok (found, t)) : t.Filled := by
  unfold gptInit at done
  split at done
  · grind
  split at done
  · grind
  split at done
  · grind
  · obtain ⟨u, folded, onward⟩ := Lib.bind_ok done
    cases onward
    exact Lib.foldlM_invariant Gpt.Filled (fun kept taken => gptEntry_filled kept taken)
      (fun _ below => absurd below (Nat.not_lt_zero _)) folded

end Table

/-- The table before any `gpt_init`. -/
def blankGpt : Gpt := ⟨fun _ => ⟨[], [], 0, 0, 0, 0, fun _ => 0⟩, 0⟩

end Velox
