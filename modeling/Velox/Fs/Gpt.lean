import Velox.Lib.Bytes

namespace Velox

open Lib (Bytes)

/-- The drive as the driver meets it: whether it was found, the reads it completes,
and its contents. -/
structure AtaDrive where
  ready : Bool
  completes : (sector count : Nat) → Bool
  byte : Bytes

structure GptPartition where
  startLba : Nat
  numSectors : Nat
deriving DecidableEq, Repr

structure Disk where
  drive : AtaDrive
  partitions : List GptPartition

/-- A sector of the drive has 512 bytes. The buffer is given up when the read
fails. -/
def virtioBlkRead (drive : AtaDrive) (sector count : Nat) (buf : Bytes) : Option Bytes :=
  if !drive.ready then none
  else if count = 0 ∨ 255 < count then none
  else if 0x0FFFFFFF < sector then none
  else if !drive.completes sector count then none
  else some fun i => if i < 512 * count then drive.byte (512 * sector + i) else buf i

def gptReadPartitionSectors (disk : Disk) (index : Int) (relativeLba count : Nat) (buf : Bytes) : Option Bytes :=
  if index < 0 then none
  else
    match disk.partitions[index.toNat]? with
    | none => none
    | some partition =>
      if partition.numSectors < (relativeLba + count) % 2 ^ 64 then none
      else virtioBlkRead disk.drive ((partition.startLba + relativeLba) % 2 ^ 64) count buf

/-- The contents of a partition, by the byte. -/
def Disk.partitionByte (disk : Disk) (index : Int) (offset : Nat) : UInt8 :=
  match disk.partitions[index.toNat]? with
  | none => 0
  | some partition => disk.drive.byte (512 * ((partition.startLba + offset / 512) % 2 ^ 64) + offset % 512)

/-- A read that succeeds fills its sectors' part of the buffer, and no more. -/
theorem gptReadPartitionSectors_bytes {disk : Disk} {index : Int} {relativeLba count : Nat} {buf filled : Bytes}
    (done : gptReadPartitionSectors disk index relativeLba count buf = some filled) (i : Nat) :
    filled i = if i < 512 * count then disk.partitionByte index (512 * relativeLba + i) else buf i := by
  unfold gptReadPartitionSectors at done
  split at done
  · cases done
  split at done
  · cases done
  rename_i partition found
  split at done
  · cases done
  unfold virtioBlkRead at done
  repeat' split at done
  all_goals cases done
  dsimp only
  split
  · -- The read ends below 2^28 + 255, so the sector number does not wrap inside it.
    have sector : (partition.startLba + (512 * relativeLba + i) / 512) % 2 ^ 64 =
        (partition.startLba + relativeLba) % 2 ^ 64 + i / 512 := by omega
    simp only [Disk.partitionByte, found, sector]
    congr 1
    omega
  · rfl

/-- Whether a read succeeds does not depend on the buffer. -/
theorem gptReadPartitionSectors_isSome (disk : Disk) (index : Int) (relativeLba count : Nat) (buf other : Bytes) :
    (gptReadPartitionSectors disk index relativeLba count buf).isSome =
      (gptReadPartitionSectors disk index relativeLba count other).isSome := by
  unfold gptReadPartitionSectors
  split
  · rfl
  split
  · rfl
  split
  · rfl
  unfold virtioBlkRead
  grind

end Velox
