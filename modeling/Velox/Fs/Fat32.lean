import Velox.Fs.Gpt
import Velox.Lib.Runs

/-! The FAT32 volume of `fs/fat32.c`: mounting, the file allocation table, clusters,
and reads from a file. -/

namespace Velox

open Lib (Bytes le16 le32)

def fat32Eoc : Nat := 0x0FFFFFF8
def fat32Bad : Nat := 0x0FFFFFF7

def fat32ErrNoent : Int := -2
def fat32ErrIo : Int := -5
def fat32ErrNomem : Int := -12
def fat32ErrNotdir : Int := -20
def fat32ErrInval : Int := -22
def fat32ErrNametoolong : Int := -36

structure Fat32Bpb where
  bytesPerSector : Nat
  sectorsPerCluster : Nat
  reservedSectors : Nat
  numFats : Nat
  rootEntryCount : Nat
  totalSectors16 : Nat
  fatSize16 : Nat
  totalSectors32 : Nat
  fatSize32 : Nat
  fsVersion : Nat
  rootCluster : Nat
deriving DecidableEq, Repr

structure Fat32Vol where
  gptPartitionIndex : Int
  bpb : Fat32Bpb
  bytesPerCluster : Nat
  fatStartLba : Nat
  dataStartLba : Nat
  rootCluster : Nat
  clusterCount : Nat
deriving DecidableEq, Repr

/-- The packed layout of `fat32_bpb_t`. -/
def Fat32Bpb.ofSector (sector : Bytes) : Fat32Bpb where
  bytesPerSector := le16 sector 11
  sectorsPerCluster := (sector 13).toNat
  reservedSectors := le16 sector 14
  numFats := (sector 16).toNat
  rootEntryCount := le16 sector 17
  totalSectors16 := le16 sector 19
  fatSize16 := le16 sector 22
  totalSectors32 := le32 sector 32
  fatSize32 := le32 sector 36
  fsVersion := le16 sector 42
  rootCluster := le32 sector 44

def fat32Mount (disk : Disk) (gptIndex : Int) : Option Fat32Vol :=
  match gptReadPartitionSectors disk gptIndex 0 1 fun _ => 0 with
  | none => none
  | some sector =>
    let b := Fat32Bpb.ofSector sector
    if sector 510 ≠ 0x55 ∨ sector 511 ≠ 0xAA then none
    else if b.rootEntryCount ≠ 0 ∨ b.fatSize16 ≠ 0 ∨ b.totalSectors16 ≠ 0 then none
    else if b.fatSize32 = 0 then none
    else if b.fsVersion ≠ 0 then none
    else
      let bps := b.bytesPerSector
      if bps < 512 ∨ 4096 < bps ∨ bps &&& (bps - 1) ≠ 0 then none
      else
        let spc := b.sectorsPerCluster
        if spc = 0 ∨ spc &&& (spc - 1) ≠ 0 then none
        else
          let dataStartLba := b.reservedSectors + b.numFats * b.fatSize32
          let totalSectors := if b.totalSectors32 ≠ 0 then b.totalSectors32 else b.totalSectors16
          let dataSectors := (totalSectors + 2 ^ 64 - dataStartLba) % 2 ^ 64
          some {
            gptPartitionIndex := gptIndex
            bpb := b
            bytesPerCluster := bps * spc
            fatStartLba := b.reservedSectors
            dataStartLba := dataStartLba
            rootCluster := b.rootCluster
            clusterCount := dataSectors / spc % 2 ^ 32 }

def clusterToLba (vol : Fat32Vol) (cluster : Nat) : Nat :=
  (vol.dataStartLba + (cluster + 2 ^ 32 - 2) % 2 ^ 32 * vol.bpb.sectorsPerCluster) % 2 ^ 64

def readSectors (disk : Disk) (vol : Fat32Vol) (relativeLba count : Nat) (buf : Bytes) : Option Bytes :=
  gptReadPartitionSectors disk vol.gptPartitionIndex relativeLba count buf

def fat32ReadFatEntry (disk : Disk) (vol : Fat32Vol) (cluster : Nat) : Nat :=
  let bps := vol.bpb.bytesPerSector
  let entriesPerSector := bps / 4
  let fatSector := (vol.fatStartLba + cluster / entriesPerSector) % 2 ^ 64
  let byteOffset := cluster % entriesPerSector * 4
  if 512 < bps then fat32Bad
  else
    match readSectors disk vol fatSector 1 fun _ => 0 with
    | none => fat32Bad
    | some sector => le32 sector byteOffset &&& 0x0FFFFFFF

def fat32ReadCluster (disk : Disk) (vol : Fat32Vol) (cluster : Nat) (buf : Bytes) : Option Bytes :=
  if cluster < 2 ∨ (vol.clusterCount + 1) % 2 ^ 32 < cluster then none
  else readSectors disk vol (clusterToLba vol cluster) vol.bpb.sectorsPerCluster buf

/-- The loop of `fat32_read_file_at` that follows the chain to the cluster of the
offset, on the cluster and the bytes still to skip. -/
def skipPass (disk : Disk) (vol : Fat32Vol) : Nat × Nat → (Nat × Nat) ⊕ Except Int (Nat × Nat)
  | (cluster, skip) =>
    if skip < vol.bytesPerCluster then .inr (.ok (cluster, skip))
    else
      let next := fat32ReadFatEntry disk vol cluster
      if next = fat32Bad then .inr (.error fat32ErrIo)
      else if fat32Eoc ≤ next then .inr (.error 0)
      else .inl (next, skip - vol.bytesPerCluster)

/-- The variables of the loop that copies, with the caller's buffer and the
cluster buffer. -/
structure FileCopy where
  cluster : Nat
  intra : Nat
  totalRead : Nat
  toRead : Nat
  buf : Bytes
  clusterBuf : Bytes

def copyPass (disk : Disk) (vol : Fat32Vol) (s : FileCopy) : FileCopy ⊕ (Int × Bytes) :=
  if ¬ (0 < s.toRead ∧ 2 ≤ s.cluster ∧ s.cluster < fat32Eoc) then .inr (s.totalRead, s.buf)
  else
    match fat32ReadCluster disk vol s.cluster s.clusterBuf with
    | none => .inr (fat32ErrIo, s.buf)
    | some clusterBuf =>
      let avail := vol.bytesPerCluster - s.intra
      let chunk := if s.toRead < avail then s.toRead else avail
      let buf := Lib.memcpy s.buf s.totalRead clusterBuf s.intra chunk
      if s.toRead - chunk = 0 then .inr ((s.totalRead + chunk : Nat), buf)
      else
        let next := fat32ReadFatEntry disk vol s.cluster
        if next = fat32Bad then .inr (fat32ErrIo, buf)
        else if fat32Eoc ≤ next then .inr ((s.totalRead + chunk : Nat), buf)
        else
          .inl {
            cluster := next
            intra := 0
            totalRead := s.totalRead + chunk
            toRead := s.toRead - chunk
            buf := buf
            clusterBuf := clusterBuf }

/-- What `fat32_read_file_at` returns and leaves in the caller's buffer; `none` when
a loop is cut off. The cluster buffer comes from `kmalloc`, with what was left in it. -/
def fat32ReadFileAt (disk : Disk) (vol : Fat32Vol) (fuel : Nat) (clusterBuf : Option Bytes)
    (firstCluster fileSize offset : Nat) (buf : Bytes) (len : Nat) : Option (Int × Bytes) :=
  if fileSize ≤ offset ∨ len = 0 then some (0, buf)
  else if fileSize = 0 then some (0, buf)
  else if firstCluster < 2 then some (fat32ErrIo, buf)
  else
    let len := if fileSize - offset < len then fileSize - offset else len
    match clusterBuf with
    | none => some (fat32ErrNomem, buf)
    | some clusterBuf =>
      match Lib.loop (skipPass disk vol) fuel (firstCluster, offset) with
      | none => none
      | some (.error rc) => some (rc, buf)
      | some (.ok (cluster, skip)) =>
        Lib.loop (copyPass disk vol) fuel
          { cluster := cluster
            intra := skip
            totalRead := 0
            toRead := len
            buf := buf
            clusterBuf := clusterBuf }

end Velox
