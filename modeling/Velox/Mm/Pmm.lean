import Velox.Boot

/-! The physical page allocator of `mm/pmm.c`: a byte-packed bitmap in which a
set bit is a used frame, two counters and a search hint. -/

namespace Velox

def pmmPageSize : Nat := 4096

structure PmmInfo where
  totalPages : Nat
  freePages : Nat
  usedPages : Nat
  bitmapBytes : Nat
  bitmapPhysBase : Nat
  highestPhysicalAddress : Nat
deriving DecidableEq, Repr

structure Pmm where
  bitmap : Nat → BitVec 8
  info : PmmInfo
  nextSearch : Nat
  initialized : Bool

/-- `counter++` and `counter--` on a `uint64_t`, which wrap. -/
def wordSucc (counter : Nat) : Nat := if counter = 2 ^ 64 - 1 then 0 else counter + 1
def wordPred (counter : Nat) : Nat := if counter = 0 then 2 ^ 64 - 1 else counter - 1

namespace Pmm

def bitTest (s : Pmm) (bit : Nat) : Bool :=
  (s.bitmap (bit >>> 3) &&& (1#8 <<< (bit &&& 7))) != 0

def bitSet (s : Pmm) (bit : Nat) : Pmm :=
  { s with
    bitmap := Function.update s.bitmap (bit >>> 3)
      (s.bitmap (bit >>> 3) ||| (1#8 <<< (bit &&& 7))) }

def bitClear (s : Pmm) (bit : Nat) : Pmm :=
  { s with
    bitmap := Function.update s.bitmap (bit >>> 3)
      (s.bitmap (bit >>> 3) &&& ~~~(1#8 <<< (bit &&& 7))) }

def markPageUsed (s : Pmm) (page : Nat) : Pmm :=
  if page ≥ s.info.totalPages then s
  else if !s.bitTest page then
    { s.bitSet page with
      info := { s.info with
        freePages := wordPred s.info.freePages
        usedPages := wordSucc s.info.usedPages } }
  else s

def markPageFree (s : Pmm) (page : Nat) : Pmm :=
  if page ≥ s.info.totalPages then s
  else if s.bitTest page then
    { s.bitClear page with
      info := { s.info with
        freePages := wordSucc s.info.freePages
        usedPages := wordPred s.info.usedPages } }
  else s

def physToPage (physAddr : Nat) : Nat := physAddr / pmmPageSize

/-- Only fully covered pages: `[ceil(start), floor(end))`. -/
def markRangeFree (s : Pmm) (startPhys endPhys : Nat) : Pmm :=
  if endPhys ≤ startPhys then s
  else
    let pageStart := physToPage (alignUp startPhys pmmPageSize)
    let pageEnd := min (physToPage (alignDown endPhys pmmPageSize)) s.info.totalPages
    (List.range' pageStart (pageEnd - pageStart)).foldl markPageFree s

/-- Any touched page: `[floor(start), ceil(end))`. -/
def markRangeUsed (s : Pmm) (startPhys endPhys : Nat) : Pmm :=
  if endPhys ≤ startPhys then s
  else
    let pageStart := physToPage (alignDown startPhys pmmPageSize)
    let pageEnd := min (physToPage (alignUp endPhys pmmPageSize)) s.info.totalPages
    (List.range' pageStart (pageEnd - pageStart)).foldl markPageUsed s

end Pmm

def maxPhysicalEnd (memoryMap : List MemoryMapEntry) : Nat :=
  memoryMap.foldl (fun maxEnd entry => if entry.rawEnd > maxEnd then entry.rawEnd else maxEnd) 0

def findBitmapRegion (memoryMap : List MemoryMapEntry) (bitmapSize : Nat) : Option Nat :=
  let bitmapSpanBytes := alignUp bitmapSize pmmPageSize
  memoryMap.findSome? fun entry =>
    if entry.type ≠ .usable then none
    else
      let regionStart := alignUp entry.base.toNat pmmPageSize
      let regionEnd := alignDown entry.rawEnd pmmPageSize
      if regionEnd < regionStart then none
      else if regionEnd - regionStart ≥ bitmapSpanBytes then some regionStart
      else none

/-- The bookkeeping `pmm_init` sets up before it reads the map: every frame used. -/
def Pmm.reset (s : Pmm) (totalPages bitmapBytes bitmapPhys highestPhys : Nat) : Pmm :=
  { s with
    info := {
      totalPages := totalPages
      freePages := 0
      usedPages := totalPages
      bitmapBytes := bitmapBytes
      bitmapPhysBase := bitmapPhys
      highestPhysicalAddress := highestPhys }
    nextSearch := 0
    bitmap := fun i => if i < bitmapBytes then 0xFF#8 else s.bitmap i }

def Pmm.freeUsable (s : Pmm) (entry : MemoryMapEntry) : Pmm :=
  if entry.type = .usable then s.markRangeFree entry.base.toNat entry.rawEnd else s

def pmmInit (boot : Boot) (s : Pmm) : Except Panic Pmm := do
  if boot.memoryMap = [] then
    panic "PMM init failed: invalid memory map"
  let highestPhys := maxPhysicalEnd boot.memoryMap
  let totalPages := alignUp highestPhys pmmPageSize / pmmPageSize
  if totalPages = 0 then
    panic "PMM init failed: no physical memory pages detected"
  let bitmapBytes := alignUp totalPages 8 / 8
  match findBitmapRegion boot.memoryMap bitmapBytes with
  | none => panic "PMM init failed: no space for bitmap"
  | some bitmapPhys =>
    let s := s.reset totalPages bitmapBytes bitmapPhys highestPhys
    let s := boot.memoryMap.foldl Pmm.freeUsable s
    let s := s.markRangeUsed bitmapPhys ((bitmapPhys + alignUp bitmapBytes pmmPageSize) % 2 ^ 64)
    let s := s.markRangeUsed boot.kernelPhysicalStart.toNat boot.kernelPhysicalEnd.toNat
    let s := s.markPageUsed 0
    if (s.info.freePages + s.info.usedPages) % 2 ^ 64 ≠ s.info.totalPages then
      panic "PMM init failed: page accounting mismatch"
    return { s with nextSearch := if s.info.totalPages > 1 then 1 else 0, initialized := true }

/-- The page the cyclic scan looks at after `scanned` steps from `start`. -/
def Pmm.scanPage (s : Pmm) (start scanned : Nat) : Nat :=
  let page := start + scanned
  if page ≥ s.info.totalPages then page - s.info.totalPages else page

/-- `pmm_try_alloc_page_phys`; `none` is the answer `false`. -/
def pmmTryAllocPagePhys (s : Pmm) : Option Nat × Pmm :=
  if !s.initialized || s.info.freePages == 0 || s.info.totalPages == 0 then (none, s)
  else
    let start := if s.nextSearch ≥ s.info.totalPages then 0 else s.nextSearch
    match ((List.range s.info.totalPages).map (s.scanPage start)).find? (fun page => !s.bitTest page) with
    | none => (none, s)
    | some page =>
      let s := s.markPageUsed page
      let next := if page + 1 ≥ s.info.totalPages then 0 else page + 1
      (some (page * pmmPageSize), { s with nextSearch := next })

def pmmFreePagePhys (s : Pmm) (physAddr : Nat) : Pmm :=
  if !s.initialized then s
  else if (physAddr &&& (pmmPageSize - 1)) ≠ 0 then s
  else
    let page := Pmm.physToPage physAddr
    if page ≥ s.info.totalPages then s
    else if s.bitTest page then
      let s := s.markPageFree page
      if page < s.nextSearch then { s with nextSearch := page } else s
    else s

end Velox
