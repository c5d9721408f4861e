import Velox.Lib.Ranges
import Velox.Mm.Paging

/-! The virtual memory allocator of `mm/vmalloc.c`: a sorted array of free
ranges of one region, over the page tables and the physical allocator. -/

namespace Velox

def vmallocDefaultSize : Nat := 256 * 1024 * 1024
def vmallocMaxRanges : Nat := 128

/-- `free` holds the first `g_vmalloc_free_count` entries of `g_vmalloc_free`,
`limit` is `g_vmalloc_end`. -/
structure Vmalloc where
  paging : Paging
  free : List Lib.Range
  base : Nat
  limit : Nat
  initialized : Bool

def rangeEnd (start size : Nat) : Nat :=
  let sum := (start + size) % 2 ^ 64
  if sum < start then 2 ^ 64 - 1 else sum

/-- The merging loop of `vmalloc_free_range` at one entry and the entries after it. -/
def mergeFrom (range : Lib.Range) : List Lib.Range → List Lib.Range
  | [] => [range]
  | next :: rest =>
    let aEnd := rangeEnd range.start range.size
    let bEnd := rangeEnd next.start next.size
    if aEnd ≥ next.start then
      mergeFrom ⟨range.start, (if aEnd > bEnd then aEnd else bEnd) - range.start⟩ rest
    else range :: mergeFrom next rest

def vmallocFreeRange (free : List Lib.Range) (start size : Nat) : Except Panic (List Lib.Range) :=
  if size = 0 then .ok free
  else if free.length ≥ vmallocMaxRanges then panic "vmalloc: free list overflow"
  else
    match Lib.insertRange ⟨start, size⟩ free with
    | [] => .ok []
    | first :: rest => .ok (mergeFrom first rest)

/-- Where `vmalloc_init_once_locked` starts the region: behind the kernel image,
or behind the direct map when the image ends inside it. -/
def vmallocBase (boot : Boot) (highest : Nat) : Nat :=
  let hhdmOffset := boot.hhdmOffset.toNat
  let kernelEnd := alignUp boot.kernelVirtualEnd.toNat pmmPageSize
  let hhdmSpan := alignUp highest pmmPageSize
  let hhdmSum := (hhdmOffset + hhdmSpan) % 2 ^ 64
  let hhdmEnd := if hhdmSum < hhdmOffset then 2 ^ 64 - 1 else hhdmSum
  alignUp (if kernelEnd ≥ hhdmOffset ∧ kernelEnd < hhdmEnd then hhdmEnd else kernelEnd) pmmPageSize

/-- `vmalloc_init_once_locked`; the flag is its answer. -/
def vmallocInitOnceLocked (boot : Boot) (s : Vmalloc) : Bool × Vmalloc :=
  if s.initialized then (true, s)
  else if !s.paging.pmm.initialized || !s.paging.initialized then (false, s)
  else
    let highest := s.paging.pmm.info.highestPhysicalAddress
    if highest = 0 ∨ highest = 2 ^ 64 - 1 then (false, s)
    else
      let hhdmOffset := boot.hhdmOffset.toNat
      let base := vmallocBase boot highest
      let finish := rangeEnd base vmallocDefaultSize
      if base < hhdmOffset ∧ finish > hhdmOffset ∧ hhdmOffset ≤ base then (false, s)
      else
        let size := if base < hhdmOffset ∧ finish > hhdmOffset then hhdmOffset - base else vmallocDefaultSize
        if size < pmmPageSize then (false, s)
        else (true, { s with
          base := base
          limit := (base + size) % 2 ^ 64
          free := [⟨base, size⟩]
          initialized := true })

/-- The first range that is large enough gives up its front. -/
def firstFit (aligned : Nat) : List Lib.Range → Option (Nat × List Lib.Range)
  | [] => none
  | range :: rest =>
    if range.size < aligned then (firstFit aligned rest).map fun (addr, left) => (addr, range :: left)
    else if range.size - aligned = 0 then some (range.start, rest)
    else some (range.start, ⟨(range.start + aligned) % 2 ^ 64, range.size - aligned⟩ :: rest)

/-- Back the pages at the given offsets one by one until one of them fails; the
answer counts the bytes mapped. -/
def mapPages (root addr flags : Nat) : List Nat → Nat → Paging → Except Panic (Nat × Paging)
  | [], mapped, s => .ok (mapped, s)
  | offset :: rest, mapped, s =>
    match pmmTryAllocPagePhys s.pmm with
    | (none, pmm) => .ok (mapped, { s with pmm := pmm })
    | (some phys, pmm) => do
      let (ok, s) ← pagingMapPage { s with pmm := pmm } root ((addr + offset) % 2 ^ 64) phys flags
      if ok then mapPages root addr flags rest (mapped + pmmPageSize) s
      else return (mapped, { s with pmm := pmmFreePagePhys s.pmm phys })

/-- Unmap the pages at the given offsets and free the frames behind them. -/
def unmapPages (root addr : Nat) (offsets : List Nat) (s : Paging) : Except Panic Paging :=
  offsets.foldlM (fun s offset => do
    match ← pagingUnmapPage s root ((addr + offset) % 2 ^ 64) with
    | (some phys, s) => return { s with pmm := pmmFreePagePhys s.pmm phys }
    | (none, s) => return s) s

/-- `vmalloc` on an initialized region: carve out a range, back it, and undo
both when a page cannot be backed. -/
def vmallocCarve (s : Vmalloc) (aligned flags : Nat) : Except Panic (Nat × Vmalloc) :=
  match firstFit aligned s.free with
  | none => .ok (0, s)
  | some (addr, left) =>
    let root := s.paging.info.rootPml4Phys
    if root = 0 then do
      let free ← vmallocFreeRange left addr aligned
      return (0, { s with free := free })
    else do
      let (mapped, paging) ← mapPages root addr flags (strides 0 aligned pmmPageSize) 0 s.paging
      if mapped = aligned then return (addr, { s with paging := paging, free := left })
      else
        let paging ← unmapPages root addr (strides 0 mapped pmmPageSize) paging
        let free ← vmallocFreeRange left addr aligned
        return (0, { s with paging := paging, free := free })

/-- `vmalloc`; the answer `0` is `NULL`. -/
def vmalloc (boot : Boot) (s : Vmalloc) (size flags : Nat) : Except Panic (Nat × Vmalloc) :=
  if size = 0 then .ok (0, s)
  else
    let aligned := alignUp size pmmPageSize
    if aligned < size then .ok (0, s)
    else
      match vmallocInitOnceLocked boot s with
      | (false, s) => .ok (0, s)
      | (true, s) => vmallocCarve s aligned flags

def vfree (s : Vmalloc) (addr size : Nat) : Except Panic Vmalloc :=
  if addr = 0 ∨ size = 0 then .ok s
  else if addr &&& (pmmPageSize - 1) ≠ 0 then .ok s
  else
    let aligned := alignUp size pmmPageSize
    if aligned < size then .ok s
    else if !s.initialized then .ok s
    else if addr < s.base ∨ addr ≥ s.limit ∨ addr > (s.limit + 2 ^ 64 - aligned) % 2 ^ 64 then .ok s
    else
      let root := s.paging.info.rootPml4Phys
      if root = 0 then .ok s
      else do
        let paging ← unmapPages root addr (strides 0 aligned pmmPageSize) s.paging
        let free ← vmallocFreeRange s.free addr aligned
        return { s with paging := paging, free := free }

end Velox
