import Velox.Lib.Radix
import Velox.Mm.Pmm

/-! The four-level page tables of `mm/paging.c`. Table pages live in physical
memory, seen as frames of 512 words through the higher-half direct map; the
bitmap of the physical allocator is kept apart in `pmm`. -/

namespace Velox

def pageSize4k : Nat := 0x1000
def pageSize2m : Nat := 0x200000
def pageSize1g : Nat := 0x40000000

def pagePresent : Nat := 1 <<< 0
def pageWritable : Nat := 1 <<< 1
def pageUser : Nat := 1 <<< 2
def pagePwt : Nat := 1 <<< 3
def pagePcd : Nat := 1 <<< 4
def pagePs : Nat := 1 <<< 7
def pageGlobal : Nat := 1 <<< 8
def pageNx : Nat := 1 <<< 63

def entryAddrMask4k : Nat := 0x000FFFFFFFFFF000
def entryAddrMask2m : Nat := 0x000FFFFFFFE00000
def entryAddrMask1g : Nat := 0x000FFFFFC0000000

def stackProtectWindowBytes : Nat := 64 * 1024

def pagingFlagWritable : Nat := 1 <<< 0
def pagingFlagUser : Nat := 1 <<< 1
def pagingFlagExec : Nat := 1 <<< 2
def pagingFlagGlobal : Nat := 1 <<< 3
def pagingFlagNoCache : Nat := 1 <<< 4
def pagingFlagWriteThrough : Nat := 1 <<< 5

structure PagingInfo where
  initialized : Bool
  rootPml4Phys : Nat
  tablePagesAllocated : Nat
  mappedKernelPages : Nat
  mappedHhdm2mPages : Nat
  mappedHhdm4kPages : Nat
  mappedPassthroughPages : Nat
  reclaimedBootloaderPages : Nat
deriving DecidableEq, Repr

structure Paging where
  pmm : Pmm
  tables : Nat → Fin 512 → Nat
  info : PagingInfo
  initialized : Bool
  nxEnabled : Bool
  cr3 : Nat

/-- The nine address bits from `shift` on, which index one level of tables. -/
def tableIndex (virtAddr shift : Nat) : Fin 512 :=
  ⟨virtAddr >>> shift &&& 0x1FF, Nat.lt_succ_of_le Nat.and_le_right⟩

def pml4Index (virtAddr : Nat) : Fin 512 := tableIndex virtAddr 39
def pdptIndex (virtAddr : Nat) : Fin 512 := tableIndex virtAddr 30
def pdIndex (virtAddr : Nat) : Fin 512 := tableIndex virtAddr 21
def ptIndex (virtAddr : Nat) : Fin 512 := tableIndex virtAddr 12

/-- `table[index] = entry` in the table page at `table`. -/
def Paging.setEntry (s : Paging) (table : Nat) (index : Fin 512) (entry : Nat) : Paging :=
  { s with tables := Lib.writeEntry s.tables table index entry }

def allocTablePage (s : Paging) : Except Panic (Nat × Paging) :=
  match pmmTryAllocPagePhys s.pmm with
  | (none, _) => panic "Paging init failed: out of memory for page tables"
  | (some tablePhys, pmm) =>
    if tablePhys = 2 ^ 64 - 1 then panic "Paging init failed: out of memory for page tables"
    else .ok (tablePhys, { s with
      pmm := pmm
      tables := Function.update s.tables tablePhys (fun _ => 0)
      info := { s.info with tablePagesAllocated := wordSucc s.info.tablePagesAllocated } })

def getOrCreateTable (s : Paging) (parentTable : Nat) (index : Fin 512) (user : Bool) : Except Panic (Nat × Paging) :=
  let entry := s.tables parentTable index
  if entry &&& pagePresent ≠ 0 then
    if entry &&& pagePs ≠ 0 then panic "Paging: huge-page entry in intermediate table walk"
    else
      let s := if user && (entry &&& pageUser) == 0 then s.setEntry parentTable index (entry ||| pageUser) else s
      .ok (entry &&& entryAddrMask4k, s)
  else do
    let (childPhys, s) ← allocTablePage s
    let newEntry := childPhys ||| pagePresent ||| pageWritable
    let newEntry := if user then newEntry ||| pageUser else newEntry
    .ok (childPhys, s.setEntry parentTable index newEntry)

def pagingFlagsToHw (nxEnabled : Bool) (flags : Nat) : Nat :=
  let hw := 0
  let hw := if flags &&& pagingFlagWritable ≠ 0 then hw ||| pageWritable else hw
  let hw := if flags &&& pagingFlagUser ≠ 0 then hw ||| pageUser else hw
  let hw := if flags &&& pagingFlagGlobal ≠ 0 then hw ||| pageGlobal else hw
  let hw := if flags &&& pagingFlagWriteThrough ≠ 0 then hw ||| pagePwt else hw
  let hw := if flags &&& pagingFlagNoCache ≠ 0 then hw ||| pagePcd else hw
  if (flags &&& pagingFlagExec) = 0 ∧ nxEnabled then hw ||| pageNx else hw

/-- The place of a last-level entry: its table page and its index there. -/
structure PteRef where
  table : Nat
  index : Fin 512
deriving DecidableEq, Repr

/-- `walk_to_pte`; the answer `none` is `false`. -/
def walkToPte (s : Paging) (rootPml4Phys virtAddr : Nat) (create user : Bool) :
    Except Panic (Option PteRef × Paging) := do
  let pml4 := rootPml4Phys &&& entryAddrMask4k
  let l4 := pml4Index virtAddr
  if (s.tables pml4 l4 &&& pagePresent) = 0 ∧ !create then return (none, s)
  let (pdpt, s) ← getOrCreateTable s pml4 l4 user
  let l3 := pdptIndex virtAddr
  if s.tables pdpt l3 &&& pagePs ≠ 0 then return (none, s)
  if (s.tables pdpt l3 &&& pagePresent) = 0 ∧ !create then return (none, s)
  let (pd, s) ← getOrCreateTable s pdpt l3 user
  let l2 := pdIndex virtAddr
  if s.tables pd l2 &&& pagePs ≠ 0 then return (none, s)
  if (s.tables pd l2 &&& pagePresent) = 0 ∧ !create then return (none, s)
  let (pt, s) ← getOrCreateTable s pd l2 user
  return (some ⟨pt, ptIndex virtAddr⟩, s)

/-- `translate_with_cr3`; the answer `none` is `false`. -/
def translateWithCr3 (s : Paging) (rootCr3Phys virtAddr : Nat) : Option Nat :=
  let pml4e := s.tables (rootCr3Phys &&& entryAddrMask4k) (pml4Index virtAddr)
  if (pml4e &&& pagePresent) = 0 then none
  else
    let pdpte := s.tables (pml4e &&& entryAddrMask4k) (pdptIndex virtAddr)
    if (pdpte &&& pagePresent) = 0 then none
    else if pdpte &&& pagePs ≠ 0 then
      some (pdpte &&& entryAddrMask1g ||| virtAddr &&& (pageSize1g - 1))
    else
      let pde := s.tables (pdpte &&& entryAddrMask4k) (pdIndex virtAddr)
      if (pde &&& pagePresent) = 0 then none
      else if pde &&& pagePs ≠ 0 then
        some (pde &&& entryAddrMask2m ||| virtAddr &&& (pageSize2m - 1))
      else
        let pte := s.tables (pde &&& entryAddrMask4k) (ptIndex virtAddr)
        if (pte &&& pagePresent) = 0 then none
        else some (pte &&& entryAddrMask4k ||| virtAddr &&& (pageSize4k - 1))

def mapPage2m (s : Paging) (rootPml4Phys virtAddr physAddr flags : Nat) : Except Panic Paging := do
  if (virtAddr ||| physAddr) &&& (pageSize2m - 1) ≠ 0 then
    panic "Paging init failed: 2 MiB mapping not aligned"
  let (pdpt, s) ← getOrCreateTable s rootPml4Phys (pml4Index virtAddr) false
  let (pd, s) ← getOrCreateTable s pdpt (pdptIndex virtAddr) false
  return s.setEntry pd (pdIndex virtAddr) (physAddr &&& entryAddrMask2m ||| flags ||| pagePresent ||| pagePs)

def mapPage4k (s : Paging) (rootPml4Phys virtAddr physAddr flags : Nat) : Except Panic Paging := do
  if (virtAddr ||| physAddr) &&& (pageSize4k - 1) ≠ 0 then
    panic "Paging init failed: 4 KiB mapping not aligned"
  let (pdpt, s) ← getOrCreateTable s rootPml4Phys (pml4Index virtAddr) false
  let (pd, s) ← getOrCreateTable s pdpt (pdptIndex virtAddr) false
  let pdEntry := s.tables pd (pdIndex virtAddr)
  if pdEntry &&& pagePresent ≠ 0 ∧ pdEntry &&& pagePs ≠ 0 then
    panic "Paging init failed: 4 KiB mapping conflicts with 2 MiB mapping"
  let (pt, s) ← getOrCreateTable s pd (pdIndex virtAddr) false
  return s.setEntry pt (ptIndex virtAddr) (physAddr &&& entryAddrMask4k ||| flags ||| pagePresent)

/-- The answer says whether a new page was mapped. -/
def ensurePageMapping (s : Paging) (rootPml4Phys virtAddr physAddr flags : Nat) : Except Panic (Bool × Paging) :=
  match translateWithCr3 s rootPml4Phys virtAddr with
  | some mappedPhys =>
    if alignDown mappedPhys pageSize4k ≠ alignDown physAddr pageSize4k then
      panic "Paging init failed: virtual address already mapped to different physical page"
    else .ok (false, s)
  | none => do
    let s ← mapPage4k s rootPml4Phys virtAddr physAddr flags
    return (true, s)

/-- The values of `for (x = first; x < limit; x += stride)`. -/
def strides (first limit stride : Nat) : List Nat :=
  (List.range ((limit - first + (stride - 1)) / stride)).map fun k => first + k * stride

def mapKernelRangeFromOldCr3 (boot : Boot) (s : Paging) (newPml4Phys oldCr3Phys : Nat) :
    Except Panic (Nat × Paging) := do
  let kernelVirtStart := boot.kernelVirtualStart.toNat
  let kernelVirtEnd := boot.kernelVirtualEnd.toNat
  if kernelVirtEnd ≤ kernelVirtStart then
    panic "Paging init failed: invalid kernel mapping bounds"
  let virtSize := kernelVirtEnd - kernelVirtStart
  let pageCount := alignUp virtSize pageSize4k / pageSize4k
  let s ← (List.range pageCount).foldlM (fun s page =>
    let virt := (kernelVirtStart + page * pageSize4k) % 2 ^ 64
    match translateWithCr3 s oldCr3Phys virt with
    | none => panic "Paging init failed: old CR3 missing kernel mapping"
    | some phys => mapPage4k s newPml4Phys virt (alignDown phys pageSize4k) (pageWritable ||| pageGlobal)) s
  return (pageCount, s)

def mapHhdmRange (boot : Boot) (s : Paging) (newPml4Phys hhdmSpanBytes : Nat) : Except Panic Paging := do
  let offset := boot.hhdmOffset.toNat
  let use2m := (offset &&& (pageSize2m - 1)) == 0
  let twoMibLimit := if use2m then alignDown hhdmSpanBytes pageSize2m else 0
  let s ← (strides 0 twoMibLimit pageSize2m).foldlM (fun s phys => do
    let virt := (offset + phys) % 2 ^ 64
    if virt < offset then panic "Paging init failed: HHDM virtual overflow"
    let s ← mapPage2m s newPml4Phys virt phys (pageWritable ||| pageGlobal)
    return { s with info := { s.info with mappedHhdm2mPages := wordSucc s.info.mappedHhdm2mPages } }) s
  (strides twoMibLimit hhdmSpanBytes pageSize4k).foldlM (fun s phys => do
    let virt := (offset + phys) % 2 ^ 64
    if virt < offset then panic "Paging init failed: HHDM virtual overflow"
    let s ← mapPage4k s newPml4Phys virt phys (pageWritable ||| pageGlobal)
    return { s with info := { s.info with mappedHhdm4kPages := wordSucc s.info.mappedHhdm4kPages } }) s

def mapRangeFromOldCr3 (s : Paging) (newPml4Phys oldCr3Phys virtStart virtEnd : Nat) : Except Panic (Nat × Paging) :=
  let pageStart := alignDown virtStart pageSize4k
  let pageEnd := alignUp virtEnd pageSize4k
  (strides pageStart pageEnd pageSize4k).foldlM (fun (mapped, s) virt =>
    match translateWithCr3 s oldCr3Phys virt with
    | none => panic "Paging init failed: old CR3 translation missing for required range"
    | some phys => do
      let (fresh, s) ← ensurePageMapping s newPml4Phys virt (alignDown phys pageSize4k)
        (pageWritable ||| pageGlobal)
      return (if fresh then mapped + 1 else mapped, s)) (0, s)

def reclaimBootloaderReclaimable (memoryMap : List MemoryMapEntry) (pmm : Pmm)
    (skipPhysStart skipPhysEnd : Nat) : Nat × Pmm :=
  memoryMap.foldl (fun (reclaimed, pmm) entry =>
    if entry.type ≠ .bootloaderReclaimable then (reclaimed, pmm)
    else
      let first := alignUp entry.base.toNat pageSize4k
      let last := alignDown entry.rawEnd pageSize4k
      (strides first last pageSize4k).foldl (fun (reclaimed, pmm) phys =>
        if phys ≥ skipPhysStart ∧ phys < skipPhysEnd then (reclaimed, pmm)
        else (reclaimed + 1, pmmFreePagePhys pmm phys)) (reclaimed, pmm)) (0, pmm)

/-- The window of physical addresses around the stack that reclaim leaves alone. -/
def reclaimSkip (stackPhys : Option Nat) : Nat × Nat :=
  match stackPhys with
  | none => (0, 0)
  | some phys =>
    let skipStart := if phys > stackProtectWindowBytes
      then alignDown (phys - stackProtectWindowBytes) pageSize4k else 0
    let skipEnd := alignUp ((phys + stackProtectWindowBytes) % 2 ^ 64) pageSize4k
    (skipStart, if skipEnd < skipStart then 2 ^ 64 - 1 else skipEnd)

/-- Step 4 of `paging_init`: carry the stack and the framebuffer over. -/
def mapPassthrough (boot : Boot) (s : Paging) (newPml4Phys oldCr3Phys : Nat) : Except Panic Paging := do
  let rsp := boot.rsp.toNat
  let stackWindowStart := if rsp > stackProtectWindowBytes then rsp - stackProtectWindowBytes else 0
  let stackSum := (rsp + stackProtectWindowBytes) % 2 ^ 64
  let stackWindowEnd := if stackSum < rsp then 2 ^ 64 - 1 else stackSum
  let (stackPages, s) ← mapRangeFromOldCr3 s newPml4Phys oldCr3Phys stackWindowStart stackWindowEnd
  let s := { s with info := { s.info with
    mappedPassthroughPages := s.info.mappedPassthroughPages + stackPages } }
  let fb := boot.framebuffer
  if fb.address.toNat ≠ 0 ∧ fb.pitch.toNat ≠ 0 ∧ fb.height.toNat ≠ 0 then
    if fb.pitch.toNat > (2 ^ 64 - 1) / fb.height.toNat then
      panic "Paging init failed: framebuffer size overflow"
    let fbBase := fb.address.toNat
    let fbSum := (fbBase + fb.pitch.toNat * fb.height.toNat) % 2 ^ 64
    let fbEnd := if fbSum < fbBase then 2 ^ 64 - 1 else fbSum
    let (fbPages, s) ← mapRangeFromOldCr3 s newPml4Phys oldCr3Phys fbBase fbEnd
    return { s with info := { s.info with
      mappedPassthroughPages := s.info.mappedPassthroughPages + fbPages } }
  else return s

def pagingInit (boot : Boot) (s : Paging) : Except Panic Paging := do
  if boot.memoryMap = [] then panic "Paging init failed: invalid memory map"
  if s.initialized then return s
  if !s.pmm.initialized then panic "Paging init failed: PMM is not ready"
  let highest := s.pmm.info.highestPhysicalAddress
  if highest = 0 ∨ highest = 2 ^ 64 - 1 then panic "Paging init failed: invalid PMM info"
  let hhdmSpanBytes := alignUp highest pageSize4k
  let oldCr3Phys := s.cr3 &&& entryAddrMask4k
  if translateWithCr3 s oldCr3Phys boot.kernelVirtualStart.toNat = none then
    panic "Paging init failed: unable to translate kernel start from old CR3"
  let (newPml4Phys, s) ← allocTablePage s
  let s := { s with info := { s.info with rootPml4Phys := newPml4Phys } }
  let (kernelPages, s) ← mapKernelRangeFromOldCr3 boot s newPml4Phys oldCr3Phys
  let s := { s with info := { s.info with mappedKernelPages := kernelPages } }
  let s ← mapHhdmRange boot s newPml4Phys hhdmSpanBytes
  let s ← mapPassthrough boot s newPml4Phys oldCr3Phys
  let (skipStart, skipEnd) := reclaimSkip (translateWithCr3 s oldCr3Phys boot.rsp.toNat)
  let s := { s with cr3 := newPml4Phys }
  let (reclaimed, pmm) := reclaimBootloaderReclaimable boot.memoryMap s.pmm skipStart skipEnd
  return { s with
    pmm := pmm
    info := { s.info with reclaimedBootloaderPages := reclaimed, initialized := true }
    initialized := true }

def pagingMapPageLocked (s : Paging) (rootPml4Phys virtAddr physAddr flags : Nat) : Except Panic (Bool × Paging) := do
  if (virtAddr ||| physAddr) &&& (pageSize4k - 1) ≠ 0 then return (false, s)
  if flags &&& pagingFlagGlobal ≠ 0 ∧ flags &&& pagingFlagUser ≠ 0 then return (false, s)
  if (translateWithCr3 s rootPml4Phys virtAddr).isSome then return (false, s)
  let user := (flags &&& pagingFlagUser) != 0
  match ← walkToPte s rootPml4Phys virtAddr true user with
  | (none, s) => return (false, s)
  | (some pte, s) =>
    let hwFlags := pagingFlagsToHw s.nxEnabled flags ||| pagePresent
    return (true, s.setEntry pte.table pte.index (physAddr &&& entryAddrMask4k ||| hwFlags))

def isTableEmpty (s : Paging) (tablePhys : Nat) : Bool :=
  (List.finRange 512).all fun i => s.tables tablePhys i == 0

/-- Free one emptied table page and clear the entry that led to it. -/
def Paging.dropTable (s : Paging) (tablePhys parent : Nat) (index : Fin 512) : Paging :=
  ({ s with
    pmm := pmmFreePagePhys s.pmm tablePhys
    info := { s.info with tablePagesAllocated := wordPred s.info.tablePagesAllocated } } : Paging).setEntry
      parent index 0

def freeEmptyTables (s : Paging) (rootPml4Phys virtAddr : Nat) : Paging :=
  let pml4 := rootPml4Phys &&& entryAddrMask4k
  let l4 := pml4Index virtAddr
  let pml4e := s.tables pml4 l4
  if (pml4e &&& pagePresent) = 0 ∨ pml4e &&& pagePs ≠ 0 then s
  else
    let pdptPhys := pml4e &&& entryAddrMask4k
    let l3 := pdptIndex virtAddr
    let pdpte := s.tables pdptPhys l3
    if (pdpte &&& pagePresent) = 0 ∨ pdpte &&& pagePs ≠ 0 then s
    else
      let pdPhys := pdpte &&& entryAddrMask4k
      let l2 := pdIndex virtAddr
      let pde := s.tables pdPhys l2
      if (pde &&& pagePresent) = 0 ∨ pde &&& pagePs ≠ 0 then s
      else
        let ptPhys := pde &&& entryAddrMask4k
        if isTableEmpty s ptPhys then
          let s := s.dropTable ptPhys pdPhys l2
          if isTableEmpty s pdPhys then
            let s := s.dropTable pdPhys pdptPhys l3
            if isTableEmpty s pdptPhys then s.dropTable pdptPhys pml4 l4 else s
          else s
        else s

/-- `paging_unmap_page_locked`; the answer is the frame the page was mapped to,
and `none` is `false`. -/
def pagingUnmapPageLocked (s : Paging) (rootPml4Phys virtAddr : Nat) : Except Panic (Option Nat × Paging) := do
  match ← walkToPte s rootPml4Phys virtAddr false false with
  | (none, s) => return (none, s)
  | (some pte, s) =>
    let entry := s.tables pte.table pte.index
    if (entry &&& pagePresent) = 0 then return (none, s)
    return (some (entry &&& entryAddrMask4k),
      freeEmptyTables (s.setEntry pte.table pte.index 0) rootPml4Phys virtAddr)

def pagingProtectPageLocked (s : Paging) (rootPml4Phys virtAddr flags : Nat) : Except Panic (Bool × Paging) := do
  match ← walkToPte s rootPml4Phys virtAddr false false with
  | (none, s) => return (false, s)
  | (some pte, s) =>
    let entry := s.tables pte.table pte.index
    if (entry &&& pagePresent) = 0 then return (false, s)
    let physAddr := entry &&& entryAddrMask4k
    let hwFlags := pagingFlagsToHw s.nxEnabled flags ||| pagePresent
    return (true, s.setEntry pte.table pte.index (physAddr ||| hwFlags))

/-- The loop of `paging_map_range`, which stops at the first page that is refused. -/
def mapRangePages (rootPml4Phys virtAddr physAddr flags : Nat) : List Nat → Paging → Except Panic (Bool × Paging)
  | [], s => .ok (true, s)
  | offset :: rest, s => do
    let (ok, s) ← pagingMapPageLocked s rootPml4Phys ((virtAddr + offset) % 2 ^ 64) ((physAddr + offset) % 2 ^ 64) flags
    if ok then mapRangePages rootPml4Phys virtAddr physAddr flags rest s else return (false, s)

/-- The loop of `paging_protect_range`, which goes on after a page that is refused. -/
def protectRangePages (rootPml4Phys virtAddr flags : Nat) : List Nat → Bool → Paging → Except Panic (Bool × Paging)
  | [], ok, s => .ok (ok, s)
  | offset :: rest, ok, s => do
    let (done, s) ← pagingProtectPageLocked s rootPml4Phys ((virtAddr + offset) % 2 ^ 64) flags
    protectRangePages rootPml4Phys virtAddr flags rest (if done then ok else false) s

abbrev pagingTranslate := translateWithCr3
abbrev pagingMapPage := pagingMapPageLocked
abbrev pagingUnmapPage := pagingUnmapPageLocked
abbrev pagingProtectPage := pagingProtectPageLocked

def pagingMapRange (s : Paging) (rootPml4Phys virtAddr physAddr size flags : Nat) : Except Panic (Bool × Paging) :=
  if size = 0 then .ok (false, s)
  else if virtAddr > 2 ^ 64 - 1 - size ∨ physAddr > 2 ^ 64 - 1 - size then .ok (false, s)
  else
    let aligned := alignUp size pageSize4k
    if aligned < size then .ok (false, s)
    else mapRangePages rootPml4Phys virtAddr physAddr flags (strides 0 aligned pageSize4k) s

def pagingProtectRange (s : Paging) (rootPml4Phys virtAddr size flags : Nat) : Except Panic (Bool × Paging) :=
  if size = 0 then .ok (false, s)
  else if virtAddr > 2 ^ 64 - 1 - size then .ok (false, s)
  else
    let aligned := alignUp size pageSize4k
    if aligned < size then .ok (false, s)
    else protectRangePages rootPml4Phys virtAddr flags (strides 0 aligned pageSize4k) true s

end Velox
