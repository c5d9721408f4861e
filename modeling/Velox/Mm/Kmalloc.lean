import Velox.Lib.Chain
import Velox.Lib.Runs
import Velox.Mm.Vmalloc

/-! The kernel heap of `mm/kmalloc.c`: pools from `vmalloc`, cut into blocks that
are chained by address, with the free ones in a doubly linked list. -/

namespace Velox

def kmallocPoolSize : Nat := 4 * 1024 * 1024
def kmallocAlign : Nat := 16
/-- `sizeof(kmalloc_block_t)`. -/
def kmallocHeader : Nat := 48
def kmallocMinSplit : Nat := kmallocHeader + kmallocAlign
def kmallocMagicFree : Nat := 0xFEEBEEFD
def kmallocMagicUsed : Nat := 0xDEADBEEF
def vmallocDefaultFlags : Nat := pagingFlagWritable ||| pagingFlagGlobal

structure KmallocBlock where
  magic : Nat
  free : Nat
  size : Nat
  nextPhys : Nat
  nextFree : Nat
  prevFree : Nat
deriving DecidableEq, Repr

/-- `block` reads the header at an address. -/
structure Kmalloc where
  vm : Vmalloc
  block : Nat → KmallocBlock
  freeList : Nat
  initialized : Bool

def Kmalloc.modify (s : Kmalloc) (addr : Nat) (change : KmallocBlock → KmallocBlock) : Kmalloc :=
  { s with block := Function.update s.block addr (change (s.block addr)) }

def alignUpSz (v a : Nat) : Nat := alignUp v a

def freeListInsert (s : Kmalloc) (b : Nat) : Kmalloc :=
  let s := s.modify b fun block =>
    { block with free := 1, magic := kmallocMagicFree, nextFree := s.freeList, prevFree := 0 }
  let s := if s.freeList ≠ 0 then s.modify s.freeList fun block => { block with prevFree := b } else s
  { s with freeList := b }

def freeListRemove (s : Kmalloc) (b : Nat) : Kmalloc :=
  let s := if (s.block b).prevFree ≠ 0 then
      s.modify (s.block b).prevFree fun block => { block with nextFree := (s.block b).nextFree }
    else { s with freeList := (s.block b).nextFree }
  let s := if (s.block b).nextFree ≠ 0 then
      s.modify (s.block b).nextFree fun block => { block with prevFree := (s.block b).prevFree }
    else s
  s.modify b fun block => { block with nextFree := 0, prevFree := 0 }

def expandPool (boot : Boot) (s : Kmalloc) : Except (Lib.Halt Panic) (Bool × Kmalloc) := do
  let (pool, vm) ← Lib.attempt (vmalloc boot s.vm kmallocPoolSize vmallocDefaultFlags)
  let s := { s with vm := vm }
  if pool = 0 then return (false, s)
  else
    let s := s.modify pool fun block => { block with size := kmallocPoolSize - kmallocHeader, nextPhys := 0 }
    return (true, freeListInsert s pool)

def kmallocInitLocked (boot : Boot) (s : Kmalloc) : Except (Lib.Halt Panic) (Bool × Kmalloc) :=
  if s.initialized then .ok (true, s)
  else do
    let (ok, s) ← expandPool boot s
    if ok then return (true, { s with initialized := true }) else return (false, s)

/-- No walk over distinct 64-bit addresses takes more passes. -/
def walkFuel : Nat := 2 ^ 64

/-- One pass of the search of `kmalloc` along the free list; `0` is `NULL`. -/
def fitPass (s : Kmalloc) (size b : Nat) : Nat ⊕ Nat :=
  if b = 0 then .inr 0
  else if (s.block b).size < size then .inl (s.block b).nextFree
  else .inr b

/-- Carve a new block out of the tail of `b` if enough is left over. -/
def splitBlock (s : Kmalloc) (b size : Nat) : Kmalloc :=
  let leftover := (s.block b).size - size
  if leftover ≥ kmallocMinSplit then
    let split := b + kmallocHeader + size
    let nextPhys := (s.block b).nextPhys
    let s := s.modify split fun block => { block with size := leftover - kmallocHeader, nextPhys := nextPhys }
    let s := s.modify b fun block => { block with nextPhys := split, size := size }
    freeListInsert s split
  else s

/-- Take `b` off the free list and hand out its payload. -/
def handOut (s : Kmalloc) (b : Nat) : Nat × Kmalloc :=
  let s := freeListRemove s b
  (b + kmallocHeader, s.modify b fun block => { block with free := 0, magic := kmallocMagicUsed })

/-- One attempt of `kmalloc`; the answer `0` is `NULL`. -/
def kmallocAttempt (s : Kmalloc) (size : Nat) : Except (Lib.Halt Panic) (Nat × Kmalloc) :=
  match Lib.loop (fitPass s size) walkFuel s.freeList with
  | none => .error .diverged
  | some b => if b = 0 then .ok (0, s) else .ok (handOut (splitBlock s b size) b)

def kmalloc (boot : Boot) (s : Kmalloc) (size : Nat) : Except (Lib.Halt Panic) (Nat × Kmalloc) :=
  if size = 0 then .ok (0, s)
  else do
    let (ok, s) ← kmallocInitLocked boot s
    if !ok then return (0, s)
    else
      let size := alignUpSz size kmallocAlign
      let (found, s) ← kmallocAttempt s size
      if found ≠ 0 then return (found, s)
      else
        let (ok, s) ← expandPool boot s
        if !ok then return (0, s) else kmallocAttempt s size

/-- One pass of the absorbing loop of `kfree`. -/
def absorbPass (block : Nat) (s : Kmalloc) : Kmalloc ⊕ Kmalloc :=
  let next := (s.block block).nextPhys
  if next ≠ 0 ∧ (s.block next).free ≠ 0 then
    let s := freeListRemove s next
    let s := s.modify block fun b =>
      { b with size := (b.size + (kmallocHeader + (s.block next).size)) % 2 ^ 64, nextPhys := (s.block next).nextPhys }
    .inl (s.modify next fun b => { b with magic := 0 })
  else .inr s

def kfree (s : Kmalloc) (ptr : Nat) : Except (Lib.Halt Panic) Kmalloc :=
  if ptr = 0 then .ok s
  else
    let block := ptr - kmallocHeader
    if (s.block block).magic = kmallocMagicFree then .ok s
    else if (s.block block).magic ≠ kmallocMagicUsed then .ok s
    else if (s.block block).free ≠ 0 then .ok s
    else
      match Lib.loop (absorbPass block) walkFuel (freeListInsert s block) with
      | none => .error .diverged
      | some s => .ok s

end Velox
