import Velox.Lib.Words

/-! What the bootloader and the linker hand to the kernel, and the two
arithmetic helpers that `pmm.c`, `paging.c` and `vmalloc.c` each define. -/

namespace Velox

/-- A kernel panic halts the machine; only its message is left. -/
structure Panic where
  message : String
deriving DecidableEq, Repr

def panic {α : Type} (message : String) : Except Panic α := .error ⟨message⟩

/-- `(value + align - 1) & ~(align - 1)` in 64-bit arithmetic. -/
def alignUp (value align : Nat) : Nat := (value + align - 1) % 2 ^ 64 &&& (2 ^ 64 - 1 - (align - 1))

/-- `value & ~(align - 1)` in 64-bit arithmetic. -/
def alignDown (value align : Nat) : Nat := value &&& (2 ^ 64 - 1 - (align - 1))

theorem alignUp_page (value : Nat) : alignUp value 4096 = (value + 4095) % 2 ^ 64 / 4096 * 4096 := by
  have block := Lib.and_block ((value + 4095) % 2 ^ 64) (show 12 ≤ 64 by decide)
  simp only [Nat.mod_mod] at block
  exact block

theorem alignDown_page (value : Nat) : alignDown value 4096 = value % 2 ^ 64 / 4096 * 4096 :=
  Lib.and_block value (show 12 ≤ 64 by decide)

inductive MemoryMapType where
  | usable | reserved | acpiReclaimable | acpiNvs | badMemory
  | bootloaderReclaimable | kernelAndModules | framebuffer
deriving DecidableEq, Repr

structure MemoryMapEntry where
  base : UInt64
  length : UInt64
  type : MemoryMapType
deriving DecidableEq, Repr

/-- `base + length`, saturated at `UINT64_MAX` when the 64-bit sum wraps. -/
def MemoryMapEntry.rawEnd (entry : MemoryMapEntry) : Nat :=
  let sum := (entry.base.toNat + entry.length.toNat) % 2 ^ 64
  if sum < entry.base.toNat then 2 ^ 64 - 1 else sum

theorem MemoryMapEntry.rawEnd_lt (entry : MemoryMapEntry) : entry.rawEnd < 2 ^ 64 := by
  simp only [rawEnd]
  split <;> omega

theorem MemoryMapEntry.base_le_rawEnd (entry : MemoryMapEntry) : entry.base.toNat ≤ entry.rawEnd := by
  have bound := entry.base.toNat_lt
  simp only [rawEnd]
  split <;> omega

structure BootFramebuffer where
  address : UInt64
  height : UInt64
  pitch : UInt64
deriving DecidableEq, Repr

/-- The machine as the kernel finds it: Limine's answers, the linker's symbols
and the stack pointer `paging_init` reads. -/
structure Boot where
  memoryMap : List MemoryMapEntry
  hhdmOffset : UInt64
  framebuffer : BootFramebuffer
  kernelVirtualStart : UInt64
  kernelVirtualEnd : UInt64
  kernelPhysicalStart : UInt64
  kernelPhysicalEnd : UInt64
  rsp : UInt64
deriving DecidableEq, Repr

end Velox
