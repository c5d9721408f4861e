import Velox.Kernel.Locks
import Velox.Lib.LockOrder
import Mathlib.Order.Preorder.Finite

namespace Velox.Locks

open Lib

/-- The heap takes ranges, ranges are mapped, and page tables take frames. -/
def rank : Lock → Nat
  | .kmalloc => 0
  | .vmalloc => 1
  | .paging => 2
  | .pmm => 3
  | .printlock | .sched | .kbd | .nvmeAdmin | .nvmeIo => 0

theorem EntryPoint.climbs (entry : EntryPoint) : entry.code.climbs rank ∅ = true := by
  cases entry <;> decide +kernel

/-- A processor that waits for a lock on some path of an entry point, with the locks that it holds
there. -/
structure Waiting where
  entry : EntryPoint
  lock : Lock
  held : Finset Lock
  walk : Walk entry.code ∅ (.spin lock) held

theorem Waiting.below (cpu : Waiting) : ∀ other ∈ cpu.held, rank other < rank cpu.lock :=
  cpu.walk.climbed cpu.entry.climbs subset_rfl

end Velox.Locks
