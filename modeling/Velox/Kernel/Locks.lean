import Velox.Lib.LockPaths
import Mathlib.Logic.Relation

/-! Who gives back the kernel's spinlocks. Each function is written as its paths through the
locks, in the order of the source; statements that touch no lock and do not leave the function
are left out, and so are calls of functions that take no lock and do not panic. -/

namespace Velox.Locks

open Lib Lib.LockCode

inductive Lock where
  | printlock
  | pmm
  | paging
  | vmalloc
  | kmalloc
  | sched
  | kbd
  | nvmeAdmin
  | nvmeIo
  deriving DecidableEq, Repr

inductive Switch where
  | printEnabled
  deriving DecidableEq, Repr

abbrev Code := LockCode Lock Switch

abbrev State := LockState Lock Switch

def ret : Code := leave .ret

def brk : Code := leave .brk

def cont : Code := leave .cont

def panic : Code := leave .panic

/-- `if (..) { spin_unlock_irqrestore(&l, flags); return ..; }` -/
def bail (l : Lock) : Code := may (block [unlockIrqrestore l, ret])

/-! ### include/printk.c -/

/-- The return for a disabled console is between the two lock calls. -/
def safePrintk : Code :=
  block [lockIrqsave .printlock, ifOn .printEnabled skip ret, unlockIrqrestore .printlock]

def printkInit (s : State) : State := { s with isOn := Function.update s.isOn .printEnabled true }

def disablePrint (s : State) : State := { s with isOn := Function.update s.isOn .printEnabled false }

def handoffFramebuffer (s : State) : State := disablePrint s

/-! ### mm/pmm.c -/

def pmmInit : Code :=
  block [may panic, lock .pmm, may panic, may panic, may panic, unlock .pmm]

def pmmTryAllocPagePhys : Code :=
  block [may ret, lockIrqsave .pmm, bail .pmm, loop (may brk), unlockIrqrestore .pmm, ret]

def pmmAllocPagePhys : Code := block [call pmmTryAllocPagePhys, may ret, ret]

def pmmAllocPage : Code := block [call pmmTryAllocPagePhys, may ret, ret]

def pmmFreePagePhys : Code :=
  block [lockIrqsave .pmm, bail .pmm, bail .pmm, bail .pmm, unlockIrqrestore .pmm]

def pmmFreePage : Code := block [may ret, call pmmFreePagePhys]

/-! ### mm/paging.c -/

def allocTablePage : Code := block [call pmmTryAllocPagePhys, may panic, ret]

def getOrCreateTable : Code :=
  block [may (block [may panic, ret]), call allocTablePage, ret]

def walkToPte : Code :=
  block [may ret, may ret, call getOrCreateTable, may ret, may ret, call getOrCreateTable,
    may ret, may ret, call getOrCreateTable, ret]

def mapPage2m : Code := block [may panic, call getOrCreateTable, call getOrCreateTable]

def mapPage4k : Code :=
  block [may panic, call getOrCreateTable, call getOrCreateTable, may panic, call getOrCreateTable]

def ensurePageMapping : Code := block [may (block [may panic, ret]), call mapPage4k, ret]

def mapKernelRangeFromOldCr3 : Code :=
  block [may panic, loop (block [may panic, call mapPage4k]), ret]

def mapHhdmRange : Code :=
  block [loop (block [may panic, call mapPage2m]), loop (block [may panic, call mapPage4k])]

def mapRangeFromOldCr3 : Code := block [loop (block [may panic, call ensurePageMapping]), ret]

def reclaimBootloaderReclaimable : Code :=
  block [may ret, loop (block [may cont, loop (block [may cont, call pmmFreePagePhys])]), ret]

def pagingInit : Code :=
  block [may panic, lock .paging, may (block [unlock .paging, ret]), may panic, may panic, may panic,
    call allocTablePage, call mapKernelRangeFromOldCr3, call mapHhdmRange, call mapRangeFromOldCr3,
    may (block [may panic, call mapRangeFromOldCr3]), call reclaimBootloaderReclaimable,
    unlock .paging]

def pagingSetNxEnabled : Code := block [lockIrqsave .paging, unlockIrqrestore .paging]

def pagingTranslate : Code := block [lockIrqsave .paging, unlockIrqrestore .paging, ret]

def pagingMapPageLocked : Code := block [may ret, may ret, may ret, call walkToPte, may ret, ret]

def pagingMapPage : Code :=
  block [lockIrqsave .paging, call pagingMapPageLocked, unlockIrqrestore .paging, ret]

def pagingMapRange : Code :=
  block [may ret, may ret, may ret, lockIrqsave .paging,
    loop (block [call pagingMapPageLocked, may brk]), unlockIrqrestore .paging, ret]

def freeEmptyTables : Code :=
  block [may ret, may ret, may ret,
    may (block [call pmmFreePagePhys, may (block [call pmmFreePagePhys, may (call pmmFreePagePhys)])])]

def pagingUnmapPageLocked : Code :=
  block [call walkToPte, may ret, may ret, call freeEmptyTables, ret]

def pagingUnmapPage : Code :=
  block [lockIrqsave .paging, call pagingUnmapPageLocked, unlockIrqrestore .paging, ret]

def pagingProtectPageLocked : Code := block [call walkToPte, may ret, may ret, ret]

def pagingProtectPage : Code :=
  block [lockIrqsave .paging, call pagingProtectPageLocked, unlockIrqrestore .paging, ret]

def pagingProtectRange : Code :=
  block [may ret, may ret, may ret, lockIrqsave .paging, loop (call pagingProtectPageLocked),
    unlockIrqrestore .paging, ret]

/-! ### mm/vmalloc.c -/

def vmallocFreeRange : Code := block [may ret, may panic]

def vmallocInitOnceLocked : Code :=
  block [may ret, may ret, may ret, may (may ret), may ret, ret]

def vmallocInit : Code :=
  block [lockIrqsave .vmalloc, call vmallocInitOnceLocked, unlockIrqrestore .vmalloc]

def vmalloc : Code :=
  block [may ret, may ret, lockIrqsave .vmalloc, call vmallocInitOnceLocked, bail .vmalloc,
    -- The first range that is large enough decides the call, whatever comes of it.
    loop (block [may cont, may (block [call vmallocFreeRange, unlockIrqrestore .vmalloc, ret]),
      loop (block [call pmmTryAllocPagePhys, may brk, call pagingMapPage, may (block [call pmmFreePagePhys, brk])]),
      bail .vmalloc,
      loop (block [call pagingUnmapPage, may (call pmmFreePagePhys)]),
      call vmallocFreeRange, unlockIrqrestore .vmalloc, ret]),
    unlockIrqrestore .vmalloc, ret]

def vfree : Code :=
  block [may ret, may ret, may ret, lockIrqsave .vmalloc, bail .vmalloc, bail .vmalloc, bail .vmalloc,
    loop (block [call pagingUnmapPage, may (call pmmFreePagePhys)]),
    call vmallocFreeRange, unlockIrqrestore .vmalloc]

/-! ### mm/kmalloc.c -/

def expandPool : Code := block [call vmalloc, may ret, ret]

def kmallocInitLocked : Code := block [may ret, call expandPool, may ret, ret]

def kmallocInit : Code :=
  block [lockIrqsave .kmalloc, call kmallocInitLocked, unlockIrqrestore .kmalloc]

def kmalloc : Code :=
  block [may ret, lockIrqsave .kmalloc, call kmallocInitLocked, bail .kmalloc,
    loop (block [loop (block [may cont, unlockIrqrestore .kmalloc, ret]), may (block [call expandPool, may brk])]),
    unlockIrqrestore .kmalloc, ret]

def kfree : Code :=
  block [may ret, lockIrqsave .kmalloc, bail .kmalloc, bail .kmalloc, bail .kmalloc, unlockIrqrestore .kmalloc]

/-! ### kernel/sched.c -/

def schedOnTick : Code :=
  block [may ret, lockIrqsave .sched, bail .sched, bail .sched, unlockIrqrestore .sched, ret]

def schedSpawn : Code :=
  block [may ret, call kmalloc, may ret, call vmalloc, may (block [call kfree, ret]),
    may (block [call vfree, call kfree, ret]),
    lockIrqsave .sched, unlockIrqrestore .sched, ret]

/-! ### arch/x86_64/drivers/IO/ps2_keyboard.c -/

def kbdRegisterListener : Code :=
  block [may ret, lockIrqsave .kbd, loop (block [bail .kbd, may brk]), unlockIrqrestore .kbd, ret]

def kbdUnregisterListener : Code :=
  block [may ret, lockIrqsave .kbd, loop (may brk), unlockIrqrestore .kbd]

/-! ### arch/x86_64/drivers/block/nvme.c -/

def nvmeAdminCmd : Code :=
  block [may ret, lockIrqsave .nvmeAdmin, loop (block [may cont, brk]), unlockIrqrestore .nvmeAdmin,
    may (block [call safePrintk, ret]), ret]

def nvmePollCompletions : Code :=
  block [may ret, lockIrqsave .nvmeIo, loop (may brk), unlockIrqrestore .nvmeIo]

def nvmeSubmitIo : Code :=
  block [may ret, lockIrqsave .nvmeIo, bail .nvmeIo, bail .nvmeIo, unlockIrqrestore .nvmeIo, ret]

def nvmeWaitCid : Code :=
  block [loop (call nvmePollCompletions), lockIrqsave .nvmeIo, unlockIrqrestore .nvmeIo, ret]

inductive EntryPoint where
  | pmmInit | pmmTryAllocPagePhys | pmmAllocPagePhys | pmmAllocPage | pmmFreePagePhys | pmmFreePage
  | pagingInit | pagingSetNxEnabled | pagingTranslate | pagingMapPage | pagingMapRange
  | pagingUnmapPage | pagingProtectPage | pagingProtectRange
  | vmallocInit | vmalloc | vfree
  | kmallocInit | kmalloc | kfree
  | schedOnTick | schedSpawn
  | kbdRegisterListener | kbdUnregisterListener
  | nvmeAdminCmd | nvmeSubmitIo | nvmePollCompletions | nvmeWaitCid
  | safePrintk
  deriving DecidableEq, Repr

namespace EntryPoint

def code : EntryPoint → Code
  | pmmInit => Locks.pmmInit
  | pmmTryAllocPagePhys => Locks.pmmTryAllocPagePhys
  | pmmAllocPagePhys => Locks.pmmAllocPagePhys
  | pmmAllocPage => Locks.pmmAllocPage
  | pmmFreePagePhys => Locks.pmmFreePagePhys
  | pmmFreePage => Locks.pmmFreePage
  | pagingInit => Locks.pagingInit
  | pagingSetNxEnabled => Locks.pagingSetNxEnabled
  | pagingTranslate => Locks.pagingTranslate
  | pagingMapPage => Locks.pagingMapPage
  | pagingMapRange => Locks.pagingMapRange
  | pagingUnmapPage => Locks.pagingUnmapPage
  | pagingProtectPage => Locks.pagingProtectPage
  | pagingProtectRange => Locks.pagingProtectRange
  | vmallocInit => Locks.vmallocInit
  | vmalloc => Locks.vmalloc
  | vfree => Locks.vfree
  | kmallocInit => Locks.kmallocInit
  | kmalloc => Locks.kmalloc
  | kfree => Locks.kfree
  | schedOnTick => Locks.schedOnTick
  | schedSpawn => Locks.schedSpawn
  | kbdRegisterListener => Locks.kbdRegisterListener
  | kbdUnregisterListener => Locks.kbdUnregisterListener
  | nvmeAdminCmd => Locks.nvmeAdminCmd
  | nvmeSubmitIo => Locks.nvmeSubmitIo
  | nvmePollCompletions => Locks.nvmePollCompletions
  | nvmeWaitCid => Locks.nvmeWaitCid
  | safePrintk => Locks.safePrintk

/-- The entry point can reach `safe_printk`. -/
def prints (entry : EntryPoint) : Bool := entry.code.reads .printEnabled

theorem balanced_enabled (entry : EntryPoint) : entry.code.balanced (fun _ => true) = true := by
  cases entry <;> decide +kernel

/-- With the console enabled, or without a way to it, every path of every entry point keeps
the discipline. -/
theorem balanced_of_enabled (entry : EntryPoint)
    (enabled : entry.prints = true → isOn .printEnabled = true) :
    entry.code.balanced isOn = true := by
  refine (balanced_congr ?_).trans entry.balanced_enabled
  rintro ⟨⟩ used
  exact enabled used

theorem prints_cases {entry : EntryPoint} (prints : entry.prints = true) :
    entry = .nvmeAdminCmd ∨ entry = .safePrintk := by
  revert prints
  cases entry <;> decide +kernel

end EntryPoint

section Leaks

variable {s t : State}

/-- With the console disabled the lock stays taken and interrupts stay off. -/
theorem safePrintk_leaks (free : s.held .printlock = false) (off : s.isOn .printEnabled = false) :
    Exec safePrintk s (.jump .ret) { s.acquire .printlock with flags := s.irq, irq := false } :=
  .seqNext (.lockIrqsave free) (.seqLeave (.ifOnNo off .leave) nofun)

theorem safePrintk_spins (taken : s.held .printlock = true) :
    Exec safePrintk s (.spin .printlock) { s with irq := false } :=
  .seqLeave (.lockIrqsaveSpin taken) nofun

/-- A completion with a foreign command id is reported through `safe_printk`. -/
theorem nvmeAdminCmd_leaks (idle : s.held .nvmeAdmin = false) (free : s.held .printlock = false)
    (off : s.isOn .printEnabled = false) :
    ∃ t, Exec nvmeAdminCmd s (.jump .ret) t ∧ t.held .printlock = true := by
  let locked : State := { s.acquire .nvmeAdmin with flags := s.irq, irq := false }
  let unlocked : State := { locked.release .nvmeAdmin with irq := s.irq }
  have apart : Lock.printlock ≠ .nvmeAdmin := by decide
  have still : unlocked.held .printlock = false :=
    calc unlocked.held .printlock = locked.held .printlock := LockState.release_other apart
      _ = s.held .printlock := LockState.acquire_other apart
      _ = false := free
  have report := Exec.callReturns (safePrintk_leaks (s := unlocked) still off) rfl
  refine ⟨_, .seqNext (.branchNo .skip) (.seqNext (.lockIrqsave idle) (.seqNext .loopDone
    (.seqNext .unlockIrqrestore (.seqLeave (.branchYes (.seqNext report .leave)) nofun)))), ?_⟩
  simp [LockState.acquire_self]

end Leaks

inductive Act where
  | call (entry : EntryPoint)
  | printkInit
  | disablePrint
  | handoffFramebuffer
  /-- `sti` or `cli` outside the entry points. -/
  | setIrq (on : Bool)

/-- A call that returns, or one of the console's and the processor's switches. -/
inductive Move : Act → State → State → Prop where
  | call {entry : EntryPoint} (run : Exec entry.code s ending t) (returns : ending.returns = true) : Move (.call entry) s t
  | printkInit : Move .printkInit s (printkInit s)
  | disablePrint : Move .disablePrint s (disablePrint s)
  | handoffFramebuffer : Move .handoffFramebuffer s (handoffFramebuffer s)
  | setIrq : Move (.setIrq on) s { s with irq := on }

/-- An entry point that can reach `safe_printk` is called with the console enabled. -/
def Heard (entry : EntryPoint) (s : State) : Prop :=
  entry.prints = true → s.isOn .printEnabled = true

def HeardMove (s t : State) : Prop :=
  ∃ act, (∀ entry, act = .call entry → Heard entry s) ∧ Move act s t

def AllFree (s : State) : Prop := ∀ l, s.held l = false

theorem Heard.givesBack {entry : EntryPoint} (heard : Heard entry s)
    (free : ∀ l ∈ entry.code.takes, s.held l = false) : entry.code.GivesBack s :=
  givesBack_of_balanced (entry.balanced_of_enabled heard) free

theorem HeardMove.allFree (move : HeardMove s t) (free : AllFree s) : AllFree t := by
  obtain ⟨act, heard, moved⟩ := move
  cases moved with
  | call run returns =>
    rcases (heard _ rfl).givesBack (fun l _ => free l) run with panics | ⟨-, same, -⟩
    · rw [panics] at returns
      exact absurd returns Bool.false_ne_true
    · intro l
      rw [same, free l]
  | printkInit | disablePrint | handoffFramebuffer | setIrq => exact free

theorem allFree_of_moves (free : AllFree s) (run : Relation.ReflTransGen HeardMove s t) : AllFree t := by
  induction run with
  | refl => exact free
  | tail _ move ih => exact move.allFree ih

theorem heard_of_givesBack {entry : EntryPoint} (free : ∀ l ∈ entry.code.takes, s.held l = false)
    (gives : entry.code.GivesBack s) : Heard entry s := by
  intro prints
  by_contra disabled
  have off := Bool.eq_false_iff.mpr disabled
  rcases EntryPoint.prints_cases prints with rfl | rfl
  · obtain ⟨t, run, leaked⟩ := nvmeAdminCmd_leaks (free .nvmeAdmin (by decide +kernel))
      (free .printlock (by decide +kernel)) off
    rcases gives run with panics | ⟨-, same, -⟩
    · cases panics
    · rw [same, free .printlock (by decide +kernel)] at leaked
      grind
  · have given := free .printlock (by decide +kernel)
    rcases gives (safePrintk_leaks given off) with panics | ⟨-, same, -⟩
    · cases panics
    · have leaked : s.held .printlock = true :=
        (congrFun same .printlock).symm.trans (LockState.acquire_self (s := s) (l := .printlock))
      grind

/-- An entry point gives back every lock and the interrupt flag exactly when it cannot reach a
disabled console; in a run where no call does, every lock is free between the calls and no
such call spins. -/
theorem locks_given_back_iff (entry : EntryPoint) (s : State) (free : ∀ l ∈ entry.code.takes, s.held l = false) :
    (entry.code.GivesBack s ↔ (entry.prints = true → s.isOn .printEnabled = true)) ∧
    (AllFree s → ∀ t, Relation.ReflTransGen HeardMove s t →
      AllFree t ∧ ∀ later, Heard later t → later.code.GivesBack t ∧
        ∀ l u, ¬ Exec later.code t (.spin l) u) := by
  refine ⟨⟨heard_of_givesBack free, fun heard => Heard.givesBack heard free⟩, ?_⟩
  intro all t run
  have still := allFree_of_moves all run
  refine ⟨still, fun later heard => ?_⟩
  have gives : later.code.GivesBack t := heard.givesBack fun l _ => still l
  exact ⟨gives, fun l u => gives.calm⟩

/-- A processor with interrupts on, every lock free and the console enabled. -/
def running : State := ⟨fun _ => false, true, false, fun _ => true⟩

theorem running_prints : Exec safePrintk running .next
    { (running.acquire .printlock).release .printlock with flags := true, irq := true } :=
  .seqNext (.lockIrqsave rfl) (.seqNext (.ifOnYes rfl .skip) .unlockIrqrestore)

theorem locks_given_back_running :
    EntryPoint.kfree.code.GivesBack (disablePrint running) ∧ ∃ t : State,
      Relation.ReflTransGen HeardMove running t ∧ AllFree t :=
  ⟨(locks_given_back_iff .kfree (disablePrint running) fun _ _ => rfl).1.mpr (by decide +kernel), _,
    .single ⟨.call .safePrintk, fun _ _ _ => rfl, .call running_prints rfl⟩,
    ((locks_given_back_iff .safePrintk running fun _ _ => rfl).2 (fun _ => rfl) _
      (.single ⟨.call .safePrintk, fun _ _ _ => rfl, .call running_prints rfl⟩)).1⟩

/-- Once the framebuffer has been handed over, one message takes the console's lock for good and
leaves interrupts off; the next one spins. -/
theorem console_lock_leaked : running.irq = true ∧ AllFree running ∧ ∃ quiet leaked stuck : State,
    Move .handoffFramebuffer running quiet ∧ Move (.call .safePrintk) quiet leaked ∧
      leaked.held .printlock = true ∧ leaked.irq = false ∧
      Exec EntryPoint.safePrintk.code leaked (.spin .printlock) stuck := by
  have taken : ((handoffFramebuffer running).acquire .printlock).held .printlock = true :=
    LockState.acquire_self
  exact ⟨rfl, fun _ => rfl, _, _, _, .handoffFramebuffer, .call (safePrintk_leaks rfl rfl) rfl, taken, rfl,
    safePrintk_spins taken⟩

end Velox.Locks
