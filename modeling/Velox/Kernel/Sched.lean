import Velox.Mm.KmallocSafety

/-! The scheduler of `kernel/sched.c`: a run queue for each processor, linked through the
tasks, and the tick that takes the next task from it. -/

namespace Velox

def maxCpus : Nat := 256
def schedStackSize : Nat := 16 * 1024
def schedLapicFallbackCount : Nat := 1000000
def schedTickVector : Nat := 0x20
def x86GdtCodeSegment : Nat := 0x08

/-- `sizeof(sched_task_t)` and `sizeof(interrupt_frame)`. -/
def sizeofSchedTask : Nat := 40
def sizeofInterruptFrame : Nat := 20 * 8

structure InterruptFrame where
  r15 : Nat
  r14 : Nat
  r13 : Nat
  r12 : Nat
  r11 : Nat
  r10 : Nat
  r9 : Nat
  r8 : Nat
  rbp : Nat
  rdi : Nat
  rsi : Nat
  rdx : Nat
  rcx : Nat
  rbx : Nat
  rax : Nat
  vector : Nat
  errorCode : Nat
  rip : Nat
  cs : Nat
  rflags : Nat

/-- A frame after `memset(frame, 0, sizeof(*frame))`. -/
def InterruptFrame.zeros : InterruptFrame := ⟨0, 0, 0, 0, 0, 0, 0, 0, 0, 0, 0, 0, 0, 0, 0, 0, 0, 0, 0, 0⟩

inductive TaskState where
  | runnable
  | zombie
deriving DecidableEq

/-- `NULL`, the task in `g_sched_cpus[cpu].bootstrap`, or one from `kmalloc`. -/
inductive TaskPtr where
  | null
  | bootstrap (cpu : Nat)
  | heap (address : Nat)
deriving DecidableEq

structure SchedTask where
  frame : Nat
  stackBase : Nat
  stackSize : Nat
  state : TaskState
  next : TaskPtr

structure SchedCpu where
  current : TaskPtr
  runqHead : TaskPtr
  runqTail : TaskPtr
  ticks : Nat

/-- `g_sched_cpus` with the tasks, the frames that the stacks hold, and `g_sched_ready`. -/
structure Sched where
  cpus : Nat → SchedCpu
  task : TaskPtr → SchedTask
  frames : Nat → InterruptFrame
  lapicInitCount : Nat
  ready : Bool

inductive SchedFault where
  /-- A field of a task was used through `NULL`. -/
  | nullTask
  | panic (reason : Panic)

abbrev SchedM := Except (Lib.Halt SchedFault)

section Queue

variable (s : Sched) (cpu : Nat)

def Sched.setCpu (scpu : SchedCpu) : Sched := { s with cpus := Function.update s.cpus cpu scpu }

def Sched.setTask (ptr : TaskPtr) (task : SchedTask) : SchedM Sched :=
  if ptr = .null then .error (.fault .nullTask) else .ok { s with task := Function.update s.task ptr task }

def runqPush (task : TaskPtr) : SchedM Sched := do
  let s ← s.setTask task { s.task task with next := .null }
  let scpu := s.cpus cpu
  if scpu.runqHead = .null then return s.setCpu cpu { scpu with runqHead := task, runqTail := task }
  let s ← s.setTask scpu.runqTail { s.task scpu.runqTail with next := task }
  return s.setCpu cpu { scpu with runqTail := task }

def runqPop : SchedM (TaskPtr × Sched) := do
  let scpu := s.cpus cpu
  let task := scpu.runqHead
  if task = .null then return (.null, s)
  let scpu := { scpu with runqHead := (s.task task).next }
  let scpu := if scpu.runqHead = .null then { scpu with runqTail := .null } else scpu
  let s ← (s.setCpu cpu scpu).setTask task { s.task task with next := .null }
  return (task, s)

end Queue

/-- `sched_init_cpu`, where `memset` clears the bootstrap task with the rest. -/
def schedInitCpu (s : Sched) (cpu : Nat) : Sched :=
  { s with
    cpus := Function.update s.cpus cpu ⟨.bootstrap cpu, .null, .null, 0⟩
    task := Function.update s.task (.bootstrap cpu) ⟨0, 0, 0, .runnable, .null⟩ }

/-- `sched_init` on `cpuCount` processors. The timer is calibrated to `calibrated`, or not
at all. -/
def schedInit (s : Sched) (cpuCount : Nat) (calibrated : Option Nat) : Sched :=
  if s.ready then s
  else
    let s := (List.range (if cpuCount = 0 then 1 else cpuCount)).foldl schedInitCpu s
    { s with lapicInitCount := calibrated.getD schedLapicFallbackCount, ready := true }

def schedOnTick (s : Sched) (cpu frame : Nat) : SchedM (Nat × Sched) :=
  if maxCpus ≤ cpu then .ok (frame, s)
  else do
    let scpu := s.cpus cpu
    let scpu := { scpu with ticks := (scpu.ticks + 1) % 2 ^ 64 }
    let scpu := if scpu.current = .null then { scpu with current := .bootstrap cpu } else scpu
    let s ← (s.setCpu cpu scpu).setTask scpu.current { s.task scpu.current with frame := frame }
    if (s.cpus cpu).runqHead = .null then return (frame, s)
    let (next, s) ← runqPop s cpu
    if next = .null ∨ next = scpu.current ∨ (s.task next).frame = 0 then return (frame, s)
    let s ← if (s.task scpu.current).state = .runnable then runqPush s cpu scpu.current else pure s
    let s := s.setCpu cpu { s.cpus cpu with current := next }
    return ((s.task next).frame, s)

/-- The processors as `smp_init` leaves them in `g_cpus`, and where the trampoline of new
tasks is. -/
structure SchedEnv where
  boot : Boot
  cpuCount : Nat
  apicId : Nat → Nat
  trampoline : Nat

/-- The `cpu_id` of what `cpu_self` returns on the processor with an APIC id. -/
def cpuSelf (env : SchedEnv) (apic : Nat) : Nat :=
  ((List.range env.cpuCount).find? fun cpu => env.apicId cpu = apic).getD 0

/-- The scheduler with the memory it takes tasks and stacks from, the tasks that calls of
`sched_spawn` have made, and those that they have not put on a queue yet. -/
structure SchedSystem where
  sched : Sched
  memory : KmallocClient
  tasks : List Nat
  prepared : List Nat

/-- A call of the allocators, whose panics are panics here. -/
def allocate (env : SchedEnv) (memory : KmallocClient) (call : KmallocCall) : SchedM (Nat × KmallocClient) :=
  match kmallocStep env.boot memory call with
  | .ok answer => .ok answer
  | .error (.fault reason) => .error (.fault (.panic reason))
  | .error .diverged => .error .diverged
  | .error .misuse => .error .misuse

/-- The frame that a new task starts from, at the top of its stack. -/
def spawnFrame (stack : Nat) : Nat :=
  let top := (stack + schedStackSize) % 2 ^ 64
  (top + (2 ^ 64 - sizeofInterruptFrame)) % 2 ^ 64

/-- `sched_spawn` up to where the task is filled in: its address, or zero where the call
returns -1. -/
def schedPrepare (env : SchedEnv) (s : SchedSystem) (entry arg : Nat) : SchedM (Nat × SchedSystem) :=
  if entry = 0 then .ok (0, s)
  else do
    let (task, memory) ← allocate env s.memory (.kmalloc sizeofSchedTask)
    if task = 0 then return (0, { s with memory := memory })
    let (stack, memory) ← allocate env memory (.vmalloc schedStackSize vmallocDefaultFlags)
    if stack = 0 then
      let (_, memory) ← allocate env memory (.kfree task)
      return (0, { s with memory := memory })
    let frame := spawnFrame stack
    let contents := { InterruptFrame.zeros with
      rip := env.trampoline
      cs := x86GdtCodeSegment
      rflags := 0x202
      rdi := entry
      rsi := arg }
    return (task, {
      sched := { s.sched with
        frames := Function.update s.sched.frames frame contents
        task := Function.update s.sched.task (.heap task) ⟨frame, stack, schedStackSize, .runnable, .null⟩ }
      memory := memory
      tasks := task :: s.tasks
      prepared := task :: s.prepared })

/-- The rest of `sched_spawn`: 0, or 1 where the call returns -1. -/
def schedEnqueue (env : SchedEnv) (s : SchedSystem) (cpu task : Nat) : SchedM (Nat × SchedSystem) :=
  if maxCpus ≤ cpu then do
    let (_, memory) ← allocate env s.memory (.vfree (s.sched.task (.heap task)).stackBase schedStackSize)
    let (_, memory) ← allocate env memory (.kfree task)
    return (1, { s with memory := memory, tasks := s.tasks.erase task, prepared := s.prepared.erase task })
  else do
    let sched ← runqPush s.sched cpu (.heap task)
    return (0, { s with sched := sched, prepared := s.prepared.erase task })

/-- What happens, on the processor with an APIC id where it matters. A call of
`sched_spawn` is a `prepare` and an `enqueue`; ticks and other calls may come in between.
The tick is given a frame that `isr_handler` has read. -/
inductive SchedOp where
  | prepare (entry arg : Nat)
  | enqueue (apic task : Nat)
  | tick (apic frame : Nat)
  | memory (call : KmallocCall)

/-- A step of the system. Other users of the heap do not free tasks. -/
def schedStep (env : SchedEnv) (s : SchedSystem) : SchedOp → SchedM (Nat × SchedSystem)
  | .prepare entry arg => schedPrepare env s entry arg
  | .enqueue apic task =>
    if task ∈ s.prepared then schedEnqueue env s (cpuSelf env apic) task else .error .misuse
  | .tick apic frame =>
    if frame = 0 then .error .misuse
    else do
      let (next, sched) ← schedOnTick s.sched (cpuSelf env apic) frame
      return (next, { s with sched := sched })
  | .memory (.kfree ptr) =>
    if ptr ∈ s.tasks then .error .misuse
    else do
      let (answer, memory) ← allocate env s.memory (.kfree ptr)
      return (answer, { s with memory := memory })
  | .memory call => do
    let (answer, memory) ← allocate env s.memory call
    return (answer, { s with memory := memory })

end Velox
