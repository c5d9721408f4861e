import Velox.Kernel.SchedSafety

/-! The handler of `arch/x86_64/isr_handler.c`, with `irq_dispatch`, the local APIC and the
scheduler behind it. -/

namespace Velox

variable {sched : Sched} {next : Nat}

def ipiVectorResched : Nat := 0xF1

/-- What `cpu_t` has of the local APIC and its timer, and how often it was told the end of
an interrupt. -/
structure CpuLapic where
  initialized : Bool
  timerVector : Nat
  timerTicks : Nat
  timerFirstTick : Bool
  eois : Nat

def x86LapicHandleIrq (cpu : CpuLapic) (vector : Nat) : CpuLapic :=
  if cpu.initialized then
    let cpu :=
      if vector = cpu.timerVector ∧ cpu.timerVector ≠ 0 then
        { cpu with timerTicks := (cpu.timerTicks + 1) % 2 ^ 64, timerFirstTick := true }
      else cpu
    { cpu with eois := cpu.eois + 1 }
  else cpu

def exceptionMessages : List String := [
  "Divide by Zero", "Debug", "Non-Maskable Interrupt", "Breakpoint", "Overflow", "Bound Range Exceeded", "Invalid Opcode",
  "Device Not Available", "Double Fault", "Coprocessor Segment Overrun", "Invalid TSS", "Segment Not Present",
  "Stack-Segment Fault", "General Protection Fault", "Page Fault", "Reserved", "x87 FPU Error", "Alignment Check",
  "Machine Check", "SIMD FPU Exception", "Virtualization Exception", "Control Protection Exception", "Reserved", "Reserved",
  "Reserved", "Reserved", "Reserved", "Reserved", "Hypervisor Injection", "VMM Communication", "Security Exception",
  "Reserved"]

inductive IsrFault where
  | exception (message : String)
  /-- A handler that does not return, as that of the halt IPI. -/
  | halted
  | sched (halt : Lib.Halt SchedFault)

/-- The scheduler, the local APICs, the devices, and `g_irq_handlers`: what is registered
for a vector acts on devices. -/
structure IsrMachine (Devices : Type) where
  sched : Sched
  lapics : Nat → CpuLapic
  devices : Devices
  handlers : Nat → Option (InterruptFrame → Devices → Except IsrFault Devices)

/-- The frame that `isr_handler` returns, the frames that it gave to `sched_on_tick`, and
the vector that it gave to `x86_lapic_handle_irq`. -/
structure IsrReturn where
  frame : Nat
  ticked : List Nat
  handled : Option Nat
deriving DecidableEq

section Handler

variable {Devices : Type}

def irqDispatch (m : IsrMachine Devices) (frame : Nat) : Except IsrFault (IsrMachine Devices) :=
  let contents := m.sched.frames frame
  if frame = 0 ∨ contents.vector < 32 then .ok m
  else
    match m.handlers contents.vector with
    | none => .ok m
    | some handler => do
      let devices ← handler contents m.devices
      return { m with devices := devices }

/-- A call of `sched_on_tick` from the handler. -/
def IsrMachine.tick (m : IsrMachine Devices) (cpu frame : Nat) : Except IsrFault (Nat × IsrMachine Devices) :=
  match schedOnTick m.sched cpu frame with
  | .error halt => .error (.sched halt)
  | .ok (next, sched) => .ok (next, { m with sched := sched })

/-- The end of the handler, where the local APIC is told about the frame that is
returned. -/
def IsrMachine.acknowledge (m : IsrMachine Devices) (cpu frame : Nat) (ticked : List Nat) : IsrReturn × IsrMachine Devices :=
  if (m.lapics cpu).initialized then
    let vector := (m.sched.frames frame).vector % 256
    (⟨frame, ticked, some vector⟩,
      { m with lapics := Function.update m.lapics cpu (x86LapicHandleIrq (m.lapics cpu) vector) })
  else (⟨frame, ticked, none⟩, m)

/-- `isr_handler` on the processor `cpu`. -/
def isrHandler (m : IsrMachine Devices) (cpu frame : Nat) : Except IsrFault (IsrReturn × IsrMachine Devices) :=
  let vector := (m.sched.frames frame).vector
  if vector < 32 then .error (.exception (exceptionMessages.getD vector ""))
  else do
    let m ← irqDispatch m frame
    let (frame, ticked, m) ←
      if (m.sched.frames frame).vector = schedTickVector then do
        let (next, m) ← m.tick cpu frame
        pure (next, [frame], m)
      else pure (frame, [], m)
    let (frame, ticked, m) ←
      if (m.sched.frames frame).vector = ipiVectorResched ∧ m.sched.ready then do
        let (next, m) ← m.tick cpu frame
        pure (next, ticked ++ [frame], m)
      else pure (frame, ticked, m)
    return m.acknowledge cpu frame ticked

/-- Whether an interrupt is one that the scheduler decides on. -/
def IsrMachine.decides (m : IsrMachine Devices) (frame : Nat) : Prop :=
  (m.sched.frames frame).vector = schedTickVector ∨ (m.sched.frames frame).vector = ipiVectorResched ∧ m.sched.ready = true

instance (m : IsrMachine Devices) (frame : Nat) : Decidable (m.decides frame) := by
  unfold IsrMachine.decides
  infer_instance

/-- One interrupt, one decision: `sched_on_tick` is called once for a tick or a reschedule
IPI and not for others, and the local APIC is told about the vector that came in. -/
def OneDecision (m : IsrMachine Devices) (cpu frame : Nat) : Prop :=
  ∃ out t, isrHandler m cpu frame = .ok (out, t) ∧ out.ticked = (if m.decides frame then [frame] else []) ∧
    (if m.decides frame then schedOnTick m.sched cpu frame = .ok (out.frame, t.sched)
      else out.frame = frame ∧ t.sched = m.sched) ∧
    ((m.lapics cpu).initialized = true → out.handled = some (m.sched.frames frame).vector ∧
      t.lapics = Function.update m.lapics cpu (x86LapicHandleIrq (m.lapics cpu) (m.sched.frames frame).vector))

/-- The frame that the next task goes on from, or the frame that came in where no task
waits. -/
def nextFrame (s : Sched) (cpu frame : Nat) : Nat :=
  if (s.cpus cpu).runqHead = .null then frame else (s.task (s.cpus cpu).runqHead).frame

/-- The task whose turn it is was stopped by an interrupt that the handler takes for the
one that came in. -/
def NextFrameFits (m : IsrMachine Devices) (cpu frame : Nat) : Prop :=
  m.decides frame → ((m.lapics cpu).initialized = true →
      (m.sched.frames (nextFrame m.sched cpu frame)).vector % 256 = (m.sched.frames frame).vector) ∧
    ((m.sched.frames frame).vector = schedTickVector → m.sched.ready = true →
      (m.sched.frames (nextFrame m.sched cpu frame)).vector ≠ ipiVectorResched)

variable {m m₁ : IsrMachine Devices} {cpu frame : Nat} {r : Lib.RoundRobin TaskPtr Nat}

theorem irqDispatch_keeps (returns : irqDispatch m frame = .ok m₁) : m₁.sched = m.sched ∧ m₁.lapics = m.lapics := by
  unfold irqDispatch at returns
  dsimp only at returns
  split at returns
  · grind
  split at returns
  · grind
  · obtain ⟨devices, -, onward⟩ := Lib.bind_ok returns
    cases onward
    exact ⟨rfl, rfl⟩

theorem nextFrame_eq (turns : Turns m.sched cpu r) : (r.tick frame).1 = nextFrame m.sched cpu frame := by
  obtain ⟨current, waiting, saved⟩ := r
  unfold nextFrame
  cases waiting with
  | nil =>
    rw [if_pos (turns.queue.head_eq_null.mpr rfl)]
    rfl
  | cons task rest =>
    rw [if_neg fun none' => List.cons_ne_nil _ _ (turns.queue.head_eq_null.mp none'), turns.queue.chain.start]
    exact (turns.saved task (List.mem_cons_of_mem _ List.mem_cons_self)).symm

section

variable (dispatched : irqDispatch m frame = .ok m₁)
include dispatched

theorem isrHandler_idle (irq : ¬ (m.sched.frames frame).vector < 32) (idle : ¬ m.decides frame) :
    isrHandler m cpu frame = .ok (m₁.acknowledge cpu frame []) := by
  obtain ⟨sched, lapics⟩ := irqDispatch_keeps dispatched
  obtain ⟨noTick, noResched⟩ := not_or.mp idle
  unfold isrHandler
  dsimp only [bind, Except.bind]
  dsimp only [pure, Except.pure]
  grind

theorem isrHandler_tick (isTick : (m.sched.frames frame).vector = schedTickVector)
    (ticked : schedOnTick m.sched cpu frame = .ok (next, sched))
    (once : ¬ ((sched.frames next).vector = ipiVectorResched ∧ sched.ready = true)) :
    isrHandler m cpu frame = .ok ({ m₁ with sched := sched }.acknowledge cpu next [frame]) := by
  obtain ⟨same, lapics⟩ := irqDispatch_keeps dispatched
  unfold isrHandler
  rw [if_neg (by rw [isTick]; decide), dispatched]
  dsimp only [bind, Except.bind]
  rw [same, if_pos isTick, IsrMachine.tick, same, ticked]
  dsimp only [pure, Except.pure]
  rw [if_neg once]

theorem isrHandler_resched (isIpi : (m.sched.frames frame).vector = ipiVectorResched)
    (ready : m.sched.ready = true) (ticked : schedOnTick m.sched cpu frame = .ok (next, sched)) :
    isrHandler m cpu frame = .ok ({ m₁ with sched := sched }.acknowledge cpu next [frame]) := by
  obtain ⟨same, lapics⟩ := irqDispatch_keeps dispatched
  unfold isrHandler
  rw [if_neg (by rw [isIpi]; decide), dispatched]
  dsimp only [bind, Except.bind]
  rw [same, if_neg (by rw [isIpi]; decide)]
  dsimp only [pure, Except.pure]
  rw [same, if_pos ⟨isIpi, ready⟩, IsrMachine.tick, same, ticked]
  rfl

/-- After a tick that resumes a task which a reschedule IPI had stopped, the handler ticks
again. -/
theorem isrHandler_twice (isTick : (m.sched.frames frame).vector = schedTickVector)
    (ticked : schedOnTick m.sched cpu frame = .ok (next, sched))
    (again : (sched.frames next).vector = ipiVectorResched ∧ sched.ready = true) {out : IsrReturn}
    {t : IsrMachine Devices} (done : isrHandler m cpu frame = .ok (out, t)) :
    out.ticked = [frame, next] := by
  obtain ⟨same, lapics⟩ := irqDispatch_keeps dispatched
  unfold isrHandler at done
  rw [if_neg (by rw [isTick]; decide), dispatched] at done
  dsimp only [bind, Except.bind] at done
  rw [same, if_pos isTick, IsrMachine.tick, same, ticked] at done
  dsimp only [pure, Except.pure] at done
  rw [if_pos again] at done
  unfold IsrMachine.tick at done
  split at done
  · cases done
  · rename_i second
    split at second
    · cases second
    · unfold IsrMachine.acknowledge at done
      grind

/-- When the handler has ticked once, all is right but what the local APIC is told. -/
theorem oneDecision_of_once (decides : m.decides frame)
    (ticked : schedOnTick m.sched cpu frame = .ok (next, sched))
    (frames : sched.frames = m.sched.frames)
    (done : isrHandler m cpu frame = .ok ({ m₁ with sched := sched }.acknowledge cpu next [frame])) :
    OneDecision m cpu frame ↔
      ((m.lapics cpu).initialized = true → (m.sched.frames next).vector % 256 = (m.sched.frames frame).vector) := by
  obtain ⟨-, lapics⟩ := irqDispatch_keeps dispatched
  unfold OneDecision
  by_cases ready : (m.lapics cpu).initialized = true
  · have acknowledged : { m₁ with sched := sched }.acknowledge cpu next [frame] =
        (⟨next, [frame], some ((m.sched.frames next).vector % 256)⟩, { m₁ with
            sched := sched
            lapics := Function.update m.lapics cpu (x86LapicHandleIrq (m.lapics cpu) ((m.sched.frames next).vector % 256)) }) := by
      rw [IsrMachine.acknowledge, lapics, if_pos ready, frames]
    grind
  · have acknowledged : { m₁ with sched := sched }.acknowledge cpu next [frame] =
        (⟨next, [frame], none⟩, { m₁ with sched := sched }) := by
      rw [IsrMachine.acknowledge, lapics, if_neg ready]
    grind

end

/-- The handler makes one decision for an interrupt exactly when the task whose turn it is
was stopped by an interrupt that looks like it. -/
theorem isr_decides_once_iff (turns : Turns m.sched cpu r) (known : cpu < maxCpus) (given : frame ≠ 0)
    (irq : 32 ≤ (m.sched.frames frame).vector) (byte : (m.sched.frames frame).vector < 256)
    (dispatched : irqDispatch m frame = .ok m₁) : OneDecision m cpu frame ↔ NextFrameFits m cpu frame := by
  by_cases decides : m.decides frame
  · obtain ⟨sched, ticked, -, elsewhere⟩ := schedOnTick_turns turns known given
    rw [nextFrame_eq turns] at ticked
    have fits : NextFrameFits m cpu frame ↔ _ := ⟨fun fits => fits decides, fun both _ => both⟩
    rw [fits]
    rcases id decides with isTick | ⟨isIpi, ready⟩
    · by_cases twice : (sched.frames (nextFrame m.sched cpu frame)).vector = ipiVectorResched ∧ sched.ready = true
      · refine ⟨fun ⟨out, t, done, once, _⟩ => ?_, fun both => ?_⟩
        · rw [isrHandler_twice dispatched isTick ticked twice done, if_pos decides] at once
          cases once
        · rw [elsewhere.frames, elsewhere.ready] at twice
          grind
      grind [oneDecision_of_once, Elsewhere.frames, isrHandler_tick, Elsewhere.ready]
    · rw [oneDecision_of_once dispatched decides ticked elsewhere.frames (isrHandler_resched dispatched isIpi ready ticked)]
      refine ⟨fun told => ⟨told, fun isTick => ?_⟩, And.left⟩
      rw [isIpi] at isTick
      cases isTick
  · refine ⟨fun _ decides' => absurd decides' decides, fun _ => ?_⟩
    obtain ⟨same, lapics⟩ := irqDispatch_keeps dispatched
    refine ⟨(m₁.acknowledge cpu frame []).1, (m₁.acknowledge cpu frame []).2,
      isrHandler_idle dispatched (Nat.not_lt.mpr irq) decides, ?_, ?_, fun ready => ?_⟩
    · rw [if_neg decides, IsrMachine.acknowledge]
      split <;> rfl
    · rw [if_neg decides, IsrMachine.acknowledge]
      grind
    · rw [IsrMachine.acknowledge, lapics, same, if_pos ready, Nat.mod_eq_of_lt byte]
      exact ⟨rfl, rfl⟩

end Handler

/-- One processor that runs its bootstrap task, with a task on its queue whose frame is at
`0x5000`. -/
def waitingSched (vectors : List (Nat × Nat)) : Sched where
  cpus := fun _ => ⟨.bootstrap 0, .heap 0x1000, .heap 0x1000, 0⟩
  task
    | .heap _ => ⟨0x5000, 0x4000, schedStackSize, .runnable, .null⟩
    | _ => ⟨0, 0, 0, .runnable, .null⟩
  frames := fun address => { InterruptFrame.zeros with vector := (vectors.lookup address).getD 0 }
  lapicInitCount := schedLapicFallbackCount
  ready := true

def waitingMachine (vectors : List (Nat × Nat)) : IsrMachine Unit where
  sched := waitingSched vectors
  lapics := fun _ => ⟨true, schedTickVector, 0, true, 0⟩
  devices := ()
  handlers := fun _ => none

theorem waitingSched_turns (vectors : List (Nat × Nat)) :
    Turns (waitingSched vectors) 0 ⟨.bootstrap 0, [.heap 0x1000], fun ptr => ((waitingSched vectors).task ptr).frame⟩ := by
  refine ⟨rfl, ⟨List.nodup_singleton _, by simp, ⟨rfl, rfl⟩, rfl⟩, nofun, by simp, fun ptr _ => rfl, ?_, ?_⟩
  · simp [waitingSched]
  · simp [waitingSched, Lib.RoundRobin.order]

/-- A timer tick resumes a task that a timer tick had stopped. -/
theorem isr_decides_once_sample :
    OneDecision (waitingMachine [(0x5000, 0x20), (0x9000, 0x20)]) 0 0x9000 :=
  (isr_decides_once_iff (waitingSched_turns _) (by decide) (by decide) (by decide) (by decide) rfl).mpr
    fun _ => ⟨fun _ => by decide, fun _ _ => by decide⟩

/-- A reschedule IPI starts the new task, and the local APIC is told of vector 0. Then a
timer tick gives the bootstrap task its turn and, since the IPI had stopped it, takes it
away again at once. -/
theorem isr_decides_twice : ∃ m₁ m₂,
    isrHandler (waitingMachine [(0x8000, 0xF1), (0x9000, 0x20)]) 0 0x8000 = .ok (⟨0x5000, [0x8000], some 0⟩, m₁) ∧
    isrHandler m₁ 0 0x9000 = .ok (⟨0x9000, [0x9000, 0x8000], some 0x20⟩, m₂) ∧
    (m₁.sched.cpus 0).current = .heap 0x1000 ∧ (m₂.sched.cpus 0).current = .heap 0x1000 ∧
    ¬ OneDecision (waitingMachine [(0x8000, 0xF1), (0x9000, 0x20)]) 0 0x8000 ∧ ¬ OneDecision m₁ 0 0x9000 := by
  refine ⟨_, _, rfl, rfl, rfl, rfl, ?_, ?_⟩
  · rintro ⟨out, t, done, -, -, told⟩
    cases done
    cases (told rfl).1
  · rintro ⟨out, t, done, once, -⟩
    cases done
    cases once

end Velox
