import Velox.Kernel.Sched
import Velox.Lib.RoundRobin

namespace Velox

open Lib (Fifo RoundRobin)

variable {memory : KmallocClient} {call : KmallocCall} {frame size : Nat}

def Sched.next (s : Sched) (ptr : TaskPtr) : TaskPtr := (s.task ptr).next

/-- Only links of some tasks and the queue of one processor have changed. -/
structure Relinked (s t : Sched) (cpu : Nat) (touched : List TaskPtr) : Prop where
  current : (t.cpus cpu).current = (s.cpus cpu).current
  elsewhere : ∀ other, other ≠ cpu → t.cpus other = s.cpus other
  tasks : ∀ ptr, t.task ptr = { s.task ptr with next := t.next ptr }
  untouched : ∀ ptr, ptr ∉ touched → t.task ptr = s.task ptr
  frames : t.frames = s.frames
  ready : t.ready = s.ready

/-- A write of a link. -/
def Sched.link (s : Sched) (ptr target : TaskPtr) : Sched :=
  { s with task := Function.update s.task ptr { s.task ptr with next := target } }

section Queue

variable {s t u : Sched} {cpu : Nat} {ptr target : TaskPtr} {items touched : List TaskPtr}

theorem setTask_ok (real : ptr ≠ .null) (task : SchedTask) :
    s.setTask ptr task = .ok { s with task := Function.update s.task ptr task } := by
  rw [Sched.setTask, if_neg real]

@[simp] theorem next_link : (s.link ptr target).next = Function.update s.next ptr target := by
  funext other
  by_cases same : other = ptr
  · subst same
    simp only [Sched.link, Sched.next, Function.update_self]
  · simp only [Sched.link, Sched.next, Function.update_of_ne same]

@[simp] theorem next_setCpu : (s.setCpu cpu scpu).next = s.next := rfl

@[simp] theorem setCpu_self : (s.setCpu cpu scpu).cpus cpu = scpu := Function.update_self ..

theorem Relinked.link (member : ptr ∈ touched) : Relinked s (s.link ptr target) cpu touched := by
  refine ⟨rfl, fun _ _ => rfl, fun other => ?_, fun other away => ?_, rfl, rfl⟩
  · by_cases same : other = ptr
    · subst same
      simp only [Sched.link, Sched.next, Function.update_self]
    · simp only [Sched.link, Sched.next, Function.update_of_ne same]
  · exact Function.update_of_ne (fun same : other = ptr => away (same ▸ member)) ..

theorem Relinked.setCpu (same : scpu.current = (s.cpus cpu).current) :
    Relinked s (s.setCpu cpu scpu) cpu touched := by
  refine ⟨?_, fun other apart => Function.update_of_ne apart .., fun _ => rfl, fun _ _ => rfl, rfl, rfl⟩
  rw [setCpu_self, same]

theorem Relinked.trans (first : Relinked s t cpu touched) (second : Relinked t u cpu touched) : Relinked s u cpu touched := by
  refine ⟨second.current.trans first.current, fun other apart => ?_, fun ptr => ?_, fun ptr away => ?_,
    second.frames.trans first.frames, second.ready.trans first.ready⟩
  · rw [second.elsewhere other apart, first.elsewhere other apart]
  · rw [second.tasks ptr, first.tasks ptr]
  · rw [second.untouched ptr away, first.untouched ptr away]

theorem runqPush_fifo (queue : Fifo s.next .null (s.cpus cpu).runqHead (s.cpus cpu).runqTail items) (real : ptr ≠ .null)
    (new : ptr ∉ items) :
    ∃ t, runqPush s cpu ptr = .ok t ∧
      Fifo t.next .null (t.cpus cpu).runqHead (t.cpus cpu).runqTail (items ++ [ptr]) ∧ Relinked s t cpu (ptr :: items) := by
  unfold runqPush
  rw [setTask_ok real]
  have linked : Relinked s (s.link ptr .null) cpu (ptr :: items) := .link List.mem_cons_self
  by_cases empty : items = []
  · subst empty
    refine ⟨(s.link ptr .null).setCpu cpu { s.cpus cpu with runqHead := ptr, runqTail := ptr }, ?_, ?_,
      linked.trans (.setCpu rfl)⟩
    · exact if_pos (queue.head_eq_null.mpr rfl)
    · rw [setCpu_self, next_setCpu, next_link]
      exact .push_empty real
  · have last := queue.tail_mem empty
    have lastReal : (s.cpus cpu).runqTail ≠ .null := fun none' => queue.proper (none' ▸ last)
    refine ⟨((s.link ptr .null).link (s.cpus cpu).runqTail ptr).setCpu cpu { s.cpus cpu with runqTail := ptr }, ?_, ?_,
      (linked.trans (.link (List.mem_cons_of_mem _ last))).trans (.setCpu rfl)⟩
    · refine (if_neg fun none' => empty (queue.head_eq_null.mp none')).trans ?_
      rw [setTask_ok lastReal]
      rfl
    grind [setCpu_self, next_setCpu, next_link, Fifo.push]

theorem runqPop_fifo (queue : Fifo s.next .null (s.cpus cpu).runqHead (s.cpus cpu).runqTail (ptr :: items)) :
    ∃ t, runqPop s cpu = .ok (ptr, t) ∧
      Fifo t.next .null (t.cpus cpu).runqHead (t.cpus cpu).runqTail items ∧ Relinked s t cpu (ptr :: items) := by
  have head : (s.cpus cpu).runqHead = ptr := queue.chain.start
  have real : ptr ≠ .null := fun none' => queue.proper (none' ▸ List.mem_cons_self)
  have popped := queue.pop
  refine ⟨(s.link ptr .null).setCpu cpu { s.cpus cpu with
    runqHead := s.next ptr
    runqTail := if s.next ptr = .null then .null else (s.cpus cpu).runqTail }, ?_, ?_,
    .trans (.link List.mem_cons_self) (.setCpu rfl)⟩
  · unfold runqPop
    dsimp only
    rw [head, if_neg real, setTask_ok real]
    by_cases last : (s.task ptr).next = .null
    · rw [if_pos last, Sched.next, if_pos last, last]
      rfl
    · rw [if_neg last, Sched.next, if_neg last]
      rfl
  · rw [setCpu_self, next_setCpu, next_link]
    exact popped

end Queue

/-- A processor's current task and run queue are a round robin, and each task has the frame
that was kept for it. -/
structure Turns (s : Sched) (cpu : Nat) (r : RoundRobin TaskPtr Nat) : Prop where
  current : (s.cpus cpu).current = r.current
  queue : Fifo s.next .null (s.cpus cpu).runqHead (s.cpus cpu).runqTail r.waiting
  real : r.current ≠ .null
  apart : r.current ∉ r.waiting
  saved : ∀ ptr ∈ r.order, (s.task ptr).frame = r.saved ptr
  framed : ∀ ptr ∈ r.waiting, r.saved ptr ≠ 0
  runnable : ∀ ptr ∈ r.order, (s.task ptr).state = .runnable

/-- What a step on one processor leaves as it is. -/
structure Elsewhere (s t : Sched) (cpu : Nat) (touched : List TaskPtr) : Prop where
  cpus : ∀ other, other ≠ cpu → t.cpus other = s.cpus other
  tasks : ∀ ptr, ptr ∉ touched → t.task ptr = s.task ptr
  stackBases : ∀ ptr, (t.task ptr).stackBase = (s.task ptr).stackBase
  frames : t.frames = s.frames
  ready : t.ready = s.ready

section Turns

variable {s t : Sched} {cpu frame : Nat} {r : RoundRobin TaskPtr Nat} {touched : List TaskPtr}

theorem Turns.congr (turns : Turns s cpu r) (same : t.cpus cpu = s.cpus cpu) (tasks : ∀ ptr ∈ r.order, t.task ptr = s.task ptr) :
    Turns t cpu r := by
  refine ⟨?_, ?_, turns.real, turns.apart, fun ptr member => ?_, turns.framed, fun ptr member => ?_⟩
  · rw [same, turns.current]
  · rw [same]
    refine turns.queue.congr fun ptr member => ?_
    rw [Sched.next, tasks ptr (List.mem_cons_of_mem _ member), Sched.next]
  · grind [saved]
  grind [runnable]

/-- The state once a tick has counted itself and kept the frame of the current task. -/
def Sched.stopped (s : Sched) (cpu frame : Nat) : Sched :=
  { s.setCpu cpu { s.cpus cpu with ticks := ((s.cpus cpu).ticks + 1) % 2 ^ 64 } with
    task := Function.update s.task (s.cpus cpu).current { s.task (s.cpus cpu).current with frame := frame } }

theorem next_stopped : (s.stopped cpu frame).next = s.next := by
  funext ptr
  by_cases same : ptr = (s.cpus cpu).current
  · subst same
    simp only [Sched.next, Sched.stopped, Function.update_self]
  · simp only [Sched.next, Sched.stopped, Function.update_of_ne same]

theorem Turns.stopped (turns : Turns s cpu r) :
    Turns (s.stopped cpu frame) cpu { r with saved := Function.update r.saved r.current frame } := by
  have here : (s.stopped cpu frame).cpus cpu = { s.cpus cpu with ticks := ((s.cpus cpu).ticks + 1) % 2 ^ 64 } :=
    Function.update_self ..
  have currentIs := turns.current
  refine ⟨by rw [here, currentIs], ?_, turns.real, turns.apart, fun ptr member => ?_, fun ptr member => ?_, fun ptr member => ?_⟩
  · rw [here, next_stopped]
    exact turns.queue
  · simp only [Sched.stopped, currentIs]
    by_cases same : ptr = r.current
    · grind
    · rw [Function.update_of_ne same, Function.update_of_ne same]
      exact turns.saved ptr member
  · grind [apart, framed]
  · simp only [Sched.stopped, currentIs]
    by_cases same : ptr = r.current
    · subst same
      rw [Function.update_self]
      exact turns.runnable _ member
    · rw [Function.update_of_ne same]
      exact turns.runnable _ member

theorem Elsewhere.stopped (turns : Turns s cpu r) : Elsewhere s (s.stopped cpu frame) cpu r.order := by
  refine ⟨fun other apart => Function.update_of_ne apart .., fun ptr away => ?_, fun ptr => ?_, rfl, rfl⟩
  · refine Function.update_of_ne (fun same => away ?_) ..
    rw [same, turns.current]
    exact List.mem_cons_self
  · by_cases same : ptr = (s.cpus cpu).current
    · subst same
      simp only [Sched.stopped, Function.update_self]
    · simp only [Sched.stopped, Function.update_of_ne same]

theorem Elsewhere.of_relinked (relinked : Relinked s t cpu touched)
    (inside : ∀ ptr ∈ touched, ptr ∈ within) : Elsewhere s t cpu within :=
  ⟨relinked.elsewhere, fun ptr away => relinked.untouched ptr fun member => away (inside ptr member),
    fun ptr => by rw [relinked.tasks ptr], relinked.frames, relinked.ready⟩

theorem Elsewhere.trans (first : Elsewhere s t cpu touched) (second : Elsewhere t u cpu touched) :
    Elsewhere s u cpu touched := by
  refine ⟨fun other apart => ?_, fun ptr away => ?_, fun ptr => ?_, second.frames.trans first.frames,
    second.ready.trans first.ready⟩
  · rw [second.cpus other apart, first.cpus other apart]
  · rw [second.tasks ptr away, first.tasks ptr away]
  · rw [second.stackBases ptr, first.stackBases ptr]

/-- The tick of a CPU that runs a task: the task's frame is saved, then its line is looked at. -/
theorem schedOnTick_eq (turns : Turns s cpu r) (known : cpu < maxCpus) : schedOnTick s cpu frame = (do
      if ((s.stopped cpu frame).cpus cpu).runqHead = .null then return (frame, s.stopped cpu frame)
      let (next, s) ← runqPop (s.stopped cpu frame) cpu
      if next = .null ∨ next = r.current ∨ (s.task next).frame = 0 then return (frame, s)
      let s ← if (s.task r.current).state = .runnable then runqPush s cpu r.current else pure s
      let s := s.setCpu cpu { s.cpus cpu with current := next }
      return ((s.task next).frame, s)) := by
  have real : (s.cpus cpu).current ≠ .null := turns.current ▸ turns.real
  unfold schedOnTick
  rw [if_neg (Nat.not_le.mpr known)]
  dsimp only
  rw [if_neg real, ← turns.current, setTask_ok real]
  rfl

/-- A tick takes turns. -/
theorem schedOnTick_turns (turns : Turns s cpu r) (known : cpu < maxCpus) (given : frame ≠ 0) :
    ∃ t, schedOnTick s cpu frame = .ok ((r.tick frame).1, t) ∧ Turns t cpu (r.tick frame).2 ∧ Elsewhere s t cpu r.order := by
  rw [schedOnTick_eq turns known]
  have stopped := @Turns.stopped _ _ frame _ turns
  have away := @Elsewhere.stopped _ _ frame _ turns
  obtain ⟨current, waiting, saved⟩ := r
  cases waiting with
  | nil =>
    rw [if_pos (stopped.queue.head_eq_null.mpr rfl)]
    exact ⟨_, rfl, stopped, away⟩
  | cons task rest =>
    rw [if_neg fun none' => List.cons_ne_nil _ _ (stopped.queue.head_eq_null.mp none')]
    obtain ⟨s₂, popped, queue₂, relinked₂⟩ := runqPop_fifo stopped.queue
    have first : task ∈ (⟨current, task :: rest, saved⟩ : RoundRobin TaskPtr Nat).waiting := List.mem_cons_self
    have other : task ≠ current := fun same => turns.apart (same ▸ first)
    have frameIs : (s₂.task task).frame = saved task := by
      have kept := stopped.saved task (List.mem_cons_of_mem _ first)
      grind [Relinked.tasks]
    have passes : ¬ (task = .null ∨ task = current ∨ (s₂.task task).frame = 0) := by
      rintro (none' | same | none')
      · exact turns.queue.proper (none' ▸ List.mem_cons_self)
      · exact other same
      · exact turns.framed task first (frameIs.symm.trans none')
    have runnable : (s₂.task current).state = .runnable := by
      rw [relinked₂.tasks current]
      exact stopped.runnable current List.mem_cons_self
    have new : current ∉ rest := fun late => turns.apart (List.mem_cons_of_mem _ late)
    obtain ⟨s₃, pushed, queue₃, relinked₃⟩ := runqPush_fifo queue₂ turns.real new
    rw [popped]
    dsimp only [bind, Except.bind]
    rw [if_neg passes, if_pos runnable, pushed]
    have tasks : ∀ ptr, s₃.task ptr = { (s.stopped cpu frame).task ptr with next := s₃.next ptr } := by
      intro ptr
      rw [relinked₃.tasks ptr, relinked₂.tasks ptr]
    have inOrder : ∀ ptr ∈ task :: (rest ++ [current]), ptr ∈ current :: task :: rest := by
      grind
    refine ⟨s₃.setCpu cpu { s₃.cpus cpu with current := task }, ?_, ⟨?_, ?_, ?_, ?_, fun ptr member => ?_, fun ptr member => ?_,
      fun ptr member => ?_⟩, ?_⟩
    · have same : (s₃.task task).frame = saved task := (congrArg SchedTask.frame (relinked₃.tasks task)).trans frameIs
      exact congrArg (fun frame => Except.ok (frame, _)) same
    · rw [setCpu_self]
      rfl
    · rw [setCpu_self, next_setCpu]
      exact queue₃
    · exact fun none' => turns.queue.proper (none' ▸ List.mem_cons_self)
    · refine fun late => (List.mem_append.mp late).elim (List.nodup_cons.mp turns.queue.nodup).1 fun last => ?_
      exact other (List.mem_singleton.mp last)
    · exact (congrArg SchedTask.frame (tasks ptr)).trans (stopped.saved ptr (inOrder ptr member))
    · rcases List.mem_append.mp member with late | last
      · exact stopped.framed ptr (List.mem_cons_of_mem _ late)
      · obtain rfl : ptr = current := List.mem_singleton.mp last
        exact fun zero => given ((Function.update_self ..).symm.trans zero)
    · exact (congrArg SchedTask.state (tasks ptr)).trans (stopped.runnable ptr (inOrder ptr member))
    · refine (away.trans (.of_relinked relinked₂ fun ptr member => List.mem_cons_of_mem _ member)).trans ?_
      refine .trans (.of_relinked relinked₃ fun ptr member => ?_) ?_
      · exact inOrder ptr (by grind)
      · exact ⟨fun other apart => Function.update_of_ne apart .., fun _ _ => rfl, fun _ => rfl, rfl, rfl⟩

/-- A task that was waiting nowhere joins the line. -/
theorem runqPush_turns (turns : Turns s cpu r) (real : ptr ≠ .null) (new : ptr ∉ r.order)
    (framed : (s.task ptr).frame ≠ 0) (runnable : (s.task ptr).state = .runnable) :
    ∃ t, runqPush s cpu ptr = .ok t ∧ Turns t cpu (r.enroll ptr (s.task ptr).frame) ∧ Elsewhere s t cpu (ptr :: r.order) := by
  have late : ptr ∉ r.waiting := fun member => new (List.mem_cons_of_mem _ member)
  obtain ⟨t, pushed, queue, relinked⟩ := runqPush_fifo turns.queue real late
  have other : ∀ p ∈ r.order, p ≠ ptr := fun p member same => new (same ▸ member)
  refine ⟨t, pushed, ⟨?_, queue, turns.real, ?_, fun p member => ?_, fun p member => ?_, fun p member => ?_⟩, ?_⟩
  · rw [relinked.current, turns.current]
    rfl
  · refine fun member => (List.mem_append.mp member).elim turns.apart fun last => ?_
    exact other r.current List.mem_cons_self (List.mem_singleton.mp last)
  · rw [RoundRobin.order_enroll, List.mem_append] at member
    rw [relinked.tasks p]
    rcases member with early | last
    · grind [RoundRobin.saved_enroll_of_ne, Turns.saved]
    · obtain rfl := List.mem_singleton.mp last
      simp
  · rcases List.mem_append.mp member with early | last
    · grind [RoundRobin.saved_enroll_of_ne, Turns.framed]
    · obtain rfl := List.mem_singleton.mp last
      rw [RoundRobin.saved_enroll_self]
      exact framed
  · rw [RoundRobin.order_enroll, List.mem_append] at member
    rw [relinked.tasks p]
    grind [Turns.runnable]
  · exact .of_relinked relinked fun p member => by
      rcases List.mem_cons.mp member with rfl | later
      · exact List.mem_cons_self
      · exact List.mem_cons_of_mem _ (List.mem_cons_of_mem _ later)

end Turns

/-- The tasks of all processors are in turns, apart from each other, and were taken from
the heap. -/
structure Orderly (env : SchedEnv) (s : SchedSystem) (turn : Nat → RoundRobin TaskPtr Nat) : Prop where
  memory : s.memory.Sound env.boot
  turns : ∀ cpu < env.cpuCount, Turns s.sched cpu (turn cpu)
  apart : ∀ cpu < env.cpuCount, ∀ other < env.cpuCount, other ≠ cpu → ∀ ptr ∈ (turn other).order, ptr ∉ (turn cpu).order
  listed : ∀ cpu < env.cpuCount, ∀ task, .heap task ∈ (turn cpu).order → task ∈ s.tasks ∧ task ∉ s.prepared
  live : ∀ task ∈ s.tasks, task ∈ s.memory.live
  made : ∀ task ∈ s.prepared, task ∈ s.tasks ∧ (s.sched.task (.heap task)).frame ≠ 0 ∧
    (s.sched.task (.heap task)).frame = spawnFrame (s.sched.task (.heap task)).stackBase ∧
    (s.sched.task (.heap task)).state = .runnable
  once : s.prepared.Nodup

/-- Whose turn it is after a step. -/
def turnAfter (env : SchedEnv) (s : SchedSystem) (turn : Nat → RoundRobin TaskPtr Nat) : SchedOp → Nat → RoundRobin TaskPtr Nat
  | .enqueue apic task =>
    Function.update turn (cpuSelf env apic)
      ((turn (cpuSelf env apic)).enroll (.heap task) (s.sched.task (.heap task)).frame)
  | .tick apic frame => Function.update turn (cpuSelf env apic) ((turn (cpuSelf env apic)).tick frame).2
  | .prepare .. | .memory .. => turn

section Steps

variable {env : SchedEnv} {s t : SchedSystem} {turn : Nat → RoundRobin TaskPtr Nat}

theorem cpuSelf_lt (some' : 0 < env.cpuCount) (apic : Nat) : cpuSelf env apic < env.cpuCount := by
  unfold cpuSelf
  cases found : (List.range env.cpuCount).find? fun cpu => env.apicId cpu = apic with
  | none => exact some'
  | some cpu => grind

/-- What an allocator call leaves handed out. -/
theorem allocate_sound (room : env.boot.VmallocRoom) (sound : memory.Sound env.boot)
    (done : allocate env memory call = .ok (answer, memory')) :
    memory'.Sound env.boot ∧ kmallocStep env.boot memory call = .ok (answer, memory') := by
  unfold allocate at done
  grind [kmallocStep_sound, Lib.Yields.ok]

/-- The pointers that are handed out after a call. -/
def liveAfter (live : List Nat) (answer : Nat) : KmallocCall → List Nat
  | .kmalloc _ => if answer = 0 then live else answer :: live
  | .kfree ptr => live.erase ptr
  | .store .. | .vmalloc .. | .vfree .. => live

theorem kmallocStep_live (taken : kmallocStep boot memory call = .ok (answer, memory')) :
    memory'.live = liveAfter memory.live answer call := by
  cases call with
  | kmalloc size =>
    obtain ⟨⟨ptr, heap⟩, -, onward⟩ := Lib.bind_ok taken
    cases onward
    rfl
  | kfree ptr =>
    simp only [kmallocStep] at taken
    split at taken
    · obtain ⟨heap, -, onward⟩ := Lib.bind_ok taken
      cases onward
      rfl
    · cases taken
  | store ptr contents =>
    simp only [kmallocStep] at taken
    split at taken
    · cases taken
      rfl
    · cases taken
  | vmalloc size flags =>
    obtain ⟨⟨addr, vm⟩, -, onward⟩ := Lib.bind_ok taken
    cases onward
    rfl
  | vfree addr size =>
    simp only [kmallocStep] at taken
    split at taken
    · obtain ⟨vm, -, onward⟩ := Lib.bind_ok taken
      cases onward
      rfl
    · cases taken

section

variable (orderly : Orderly env s turn)
include orderly

/-- A change of the memory that keeps the tasks. -/
theorem Orderly.remember (sound : memory.Sound env.boot)
    (live : ∀ task ∈ s.tasks, task ∈ memory.live) : Orderly env { s with memory := memory } turn :=
  ⟨sound, orderly.turns, orderly.apart, orderly.listed, live, orderly.made, orderly.once⟩

/-- A step on one processor. -/
theorem Orderly.advance {cpu : Nat} (known : cpu < env.cpuCount) {sched : Sched}
    {r : RoundRobin TaskPtr Nat} {prepared : List Nat} {touched : List TaskPtr}
    (turns : Turns sched cpu r) (elsewhere : Elsewhere s.sched sched cpu touched)
    (inside : ∀ ptr ∈ r.order, ptr ∈ touched)
    (others : ∀ other < env.cpuCount, other ≠ cpu → ∀ ptr ∈ (turn other).order, ptr ∉ touched)
    (listed : ∀ task, .heap task ∈ touched → task ∈ s.tasks)
    (left : ∀ task ∈ prepared, task ∈ s.prepared ∧ .heap task ∉ touched) (once : prepared.Nodup) :
    Orderly env { s with sched := sched, prepared := prepared } (Function.update turn cpu r) := by
  refine ⟨orderly.memory, fun other inRange => ?_, fun one inRange other inRange' different ptr member => ?_,
    fun other inRange task member => ?_, orderly.live, fun task member => ?_, once⟩
  · by_cases same : other = cpu
    · grind
    · rw [Function.update_of_ne same]
      exact (orderly.turns other inRange).congr (elsewhere.cpus other same)
        fun ptr member => elsewhere.tasks ptr (others other inRange same ptr member)
  · grind [apart]
  · grind [listed]
  grind [Elsewhere.tasks, made]

theorem Orderly.tick (count : env.cpuCount ≤ maxCpus) {cpu : Nat} (known : cpu < env.cpuCount)
    (given : frame ≠ 0) :
    ∃ sched, schedOnTick s.sched cpu frame = .ok (((turn cpu).tick frame).1, sched) ∧
      Orderly env { s with sched := sched } (Function.update turn cpu ((turn cpu).tick frame).2) := by
  obtain ⟨sched, ticked, turns, elsewhere⟩ :=
    schedOnTick_turns (orderly.turns cpu known) (lt_of_lt_of_le known count) given
  refine ⟨sched, ticked, orderly.advance known turns elsewhere (fun ptr member => ?_) (fun other inRange different ptr member => ?_)
    (fun task member => ?_) (fun task member => ⟨member, fun late => ?_⟩) orderly.once⟩
  · rwa [RoundRobin.order_tick, List.mem_rotate] at member
  · grind [apart]
  · exact (orderly.listed cpu known task member).1
  · exact (orderly.listed cpu known task late).2 member

theorem Orderly.enqueue (count : env.cpuCount ≤ maxCpus) {cpu task : Nat}
    (known : cpu < env.cpuCount) (ready : task ∈ s.prepared) :
    ∃ t, schedEnqueue env s cpu task = .ok (0, t) ∧
      Orderly env t (Function.update turn cpu ((turn cpu).enroll (.heap task) (s.sched.task (.heap task)).frame)) := by
  obtain ⟨made, framed, -, runnable⟩ := orderly.made task ready
  have new : TaskPtr.heap task ∉ (turn cpu).order := fun member => (orderly.listed cpu known task member).2 ready
  have real : TaskPtr.heap task ≠ .null := nofun
  obtain ⟨sched, pushed, turns, elsewhere⟩ := runqPush_turns (orderly.turns cpu known) real new framed runnable
  have stepped := @Orderly.advance _ _ _ orderly cpu known sched _ (s.prepared.erase task) _ turns elsewhere
  refine ⟨_, ?_, stepped (fun ptr member => ?_) (fun other inRange different ptr member => ?_) (fun other member => ?_)
    (fun other member => ⟨List.mem_of_mem_erase member, fun late => ?_⟩) (orderly.once.erase task)⟩
  · rw [schedEnqueue, if_neg (Nat.not_le.mpr (lt_of_lt_of_le known count)), pushed]
    rfl
  · rw [RoundRobin.order_enroll] at member
    grind
  · rintro (_ | ⟨_, also⟩)
    · exact (orderly.listed other inRange task member).2 ready
    · exact orderly.apart cpu known other inRange different ptr member also
  · rcases List.mem_cons.mp member with same | member
    · grind
    · exact (orderly.listed cpu known other member).1
  · rcases List.mem_cons.mp late with same | late
    · cases same
      exact orderly.once.not_mem_erase member
    · exact (orderly.listed cpu known other late).2 (List.mem_of_mem_erase member)

end

/-- A new stack is made of whole pages, so the frame at its top is not at zero. -/
theorem spawnFrame_ne_zero (aligned : 4096 ∣ stack) : spawnFrame stack ≠ 0 := by
  unfold spawnFrame schedStackSize sizeofInterruptFrame
  dsimp only
  omega

theorem KmallocClient.Sound.mapped_aligned (sound : memory.Sound boot)
    (listed : (addr, size) ∈ memory.mapped) : 4096 ∣ addr := by
  obtain ⟨pools, blocks, frees, heap, below⟩ := sound
  rcases below with ⟨-, -, -, -, none', -⟩ | inv
  · rw [(List.append_eq_nil_iff.mp none').2] at listed
    cases listed
  · exact (inv.placed _ (List.mem_append_right _ listed)).1

theorem KmallocClient.Sound.nodup (sound : memory.Sound boot) : memory.live.Nodup := by
  obtain ⟨pools, blocks, frees, heap, below⟩ := sound
  exact heap.unique

theorem vmalloc_mapped (taken : kmallocStep boot memory (.vmalloc size flags) = .ok (addr, memory'))
    (found : addr ≠ 0) : (addr, size) ∈ memory'.mapped := by
  obtain ⟨⟨addr', vm⟩, -, onward⟩ := Lib.bind_ok taken
  cases onward
  grind

theorem Orderly.prepare (orderly : Orderly env s turn) (room : env.boot.VmallocRoom) {entry : Nat}
    (done : schedPrepare env s entry arg = .ok (answer, t)) : Orderly env t turn := by
  unfold schedPrepare at done
  split at done
  · grind
  obtain ⟨⟨task, memory₁⟩, taken, onward⟩ := Lib.bind_ok done
  obtain ⟨sound₁, step₁⟩ := allocate_sound room orderly.memory taken
  have live₁ := kmallocStep_live step₁
  dsimp only [liveAfter] at onward live₁
  split at onward
  · cases onward
    grind [remember, live]
  rename_i found
  rw [if_neg found] at live₁
  obtain ⟨⟨stack, memory₂⟩, taken, onward⟩ := Lib.bind_ok onward
  obtain ⟨sound₂, step₂⟩ := allocate_sound room sound₁ taken
  have live₂ := kmallocStep_live step₂
  dsimp only [liveAfter] at onward live₂
  split at onward
  · obtain ⟨⟨ignored, memory₃⟩, taken, onward⟩ := Lib.bind_ok onward
    obtain ⟨sound₃, step₃⟩ := allocate_sound room sound₂ taken
    have live₃ := kmallocStep_live step₃
    cases onward
    refine orderly.remember sound₃ fun task member => ?_
    rw [live₃, liveAfter, live₂, live₁, List.erase_cons_head]
    exact orderly.live task member
  · rename_i mapped
    cases onward
    have new : answer ∉ s.memory.live := by
      have unique := sound₁.nodup
      grind
    have unknown : answer ∉ s.tasks := fun member => new (orderly.live answer member)
    have aligned := sound₂.mapped_aligned (vmalloc_mapped step₂ mapped)
    have outside : ∀ cpu < env.cpuCount, TaskPtr.heap answer ∉ (turn cpu).order :=
      fun cpu known member => unknown (orderly.listed cpu known answer member).1
    refine ⟨sound₂, fun cpu known => ?_, orderly.apart, fun cpu known other member => ?_, fun other member => ?_,
      fun other member => ?_, ?_⟩
    · refine (orderly.turns cpu known).congr rfl fun ptr member => Function.update_of_ne (fun same => ?_) ..
      grind
    · grind [listed]
    · rw [live₂, live₁]
      rcases List.mem_cons.mp member with rfl | member
      · exact List.mem_cons_self
      grind [live]
    · rcases List.mem_cons.mp member with rfl | member
      · grind [spawnFrame_ne_zero]
      grind [made]
    · exact List.nodup_cons.mpr ⟨fun member => unknown (orderly.made answer member).1, orderly.once⟩

/-- A step keeps the tasks in turns, and a tick answers with the frame of whose turn it
is. -/
theorem schedStep_orderly (room : env.boot.VmallocRoom) (some' : 0 < env.cpuCount)
    (count : env.cpuCount ≤ maxCpus) (orderly : Orderly env s turn)
    (done : schedStep env s op = .ok (answer, t)) :
    Orderly env t (turnAfter env s turn op) ∧
      (∀ apic frame, op = .tick apic frame → answer = ((turn (cpuSelf env apic)).tick frame).1) ∧
      ∀ apic task, op = .enqueue apic task → answer = 0 ∧ task ∈ s.prepared := by
  cases op with
  | prepare entry arg => exact ⟨orderly.prepare room done, nofun, nofun⟩
  | enqueue apic task =>
    simp only [schedStep] at done
    split at done
    · rename_i ready
      obtain ⟨t', pushed, orderly'⟩ := orderly.enqueue count (cpuSelf_lt some' apic) ready
      cases done.symm.trans pushed
      refine ⟨orderly', nofun, ?_⟩
      grind
    · cases done
  | tick apic frame =>
    simp only [schedStep] at done
    split at done
    · cases done
    · rename_i given
      obtain ⟨sched, ticked, orderly'⟩ := orderly.tick count (cpuSelf_lt some' apic) given
      rw [ticked] at done
      cases done
      refine ⟨orderly', ?_, nofun⟩
      simp
  | memory call =>
    have kept : ∀ {memory}, allocate env s.memory call = .ok (answer, memory) → (∀ ptr, call = .kfree ptr → ptr ∉ s.tasks) →
        Orderly env { s with memory := memory } turn := by
      intro memory taken own
      obtain ⟨sound, step⟩ := allocate_sound room orderly.memory taken
      have live := kmallocStep_live step
      refine orderly.remember sound fun task member => ?_
      rw [live]
      have held := orderly.live task member
      cases call with
      | kmalloc size =>
        rw [liveAfter]
        grind
      | kfree ptr => exact (List.mem_erase_of_ne fun same : task = ptr => own ptr rfl (same ▸ member)).mpr held
      | store | vmalloc | vfree => exact held
    refine ⟨?_, nofun, nofun⟩
    cases call with
    | kfree ptr =>
      simp only [schedStep] at done
      split at done
      · cases done
      · obtain ⟨⟨answer', memory⟩, taken, onward⟩ := Lib.bind_ok done
        cases onward
        exact kept taken (by grind)
    | kmalloc | store | vmalloc | vfree =>
      obtain ⟨⟨answer', memory⟩, taken, onward⟩ := Lib.bind_ok done
      cases onward
      exact kept taken nofun

end Steps

/-- The task that an event put on the queue of a processor. -/
def spawnedBy (env : SchedEnv) (cpu : Nat) : SchedOp × Nat → Option TaskPtr
  | (.enqueue apic task, answer) => if answer = 0 ∧ cpuSelf env apic = cpu then some (.heap task) else none
  | _ => none

/-- The tasks that were spawned on a processor. -/
def spawnedOn (env : SchedEnv) (cpu : Nat) (trace : List (SchedOp × Nat)) : List TaskPtr := trace.filterMap (spawnedBy env cpu)

def isTickOn (env : SchedEnv) (cpu : Nat) : SchedOp × Nat → Bool
  | (.tick apic _, _) => cpuSelf env apic = cpu
  | _ => false

/-- How many ticks a processor had. -/
def ticksOn (env : SchedEnv) (cpu : Nat) (trace : List (SchedOp × Nat)) : Nat := trace.countP (isTickOn env cpu)

section Runs

variable {env : SchedEnv} {s t : SchedSystem} {turn : Nat → RoundRobin TaskPtr Nat} {cpu : Nat} {ptr : TaskPtr}
variable {trace : List (SchedOp × Nat)}

/-- The order on a processor after a step. -/
theorem order_turnAfter {op : SchedOp} {answer : Nat} (queued : ∀ apic task, op = .enqueue apic task → answer = 0) :
    (turnAfter env s turn op cpu).order =
      (turn cpu).order.rotate (ticksOn env cpu [(op, answer)]) ++ spawnedOn env cpu [(op, answer)] := by
  cases op with
  | prepare entry arg => simp [turnAfter, ticksOn, spawnedOn, isTickOn, spawnedBy]
  | memory call => simp [turnAfter, ticksOn, spawnedOn, isTickOn, spawnedBy]
  | enqueue apic task =>
    obtain rfl := queued apic task rfl
    by_cases here : cpuSelf env apic = cpu
    · subst here
      simp [turnAfter, ticksOn, spawnedOn, isTickOn, spawnedBy]
    · simp [turnAfter, ticksOn, spawnedOn, isTickOn, spawnedBy, here, Function.update_of_ne (Ne.symm here)]
  | tick apic frame =>
    by_cases here : cpuSelf env apic = cpu
    · subst here
      simp [turnAfter, ticksOn, spawnedOn, isTickOn, spawnedBy]
    · simp [turnAfter, ticksOn, spawnedOn, isTickOn, spawnedBy, here, Function.update_of_ne (Ne.symm here)]

/-- The orders along a run. -/
theorem orders_of_run (room : env.boot.VmallocRoom) (some' : 0 < env.cpuCount) (count : env.cpuCount ≤ maxCpus)
    (orderly : Orderly env s turn) (run : Lib.Steps (schedStep env) s trace t) :
    ∃ turn', Orderly env t turn' ∧ ∀ cpu, (turn' cpu).order.Perm ((turn cpu).order ++ spawnedOn env cpu trace) ∧
      (spawnedOn env cpu trace = [] → (turn' cpu).order = (turn cpu).order.rotate (ticksOn env cpu trace)) := by
  induction run generalizing turn with
  | done => exact ⟨turn, orderly, fun cpu => ⟨by simp [spawnedOn], fun _ => by simp [ticksOn]⟩⟩
  | @more s op answer middle trace t taken rest ih =>
    obtain ⟨orderly', -, queued⟩ := schedStep_orderly room some' count orderly taken
    obtain ⟨turn', orderly'', along⟩ := ih orderly'
    refine ⟨turn', orderly'', fun cpu => ?_⟩
    obtain ⟨perm, rotated⟩ := along cpu
    have first := @order_turnAfter env s turn cpu op answer fun apic task same => (queued apic task same).1
    have spawned : spawnedOn env cpu ((op, answer) :: trace) = spawnedOn env cpu [(op, answer)] ++ spawnedOn env cpu trace := by
      rw [spawnedOn, spawnedOn, spawnedOn, ← List.filterMap_append, List.singleton_append]
    have ticked : ticksOn env cpu ((op, answer) :: trace) = ticksOn env cpu [(op, answer)] + ticksOn env cpu trace := by
      rw [ticksOn, ticksOn, ticksOn, ← List.countP_append, List.singleton_append]
    rw [spawned, ticked, ← List.append_assoc]
    rw [first] at perm rotated
    refine ⟨perm.trans (.append_right _ (.append_right _ (List.rotate_perm ..))), fun none' => ?_⟩
    obtain ⟨none₁, none₂⟩ := List.append_eq_nil_iff.mp none'
    grind [List.rotate_rotate]

theorem saved_turnAfter (orderly : Orderly env s turn) (known : cpu < env.cpuCount)
    (member : ptr ∈ (turn cpu).order) (waits : (s.sched.cpus cpu).current ≠ ptr)
    (queued : ∀ apic task, op = .enqueue apic task → task ∈ s.prepared) :
    (turnAfter env s turn op cpu).saved ptr = (turn cpu).saved ptr := by
  cases op with
  | prepare entry arg => rfl
  | memory call => rfl
  | enqueue apic task =>
    by_cases here : cpuSelf env apic = cpu
    · subst here
      have other : ptr ≠ .heap task := by
        rintro rfl
        exact (orderly.listed _ known task member).2 (queued apic task rfl)
      rw [turnAfter, Function.update_self, RoundRobin.saved_enroll_of_ne other]
    · rw [turnAfter, Function.update_of_ne (Ne.symm here)]
  | tick apic frame =>
    by_cases here : cpuSelf env apic = cpu
    · subst here
      have other : ptr ≠ (turn (cpuSelf env apic)).current := by
        rw [← (orderly.turns _ known).current]
        exact waits.symm
      rw [turnAfter, Function.update_self, RoundRobin.saved_tick, Function.update_of_ne other]
    · rw [turnAfter, Function.update_of_ne (Ne.symm here)]

/-- As long as a task is not running, the frame that was kept for it stays. -/
theorem saved_of_run (room : env.boot.VmallocRoom) (some' : 0 < env.cpuCount) (count : env.cpuCount ≤ maxCpus)
    (known : cpu < env.cpuCount) (orderly : Orderly env s turn) (member : ptr ∈ (turn cpu).order)
    (run : Lib.Steps (Lib.guarded (fun s _ => (s.sched.cpus cpu).current ≠ ptr) (schedStep env)) s trace t) :
    ∃ turn', Orderly env t turn' ∧ ptr ∈ (turn' cpu).order ∧ (turn' cpu).saved ptr = (turn cpu).saved ptr := by
  induction run generalizing turn with
  | done => grind
  | @more s op answer middle trace t taken rest ih =>
    obtain ⟨waits, taken⟩ := Lib.guarded_ok taken
    obtain ⟨orderly', -, queued⟩ := schedStep_orderly room some' count orderly taken
    have still : ptr ∈ (turnAfter env s turn op cpu).order := by
      rw [@order_turnAfter env s turn cpu op answer fun apic task same => (queued apic task same).1]
      exact List.mem_append_left _ (List.mem_rotate.mpr member)
    obtain ⟨turn', orderly'', member', kept⟩ := ih orderly' still
    refine ⟨turn', orderly'', member', kept.trans ?_⟩
    exact saved_turnAfter orderly known member waits fun apic task same => (queued apic task same).2

theorem foldl_schedInitCpu (s : Sched) (count : Nat) :
    (∀ cpu < count, ((List.range count).foldl schedInitCpu s).cpus cpu = ⟨.bootstrap cpu, .null, .null, 0⟩) ∧
    ∀ cpu < count, ((List.range count).foldl schedInitCpu s).task (.bootstrap cpu) = ⟨0, 0, 0, .runnable, .null⟩ := by
  induction count with
  | zero => exact ⟨nofun, nofun⟩
  | succ count ih =>
    rw [List.range_succ, List.foldl_append]
    refine ⟨fun cpu below => ?_, fun cpu below => ?_⟩
    · by_cases last : cpu = count
      · subst last
        exact Function.update_self ..
      · exact (Function.update_of_ne last ..).trans (ih.1 cpu (by omega))
    · by_cases last : cpu = count
      · subst last
        exact Function.update_self ..
      · have other : TaskPtr.bootstrap cpu ≠ .bootstrap count := fun same => last (TaskPtr.bootstrap.inj same)
        exact (Function.update_of_ne other ..).trans (ih.2 cpu (by omega))

/-- After `sched_init` every processor runs its bootstrap task. -/
theorem orderly_of_init (sound : memory.Sound env.boot)
    (cold : before.ready = false) (some' : 0 < env.cpuCount) (calibrated : Option Nat) :
    Orderly env ⟨schedInit before env.cpuCount calibrated, memory, [], []⟩ fun cpu => ⟨.bootstrap cpu, [], fun _ => 0⟩ := by
  obtain ⟨cpus, tasks⟩ := foldl_schedInitCpu before env.cpuCount
  have init : schedInit before env.cpuCount calibrated = { (List.range env.cpuCount).foldl schedInitCpu before with
        lapicInitCount := calibrated.getD schedLapicFallbackCount
        ready := true } := by
    simp only [schedInit, cold, Bool.false_eq_true, if_false, if_neg (Nat.ne_of_gt some')]
  have only : ∀ {cpu : Nat} {ptr : TaskPtr},
      ptr ∈ (⟨.bootstrap cpu, [], fun _ => 0⟩ : RoundRobin TaskPtr Nat).order → ptr = .bootstrap cpu := List.mem_singleton.mp
  refine ⟨sound, fun cpu known => ?_, fun cpu _ other _ different ptr member also => ?_, fun cpu _ task member => ?_, nofun, nofun,
    .nil⟩
  · rw [init]
    have here := cpus cpu known
    refine ⟨congrArg SchedCpu.current here, ?_, nofun, nofun, fun ptr member => ?_, nofun, fun ptr member => ?_⟩
    · rw [here]
      exact .empty _ _
    · grind
    grind
  · grind
  · cases only member

/-- The current task of a processor with those on its run queue, in the order in which they
run. -/
def Sched.InTurn (s : Sched) (cpu : Nat) (order : List TaskPtr) : Prop :=
  ∃ queue, order = (s.cpus cpu).current :: queue ∧ Fifo s.next .null (s.cpus cpu).runqHead (s.cpus cpu).runqTail queue

theorem Turns.inTurn {s : Sched} (turns : Turns s cpu r) : s.InTurn cpu r.order :=
  ⟨r.waiting, by rw [turns.current, RoundRobin.order], turns.queue⟩

/-- A tick on a processor that makes a task go on which was not running. -/
def Resumed (env : SchedEnv) (cpu : Nat) (ptr : TaskPtr) (s : SchedSystem) (frame : Nat) : Prop :=
  ∃ apic given t, cpuSelf env apic = cpu ∧ schedStep env s (.tick apic given) = .ok (frame, t) ∧
    (s.sched.cpus cpu).current ≠ ptr ∧ (t.sched.cpus cpu).current = ptr

/-- A task goes on from the frame that was kept for it. -/
theorem saved_resumes (room : env.boot.VmallocRoom) (some' : 0 < env.cpuCount) (count : env.cpuCount ≤ maxCpus)
    (known : cpu < env.cpuCount) (orderly : Orderly env s turn) (member : ptr ∈ (turn cpu).order)
    (run : Lib.Steps (Lib.guarded (fun s _ => (s.sched.cpus cpu).current ≠ ptr) (schedStep env)) s trace t)
    (resumed : Resumed env cpu ptr t frame) : frame = (turn cpu).saved ptr := by
  obtain ⟨turn', orderly', member', kept⟩ := saved_of_run room some' count known orderly member run
  obtain ⟨apic, given, u, rfl, taken, waits, goes⟩ := resumed
  obtain ⟨orderly'', answered, -⟩ := schedStep_orderly room some' count orderly' taken
  have after := (orderly''.turns _ known).current
  rw [goes, turnAfter, Function.update_self] at after
  rw [(orderly'.turns _ known).current] at waits
  rw [answered apic given rfl, RoundRobin.tick_resumes fun same => waits (same.symm.trans after.symm), ← after, kept]

/-- Two processors on the machine of seventeen frames, where no heap can be made. -/
def tinySched : SchedEnv := ⟨tinyBoot, 2, id, 0x1000⟩

def blankSched : Sched where
  cpus := fun _ => ⟨.null, .null, .null, 0⟩
  task := fun _ => ⟨0, 0, 0, .runnable, .null⟩
  frames := fun _ => .zeros
  lapicInitCount := 0
  ready := false

end Runs

end Velox
