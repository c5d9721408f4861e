import Mathlib.Data.List.Rotate
import Mathlib.Logic.Function.Basic

/-! Taking turns: one task runs, the others wait in line, and for each there is the frame
to go on from. -/

namespace Velox.Lib

/-- Who runs, who waits, and where each task goes on. -/
structure RoundRobin (Task Frame : Type) where
  current : Task
  waiting : List Task
  saved : Task → Frame

variable {Task Frame : Type} [DecidableEq Task]

/-- All the tasks, in the order in which they run. -/
def RoundRobin.order (r : RoundRobin Task Frame) : List Task := r.current :: r.waiting

/-- The running task is stopped at a frame, and the first that waits goes on. -/
def RoundRobin.tick (r : RoundRobin Task Frame) (frame : Frame) : Frame × RoundRobin Task Frame :=
  match r.waiting with
  | [] => (frame, { r with saved := Function.update r.saved r.current frame })
  | task :: rest => (r.saved task, ⟨task, rest ++ [r.current], Function.update r.saved r.current frame⟩)

/-- A task comes in at the end of the line. -/
def RoundRobin.enroll (r : RoundRobin Task Frame) (task : Task) (frame : Frame) : RoundRobin Task Frame :=
  ⟨r.current, r.waiting ++ [task], Function.update r.saved task frame⟩

variable {r : RoundRobin Task Frame} {task : Task} {frame : Frame}

@[simp] theorem RoundRobin.order_tick : (r.tick frame).2.order = r.order.rotate 1 := by
  obtain ⟨current, waiting, saved⟩ := r
  cases waiting with
  | nil => rw [tick, order, order, List.rotate_singleton]
  | cons task rest => rw [tick, order, order, List.rotate_cons_succ, List.rotate_zero, List.cons_append]

@[simp] theorem RoundRobin.order_enroll : (r.enroll task frame).order = r.order ++ [task] := rfl

@[simp] theorem RoundRobin.saved_enroll_self : (r.enroll task frame).saved task = frame := Function.update_self ..

theorem RoundRobin.saved_enroll_of_ne {other : Task} (different : other ≠ task) :
    (r.enroll task frame).saved other = r.saved other :=
  Function.update_of_ne different ..

/-- The tick that stops a task keeps its frame, and the others keep theirs. -/
theorem RoundRobin.saved_tick : (r.tick frame).2.saved = Function.update r.saved r.current frame := by
  obtain ⟨current, waiting, saved⟩ := r
  cases waiting <;> rfl

/-- A task that goes on gets the frame that was kept for it. -/
theorem RoundRobin.tick_resumes (moved : (r.tick frame).2.current ≠ r.current) :
    (r.tick frame).1 = r.saved (r.tick frame).2.current := by
  obtain ⟨current, waiting, saved⟩ := r
  cases waiting with
  | nil => exact absurd rfl moved
  | cons task rest => rfl

end Velox.Lib
