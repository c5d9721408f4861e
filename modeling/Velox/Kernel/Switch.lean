import Velox.Kernel.Sched
import Velox.Kernel.SchedSafety
import Velox.Lib.WordStack

/-! How `arch/x86_64/idt.S` saves and restores the registers of a task, and what becomes of
the frame from which `sched_spawn` has a task start. -/

namespace Velox

open Lib (wordAt HoldsWords)

variable {other : Reg}

inductive Reg where
  | rax | rbx | rcx | rdx | rsi | rdi | rbp | rsp
  | r8 | r9 | r10 | r11 | r12 | r13 | r14 | r15
  | rip | cs | rflags | ss
deriving DecidableEq

/-- The registers of a processor, the memory by words, and the words that were read. -/
structure Cpu where
  regs : Reg → Nat
  mem : Nat → Nat
  reads : List Nat

inductive Instr where
  | push (reg : Reg)
  | pushImm (word : Nat)
  | pop (reg : Reg)
  | addRsp (bytes : Nat)
  | iretq

def Cpu.set (c : Cpu) (reg : Reg) (value : Nat) : Cpu := { c with regs := Function.update c.regs reg value }

@[simp] theorem Cpu.set_self (c : Cpu) (reg : Reg) (value : Nat) : (c.set reg value).regs reg = value :=
  Function.update_self ..

theorem Cpu.set_other (c : Cpu) (apart : other ≠ reg) (value : Nat) :
    (c.set reg value).regs other = c.regs other :=
  Function.update_of_ne apart ..

def Cpu.push (c : Cpu) (word : Nat) : Cpu :=
  { c.set .rsp (Lib.pushWord (c.regs .rsp, c.mem) word).1 with mem := (Lib.pushWord (c.regs .rsp, c.mem) word).2 }

/-- A word that is taken from the stack into a register other than the stack pointer. -/
def Cpu.pop (c : Cpu) (reg : Reg) : Cpu :=
  { (c.set reg (c.mem (c.regs .rsp))).set .rsp (wordAt (c.regs .rsp) 1) with reads := c.regs .rsp :: c.reads }

/-- In long mode `iretq` takes five words, with the stack pointer and the stack segment, from
whatever level it returns. -/
def Cpu.iretq (c : Cpu) : Cpu :=
  let word (i : Nat) : Nat := c.mem (wordAt (c.regs .rsp) i)
  { ((((c.set .rip (word 0)).set .cs (word 1)).set .rflags (word 2)).set .rsp (word 3)).set .ss (word 4) with
    reads := (List.range 5).map (wordAt (c.regs .rsp)) ++ c.reads }

def Cpu.exec (c : Cpu) : Instr → Cpu
  | .push reg => c.push (c.regs reg)
  | .pushImm word => c.push word
  | .pop reg => c.pop reg
  | .addRsp bytes => c.set .rsp ((c.regs .rsp + bytes) % 2 ^ 64)
  | .iretq => c.iretq

def Cpu.run (c : Cpu) (code : List Instr) : Cpu := code.foldl Cpu.exec c

theorem Cpu.run_append (c : Cpu) (first second : List Instr) : c.run (first ++ second) = (c.run first).run second :=
  List.foldl_append

/-- The exceptions for which the processor pushes an error code, and `isr_err` does not. -/
def hasErrorCode (vector : Nat) : Bool := vector ∈ [8, 10, 11, 12, 13, 14, 17, 21, 29, 30]

/-- What the processor does in long mode before the handler: it aligns the stack and pushes five
words, and an error code for some exceptions. -/
def Cpu.interrupt (c : Cpu) (vector errorCode : Nat) : Cpu :=
  let aligned := c.set .rsp (c.regs .rsp / 16 * 16)
  let c := [c.regs .ss, c.regs .rsp, c.regs .rflags, c.regs .cs, c.regs .rip].foldl Cpu.push aligned
  if hasErrorCode vector then c.push errorCode else c

def isrStub (vector : Nat) : List Instr := if hasErrorCode vector then [.pushImm vector] else [.pushImm 0, .pushImm vector]

def isrCommonStubSave : List Instr := [
  .push .rax, .push .rbx, .push .rcx, .push .rdx, .push .rsi, .push .rdi, .push .rbp, .push .r8,
  .push .r9, .push .r10, .push .r11, .push .r12, .push .r13, .push .r14, .push .r15]

def isrCommonStubRestore : List Instr := [
  .pop .r15, .pop .r14, .pop .r13, .pop .r12, .pop .r11, .pop .r10, .pop .r9, .pop .r8,
  .pop .rbp, .pop .rdi, .pop .rsi, .pop .rdx, .pop .rcx, .pop .rbx, .pop .rax,
  .addRsp 16, .iretq]

/-- From the interrupt to the call of `isr_handler`, which is given the stack pointer. -/
def Cpu.save (c : Cpu) (vector errorCode : Nat) : Cpu :=
  (c.interrupt vector errorCode).run (isrStub vector ++ isrCommonStubSave)

/-- Where `isr_handler` has returned a frame, and nothing was read from it yet. -/
def Cpu.onFrame (c : Cpu) (frame : Nat) : Cpu where
  regs := Function.update c.regs .rsp (frame % 2 ^ 64)
  mem := c.mem
  reads := []

def Cpu.restore (c : Cpu) (frame : Nat) : Cpu := (c.onFrame frame).run isrCommonStubRestore

/-- Where the registers are in a frame; the vector and the error code are passed over. -/
def frameLayout : List (Option Reg) := [
  some .r15, some .r14, some .r13, some .r12, some .r11, some .r10, some .r9, some .r8,
  some .rbp, some .rdi, some .rsi, some .rdx, some .rcx, some .rbx, some .rax,
  none, none,
  some .rip, some .cs, some .rflags, some .rsp, some .ss]

section Restore

variable {c : Cpu} {reg : Reg} {frame sp k : Nat}

theorem pop_rsp (reg : Reg) (here : c.regs .rsp = wordAt sp k) : (c.pop reg).regs .rsp = wordAt sp (k + 1) := by
  rw [← Lib.wordAt_wordAt, ← here]
  show ((c.set reg (c.mem (c.regs .rsp))).set .rsp (wordAt (c.regs .rsp) 1)).regs .rsp = _
  exact Cpu.set_self ..

theorem pop_self (data : reg ≠ .rsp) : (c.pop reg).regs reg = c.mem (c.regs .rsp) :=
  (Cpu.set_other _ data _).trans (Cpu.set_self ..)

theorem pop_other (apart : other ≠ reg) (data : other ≠ .rsp) : (c.pop reg).regs other = c.regs other :=
  (Cpu.set_other _ data _).trans (Cpu.set_other _ apart _)

/-- Registers are taken from the stack, from the word `k` above `sp` on. -/
structure Popped (c : Cpu) (sp k : Nat) (regs : List Reg) (d : Cpu) : Prop where
  mem : d.mem = c.mem
  rsp : d.regs .rsp = wordAt sp (k + regs.length)
  reads : ∀ address, address ∈ d.reads ↔ address ∈ c.reads ∨ ∃ i < regs.length, address = wordAt sp (k + i)
  values : ∀ i reg, regs[i]? = some reg → d.regs reg = c.mem (wordAt sp (k + i))
  others : ∀ reg, reg ∉ regs → reg ≠ .rsp → d.regs reg = c.regs reg

theorem run_pops (away : .rsp ∉ regs) (distinct : regs.Nodup) (here : c.regs .rsp = wordAt sp k) :
    Popped c sp k regs (c.run (regs.map .pop)) := by
  induction regs generalizing c k with
  | nil => exact ⟨rfl, here, fun address => by simp [Cpu.run], nofun, fun _ _ _ => rfl⟩
  | cons first rest ih =>
    obtain ⟨fresh, distinct⟩ := List.nodup_cons.mp distinct
    have data : first ≠ .rsp := fun same => away (same ▸ List.mem_cons_self)
    have rest' := ih (fun member => away (List.mem_cons_of_mem _ member)) distinct (pop_rsp first here)
    refine ⟨rest'.mem, ?_, fun address => ?_, fun i reg found => ?_, fun reg outside apart => ?_⟩
    · rw [List.length_cons, Nat.add_comm rest.length 1, ← Nat.add_assoc]
      exact rest'.rsp
    · refine (rest'.reads address).trans ?_
      rw [Cpu.pop, here, List.mem_cons, List.length_cons]
      constructor
      · rintro ((rfl | earlier) | ⟨i, below, rfl⟩)
        · exact .inr ⟨0, Nat.succ_pos _, rfl⟩
        · exact .inl earlier
        · exact .inr ⟨i + 1, Nat.succ_lt_succ below, by rw [Nat.add_assoc, Nat.add_comm 1]⟩
      · rintro (earlier | ⟨_ | i, below, rfl⟩)
        · exact .inl (.inr earlier)
        · exact .inl (.inl rfl)
        · exact .inr ⟨i, Nat.lt_of_succ_lt_succ below, by rw [Nat.add_assoc, Nat.add_comm 1]⟩
    · cases i with
      | zero =>
        cases found
        exact (rest'.others first fresh data).trans ((pop_self data).trans (by rw [here, Nat.add_zero]))
      | succ i =>
        refine (rest'.values i reg found).trans ?_
        rw [Nat.add_assoc, Nat.add_comm 1]
        rfl
    · rw [List.mem_cons, not_or] at outside
      exact (rest'.others reg outside.2 apart).trans (pop_other outside.1 apart)

def poppedRegs : List Reg := [.r15, .r14, .r13, .r12, .r11, .r10, .r9, .r8, .rbp, .rdi, .rsi, .rdx, .rcx, .rbx, .rax]

theorem restore_eq (c : Cpu) (frame : Nat) : ∃ d,
    Popped (c.onFrame frame) frame 0 poppedRegs d ∧ c.restore frame = (d.set .rsp (wordAt frame 17)).iretq := by
  have code : isrCommonStubRestore = poppedRegs.map .pop ++ [.addRsp 16, .iretq] := rfl
  have skipped : (wordAt frame 15 + 16) % 2 ^ 64 = wordAt frame 17 := by
    unfold wordAt
    omega
  have start : (c.onFrame frame).regs .rsp = wordAt frame 0 := by
    show Function.update c.regs .rsp (frame % 2 ^ 64) .rsp = wordAt frame 0
    rw [Function.update_self, wordAt, Nat.mul_zero, Nat.add_zero]
  have popped := run_pops (show .rsp ∉ poppedRegs by decide) (by decide) start
  refine ⟨_, popped, ?_⟩
  have top : ((c.onFrame frame).run (poppedRegs.map .pop)).regs .rsp = wordAt frame 15 := popped.rsp
  rw [Cpu.restore, code, Cpu.run_append, ← skipped, ← top]
  rfl

/-- What is read when a frame is restored: its words but for the vector and the error code, and
two words above it. -/
theorem restore_reads (address : Nat) :
    address ∈ (c.restore frame).reads ↔ ∃ i, (i < 15 ∨ 17 ≤ i ∧ i < 22) ∧ address = wordAt frame i := by
  obtain ⟨d, popped, code⟩ := restore_eq c frame
  have reads : (c.restore frame).reads = (List.range 5).map (wordAt (wordAt frame 17)) ++ d.reads := by
    rw [code, Cpu.iretq, Cpu.set_self]
    rfl
  rw [show wordAt (wordAt frame 17) = fun i => wordAt frame (17 + i) from funext (Lib.wordAt_wordAt frame 17)] at reads
  rw [reads, List.mem_append, popped.reads, List.mem_map]
  constructor
  · rintro (⟨i, below, rfl⟩ | no | ⟨i, below, rfl⟩)
    · rw [List.mem_range] at below
      exact ⟨17 + i, by omega, rfl⟩
    · cases no
    · exact ⟨i, .inl below, by rw [Nat.zero_add]⟩
  · rintro ⟨i, low | ⟨above, below⟩, rfl⟩
    · exact .inr (.inr ⟨i, low, by rw [Nat.zero_add]⟩)
    · exact .inl ⟨i - 17, List.mem_range.mpr (by omega), by rw [Nat.add_sub_cancel' above]⟩

/-- The registers after `iretq`, of which it takes five from the stack. -/
theorem iretq_regs (c : Cpu) (reg : Reg) : c.iretq.regs reg = match reg with
      | .rip => c.mem (wordAt (c.regs .rsp) 0)
      | .cs => c.mem (wordAt (c.regs .rsp) 1)
      | .rflags => c.mem (wordAt (c.regs .rsp) 2)
      | .rsp => c.mem (wordAt (c.regs .rsp) 3)
      | .ss => c.mem (wordAt (c.regs .rsp) 4)
      | other => c.regs other := by
  cases reg <;> rfl

theorem restore_reg (placed : frameLayout[i]? = some (some reg)) :
    (c.restore frame).regs reg = c.mem (wordAt frame i) := by
  obtain ⟨d, popped, code⟩ := restore_eq c frame
  have mem : (d.set .rsp (wordAt frame 17)).mem = c.mem := popped.mem
  rw [code, iretq_regs, Cpu.set_self, mem]
  simp only [Lib.wordAt_wordAt]
  have below : i < 22 := (List.getElem?_eq_some_iff.mp placed).1
  by_cases low : i < 15
  · have there : poppedRegs[i]? = some reg := by
      have all : ∀ i < 15, frameLayout[i]? = (poppedRegs[i]?).map some := by decide
      rw [all i low] at placed
      cases found : poppedRegs[i]? with
      | none =>
        rw [found] at placed
        cases placed
      | some other =>
        rw [found] at placed
        cases placed
        rfl
    have value := popped.values i reg there
    rw [Nat.zero_add] at value
    have away : reg ∈ poppedRegs := List.mem_of_getElem? there
    have data : reg ≠ .rsp := fun same => absurd (same ▸ away) (by decide)
    have kept : (d.set .rsp (wordAt frame 17)).regs reg = c.mem (wordAt frame i) := (Cpu.set_other d data _).trans value
    revert away kept
    cases reg
    all_goals first | exact fun _ kept => kept | exact fun away => absurd away (by decide)
  · obtain rfl | rfl | rfl | rfl | rfl | rfl | rfl : i = 15 ∨ i = 16 ∨ i = 17 ∨ i = 18 ∨ i = 19 ∨ i = 20 ∨ i = 21 := by omega
    all_goals
      cases placed
    all_goals rfl

end Restore

section Save

variable {c : Cpu}

theorem push_other (data : other ≠ .rsp) (word : Nat) : (c.push word).regs other = c.regs other :=
  Cpu.set_other c data _

theorem foldl_push_other (data : other ≠ .rsp) (words : List Nat) :
    (words.foldl Cpu.push c).regs other = c.regs other := by
  induction words generalizing c with
  | nil => rfl
  | cons word rest ih => exact ih.trans (push_other data word)

theorem push_stack (word : Nat) :
    ((c.push word).regs .rsp, (c.push word).mem) = Lib.pushWord (c.regs .rsp, c.mem) word := by
  have top : (c.push word).regs .rsp = (Lib.pushWord (c.regs .rsp, c.mem) word).1 :=
    c.set_self .rsp (Lib.pushWord (c.regs .rsp, c.mem) word).1
  rw [top, Cpu.push]

theorem foldl_push (words : List Nat) :
    ((words.foldl Cpu.push c).regs .rsp, (words.foldl Cpu.push c).mem) = words.foldl Lib.pushWord (c.regs .rsp, c.mem) := by
  induction words generalizing c with
  | nil => rfl
  | cons word rest ih => rw [List.foldl_cons, List.foldl_cons, ih, push_stack]

theorem run_pushes {regs : List Reg} (away : .rsp ∉ regs) :
    c.run (regs.map .push) = (regs.map c.regs).foldl Cpu.push c := by
  induction regs generalizing c with
  | nil => rfl
  | cons first rest ih =>
    rw [List.mem_cons, not_or] at away
    have kept : rest.map (c.push (c.regs first)).regs = rest.map c.regs :=
      List.map_congr_left fun reg member => push_other (fun same => away.2 (same ▸ member)) _
    refine (ih away.2).trans ?_
    show (rest.map (c.push (c.regs first)).regs).foldl Cpu.push (c.push (c.regs first)) = _
    rw [kept]
    rfl

/-- The words of the interrupt on the stack, from the last one on. -/
def interruptWords (c : Cpu) (vector errorCode : Nat) : List Nat :=
  [vector, if hasErrorCode vector then errorCode else 0, c.regs .rip, c.regs .cs, c.regs .rflags, c.regs .rsp, c.regs .ss]

/-- And those of the registers before them. -/
def savedWords (c : Cpu) (vector errorCode : Nat) : List Nat :=
  poppedRegs.map c.regs ++ interruptWords c vector errorCode

theorem interrupt_run (c : Cpu) (vector errorCode : Nat) : (c.interrupt vector errorCode).run (isrStub vector) =
      (interruptWords c vector errorCode).reverse.foldl Cpu.push (c.set .rsp (c.regs .rsp / 16 * 16)) := by
  cases coded : hasErrorCode vector with
  | true =>
    simp only [Cpu.interrupt, isrStub, interruptWords, coded, if_true, Cpu.run, List.foldl_cons, List.foldl_nil, Cpu.exec,
      List.reverse_cons, List.reverse_nil, List.nil_append, List.cons_append]
  | false =>
    simp only [Cpu.interrupt, isrStub, interruptWords, coded, Bool.false_eq_true, if_false, Cpu.run, List.foldl_cons,
      List.foldl_nil, Cpu.exec, List.reverse_cons, List.reverse_nil, List.nil_append, List.cons_append]

theorem save_eq (c : Cpu) (vector errorCode : Nat) :
    c.save vector errorCode = (savedWords c vector errorCode).reverse.foldl Cpu.push (c.set .rsp (c.regs .rsp / 16 * 16)) := by
  have code : isrCommonStubSave = poppedRegs.reverse.map .push := rfl
  have kept : ∀ words : List Nat, poppedRegs.map (words.foldl Cpu.push (c.set .rsp (c.regs .rsp / 16 * 16))).regs =
      poppedRegs.map c.regs := by
    intro words
    refine List.map_congr_left fun reg member => ?_
    have data : reg ≠ .rsp := fun same => absurd (same ▸ member) (by decide)
    rw [foldl_push_other data, Cpu.set_other c data]
  rw [Cpu.save, Cpu.run_append, interrupt_run, code, run_pushes (by decide), savedWords, List.reverse_append,
    List.foldl_append, List.map_reverse, kept]

theorem save_holds (c : Cpu) (vector errorCode : Nat) :
    HoldsWords (c.save vector errorCode).mem ((c.save vector errorCode).regs .rsp) (savedWords c vector errorCode) := by
  have pushed := Lib.holdsWords_pushed (savedWords c vector errorCode).reverse (by simp [savedWords, interruptWords, poppedRegs])
    ((c.set .rsp (c.regs .rsp / 16 * 16)).regs .rsp, (c.set .rsp (c.regs .rsp / 16 * 16)).mem)
  rw [← foldl_push, List.reverse_reverse, ← save_eq] at pushed
  exact pushed

/-- A frame that the stub has saved gives all registers back, whatever else has changed. -/
theorem restore_saved {d : Cpu}
    (kept : ∀ i < 22, d.mem (wordAt ((c.save vector errorCode).regs .rsp) i) =
      (c.save vector errorCode).mem (wordAt ((c.save vector errorCode).regs .rsp) i)) (reg : Reg) :
    (d.restore ((c.save vector errorCode).regs .rsp)).regs reg = c.regs reg := by
  obtain ⟨i, placed, word⟩ : ∃ i : Nat, frameLayout[i]? = some (some reg) ∧
      (savedWords c vector errorCode)[i]? = some (c.regs reg) :=
    ⟨frameLayout.idxOf (some reg), by cases reg <;> rfl, by cases reg <;> rfl⟩
  rw [restore_reg placed, kept i (List.getElem?_eq_some_iff.mp placed).1]
  exact save_holds c vector errorCode i _ word

end Save

/-- The words of `interrupt_frame` in memory. -/
def InterruptFrame.words (f : InterruptFrame) : List Nat := [
  f.r15, f.r14, f.r13, f.r12, f.r11, f.r10, f.r9, f.r8, f.rbp, f.rdi, f.rsi, f.rdx, f.rcx, f.rbx, f.rax,
  f.vector, f.errorCode, f.rip, f.cs, f.rflags]

section Spawn

variable {env : SchedEnv} {s t : SchedSystem} {entry arg task : Nat} {c : Cpu}

/-- A task that was prepared, with its stack and its frame. -/
theorem schedPrepare_frame (done : schedPrepare env s entry arg = .ok (task, t)) (made : task ≠ 0) :
    (t.sched.task (.heap task)).frame = spawnFrame (t.sched.task (.heap task)).stackBase ∧
      (t.sched.task (.heap task)).stackSize = schedStackSize ∧
      t.sched.frames (t.sched.task (.heap task)).frame =
        { InterruptFrame.zeros with rip := env.trampoline, cs := x86GdtCodeSegment, rflags := 0x202, rdi := entry, rsi := arg } := by
  unfold schedPrepare at done
  split at done
  · cases done
    exact absurd rfl made
  obtain ⟨⟨task', memory₁⟩, -, onward⟩ := Lib.bind_ok done
  dsimp only at onward
  split at onward
  · cases onward
    exact absurd rfl made
  obtain ⟨⟨stack, memory₂⟩, -, onward⟩ := Lib.bind_ok onward
  split at onward
  · obtain ⟨⟨ignored, memory₃⟩, -, onward⟩ := Lib.bind_ok onward
    cases onward
    exact absurd rfl made
  · cases onward
    simp only [Function.update_self, and_self]

/-- A task starts on its own stack: only words of the stack are read, the trampoline gets the
entry and its argument, and the stack pointer is in the stack. -/
structure StartsOnStack (env : SchedEnv) (entry arg : Nat) (task : SchedTask) (started : Cpu) : Prop where
  reads : ∀ address ∈ started.reads, task.stackBase ≤ address ∧ address + 8 ≤ task.stackBase + task.stackSize
  rip : started.regs .rip = env.trampoline
  rdi : started.regs .rdi = entry
  rsi : started.regs .rsi = arg
  rsp : task.stackBase ≤ started.regs .rsp ∧ started.regs .rsp ≤ task.stackBase + task.stackSize

/-- The first word above the stack is where `iretq` finds the stack pointer. -/
theorem spawnFrame_top (stack : Nat) : wordAt (spawnFrame stack) 20 = (stack + schedStackSize) % 2 ^ 64 := by
  simp only [wordAt, spawnFrame, sizeofInterruptFrame, schedStackSize]
  omega

/-- No task that is spawned starts on its own stack: its stack pointer is the word above the
stack. The other registers are as they should be, and a frame that the stub has saved gives back
all of them. -/
theorem spawned_task_starts (done : schedPrepare env s entry arg = .ok (task, t)) (made : task ≠ 0)
    (stored : HoldsWords c.mem (t.sched.task (.heap task)).frame (t.sched.frames (t.sched.task (.heap task)).frame).words) :
    ¬ StartsOnStack env entry arg (t.sched.task (.heap task)) (c.restore (t.sched.task (.heap task)).frame) ∧
      ((c.restore (t.sched.task (.heap task)).frame).regs .rip = env.trampoline ∧
        (c.restore (t.sched.task (.heap task)).frame).regs .rdi = entry ∧
        (c.restore (t.sched.task (.heap task)).frame).regs .rsi = arg ∧
        (c.restore (t.sched.task (.heap task)).frame).regs .rsp =
          c.mem (((t.sched.task (.heap task)).stackBase + schedStackSize) % 2 ^ 64)) ∧
      ∀ (saved d : Cpu) (vector errorCode : Nat),
        (∀ i < 22, d.mem (wordAt ((saved.save vector errorCode).regs .rsp) i) =
          (saved.save vector errorCode).mem (wordAt ((saved.save vector errorCode).regs .rsp) i)) →
        ∀ reg, (d.restore ((saved.save vector errorCode).regs .rsp)).regs reg = saved.regs reg := by
  obtain ⟨frame, size, contents⟩ := schedPrepare_frame done made
  rw [contents] at stored
  have top := spawnFrame_top (t.sched.task (.heap task)).stackBase
  rw [← frame] at top
  refine ⟨fun starts => ?_, ⟨?_, ?_, ?_, ?_⟩, fun saved d vector errorCode kept reg => restore_saved kept reg⟩
  · have inside := starts.reads _ (restore_reads _ |>.mpr ⟨20, .inr ⟨by decide, by decide⟩, rfl⟩)
    have length : schedStackSize = 0x4000 := rfl
    omega
  · rw [restore_reg (show frameLayout[17]? = some (some .rip) from rfl)]
    exact stored 17 _ rfl
  · rw [restore_reg (show frameLayout[9]? = some (some .rdi) from rfl)]
    exact stored 9 _ rfl
  · rw [restore_reg (show frameLayout[10]? = some (some .rsi) from rfl)]
    exact stored 10 _ rfl
  · rw [restore_reg (show frameLayout[20]? = some (some .rsp) from rfl), top]

end Spawn

/-- The tiny machine with a heap in which a block is free. -/
def spawnBefore : SchedSystem where
  sched := schedInit blankSched 2 none
  memory := ⟨⟨⟨tinyPagingReady, [], 0, 0, false⟩, fun _ => ⟨0xFEEBEEFD, 1, 0x1000, 0, 0, 0⟩, 0xFFFFE00000000000, true⟩, [], []⟩
  tasks := []
  prepared := []

def spawnAfter : SchedSystem := (Lib.outcome (0, spawnBefore) (schedPrepare tinySched spawnBefore 0x2000 7)).2

theorem spawnAfter_eq : schedPrepare tinySched spawnBefore 0x2000 7 = .ok (0xFFFFE00000000030, spawnAfter) := by
  have first : (Lib.outcome (0, spawnBefore) (schedPrepare tinySched spawnBefore 0x2000 7)).1 = 0xFFFFE00000000030 := by
    decide +kernel
  rw [Lib.eq_ok_outcome (0, spawnBefore) (show (schedPrepare tinySched spawnBefore 0x2000 7).isOk = true by decide +kernel)]
  exact congrArg Except.ok (Prod.ext first rfl)

def spawnTask : SchedTask := spawnAfter.sched.task (.heap 0xFFFFE00000000030)

/-- The frame of the new task is in memory, and zeros are above its stack. -/
def spawnCpu : Cpu where
  regs := fun _ => 0
  mem := fun address =>
    if spawnTask.frame ≤ address then (spawnAfter.sched.frames spawnTask.frame).words.getD ((address - spawnTask.frame) / 8) 0
    else 0
  reads := []

theorem spawnCpu_stored : HoldsWords spawnCpu.mem spawnTask.frame (spawnAfter.sched.frames spawnTask.frame).words := by
  have all : ∀ i < 20, (spawnAfter.sched.frames spawnTask.frame).words[i]? =
      some (spawnCpu.mem (wordAt spawnTask.frame i)) := by decide +kernel
  intro i word found
  have here := all i (List.getElem?_eq_some_iff.mp found).1
  exact Option.some.inj (here.symm.trans found)

theorem spawned_task_starts_tiny :
    (spawnCpu.restore spawnTask.frame).regs .rip = 0x1000 ∧ (spawnCpu.restore spawnTask.frame).regs .rdi = 0x2000 :=
  have starts := spawned_task_starts spawnAfter_eq (by decide) spawnCpu_stored
  ⟨starts.2.1.1, starts.2.1.2.1⟩

/-- The new task would run with the stack pointer 0, from the word above its stack. -/
theorem spawned_task_off_stack :
    schedPrepare tinySched spawnBefore 0x2000 7 = .ok (0xFFFFE00000000030, spawnAfter) ∧
      HoldsWords spawnCpu.mem spawnTask.frame (spawnAfter.sched.frames spawnTask.frame).words ∧
      spawnTask.stackBase = 0xFFFFFFFF80003000 ∧
      0xFFFFFFFF80007000 ∈ (spawnCpu.restore spawnTask.frame).reads ∧ (spawnCpu.restore spawnTask.frame).regs .rsp = 0 ∧
      ¬ StartsOnStack tinySched 0x2000 7 spawnTask (spawnCpu.restore spawnTask.frame) := by
  have base : spawnTask.stackBase = 0xFFFFFFFF80003000 := by decide +kernel
  have rsp : (spawnCpu.restore spawnTask.frame).regs .rsp = 0 := by decide +kernel
  refine ⟨spawnAfter_eq, spawnCpu_stored, base, by decide +kernel, rsp, fun starts => ?_⟩
  have inside := starts.rsp.1
  rw [base, rsp] at inside
  omega

end Velox
