import Velox.Lib.Ring
import Velox.Lib.Runs

/-! The NVMe I/O queue pair: `nvme_submit_io`, `nvme_poll_completions` and `nvme_wait_cid` of
any number of callers, against a controller that works on the same two rings. -/

namespace Velox

structure NvmeSqe where
  cdw0 : Nat
  nsid : Nat := 0
  mptr : Nat := 0
  prp1 : Nat := 0
  prp2 : Nat := 0
  cdw10 : Nat := 0
  cdw11 : Nat := 0
  cdw12 : Nat := 0
  cdw13 : Nat := 0
  cdw14 : Nat := 0
  cdw15 : Nat := 0
  deriving DecidableEq, Repr

/-- The command id in the upper half of the first word. -/
def NvmeSqe.cid (sqe : NvmeSqe) : Nat := sqe.cdw0 >>> 16

/-- `cmd->cdw0 |= ((uint32_t)cid << 16)` -/
def NvmeSqe.withCid (cmd : NvmeSqe) (cid : Nat) : NvmeSqe := { cmd with cdw0 := cmd.cdw0 ||| cid <<< 16 }

/-- The lowest bit of the status is the phase tag. -/
structure NvmeCqe where
  dw0 : Nat
  sqHead : Nat
  cid : Nat
  status : Nat
  deriving DecidableEq, Repr

def NvmeCqe.phase (cqe : NvmeCqe) : Nat := cqe.status % 2

structure NvmeCmdState where
  inUse : Bool := false
  done : Bool := false
  status : Nat := 0
  result : Nat := 0
  deriving DecidableEq, Repr

/-- The I/O half of `g_nvme`, the two rings and `g_io_cmd_state`. -/
structure NvmeIo where
  ioQDepth : Nat
  iosqTail : Nat
  iosqHead : Nat
  iocqHead : Nat
  iocqPhase : Nat
  nextIoCid : Nat
  iosq : Nat → NvmeSqe
  iocq : Nat → NvmeCqe
  ioCmdState : Nat → NvmeCmdState

def nvmeIoQueueDepth : Nat := 64

/-- The depth `nvme_init` settles on for a controller whose CAP.MQES is given; `none` is "IO
queue depth too small". -/
def nvmeInitDepth (mqes : Nat) : Option Nat :=
  let maxHw := (mqes + 1) % 2 ^ 16
  let maxSq := 4096 / 64
  let maxCq := 4096 / 16
  let ioDepth := nvmeIoQueueDepth
  let ioDepth := if ioDepth > maxHw then maxHw else ioDepth
  let ioDepth := if ioDepth > maxSq then maxSq else ioDepth
  let ioDepth := if ioDepth > maxCq then maxCq else ioDepth
  if ioDepth < 2 then none else some ioDepth

/-- The queues as `nvme_init` leaves them. It does not set `next_io_cid`. -/
def nvmeInitIo (ioDepth nextIoCid : Nat) : NvmeIo where
  ioQDepth := ioDepth
  iosqTail := 0
  iosqHead := 0
  iocqHead := 0
  iocqPhase := 1
  nextIoCid := nextIoCid
  iosq := fun _ => { cdw0 := 0 }
  iocq := fun _ => ⟨0, 0, 0, 0⟩
  ioCmdState := fun _ => {}

def NvmeIo.setCmdState (q : NvmeIo) (cid : Nat) (state : NvmeCmdState) : NvmeIo :=
  { q with ioCmdState := Function.update q.ioCmdState cid state }

/-- The first free id from `next_io_cid` on. -/
def nvmeAllocCid (q : NvmeIo) : Option (Nat × NvmeIo) :=
  let candidates := (List.range q.ioQDepth).map fun i => (q.nextIoCid + i) % q.ioQDepth
  match candidates.find? fun cid => !(q.ioCmdState cid).inUse with
  | none => none
  | some cid => some (cid, { q.setCmdState cid { inUse := true } with nextIoCid := (cid + 1) % q.ioQDepth })

def nvmeReleaseCid (q : NvmeIo) (cid : Nat) : NvmeIo :=
  if cid ≥ q.ioQDepth then q
  else q.setCmdState cid { q.ioCmdState cid with inUse := false, done := false }

/-- The doorbell is written with the new tail when a command was accepted. -/
def nvmeSubmitIo (q : NvmeIo) (cmd : NvmeSqe) : Option Nat × NvmeIo :=
  match nvmeAllocCid q with
  | none => (none, q)
  | some (cid, q) =>
    let tail := q.iosqTail
    let nextTail := (tail + 1) % q.ioQDepth
    if nextTail = q.iosqHead then (none, nvmeReleaseCid q cid)
    else (some cid, { q with iosq := Function.update q.iosq tail (cmd.withCid cid), iosqTail := nextTail })

/-- One pass of the loop of `nvme_poll_completions`: `none` leaves it. -/
def nvmePollPass (q : NvmeIo) : Option (NvmeCqe × NvmeIo) :=
  let cqe := q.iocq q.iocqHead
  if cqe.phase ≠ q.iocqPhase then none
  else
    let q' := if cqe.cid < q.ioQDepth then
        q.setCmdState cqe.cid
          { q.ioCmdState cqe.cid with status := cqe.status >>> 1, result := cqe.dw0, done := true }
      else q
    let head := q.iocqHead + 1
    let wraps := head = q.ioQDepth
    some (cqe, { q' with
      iosqHead := cqe.sqHead
      iocqHead := if wraps then 0 else head
      iocqPhase := if wraps then q.iocqPhase ^^^ 1 else q.iocqPhase })

/-- The controller's side: its doorbell, its fetch pointer, the commands it has fetched and not
completed, and where it posts next. A command carries its number in the order of fetching. -/
structure NvmeController where
  sqTail : Nat
  sqHead : Nat
  accepted : List (Nat × NvmeSqe)
  cqTail : Nat
  cqPhase : Nat

/-- The submission slots between the fetch pointer and the doorbell. -/
def NvmeController.Unfetched (ctrl : NvmeController) (depth slot : Nat) : Prop :=
  ∃ k < (ctrl.sqTail + depth - ctrl.sqHead) % depth, slot = (ctrl.sqHead + k) % depth

/-- Where a caller is: between calls, in the loop of `nvme_wait_cid`, or after it with what it
has read so far. The number is that of its command in the order of submission. -/
inductive NvmeCaller where
  | idle
  | waiting (cid num : Nat)
  | finished (cid num : Nat)
  | readResult (cid num result : Nat)
  | readStatus (cid num result status : Nat)
  deriving DecidableEq, Repr

/-- A completion entry with the command it answers and the number of commands fetched then. -/
structure NvmePosted where
  num : Nat
  fetched : Nat
  cqe : NvmeCqe
  deriving DecidableEq, Repr

/-- `polling` says that a call of `nvme_poll_completions` is in its loop and holds `io_lock`.
The lists are what was submitted, posted and consumed since the start, in order. -/
structure NvmeSystem where
  io : NvmeIo
  ctrl : NvmeController
  polling : Bool
  callers : Nat → NvmeCaller
  submitted : List NvmeSqe
  fetched : Nat
  posted : List NvmePosted
  taken : List NvmeCqe

inductive NvmeOp where
  | submit (caller : Nat) (cmd : NvmeSqe)
  | pollStart
  | pollPass
  | waitTest (caller : Nat)
  | waitResult (caller : Nat)
  | waitStatus (caller : Nat)
  | waitRelease (caller : Nat)
  | fetch
  | post (index status result : Nat)
  deriving DecidableEq, Repr

inductive NvmeAnswer where
  | quiet
  | refused
  | accepted (cid num : Nat)
  | took (cqe : NvmeCqe)
  | pollEnded
  | returned (cid num result status : Nat)
  deriving DecidableEq, Repr

/-- The step cannot be taken in this state. -/
inductive NvmeBlocked where
  | blocked

namespace NvmeSystem

def setCaller (s : NvmeSystem) (caller : Nat) (state : NvmeCaller) : NvmeSystem :=
  { s with callers := Function.update s.callers caller state }

/-- The steps between which calls and the controller interleave. What runs under `io_lock`
without reading the rings is one step; a poll is one step for each pass of its loop, and
nothing else that needs the lock runs until it ends. A poll is started by a waiting caller, by
another thread or by the interrupt handler alike. -/
def step (s : NvmeSystem) : NvmeOp → Except NvmeBlocked (NvmeAnswer × NvmeSystem)
  | .submit caller cmd =>
    -- The callers of `nvme_submit_io` pass an opcode in `cdw0` and nothing above it.
    if s.polling = true ∨ s.callers caller ≠ .idle ∨ 2 ^ 16 ≤ cmd.cdw0 then .error .blocked
    else match nvmeSubmitIo s.io cmd with
      | (none, io) => .ok (.refused, { s with io })
      | (some cid, io) => .ok (.accepted cid s.submitted.length, { s with
          io
          ctrl := { s.ctrl with sqTail := io.iosqTail }
          callers := Function.update s.callers caller (.waiting cid s.submitted.length)
          submitted := s.submitted ++ [cmd.withCid cid] })
  | .pollStart => if s.polling then .error .blocked else .ok (.quiet, { s with polling := true })
  | .pollPass =>
    if s.polling then
      match nvmePollPass s.io with
      | none => .ok (.pollEnded, { s with polling := false })
      | some (cqe, io) => .ok (.took cqe, { s with io, taken := s.taken ++ [cqe] })
    else .error .blocked
  | .waitTest caller => match s.callers caller with
    | .waiting cid num =>
      if (s.io.ioCmdState cid).done then .ok (.quiet, s.setCaller caller (.finished cid num))
      else .ok (.quiet, s)
    | _ => .error .blocked
  | .waitResult caller => match s.callers caller with
    | .finished cid num =>
      .ok (.quiet, s.setCaller caller (.readResult cid num (s.io.ioCmdState cid).result))
    | _ => .error .blocked
  | .waitStatus caller => match s.callers caller with
    | .readResult cid num result =>
      .ok (.quiet, s.setCaller caller (.readStatus cid num result (s.io.ioCmdState cid).status))
    | _ => .error .blocked
  | .waitRelease caller => match s.callers caller with
    | .readStatus cid num result status =>
      if s.polling then .error .blocked
      else .ok (.returned cid num result status, { s.setCaller caller .idle with io := nvmeReleaseCid s.io cid })
    | _ => .error .blocked
  | .fetch =>
    if s.ctrl.sqHead = s.ctrl.sqTail then .error .blocked
    else .ok (.quiet, { s with
      ctrl := { s.ctrl with
        sqHead := (s.ctrl.sqHead + 1) % s.io.ioQDepth
        accepted := s.ctrl.accepted ++ [(s.fetched, s.io.iosq s.ctrl.sqHead)] }
      fetched := s.fetched + 1 })
  | .post index status result => match s.ctrl.accepted[index]? with
    | none => .error .blocked
    | some (num, sqe) =>
      -- An entry that has not been consumed is not overwritten.
      if s.posted.length < s.taken.length + s.io.ioQDepth ∧ status < 2 ^ 15 then
        let cqe : NvmeCqe := ⟨result, s.ctrl.sqHead, sqe.cid, 2 * status + s.ctrl.cqPhase⟩
        let next := s.ctrl.cqTail + 1
        let wraps := next = s.io.ioQDepth
        .ok (.quiet, { s with
          io := { s.io with iocq := Function.update s.io.iocq s.ctrl.cqTail cqe }
          ctrl := { s.ctrl with
            accepted := s.ctrl.accepted.eraseIdx index
            cqTail := if wraps then 0 else next
            cqPhase := if wraps then s.ctrl.cqPhase ^^^ 1 else s.ctrl.cqPhase }
          posted := s.posted ++ [⟨num, s.fetched, cqe⟩] })
      else .error .blocked

/-- After `nvme_init`: both queues empty, on both sides. -/
def start (depth nextIoCid : Nat) : NvmeSystem where
  io := nvmeInitIo depth nextIoCid
  ctrl := ⟨0, 0, [], 0, 1⟩
  polling := false
  callers := fun _ => .idle
  submitted := []
  fetched := 0
  posted := []
  taken := []

/-- The completions that have been consumed. -/
def consumed (s : NvmeSystem) : List NvmePosted := s.posted.take s.taken.length

/-- A command that was submitted and whose completion has not been consumed. -/
def InFlight (s : NvmeSystem) (num : Nat) (sqe : NvmeSqe) : Prop :=
  s.submitted[num]? = some sqe ∧ ∀ post ∈ s.consumed, post.num ≠ num

end NvmeSystem

end Velox
