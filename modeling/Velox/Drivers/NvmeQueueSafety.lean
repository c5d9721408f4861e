import Velox.Drivers.NvmeQueueInvariant

namespace Velox

open Lib

namespace NvmeSystem

variable {s t : NvmeSystem} {op : NvmeOp} {answer : NvmeAnswer} {trace : List (NvmeOp × NvmeAnswer)}

/-- A command goes into a slot that the controller is not going to fetch. -/
theorem Valid.unfetched_kept (valid : s.Valid)
    (taken : s.step (.submit caller cmd) = .ok (answer, t)) {slot : Nat}
    (unfetched : s.ctrl.Unfetched s.io.ioQDepth slot) : t.io.iosq slot = s.io.iosq slot := by
  obtain ⟨k, inside, rfl⟩ := unfetched
  rw [valid.submission.doorbell, valid.submission.pointer,
    slot_distance valid.submission.order valid.submission.near] at inside
  rw [step] at taken
  split at taken
  · cases taken
  · split at taken
    · grind [nvmeSubmitIo_refused, Submission.positive, submission]
    · next given io accepted =>
      cases taken
      obtain ⟨-, -, -, next, same⟩ := nvmeSubmitIo_accepted accepted valid.submission.positive
      have near := valid.submission.near
      have apart : (s.ctrl.sqHead + k) % s.io.ioQDepth ≠ s.io.iosqTail := by
        rw [valid.submission.pointer, Nat.mod_add_mod, valid.submission.tail]
        exact slot_ne (by omega) (by omega)
      rw [same]
      grind

theorem Valid.flight_cid (valid : s.Valid) (flight : s.InFlight num sqe) :
    ∃ caller, (s.callers caller).ticket = some (sqe.cid, num) := by
  obtain ⟨caller, waits⟩ := valid.tickets.waited num sqe flight
  exact ⟨caller, by rw [waits]; rfl⟩

theorem Valid.flight_apart (valid : s.Valid) {first : Nat} (flight : s.InFlight first sqe)
    (flight' : s.InFlight second sqe') (same : sqe.cid = sqe'.cid) : first = second := by
  obtain ⟨caller, held⟩ := valid.flight_cid flight
  obtain ⟨caller', held'⟩ := valid.flight_cid flight'
  rw [← same] at held'
  rw [valid.tickets.apart caller caller' _ _ _ held held', held'] at held
  cases held
  rfl

theorem Valid.poll_ended (valid : s.Valid) (taken : s.step .pollPass = .ok (.pollEnded, t)) :
    s.taken = s.posted.map (·.cqe) := by
  rw [step] at taken
  split at taken
  · split at taken
    · next ended =>
      have all : ¬ s.taken.length < s.posted.length :=
        fun fewer => nvmePollPass_none ended ((valid.completion.phase_iff valid.submission.positive).mpr fewer)
      have whole := valid.completion.taken
      rwa [List.take_of_length_le (by rw [entries_length]; omega)] at whole
    · cases taken
  · cases taken

/-- While a poll holds the lock nothing is submitted, and each pass consumes one entry. -/
theorem poll_step (polling : s.polling = true) (taken : s.step op = .ok (answer, t)) (goes : answer ≠ .pollEnded) :
    t.polling = true ∧ t.submitted = s.submitted ∧
      t.taken.length = s.taken.length + if op = .pollPass then 1 else 0 := by
  cases op with
  | submit =>
    rw [step, if_pos (.inl polling)] at taken
    cases taken
  | pollStart =>
    rw [step, if_pos polling] at taken
    cases taken
  | pollPass =>
    rw [step, if_pos polling] at taken
    grind
  | waitTest =>
    rw [step] at taken
    split at taken
    · split at taken <;> cases taken <;> exact ⟨polling, rfl, rfl⟩
    · cases taken
  | waitResult | waitStatus =>
    rw [step] at taken
    split at taken
    · cases taken
      exact ⟨polling, rfl, rfl⟩
    · cases taken
  | waitRelease =>
    rw [step] at taken
    grind
  | fetch =>
    rw [step] at taken
    grind
  | post =>
    rw [step] at taken
    grind

/-- The passes of the poll loop in a trace. -/
def passes (trace : List (NvmeOp × NvmeAnswer)) : Nat := trace.countP fun event => event.1 = .pollPass

theorem poll_run (polling : s.polling = true) (run : Steps step s trace t)
    (goes : ∀ event ∈ trace, event.2 ≠ .pollEnded) :
    t.polling = true ∧ t.submitted = s.submitted ∧ t.taken.length = s.taken.length + passes trace := by
  induction run with
  | done => exact ⟨polling, rfl, rfl⟩
  | more taken _ ih =>
    obtain ⟨still, submitted, length⟩ := poll_step polling taken (goes _ List.mem_cons_self)
    obtain ⟨still', submitted', length'⟩ := ih still fun event member => goes event (List.mem_cons_of_mem _ member)
    rw [length', length, passes, passes, List.countP_cons]
    grind

theorem Valid.taken_le (valid : s.Valid) : s.taken.length ≤ s.submitted.length := by
  have whole := valid.numbering.once.length_eq
  rw [List.length_append, List.length_map, List.length_map, List.length_range] at whole
  have order := valid.completion.order
  have order' := valid.submission.order
  omega

/-- A poll goes through at most as many passes as there are commands in flight. -/
theorem Valid.poll_bound (valid : s.Valid) (polling : s.polling = true) (run : Steps step s trace t)
    (goes : ∀ event ∈ trace, event.2 ≠ .pollEnded) : passes trace ≤ s.submitted.length - s.taken.length := by
  obtain ⟨-, submitted, length⟩ := poll_run polling run goes
  grind [taken_le, run_valid]

theorem poll_goes_on (polling : s.polling = true) : ∃ answer t, s.step .pollPass = .ok (answer, t) := by
  rw [step, if_pos polling]
  split
  · exact ⟨_, _, rfl⟩
  · exact ⟨_, _, rfl⟩

theorem Valid.returned (valid : s.Valid) {cid result : Nat}
    (taken : s.step (.waitRelease caller) = .ok (.returned cid num result status, t)) :
    (s.callers caller).ticket = some (cid, num) ∧ ∃ post ∈ s.posted, post.num = num ∧
      result = post.cqe.dw0 ∧ status = post.cqe.status >>> 1 ∧
        ∀ other ∈ s.posted, other.num = num → other = post := by
  rw [step] at taken
  split at taken
  · next held =>
    split at taken
    · cases taken
    · cases taken
      have mine : (s.callers caller).ticket = some (cid, num) := by rw [held]; rfl
      have agrees := valid.tickets.agrees caller cid num mine
      rw [held] at agrees
      obtain ⟨done, rfl, rfl⟩ := agrees
      obtain ⟨post, member, answers, result, status⟩ := (valid.tickets.ticket caller cid num mine).settled done
      refine ⟨mine, post, List.mem_of_mem_take member, answers, result, status, fun other there same => ?_⟩
      exact List.inj_on_of_nodup_map valid.numbering.nodup there (List.mem_of_mem_take member) (same.trans answers.symm)
  · cases taken

/-- A caller holds a ticket since its last accepted command. -/
def Traced (trace : List (NvmeOp × NvmeAnswer)) (s : NvmeSystem) : Prop :=
  ∀ caller cid num, (s.callers caller).ticket = some (cid, num) → ∃ before cmd after,
    trace = before ++ (.submit caller cmd, .accepted cid num) :: after ∧
      s.submitted[num]? = some (cmd.withCid cid) ∧ ∀ event ∈ after, event.1 ≠ .waitRelease caller

/-- A step gives one new ticket, to a caller whose command was accepted, or leaves tickets where
they are or takes back the one of a caller that returns. -/
theorem callers_step (taken : s.step op = .ok (answer, t)) :
    (∃ caller cmd cid, op = .submit caller cmd ∧ answer = .accepted cid s.submitted.length ∧
      t.callers = Function.update s.callers caller (.waiting cid s.submitted.length) ∧
      t.submitted = s.submitted ++ [cmd.withCid cid]) ∨
    t.submitted = s.submitted ∧ ∀ {caller ticket}, (t.callers caller).ticket = some ticket →
      (s.callers caller).ticket = some ticket ∧ op ≠ .waitRelease caller := by
  cases op with
  | submit caller cmd =>
    rw [step] at taken
    grind
  | pollStart =>
    rw [step] at taken
    grind
  | pollPass =>
    rw [step] at taken
    grind
  | waitTest =>
    rw [step] at taken
    split at taken
    · next waits =>
      split at taken
      · cases taken
        exact .inr ⟨rfl, fun held => ⟨(ticket_setCaller (by rw [waits]; rfl)).symm.trans held, by simp⟩⟩
      grind
    · cases taken
  | waitResult | waitStatus =>
    rw [step] at taken
    split at taken
    · next waits =>
      cases taken
      exact .inr ⟨rfl, fun held => ⟨(ticket_setCaller (by rw [waits]; rfl)).symm.trans held, by simp⟩⟩
    · cases taken
  | waitRelease caller =>
    rw [step] at taken
    split at taken
    · split at taken
      · cases taken
      · cases taken
        refine .inr ⟨rfl, fun {holder} _ held => ?_⟩
        by_cases self : holder = caller
        · have idle : ((s.setCaller caller .idle).callers holder).ticket = none := by rw [self, setCaller_self]; rfl
          grind
        · refine ⟨(congrArg NvmeCaller.ticket (setCaller_other self)).symm.trans held, fun same => self ?_⟩
          cases same
          rfl
    · cases taken
  | fetch =>
    rw [step] at taken
    grind
  | post =>
    rw [step] at taken
    grind

theorem Traced.step (traced : Traced trace s) (taken : s.step op = .ok (answer, t)) :
    Traced (trace ++ [(op, answer)]) t := by
  intro caller cid num held
  -- A ticket that was there already is traced to where it was traced before.
  have older : (s.callers caller).ticket = some (cid, num) → op ≠ .waitRelease caller →
      (∀ sqe, s.submitted[num]? = some sqe → t.submitted[num]? = some sqe) → ∃ before cmd after,
      trace ++ [(op, answer)] = before ++ (.submit caller cmd, .accepted cid num) :: after ∧
        t.submitted[num]? = some (cmd.withCid cid) ∧ ∀ event ∈ after, event.1 ≠ .waitRelease caller := by
    intro held other kept
    obtain ⟨before, cmd, after, rfl, there, still⟩ := traced caller cid num held
    grind
  rcases callers_step taken with ⟨submitter, cmd, given, rfl, rfl, callers, submitted⟩ | ⟨submitted, kept⟩
  · rw [callers] at held
    by_cases self : caller = submitter
    · subst self
      rw [Function.update_self] at held
      cases held
      grind
    grind
  grind

theorem run_traced {depth : Nat} (run : Steps NvmeSystem.step (start depth nextIoCid) trace s) : Traced trace s := by
  have initial : Traced [] (start depth nextIoCid) := fun _ _ _ held => absurd held nofun
  exact run.invariant_trace Traced (fun traced taken => traced.step taken) initial

end NvmeSystem

theorem nvmeInitDepth_ge {depth : Nat} (sized : nvmeInitDepth mqes = some depth) : 2 ≤ depth := by
  obtain ⟨enough, same⟩ := Option.ite_none_left_eq_some.mp sized
  grind

open NvmeSystem in
/-- The queue pair of any depth that `nvme_init` settles on, in every state that any
interleaving of submissions, polls, waits and the controller's work leads to. -/
theorem nvme_queue_protocol {mqes depth nextIoCid : Nat} (sized : nvmeInitDepth mqes = some depth)
    {trace : List (NvmeOp × NvmeAnswer)} {s : NvmeSystem}
    (run : Steps NvmeSystem.step (start depth nextIoCid) trace s) :
    -- A submission overwrites no slot that is still to be fetched, and the controller works on
    -- the commands as they were submitted.
    (∀ caller cmd answer t, s.step (.submit caller cmd) = .ok (answer, t) →
      ∀ slot, s.ctrl.Unfetched s.io.ioQDepth slot → t.io.iosq slot = s.io.iosq slot) ∧
    (∀ work ∈ s.ctrl.accepted, s.submitted[work.1]? = some work.2) ∧
    -- The ids in flight are distinct and below the depth.
    (∀ num sqe, s.InFlight num sqe → sqe.cid < s.io.ioQDepth) ∧
    (∀ num num' sqe sqe', s.InFlight num sqe → s.InFlight num' sqe' → sqe.cid = sqe'.cid → num = num') ∧
    -- What polls have consumed is what was posted so far, in order and once; a poll that ends has
    -- left nothing; and it ends.
    s.taken = (s.posted.map (·.cqe)).take s.taken.length ∧
    (∀ t, s.step .pollPass = .ok (.pollEnded, t) → s.taken = s.posted.map (·.cqe)) ∧
    (s.polling = true → (∃ answer t, s.step .pollPass = .ok (answer, t)) ∧
      ∀ more t, Steps NvmeSystem.step s more t → (∀ event ∈ more, event.2 ≠ .pollEnded) →
        passes more ≤ s.submitted.length - s.taken.length) ∧
    -- A wait returns the one answer to the command that its caller submitted last.
    ∀ caller cid num result status t,
      s.step (.waitRelease caller) = .ok (.returned cid num result status, t) →
      (∃ before cmd after, trace = before ++ (.submit caller cmd, .accepted cid num) :: after ∧
        s.submitted[num]? = some (cmd.withCid cid) ∧ ∀ event ∈ after, event.1 ≠ .waitRelease caller) ∧
      ∃ post ∈ s.posted, post.num = num ∧ result = post.cqe.dw0 ∧ status = post.cqe.status >>> 1 ∧
        ∀ other ∈ s.posted, other.num = num → other = post := by
  have valid := run_valid (start_valid (nvmeInitDepth_ge sized)) run
  refine ⟨fun caller cmd answer t taken slot => valid.unfetched_kept taken, valid.numbering.accepted,
    fun num sqe flight => ?_, fun num num' sqe sqe' => valid.flight_apart, valid.completion.taken,
    fun t taken => valid.poll_ended taken, fun polling => ⟨poll_goes_on polling, fun more t => valid.poll_bound polling⟩,
    fun caller cid num result status t taken => ?_⟩
  · obtain ⟨caller, held⟩ := valid.flight_cid flight
    exact (valid.tickets.ticket caller _ num held).below
  · obtain ⟨held, answered⟩ := valid.returned taken
    exact ⟨run_traced run caller cid num held, answered⟩

/-- One read, answered with status 5 and result 7. -/
def oneCommand : List (NvmeOp × NvmeAnswer) :=
  [(.submit 0 { cdw0 := 2 }, .accepted 0 0), (.fetch, .quiet), (.post 0 5 7, .quiet), (.pollStart, .quiet),
    (.pollPass, .took ⟨7, 1, 0, 11⟩), (.pollPass, .pollEnded), (.waitTest 0, .quiet), (.waitResult 0, .quiet),
    (.waitStatus 0, .quiet)]

theorem nvme_queue_protocol_one : ∃ s t, Steps NvmeSystem.step (NvmeSystem.start 2 0) oneCommand s ∧
    s.step (.waitRelease 0) = .ok (.returned 0 0 7 5, t) ∧
      ∃ post ∈ s.posted, post.num = 0 ∧ 7 = post.cqe.dw0 ∧ 5 = post.cqe.status >>> 1 := by
  have whole : ∃ t, Steps NvmeSystem.step (NvmeSystem.start 2 0)
      (oneCommand ++ [(.waitRelease 0, .returned 0 0 7 5)]) t := Steps.exists_of_replay (by decide +kernel)
  obtain ⟨t, run⟩ := whole
  obtain ⟨s, before, after⟩ := run.split
  cases after with
  | more taken rest =>
    obtain ⟨-, -, -, -, -, -, -, returns⟩ := nvme_queue_protocol (show nvmeInitDepth 1 = some 2 by decide) before
    grind

end Velox
