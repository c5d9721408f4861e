import Velox.Drivers.NvmeQueue
import Mathlib.Data.List.Perm.Basic
import Mathlib.Data.List.Range

namespace Velox

open Lib

section Driver

variable {q q' : NvmeIo} {cid : Nat} {cmd : NvmeSqe} {cqe : NvmeCqe}

theorem withCid_cid (opcode : cmd.cdw0 < 2 ^ 16) : (cmd.withCid cid).cid = cid := by
  show (cmd.cdw0 ||| cid <<< 16) >>> 16 = cid
  rw [Nat.shiftRight_or_distrib, Nat.shiftLeft_shiftRight, Nat.shiftRight_eq_div_pow,
    Nat.div_eq_of_lt opcode, Nat.zero_or]

theorem nvmeAllocCid_some (found : nvmeAllocCid q = some (cid, q')) (positive : 0 < q.ioQDepth) :
    cid < q.ioQDepth ∧ (q.ioCmdState cid).inUse = false ∧
      q' = { q.setCmdState cid { inUse := true } with nextIoCid := (cid + 1) % q.ioQDepth } := by
  unfold nvmeAllocCid at found
  grind [Nat.mod_lt]

theorem nvmeSubmitIo_accepted (accepted : nvmeSubmitIo q cmd = (some cid, q')) (positive : 0 < q.ioQDepth) :
    cid < q.ioQDepth ∧ (q.ioCmdState cid).inUse = false ∧ (q.iosqTail + 1) % q.ioQDepth ≠ q.iosqHead ∧
      ∃ next, q' = { q.setCmdState cid { inUse := true } with
        nextIoCid := next
        iosq := Function.update q.iosq q.iosqTail (cmd.withCid cid)
        iosqTail := (q.iosqTail + 1) % q.ioQDepth } := by
  unfold nvmeSubmitIo at accepted
  split at accepted
  · cases accepted
  · next given q₁ found =>
    obtain ⟨below, free, rfl⟩ := nvmeAllocCid_some found positive
    dsimp only at accepted
    split at accepted
    · cases accepted
    · next room =>
      cases accepted
      exact ⟨below, free, room, _, rfl⟩

theorem nvmeReleaseCid_eq (below : cid < q.ioQDepth) :
    nvmeReleaseCid q cid = q.setCmdState cid { q.ioCmdState cid with inUse := false, done := false } :=
  if_neg (Nat.not_le.mpr below)

/-- A refused command leaves the rings alone, and the ids that are in use. -/
theorem nvmeSubmitIo_refused (refused : nvmeSubmitIo q cmd = (none, q')) (positive : 0 < q.ioQDepth) :
    ∃ states next, q' = { q with ioCmdState := states, nextIoCid := next } ∧
      ∀ cid, (q.ioCmdState cid).inUse = true → states cid = q.ioCmdState cid := by
  unfold nvmeSubmitIo at refused
  split at refused
  · cases refused
    grind
  · next cid q₁ found =>
    obtain ⟨below, free, changed⟩ := nvmeAllocCid_some found positive
    have depth : q₁.ioQDepth = q.ioQDepth := by rw [changed]; rfl
    dsimp only at refused
    split at refused
    · rw [nvmeReleaseCid_eq (depth ▸ below)] at refused
      cases refused
      subst changed
      dsimp only [NvmeIo.setCmdState]
      grind
    · cases refused

theorem nvmePollPass_none (ended : nvmePollPass q = none) : (q.iocq q.iocqHead).phase ≠ q.iocqPhase := by
  unfold nvmePollPass at ended
  grind

theorem nvmePollPass_some (took : nvmePollPass q = some (cqe, q')) (below : (q.iocq q.iocqHead).cid < q.ioQDepth) :
    cqe = q.iocq q.iocqHead ∧ cqe.phase = q.iocqPhase ∧ q' = { q.setCmdState cqe.cid
        { q.ioCmdState cqe.cid with status := cqe.status >>> 1, result := cqe.dw0, done := true } with
      iosqHead := cqe.sqHead
      iocqHead := if q.iocqHead + 1 = q.ioQDepth then 0 else q.iocqHead + 1
      iocqPhase := if q.iocqHead + 1 = q.ioQDepth then q.iocqPhase ^^^ 1 else q.iocqPhase } := by
  unfold nvmePollPass at took
  grind

end Driver

/-- The id and the number that a caller carries. -/
def NvmeCaller.ticket : NvmeCaller → Option (Nat × Nat)
  | .idle => none
  | .waiting cid num | .finished cid num | .readResult cid num _ | .readStatus cid num _ _ => some (cid, num)

/-- What a caller has seen of its command is still there. -/
def NvmeCaller.Agrees : NvmeCaller → NvmeCmdState → Prop
  | .idle, _ | .waiting _ _, _ => True
  | .finished _ _, state => state.done = true
  | .readResult _ _ result, state => state.done = true ∧ result = state.result
  | .readStatus _ _ result status, state => state.done = true ∧ result = state.result ∧ status = state.status

namespace NvmeSystem

/-- The submission ring. `known` is the number of fetched commands that the driver has learnt
of; completions on their way tell it of at least as many. -/
structure Submission (s : NvmeSystem) : Prop where
  depth : 2 ≤ s.io.ioQDepth
  tail : s.io.iosqTail = s.submitted.length % s.io.ioQDepth
  doorbell : s.ctrl.sqTail = s.submitted.length % s.io.ioQDepth
  pointer : s.ctrl.sqHead = s.fetched % s.io.ioQDepth
  order : s.fetched ≤ s.submitted.length
  ring : RingHolds s.io.ioQDepth s.io.iosq s.submitted s.fetched
  known : ∃ known, s.io.iosqHead = known % s.io.ioQDepth ∧ s.submitted.length < known + s.io.ioQDepth ∧
    known ≤ s.fetched ∧ ∀ post ∈ s.posted.drop s.taken.length, known ≤ post.fetched
  heads : ∀ post ∈ s.posted, post.cqe.sqHead = post.fetched % s.io.ioQDepth ∧ post.fetched ≤ s.fetched
  sorted : s.posted.Pairwise fun earlier later => earlier.fetched ≤ later.fetched

def entries (s : NvmeSystem) : List NvmeCqe := s.posted.map (·.cqe)

/-- The completion ring. -/
structure Completion (s : NvmeSystem) : Prop where
  taken : s.taken = s.entries.take s.taken.length
  order : s.taken.length ≤ s.posted.length
  ring : RingHolds s.io.ioQDepth s.io.iocq s.entries s.taken.length
  stale : RingStale s.io.ioQDepth NvmeCqe.phase s.io.iocq s.posted.length s.taken.length
  tags : ∀ i cqe, s.entries[i]? = some cqe → cqe.phase = passTag s.io.ioQDepth i
  head : s.io.iocqHead = s.taken.length % s.io.ioQDepth
  headPhase : s.io.iocqPhase = passTag s.io.ioQDepth s.taken.length
  tail : s.ctrl.cqTail = s.posted.length % s.io.ioQDepth
  tailPhase : s.ctrl.cqPhase = passTag s.io.ioQDepth s.posted.length

/-- Every fetched command is being worked on or was answered once. -/
structure Numbering (s : NvmeSystem) : Prop where
  once : (s.ctrl.accepted.map (·.1) ++ s.posted.map (·.num)).Perm (List.range s.fetched)
  accepted : ∀ work ∈ s.ctrl.accepted, s.submitted[work.1]? = some work.2
  posted : ∀ post ∈ s.posted, ∃ sqe, s.submitted[post.num]? = some sqe ∧ post.cqe.cid = sqe.cid

/-- A command whose caller has not come back yet. -/
structure Ticket (s : NvmeSystem) (cid num : Nat) : Prop where
  below : cid < s.io.ioQDepth
  inUse : (s.io.ioCmdState cid).inUse = true
  named : ∃ sqe, s.submitted[num]? = some sqe ∧ sqe.cid = cid
  settled : (s.io.ioCmdState cid).done = true → ∃ post ∈ s.consumed, post.num = num ∧
    (s.io.ioCmdState cid).result = post.cqe.dw0 ∧ (s.io.ioCmdState cid).status = post.cqe.status >>> 1
  unsettled : (s.io.ioCmdState cid).done = false → ∀ post ∈ s.consumed, post.num ≠ num

/-- The callers and their ids. -/
structure Tickets (s : NvmeSystem) : Prop where
  ticket : ∀ caller cid num, (s.callers caller).ticket = some (cid, num) → s.Ticket cid num
  agrees : ∀ caller cid num, (s.callers caller).ticket = some (cid, num) →
    (s.callers caller).Agrees (s.io.ioCmdState cid)
  apart : ∀ first second cid num num', (s.callers first).ticket = some (cid, num) →
    (s.callers second).ticket = some (cid, num') → first = second
  waited : ∀ num sqe, s.InFlight num sqe → ∃ caller, s.callers caller = .waiting sqe.cid num

structure Valid (s : NvmeSystem) : Prop where
  submission : s.Submission
  completion : s.Completion
  numbering : s.Numbering
  tickets : s.Tickets

theorem start_valid {depth : Nat} (enough : 2 ≤ depth) : (start depth nextIoCid).Valid where
  submission :=
    { depth := enough
      tail := (Nat.zero_mod _).symm
      doorbell := (Nat.zero_mod _).symm
      pointer := (Nat.zero_mod _).symm
      order := le_rfl
      ring := RingHolds.empty
      known := ⟨0, (Nat.zero_mod _).symm, show 0 < 0 + depth by omega, le_rfl, nofun⟩
      heads := nofun
      sorted := .nil }
  completion :=
    { taken := rfl
      order := le_rfl
      ring := RingHolds.empty
      stale := by
        intro i _ near
        have first : passTag depth i = 1 := by
          rw [passTag, Nat.div_eq_of_lt (Nat.zero_add depth ▸ near)]
        show (0 : Nat) % 2 ≠ passTag depth i
        omega
      tags := nofun
      head := (Nat.zero_mod _).symm
      headPhase := passTag_zero.symm
      tail := (Nat.zero_mod _).symm
      tailPhase := passTag_zero.symm }
  numbering := ⟨List.Perm.refl _, nofun, nofun⟩
  tickets := ⟨nofun, nofun, nofun, fun _ _ flight => absurd flight.1 nofun⟩

section Rings

variable {s t : NvmeSystem}

section

variable (valid : s.Submission)
include valid

theorem Submission.positive : 0 < s.io.ioQDepth :=
  lt_of_lt_of_le Nat.zero_lt_two valid.depth

/-- There is room for one command less than the depth beyond the fetched ones. -/
theorem Submission.near : s.submitted.length < s.fetched + s.io.ioQDepth := by
  grind [known]

/-- What the driver and the controller change elsewhere does not touch the submission ring. -/
theorem Submission.frame
    (io : t.io.ioQDepth = s.io.ioQDepth ∧ t.io.iosqTail = s.io.iosqTail ∧ t.io.iosqHead = s.io.iosqHead ∧
      t.io.iosq = s.io.iosq)
    (ctrl : t.ctrl.sqTail = s.ctrl.sqTail ∧ t.ctrl.sqHead = s.ctrl.sqHead)
    (history : t.submitted = s.submitted ∧ t.fetched = s.fetched ∧ t.posted = s.posted ∧ t.taken = s.taken) :
    t.Submission := by
  obtain ⟨depth, tail, head, ring⟩ := io
  obtain ⟨submitted, fetched, posted, taken⟩ := history
  constructor
  · rw [depth]; exact valid.depth
  · grind [tail]
  · grind [doorbell]
  · grind [pointer]
  · grind [order]
  · grind [ring]
  · rw [depth, head, submitted, fetched, posted, taken]; exact valid.known
  · grind [heads]
  grind [sorted]

theorem Submission.submit {io : NvmeIo}
    (room : (s.io.iosqTail + 1) % s.io.ioQDepth ≠ s.io.iosqHead)
    (depth : io.ioQDepth = s.io.ioQDepth)
    (tail : io.iosqTail = (s.io.iosqTail + 1) % s.io.ioQDepth)
    (head : io.iosqHead = s.io.iosqHead)
    (ring : io.iosq = Function.update s.io.iosq s.io.iosqTail sqe) (callers : Nat → NvmeCaller) :
    ({ s with
        io
        ctrl := { s.ctrl with sqTail := io.iosqTail }
        callers
        submitted := s.submitted ++ [sqe] } : NvmeSystem).Submission := by
  have longer : (s.submitted ++ [sqe]).length = s.submitted.length + 1 := List.length_append
  have advanced : io.iosqTail = (s.submitted ++ [sqe]).length % io.ioQDepth := by
    rw [tail, depth, longer, valid.tail, Nat.mod_add_mod]
  constructor
  · exact depth ▸ valid.depth
  · exact advanced
  · exact advanced
  · exact depth ▸ valid.pointer
  · grind [order]
  · grind [tail, RingHolds.push, ring, near]
  · obtain ⟨known, same, near, order, later⟩ := valid.known
    refine ⟨known, ?_, ?_, order, later⟩
    · grind
    · show (s.submitted ++ [sqe]).length < known + io.ioQDepth
      -- A tail that reached the known head would stand in its slot.
      have apart : s.submitted.length + 1 ≠ known + s.io.ioQDepth := by
        intro full
        apply room
        rw [valid.tail, Nat.mod_add_mod, full, Nat.add_mod_right, same]
      omega
  · exact depth ▸ valid.heads
  · exact valid.sorted

theorem Submission.fetch (some : s.ctrl.sqHead ≠ s.ctrl.sqTail) (accepted : List (Nat × NvmeSqe)) :
    ({ s with
        ctrl := { s.ctrl with sqHead := (s.ctrl.sqHead + 1) % s.io.ioQDepth, accepted }
        fetched := s.fetched + 1 } : NvmeSystem).Submission := by
  have fewer : s.fetched < s.submitted.length := by
    grind [order, pointer, doorbell]
  constructor
  · exact valid.depth
  · exact valid.tail
  · exact valid.doorbell
  · rw [valid.pointer, Nat.mod_add_mod]
  · exact fewer
  · exact valid.ring.later (Nat.le_succ _)
  · obtain ⟨known, same, near, order, later⟩ := valid.known
    exact ⟨known, same, near, Nat.le_succ_of_le order, later⟩
  · exact fun post member => ⟨(valid.heads post member).1, Nat.le_succ_of_le (valid.heads post member).2⟩
  · exact valid.sorted

theorem Submission.post (order : s.taken.length ≤ s.posted.length)
    (head : cqe.sqHead = s.ctrl.sqHead) {io : NvmeIo} {ctrl : NvmeController}
    (same : io = { s.io with iocq := io.iocq })
    (pointers : ctrl.sqTail = s.ctrl.sqTail ∧ ctrl.sqHead = s.ctrl.sqHead) :
    ({ s with io, ctrl, posted := s.posted ++ [⟨num, s.fetched, cqe⟩] } : NvmeSystem).Submission := by
  rw [same]
  constructor
  · exact valid.depth
  · exact valid.tail
  · exact pointers.1.trans valid.doorbell
  · exact pointers.2.trans valid.pointer
  · exact valid.order
  · exact valid.ring
  · obtain ⟨known, same, near, below, later⟩ := valid.known
    refine ⟨known, same, near, below, fun post member => ?_⟩
    grind
  · intro post member
    rcases List.mem_append.mp member with earlier | last
    · exact valid.heads post earlier
    · rw [List.mem_singleton.mp last]
      exact ⟨head.trans valid.pointer, le_rfl⟩
  · refine List.pairwise_append.mpr ⟨valid.sorted, List.pairwise_singleton .., fun earlier member last same => ?_⟩
    rw [List.mem_singleton.mp same]
    exact (valid.heads earlier member).2

theorem Submission.take {post : NvmePosted} (next : s.posted[s.taken.length]? = some post)
    {io : NvmeIo} (depth : io.ioQDepth = s.io.ioQDepth) (tail : io.iosqTail = s.io.iosqTail)
    (head : io.iosqHead = post.cqe.sqHead) (ring : io.iosq = s.io.iosq) (cqe : NvmeCqe) :
    ({ s with io, taken := s.taken ++ [cqe] } : NvmeSystem).Submission := by
  have rest : s.posted.drop s.taken.length = post :: s.posted.drop (s.taken.length + 1) :=
    List.drop_eq_getElem?_toList_append.trans (by rw [next]; rfl)
  obtain ⟨pointer, order⟩ := valid.heads post (List.mem_of_getElem? next)
  constructor
  · exact depth ▸ valid.depth
  · grind [tail]
  · exact depth ▸ valid.doorbell
  · exact depth ▸ valid.pointer
  · exact valid.order
  · grind [ring]
  · obtain ⟨known, -, near, -, later⟩ := valid.known
    refine ⟨post.fetched, ?_, ?_, order, fun after member => ?_⟩
    · grind
    · grind
    · have sorted : (post :: s.posted.drop (s.taken.length + 1)).Pairwise
          fun earlier later => earlier.fetched ≤ later.fetched := rest ▸ valid.sorted.drop
      grind [List.rel_of_pairwise_cons]
  · exact depth ▸ valid.heads
  · exact valid.sorted

end

theorem entries_length (s : NvmeSystem) : s.entries.length = s.posted.length := List.length_map ..

section

variable (valid : s.Completion)
include valid

theorem Completion.frame
    (io : t.io.ioQDepth = s.io.ioQDepth ∧ t.io.iocqHead = s.io.iocqHead ∧ t.io.iocqPhase = s.io.iocqPhase ∧
      t.io.iocq = s.io.iocq)
    (ctrl : t.ctrl.cqTail = s.ctrl.cqTail ∧ t.ctrl.cqPhase = s.ctrl.cqPhase)
    (history : t.posted = s.posted ∧ t.taken = s.taken) : t.Completion := by
  obtain ⟨posted, taken⟩ := history
  have entries : t.entries = s.entries := congrArg (List.map _) posted
  constructor
  · grind [taken]
  · grind [order]
  · grind [ring]
  · grind [stale]
  · grind [tags]
  · grind [head]
  · grind [headPhase]
  · grind [tail]
  grind [tailPhase]

/-- The driver finds its phase exactly when an entry waits to be consumed. -/
theorem Completion.phase_iff (positive : 0 < s.io.ioQDepth) :
    (s.io.iocq s.io.iocqHead).phase = s.io.iocqPhase ↔ s.taken.length < s.posted.length := by
  rw [valid.head, valid.headPhase, ← entries_length]
  exact tag_iff_written positive ((entries_length s).symm ▸ valid.stale) valid.ring
    ((entries_length s).symm ▸ valid.order) valid.tags

theorem Completion.read {post : NvmePosted} (next : s.posted[s.taken.length]? = some post) :
    s.io.iocq s.io.iocqHead = post.cqe := by
  rw [valid.head]
  refine valid.ring _ _ le_rfl ?_
  rw [entries, List.getElem?_map, next, Option.map_some]

theorem Completion.post (positive : 0 < s.io.ioQDepth)
    (room : s.posted.length < s.taken.length + s.io.ioQDepth) (post : NvmePosted)
    {ctrl : NvmeController} (tag : post.cqe.phase = s.ctrl.cqPhase)
    (tail : ctrl.cqTail = if s.ctrl.cqTail + 1 = s.io.ioQDepth then 0 else s.ctrl.cqTail + 1)
    (phase : ctrl.cqPhase = if s.ctrl.cqTail + 1 = s.io.ioQDepth then s.ctrl.cqPhase ^^^ 1 else s.ctrl.cqPhase) :
    ({ s with
        io := { s.io with iocq := Function.update s.io.iocq s.ctrl.cqTail post.cqe }
        ctrl
        posted := s.posted ++ [post] } : NvmeSystem).Completion := by
  have longer : (s.posted ++ [post]).length = s.posted.length + 1 := List.length_append
  have grown : (s.posted ++ [post]).map (·.cqe) = s.entries ++ [post.cqe] := List.map_append
  constructor
  · show s.taken = ((s.posted ++ [post]).map (·.cqe)).take s.taken.length
    grind [taken]
  · exact valid.order.trans (longer ▸ Nat.le_succ _)
  · show RingHolds s.io.ioQDepth (Function.update s.io.iocq s.ctrl.cqTail post.cqe)
      ((s.posted ++ [post]).map (·.cqe)) s.taken.length
    grind [tail, entries_length, RingHolds.push, ring]
  · grind [tail, RingStale.push, stale, order]
  · intro i cqe found
    have found : (s.entries ++ [post.cqe])[i]? = some cqe := grown ▸ found
    rcases Nat.lt_trichotomy i s.entries.length with before | here | beyond
    · grind [tags]
    · subst here
      rw [List.getElem?_concat_length] at found
      rw [← Option.some_inj.mp found, tag, valid.tailPhase, entries_length]
    grind
  · exact valid.head
  · exact valid.headPhase
  · grind [tail, slot_succ]
  grind [tail, tailPhase, passTag_succ]

theorem Completion.take (positive : 0 < s.io.ioQDepth) {post : NvmePosted}
    (next : s.posted[s.taken.length]? = some post) {io : NvmeIo}
    (depth : io.ioQDepth = s.io.ioQDepth) (ring : io.iocq = s.io.iocq)
    (head : io.iocqHead = if s.io.iocqHead + 1 = s.io.ioQDepth then 0 else s.io.iocqHead + 1)
    (phase : io.iocqPhase = if s.io.iocqHead + 1 = s.io.ioQDepth then s.io.iocqPhase ^^^ 1 else s.io.iocqPhase) :
    ({ s with io, taken := s.taken ++ [post.cqe] } : NvmeSystem).Completion := by
  have longer : (s.taken ++ [post.cqe]).length = s.taken.length + 1 := List.length_append
  have fewer : s.taken.length < s.posted.length := (List.getElem?_eq_some_iff.mp next).1
  have entry : s.entries[s.taken.length]? = some post.cqe := by
    rw [entries, List.getElem?_map, next, Option.map_some]
  constructor
  · show s.taken ++ [post.cqe] = s.entries.take (s.taken ++ [post.cqe]).length
    grind [List.take_add_one, taken]
  · exact longer ▸ fewer
  · rw [depth, ring, longer]
    exact valid.ring.later (Nat.le_succ _)
  · rw [depth, ring, longer]
    refine valid.stale.advance positive ?_
    rw [← valid.head, ← valid.headPhase]
    exact (valid.phase_iff positive).mpr fewer
  · exact depth ▸ valid.tags
  · grind [head, slot_succ]
  · grind [head, headPhase, passTag_succ]
  · exact depth ▸ valid.tail
  · exact depth ▸ valid.tailPhase

end

theorem Numbering.frame (valid : s.Numbering) (ctrl : t.ctrl.accepted = s.ctrl.accepted)
    (submitted : ∀ (num : Nat) sqe, s.submitted[num]? = some sqe → t.submitted[num]? = some sqe)
    (fetched : t.fetched = s.fetched) (posted : t.posted = s.posted) :
    t.Numbering := by
  constructor
  · grind [once]
  · intro work member
    grind [accepted]
  grind [posted]

theorem Numbering.fetch (valid : s.Numbering) (ring : RingHolds s.io.ioQDepth s.io.iosq s.submitted s.fetched)
    (fewer : s.fetched < s.submitted.length) (pointer : s.ctrl.sqHead = s.fetched % s.io.ioQDepth) (head : Nat) :
    ({ s with
        ctrl := { s.ctrl with
          sqHead := head
          accepted := s.ctrl.accepted ++ [(s.fetched, s.io.iosq s.ctrl.sqHead)] }
        fetched := s.fetched + 1 } : NvmeSystem).Numbering := by
  constructor
  · rw [List.map_append, List.append_assoc, List.range_succ]
    refine (List.perm_append_comm.append_left _).trans ?_
    rw [← List.append_assoc]
    exact valid.once.append_right _
  · intro work member
    rcases List.mem_append.mp member with earlier | last
    · exact valid.accepted work earlier
    · rw [List.mem_singleton.mp last]
      have there := List.getElem?_eq_getElem fewer
      rw [there, pointer, ring _ _ le_rfl there]
  · exact valid.posted

theorem Numbering.post (valid : s.Numbering) (chosen : s.ctrl.accepted[index]? = some (num, sqe))
    (named : cqe.cid = sqe.cid) {io : NvmeIo} {ctrl : NvmeController}
    (accepted : ctrl.accepted = s.ctrl.accepted.eraseIdx index) :
    ({ s with io, ctrl, posted := s.posted ++ [⟨num, s.fetched, cqe⟩] } : NvmeSystem).Numbering := by
  constructor
  · grind [List.getElem_cons_eraseIdx_perm, once]
  · intro work member
    grind [accepted, List.mem_of_mem_eraseIdx]
  · intro post member
    rcases List.mem_append.mp member with earlier | last
    · exact valid.posted post earlier
    · grind [accepted]

end Rings

section Callers

variable {s t : NvmeSystem} {cid num : Nat}

theorem setCaller_self {now : NvmeCaller} : (s.setCaller caller now).callers caller = now :=
  Function.update_self ..

theorem setCaller_other {now : NvmeCaller} (apart : holder ≠ caller) :
    (s.setCaller caller now).callers holder = s.callers holder :=
  Function.update_of_ne apart ..

/-- A caller that goes on keeps its ticket. -/
theorem ticket_setCaller {now : NvmeCaller} (same : now.ticket = (s.callers caller).ticket) :
    ((s.setCaller caller now).callers holder).ticket = (s.callers holder).ticket := by
  grind [setCaller_self, setCaller_other]

theorem getElem?_concat_of_some {found : NvmeSqe} (there : sqes[num]? = some found) :
    (sqes ++ [sqe])[num]? = some found :=
  (List.getElem?_append_left (List.getElem?_eq_some_iff.mp there).1).trans there

theorem Ticket.frame (ticket : s.Ticket cid num) (depth : t.io.ioQDepth = s.io.ioQDepth)
    (state : t.io.ioCmdState cid = s.io.ioCmdState cid)
    (submitted : ∀ (num : Nat) sqe, s.submitted[num]? = some sqe → t.submitted[num]? = some sqe)
    (consumed : t.consumed = s.consumed) : t.Ticket cid num := by
  constructor
  · rw [depth]; exact ticket.below
  · rw [state]; exact ticket.inUse
  · grind [named]
  · grind [settled]
  grind [unsettled]

section

variable (valid : s.Tickets)
include valid

theorem Tickets.frame (depth : t.io.ioQDepth = s.io.ioQDepth)
    (states : ∀ cid, (s.io.ioCmdState cid).inUse = true → t.io.ioCmdState cid = s.io.ioCmdState cid)
    (callers : t.callers = s.callers) (submitted : t.submitted = s.submitted)
    (consumed : t.consumed = s.consumed) :
    t.Tickets := by
  constructor
  · intro caller cid num held
    have ticket := valid.ticket caller cid num (callers ▸ held)
    grind [Ticket.frame, Ticket.inUse]
  · intro caller cid num held
    rw [callers] at held ⊢
    rw [states cid (valid.ticket caller cid num held).inUse]
    grind [agrees]
  · rw [callers]
    exact valid.apart
  · intro num sqe flight
    rw [InFlight, submitted, consumed] at flight
    rw [callers]
    exact valid.waited num sqe flight

/-- A ticket that nobody else holds, for a command that was just submitted. -/
theorem Tickets.submit (idle : s.callers caller = .idle) (named : sqe.cid = cid)
    (below : cid < s.io.ioQDepth) (unused : (s.io.ioCmdState cid).inUse = false)
    (earlier : ∀ post ∈ s.consumed, post.num < s.submitted.length) {io : NvmeIo}
    {ctrl : NvmeController} (depth : io.ioQDepth = s.io.ioQDepth)
    (states : io.ioCmdState = Function.update s.io.ioCmdState cid { inUse := true }) :
    ({ s with
        io
        ctrl
        callers := Function.update s.callers caller (.waiting cid s.submitted.length)
        submitted := s.submitted ++ [sqe] } : NvmeSystem).Tickets := by
  have fresh : io.ioCmdState cid = { inUse := true } := by rw [states, Function.update_self]
  have others : ∀ {other}, (s.io.ioCmdState other).inUse = true → other ≠ cid := by
    grind
  have same : ∀ {other}, (s.io.ioCmdState other).inUse = true → io.ioCmdState other = s.io.ioCmdState other :=
    fun used => by rw [states, Function.update_of_ne (others used)]
  constructor
  · intro holder id num held
    dsimp only at held
    by_cases self : holder = caller
    · rw [self, Function.update_self] at held
      cases held
      refine ⟨depth ▸ below, by rw [fresh], ⟨sqe, List.getElem?_concat_length .., named⟩, fun done => ?_,
        fun _ post member => (earlier post member).ne⟩
      grind
    · rw [Function.update_of_ne self] at held
      have ticket := valid.ticket holder id num held
      exact ticket.frame depth (same ticket.inUse) (fun _ _ => getElem?_concat_of_some) rfl
  · intro holder id num held
    dsimp only at held ⊢
    by_cases self : holder = caller
    · rw [self, Function.update_self]
      trivial
    · rw [Function.update_of_ne self] at held ⊢
      rw [same (valid.ticket holder id num held).inUse]
      grind [agrees]
  · intro first second id num num' held held'
    dsimp only at held held'
    by_cases self : first = caller
    · by_cases self' : second = caller
      · rw [self, self']
      · rw [self, Function.update_self] at held
        rw [Function.update_of_ne self'] at held'
        cases held
        exact absurd rfl (others (valid.ticket second cid num' held').inUse)
    · rw [Function.update_of_ne self] at held
      by_cases self' : second = caller
      · rw [self', Function.update_self] at held'
        cases held'
        exact absurd rfl (others (valid.ticket first cid num held).inUse)
      grind [apart]
  · intro num found flight
    obtain ⟨there, open_⟩ := flight
    rcases Nat.lt_or_ge num s.submitted.length with before | last
    · have old : s.submitted[num]? = some found := (List.getElem?_append_left before).symm.trans there
      obtain ⟨holder, waits⟩ := valid.waited num found ⟨old, open_⟩
      refine ⟨holder, (Function.update_of_ne ?_ ..).trans waits⟩
      grind
    · exact ⟨caller, by grind⟩

/-- A caller goes on with the same ticket; it stops waiting only when its command is done. -/
theorem Tickets.move {now : NvmeCaller} (same : now.ticket = (s.callers caller).ticket)
    (agrees : ∀ cid num, now.ticket = some (cid, num) → now.Agrees (s.io.ioCmdState cid))
    (done : ∀ cid num, s.callers caller = .waiting cid num → (s.io.ioCmdState cid).done = true) :
    (s.setCaller caller now).Tickets := by
  constructor
  · intro holder cid num held
    exact (valid.ticket holder cid num (ticket_setCaller same ▸ held)).frame rfl rfl (fun _ _ there => there) rfl
  · intro holder cid num held
    by_cases self : holder = caller
    · rw [self, setCaller_self] at held ⊢
      exact agrees cid num held
    · rw [setCaller_other self] at held ⊢
      exact valid.agrees holder cid num held
  · grind [ticket_setCaller, apart]
  · intro num sqe flight
    obtain ⟨holder, waits⟩ := valid.waited num sqe flight
    refine ⟨holder, (setCaller_other ?_).trans waits⟩
    rintro rfl
    obtain ⟨post, member, answers, -⟩ :=
      (valid.ticket holder sqe.cid num (by rw [waits]; rfl)).settled (done _ _ waits)
    exact flight.2 post member answers

theorem Tickets.release {result : Nat}
    (held : s.callers caller = .readStatus cid num result status) :
    ({ s.setCaller caller .idle with io := nvmeReleaseCid s.io cid } : NvmeSystem).Tickets := by
  have mine : (s.callers caller).ticket = some (cid, num) := by rw [held]; rfl
  have released := nvmeReleaseCid_eq (valid.ticket caller cid num mine).below
  have others : ∀ {holder id num}, holder ≠ caller → (s.callers holder).ticket = some (id, num) →
      (nvmeReleaseCid s.io cid).ioCmdState id = s.io.ioCmdState id := by
    intro holder id num' away theirs
    rw [released]
    refine Function.update_of_ne ?_ ..
    grind [apart]
  have depth : (nvmeReleaseCid s.io cid).ioQDepth = s.io.ioQDepth := by rw [released]; rfl
  have away : ∀ {holder id num}, (Function.update s.callers caller .idle holder).ticket = some (id, num) →
      holder ≠ caller ∧ (s.callers holder).ticket = some (id, num) := by
    intro holder id num' theirs
    by_cases self : holder = caller
    · rw [self, Function.update_self] at theirs
      cases theirs
    grind
  constructor
  · intro holder id num' theirs
    obtain ⟨apart, theirs⟩ := away theirs
    exact (valid.ticket holder id num' theirs).frame depth (others apart theirs) (fun _ _ there => there) rfl
  · intro holder id num' theirs
    obtain ⟨apart, theirs⟩ := away theirs
    show (Function.update s.callers caller .idle holder).Agrees ((nvmeReleaseCid s.io cid).ioCmdState id)
    grind [agrees]
  · intro first second id num₁ num₂ theirs theirs'
    exact valid.apart first second id num₁ num₂ (away theirs).2 (away theirs').2
  · intro num' sqe flight
    obtain ⟨holder, waits⟩ := valid.waited num' sqe flight
    refine ⟨holder, (Function.update_of_ne ?_ ..).trans waits⟩
    grind

/-- A completion settles the one ticket whose id it carries. -/
theorem Tickets.take {post : NvmePosted} (next : s.posted[s.taken.length]? = some post)
    (flight : s.InFlight post.num sqe) (named : post.cqe.cid = sqe.cid) {io : NvmeIo}
    (depth : io.ioQDepth = s.io.ioQDepth)
    (states : io.ioCmdState = Function.update s.io.ioCmdState post.cqe.cid
      { s.io.ioCmdState post.cqe.cid with status := post.cqe.status >>> 1, result := post.cqe.dw0, done := true }) :
    ({ s with io, taken := s.taken ++ [post.cqe] } : NvmeSystem).Tickets := by
  obtain ⟨caller, waits⟩ := valid.waited post.num sqe flight
  have mine : (s.callers caller).ticket = some (post.cqe.cid, post.num) := by rw [waits, named]; rfl
  have consumed : s.posted.take (s.taken ++ [post.cqe]).length = s.consumed ++ [post] := by
    rw [List.length_append, List.length_singleton, List.take_add_one, next]
    rfl
  have here : io.ioCmdState post.cqe.cid = { s.io.ioCmdState post.cqe.cid with
      status := post.cqe.status >>> 1, result := post.cqe.dw0, done := true } := by
    rw [states, Function.update_self]
  have others : ∀ {id}, id ≠ post.cqe.cid → io.ioCmdState id = s.io.ioCmdState id :=
    fun apart => by rw [states, Function.update_of_ne apart]
  constructor
  · intro holder id num held
    have ticket := valid.ticket holder id num held
    by_cases same : id = post.cqe.cid
    · subst same
      have self := valid.apart holder caller _ num post.num held mine
      rw [self, mine] at held
      cases held
      refine ⟨depth ▸ ticket.below, by rw [here]; exact ticket.inUse, ticket.named, fun _ => ?_, fun open_ => ?_⟩
      · refine ⟨post, ?_, rfl, ?_⟩
        · show post ∈ s.posted.take (s.taken ++ [post.cqe]).length
          grind
        grind
      grind
    · refine ⟨depth ▸ ticket.below, by rw [others same]; exact ticket.inUse, ticket.named, fun done => ?_,
        fun open_ other member => ?_⟩
      · rw [others same] at done ⊢
        obtain ⟨answer, member, rest⟩ := ticket.settled done
        refine ⟨answer, ?_, rest⟩
        show answer ∈ s.posted.take (s.taken ++ [post.cqe]).length
        grind
      · rw [others same] at open_
        have member : other ∈ s.posted.take (s.taken ++ [post.cqe]).length := member
        rw [consumed] at member
        rcases List.mem_append.mp member with earlier | last
        · exact ticket.unsettled open_ other earlier
        · -- The new completion is for a command with another id.
          rw [List.mem_singleton.mp last]
          rintro rfl
          obtain ⟨found, there, name⟩ := ticket.named
          rw [flight.1] at there
          grind
  · intro holder id num held
    have agrees := valid.agrees holder id num held
    by_cases same : id = post.cqe.cid
    · subst same
      rw [valid.apart holder caller _ num post.num held mine]
      rw [waits]
      trivial
    grind
  · exact valid.apart
  · intro num found other
    have other : s.submitted[num]? = some found ∧
        ∀ answer ∈ s.posted.take (s.taken ++ [post.cqe]).length, answer.num ≠ num := other
    rw [consumed] at other
    exact valid.waited num found ⟨other.1, fun answer member => other.2 answer (List.mem_append_left _ member)⟩

end

end Callers

section Runs

variable {s t : NvmeSystem} {answer : NvmeAnswer}

theorem Numbering.nodup (valid : s.Numbering) : (s.posted.map (·.num)).Nodup :=
  (valid.once.nodup_iff.mpr List.nodup_range).of_append_right

/-- The command that the next completion answers has not been answered before. -/
theorem Numbering.flight (valid : s.Numbering) {post : NvmePosted} (next : s.posted[s.taken.length]? = some post) :
    ∃ sqe, s.InFlight post.num sqe ∧ post.cqe.cid = sqe.cid := by
  obtain ⟨sqe, there, named⟩ := valid.posted post (List.mem_of_getElem? next)
  have parts : s.posted = s.consumed ++ post :: s.posted.drop (s.taken.length + 1) := by
    conv_lhs => rw [← List.take_append_drop s.taken.length s.posted, List.drop_eq_getElem?_toList_append, next]
    rfl
  have nodup := valid.nodup
  rw [parts, List.map_append, List.map_cons, List.nodup_append] at nodup
  refine ⟨sqe, ⟨there, fun earlier member => ?_⟩, named⟩
  exact nodup.2.2 _ (List.mem_map_of_mem member) _ List.mem_cons_self

section

variable (valid : s.Valid)
include valid

/-- The steps that leave the rings and the history alone. -/
theorem Valid.local {io : NvmeIo} {callers : Nat → NvmeCaller} {polling : Bool}
    (same : io = { s.io with ioCmdState := states, nextIoCid })
    (tickets : ({ s with io, callers, polling } : NvmeSystem).Tickets) :
    ({ s with io, callers, polling } : NvmeSystem).Valid := by
  subst same
  exact ⟨valid.submission.frame ⟨rfl, rfl, rfl, rfl⟩ ⟨rfl, rfl⟩ ⟨rfl, rfl, rfl, rfl⟩,
    valid.completion.frame ⟨rfl, rfl, rfl, rfl⟩ ⟨rfl, rfl⟩ ⟨rfl, rfl⟩,
    valid.numbering.frame rfl (fun _ _ there => there) rfl rfl, tickets⟩

theorem Valid.submit (taken : s.step (.submit caller cmd) = .ok (answer, t)) : t.Valid := by
  have positive := valid.submission.positive
  rw [step] at taken
  split at taken
  · cases taken
  · next allowed =>
    rw [not_or, not_or, not_not, Nat.not_le] at allowed
    obtain ⟨-, idle, opcode⟩ := allowed
    split at taken
    · next io refused =>
      cases taken
      obtain ⟨states, next, same, kept⟩ := nvmeSubmitIo_refused refused positive
      refine valid.local same (valid.tickets.frame ?_ ?_ rfl rfl rfl)
      · rw [same]
      · rw [same]
        exact kept
    · next cid io accepted =>
      cases taken
      obtain ⟨below, unused, room, next, same⟩ := nvmeSubmitIo_accepted accepted positive
      have depth : io.ioQDepth = s.io.ioQDepth := by rw [same]; rfl
      refine ⟨valid.submission.submit room depth (by rw [same]) (by rw [same]; rfl) (by rw [same]) _,
        valid.completion.frame ⟨depth, by rw [same]; rfl, by rw [same]; rfl, by rw [same]; rfl⟩ ⟨rfl, rfl⟩ ⟨rfl, rfl⟩,
        valid.numbering.frame rfl (fun _ _ => getElem?_concat_of_some) rfl rfl,
        valid.tickets.submit idle (withCid_cid opcode) below unused (fun post member => ?_) depth (by rw [same]; rfl)⟩
      obtain ⟨sqe, there, -⟩ := valid.numbering.posted post (List.mem_of_mem_take member)
      grind

theorem Valid.pollPass (taken : s.step .pollPass = .ok (answer, t)) : t.Valid := by
  have positive := valid.submission.positive
  rw [step] at taken
  split at taken
  · split at taken
    · cases taken
      exact valid.local rfl (valid.tickets.frame rfl (fun _ _ => rfl) rfl rfl rfl)
    · next cqe io took =>
      cases taken
      have fewer : s.taken.length < s.posted.length := by
        refine (valid.completion.phase_iff positive).mp ?_
        rw [nvmePollPass] at took
        grind
      have next := List.getElem?_eq_getElem fewer
      obtain ⟨sqe, flight, named⟩ := valid.numbering.flight next
      obtain ⟨caller, waits⟩ := valid.tickets.waited _ sqe flight
      have below := (valid.tickets.ticket caller sqe.cid _ (by rw [waits]; rfl)).below
      have read := valid.completion.read next
      obtain ⟨rfl, -, same⟩ := nvmePollPass_some took (by grind)
      rw [read] at same ⊢
      have depth : io.ioQDepth = s.io.ioQDepth := by rw [same]; rfl
      exact ⟨valid.submission.take next depth (by rw [same]; rfl) (by rw [same]) (by rw [same]; rfl) _,
        valid.completion.take positive next depth (by rw [same]; rfl) (by rw [same]) (by rw [same]),
        valid.numbering.frame rfl (fun _ _ there => there) rfl rfl,
        valid.tickets.take next flight named depth (by rw [same]; rfl)⟩
  · cases taken

theorem Valid.wait
    (waits : ∃ caller, op = .waitTest caller ∨ op = .waitResult caller ∨ op = .waitStatus caller ∨ op = .waitRelease caller)
    (taken : s.step op = .ok (answer, t)) : t.Valid := by
  obtain ⟨caller, rfl | rfl | rfl | rfl⟩ := waits
  · rw [step] at taken
    split at taken
    · next cid num held =>
      split at taken
      · next done =>
        cases taken
        refine valid.local rfl (valid.tickets.move (by rw [held]; rfl) ?_ ?_)
        · rintro _ _ ⟨⟩
          exact done
        grind
      grind
    · cases taken
  · rw [step] at taken
    split at taken
    · next cid num held =>
      cases taken
      have agrees := valid.tickets.agrees caller cid num (by rw [held]; rfl)
      rw [held] at agrees
      refine valid.local rfl (valid.tickets.move (by rw [held]; rfl) ?_ ?_)
      · rintro _ _ ⟨⟩
        exact ⟨agrees, rfl⟩
      grind
    · cases taken
  · rw [step] at taken
    split at taken
    · next cid num result held =>
      cases taken
      have agrees := valid.tickets.agrees caller cid num (by rw [held]; rfl)
      rw [held] at agrees
      refine valid.local rfl (valid.tickets.move (by rw [held]; rfl) ?_ ?_)
      · rintro _ _ ⟨⟩
        exact ⟨agrees.1, agrees.2, rfl⟩
      grind
    · cases taken
  · rw [step] at taken
    split at taken
    · next cid num result status held =>
      split at taken
      · cases taken
      · cases taken
        have below := (valid.tickets.ticket caller cid num (by rw [held]; rfl)).below
        exact valid.local (nvmeReleaseCid_eq below) (valid.tickets.release held)
    · cases taken

theorem Valid.fetch (taken : s.step .fetch = .ok (answer, t)) : t.Valid := by
  rw [step] at taken
  split at taken
  · cases taken
  · next some =>
    cases taken
    have fewer : s.fetched < s.submitted.length := by
      grind [Submission.order, submission, Submission.pointer, Submission.doorbell]
    exact ⟨valid.submission.fetch some _, valid.completion.frame ⟨rfl, rfl, rfl, rfl⟩ ⟨rfl, rfl⟩ ⟨rfl, rfl⟩,
      valid.numbering.fetch valid.submission.ring fewer valid.submission.pointer _,
      valid.tickets.frame rfl (fun _ _ => rfl) rfl rfl rfl⟩

theorem Valid.post {result : Nat} (taken : s.step (.post index status result) = .ok (answer, t)) :
    t.Valid := by
  rw [step] at taken
  split at taken
  · cases taken
  · next num sqe chosen =>
    split at taken
    · next allowed =>
      cases taken
      have tag : (2 * status + s.ctrl.cqPhase) % 2 = s.ctrl.cqPhase := by
        grind [passTag_lt, Completion.tailPhase, completion]
      exact ⟨valid.submission.post valid.completion.order rfl rfl ⟨rfl, rfl⟩,
        valid.completion.post valid.submission.positive allowed.1 ⟨num, s.fetched, _⟩ tag rfl rfl,
        valid.numbering.post chosen rfl rfl,
        valid.tickets.frame rfl (fun _ _ => rfl) rfl rfl (List.take_append_of_le_length valid.completion.order)⟩
    · cases taken

theorem step_valid (taken : s.step op = .ok (answer, t)) : t.Valid := by
  cases op with
  | submit => exact valid.submit taken
  | pollPass => exact valid.pollPass taken
  | fetch => exact valid.fetch taken
  | post => exact valid.post taken
  | waitTest caller => grind [Valid.wait]
  | waitResult caller => grind [Valid.wait]
  | waitStatus caller => grind [Valid.wait]
  | waitRelease caller => grind [Valid.wait]
  | pollStart =>
    rw [step] at taken
    split at taken
    · cases taken
    · cases taken
      exact valid.local rfl (valid.tickets.frame rfl (fun _ _ => rfl) rfl rfl rfl)

theorem run_valid (run : Steps step s trace t) : t.Valid :=
  run.invariant Valid (fun valid taken => step_valid valid taken) valid

end

end Runs

end NvmeSystem

end Velox
