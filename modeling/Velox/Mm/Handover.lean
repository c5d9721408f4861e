import Velox.Mm.PagingSpace

namespace Velox

variable {frame : Nat}

variable {s t : Paging} {boot : Boot}

/-- A client of the physical allocator, with the frames that it may give back. -/
structure PmmClient where
  pmm : Pmm
  held : List Nat

/-- The calls of clients that give back only frames they hold. -/
def pmmClientStep (s : PmmClient) : PmmCall → Except (Lib.Halt Panic) (Option Nat × PmmClient)
  | .tryAlloc =>
    let (answer, pmm) := pmmTryAllocPagePhys s.pmm
    .ok (answer, ⟨pmm, answer.toList ++ s.held⟩)
  | .free physAddr =>
    if physAddr ∈ s.held then .ok (none, ⟨pmmFreePagePhys s.pmm physAddr, s.held.erase physAddr⟩)
    else .error .misuse

/-- A frame that nobody holds stays taken, and no call answers it. -/
theorem pmmClientStep_taken {s t : PmmClient} {call : PmmCall} (held : s.pmm.Taken frame ∧ frame ∉ s.held)
    (aligned : frame % 4096 = 0)
    (stepped : pmmClientStep s call = .ok (answer, t)) :
    (t.pmm.Taken frame ∧ frame ∉ t.held) ∧ answer ≠ some frame := by
  obtain ⟨taken, foreign⟩ := held
  cases call with
  | tryAlloc =>
    simp only [pmmClientStep] at stepped
    cases alloc : pmmTryAllocPagePhys s.pmm with
    | mk got pmm =>
      rw [alloc] at stepped
      cases stepped
      cases got with
      | none =>
        grind [pmmTryAllocPagePhys_failed]
      | some got =>
        have allocated := pmmTryAllocPagePhys_allocated alloc
        have different : got ≠ frame := by
          rintro rfl
          rcases taken with used | above
          · grind [Allocated.clear]
          · exact absurd allocated.below (Nat.not_lt.mpr above)
        refine ⟨⟨?_, ?_⟩, by simpa using different⟩
        · refine taken.imp (fun used => ?_) (fun above => allocated.total ▸ above)
          simp [allocated.bits, used]
        grind
  | free physAddr =>
    simp only [pmmClientStep] at stepped
    split at stepped
    · cases stepped
      refine ⟨⟨?_, fun member => foreign (List.mem_of_mem_erase member)⟩, by simp⟩
      refine taken.imp (fun used => (pmmFreePagePhys_bitTest s.pmm physAddr _).mpr ⟨used, ?_⟩)
        (fun above => (pmmFreePagePhys_totalPages s.pmm physAddr).trans_le above)
      rintro ⟨⟨-, aligned', -, -⟩, same⟩
      grind
    · cases stepped

theorem pmmClientSteps_taken {s t : PmmClient} (run : Lib.Steps pmmClientStep s trace t)
    (held : s.pmm.Taken frame ∧ frame ∉ s.held)
    (aligned : frame % 4096 = 0) : t.pmm.Taken frame ∧ ∀ call, (call, some frame) ∉ trace := by
  induction run with
  | done => grind
  | more taken rest ih =>
    grind [pmmClientStep_taken]

section Reclaim

variable {memoryMap : List MemoryMapEntry} {pmm : Pmm} {skipStart skipEnd : Nat}

/-- The frames that `reclaim_bootloader_reclaimable` passes to `pmm_free_page_phys`. -/
def reclaimedFrames (memoryMap : List MemoryMapEntry) (skipStart skipEnd : Nat) : List Nat :=
  memoryMap.flatMap fun entry =>
    if entry.type ≠ .bootloaderReclaimable then []
    else (strides (alignUp entry.base.toNat pageSize4k) (alignDown entry.rawEnd pageSize4k) pageSize4k).filter
      fun phys => ¬ (phys ≥ skipStart ∧ phys < skipEnd)

theorem reclaimFrames_eq_foldl (frames : List Nat) (state : Nat × Pmm) : (frames.foldl (fun (reclaimed, pmm) phys =>
      if phys ≥ skipStart ∧ phys < skipEnd then (reclaimed, pmm)
      else (reclaimed + 1, pmmFreePagePhys pmm phys)) state).2 =
    (frames.filter fun phys => ¬ (phys ≥ skipStart ∧ phys < skipEnd)).foldl pmmFreePagePhys state.2 := by
  induction frames generalizing state with
  | nil => rfl
  | cons phys rest ih =>
    rw [List.foldl_cons, ih]
    by_cases skipped : phys ≥ skipStart ∧ phys < skipEnd
    · simp [skipped]
    · rw [List.filter_cons, if_pos (decide_eq_true skipped), List.foldl_cons]
      simp [skipped]

theorem reclaim_eq_foldl (memoryMap : List MemoryMapEntry) (pmm : Pmm) (skipStart skipEnd : Nat) :
    (reclaimBootloaderReclaimable memoryMap pmm skipStart skipEnd).2 =
      (reclaimedFrames memoryMap skipStart skipEnd).foldl pmmFreePagePhys pmm := by
  suffices onward : ∀ state : Nat × Pmm, (memoryMap.foldl _ state).2 = (memoryMap.flatMap _).foldl pmmFreePagePhys state.2
    from onward (0, pmm)
  induction memoryMap with
  | nil => exact fun _ => rfl
  | cons entry rest ih =>
    intro state
    rw [List.foldl_cons, ih, List.flatMap_cons, List.foldl_append]
    by_cases other : entry.type ≠ .bootloaderReclaimable
    · simp [other]
    · simp only [if_neg other]
      simp [reclaimFrames_eq_foldl]

theorem foldl_free_taken {frames : List Nat} (ready : pmm.Ready)
    (aligned : frame % 4096 = 0) (pages : ∀ phys ∈ frames, phys % 4096 = 0) :
    (frames.foldl pmmFreePagePhys pmm).Taken frame ↔
      pmm.Taken frame ∧ (frame ∈ frames → pmm.info.totalPages ≤ frame / 4096) := by
  induction frames generalizing pmm with
  | nil => simp
  | cons phys rest ih =>
    have page := pages phys List.mem_cons_self
    rw [List.foldl_cons, ih (pmmFreePagePhys_ready ready phys) (fun other member => pages other (List.mem_cons_of_mem _ member)),
      pmmFreePagePhys_totalPages]
    have first : (pmmFreePagePhys pmm phys).Taken frame ↔
        pmm.Taken frame ∧ (frame = phys → pmm.info.totalPages ≤ frame / 4096) := by
      unfold Pmm.Taken
      rw [pmmFreePagePhys_bitTest, pmmFreePagePhys_totalPages]
      constructor
      · rintro (⟨used, kept⟩ | above)
        · refine ⟨.inl used, ?_⟩
          rintro rfl
          by_contra below
          exact kept ⟨⟨ready.initialized, page, Nat.lt_of_not_le below, used⟩, rfl⟩
        omega
      grind
    grind

theorem mem_reclaimedFrames (noWrap : ∀ entry ∈ memoryMap, entry.base.toNat + 4095 < 2 ^ 64) :
    frame ∈ reclaimedFrames memoryMap skipStart skipEnd ↔ frame % 4096 = 0 ∧
      (∃ entry ∈ memoryMap, entry.type = .bootloaderReclaimable ∧ entry.base.toNat ≤ frame ∧
        frame + 4096 ≤ entry.rawEnd) ∧ ¬ (skipStart ≤ frame ∧ frame < skipEnd) := by
  have visited : ∀ entry ∈ memoryMap,
      (frame ∈ strides (alignUp entry.base.toNat pageSize4k) (alignDown entry.rawEnd pageSize4k) pageSize4k ↔
        frame % 4096 = 0 ∧ entry.base.toNat ≤ frame ∧ frame + 4096 ≤ entry.rawEnd) := by
    intro entry member
    have high := entry.rawEnd_lt
    rw [pageSize4k, alignUp_page, alignDown_page, strides, List.mem_map]
    constructor
    · grind
    · rintro ⟨aligned, above, below⟩
      exact ⟨(frame - (entry.base.toNat + 4095) % 2 ^ 64 / 4096 * 4096) / 4096, List.mem_range.mpr (by omega), by omega⟩
  unfold reclaimedFrames
  grind

end Reclaim

/-- The whole frame lies in an entry that the bootloader gives up. -/
def Boot.Reclaimable (boot : Boot) (frame : Nat) : Prop :=
  ∃ entry ∈ boot.memoryMap, entry.type = .bootloaderReclaimable ∧ entry.base.toNat ≤ frame ∧
    frame + 4096 ≤ entry.rawEnd

/-- The frame lies in the window around the stack that reclaim leaves alone. -/
def Boot.Skips (boot : Boot) (s : Paging) (frame : Nat) : Prop :=
  (reclaimSkip (translateWithCr3 s s.cr3 boot.rsp.toNat)).1 ≤ frame ∧
    frame < (reclaimSkip (translateWithCr3 s s.cr3 boot.rsp.toNat)).2

/-- The virtual window around the stack that `paging_init` carries over. -/
def Boot.stackWindow (boot : Boot) : Nat × Nat :=
  let rsp := boot.rsp.toNat
  let stackSum := (rsp + stackProtectWindowBytes) % 2 ^ 64
  (if rsp > stackProtectWindowBytes then rsp - stackProtectWindowBytes else 0,
    if stackSum < rsp then 2 ^ 64 - 1 else stackSum)

/-- The frame stands behind a page of the stack window. -/
def Boot.StackFrame (boot : Boot) (s : Paging) (frame : Nat) : Prop :=
  ∃ virt ∈ strides (alignDown boot.stackWindow.1 pageSize4k) (alignUp boot.stackWindow.2 pageSize4k) pageSize4k,
    ∃ phys, translateWithCr3 s s.cr3 virt = some phys ∧ frame = alignDown phys pageSize4k

/-- Where Limine put its answer to the MP request: the response, the array `cpus` and the info
records that the array points to, by physical address. -/
structure MpResponse where
  response : Nat
  cpus : Nat
  infos : List (Option Nat)

/-- What `smp_init` reads and writes: address and size of each record. -/
def MpResponse.records (mp : MpResponse) : List (Nat × Nat) :=
  (mp.response, 32) :: (mp.cpus, 8 * mp.infos.length) :: mp.infos.filterMap fun info => info.map (·, 32)

/-- The frame holds a byte of a record. -/
def MpResponse.Holds (mp : MpResponse) (frame : Nat) : Prop :=
  frame % 4096 = 0 ∧ ∃ record ∈ mp.records, record.1 < frame + 4096 ∧ frame < record.1 + record.2

/-- From the end of `paging_init` on, the frame is not free and no call answers it, whatever the
clients of the allocator do with the frames they get and with those that `paging_init` got. -/
def KeptFrom (s t : Paging) (frame : Nat) : Prop :=
  ∀ held trace u, (∀ got ∈ held, ¬ s.pmm.Taken got) → Lib.Steps pmmClientStep ⟨t.pmm, held⟩ trace u →
    u.pmm.Taken frame ∧ ∀ call, (call, some frame) ∉ trace

section

variable (handed : HandedOver boot s) (done : pagingInit boot s = .ok t)
  (aligned : frame % 4096 = 0) (taken : s.pmm.Taken frame)
include handed done aligned taken

/-- A frame that was not free before `paging_init` is free after it iff it is reclaimed. -/
theorem pagingInit_taken :
    t.pmm.Taken frame ↔ (boot.Reclaimable frame → boot.Skips s frame) := by
  obtain ⟨blank, started⟩ := handed.started
  have noWrap := pmmInit_noWrap started
  obtain ⟨newPml4, s₄, skipStart, skipEnd, laid, -, -, skip, -, -, pmm⟩ := pagingInit_laid handed done
  have total := laid.built.total
  have still : s₄.pmm.Taken frame := taken.imp (laid.built.used _) (fun above => total.trans_le above)
  rw [pmm, reclaim_eq_foldl, foldl_free_taken laid.built.tree.ready aligned
    fun phys member => ((mem_reclaimedFrames noWrap).mp member).1, mem_reclaimedFrames noWrap, Boot.Skips, ← skip]
  constructor
  · rintro ⟨-, beyond⟩ reclaimable
    by_contra outside
    have above := beyond ⟨aligned, reclaimable, outside⟩
    obtain ⟨entry, member, -, -, last⟩ := reclaimable
    have high := rawEnd_le_maxPhysicalEnd member
    have frames := (pmmInit_total started).2
    omega
  · intro skips
    exact ⟨still, fun listed => absurd (skips listed.2.1) listed.2.2⟩

theorem keptFrom_iff :
    KeptFrom s t frame ↔ (boot.Reclaimable frame → boot.Skips s frame) := by
  rw [← pagingInit_taken handed done aligned taken]
  constructor
  · intro kept
    exact (kept [] [] ⟨t.pmm, []⟩ (by simp) .done).1
  · intro still held trace u got run
    grind [pmmClientSteps_taken]

end

/-- Reclaimable memory is not free when `paging_init` starts. -/
theorem Boot.Reclaimable.taken (handed : HandedOver boot s) (apart : boot.EntriesApart)
    (aligned : frame % 4096 = 0) (reclaimable : boot.Reclaimable frame) : s.pmm.Taken frame := by
  obtain ⟨blank, started⟩ := handed.started
  obtain ⟨entry, member, type, low, high⟩ := reclaimable
  by_contra free
  obtain ⟨clear, below⟩ := not_or.mp free
  obtain ⟨usable, member', type', first, last⟩ :=
    pmmInit_free_usable started (Nat.lt_of_not_le below) (Bool.eq_false_iff.mpr clear)
  rcases apart usable member' entry member type' type with before | after <;> omega

theorem StackFrame.aligned (behind : boot.StackFrame s frame) : frame % 4096 = 0 := by
  obtain ⟨virt, -, phys, -, rfl⟩ := behind
  rw [pageSize4k, alignDown_page]
  omega

/-- The records that `smp_init` uses stay allocated iff they lie in the window around the stack
that is not reclaimed; a frame of the stack window that was not free stays allocated iff it is
not reclaimed. -/
theorem handover_kept_iff (mp : MpResponse) (handed : HandedOver boot s) (apart : boot.EntriesApart)
    (placed : ∀ frame, mp.Holds frame → boot.Reclaimable frame) (done : pagingInit boot s = .ok t) :
    ((∀ frame, mp.Holds frame → KeptFrom s t frame) ↔ ∀ frame, mp.Holds frame → boot.Skips s frame) ∧
    ∀ frame, boot.StackFrame s frame → s.pmm.Taken frame →
      (KeptFrom s t frame ↔ (boot.Reclaimable frame → boot.Skips s frame)) := by
  have record : ∀ frame, mp.Holds frame → (KeptFrom s t frame ↔ boot.Skips s frame) := by
    intro frame holds
    have reclaimable := placed frame holds
    rw [keptFrom_iff handed done holds.1 (reclaimable.taken handed apart holds.1)]
    grind
  grind [keptFrom_iff, StackFrame.aligned]

/-- A stack in the middle of 34 reclaimable frames. -/
def stackBoot : Boot where
  memoryMap := [⟨0, 0x10000, .usable⟩, ⟨0x20000, 0x22000, .bootloaderReclaimable⟩]
  hhdmOffset := 0xffff800000000000
  framebuffer := ⟨0, 0, 0⟩
  kernelVirtualStart := 0xffffffff80002000
  kernelVirtualEnd := 0xffffffff80003000
  kernelPhysicalStart := 0x2000
  kernelPhysicalEnd := 0x3000
  rsp := 0x30000

def stackPaging : Paging where
  pmm := Lib.outcome blankPmm (pmmInit stackBoot blankPmm)
  tables := bootTables
  info := ⟨false, 0, 0, 0, 0, 0, 0, 0⟩
  initialized := false
  nxEnabled := true
  cr3 := 0x100000

def stackPagingReady : Paging := Lib.outcome stackPaging (pagingInit stackBoot stackPaging)

theorem stackPaging_started : pagingInit stackBoot stackPaging = .ok stackPagingReady :=
  Lib.eq_ok_outcome _ (by decide +kernel)

theorem stackPaging_handedOver : HandedOver stackBoot stackPaging where
  started := ⟨blankPmm, Lib.eq_ok_outcome blankPmm (by decide +kernel)⟩
  fresh := rfl
  window := .of_upper (by decide) (by decide)
  oldTables := bootTables_safe rfl rfl (by decide +kernel)

theorem stackBoot_apart : stackBoot.EntriesApart := by
  unfold Boot.EntriesApart
  decide

/-- The records of two processors at the start of a frame. -/
def twoCpuResponse (frame : Nat) : MpResponse := ⟨frame, frame + 0x20, [some (frame + 0x40), some (frame + 0x60)]⟩

theorem twoCpuResponse_holds {other : Nat} (aligned : frame % 4096 = 0) :
    (twoCpuResponse frame).Holds other ↔ other = frame := by
  simp only [MpResponse.Holds, MpResponse.records, twoCpuResponse, List.filterMap_cons, Option.map_some,
    List.filterMap_nil, List.mem_cons, List.not_mem_nil, or_false, exists_eq_or_imp, exists_eq_left,
    List.length_cons, List.length_nil]
  omega

theorem stackBoot_reclaimable (low : 0x20000 ≤ frame) (high : frame + 0x1000 ≤ 0x42000) :
    stackBoot.Reclaimable frame :=
  ⟨⟨0x20000, 0x22000, .bootloaderReclaimable⟩, by simp [stackBoot], rfl, low, high⟩

theorem handover_kept_iff_stack : KeptFrom stackPaging stackPagingReady 0x21000 := by
  have kept := handover_kept_iff (twoCpuResponse 0x21000) stackPaging_handedOver stackBoot_apart
    (fun frame holds => by
      rw [(twoCpuResponse_holds (by decide)).mp holds]
      simp [stackBoot_reclaimable]) stackPaging_started
  refine kept.1.mpr (fun frame holds => ?_) 0x21000 ((twoCpuResponse_holds (by decide)).mpr rfl)
  rw [(twoCpuResponse_holds (by decide)).mp holds, Boot.Skips]
  decide +kernel

/-- The frame of the records is free when `paging_init` is done, and the fifth frame handed out. -/
theorem handover_record_recycled :
    HandedOver stackBoot stackPaging ∧ stackBoot.EntriesApart ∧
      (∀ frame, (twoCpuResponse 0x40000).Holds frame → stackBoot.Reclaimable frame) ∧
      pagingInit stackBoot stackPaging = .ok stackPagingReady ∧ (twoCpuResponse 0x40000).Holds 0x40000 ∧
      ¬ stackPagingReady.pmm.Taken 0x40000 ∧
      ∃ u, Lib.Steps pmmClientStep ⟨stackPagingReady.pmm, []⟩
        [(.tryAlloc, some 0xc000), (.tryAlloc, some 0xd000), (.tryAlloc, some 0xe000), (.tryAlloc, some 0xf000),
          (.tryAlloc, some 0x40000)] u := by
  refine ⟨stackPaging_handedOver, stackBoot_apart, ?_, stackPaging_started, (twoCpuResponse_holds (by decide)).mpr rfl,
    ?_, ?_⟩
  · simp [twoCpuResponse_holds, stackBoot_reclaimable]
  · rw [Pmm.Taken]
    decide +kernel
  · exact Lib.Steps.exists_of_replay (by decide +kernel)

end Velox
