import Velox.Mm.PmmInvariant

namespace Velox

variable {s : Pmm} {start : Nat}

private theorem scanPage_lt (first : start < s.info.totalPages)
    (steps : scanned < s.info.totalPages) : s.scanPage start scanned < s.info.totalPages := by
  simp only [Pmm.scanPage]
  split <;> omega

private theorem scanPage_onto (first : start < s.info.totalPages)
    (below : page < s.info.totalPages) :
    ∃ scanned < s.info.totalPages, s.scanPage start scanned = page := by
  by_cases ahead : start ≤ page
  · refine ⟨page - start, by omega, ?_⟩
    have same : start + (page - start) = page := by omega
    simp [Pmm.scanPage, same, below]
  · refine ⟨page + s.info.totalPages - start, by omega, ?_⟩
    have same : start + (page + s.info.totalPages - start) = page + s.info.totalPages := by omega
    simp [Pmm.scanPage, same]

/-- The two ways an allocation ends. -/
theorem pmmTryAllocPagePhys_cases (s : Pmm) : pmmTryAllocPagePhys s = (none, s) ∨
      ∃ page < s.info.totalPages, s.bitTest page = false ∧ pmmTryAllocPagePhys s = (some (page * pmmPageSize),
          { s.markPageUsed page with
            nextSearch := if page + 1 ≥ s.info.totalPages then 0 else page + 1 }) := by
  unfold pmmTryAllocPagePhys
  split
  · exact .inl rfl
  · have positive : 0 < s.info.totalPages := by
      grind
    dsimp only
    split
    · exact .inl rfl
    · rename_i page found
      right
      obtain ⟨scanned, steps, same⟩ := List.mem_map.mp (List.mem_of_find?_eq_some found)
      have clear := List.find?_some found
      refine ⟨page, ?_, by simpa using clear, by simp⟩
      rw [← same]
      apply scanPage_lt
      · split <;> omega
      grind

/-- An allocation succeeds while some frame is free. -/
theorem pmmTryAllocPagePhys_of_free (ready : s.Ready) (below : page < s.info.totalPages)
    (free : s.bitTest page = false) : pmmTryAllocPagePhys s ≠ (none, s) := by
  have someFree : s.info.freePages ≠ 0 := by
    rw [ready.free]
    exact Nat.count_ne_iff_exists.mpr ⟨page, below, free⟩
  unfold pmmTryAllocPagePhys
  have positive := ready.positive
  have hint := ready.hint
  simp only [ready.initialized, Bool.not_true, Bool.false_or, Bool.or_eq_true, beq_iff_eq, someFree,
    Nat.ne_of_gt positive, or_self, ↓reduceIte, Nat.not_le.mpr hint, ge_iff_le]
  split
  · obtain ⟨scanned, steps, same⟩ := scanPage_onto hint below
    grind
  · simp

/-- What a caller that received a frame knows. -/
structure Allocated (s : Pmm) (frame : Nat) (t : Pmm) : Prop where
  aligned : frame % 4096 = 0
  below : frame / 4096 < s.info.totalPages
  clear : s.bitTest (frame / 4096) = false
  bits : ∀ q, t.bitTest q = (decide (q = frame / 4096) || s.bitTest q)
  total : t.info.totalPages = s.info.totalPages
  highest : t.info.highestPhysicalAddress = s.info.highestPhysicalAddress

private theorem markPageUsed_initialized (s : Pmm) (page : Nat) :
    (s.markPageUsed page).initialized = s.initialized := by
  unfold Pmm.markPageUsed
  split
  · rfl
  · split <;> rfl

theorem pmmTryAllocPagePhys_allocated {frame : Nat}
    (taken : pmmTryAllocPagePhys s = (some frame, t)) : Allocated s frame t := by
  rcases pmmTryAllocPagePhys_cases s with failed | ⟨page, below, clear, success⟩
  · simp [failed] at taken
  · rw [success, Prod.mk.injEq, Option.some.injEq] at taken
    obtain ⟨rfl, rfl⟩ := taken
    have same : page * pmmPageSize / 4096 = page := by simp [pmmPageSize]
    constructor
    · simp [pmmPageSize]
    · rwa [same]
    · rwa [same]
    · intro q
      have bits := Pmm.markPageUsed_bitTest s page q
      simp only [below, and_true] at bits
      rw [same]
      exact bits
    · simp
    · exact Pmm.markPageUsed_highest s page

theorem pmmTryAllocPagePhys_failed (failed : pmmTryAllocPagePhys s = (none, t)) : t = s := by
  grind [pmmTryAllocPagePhys_cases]

theorem pmmTryAllocPagePhys_ready (ready : s.Ready) : (pmmTryAllocPagePhys s).2.Ready := by
  rcases pmmTryAllocPagePhys_cases s with same | ⟨page, below, -, success⟩
  · grind
  · rw [success]
    have counted := Pmm.markPageUsed_accounted ready.toAccounted page
    refine ⟨⟨counted.bounded, counted.free, counted.used⟩, ?_, ?_, ?_⟩
    · exact (markPageUsed_initialized s page).trans ready.initialized
    · simpa using ready.positive
    grind [Pmm.markPageUsed_totalPages]

/-- The condition under which `pmm_free_page_phys` acts. -/
def Pmm.Frees (s : Pmm) (physAddr : Nat) : Prop :=
  s.initialized = true ∧ physAddr % 4096 = 0 ∧ physAddr / 4096 < s.info.totalPages ∧
    s.bitTest (physAddr / 4096) = true

private theorem free_offset (physAddr : Nat) : physAddr &&& (pmmPageSize - 1) = physAddr % 4096 :=
  Nat.and_two_pow_sub_one_eq_mod physAddr 12

theorem pmmFreePagePhys_of_frees (frees : s.Frees physAddr) : pmmFreePagePhys s physAddr =
      { s.markPageFree (physAddr / 4096) with
        nextSearch := min (physAddr / 4096) s.nextSearch } := by
  obtain ⟨initialized, aligned, below, taken⟩ := frees
  have hint : (s.markPageFree (physAddr / 4096)).nextSearch = s.nextSearch := by
    simp [Pmm.markPageFree, Nat.not_le.mpr below, taken, Pmm.bitClear]
  have page : Pmm.physToPage physAddr = physAddr / 4096 := rfl
  simp only [pmmFreePagePhys, initialized, free_offset, aligned, page,
    Nat.not_le.mpr below, taken, Bool.not_true, Bool.false_eq_true, ne_eq, not_true_eq_false, ↓reduceIte,
    hint]
  split
  · grind
  · rename_i later
    rw [Nat.min_eq_right (Nat.not_lt.mp later), ← hint]

theorem pmmFreePagePhys_ignored (ignored : ¬ s.Frees physAddr) : pmmFreePagePhys s physAddr = s := by
  have page : Pmm.physToPage physAddr = physAddr / 4096 := rfl
  by_cases initialized : s.initialized = true
  · by_cases aligned : physAddr % 4096 = 0
    · by_cases below : physAddr / 4096 < s.info.totalPages
      · have clear : s.bitTest (physAddr / 4096) = false := by
          by_contra taken
          exact ignored ⟨initialized, aligned, below, by simpa using taken⟩
        simp [pmmFreePagePhys, page, clear]
      · simp [pmmFreePagePhys, page, Nat.not_lt.mp below]
    · simp [pmmFreePagePhys, free_offset, aligned]
  · simp [pmmFreePagePhys, initialized]

theorem pmmFreePagePhys_bitTest (s : Pmm) (physAddr q : Nat) : (pmmFreePagePhys s physAddr).bitTest q = true ↔
      s.bitTest q = true ∧ ¬ (s.Frees physAddr ∧ q = physAddr / 4096) := by
  by_cases frees : s.Frees physAddr
  · have cleared := Pmm.markPageFree_bitTest s (physAddr / 4096) q
    rw [pmmFreePagePhys_of_frees frees]
    change (s.markPageFree (physAddr / 4096)).bitTest q = true ↔ _
    simp only [cleared, frees.2.2.1, and_true, Bool.and_eq_true, Bool.not_eq_true', decide_eq_false_iff_not,
      frees, true_and]
    exact and_comm
  grind [pmmFreePagePhys_ignored]

theorem pmmFreePagePhys_totalPages (s : Pmm) (physAddr : Nat) :
    (pmmFreePagePhys s physAddr).info.totalPages = s.info.totalPages := by
  by_cases frees : s.Frees physAddr
  · rw [pmmFreePagePhys_of_frees frees]
    simp
  · rw [pmmFreePagePhys_ignored frees]

theorem pmmFreePagePhys_highest (s : Pmm) (physAddr : Nat) :
    (pmmFreePagePhys s physAddr).info.highestPhysicalAddress = s.info.highestPhysicalAddress := by
  by_cases frees : s.Frees physAddr
  · rw [pmmFreePagePhys_of_frees frees]
    exact Pmm.markPageFree_highest s _
  · rw [pmmFreePagePhys_ignored frees]

theorem pmmFreePagePhys_ready (ready : s.Ready) (physAddr : Nat) : (pmmFreePagePhys s physAddr).Ready := by
  by_cases frees : s.Frees physAddr
  · rw [pmmFreePagePhys_of_frees frees]
    have counted := Pmm.markPageFree_accounted ready.toAccounted (physAddr / 4096)
    have started : (s.markPageFree (physAddr / 4096)).initialized = s.initialized := by
      unfold Pmm.markPageFree
      split
      · rfl
      · split <;> rfl
    refine ⟨⟨counted.bounded, counted.free, counted.used⟩, ?_, ?_, ?_⟩
    · exact started.trans ready.initialized
    · simpa using ready.positive
    grind [Pmm.Ready.hint, Pmm.markPageFree_totalPages]
  grind [pmmFreePagePhys_ignored]

/-- The calls of the allocator's clients. -/
inductive PmmCall where
  | tryAlloc
  | free (physAddr : Nat)
deriving DecidableEq, Repr

def pmmStep (s : Pmm) : PmmCall → Except Panic (Option Nat × Pmm)
  | .tryAlloc => .ok (pmmTryAllocPagePhys s)
  | .free physAddr => .ok (none, pmmFreePagePhys s physAddr)

theorem pmmStep_ready {call : PmmCall} (ready : s.Ready)
    (taken : pmmStep s call = .ok (answer, t)) : t.Ready := by
  cases call with
  | tryAlloc =>
    have next : (pmmTryAllocPagePhys s).2 = t := congrArg Prod.snd (Except.ok.inj taken)
    exact next ▸ pmmTryAllocPagePhys_ready ready
  | free physAddr =>
    cases taken
    exact pmmFreePagePhys_ready ready physAddr

/-- A used frame stays used until it is passed to `pmm_free_page_phys`. -/
theorem pmmSteps_keep_used (run : Lib.Steps pmmStep s trace t) (used : s.bitTest page = true)
    (kept : ∀ answer, (PmmCall.free (page * 4096), answer) ∉ trace) : t.bitTest page = true := by
  induction run with
  | done => exact used
  | @more s call answer middle trace t taken rest ih =>
    apply ih _ (fun answer member => kept answer (List.mem_cons_of_mem _ member))
    cases call with
    | tryAlloc =>
      have next : pmmTryAllocPagePhys s = (answer, middle) := Except.ok.inj taken
      cases answer with
      | none => rwa [pmmTryAllocPagePhys_failed next]
      | some frame => simp [(pmmTryAllocPagePhys_allocated next).bits, used]
    | free physAddr =>
      cases taken
      refine (pmmFreePagePhys_bitTest s physAddr page).mpr ⟨used, ?_⟩
      rintro ⟨⟨-, aligned, -, -⟩, same⟩
      grind

/-- Safety and accounting of the physical allocator over every history that
starts with a successful `pmm_init`. -/
theorem pmm_history_safe (boot : Boot) (s₀ s t : Pmm) (trace : List (PmmCall × Option Nat))
    (started : pmmInit boot s₀ = .ok s) (run : Lib.Steps pmmStep s trace t) :
    (t.info.freePages = Nat.count (fun page => t.bitTest page = false) t.info.totalPages ∧
      t.info.usedPages = Nat.count (fun page => t.bitTest page = true) t.info.totalPages ∧
      t.info.freePages + t.info.usedPages = t.info.totalPages ∧ t.info.totalPages ≤ 2 ^ 52 ∧
      t.nextSearch < t.info.totalPages) ∧
    (∀ frame u, pmmTryAllocPagePhys t = (some frame, u) →
      ∃ page < t.info.totalPages, frame = 4096 * page ∧ t.bitTest page = false ∧
        u.bitTest page = true ∧ ∀ other, other ≠ page → u.bitTest other = t.bitTest other) ∧
    (∀ u, pmmTryAllocPagePhys t = (none, u) → u = t) ∧
    (∀ physAddr, physAddr % 4096 ≠ 0 ∨ t.info.totalPages ≤ physAddr / 4096 ∨
        t.bitTest (physAddr / 4096) = false → pmmFreePagePhys t physAddr = t) ∧
    (∀ before between after frame,
      trace = before ++ (.tryAlloc, some frame) :: (between ++ (.tryAlloc, some frame) :: after) →
      ∃ answer, (PmmCall.free frame, answer) ∈ between) := by
  have ready : t.Ready := run.invariant Pmm.Ready pmmStep_ready (pmmInit_ready started)
  refine ⟨⟨ready.free, ready.used, ready.sum, ready.bounded, ready.hint⟩, ?_, ?_, ?_, ?_⟩
  · intro frame u taken
    have got := pmmTryAllocPagePhys_allocated taken
    have aligned := got.aligned
    refine ⟨frame / 4096, got.below, by omega, got.clear, by simp [got.bits], ?_⟩
    grind [Allocated.bits]
  · grind [pmmTryAllocPagePhys_failed]
  · intro physAddr bogus
    apply pmmFreePagePhys_ignored
    rintro ⟨-, aligned, below, taken⟩
    grind
  · rintro before between after frame rfl
    obtain ⟨first, -, later⟩ := run.split
    cases later with
    | @more _ _ _ second _ _ taken rest =>
      obtain ⟨third, betweenRun, last⟩ := rest.split
      cases last with
      | more again _ =>
        -- The first answer sets the bit; the second needs it clear again.
        have got := pmmTryAllocPagePhys_allocated (Except.ok.inj taken)
        have regot := pmmTryAllocPagePhys_allocated (Except.ok.inj again)
        have aligned := got.aligned
        by_contra kept
        have still : third.bitTest (frame / 4096) = true :=
          pmmSteps_keep_used betweenRun (by simp [got.bits])
            (by grind)
        simp [regot.clear] at still

/-- Sixteen frames, of which the kernel image covers the third. -/
def tinyBoot : Boot where
  memoryMap := [⟨0, 0x10000, .usable⟩, ⟨0x10000, 0x1000, .bootloaderReclaimable⟩]
  hhdmOffset := 0xffff800000000000
  framebuffer := ⟨0, 0, 0⟩
  kernelVirtualStart := 0xffffffff80002000
  kernelVirtualEnd := 0xffffffff80003000
  kernelPhysicalStart := 0x2000
  kernelPhysicalEnd := 0x3000
  rsp := 0

def blankPmm : Pmm where
  bitmap := fun _ => 0
  info := ⟨0, 0, 0, 0, 0, 0⟩
  nextSearch := 0
  initialized := false

theorem pmm_history_safe_tiny :
    ∃ s t, pmmInit tinyBoot blankPmm = .ok s ∧
      Lib.Steps pmmStep s [(.tryAlloc, some 0x1000), (.free 0x1000, none)] t ∧
      t.info.freePages + t.info.usedPages = t.info.totalPages := by
  have started : pmmInit tinyBoot blankPmm = .ok (Lib.outcome blankPmm (pmmInit tinyBoot blankPmm)) :=
    Lib.eq_ok_outcome _ (by decide +kernel)
  have first : pmmStep (Lib.outcome blankPmm (pmmInit tinyBoot blankPmm)) .tryAlloc =
      .ok (some 0x1000, (pmmTryAllocPagePhys (Lib.outcome blankPmm (pmmInit tinyBoot blankPmm))).2) := by
    refine congrArg Except.ok (Prod.ext ?_ rfl)
    decide +kernel
  have second : pmmStep (pmmTryAllocPagePhys (Lib.outcome blankPmm (pmmInit tinyBoot blankPmm))).2
      (.free 0x1000) = .ok (none, _) := rfl
  have run := Lib.Steps.more first (Lib.Steps.single second)
  exact ⟨_, _, started, run, (pmm_history_safe _ _ _ _ _ started run).1.2.2.1⟩

end Velox
