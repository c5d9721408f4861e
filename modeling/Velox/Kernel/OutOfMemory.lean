import Velox.Kernel.SchedSafety
import Velox.Mm.FrameDemand
import Velox.Mm.KmallocAnswers
import Velox.Mm.VmallocRanges

namespace Velox

section Vmalloc

variable {boot : Boot} {s : Vmalloc} {live : List (Nat × Nat)} {size flags : Nat}

/-- The pages of a range. -/
def rangePages (addr aligned : Nat) : List Nat := (strides 0 aligned pmmPageSize).map (addr + ·)

/-- A request for which `vmalloc` finds a range, and then the frames end between a page and its
tables, or the range that must be given back does not fit into the table of ranges. -/
def Vmalloc.Overdrawn (boot : Boot) (s : Vmalloc) (size flags : Nat) : Prop :=
  0 < size ∧ size ≤ alignUp size pmmPageSize ∧
    ∃ addr left, firstFit (alignUp size pmmPageSize) (s.ranges boot) = some (addr, left) ∧
      ((s.paging.info.rootPml4Phys ≠ 0 ∧
          s.paging.TablesShort s.paging.info.rootPml4Phys flags (rangePages addr (alignUp size pmmPageSize))) ∨
        (vmallocMaxRanges ≤ left.length ∧ (s.paging.info.rootPml4Phys = 0 ∨
          ¬ s.paging.Supplies s.paging.info.rootPml4Phys flags (rangePages addr (alignUp size pmmPageSize)))))

section

variable (inv : VmallocInv s live) (positive : 0 < size)
  (enough : size ≤ alignUp size pmmPageSize)
include inv positive enough

/-- The mapping loop over a range that first fit found. -/
theorem VmallocInv.carve_loop {left : List Lib.Range}
    (found : firstFit (alignUp size pmmPageSize) s.free = some (addr, left)) :
    (∀ offset ∈ strides 0 (alignUp size pmmPageSize) pmmPageSize, addr + offset < 2 ^ 64 ∧ (addr + offset) % 4096 = 0) ∧
      (rangePages addr (alignUp size pmmPageSize)).Pairwise (fun first second => pageNumber first ≠ pageNumber second) ∧
      (strides 0 (alignUp size pmmPageSize) pmmPageSize).length * 4096 = alignUp size pmmPageSize := by
  obtain ⟨⟨total, whole⟩, extent⟩ := alignUp_pages positive enough
  have region := inv.region.bounded
  have limit := inv.region.fits
  obtain ⟨-, aligned, below, inside, -⟩ := firstFit_ok inv.ranges limit (alignUp_pages positive enough).1 found
  have low := ((inv.covers addr).mp (inside addr ⟨Nat.le_refl _, Nat.lt_add_of_pos_right extent⟩)).1
  rw [Nat.mul_comm] at whole
  rw [rangePages, whole]
  refine ⟨fun offset member => ?_, strides_pages_apart aligned (by omega), ?_⟩
  · have short := mem_strides_pages.mp member
    omega
  · rw [pmmPageSize, strides_pages, List.length_map, List.length_range]

theorem vmallocCarve_returns_iff :
    (∃ answer, vmallocCarve s (alignUp size pmmPageSize) flags = .ok answer) ↔
      ¬ ∃ addr left, firstFit (alignUp size pmmPageSize) s.free = some (addr, left) ∧
        ((s.paging.info.rootPml4Phys ≠ 0 ∧
            s.paging.TablesShort s.paging.info.rootPml4Phys flags (rangePages addr (alignUp size pmmPageSize))) ∨
          (vmallocMaxRanges ≤ left.length ∧ (s.paging.info.rootPml4Phys = 0 ∨
            ¬ s.paging.Supplies s.paging.info.rootPml4Phys flags (rangePages addr (alignUp size pmmPageSize))))) := by
  obtain ⟨pages, extent⟩ := alignUp_pages positive enough
  unfold vmallocCarve
  cases found : firstFit (alignUp size pmmPageSize) s.free with
  | none => simp
  | some fit =>
    obtain ⟨addr, left⟩ := fit
    have gives : ∀ {next : List Lib.Range → Vmalloc}, (∃ answer, (vmallocFreeRange left addr (alignUp size pmmPageSize) >>=
        fun free => pure (0, next free)) = Except.ok answer) ↔ left.length < vmallocMaxRanges := by
      intro next
      rw [← vmallocFreeRange_returns_iff left addr extent, Lib.bind_returns_iff]
      exact exists_congr fun free => and_iff_left ⟨_, rfl⟩
    have only : ∀ {P : Nat → List Lib.Range → Prop},
        (∃ addr' left', some (addr, left) = some (addr', left') ∧ P addr' left') ↔ P addr left := by
      simp
    rw [only]
    dsimp only
    by_cases rooted : s.paging.info.rootPml4Phys = 0
    · rw [if_pos rooted, gives]
      simp [rooted]
    rw [if_neg rooted]
    obtain ⟨fits, apart, length⟩ := inv.carve_loop positive enough found
    simp only [rooted, ne_eq, not_false_eq_true, true_and, false_or, not_or, not_and, not_not]
    rw [Lib.bind_returns_iff]
    constructor
    · rintro ⟨⟨mapped, paging⟩, looped, rest⟩
      obtain ⟨enough', supplied⟩ := mapPages_returns inv.backed.tree fits apart looped
      rw [Nat.zero_add, length] at supplied
      refine ⟨enough', fun full => supplied.mp ?_⟩
      by_contra partly
      rw [if_neg partly, Lib.bind_returns_iff] at rest
      obtain ⟨undone, -, rest⟩ := rest
      exact Nat.not_lt.mpr full (gives.mp rest)
    · rintro ⟨enough', supplied'⟩
      cases looped : mapPages s.paging.info.rootPml4Phys addr flags (strides 0 (alignUp size pmmPageSize) pmmPageSize) 0 s.paging with
      | error fault =>
        exact absurd (mapPages_halts inv.backed.tree (fun offset member => (fits offset member).1) apart looped) enough'
      | ok result =>
        obtain ⟨mapped, paging⟩ := result
        refine ⟨(mapped, paging), rfl, ?_⟩
        have supplied := (mapPages_returns inv.backed.tree fits apart looped).2
        rw [Nat.zero_add, length] at supplied
        split
        · exact ⟨_, rfl⟩
        · rename_i partly
          obtain ⟨-, start, -, inside, -⟩ := firstFit_ok inv.ranges inv.region.fits pages found
          obtain ⟨count, rfl, bounded, backed⟩ := inv.mapPages positive enough start inside looped
          obtain ⟨undone, unmapped⟩ := unmapPages_returns backed (strides_pages_nodup count)
            (fun offset member => (inv.vacant positive enough found bounded member).1)
            (fun offset member => .inr ⟨offset, member, rfl⟩)
          rw [Lib.bind_returns_iff]
          refine ⟨undone, unmapped, gives.mpr ?_⟩
          by_contra full
          exact partly (supplied.mpr (supplied' (Nat.not_lt.mp full)))

end

theorem vmalloc_returns_iff (room : boot.VmallocRoom) (sound : VmallocClient.Sound boot ⟨s, live⟩) :
    (∃ answer, vmalloc boot s size flags = .ok answer) ↔ ¬ s.Overdrawn boot size flags := by
  rcases vmalloc_entry room sound size flags with
    ⟨refused, why⟩ | ⟨vm, first, inv, same, positive, enough, carves⟩
  · refine iff_of_true ⟨_, refused⟩ ?_
    rintro ⟨positive, enough, addr, left, found, -⟩
    rcases why with zero | wraps | ⟨first, free⟩
    · omega
    · omega
    · rw [Vmalloc.ranges, first] at found
      rw [free] at found
      cases found
  · rw [carves, vmallocCarve_returns_iff inv positive enough, Vmalloc.Overdrawn, Vmalloc.ranges, first, same]
    grind

end Vmalloc

section Kmalloc

variable {boot : Boot} {s : Kmalloc} {live : List Nat} {mapped : List (Nat × Nat)} {n : Nat}

/-- A request that the heap cannot serve without a pool, where the pool is one that `vmalloc` panics
for. The first request may need two pools, where it is larger than one. -/
def Kmalloc.Overdrawn (boot : Boot) (s : Kmalloc) (n : Nat) : Prop :=
  n ≠ 0 ∧ ¬ s.Fits (alignUpSz n kmallocAlign) ∧ (s.vm.Overdrawn boot kmallocPoolSize vmallocDefaultFlags ∨
      (s.initialized = false ∧ kmallocPoolSize - kmallocHeader < alignUpSz n kmallocAlign ∧
        ∃ pool vm, vmalloc boot s.vm kmallocPoolSize vmallocDefaultFlags = .ok (pool, vm) ∧ pool ≠ 0 ∧
          vm.Overdrawn boot kmallocPoolSize vmallocDefaultFlags))

theorem kmalloc_returns_iff (room : boot.VmallocRoom) (sound : HeapSound boot s live mapped) :
    (∃ answer, kmalloc boot s n = .ok answer) ↔ ¬ s.Overdrawn boot n := by
  obtain ⟨pools, blocks, frees, heap, below⟩ := sound
  by_cases asked : n = 0
  · exact iff_of_true ⟨(0, s), by rw [kmalloc, if_pos asked]⟩ fun overdrawn => overdrawn.1 asked
  have panics : ∀ {cause}, vmalloc boot s.vm kmallocPoolSize vmallocDefaultFlags = .error cause →
      s.vm.Overdrawn boot kmallocPoolSize vmallocDefaultFlags := by
    intro cause called
    by_contra enough
    obtain ⟨answer, done⟩ := (vmalloc_returns_iff room below).mpr enough
    grind
  have lasts : ∀ {answer}, vmalloc boot s.vm kmallocPoolSize vmallocDefaultFlags = .ok answer →
      ¬ s.vm.Overdrawn boot kmallocPoolSize vmallocDefaultFlags :=
    fun called => (vmalloc_returns_iff room below).mp ⟨_, called⟩
  rcases Bool.eq_false_or_eq_true s.initialized with ready | fresh
  · rcases heap.kmalloc_outcome room below ready asked with ⟨fits, ptr, t, done, -⟩ | ⟨full, ⟨cause, called, done⟩ |
        ⟨vm, called, done⟩ | ⟨pool, vm, grown, called, -, ⟨-, ptr, t, done, -⟩ | ⟨-, done⟩⟩⟩
    · exact iff_of_true ⟨_, done⟩ fun overdrawn => overdrawn.2.1 fits
    · refine iff_of_false ?_ (not_not.mpr ⟨asked, full, .inl (panics called)⟩)
      grind
    all_goals
      refine iff_of_true ⟨_, done⟩ ?_
      rintro ⟨-, -, overdrawn | ⟨unset, -⟩⟩
      · grind
      grind
  · have unfit : ¬ s.Fits (alignUpSz n kmallocAlign) := by
      rintro ⟨initialized, -⟩
      grind
    rcases heap.kmalloc_first room below fresh asked with
      ⟨cause, called, done⟩ | ⟨vm, called, done⟩ | ⟨pool, vm, grown, called, expanded, done⟩
    · refine iff_of_false ?_ (not_not.mpr ⟨asked, unfit, .inl (panics called)⟩)
      grind
    · refine iff_of_true ⟨_, done⟩ ?_
      rintro ⟨-, -, overdrawn | ⟨-, -, pool, vm', called', real, -⟩⟩
      · grind
      grind
    · -- The call goes on from a heap with one pool.
      have heap' : Heap { grown with initialized := true } _ _ _ live := expanded.heap.congr rfl fun _ _ => rfl
      have below' := expanded.below
      have backing := expanded.backing
      rw [backing] at below'
      have second : (∃ answer, kmalloc boot { grown with initialized := true } n = .ok answer) ↔
          ¬ (kmallocPoolSize - kmallocHeader < alignUpSz n kmallocAlign ∧
            vm.Overdrawn boot kmallocPoolSize vmallocDefaultFlags) := by
        rcases heap'.kmalloc_outcome room expanded.below rfl asked with ⟨fits, ptr, t, done, -⟩ | ⟨full, ⟨cause, called', done⟩ |
            ⟨vm', called', done⟩ | ⟨pool', vm', grown', called', -, ⟨small, ptr, t, done, -⟩ | ⟨-, done⟩⟩⟩
        · refine iff_of_true ⟨_, done⟩ fun both => ?_
          obtain ⟨-, b, free, enough⟩ := (heap'.fits_iff _).mp fits
          have bounded := heap'.block_le ((heap'.listed b).mp free).1
          omega
        · refine iff_of_false ?_ (not_not.mpr ⟨?_, ?_⟩)
          · grind
          · by_contra small
            exact full ((heap'.fits_iff _).mpr ⟨rfl, pool, List.mem_cons_self, by rw [expanded.size]; omega⟩)
          · by_contra enough
            obtain ⟨answer, done'⟩ := (vmalloc_returns_iff room below').mpr enough
            grind
        all_goals
          refine iff_of_true ⟨_, done⟩ fun both => ?_
          rw [backing] at called'
          exact (vmalloc_returns_iff room below').mp ⟨_, called'⟩ both.2
      rw [done, second, not_iff_not]
      constructor
      · rintro ⟨large, overdrawn⟩
        exact ⟨asked, unfit, .inr ⟨fresh, large, pool, vm, called, expanded.real, overdrawn⟩⟩
      · rintro ⟨-, -, overdrawn | ⟨-, large, pool', vm', called', -, overdrawn⟩⟩
        · grind
        grind

end Kmalloc

section Calls

variable {boot : Boot} {s : KmallocClient}

theorem kmallocStep_kmalloc_iff (room : boot.VmallocRoom) (sound : s.Sound boot) (n : Nat) :
    (∃ answer, kmallocStep boot s (.kmalloc n) = .ok answer) ↔ ¬ s.heap.Overdrawn boot n := by
  rw [← kmalloc_returns_iff room sound]
  exact Lib.bind_returns_iff.trans (exists_congr fun answer => and_iff_left ⟨_, rfl⟩)

theorem kmallocStep_vmalloc_iff (room : boot.VmallocRoom) (sound : s.Sound boot) (size flags : Nat) :
    (∃ answer, kmallocStep boot s (.vmalloc size flags) = .ok answer) ↔ ¬ s.heap.vm.Overdrawn boot size flags := by
  obtain ⟨pools, blocks, frees, -, below⟩ := sound
  rw [← vmalloc_returns_iff room below]
  refine Lib.bind_returns_iff.trans (exists_congr fun answer => ?_)
  constructor
  · exact fun both => Lib.attempt_ok both.1
  · intro done
    rw [done]
    exact ⟨rfl, _, rfl⟩

theorem kmallocStep_kfree_returns (sound : s.Sound boot) (handed : ptr ∈ s.live) :
    ∃ answer, kmallocStep boot s (.kfree ptr) = .ok answer := by
  obtain ⟨pools, blocks, frees, heap, -⟩ := sound
  obtain ⟨t, done, -⟩ := heap.kfree handed
  simp only [kmallocStep]
  rw [if_pos (.inr handed), Lib.bind_returns_iff]
  exact ⟨t, done, _, rfl⟩

end Calls

section Sched

variable {env : SchedEnv} {s : SchedSystem} {entry arg : Nat}

theorem allocate_ok_iff {memory : KmallocClient} {call : KmallocCall} :
    allocate env memory call = .ok (answer, memory') ↔ kmallocStep env.boot memory call = .ok (answer, memory') := by
  unfold allocate
  grind

/-- `sched_spawn` gets its task and its stack, or neither, iff none of the two calls panics. -/
theorem schedPrepare_returns_iff (room : env.boot.VmallocRoom) (sound : s.memory.Sound env.boot) :
    (∃ answer, schedPrepare env s entry arg = .ok answer) ↔ entry = 0 ∨
      (¬ s.memory.heap.Overdrawn env.boot sizeofSchedTask ∧
        ∀ task memory, kmallocStep env.boot s.memory (.kmalloc sizeofSchedTask) = .ok (task, memory) → task ≠ 0 →
          ¬ memory.heap.vm.Overdrawn env.boot schedStackSize vmallocDefaultFlags) := by
  unfold schedPrepare
  by_cases called : entry = 0
  · rw [if_pos called]
    grind
  rw [if_neg called, Lib.bind_returns_iff, ← kmallocStep_kmalloc_iff room sound]
  simp only [called, false_or]
  constructor
  · rintro ⟨⟨task, memory⟩, allocated, rest⟩
    have given := allocate_ok_iff.mp allocated
    refine ⟨⟨_, given⟩, fun task' memory' given' real => ?_⟩
    rw [given] at given'
    cases given'
    rw [if_neg real, Lib.bind_returns_iff] at rest
    obtain ⟨⟨stack, memory'⟩, given', -⟩ := rest
    exact (kmallocStep_vmalloc_iff room (kmallocStep_next room sound given) _ _).mp ⟨_, allocate_ok_iff.mp given'⟩
  · rintro ⟨⟨⟨task, memory⟩, given⟩, lasts⟩
    refine ⟨(task, memory), allocate_ok_iff.mpr given, ?_⟩
    by_cases real : task = 0
    · rw [if_pos real]
      exact ⟨_, rfl⟩
    have sound' := kmallocStep_next room sound given
    obtain ⟨⟨stack, memory'⟩, given'⟩ := (kmallocStep_vmalloc_iff room sound' _ _).mpr (lasts task memory given real)
    rw [if_neg real, Lib.bind_returns_iff]
    refine ⟨(stack, memory'), allocate_ok_iff.mpr given', ?_⟩
    by_cases failed : stack = 0
    · have handed : task ∈ memory'.live := by
        rw [kmallocStep_live given', liveAfter, kmallocStep_live given, liveAfter, if_neg real]
        exact List.mem_cons_self
      obtain ⟨⟨answer, freed⟩, done⟩ := kmallocStep_kfree_returns (kmallocStep_next room sound' given') handed
      rw [if_pos failed, Lib.bind_returns_iff]
      exact ⟨(answer, freed), allocate_ok_iff.mpr done, _, rfl⟩
    · rw [if_neg failed]
      exact ⟨_, rfl⟩

theorem schedPrepare_panics (called : entry ≠ 0)
    (halted : kmalloc env.boot s.memory.heap sizeofSchedTask = .error (.fault cause)) :
    schedPrepare env s entry arg = .error (.fault (.panic cause)) := by
  rw [schedPrepare, if_neg called, allocate, kmallocStep, halted]
  rfl

end Sched

section Reached

/-- A page of the region that is not free. -/
def Vmalloc.HandedOut (s : Vmalloc) (page : Nat) : Prop := s.base ≤ page ∧ page < s.limit ∧ ¬ Lib.Covers s.free page

def KmallocClient.withPaging (s : KmallocClient) (paging : Paging) : KmallocClient :=
  { s with heap := { s.heap with vm := { s.heap.vm with paging := paging } } }

/-- The allocators with their clients, from the boot on. Others take and give back frames that hold
no table and back no page of `vmalloc`, and call the paging code for pages that are not handed out. -/
inductive MemoryReached (boot : Boot) : KmallocClient → Prop where
  | start (before : Reached boot paging) (block : Nat → KmallocBlock) :
      MemoryReached boot ⟨⟨⟨paging, [], 0, 0, false⟩, block, 0, false⟩, [], []⟩
  | call (before : MemoryReached boot s) (taken : kmallocStep boot s call = .ok (answer, t)) : MemoryReached boot t
  | paging (before : MemoryReached boot s)
      (apart : ∀ page, s.heap.vm.HandedOut page → pageNumber page ≠ pageNumber call.virtAddr)
      (taken : pagingStep s.heap.vm.paging call = .ok (answer, paging)) : MemoryReached boot (s.withPaging paging)
  | setNx (before : MemoryReached boot s) (enabled : Bool) :
      MemoryReached boot (s.withPaging { s.heap.vm.paging with nxEnabled := enabled })
  | allocFrame (before : MemoryReached boot s) (taken : pmmTryAllocPagePhys s.heap.vm.paging.pmm = (some frame, pmm)) :
      MemoryReached boot (s.withPaging { s.heap.vm.paging with pmm := pmm })
  | freeFrame (before : MemoryReached boot s)
      (foreign : ∀ path, path.length ≤ 3 →
        s.heap.vm.paging.tableAt s.heap.vm.paging.info.rootPml4Phys path ≠ some frame)
      (unused : ∀ page, s.heap.vm.HandedOut page →
        s.heap.vm.paging.frameAt s.heap.vm.paging.info.rootPml4Phys page ≠ some frame) :
      MemoryReached boot (s.withPaging { s.heap.vm.paging with pmm := pmmFreePagePhys s.heap.vm.paging.pmm frame })

variable {boot : Boot} {s : KmallocClient}

theorem VmallocInv.handedOut {s : Vmalloc} (inv : VmallocInv s live) (used : LivePage live page) :
    s.HandedOut page := by
  obtain ⟨range, member, inside⟩ := used.2
  obtain ⟨entry, listed, rfl⟩ := List.mem_map.mp member
  obtain ⟨-, low, high⟩ := inv.placed entry listed
  simp only [Lib.Range.Contains, allocation] at inside
  exact ⟨by omega, by omega, fun free => ((inv.covers page).mp free).2.2 used.2⟩

/-- Others may replace the page tables by any that still back what is handed out. -/
theorem KmallocClient.Sound.withPaging {paging : Paging} (sound : s.Sound boot)
    (space : KernelSpace boot s.heap.vm.paging → KernelSpace boot paging)
    (backed : ∀ pages : Nat → Prop, (∀ page, pages page → s.heap.vm.HandedOut page) →
      Backed s.heap.vm.base s.heap.vm.paging.info.rootPml4Phys s.heap.vm.paging pages →
      Backed s.heap.vm.base s.heap.vm.paging.info.rootPml4Phys paging pages) : (s.withPaging paging).Sound boot := by
  obtain ⟨pools, blocks, frees, heap, below⟩ := sound
  refine ⟨pools, blocks, frees, heap.congr rfl fun _ _ => rfl, ?_⟩
  rcases below with ⟨fresh, free, base, limit, none', before⟩ | inv
  · exact .inl ⟨fresh, free, base, limit, none', space before⟩
  · exact .inr (inv.replace (backed _ (fun page used => inv.handedOut used) inv.backed))

theorem MemoryReached.sound (reached : MemoryReached boot s) (room : boot.VmallocRoom) : s.Sound boot := by
  induction reached with
  | start before block => exact kmallocSteps_sound before room .done
  | call _ taken ih => exact kmallocStep_next room ih taken
  | paging _ apart taken ih =>
    refine ih.withPaging (fun space => ?_) fun pages handed backed => ?_
    · have keeps := (pagingStep_keeps space.tree taken).1
      exact ⟨keeps.tree, keeps.initialized.trans space.initialized, keeps.highest.trans space.highest, space.aligned,
        space.kernelEnd⟩
    grind [pagingStep_rebound, Backed.tree, Backed.rebind]
  | setNx _ enabled ih =>
    refine ih.withPaging (fun space => ?_) fun pages handed backed => ?_
    · exact ⟨space.tree.congr rfl rfl, space.initialized, space.highest, space.aligned, space.kernelEnd⟩
    · exact ⟨backed.tree.congr rfl rfl, backed.recorded, backed.inside, backed.mapped, backed.distinct⟩
  | allocFrame _ taken ih =>
    refine ih.withPaging (fun space => ?_) fun pages handed backed => backed.allocFrame taken
    have got := pmmTryAllocPagePhys_allocated taken
    exact ⟨space.tree.allocFrame taken, space.initialized, got.highest.trans space.highest, space.aligned, space.kernelEnd⟩
  | freeFrame _ foreign unused ih =>
    refine ih.withPaging (fun space => ?_) fun pages handed backed =>
      backed.freeFrame foreign fun page member => unused page (handed page member)
    exact ⟨space.tree.freeFrame foreign, space.initialized, (pmmFreePagePhys_highest _ _).trans space.highest,
      space.aligned, space.kernelEnd⟩

end Reached

/-- The calls that return, in every state and however few frames are left: all but those for which
the frames end between a page and its tables, or the ranges do not fit into their table. -/
theorem out_of_memory_returns_iff {env : SchedEnv} {s : SchedSystem} (room : env.boot.VmallocRoom)
    (reached : MemoryReached env.boot s.memory) :
    (∀ size flags, (∃ answer, vmalloc env.boot s.memory.heap.vm size flags = .ok answer) ↔
      ¬ s.memory.heap.vm.Overdrawn env.boot size flags) ∧
    (∀ n, (∃ answer, kmalloc env.boot s.memory.heap n = .ok answer) ↔ ¬ s.memory.heap.Overdrawn env.boot n) ∧
    (∀ entry arg, (∃ answer, schedPrepare env s entry arg = .ok answer) ↔ entry = 0 ∨
      (¬ s.memory.heap.Overdrawn env.boot sizeofSchedTask ∧
        ∀ task memory, kmallocStep env.boot s.memory (.kmalloc sizeofSchedTask) = .ok (task, memory) → task ≠ 0 →
          ¬ memory.heap.vm.Overdrawn env.boot schedStackSize vmallocDefaultFlags)) := by
  have sound := reached.sound room
  refine ⟨fun size flags => ?_, fun n => kmalloc_returns_iff room sound, fun entry arg => schedPrepare_returns_iff room sound⟩
  obtain ⟨pools, blocks, frees, -, below⟩ := sound
  exact vmalloc_returns_iff room below

/-- Seventeen frames, with the kernel image at the end of a 2 MiB block. -/
def edgeBoot : Boot :=
  { tinyBoot with
    kernelVirtualStart := 0xffffffff801ff000
    kernelVirtualEnd := 0xffffffff80200000
    kernelPhysicalStart := 0x1ff000
    kernelPhysicalEnd := 0x200000 }

def edgePaging : Paging := { tinyPaging with pmm := Lib.outcome blankPmm (pmmInit edgeBoot blankPmm) }

def edgePagingReady : Paging := Lib.outcome edgePaging (pagingInit edgeBoot edgePaging)

theorem edgePaging_atBoot : AtBoot edgeBoot edgePaging where
  started := ⟨blankPmm, Lib.eq_ok_outcome blankPmm (by decide +kernel)⟩
  fresh := rfl
  apart := tinyPaging_atBoot.apart
  sized := tinyPaging_atBoot.sized

theorem edgePagingReady_reached : Reached edgeBoot edgePagingReady :=
  .init edgePaging_atBoot (Lib.eq_ok_outcome _ (by decide +kernel))

/-- Another part of the kernel takes a frame, if there is one. -/
def takeFrame (s : Paging) : Paging := { s with pmm := (pmmTryAllocPagePhys s.pmm).2 }

theorem Reached.takeFrame (reached : Reached boot s) : Reached boot (takeFrame s) := by
  cases taken : pmmTryAllocPagePhys s.pmm with
  | mk answer pmm =>
    cases answer with
    | none =>
      rw [Velox.takeFrame, taken, pmmTryAllocPagePhys_failed taken]
      exact reached
    | some frame =>
      rw [Velox.takeFrame, taken]
      exact reached.allocFrame taken

/-- The allocators of that machine where others hold all frames but one. -/
def edgeMemory : KmallocClient :=
  ⟨⟨⟨takeFrame^[5] edgePagingReady, [], 0, 0, false⟩, fun _ => ⟨0, 0, 0, 0, 0, 0⟩, 0, false⟩, [], []⟩

theorem edgeMemory_reached : MemoryReached edgeBoot edgeMemory :=
  .start (Function.Iterate.rec (Reached edgeBoot) edgePagingReady_reached (fun _ reached => reached.takeFrame) 5) _

theorem edgeMemory_panics : vmalloc edgeBoot edgeMemory.heap.vm 1 vmallocDefaultFlags =
      .error ⟨"Paging init failed: out of memory for page tables"⟩ := Lib.eq_error_of_fault (by decide +kernel)

theorem out_of_memory_returns_iff_edge : edgeBoot.VmallocRoom ∧ MemoryReached edgeBoot edgeMemory ∧
    edgeMemory.heap.vm.Overdrawn edgeBoot 1 vmallocDefaultFlags := by
  have room : edgeBoot.VmallocRoom := ⟨by decide, by decide⟩
  refine ⟨room, edgeMemory_reached, ?_⟩
  have sched : Sched := ⟨fun _ => ⟨.null, .null, .null, 0⟩, fun _ => ⟨0, 0, 0, .runnable, .null⟩, fun _ => .zeros, 0, false⟩
  obtain ⟨single, -⟩ := @out_of_memory_returns_iff ⟨edgeBoot, 1, fun _ => 0, 0x1000⟩ ⟨sched, edgeMemory, [], []⟩ room
    edgeMemory_reached
  by_contra enough
  obtain ⟨answer, done⟩ := (single 1 vmallocDefaultFlags).mpr enough
  rw [edgeMemory_panics] at done
  cases done

theorem edgeMemory_no_pool : vmalloc edgeBoot edgeMemory.heap.vm kmallocPoolSize vmallocDefaultFlags =
    .error ⟨"Paging init failed: out of memory for page tables"⟩ := Lib.eq_error_of_fault (by decide +kernel)

theorem edgeMemory_no_heap (asked : n ≠ 0) : kmalloc edgeBoot edgeMemory.heap n =
    .error (.fault ⟨"Paging init failed: out of memory for page tables"⟩) := by
  rw [kmalloc_fresh rfl asked, expandPool, edgeMemory_no_pool]
  rfl

/-- With one frame left `vmalloc` takes it for a page, and then there is none for the table. -/
theorem out_of_memory_panics : MemoryReached edgeBoot edgeMemory ∧
    vmalloc edgeBoot edgeMemory.heap.vm 1 vmallocDefaultFlags =
      .error ⟨"Paging init failed: out of memory for page tables"⟩ ∧
    kmalloc edgeBoot edgeMemory.heap 1 = .error (.fault ⟨"Paging init failed: out of memory for page tables"⟩) ∧
    ∀ sched, schedPrepare ⟨edgeBoot, 1, fun _ => 0, 0x1000⟩ ⟨sched, edgeMemory, [], []⟩ 0x2000 0 =
      .error (.fault (.panic ⟨"Paging init failed: out of memory for page tables"⟩)) := by
  refine ⟨edgeMemory_reached, edgeMemory_panics, edgeMemory_no_heap (by decide), fun sched => ?_⟩
  exact schedPrepare_panics (by decide) (edgeMemory_no_heap (by decide))

end Velox
