import Velox.Mm.KmallocSafety
import Velox.Mm.Supply

namespace Velox

/-- The heap is set up and some free block has at least this size. -/
def Kmalloc.Fits (s : Kmalloc) (size : Nat) : Prop :=
  s.initialized = true ∧ ∃ frees, FreeLinked s frees ∧ ∃ b ∈ frees, size ≤ (s.block b).size

/-- `vmalloc` has a pool for the heap. -/
def PoolSupplied (boot : Boot) (vm : Vmalloc) : Prop :=
  ∃ pool vm', vmalloc boot vm kmallocPoolSize vmallocDefaultFlags = .ok (pool, vm') ∧ pool ≠ 0

/-- `vmalloc` answers the request for a pool with `NULL`. -/
def PoolRefused (boot : Boot) (vm : Vmalloc) : Prop :=
  ∃ vm', vmalloc boot vm kmallocPoolSize vmallocDefaultFlags = .ok (0, vm')

section Outcome

variable {boot : Boot} {s t : Kmalloc} {pools frees live : List Nat} {blocks : Nat → List Nat}
  {mapped : List (Nat × Nat)} {n : Nat}

theorem Heap.fits_iff (heap : Heap s pools blocks frees live) (size : Nat) :
    s.Fits size ↔ s.initialized = true ∧ ∃ b ∈ frees, size ≤ (s.block b).size := by
  refine and_congr_right fun _ => ⟨?_, fun found => ⟨frees, heap.linked, found⟩⟩
  rintro ⟨others, linked, found⟩
  rw [heap.linked.forward.unique linked.forward heap.linked.proper linked.proper]
  exact found

/-- No block is larger than a whole pool. -/
theorem Heap.block_le (heap : Heap s pools blocks frees live) (isBlock : IsBlock pools blocks b) :
    (s.block b).size ≤ kmallocPoolSize - kmallocHeader := by
  obtain ⟨base, member, inPool⟩ := isBlock
  have inside := (heap.layout.tiled base member).inside inPool
  simp only [blockEnd] at inside
  omega

theorem alignUpSz_aligned (size : Nat) : kmallocAlign ∣ alignUpSz size kmallocAlign := by
  rw [alignUpSz_eq]
  exact Nat.dvd_mul_left _ _

/-- `kmalloc` on a heap that is set up. -/
theorem kmalloc_ready (ready : s.initialized = true) (asked : n ≠ 0) : kmalloc boot s n =
    (kmallocAttempt s (alignUpSz n kmallocAlign) >>= fun answer =>
      if answer.1 ≠ 0 then .ok answer
      else expandPool boot answer.2 >>= fun grown =>
        if grown.1 = true then kmallocAttempt grown.2 (alignUpSz n kmallocAlign) else .ok (0, grown.2)) := by
  simp only [kmalloc, if_neg asked, kmallocInitLocked, ready, ↓reduceIte]
  refine (Lib.bind_of_ok rfl).trans ?_
  simp only [Bool.not_true, Bool.false_eq_true, ↓reduceIte]
  congr 1
  funext answer
  split
  · rfl
  · congr 1
    funext grown
    obtain ⟨ok, t⟩ := grown
    cases ok <;> rfl

/-- The first call sets the heap up with a pool and goes on from there. -/
theorem kmalloc_fresh (fresh : s.initialized = false) (asked : n ≠ 0) : kmalloc boot s n =
    (expandPool boot s >>= fun grown =>
      if grown.1 = true then kmalloc boot { grown.2 with initialized := true } n else .ok (0, grown.2)) := by
  simp only [kmalloc, if_neg asked, kmallocInitLocked, fresh, Bool.false_eq_true, ↓reduceIte]
  cases expandPool boot s with
  | error halt => rfl
  | ok grown =>
    obtain ⟨ok, t⟩ := grown
    cases ok <;> rfl

/-- The block behind an answer holds at least `size` bytes, and no more than a pool. -/
structure Served (size ptr : Nat) (t : Kmalloc) : Prop where
  real : ptr ≠ 0
  enough : size ≤ t.payloadSize ptr
  bounded : t.payloadSize ptr ≤ kmallocPoolSize - kmallocHeader

/-- An attempt finds a block iff some free block is large enough. -/
theorem Heap.attempt_iff (heap : Heap s pools blocks frees live) {size : Nat} (aligned : kmallocAlign ∣ size) :
    ((∃ b ∈ frees, size ≤ (s.block b).size) ∧ ∃ ptr t, kmallocAttempt s size = .ok (ptr, t) ∧ Served size ptr t) ∨
      ((¬ ∃ b ∈ frees, size ≤ (s.block b).size) ∧ kmallocAttempt s size = .ok (0, s)) := by
  obtain ⟨ptr, t, done, -, ⟨rfl, rfl, small⟩ | ⟨real, fits, blocks', frees', heap', enough⟩⟩ := heap.attempt aligned
  · grind
  · obtain ⟨b, isBlock, -, rfl, here⟩ := heap'.payload List.mem_cons_self
    refine .inl ⟨fits, _, t, done, real, enough, ?_⟩
    exact heap'.block_le isBlock

section

variable (room : boot.VmallocRoom) (heap : Heap s pools blocks frees live)
  (below : VmallocClient.Sound boot ⟨s.vm, pools.map (fun base => (base, kmallocPoolSize)) ++ mapped⟩)
include room heap below

/-- What a call on a heap that is set up comes to. -/
theorem Heap.kmalloc_outcome (ready : s.initialized = true) (asked : n ≠ 0) :
    (s.Fits (alignUpSz n kmallocAlign) ∧
      ∃ ptr t, kmalloc boot s n = .ok (ptr, t) ∧ Served (alignUpSz n kmallocAlign) ptr t) ∨
    (¬ s.Fits (alignUpSz n kmallocAlign) ∧
      ((∃ cause, vmalloc boot s.vm kmallocPoolSize vmallocDefaultFlags = .error cause ∧
          kmalloc boot s n = .error (.fault cause)) ∨
        (∃ vm, vmalloc boot s.vm kmallocPoolSize vmallocDefaultFlags = .ok (0, vm) ∧
          kmalloc boot s n = .ok (0, { s with vm := vm })) ∨
        ∃ pool vm grown, vmalloc boot s.vm kmallocPoolSize vmallocDefaultFlags = .ok (pool, vm) ∧
          Expanded boot s pools blocks frees live mapped pool vm grown ∧
          ((alignUpSz n kmallocAlign ≤ kmallocPoolSize - kmallocHeader ∧
              ∃ ptr t, kmalloc boot s n = .ok (ptr, t) ∧ Served (alignUpSz n kmallocAlign) ptr t) ∨
            (kmallocPoolSize - kmallocHeader < alignUpSz n kmallocAlign ∧ kmalloc boot s n = .ok (0, grown))))) := by
  have aligned := alignUpSz_aligned n
  rw [kmalloc_ready ready asked, heap.fits_iff]
  rcases heap.attempt_iff aligned with ⟨fits, ptr, t, found, served⟩ | ⟨full, missed⟩
  · refine .inl ⟨⟨ready, fits⟩, ptr, t, (Lib.bind_of_ok found).trans ?_, served⟩
    rw [if_pos served.real]
  refine .inr ⟨fun fits => full fits.2, ?_⟩
  rw [Lib.bind_of_ok missed]
  rcases expandPool_cases room heap below with
    ⟨cause, called, done⟩ | ⟨vm, called, done, -⟩ | ⟨pool, vm, grown, called, done, expanded⟩
  · exact .inl ⟨cause, called, by rw [done]; rfl⟩
  · grind [Lib.bind_of_ok]
  · rw [Lib.bind_of_ok done]
    rcases expanded.heap.attempt_iff aligned with ⟨⟨b, free, enough⟩, served⟩ | ⟨full', missed'⟩
    · have bounded := expanded.heap.block_le ((expanded.heap.listed b).mp free).1
      grind
    grind [List.mem_cons_self, Expanded.size]

/-- What the first call comes to. -/
theorem Heap.kmalloc_first (fresh : s.initialized = false) (asked : n ≠ 0) :
    (∃ cause, vmalloc boot s.vm kmallocPoolSize vmallocDefaultFlags = .error cause ∧
      kmalloc boot s n = .error (.fault cause)) ∨
    (∃ vm, vmalloc boot s.vm kmallocPoolSize vmallocDefaultFlags = .ok (0, vm) ∧
      kmalloc boot s n = .ok (0, { s with vm := vm })) ∨
    ∃ pool vm grown, vmalloc boot s.vm kmallocPoolSize vmallocDefaultFlags = .ok (pool, vm) ∧
      Expanded boot s pools blocks frees live mapped pool vm grown ∧
      kmalloc boot s n = kmalloc boot { grown with initialized := true } n := by
  rw [kmalloc_fresh fresh asked]
  rcases expandPool_cases room heap below with
    ⟨cause, called, done⟩ | ⟨vm, called, done, -⟩ | ⟨pool, vm, grown, called, done, expanded⟩
  · exact .inl ⟨cause, called, by rw [done]; rfl⟩
  · grind [Lib.bind_of_ok]
  grind [Lib.bind_of_ok]

end

section

variable (room : boot.VmallocRoom) (sound : HeapSound boot s live mapped) (asked : n ≠ 0)
include room sound asked

/-- A call for at most a whole pool is served iff a free block is large enough or a pool can be had. -/
theorem kmalloc_small (small : alignUpSz n kmallocAlign ≤ kmallocPoolSize - kmallocHeader) :
    ((s.Fits (alignUpSz n kmallocAlign) ∨ PoolSupplied boot s.vm) ∧
      ∃ ptr t, kmalloc boot s n = .ok (ptr, t) ∧ Served (alignUpSz n kmallocAlign) ptr t) ∨
    (¬ (s.Fits (alignUpSz n kmallocAlign) ∨ PoolSupplied boot s.vm) ∧
      ((∃ vm, vmalloc boot s.vm kmallocPoolSize vmallocDefaultFlags = .ok (0, vm) ∧
          kmalloc boot s n = .ok (0, { s with vm := vm })) ∨
        ∃ cause, vmalloc boot s.vm kmallocPoolSize vmallocDefaultFlags = .error cause ∧
          kmalloc boot s n = .error (.fault cause))) := by
  obtain ⟨pools, blocks, frees, heap, below⟩ := sound
  have unsupplied : ∀ {answer}, vmalloc boot s.vm kmallocPoolSize vmallocDefaultFlags = answer →
      ((∃ vm, answer = .ok (0, vm)) ∨ ∃ cause, answer = .error cause) → ¬ PoolSupplied boot s.vm := by
    rintro answer called failed ⟨pool, vm, supplied, real⟩
    grind
  rcases Bool.eq_false_or_eq_true s.initialized with ready | ready
  · rcases heap.kmalloc_outcome room below ready asked with ⟨fits, served⟩ | ⟨full, ⟨cause, called, done⟩ |
        ⟨vm, called, done⟩ | ⟨pool, vm, grown, called, expanded, ⟨-, served⟩ | ⟨large, -⟩⟩⟩
    · grind
    · grind
    · grind
    · exact .inl ⟨.inr ⟨pool, vm, called, expanded.real⟩, served⟩
    · omega
  · have unfit : ¬ s.Fits (alignUpSz n kmallocAlign) := by
      rintro ⟨initialized, -⟩
      grind
    rcases heap.kmalloc_first room below ready asked with
      ⟨cause, called, done⟩ | ⟨vm, called, done⟩ | ⟨pool, vm, grown, called, expanded, done⟩
    · grind
    · grind
    · -- The pool that sets the heap up is large enough.
      have heap' : Heap { grown with initialized := true } _ _ _ live := expanded.heap.congr rfl fun _ _ => rfl
      have fits := (heap'.fits_iff (alignUpSz n kmallocAlign)).mpr
        ⟨rfl, pool, List.mem_cons_self, by rw [expanded.size]; exact small⟩
      rw [done]
      rcases heap'.kmalloc_outcome room expanded.below rfl asked with ⟨-, served⟩ | ⟨full, -⟩
      · exact .inl ⟨.inr ⟨pool, vm, called, expanded.real⟩, served⟩
      grind

/-- A call for more than a pool holds is answered `NULL`, if at all. -/
theorem kmalloc_large (large : kmallocPoolSize - kmallocHeader < alignUpSz n kmallocAlign) :
    (∃ t, kmalloc boot s n = .ok (0, t)) ∨ ∃ cause vm, kmalloc boot s n = .error (.fault cause) ∧
        vmalloc boot vm kmallocPoolSize vmallocDefaultFlags = .error cause ∧
        (vm = s.vm ∨ ∃ pool, vmalloc boot s.vm kmallocPoolSize vmallocDefaultFlags = .ok (pool, vm)) := by
  obtain ⟨pools, blocks, frees, heap, below⟩ := sound
  have unserved : ∀ {ptr t}, ¬ Served (alignUpSz n kmallocAlign) ptr t := by
    intro ptr t served
    have enough := served.enough.trans served.bounded
    omega
  rcases Bool.eq_false_or_eq_true s.initialized with ready | ready
  · rcases heap.kmalloc_outcome room below ready asked with ⟨-, _, _, -, served⟩ | ⟨-, ⟨cause, called, done⟩ |
        ⟨vm, -, done⟩ | ⟨pool, vm, grown, -, -, ⟨-, _, _, -, served⟩ | ⟨-, done⟩⟩⟩
    · grind
    · grind
    · exact .inl ⟨_, done⟩
    · grind
    grind
  · rcases heap.kmalloc_first room below ready asked with
      ⟨cause, called, done⟩ | ⟨vm, called, done⟩ | ⟨pool, vm, grown, called, expanded, done⟩
    · grind
    · exact .inl ⟨_, done⟩
    · have heap' : Heap { grown with initialized := true } _ _ _ live := expanded.heap.congr rfl fun _ _ => rfl
      have backing := expanded.backing
      rcases heap'.kmalloc_outcome room expanded.below rfl asked with ⟨-, _, _, -, served⟩ | ⟨-, ⟨cause, called', done'⟩ |
        ⟨vm', -, done'⟩ | ⟨pool', vm', grown', -, -, ⟨-, _, _, -, served⟩ | ⟨-, done'⟩⟩⟩
      · grind
      · grind
      · grind
      · grind
      grind

/-- Only a refused pool makes a call that a pool could serve answer `NULL`. -/
theorem kmalloc_null (small : alignUpSz n kmallocAlign ≤ kmallocPoolSize - kmallocHeader)
    (done : kmalloc boot s n = .ok (0, t)) :
    PoolRefused boot s.vm := by
  rcases kmalloc_small room sound asked small with
    ⟨-, ptr, u, done', served⟩ | ⟨-, ⟨vm, called, -⟩ | ⟨cause, -, done'⟩⟩
  · grind [Served.real]
  · exact ⟨vm, called⟩
  grind

/-- Only a panic of `vmalloc` keeps a call from returning. -/
theorem kmalloc_halts (done : kmalloc boot s n = .error halt) :
    ∃ cause vm, halt = .fault cause ∧ vmalloc boot vm kmallocPoolSize vmallocDefaultFlags = .error cause ∧
      (vm = s.vm ∨ ∃ pool, vmalloc boot s.vm kmallocPoolSize vmallocDefaultFlags = .ok (pool, vm)) := by
  rcases Nat.lt_or_ge (kmallocPoolSize - kmallocHeader) (alignUpSz n kmallocAlign) with large | small
  · grind [kmalloc_large]
  · rcases kmalloc_small room sound asked small with
      ⟨-, ptr, u, done', -⟩ | ⟨-, ⟨vm, -, done'⟩ | ⟨cause, called, done'⟩⟩
    · grind
    · grind
    grind

end

theorem alignUpSz_le (positive : 0 < n) (plain : n + 15 < 2 ^ 64) : n ≤ alignUpSz n kmallocAlign := by
  rw [alignUpSz_eq]
  omega

theorem alignUpSz_wraps (word : n < 2 ^ 64) (wraps : ¬ n + 15 < 2 ^ 64) : alignUpSz n kmallocAlign = 0 := by
  rw [alignUpSz_eq]
  omega

/-- A size that is rounded up is never answered with less. -/
theorem kmalloc_plain (room : boot.VmallocRoom) (sound : HeapSound boot s live mapped)
    (positive : 0 < n) (plain : n + 15 < 2 ^ 64) (done : kmalloc boot s n = .ok (ptr, t)) :
    ptr = 0 ∨ n ≤ t.payloadSize ptr := by
  have asked : n ≠ 0 := by omega
  rcases Nat.lt_or_ge (kmallocPoolSize - kmallocHeader) (alignUpSz n kmallocAlign) with large | small
  · grind [kmalloc_large]
  · rcases kmalloc_small room sound asked small with
      ⟨-, ptr', u, done', served⟩ | ⟨-, ⟨vm, -, done'⟩ | ⟨cause, -, done'⟩⟩
    · rw [done] at done'
      cases done'
      exact .inr ((alignUpSz_le positive plain).trans served.enough)
    · grind
    grind

/-- A size whose rounding wraps is answered with whatever block can be had. -/
theorem kmalloc_wrapped (room : boot.VmallocRoom) (sound : HeapSound boot s live mapped) (positive : 0 < n)
    (word : n < 2 ^ 64) (wraps : ¬ n + 15 < 2 ^ 64) :
    (∀ ptr t, kmalloc boot s n = .ok (ptr, t) → ptr = 0 ∨ n ≤ t.payloadSize ptr) ↔
      ¬ (s.Fits 0 ∨ PoolSupplied boot s.vm) := by
  have rounded := alignUpSz_wraps word wraps
  have outcome := kmalloc_small room sound (show n ≠ 0 by omega) (by omega)
  rw [rounded] at outcome
  rcases outcome with ⟨supplied, ptr, u, done, served⟩ | ⟨unsupplied, ⟨vm, -, done⟩ | ⟨cause, -, done⟩⟩
  · refine ⟨fun gives => ?_, fun unsupplied => absurd supplied unsupplied⟩
    rcases gives ptr u done with null | enough
    · exact absurd null served.real
    · have bounded := served.bounded
      simp only [kmallocPoolSize, kmallocHeader] at bounded
      omega
  · grind
  grind

end Outcome

/-- A heap that is made of one free pool. -/
def onePool (vm : Vmalloc) (pool : Nat) : Kmalloc where
  vm := vm
  block := Function.update (fun _ => ⟨0, 0, 0, 0, 0, 0⟩) pool ⟨kmallocMagicFree, 1, kmallocPoolSize - kmallocHeader, 0, 0, 0⟩
  freeList := pool
  initialized := true

/-- Over cleared memory the first call goes on from one free pool. -/
theorem kmalloc_onePool (asked : n ≠ 0) (real : pool ≠ 0)
    (called : vmalloc boot vm kmallocPoolSize vmallocDefaultFlags = .ok (pool, vm')) :
    kmalloc boot ⟨vm, fun _ => ⟨0, 0, 0, 0, 0, 0⟩, 0, false⟩ n = kmalloc boot (onePool vm' pool) n := by
  have attempted : Lib.attempt (vmalloc boot vm kmallocPoolSize vmallocDefaultFlags) = .ok (pool, vm') := by
    rw [called, Lib.attempt]
  have expanded : expandPool boot ⟨vm, fun _ => ⟨0, 0, 0, 0, 0, 0⟩, 0, false⟩ =
      .ok (true, { onePool vm' pool with initialized := false }) := by
    refine (Lib.bind_of_ok attempted).trans ?_
    simp only [if_neg real, freeListInsert, Kmalloc.modify, Function.update_idem, Function.update_self]
    rfl
  rw [kmalloc_fresh rfl asked, Lib.bind_of_ok expanded]
  rfl

/-- The machine with room for two pools, before the first call. -/
def roomyStart : KmallocClient :=
  ⟨⟨⟨roomyPagingReady, [], 0, 0, false⟩, fun _ => ⟨0, 0, 0, 0, 0, 0⟩, 0, false⟩, [], []⟩

/-- The first pool, and `vmalloc` behind it. -/
@[irreducible] def roomyPool : Nat × Vmalloc :=
  Lib.outcome (0, roomyVmalloc) (vmalloc roomyBoot roomyVmalloc kmallocPoolSize vmallocDefaultFlags)

theorem roomy_first_pool : vmalloc roomyBoot roomyStart.heap.vm kmallocPoolSize vmallocDefaultFlags =
      .ok (0xffffffff80200000, roomyPool.2) ∧ Stocked roomyPool.2 0xffffffff80600000 1024 := by
  have stock : Stocked roomyVmalloc 0xffffffff80200000 (1024 + 1024) := roomyVmalloc_stocked
  have size : kmallocPoolSize = 1024 * 4096 := by decide
  obtain ⟨grown, done, stocked⟩ := stock.vmalloc (by decide) (show vmallocDefaultFlags &&& pagingFlagUser = 0 by decide)
    roomyBoot
  rw [← size] at done
  have same : roomyPool = (0xffffffff80200000, grown) := by
    unfold roomyPool
    rw [done, Lib.outcome]
  rw [same]
  refine ⟨?_, stocked⟩
  rw [← done]
  exact vmalloc_of_init roomyVmalloc_init rfl (by decide) (by decide)

def roomyHeap : Kmalloc := onePool roomyPool.2 0xffffffff80200000

theorem roomy_first_call (asked : n ≠ 0) : kmalloc roomyBoot roomyStart.heap n = kmalloc roomyBoot roomyHeap n :=
  kmalloc_onePool asked (by decide) roomy_first_pool.1

/-- On every heap, `kmalloc` answers `NULL` or a block of at least the size asked for iff rounding
that size up does not wrap, or no block at all can be had. It answers `NULL` for a size that a pool
can hold only if `vmalloc` refused a pool, and does not return only if `vmalloc` panicked. -/
theorem kmalloc_gives_iff {boot : Boot} {paging : Paging} {block : Nat → KmallocBlock}
    {trace : List (KmallocCall × Nat)} {t : KmallocClient} (reached : Reached boot paging) (room : boot.VmallocRoom)
    (run : Lib.Steps (kmallocStep boot) ⟨⟨⟨paging, [], 0, 0, false⟩, block, 0, false⟩, [], []⟩ trace t)
    {n : Nat} (positive : 0 < n) (word : n < 2 ^ 64) :
    ((∀ ptr u, kmalloc boot t.heap n = .ok (ptr, u) → ptr = 0 ∨ n ≤ u.payloadSize ptr) ↔
      n + 15 < 2 ^ 64 ∨ ¬ (t.heap.Fits 0 ∨ PoolSupplied boot t.heap.vm)) ∧
    (∀ u, kmalloc boot t.heap n = .ok (0, u) → alignUpSz n kmallocAlign ≤ kmallocPoolSize - kmallocHeader →
      PoolRefused boot t.heap.vm) ∧
    ∀ halt, kmalloc boot t.heap n = .error halt → ∃ cause vm, halt = .fault cause ∧
      vmalloc boot vm kmallocPoolSize vmallocDefaultFlags = .error cause ∧
      (vm = t.heap.vm ∨ ∃ pool, vmalloc boot t.heap.vm kmallocPoolSize vmallocDefaultFlags = .ok (pool, vm)) := by
  have sound : HeapSound boot t.heap t.live t.mapped := kmallocSteps_sound reached room run
  have asked : n ≠ 0 := by omega
  refine ⟨?_, fun u done small => kmalloc_null room sound asked small done,
    fun halt done => kmalloc_halts room sound asked done⟩
  by_cases plain : n + 15 < 2 ^ 64
  · grind [kmalloc_plain]
  · rw [kmalloc_wrapped room sound positive word plain]
    grind

theorem kmalloc_gives_iff_roomy : ∃ ptr u, kmalloc roomyBoot roomyStart.heap 24 = .ok (ptr, u) ∧ ptr ≠ 0 ∧
    24 ≤ u.payloadSize ptr := by
  obtain ⟨⟨ptr, u⟩, done, real⟩ := Lib.exists_ok_of_test
    (show (kmalloc roomyBoot roomyHeap 24).toOption.any (fun answer => answer.1 ≠ 0) = true by decide +kernel)
  rw [← roomy_first_call (by decide)] at done
  have null := of_decide_eq_true real
  obtain ⟨gives, -⟩ := kmalloc_gives_iff roomyPagingReady_reached roomyBoot_room
    (show Lib.Steps (kmallocStep roomyBoot) roomyStart [] roomyStart from .done) (show 0 < 24 by decide) (by decide)
  grind

/-- A request for all but one byte of the address space is answered with an empty block. -/
theorem kmalloc_wraps_short : Reached roomyBoot roomyPagingReady ∧ roomyBoot.VmallocRoom ∧
    Lib.Steps (kmallocStep roomyBoot) roomyStart [] roomyStart ∧
    ∃ ptr u, kmalloc roomyBoot roomyStart.heap (2 ^ 64 - 1) = .ok (ptr, u) ∧ ptr ≠ 0 ∧ u.payloadSize ptr = 0 := by
  refine ⟨roomyPagingReady_reached, roomyBoot_room, .done, ?_⟩
  obtain ⟨⟨ptr, u⟩, done, short⟩ := Lib.exists_ok_of_test
    (show (kmalloc roomyBoot roomyHeap (2 ^ 64 - 1)).toOption.any
      (fun answer => answer.1 ≠ 0 ∧ answer.2.payloadSize answer.1 = 0) = true by decide +kernel)
  rw [← roomy_first_call (by decide)] at done
  grind

end Velox
