import Velox.Mm.KmallocAnswers
import Velox.Mm.VmallocRefusal

namespace Velox

variable {boot : Boot} {s t u : Kmalloc} {live : List Nat} {mapped : List (Nat × Nat)} {n : Nat}

/-- The pools and their blocks, the free list, the free ranges of `vmalloc` and the frames in use
are the same. -/
structure CostsNothing (boot : Boot) (s t : Kmalloc) : Prop where
  pools : ∀ pools blocks frees live, Heap s pools blocks frees live ↔ Heap t pools blocks frees live
  block : t.block = s.block
  freeList : t.freeList = s.freeList
  ranges : t.vm.ranges boot = s.vm.ranges boot
  frames : ∀ frame, t.vm.paging.pmm.bitTest frame = s.vm.paging.pmm.bitTest frame

theorem CostsNothing.refl (boot : Boot) (s : Kmalloc) : CostsNothing boot s s :=
  ⟨fun _ _ _ _ => .rfl, rfl, rfl, rfl, fun _ => rfl⟩

theorem CostsNothing.trans (first : CostsNothing boot s t) (second : CostsNothing boot t u) : CostsNothing boot s u where
  pools := fun pools blocks frees live => (first.pools pools blocks frees live).trans (second.pools pools blocks frees live)
  block := second.block.trans first.block
  freeList := second.freeList.trans first.freeList
  ranges := second.ranges.trans first.ranges
  frames := fun frame => (second.frames frame).trans (first.frames frame)

/-- The free list has this many blocks. -/
def Kmalloc.FreeBlocks (s : Kmalloc) (count : Nat) : Prop := ∃ frees, FreeLinked s frees ∧ frees.length = count

theorem Kmalloc.FreeBlocks.unique {first : Nat} (counted : s.FreeBlocks first)
    (counted' : s.FreeBlocks second) : first = second := by
  obtain ⟨frees, linked, rfl⟩ := counted
  obtain ⟨others, linked', rfl⟩ := counted'
  rw [linked.forward.unique linked'.forward linked.proper linked'.proper]

theorem CostsNothing.freeBlocks (same : CostsNothing boot s t) (counted : s.FreeBlocks count) :
    t.FreeBlocks count := by
  obtain ⟨frees, linked, length⟩ := counted
  refine ⟨frees, linked.congr same.freeList fun b _ => ?_, length⟩
  grind [block]

section Supply

theorem kmallocAttempt_vm {size : Nat} (done : kmallocAttempt s size = .ok (ptr, t)) : t.vm = s.vm := by
  unfold kmallocAttempt at done
  split at done
  · cases done
  · split at done
    · cases done
      rfl
    · rename_i b _ _
      cases done
      refine (freeListRemove_vm _ b).trans ?_
      unfold splitBlock
      dsimp only
      split
      · rw [freeListInsert_vm]
        rfl
      · rfl

/-- What requests for pools keep of `vmalloc`, the heap keeps. -/
theorem expandPool_vm (Holds : Vmalloc → Prop)
    (kept : ∀ {vm pool vm'}, Holds vm → vmalloc boot vm kmallocPoolSize vmallocDefaultFlags = .ok (pool, vm') → Holds vm')
    {ok : Bool} (initial : Holds s.vm) (done : expandPool boot s = .ok (ok, t)) : Holds t.vm := by
  obtain ⟨⟨pool, vm⟩, called, done⟩ := Lib.bind_ok done
  have holds := kept initial (Lib.attempt_ok called)
  dsimp only at done
  split at done
  · cases done
    exact holds
  · cases done
    rw [freeListInsert_vm]
    exact holds

theorem kmalloc_vm (Holds : Vmalloc → Prop)
    (kept : ∀ {vm pool vm'}, Holds vm → vmalloc boot vm kmallocPoolSize vmallocDefaultFlags = .ok (pool, vm') → Holds vm')
    (initial : Holds s.vm) (done : kmalloc boot s n = .ok (ptr, t)) : Holds t.vm := by
  by_cases asked : n = 0
  · simp only [kmalloc, asked, ↓reduceIte] at done
    grind
  have ready : ∀ {s : Kmalloc}, s.initialized = true → Holds s.vm → kmalloc boot s n = .ok (ptr, t) → Holds t.vm := by
    intro s ready initial done
    rw [kmalloc_ready ready asked] at done
    obtain ⟨⟨found, first⟩, attempted, done⟩ := Lib.bind_ok done
    have holds : Holds first.vm := kmallocAttempt_vm attempted ▸ initial
    split at done
    · grind
    · obtain ⟨⟨ok, grown⟩, expanded, done⟩ := Lib.bind_ok done
      have holds' := expandPool_vm Holds kept holds expanded
      grind [kmallocAttempt_vm]
  rcases Bool.eq_false_or_eq_true s.initialized with set | fresh
  · grind
  · rw [kmalloc_fresh fresh asked] at done
    obtain ⟨⟨ok, grown⟩, expanded, done⟩ := Lib.bind_ok done
    have holds := expandPool_vm Holds kept initial expanded
    grind

/-- The tables behind `vmalloc` are counted. -/
def Vmalloc.Tallied (vm : Vmalloc) : Prop := Velox.Tallied vm.paging.info.rootPml4Phys [] vm.paging

theorem kmalloc_tallied (room : boot.VmallocRoom) (sound : HeapSound boot s live mapped)
    (tallied : s.vm.Tallied) (done : kmalloc boot s n = .ok (ptr, t)) : t.vm.Tallied := by
  obtain ⟨pools, blocks, frees, -, below⟩ := sound
  refine (kmalloc_vm (fun vm => (∃ live, VmallocClient.Sound boot ⟨vm, live⟩) ∧ vm.Tallied) ?_ ⟨⟨_, below⟩, tallied⟩ done).2
  rintro vm pool vm' ⟨⟨live, sound⟩, tallied⟩ called
  refine ⟨?_, vmalloc_tallied room sound tallied called⟩
  rcases vmalloc_keeps room sound called with ⟨-, kept⟩ | ⟨-, inv⟩
  · exact ⟨_, kept⟩
  · exact ⟨_, .inr inv⟩

end Supply

section Failure

theorem not_refused_of_pool (real : pool ≠ 0)
    (called : vmalloc boot vm kmallocPoolSize vmallocDefaultFlags = .ok (pool, vm')) :
    ¬ PoolRefused boot vm := by
  rintro ⟨vm'', refused⟩
  grind

/-- A call that answers `NULL` costs nothing if it asks for nothing or no pool can be had, and
leaves more free blocks behind otherwise. -/
def NullCost (boot : Boot) (s : Kmalloc) (n : Nat) (u : Kmalloc) : Prop :=
  ∃ before after, s.FreeBlocks before ∧ u.FreeBlocks after ∧
    ((n = 0 ∨ PoolRefused boot s.vm) ∧ CostsNothing boot s u ∨ ¬ (n = 0 ∨ PoolRefused boot s.vm) ∧ before < after)

theorem NullCost.le (cost : NullCost boot s n u) {after : Nat} (counted : s.FreeBlocks before)
    (counted' : u.FreeBlocks after) : before ≤ after := by
  obtain ⟨first, last, initial, final, ⟨-, same⟩ | ⟨-, more⟩⟩ := cost
  · rw [(same.freeBlocks counted).unique counted']
  grind [Kmalloc.FreeBlocks.unique]

/-- A refused pool costs nothing. -/
theorem Heap.refused_cost {blocks : Nat → List Nat} (room : boot.VmallocRoom)
    (heap : Heap s pools blocks frees live)
    (below : VmallocClient.Sound boot ⟨s.vm, pools.map (fun base => (base, kmallocPoolSize)) ++ mapped⟩)
    (tallied : s.vm.Tallied)
    (called : vmalloc boot s.vm kmallocPoolSize vmallocDefaultFlags = .ok (0, vm)) :
    NullCost boot s n { s with vm := vm } := by
  obtain ⟨ranges, -, -, -, frames, -⟩ := vmalloc_refused room below tallied called
  have counted : s.FreeBlocks frees.length := ⟨frees, heap.linked, rfl⟩
  have same : CostsNothing boot s { s with vm := vm } := by
    refine ⟨fun _ _ _ _ => ⟨?_, ?_⟩, rfl, rfl, ranges, frames⟩
    · grind [congr]
    grind [congr]
  exact ⟨_, _, counted, same.freeBlocks counted, .inl ⟨.inr ⟨vm, called⟩, same⟩⟩

section

variable (room : boot.VmallocRoom) (sound : HeapSound boot s live mapped) (tallied : s.vm.Tallied)
include room sound tallied

theorem kmalloc_ready_cost (ready : s.initialized = true) (asked : n ≠ 0)
    (done : kmalloc boot s n = .ok (0, u)) : NullCost boot s n u := by
  obtain ⟨pools, blocks, frees, heap, below⟩ := sound
  rcases heap.kmalloc_outcome room below ready asked with ⟨-, ptr, t, done', served⟩ | ⟨-, ⟨cause, -, done'⟩ |
      ⟨vm, called, done'⟩ | ⟨pool, vm, grown, called, expanded, ⟨-, ptr, t, done', served⟩ | ⟨-, done'⟩⟩⟩ <;>
    rw [done] at done' <;> cases done'
  · exact absurd rfl served.real
  · grind [Heap.refused_cost]
  · exact absurd rfl served.real
  · refine ⟨_, _, ⟨frees, heap.linked, rfl⟩, ⟨_, expanded.heap.linked, rfl⟩, .inr ⟨?_, Nat.lt_succ_self _⟩⟩
    exact not_or.mpr ⟨asked, not_refused_of_pool expanded.real called⟩

theorem kmalloc_null_cost (done : kmalloc boot s n = .ok (0, u)) : NullCost boot s n u := by
  by_cases asked : n = 0
  · simp only [kmalloc, asked, ↓reduceIte] at done
    cases done
    obtain ⟨pools, blocks, frees, heap, -⟩ := sound
    exact ⟨_, _, ⟨frees, heap.linked, rfl⟩, ⟨frees, heap.linked, rfl⟩, .inl ⟨.inl asked, .refl boot s⟩⟩
  rcases Bool.eq_false_or_eq_true s.initialized with ready | fresh
  · grind [kmalloc_ready_cost]
  obtain ⟨pools, blocks, frees, heap, below⟩ := sound
  rcases heap.kmalloc_first room below fresh asked with
    ⟨cause, called, done'⟩ | ⟨vm, called, done'⟩ | ⟨pool, vm, grown, called, expanded, done'⟩ <;> rw [done] at done'
  · cases done'
  · grind [Heap.refused_cost]
  · -- The call goes on over the first pool and leaves no fewer free blocks than that.
    have heap' : Heap { grown with initialized := true } _ _ _ live := expanded.heap.congr rfl fun _ _ => rfl
    have tallied' : grown.vm.Tallied := by
      rw [expanded.backing]
      exact vmalloc_tallied room below tallied called
    have cost := kmalloc_ready_cost room ⟨_, _, _, heap', expanded.below⟩ tallied' rfl asked done'.symm
    obtain ⟨_, after, -, final, -⟩ := id cost
    have more := cost.le ⟨_, heap'.linked, rfl⟩ final
    refine ⟨_, after, ⟨frees, heap.linked, rfl⟩, final, .inr ⟨?_, more⟩⟩
    exact not_or.mpr ⟨asked, not_refused_of_pool expanded.real called⟩

end

end Failure

section Runs

variable {s t : KmallocClient}

theorem kmallocStep_tallied (room : boot.VmallocRoom) (sound : s.Sound boot)
    (tallied : s.heap.vm.Tallied) {call : KmallocCall}
    (taken : kmallocStep boot s call = .ok (answer, t)) : t.heap.vm.Tallied := by
  cases call with
  | kmalloc size =>
    obtain ⟨⟨ptr, heap⟩, done, rest⟩ := Lib.bind_ok taken
    cases rest
    exact kmalloc_tallied room sound tallied done
  | kfree ptr =>
    simp only [kmallocStep] at taken
    split at taken
    · rename_i handed
      obtain ⟨heap, done, rest⟩ := Lib.bind_ok taken
      cases rest
      obtain ⟨pools, blocks, frees, before, -⟩ := sound
      rcases handed with rfl | handed
      · cases done
        exact tallied
      grind [Heap.kfree]
    · cases taken
  | store ptr contents =>
    simp only [kmallocStep] at taken
    split at taken
    · cases taken
      exact tallied
    · cases taken
  | vmalloc size flags =>
    obtain ⟨pools, blocks, frees, -, below⟩ := sound
    obtain ⟨⟨addr, vm⟩, called, rest⟩ := Lib.bind_ok taken
    cases rest
    exact vmalloc_tallied room below tallied (Lib.attempt_ok called)
  | vfree addr size =>
    simp only [kmallocStep] at taken
    split at taken
    · rename_i listed
      obtain ⟨vm, called, rest⟩ := Lib.bind_ok taken
      cases rest
      obtain ⟨pools, blocks, frees, -, ⟨-, -, -, -, none', -⟩ | inv⟩ := sound
      · simp [(List.append_eq_nil_iff.mp none').2] at listed
      · have member : (addr, size) ∈ pools.map (fun base => (base, kmallocPoolSize)) ++ s.mapped :=
          List.mem_append_right _ listed
        exact vfree_tallied (inv.perm (List.perm_cons_erase member)) tallied (Lib.attempt_ok called)
    · cases taken

/-- Calls of `kmalloc` that all answer `NULL`. -/
def nullCalls (sizes : List Nat) : List (KmallocCall × Nat) := sizes.map fun n => (.kmalloc n, 0)

/-- Each of the calls asks for nothing or finds that no pool can be had. -/
def PoolsRefused (boot : Boot) (s : KmallocClient) (sizes : List Nat) : Prop :=
  ∀ before n after v, sizes = before ++ n :: after → Lib.Steps (kmallocStep boot) s (nullCalls before) v →
    n = 0 ∨ PoolRefused boot v.heap.vm

theorem poolsRefused_cons (taken : kmallocStep boot s (.kmalloc n) = .ok (0, t)) :
    PoolsRefused boot s (n :: rest) ↔ (n = 0 ∨ PoolRefused boot s.heap.vm) ∧ PoolsRefused boot t rest := by
  constructor
  · intro refused
    refine ⟨refused [] n rest s rfl .done, ?_⟩
    intro before m after v parts run
    exact refused (n :: before) m after v (by rw [parts]; rfl) (.more taken run)
  · rintro ⟨first, later⟩ before m after v parts run
    cases before with
    | nil =>
      cases parts
      cases run
      exact first
    | cons size before =>
      cases parts
      cases run with
      | more taken' run =>
        rw [taken] at taken'
        cases taken'
        exact later before m after v rfl run

/-- What calls that all answer `NULL` cost together. -/
theorem nullCalls_cost (room : boot.VmallocRoom) (sound : s.Sound boot)
    (tallied : s.heap.vm.Tallied) (run : Lib.Steps (kmallocStep boot) s (nullCalls sizes) t) :
    ∃ before after, s.heap.FreeBlocks before ∧ t.heap.FreeBlocks after ∧ before ≤ after ∧
      (PoolsRefused boot s sizes ∧ CostsNothing boot s.heap t.heap ∨ ¬ PoolsRefused boot s sizes ∧ before < after) := by
  induction sizes generalizing s with
  | nil =>
    cases run
    obtain ⟨pools, blocks, frees, heap, -⟩ := sound
    refine ⟨_, _, ⟨frees, heap.linked, rfl⟩, ⟨frees, heap.linked, rfl⟩, Nat.le_refl _, .inl ⟨?_, .refl boot _⟩⟩
    intro before n after v parts
    simp at parts
  | cons n rest ih =>
    cases run with
    | more taken run =>
      rw [poolsRefused_cons taken]
      obtain ⟨middle, after, counted', final, onward, result⟩ :=
        ih (kmallocStep_next room sound taken) (kmallocStep_tallied room sound tallied taken) run
      obtain ⟨⟨ptr, heap⟩, done, answered⟩ := Lib.bind_ok taken
      cases answered
      have cost := kmalloc_null_cost room sound tallied done
      obtain ⟨before, _, counted, middle', first⟩ := id cost
      cases middle'.unique counted'
      refine ⟨before, after, counted, final, (cost.le counted counted').trans onward, ?_⟩
      rcases first with ⟨refused, same⟩ | ⟨supplied, more⟩
      · rcases result with ⟨refused', same'⟩ | ⟨supplied', more'⟩
        · grind [CostsNothing.trans]
        · exact .inr ⟨fun both => supplied' both.2, (cost.le counted counted').trans_lt more'⟩
      grind

end Runs

/-- Calls of `kmalloc` that all answer `NULL` leave the pools, the free list, the free ranges of
`vmalloc` and the frames in use as they were iff each of them asked for nothing or found that no
pool could be had. A call that gets a pool it cannot use keeps it. -/
theorem kmalloc_null_free_iff {boot : Boot} {s₀ s paging : Paging} {block : Nat → KmallocBlock}
    {trace : List (KmallocCall × Nat)} {t : KmallocClient} (cold : ColdBoot boot s₀) (init : pagingInit boot s₀ = .ok s)
    (later : Later s paging) (room : boot.VmallocRoom)
    (run : Lib.Steps (kmallocStep boot) ⟨⟨⟨paging, [], 0, 0, false⟩, block, 0, false⟩, [], []⟩ trace t) :
    (∀ n u, kmalloc boot t.heap n = .ok (0, u) →
      (CostsNothing boot t.heap u ↔ n = 0 ∨ PoolRefused boot t.heap.vm)) ∧
    ∀ sizes u, Lib.Steps (kmallocStep boot) t (nullCalls sizes) u →
      (CostsNothing boot t.heap u.heap ↔ PoolsRefused boot t sizes) := by
  have reached : Reached boot paging := (Reached.init cold.toAtBoot init).later later
  have sound : t.Sound boot := kmallocSteps_sound reached room run
  have tallied : t.heap.vm.Tallied := by
    refine (run.invariant (fun state => state.Sound boot ∧ state.heap.vm.Tallied) (fun held taken => ?_) ?_).2
    · exact ⟨kmallocStep_next room held.1 taken, kmallocStep_tallied room held.1 held.2 taken⟩
    · exact ⟨kmallocSteps_sound reached room .done, (pagingInit_tallied cold init).later later⟩
  constructor
  · intro n u done
    obtain ⟨before, after, counted, counted', ⟨refused, same⟩ | ⟨supplied, more⟩⟩ := kmalloc_null_cost room sound tallied done
    · grind
    · refine ⟨fun same => ?_, fun refused => absurd refused supplied⟩
      have equal := (same.freeBlocks counted).unique counted'
      omega
  · intro sizes u nulls
    obtain ⟨before, after, counted, counted', -, ⟨refused, same⟩ | ⟨supplied, more⟩⟩ :=
      nullCalls_cost room sound tallied nulls
    · grind
    · refine ⟨fun same => ?_, fun refused => absurd refused supplied⟩
      have equal := (same.freeBlocks counted).unique counted'
      omega

/-- The smallest machine has no frames for a pool. -/
def tinyHeap : Kmalloc := ⟨⟨tinyPagingReady, [], 0, 0, false⟩, fun _ => ⟨0, 0, 0, 0, 0, 0⟩, 0, false⟩

theorem kmalloc_null_free_iff_tiny :
    PoolRefused tinyBoot tinyHeap.vm ∧ ∃ u, kmalloc tinyBoot tinyHeap 16 = .ok (0, u) ∧ CostsNothing tinyBoot tinyHeap u := by
  obtain ⟨⟨pool, vm⟩, called, null⟩ := Lib.exists_ok_of_test (show (vmalloc tinyBoot tinyHeap.vm kmallocPoolSize
    vmallocDefaultFlags).toOption.any (fun answer => answer.1 = 0) = true by decide +kernel)
  obtain ⟨⟨ptr, u⟩, done, null'⟩ := Lib.exists_ok_of_test
    (show (kmalloc tinyBoot tinyHeap 16).toOption.any (fun answer => answer.1 = 0) = true by decide +kernel)
  cases of_decide_eq_true null
  cases of_decide_eq_true null'
  have start : Lib.Steps (kmallocStep tinyBoot) ⟨tinyHeap, [], []⟩ [] ⟨tinyHeap, [], []⟩ := .done
  obtain ⟨single, -⟩ := kmalloc_null_free_iff tinyPaging_cold
    (Lib.eq_ok_outcome tinyPaging (by decide +kernel)) .now tinyBoot_room start
  exact ⟨⟨vm, called⟩, u, done, (single 16 u done).mpr (.inr ⟨vm, called⟩)⟩

/-- A request for as much as a whole pool takes two pools, answers `NULL` and keeps them. -/
theorem kmalloc_null_keeps_pools : ColdBoot roomyBoot roomyPaging ∧ pagingInit roomyBoot roomyPaging = .ok roomyPagingReady ∧
    roomyBoot.VmallocRoom ∧ Lib.Steps (kmallocStep roomyBoot) roomyStart [] roomyStart ∧
    ∃ u, kmalloc roomyBoot roomyStart.heap kmallocPoolSize = .ok (0, u) ∧ roomyStart.heap.freeList = 0 ∧ u.freeList ≠ 0 := by
  have start : Lib.Steps (kmallocStep roomyBoot) roomyStart [] roomyStart := .done
  refine ⟨roomyPaging_cold, roomyPaging_started, roomyBoot_room, start, ?_⟩
  have sound : HeapSound roomyBoot roomyStart.heap [] [] := kmallocSteps_sound roomyPagingReady_reached roomyBoot_room start
  have tallied : roomyStart.heap.vm.Tallied := pagingInit_tallied roomyPaging_cold roomyPaging_started
  obtain ⟨first, stock⟩ := roomy_first_pool
  have second : ∃ grown, vmalloc roomyBoot roomyPool.2 kmallocPoolSize vmallocDefaultFlags = .ok (0xffffffff80600000, grown) := by
    have stock' : Stocked roomyPool.2 0xffffffff80600000 (1024 + 0) := stock
    obtain ⟨grown, called, -⟩ := stock'.vmalloc (by decide) (show vmallocDefaultFlags &&& pagingFlagUser = 0 by decide) roomyBoot
    exact ⟨grown, called⟩
  rcases kmalloc_large roomyBoot_room sound (show kmallocPoolSize ≠ 0 by decide) (by decide) with
    ⟨u, done⟩ | ⟨cause, vm, -, panicked, rfl | ⟨pool, called⟩⟩
  · refine ⟨u, done, rfl, fun null => ?_⟩
    obtain ⟨before, after, -, ⟨frees, linked, length⟩, ⟨refused, -⟩ | ⟨-, more⟩⟩ :=
      kmalloc_null_cost roomyBoot_room sound tallied done
    · exact refused.elim (by decide) (not_refused_of_pool (by decide) first)
    · have walk := linked.forward
      rw [null] at walk
      cases frees with
      | nil =>
        grind
      | cons head rest => exact linked.proper (walk.1 ▸ List.mem_cons_self)
  · grind
  grind

end Velox
