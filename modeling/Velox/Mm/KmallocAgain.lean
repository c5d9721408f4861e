import Velox.Mm.KmallocOrder

namespace Velox

variable {call : KmallocCall} {ok : Bool}

/-- How a header changes that is not handed out: a block that is in use has been so before, with the
same size, and no header becomes one that `kfree` accepts. -/
structure KmallocBlock.Follows (old new : KmallocBlock) : Prop where
  used : new.free = 0 → old.free = 0 ∧ new.size = old.size
  magic : new.magic = kmallocMagicUsed → old.magic = kmallocMagicUsed

section Headers

variable {old middle new : KmallocBlock} {boot : Boot} {s t u : Kmalloc} {b ptr size : Nat}

theorem KmallocBlock.Follows.refl (block : KmallocBlock) : block.Follows block := ⟨fun used => ⟨used, rfl⟩, id⟩

theorem KmallocBlock.Follows.trans (first : old.Follows middle) (second : middle.Follows new) : old.Follows new where
  used := by
    intro used
    obtain ⟨before, size⟩ := second.used used
    obtain ⟨earlier, size'⟩ := first.used before
    omega
  magic := fun magic => first.magic (second.magic magic)

/-- A header that only changes its links. -/
theorem KmallocBlock.Follows.of_same (size : new.size = old.size) (free : new.free = old.free)
    (magic : new.magic = old.magic) : old.Follows new :=
  ⟨fun used => ⟨free ▸ used, size⟩, fun used => magic ▸ used⟩

theorem KmallocBlock.Follows.of_free (free : new.free = 1) (magic : new.magic ≠ kmallocMagicUsed) : old.Follows new where
  used := by
    omega
  magic := fun used => absurd used magic

/-- A block that goes to the free list, whatever its header was. -/
theorem freeListInsert_follows (other : x ≠ b → (s.block x).Follows (u.block x)) :
    (s.block x).Follows ((freeListInsert u b).block x) := by
  obtain ⟨free, magic⟩ := freeListInsert_tag u b x
  by_cases here : x = b
  · rw [if_pos here] at free magic
    apply KmallocBlock.Follows.of_free free
    rw [magic]
    decide
  · rw [if_neg here] at free magic
    exact (other here).trans (.of_same (freeListInsert_phys u b x).1 free magic)

theorem freeListRemove_follows (b x : Nat) : (s.block x).Follows ((freeListRemove s b).block x) :=
  .of_same (freeListRemove_phys s b x).1 (freeListRemove_tag s b x).1 (freeListRemove_tag s b x).2

theorem expandPool_follows (done : expandPool boot s = .ok (ok, t)) (x : Nat) :
    (s.block x).Follows (t.block x) := by
  obtain ⟨⟨pool, vm⟩, -, onward⟩ := Lib.bind_ok done
  dsimp only at onward
  split at onward
  · cases onward
    exact .refl _
  · cases onward
    apply freeListInsert_follows
    intro away
    rw [Kmalloc.modify_block, if_neg away]
    exact .refl _

theorem kmallocInitLocked_follows (done : kmallocInitLocked boot s = .ok (ok, t)) (x : Nat) :
    (s.block x).Follows (t.block x) := by
  unfold kmallocInitLocked at done
  split at done
  · cases done
    exact .refl _
  · obtain ⟨⟨ok', u⟩, expanded, onward⟩ := Lib.bind_ok done
    have follows := expandPool_follows expanded x
    dsimp only at onward
    split at onward
    · cases onward
      exact follows
    · cases onward
      exact follows

/-- Cutting a block changes the header of the block itself and makes one of a free block. -/
theorem splitBlock_follows (away : x ≠ b) : (s.block x).Follows ((splitBlock s b size).block x) := by
  unfold splitBlock
  dsimp only
  split
  · apply freeListInsert_follows
    intro other
    rw [Kmalloc.modify_block, if_neg away, Kmalloc.modify_block, if_neg other]
    exact .refl _
  · exact .refl _

theorem handOut_follows (away : x ≠ b) : (s.block x).Follows ((handOut s b).2.block x) := by
  unfold handOut
  rw [Kmalloc.modify_block, if_neg away]
  exact freeListRemove_follows b x

theorem kmallocAttempt_follows (done : kmallocAttempt s size = .ok (ptr, t))
    (away : x + kmallocHeader ≠ ptr) : (s.block x).Follows (t.block x) := by
  unfold kmallocAttempt at done
  split at done
  · cases done
  split at done
  · cases done
    exact .refl _
  · cases done
    have other : x ≠ _ := fun same => away (congrArg (· + kmallocHeader) same)
    exact (splitBlock_follows other).trans (handOut_follows other)

/-- `kmalloc` makes a header that `kfree` accepts of the one that it hands out, and of no other. -/
theorem kmalloc_follows (done : kmalloc boot s size = .ok (ptr, t)) {x : Nat} (away : x + kmallocHeader ≠ ptr) :
    (s.block x).Follows (t.block x) := by
  unfold kmalloc at done
  split at done
  · cases done
    exact .refl _
  obtain ⟨⟨ok, u⟩, ready, onward⟩ := Lib.bind_ok done
  apply (kmallocInitLocked_follows ready x).trans
  dsimp only at onward
  split at onward
  · cases onward
    exact .refl _
  obtain ⟨⟨found, v⟩, attempted, onward⟩ := Lib.bind_ok onward
  dsimp only at onward
  split at onward
  · cases onward
    exact kmallocAttempt_follows attempted away
  rename_i missing
  rw [Classical.not_not] at missing
  have first : (u.block x).Follows (v.block x) := by
    apply kmallocAttempt_follows attempted
    rw [missing]
    exact Nat.succ_ne_zero _
  apply first.trans
  obtain ⟨⟨ok', w⟩, expanded, onward⟩ := Lib.bind_ok onward
  apply (expandPool_follows expanded x).trans
  split at onward
  · cases onward
    exact .refl _
  · exact kmallocAttempt_follows onward away

/-- What a pass of the absorbing loop writes into the headers, apart from links. -/
theorem absorbPass_header (again : absorbPass b s = .inl t) (x : Nat) :
    (t.block x).free = (s.block x).free ∧ ((t.block x).magic = 0 ∨ (t.block x).magic = (s.block x).magic) ∧
      (x ≠ b → (t.block x).size = (s.block x).size) := by
  simp only [absorbPass] at again
  generalize (s.block b).nextPhys = next at again
  split at again
  · obtain ⟨free, magic⟩ := freeListRemove_tag s next x
    have size := (freeListRemove_phys s next x).1
    grind [Kmalloc.modify_block]
  · cases again

theorem absorbPass_follows (free : (s.block b).free = 1) (magic : (s.block b).magic ≠ kmallocMagicUsed)
    (again : absorbPass b s = .inl t) (x : Nat) : (s.block x).Follows (t.block x) := by
  obtain ⟨free', magic', size⟩ := absorbPass_header again x
  by_cases front : x = b
  · subst front
    apply KmallocBlock.Follows.of_free (free'.trans free)
    rcases magic' with zero | same
    · rw [zero]
      decide
    · rwa [same]
  · refine ⟨fun used => ⟨free' ▸ used, size front⟩, fun used => ?_⟩
    rcases magic' with zero | same
    · rw [zero] at used
      cases used
    · rwa [same] at used

/-- A block that `kfree` takes is free behind it. -/
theorem kfree_follows (done : kfree s ptr = .ok t) : (∀ x, (s.block x).Follows (t.block x)) ∧
    (ptr ≠ 0 → (s.block (ptr - kmallocHeader)).free = 0 → (t.block (ptr - kmallocHeader)).magic ≠ kmallocMagicUsed) := by
  unfold kfree at done
  dsimp only at done
  split at done
  · grind [KmallocBlock.Follows.refl]
  split at done
  · rename_i magic
    cases done
    refine ⟨fun x => .refl _, fun _ _ => ?_⟩
    rw [magic]
    decide
  split at done
  · grind [KmallocBlock.Follows.refl]
  split at done
  · grind [KmallocBlock.Follows.refl]
  split at done
  · cases done
  rename_i looped
  obtain ⟨free, magic⟩ := freeListInsert_tag s (ptr - kmallocHeader) (ptr - kmallocHeader)
  rw [if_pos rfl] at free magic
  -- the released block stays free while it takes in others
  have ended := Lib.loop_result
    (fun u => (u.block (ptr - kmallocHeader)).free = 1 ∧ (u.block (ptr - kmallocHeader)).magic ≠ kmallocMagicUsed ∧
      ∀ x, (s.block x).Follows (u.block x))
    (fun u => (u.block (ptr - kmallocHeader)).magic ≠ kmallocMagicUsed ∧ ∀ x, (s.block x).Follows (u.block x))
    ?_ ?_ ⟨free, by rw [magic]; decide, fun x => freeListInsert_follows fun _ => .refl _⟩ looped
  · grind
  · rintro u v ⟨free, magic, follows⟩ again
    have onward := absorbPass_follows free magic again
    refine ⟨(absorbPass_header again _).1.trans free, ?_, fun x => (follows x).trans (onward x)⟩
    exact fun used => magic ((onward _).magic used)
  · rintro u v ⟨-, magic, follows⟩ left
    simp only [absorbPass] at left
    grind

/-- A release that is turned down changes nothing. -/
theorem kfree_refused (magic : (s.block (ptr - kmallocHeader)).magic ≠ kmallocMagicUsed) : kfree s ptr = .ok s := by
  unfold kfree
  grind

end Headers

/-- The headers that a new payload leaves as they were: those before its block, and those behind the
header that follows it, or that header itself. -/
def Kmalloc.Clears (s : Kmalloc) (ptr q : Nat) : Prop :=
  q + kmallocHeader ≤ ptr ∨ q = ptr + s.payloadSize ptr + kmallocHeader ∨
    ptr + s.payloadSize ptr + 2 * kmallocHeader ≤ q

instance (s : Kmalloc) (ptr q : Nat) : Decidable (s.Clears ptr q) := inferInstanceAs (Decidable (_ ∨ _))

/-- Clients that may release again what they released: `freed` are the pointers whose header was not
handed out or written over since. -/
structure CarelessClient where
  client : KmallocClient
  freed : List Nat

/-- The calls of such clients. They still write only into what they hold. -/
def carelessStep (boot : Boot) (s : CarelessClient) (call : KmallocCall) :
    Except (Lib.Halt Panic) (Nat × CarelessClient) :=
  match call with
  | .kfree ptr =>
    if ptr ∈ s.freed then do
      let heap ← kfree s.client.heap ptr
      return (0, { s with client := { s.client with heap := heap } })
    else do
      let (answer, client) ← kmallocStep boot s.client (.kfree ptr)
      return (answer, ⟨client, if ptr = 0 then s.freed else ptr :: s.freed⟩)
  | .kmalloc size => do
    let (ptr, client) ← kmallocStep boot s.client (.kmalloc size)
    return (ptr, ⟨client, if ptr = 0 then s.freed else s.freed.filter fun q => client.heap.Clears ptr q⟩)
  | call => do
    let (answer, client) ← kmallocStep boot s.client call
    return (answer, ⟨client, s.freed⟩)

/-- A pointer that `kfree` turns down, with its header outside of all that is handed out. -/
structure Kmalloc.Spent (s : Kmalloc) (live : List Nat) (q : Nat) : Prop where
  header : kmallocHeader ≤ q
  magic : (s.block (q - kmallocHeader)).magic ≠ kmallocMagicUsed
  apart : ∀ ptr ∈ live, q + kmallocHeader ≤ ptr ∨ ptr + s.payloadSize ptr + kmallocHeader ≤ q

section Spent

variable {boot : Boot} {s t : KmallocClient} {heap heap' : Kmalloc} {live live' : List Nat} {q answer : Nat}

theorem Kmalloc.Spent.follows (spent : heap.Spent live q)
    (follows : (heap.block (q - kmallocHeader)).Follows (heap'.block (q - kmallocHeader)))
    (kept : ∀ ptr ∈ live', ptr ∈ live ∧ heap'.payloadSize ptr = heap.payloadSize ptr) : heap'.Spent live' q where
  header := spent.header
  magic := fun used => spent.magic (follows.magic used)
  apart := by
    intro ptr handed
    obtain ⟨before, size⟩ := kept ptr handed
    rw [size]
    exact spent.apart ptr before

/-- A payload that was handed out before and still is has its size. -/
theorem HeapSound.payloadSize {mapped : List (Nat × Nat)}
    (sound : HeapSound boot heap' live' mapped) (handed : ptr ∈ live')
    (follows : (heap.block (ptr - kmallocHeader)).Follows (heap'.block (ptr - kmallocHeader))) :
    heap'.payloadSize ptr = heap.payloadSize ptr := by
  obtain ⟨pools, blocks, frees, inner, -⟩ := sound
  obtain ⟨b, -, used, -, here⟩ := inner.payload handed
  rw [← here] at used
  exact (follows.used used).2

/-- What is spent stays so, unless `kmalloc` hands its header out. -/
theorem kmallocStep_spent (room : boot.VmallocRoom) (sound : s.Sound boot)
    (taken : kmallocStep boot s call = .ok (answer, t)) (spent : s.heap.Spent s.live q)
    (clears : ∀ size, call = .kmalloc size → answer ≠ 0 → t.heap.Clears answer q) : t.heap.Spent t.live q := by
  have sound' := kmallocStep_next room sound taken
  cases call with
  | kmalloc size =>
    obtain ⟨⟨ptr, heap⟩, done, answered⟩ := Lib.bind_ok taken
    cases answered
    have follows := @kmalloc_follows boot _ _ _ _ done
    by_cases null : answer = 0
    · subst null
      have all : ∀ x, (s.heap.block x).Follows (heap.block x) := fun x => follows (Nat.succ_ne_zero _)
      exact spent.follows (all _) fun ptr handed => ⟨handed, sound'.payloadSize handed (all _)⟩
    · have cleared := clears size rfl null
      rw [KmallocClient.Sound, if_neg null] at sound'
      obtain ⟨pools, blocks, frees, inner, -⟩ := id sound'
      have fresh := (List.nodup_cons.mp inner.unique).1
      have away : q - kmallocHeader + kmallocHeader ≠ answer := by
        rw [Nat.sub_add_cancel spent.header]
        simp only [Kmalloc.Clears, kmallocHeader] at cleared
        omega
      dsimp only
      rw [if_neg null]
      refine ⟨spent.header, fun used => spent.magic ((follows away).magic used), fun ptr handed => ?_⟩
      rcases List.mem_cons.mp handed with rfl | earlier
      · simp only [Kmalloc.Clears] at cleared
        omega
      · obtain ⟨b, -, -, rfl, here⟩ := inner.payload handed
        have other : b + kmallocHeader - kmallocHeader + kmallocHeader ≠ answer := by
          grind
        rw [sound'.payloadSize handed (follows other)]
        exact spent.apart _ earlier
  | kfree ptr =>
    rw [kmallocStep] at taken
    split at taken
    · obtain ⟨heap, done, answered⟩ := Lib.bind_ok taken
      cases answered
      have follows := (kfree_follows done).1
      exact spent.follows (follows _) fun ptr handed => ⟨List.mem_of_mem_erase handed, sound'.payloadSize handed (follows _)⟩
    · cases taken
  | store ptr contents =>
    rw [kmallocStep] at taken
    split at taken
    · rename_i handed
      cases taken
      obtain ⟨pools, blocks, frees, inner, -⟩ := id sound
      have header : (storePayload s.heap ptr contents).block (q - kmallocHeader) = s.heap.block (q - kmallocHeader) := by
        apply if_neg
        have apart := spent.apart ptr handed
        rw [Kmalloc.payloadSize] at apart
        omega
      refine spent.follows (header ▸ .refl _) fun other handed' => ⟨handed', ?_⟩
      obtain ⟨b, isBlock, -, rfl, here⟩ := inner.payload handed'
      have apart := inner.payload_apart handed isBlock
      have same : (storePayload s.heap ptr contents).block b = s.heap.block b := if_neg (by omega)
      rw [Kmalloc.payloadSize, Kmalloc.payloadSize, here, same]
    · cases taken
  | vmalloc size flags =>
    obtain ⟨⟨addr, vm⟩, -, answered⟩ := Lib.bind_ok taken
    cases answered
    exact ⟨spent.header, spent.magic, spent.apart⟩
  | vfree addr size =>
    rw [kmallocStep] at taken
    split at taken
    · obtain ⟨vm, -, answered⟩ := Lib.bind_ok taken
      cases answered
      exact ⟨spent.header, spent.magic, spent.apart⟩
    · cases taken

/-- A payload that is released is spent. -/
theorem kfree_spent (room : boot.VmallocRoom) (sound : s.Sound boot) (handed : ptr ∈ s.live)
    (taken : kmallocStep boot s (.kfree ptr) = .ok (answer, t)) : t.heap.Spent t.live ptr := by
  have sound' := kmallocStep_next room sound taken
  rw [kmallocStep, if_pos (.inr handed)] at taken
  obtain ⟨heap, done, answered⟩ := Lib.bind_ok taken
  cases answered
  obtain ⟨pools, blocks, frees, inner, -⟩ := sound
  obtain ⟨b, isBlock, used, rfl, here⟩ := inner.payload handed
  obtain ⟨follows, magic⟩ := kfree_follows done
  refine ⟨Nat.le_add_left _ _, magic (Nat.succ_ne_zero _) (here.symm ▸ used), fun other waits => ?_⟩
  obtain ⟨different, waits'⟩ := inner.unique.mem_erase_iff.mp waits
  obtain ⟨b', isBlock', -, rfl, here'⟩ := inner.payload waits'
  have separate := inner.layout.separate isBlock isBlock' fun same => different (by rw [same])
  have extent := blockEnd_gt s.heap.block b
  rw [sound'.payloadSize waits (follows _), Kmalloc.payloadSize, here']
  simp only [Apart, blockEnd] at separate extent
  omega

/-- The heap is sound and what was released is spent. -/
def CarelessClient.Sound (boot : Boot) (s : CarelessClient) : Prop :=
  s.client.Sound boot ∧ ∀ q ∈ s.freed, s.client.heap.Spent s.client.live q

theorem carelessStep_sound {s t : CarelessClient} (room : boot.VmallocRoom) (sound : s.Sound boot)
    (taken : carelessStep boot s call = .ok (answer, t)) : t.Sound boot := by
  obtain ⟨inner, spent⟩ := sound
  -- calls that say nothing about `freed`
  have plain : ∀ {call client}, kmallocStep boot s.client call = .ok (answer, client) → (∀ size, call ≠ .kmalloc size) →
      client.Sound boot ∧ ∀ q ∈ s.freed, client.heap.Spent client.live q := by
    grind [kmallocStep_next, kmallocStep_spent]
  cases call with
  | kfree ptr =>
    rw [carelessStep] at taken
    split at taken
    · rename_i freed
      rw [Lib.bind_of_ok (kfree_refused (spent ptr freed).magic)] at taken
      cases taken
      exact ⟨inner, spent⟩
    · obtain ⟨⟨answer, client⟩, called, answered⟩ := Lib.bind_ok taken
      cases answered
      obtain ⟨inner', spent'⟩ := plain called (by simp)
      refine ⟨inner', fun q freed => ?_⟩
      split at freed
      · exact spent' q freed
      · rename_i real
        rcases List.mem_cons.mp freed with rfl | earlier
        · apply kfree_spent room inner ?_ called
          by_contra missing
          rw [kmallocStep, if_neg (not_or.mpr ⟨real, missing⟩)] at called
          cases called
        grind
  | kmalloc size =>
    obtain ⟨⟨ptr, client⟩, called, answered⟩ := Lib.bind_ok taken
    cases answered
    refine ⟨kmallocStep_next room inner called, fun q freed => ?_⟩
    split at freed
    · grind [kmallocStep_spent]
    · obtain ⟨freed, cleared⟩ := List.mem_filter.mp freed
      exact kmallocStep_spent room inner called (spent q freed) fun _ _ _ => of_decide_eq_true cleared
  | store ptr contents =>
    obtain ⟨⟨answer, client⟩, called, answered⟩ := Lib.bind_ok taken
    cases answered
    exact plain called (by simp)
  | vmalloc size flags =>
    obtain ⟨⟨answer, client⟩, called, answered⟩ := Lib.bind_ok taken
    cases answered
    exact plain called (by simp)
  | vfree addr size =>
    obtain ⟨⟨answer, client⟩, called, answered⟩ := Lib.bind_ok taken
    cases answered
    exact plain called (by simp)

end Spent

section Runs

variable {boot : Boot} {s t : CarelessClient} {q answer : Nat} {trace : List (KmallocCall × Nat)}

/-- Only `kmalloc` takes a pointer off the released ones. -/
theorem carelessStep_freed (taken : carelessStep boot s call = .ok (answer, t))
    (other : ∀ size, call ≠ .kmalloc size) (member : q ∈ s.freed) : q ∈ t.freed := by
  cases call with
  | kmalloc size => grind
  | kfree ptr =>
    rw [carelessStep] at taken
    split at taken
    · obtain ⟨heap, -, answered⟩ := Lib.bind_ok taken
      cases answered
      exact member
    · obtain ⟨⟨answer, client⟩, -, answered⟩ := Lib.bind_ok taken
      cases answered
      grind
  | store | vmalloc | vfree =>
    obtain ⟨⟨answer, client⟩, -, answered⟩ := Lib.bind_ok taken
    cases answered
    exact member

theorem carelessSteps_freed (run : Lib.Steps (carelessStep boot) s trace t)
    (others : ∀ call ∈ trace, ∀ size, call.1 ≠ .kmalloc size) (member : q ∈ s.freed) : q ∈ t.freed := by
  induction run with
  | done => exact member
  | more taken _ ih =>
    grind [carelessStep_freed, List.mem_cons_self]

/-- A call that releases a payload puts it on the list. -/
theorem carelessStep_released (real : q ≠ 0) (taken : carelessStep boot s (.kfree q) = .ok (answer, t)) : q ∈ t.freed := by
  rw [carelessStep] at taken
  split at taken
  · rename_i freed
    obtain ⟨heap, -, answered⟩ := Lib.bind_ok taken
    cases answered
    exact freed
  · obtain ⟨⟨answer, client⟩, -, answered⟩ := Lib.bind_ok taken
    cases answered
    exact List.mem_cons_self

end Runs

/-- A payload that was released can be released again without effect, after any further releases, also
of payloads that were released before, and any writes into what is still handed out. -/
theorem kfree_again_idle {boot : Boot} {paging : Paging} {block : Nat → KmallocBlock}
    {before later : List (KmallocCall × Nat)} {s t : CarelessClient} {p answer : Nat} (reached : Reached boot paging)
    (room : boot.VmallocRoom)
    (run : Lib.Steps (carelessStep boot) ⟨⟨⟨⟨paging, [], 0, 0, false⟩, block, 0, false⟩, [], []⟩, []⟩ before s)
    (held : p ∈ s.client.live) (onward : Lib.Steps (carelessStep boot) s ((.kfree p, answer) :: later) t)
    (noKmalloc : ∀ call ∈ later, ∀ size, call.1 ≠ .kmalloc size) : kfree t.client.heap p = .ok t.client.heap := by
  have start : CarelessClient.Sound boot ⟨⟨⟨⟨paging, [], 0, 0, false⟩, block, 0, false⟩, [], []⟩, []⟩ :=
    ⟨kmallocSteps_sound reached room .done, by simp⟩
  have sound : s.Sound boot := Lib.Steps.invariant (CarelessClient.Sound boot) (carelessStep_sound room) start run
  have sound' : t.Sound boot := Lib.Steps.invariant (CarelessClient.Sound boot) (carelessStep_sound room) sound onward
  have real : p ≠ 0 := by
    rintro rfl
    obtain ⟨pools, blocks, frees, inner, -⟩ := sound.1
    obtain ⟨b, -, -, same, -⟩ := inner.payload held
    simp [kmallocHeader] at same
  cases onward with
  | more taken rest =>
    have freed := carelessSteps_freed rest noKmalloc (carelessStep_released real taken)
    exact kfree_refused (sound'.2 p freed).magic

/-- The upper of two blocks is released, then the lower one, which takes it in, then both again. -/
theorem kfree_again_idle_roomy : ∃ s t, Lib.Steps (carelessStep roomyBoot) ⟨roomyStart, []⟩
      [(.kmalloc 16, 0xffffffff80200030), (.kmalloc 16, 0xffffffff80200070)] s ∧
    Lib.Steps (carelessStep roomyBoot) s
      [(.kfree 0xffffffff80200070, 0), (.kfree 0xffffffff80200030, 0), (.kfree 0xffffffff80200070, 0),
        (.kfree 0xffffffff80200030, 0)] t ∧
    t.client.heap.Whole 0xffffffff80200000 ∧ kfree t.client.heap 0xffffffff80200070 = .ok t.client.heap := by
  obtain ⟨s, run, passed⟩ := Lib.Steps.exists_of_replay_test (show (Lib.replay (carelessStep roomyBoot)
    ⟨⟨roomyHeap, [], []⟩, []⟩ [(.kmalloc 16, 0xffffffff80200030), (.kmalloc 16, 0xffffffff80200070)]).any (fun s =>
      0xffffffff80200070 ∈ s.client.live ∧ (Lib.replay (carelessStep roomyBoot) s
        [(.kfree 0xffffffff80200070, 0), (.kfree 0xffffffff80200030, 0), (.kfree 0xffffffff80200070, 0),
          (.kfree 0xffffffff80200030, 0)]).any (·.client.heap.Whole 0xffffffff80200000) = true) = true by decide +kernel)
  obtain ⟨held, passed⟩ := of_decide_eq_true passed
  obtain ⟨t, onward, whole⟩ := Lib.Steps.exists_of_replay_test passed
  have start : Lib.Steps (carelessStep roomyBoot) ⟨roomyStart, []⟩
      [(.kmalloc 16, 0xffffffff80200030), (.kmalloc 16, 0xffffffff80200070)] s := by
    cases run with
    | more taken rest =>
      refine .more ?_ rest
      simp only [carelessStep, kmallocStep, roomy_first_call (show 16 ≠ 0 by decide)]
      exact taken
  refine ⟨s, t, start, onward, of_decide_eq_true whole, ?_⟩
  exact kfree_again_idle roomyPagingReady_reached roomyBoot_room start held onward (by simp)

end Velox
