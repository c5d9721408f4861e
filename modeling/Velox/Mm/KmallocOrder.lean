import Mathlib.Data.List.Chain
import Velox.Mm.KmallocAnswers

namespace Velox

/-- Release the payloads one after the other. -/
def freeAll (s : Kmalloc) (order : List Nat) : Except (Lib.Halt Panic) Kmalloc := order.foldlM kfree s

/-- The pool is a single free block. -/
structure Kmalloc.Whole (s : Kmalloc) (base : Nat) : Prop where
  free : (s.block base).free = 1
  size : (s.block base).size = kmallocPoolSize - kmallocHeader
  last : (s.block base).nextPhys = 0

/-- The pools are cut into the same blocks, with the same ones free. -/
def SameBlocks (pools : List Nat) (s t : Kmalloc) : Prop :=
  ∀ base ∈ pools, ∃ inPool, 0 ∉ inPool ∧ Lib.Segment (fun b => (s.block b).nextPhys) base inPool 0 ∧
    Lib.Segment (fun b => (t.block b).nextPhys) base inPool 0 ∧
    ∀ b ∈ inPool, (s.block b).size = (t.block b).size ∧ (s.block b).free = (t.block b).free

/-- No two blocks that follow each other in a pool are both free. -/
def Coalesced (pools : List Nat) (blocks : Nat → List Nat) (s : Kmalloc) : Prop :=
  ∀ base ∈ pools, (blocks base).IsChain fun lower upper => ¬ ((s.block lower).free = 1 ∧ (s.block upper).free = 1)

/-- The block that `b` follows in its pool, if there is one, is in use. -/
def NoneFreeBefore (pools : List Nat) (blocks : Nat → List Nat) (s : Kmalloc) (b : Nat) : Prop :=
  ∀ base ∈ pools, ∀ before lower after, blocks base = before ++ lower :: b :: after → (s.block lower).free = 0

/-- The pool is one block, or its first block is released behind all others of the pool. -/
def FreedLast (blocks : Nat → List Nat) (order : List Nat) (base : Nat) : Prop :=
  blocks base = [base] ∨ ∃ earlier later, order = earlier ++ (base + kmallocHeader) :: later ∧
    ∀ ptr ∈ later, ptr - kmallocHeader ∉ blocks base

variable {s t : Kmalloc} {pools frees live order later before run rest : List Nat} {blocks blocks' : Nat → List Nat}
  {base b ptr : Nat}

section Pools

/-- The first block of a pool stands at its start. -/
theorem Tiled.head {block : Nat → KmallocBlock} (tiled : Tiled block base inPool)
    (positive : 0 < base) : ∃ rest, inPool = base :: rest := by
  cases inPool with
  | nil =>
    have empty : base = 0 := tiled.chain
    omega
  | cons first rest => exact ⟨rest, by rw [tiled.chain.start]⟩

theorem Heap.head (heap : Heap s pools blocks frees live) (member : base ∈ pools) : ∃ rest, blocks base = base :: rest :=
  (heap.layout.tiled base member).head (heap.layout.placed base member).1

/-- With nothing handed out, a pool is whole iff it is one block. -/
theorem Heap.whole_iff (heap : Heap s pools blocks frees []) (member : base ∈ pools) :
    s.Whole base ↔ blocks base = [base] := by
  have tiled := heap.layout.tiled base member
  obtain ⟨rest, parts⟩ := heap.head member
  have isBlock : IsBlock pools blocks base := ⟨base, member, by simp [parts]⟩
  rw [parts] at tiled ⊢
  constructor
  · intro whole
    cases rest with
    | nil => rfl
    | cons next others =>
      have nextIs : (s.block base).nextPhys = next := tiled.chain.2.start
      have isNext : IsBlock pools blocks next := ⟨base, member, by simp [parts]⟩
      have positive := (heap.layout.bounds isNext).1
      rw [whole.last] at nextIs
      omega
  · intro single
    rw [single] at tiled
    have last : (s.block base).nextPhys = 0 := tiled.chain.2
    have ending : blockEnd s.block base = base + kmallocPoolSize := tiled.tiles.2
    have free := (heap.free_iff isBlock).mpr (by simp)
    refine ⟨((heap.listed base).mp free).2, ?_, last⟩
    simp only [blockEnd] at ending
    omega

/-- Whole pools are the same pools. -/
theorem Heap.sameBlocks (heap : Heap s pools blocks frees live) (whole : ∀ base ∈ pools, s.Whole base)
    (whole' : ∀ base ∈ pools, t.Whole base) : SameBlocks pools s t := by
  intro base member
  have positive := (heap.layout.placed base member).1
  have first := whole base member
  have second := whole' base member
  refine ⟨[base], ?_, ⟨rfl, first.last⟩, ⟨rfl, second.last⟩, ?_⟩
  · grind
  · intro b inPool
    rw [List.mem_singleton.mp inPool, first.size, second.size, first.free, second.free]
    exact ⟨rfl, rfl⟩

end Pools

section Order

/-- A release of another block than the first of the pool can be dropped from the order. -/
theorem freedLast_cons (away : base + kmallocHeader ≠ ptr) :
    FreedLast blocks (ptr :: later) base ↔ FreedLast blocks later base := by
  refine or_congr_right ⟨?_, ?_⟩
  · rintro ⟨earlier, rest, parts, outside⟩
    cases earlier with
    | nil =>
      grind
    | cons first earlier =>
      grind
  grind

theorem FreedLast.congr (single : blocks' base = [base] ↔ blocks base = [base])
    (members : ∀ ptr ∈ order, ptr - kmallocHeader ∈ blocks' base ↔ ptr - kmallocHeader ∈ blocks base) :
    FreedLast blocks' order base ↔ FreedLast blocks order base := by
  refine or_congr single (exists_congr fun earlier => exists_congr fun later => and_congr_right fun parts => ?_)
  grind

section

variable (heap : Heap s pools blocks frees live)
include heap

/-- Once the first block of a pool is released, the pool is one block iff nothing else of it is
still to be released. -/
theorem Heap.freedLast_first (member : base ∈ pools)
    (split : FreeRun blocks later base base [] run rest) (fresh : base + kmallocHeader ∉ later)
    (handed : ∀ ptr ∈ later, ptr ∈ live) :
    FreedLast blocks ((base + kmallocHeader) :: later) base ↔
      FreedLast (Function.update blocks base (base :: rest)) later base := by
  obtain ⟨parts, free, stops⟩ := split
  constructor
  · intro last
    refine .inl ?_
    rw [Function.update_self]
    cases rest with
    | nil => rfl
    | cons next others =>
      -- The block that ended the run is still to be released.
      have waits := stops next rfl
      rcases last with single | ⟨earlier, remaining, order, outside⟩
      · rw [parts] at single
        simp at single
      · cases earlier with
        | nil =>
          grind
        | cons first earlier =>
          grind
  · rintro (single | ⟨earlier, remaining, order, -⟩)
    · refine .inr ⟨[], later, rfl, fun ptr waits inside => ?_⟩
      grind [payload]
    grind

/-- The release of a block behind the first one of its pool leaves the pool in more than one block. -/
theorem Heap.freedLast_inner {first : Nat}
    (split : FreeRun blocks later base b (first :: before) run rest)
    (handed : ∀ ptr ∈ later, ptr ∈ live) :
    FreedLast (Function.update blocks base (first :: before ++ b :: rest)) later base ↔ FreedLast blocks later base := by
  obtain ⟨parts, free, -⟩ := split
  refine FreedLast.congr ?_ ?_ <;> rw [Function.update_self, parts]
  · simp
  grind [payload]

/-- One release asks of the later ones what the order asks. -/
theorem Heap.freedLast_step (member : base ∈ pools)
    (split : FreeRun blocks later base b before run rest) (fresh : b + kmallocHeader ∉ later)
    (handed : ∀ ptr ∈ later, ptr ∈ live) {other : Nat} (member' : other ∈ pools) :
    FreedLast blocks ((b + kmallocHeader) :: later) other ↔
      FreedLast (Function.update blocks base (before ++ b :: rest)) later other := by
  have inPool : b ∈ blocks base := by simp [split.parts]
  have start : ∀ {base}, base ∈ pools → base ∈ blocks base := by
    grind [head]
  by_cases here : other = base
  · subst here
    obtain ⟨tail, head⟩ := heap.head member
    cases before with
    | nil =>
      have same : b = other := by
        have parts := split.parts
        grind
      grind [freedLast_first]
    | cons first before =>
      have nodup := (heap.layout.tiled other member).nodup
      have away : other ≠ b := by
        have parts := split.parts
        grind
      rw [freedLast_cons fun same => away (Nat.add_right_cancel same)]
      exact (heap.freedLast_inner split handed).symm
  · have away : other ≠ b := heap.layout.elsewhere member inPool member' here (start member')
    rw [freedLast_cons fun same => away (Nat.add_right_cancel same)]
    exact (FreedLast.congr (by grind) fun ptr _ => by grind).symm

end

theorem FreeRun.perm (split : FreeRun blocks live base b before run rest) (same : live.Perm later) :
    FreeRun blocks later base b before run rest :=
  ⟨split.parts, fun c member => same.mem_iff.not.mp (split.free c member), fun c first => same.mem_iff.mp (split.stops c first)⟩

/-- Releasing all live payloads always ends. A pool is one block then iff it was, or its first
block was released last. -/
theorem Heap.freeAll (heap : Heap s pools blocks frees live) (sorted : order.Perm live) :
    ∃ t blocks' frees', freeAll s order = .ok t ∧ Heap t pools blocks' frees' [] ∧
      ∀ base ∈ pools, blocks' base = [base] ↔ FreedLast blocks order base := by
  induction order generalizing s blocks frees live with
  | nil =>
    cases sorted.nil_eq
    refine ⟨s, blocks, frees, rfl, heap, fun base _ => ?_⟩
    simp [FreedLast]
  | cons ptr later ih =>
    have handed : ptr ∈ live := sorted.mem_iff.mp List.mem_cons_self
    have remaining : later.Perm (live.erase ptr) := by
      grind
    have fresh := (List.nodup_cons.mp (sorted.nodup_iff.mpr heap.unique)).1
    obtain ⟨middle, released, -, base, b, before, run, rest, frees', member, rfl, split, heap'⟩ := heap.kfree handed
    obtain ⟨t, blocks', frees'', done, final, single⟩ := ih heap' remaining
    refine ⟨t, blocks', frees'', ?_, final, fun other member' => ?_⟩
    · rw [Velox.freeAll, List.foldlM_cons, Lib.bind_of_ok released]
      exact done
    · rw [single other member']
      exact (heap.freedLast_step member (split.perm remaining.symm) fresh
        (fun ptr waits => sorted.mem_iff.mp (List.mem_cons_of_mem _ waits)) member').symm

end Order

section Coalesced

section

variable (heap : Heap s pools blocks frees live)
include heap

theorem Heap.flag_iff (isBlock : IsBlock pools blocks b) :
    (s.block b).free = 1 ↔ b + kmallocHeader ∉ live := by
  rw [← heap.free_iff isBlock, heap.listed]
  simp [isBlock]

theorem Heap.coalesced_iff : Coalesced pools blocks s ↔
    ∀ base ∈ pools, (blocks base).IsChain fun lower upper => lower + kmallocHeader ∈ live ∨ upper + kmallocHeader ∈ live := by
  refine forall₂_congr fun base member => List.IsChain.iff_of_mem_imp fun lower upper inside inside' => ?_
  rw [heap.flag_iff ⟨base, member, inside⟩, heap.flag_iff ⟨base, member, inside'⟩]
  tauto

/-- Where no two neighbours are free, a release keeps it so iff the block before is in use. -/
theorem Heap.coalesced_step (coalesced : Coalesced pools blocks s) (member : base ∈ pools)
    (split : FreeRun blocks (live.erase (b + kmallocHeader)) base b before run rest)
    (heap' : Heap t pools (Function.update blocks base (before ++ b :: rest)) order (live.erase (b + kmallocHeader))) :
    Coalesced pools (Function.update blocks base (before ++ b :: rest)) t ↔ NoneFreeBefore pools blocks s b := by
  rw [heap'.coalesced_iff]
  rw [heap.coalesced_iff] at coalesced
  obtain ⟨parts, free, stops⟩ := split
  have inPool : b ∈ blocks base := by simp [parts]
  have nodup := (heap.layout.tiled base member).nodup
  obtain ⟨outBefore, outAfter⟩ : b ∉ before ∧ b ∉ run ++ rest := by
    grind
  have gone : b + kmallocHeader ∉ live.erase (b + kmallocHeader) := heap.unique.not_mem_erase
  -- Away from `b` nothing changes.
  have away : ∀ {inPool : List Nat}, b ∉ inPool →
      inPool.IsChain (fun lower upper => lower + kmallocHeader ∈ live ∨ upper + kmallocHeader ∈ live) →
      inPool.IsChain fun lower upper => lower + kmallocHeader ∈ live.erase (b + kmallocHeader) ∨
        upper + kmallocHeader ∈ live.erase (b + kmallocHeader) := by
    grind [List.IsChain.imp_of_mem_imp]
  constructor
  · intro chained base' member' before' lower after same
    have inPool' : b ∈ blocks base' := by simp [same]
    obtain rfl := heap.layout.pool_unique member' member inPool' inPool
    rw [parts, List.append_cons before' lower, List.append_cons_inj_of_notMem outBefore outAfter] at same
    have chain := chained base' member'
    rw [Function.update_self, same.1, List.append_assoc, List.singleton_append, List.isChain_append_cons_cons] at chain
    have waits := List.mem_of_mem_erase (chain.2.1.resolve_right gone)
    exact (heap.used_iff ⟨base', member', by simp [parts, same.1]⟩).mpr waits
  · intro used other member'
    by_cases here : other = base
    · subst here
      have chain := coalesced other member'
      rw [parts] at chain
      rw [Function.update_self, List.isChain_append, List.isChain_cons]
      refine ⟨away outBefore chain.left_of_append, ⟨fun c first => .inr (stops c first), ?_⟩, ?_⟩
      · grind [List.IsChain.right_of_append]
      · intro lower last c first
        obtain ⟨before', rfl⟩ := List.getLast?_eq_some_iff.mp last
        have flag := used other member' before' lower (run ++ rest) (by simp [parts])
        have waits := (heap.used_iff ⟨other, member', by simp [parts]⟩).mp flag
        grind
    · rw [Function.update_of_ne here]
      refine away (fun inside => ?_) (coalesced other member')
      exact here (heap.layout.pool_unique member' member inside inPool)

end

end Coalesced

instance Kmalloc.decidableWhole (s : Kmalloc) (base : Nat) : Decidable (s.Whole base) :=
  decidable_of_iff ((s.block base).free = 1 ∧ (s.block base).size = kmallocPoolSize - kmallocHeader ∧
      (s.block base).nextPhys = 0)
    ⟨fun ⟨free, size, last⟩ => ⟨free, size, last⟩, fun whole => ⟨whole.free, whole.size, whole.last⟩⟩

/-- A free block that is followed by another one. -/
def Kmalloc.FreePair (s : Kmalloc) (b : Nat) : Prop :=
  (s.block b).free = 1 ∧ (s.block b).nextPhys ≠ 0 ∧ (s.block (s.block b).nextPhys).free = 1

instance Kmalloc.decidableFreePair (s : Kmalloc) (b : Nat) : Decidable (s.FreePair b) :=
  inferInstanceAs (Decidable (_ ∧ _))

/-- A whole pool and one that begins with two blocks are not the same. -/
theorem Kmalloc.FreePair.not_sameBlocks (pair : s.FreePair base) (real : base ≠ 0) (whole : t.Whole base) :
    ¬ SameBlocks [base] s t := by
  intro same
  obtain ⟨inPool, proper, chain, chain', -⟩ := same base List.mem_cons_self
  cases inPool with
  | nil => exact real chain
  | cons first rest =>
    obtain ⟨rfl, onward⟩ := chain
    have onward' : Lib.Segment _ (t.block base).nextPhys rest 0 := chain'.2
    rw [whole.last] at onward'
    cases rest with
    | nil => exact pair.2.1 onward
    | cons next others => exact proper (by simp [onward'.start])

theorem roomy_run {t : KmallocClient} (asked : n ≠ 0)
    (run : Lib.Steps (kmallocStep roomyBoot) ⟨roomyHeap, [], []⟩ ((.kmalloc n, ptr) :: trace) t) :
    Lib.Steps (kmallocStep roomyBoot) roomyStart ((.kmalloc n, ptr) :: trace) t := by
  cases run with
  | more taken rest =>
    refine .more ?_ rest
    simp only [kmallocStep, roomy_first_call asked]
    exact taken

/-- Two small blocks at the start of the first pool, and what becomes of it in both orders. -/
theorem roomy_two_blocks : ∃ t u v, Lib.Steps (kmallocStep roomyBoot) roomyStart
      [(.kmalloc 16, 0xffffffff80200030), (.kmalloc 16, 0xffffffff80200070)] t ∧
    t.live = [0xffffffff80200070, 0xffffffff80200030] ∧
    freeAll t.heap [0xffffffff80200030, 0xffffffff80200070] = .ok u ∧
    freeAll t.heap [0xffffffff80200070, 0xffffffff80200030] = .ok v ∧
    u.FreePair 0xffffffff80200000 ∧ v.Whole 0xffffffff80200000 := by
  obtain ⟨t, run, passed⟩ := Lib.Steps.exists_of_replay_test (show (Lib.replay (kmallocStep roomyBoot) ⟨roomyHeap, [], []⟩
    [(.kmalloc 16, 0xffffffff80200030), (.kmalloc 16, 0xffffffff80200070)]).any (fun t =>
      t.live = [0xffffffff80200070, 0xffffffff80200030] ∧
      (freeAll t.heap [0xffffffff80200030, 0xffffffff80200070]).toOption.any (·.FreePair 0xffffffff80200000) = true ∧
      (freeAll t.heap [0xffffffff80200070, 0xffffffff80200030]).toOption.any (·.Whole 0xffffffff80200000) = true) = true
    by decide +kernel)
  obtain ⟨live, cut, joined⟩ := of_decide_eq_true passed
  obtain ⟨u, done, pair⟩ := Lib.exists_ok_of_test cut
  obtain ⟨v, done', whole⟩ := Lib.exists_ok_of_test joined
  exact ⟨t, u, v, roomy_run (by decide) run, live, done, done', of_decide_eq_true pair, of_decide_eq_true whole⟩

/-- On every heap and for every two orders of releasing all live payloads, all pools are single free
blocks after both iff in both orders the first block of each pool that has several comes last of
its pool. After a release no two neighbours are free, if none were before, iff the block before the
released one is in use. -/
theorem kfree_order_iff {boot : Boot} {paging : Paging} {block : Nat → KmallocBlock}
    {trace : List (KmallocCall × Nat)} {t : KmallocClient} (reached : Reached boot paging) (room : boot.VmallocRoom)
    (run : Lib.Steps (kmallocStep boot) ⟨⟨⟨paging, [], 0, 0, false⟩, block, 0, false⟩, [], []⟩ trace t) :
    ∃ pools blocks frees, Heap t.heap pools blocks frees t.live ∧
      (∀ first second, first.Perm t.live → second.Perm t.live →
        ∃ u v, freeAll t.heap first = .ok u ∧ freeAll t.heap second = .ok v ∧
          ((SameBlocks pools u v ∧ ∀ base ∈ pools, u.Whole base ∧ v.Whole base) ↔
            ∀ base ∈ pools, FreedLast blocks first base ∧ FreedLast blocks second base)) ∧
      ∀ ptr ∈ t.live, ∃ u blocks' frees', kfree t.heap ptr = .ok u ∧ Heap u pools blocks' frees' (t.live.erase ptr) ∧
        (Coalesced pools blocks t.heap →
          (Coalesced pools blocks' u ↔ NoneFreeBefore pools blocks t.heap (ptr - kmallocHeader))) := by
  obtain ⟨pools, blocks, frees, heap, -⟩ : t.Sound boot := kmallocSteps_sound reached room run
  refine ⟨pools, blocks, frees, heap, ?_, ?_⟩
  · intro first second sorted sorted'
    obtain ⟨u, blocks', frees', done, final, single⟩ := heap.freeAll sorted
    obtain ⟨v, blocks'', frees'', done', final', single'⟩ := heap.freeAll sorted'
    refine ⟨u, v, done, done', ?_⟩
    have whole : ∀ base ∈ pools, (u.Whole base ∧ v.Whole base) ↔ FreedLast blocks first base ∧ FreedLast blocks second base := by
      grind [Heap.whole_iff]
    constructor
    · grind
    · intro last
      have both := fun base member => (whole base member).mpr (last base member)
      exact ⟨final.sameBlocks (fun base member => (both base member).1) (fun base member => (both base member).2), both⟩
  grind [Heap.kfree, Nat.add_sub_cancel, Heap.coalesced_step]

theorem kfree_order_iff_roomy : ∃ t pools blocks frees, Lib.Steps (kmallocStep roomyBoot) roomyStart
      [(.kmalloc 16, 0xffffffff80200030), (.kmalloc 16, 0xffffffff80200070)] t ∧ Heap t.heap pools blocks frees t.live ∧
    ∃ u v, freeAll t.heap [0xffffffff80200030, 0xffffffff80200070] = .ok u ∧
      freeAll t.heap [0xffffffff80200070, 0xffffffff80200030] = .ok v ∧
      ((SameBlocks pools u v ∧ ∀ base ∈ pools, u.Whole base ∧ v.Whole base) ↔
        ∀ base ∈ pools, FreedLast blocks [0xffffffff80200030, 0xffffffff80200070] base ∧
          FreedLast blocks [0xffffffff80200070, 0xffffffff80200030] base) := by
  obtain ⟨t, -, -, run, live, -⟩ := roomy_two_blocks
  obtain ⟨pools, blocks, frees, heap, orders, -⟩ := kfree_order_iff roomyPagingReady_reached roomyBoot_room run
  exact ⟨t, pools, blocks, frees, run, heap, orders _ _ (live ▸ .swap _ _ _) (live ▸ .refl _)⟩

/-- Released from the lower to the upper block, the pool stays cut. -/
theorem kfree_order_fragments : Reached roomyBoot roomyPagingReady ∧ roomyBoot.VmallocRoom ∧
    ∃ t u v, Lib.Steps (kmallocStep roomyBoot) roomyStart
        [(.kmalloc 16, 0xffffffff80200030), (.kmalloc 16, 0xffffffff80200070)] t ∧
      t.live = [0xffffffff80200070, 0xffffffff80200030] ∧
      freeAll t.heap [0xffffffff80200030, 0xffffffff80200070] = .ok u ∧
      freeAll t.heap [0xffffffff80200070, 0xffffffff80200030] = .ok v ∧
      u.FreePair 0xffffffff80200000 ∧ v.Whole 0xffffffff80200000 ∧ ¬ SameBlocks [0xffffffff80200000] u v := by
  grind [roomy_two_blocks, roomyPagingReady_reached, roomyBoot_room, Kmalloc.FreePair.not_sameBlocks]

end Velox
