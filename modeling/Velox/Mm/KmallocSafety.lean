import Velox.Mm.KmallocLayout
import Velox.Mm.VmallocSafety

namespace Velox

variable {after : List Nat}

section Fields

variable (s : Kmalloc) (b x : Nat)

theorem Kmalloc.modify_block (change : KmallocBlock → KmallocBlock) :
    (s.modify b change).block x = if x = b then change (s.block b) else s.block x := by
  simp only [Kmalloc.modify, Function.update_apply]

theorem freeListInsert_block : (freeListInsert s b).block x = if s.freeList ≠ 0 ∧ x = s.freeList then
      { (if x = b then { s.block b with free := 1, magic := kmallocMagicFree, nextFree := s.freeList, prevFree := 0 }
        else s.block x) with prevFree := b }
    else if x = b then { s.block b with free := 1, magic := kmallocMagicFree, nextFree := s.freeList, prevFree := 0 }
    else s.block x := by
  simp only [freeListInsert, Kmalloc.modify]
  by_cases empty : s.freeList = 0
  · simp [empty, Function.update_apply]
  · by_cases front : x = s.freeList
    · subst front
      simp [empty, Function.update_apply]
    · simp [empty, front, Function.update_apply]

/-- The free list operations leave the address chain alone. -/
theorem freeListInsert_phys : ((freeListInsert s b).block x).size = (s.block x).size ∧
    ((freeListInsert s b).block x).nextPhys = (s.block x).nextPhys := by
  grind [freeListInsert_block]

theorem freeListInsert_tag : ((freeListInsert s b).block x).free = (if x = b then 1 else (s.block x).free) ∧
    ((freeListInsert s b).block x).magic = if x = b then kmallocMagicFree else (s.block x).magic := by
  grind [freeListInsert_block]

theorem freeListInsert_vm : (freeListInsert s b).vm = s.vm := by
  simp only [freeListInsert]
  split <;> rfl

theorem freeListInsert_freeList : (freeListInsert s b).freeList = b := rfl

theorem freeListRemove_block : (freeListRemove s b).block x =
    if x = b then { s.block b with nextFree := 0, prevFree := 0 }
    else { s.block x with
      nextFree := if (s.block b).prevFree ≠ 0 ∧ x = (s.block b).prevFree then (s.block b).nextFree
        else (s.block x).nextFree
      prevFree := if (s.block b).nextFree ≠ 0 ∧ x = (s.block b).nextFree then (s.block b).prevFree
        else (s.block x).prevFree } := by
  simp only [freeListRemove]
  generalize first : (if (s.block b).prevFree ≠ 0 then
      s.modify (s.block b).prevFree fun block => { block with nextFree := (s.block b).nextFree }
    else { s with freeList := (s.block b).nextFree }) = t
  have step : ∀ y, t.block y = { s.block y with
      nextFree := if (s.block b).prevFree ≠ 0 ∧ y = (s.block b).prevFree then (s.block b).nextFree
        else (s.block y).nextFree } := by
    intro y
    subst first
    by_cases front : (s.block b).prevFree = 0
    · simp [front]
    · by_cases here : y = (s.block b).prevFree
      · simp [front, here, Kmalloc.modify_block]
      · simp [front, here, Kmalloc.modify_block]
  generalize second : (if (s.block b).nextFree ≠ 0 then
      t.modify (s.block b).nextFree fun block => { block with prevFree := (s.block b).prevFree }
    else t) = u
  have step' : ∀ y, u.block y = { t.block y with
      prevFree := if (s.block b).nextFree ≠ 0 ∧ y = (s.block b).nextFree then (s.block b).prevFree
        else (t.block y).prevFree } := by
    grind [Kmalloc.modify_block]
  rw [Kmalloc.modify_block]
  grind

theorem freeListRemove_phys : ((freeListRemove s b).block x).size = (s.block x).size ∧
    ((freeListRemove s b).block x).nextPhys = (s.block x).nextPhys := by
  grind [freeListRemove_block]

theorem freeListRemove_tag : ((freeListRemove s b).block x).free = (s.block x).free ∧
    ((freeListRemove s b).block x).magic = (s.block x).magic := by
  grind [freeListRemove_block]

theorem freeListRemove_vm : (freeListRemove s b).vm = s.vm := by
  simp only [freeListRemove, Kmalloc.modify]
  split <;> split <;> rfl

theorem freeListRemove_freeList : (freeListRemove s b).freeList =
    if (s.block b).prevFree = 0 then (s.block b).nextFree else s.freeList := by
  simp only [freeListRemove, Kmalloc.modify]
  grind

end Fields

/-- The free list, from its head and in both directions. -/
def FreeLinked (s : Kmalloc) (frees : List Nat) : Prop :=
  Lib.Doubly (fun b => (s.block b).nextFree) (fun b => (s.block b).prevFree) 0 s.freeList frees

section Linked

variable {s t : Kmalloc} {b : Nat} {frees : List Nat}

theorem FreeLinked.congr (linked : FreeLinked s frees) (head : t.freeList = s.freeList)
    (same : ∀ b ∈ frees, (t.block b).nextFree = (s.block b).nextFree ∧ (t.block b).prevFree = (s.block b).prevFree) :
    FreeLinked t frees := by
  obtain ⟨last, backward⟩ := linked.backward
  refine ⟨linked.nodup, linked.proper, head ▸ linked.forward.congr fun b member => (same b member).1, last, ?_⟩
  exact backward.congr fun b member => (same b (List.mem_reverse.mp member)).2

theorem freeListInsert_linked (linked : FreeLinked s frees) (new : b ∉ frees) (proper : b ≠ 0) :
    FreeLinked (freeListInsert s b) (b :: frees) := by
  have front : s.freeList ≠ 0 → s.freeList ∈ frees := linked.forward.start_mem
  have apart : ¬ (s.freeList ≠ 0 ∧ b = s.freeList) := fun clash => new (clash.2 ▸ front clash.1)
  have elsewhere : ∀ other ∈ frees, other ≠ b := fun other member same => new (same ▸ member)
  rw [FreeLinked, freeListInsert_freeList]
  refine linked.push new proper ?_ ?_ ?_ ?_ ?_
  · rw [freeListInsert_block, if_neg apart, if_pos rfl]
  · rw [freeListInsert_block, if_neg apart, if_pos rfl]
  · grind [freeListInsert_block]
  · intro other member
    simp only [freeListInsert_block, if_neg (elsewhere other member)]
    split <;> rfl
  · intro other member inner
    have behind : ¬ (s.freeList ≠ 0 ∧ other = s.freeList) := fun clash => inner clash.2
    simp only [freeListInsert_block, if_neg (elsewhere other member), if_neg behind]

theorem freeListRemove_linked (linked : FreeLinked s frees) (member : b ∈ frees) :
    FreeLinked (freeListRemove s b) (frees.erase b) := by
  refine linked.remove member (freeListRemove_freeList s b) ?_ ?_ ?_ ?_
  · intro front
    have different := (linked.next_prev member front).2.1
    rw [freeListRemove_block, if_neg different]
    grind
  · intro back
    have different := (linked.prev_next member back).2.1
    rw [freeListRemove_block, if_neg different]
    grind
  · intro other inList different notPrev
    rw [freeListRemove_block, if_neg different]
    grind
  · intro other inList different notNext
    rw [freeListRemove_block, if_neg different]
    grind

end Linked

/-- The magic number agrees with the free flag. -/
def KmallocBlock.Tagged (block : KmallocBlock) : Prop :=
  (block.free = 1 ∧ block.magic = kmallocMagicFree) ∨ (block.free = 0 ∧ block.magic = kmallocMagicUsed)

/-- The heap: blocks laid out in pools, the free ones in the free list, and the
payloads of the others handed out. -/
structure Heap (s : Kmalloc) (pools : List Nat) (blocks : Nat → List Nat) (frees live : List Nat) : Prop where
  layout : Layout s.block pools blocks
  linked : FreeLinked s frees
  listed : ∀ b, b ∈ frees ↔ IsBlock pools blocks b ∧ (s.block b).free = 1
  tagged : ∀ b, IsBlock pools blocks b → (s.block b).Tagged
  unique : live.Nodup
  handed : ∀ ptr, ptr ∈ live ↔ ∃ b, IsBlock pools blocks b ∧ (s.block b).free = 0 ∧ ptr = b + kmallocHeader

section Heap

variable {s t : Kmalloc} {pools : List Nat} {blocks : Nat → List Nat} {frees live : List Nat} {b base size : Nat}

section

variable (heap : Heap s pools blocks frees live)
include heap

/-- Everything the heap knows stands in the headers of its blocks. -/
theorem Heap.congr (head : t.freeList = s.freeList)
    (same : ∀ b, IsBlock pools blocks b → t.block b = s.block b) :
    Heap t pools blocks frees live := by
  have isBlock := fun b (free : b ∈ frees) => ((heap.listed b).mp free).1
  refine ⟨heap.layout.congr fun b block => ?_, heap.linked.congr head fun b free => ?_, fun b => ?_, ?_, heap.unique,
    fun ptr => ?_⟩
  · grind
  · grind
  · rw [heap.listed]
    grind
  · grind [tagged]
  · rw [heap.handed]
    grind

/-- A prepared block enters the heap as a free one. -/
theorem Heap.addFree (layout : Layout t.block pools' blocks')
    (isBlock : ∀ b, IsBlock pools' blocks' b ↔ IsBlock pools blocks b ∨ b = new)
    (fresh : ¬ IsBlock pools blocks new) (head : t.freeList = s.freeList)
    (tags : ∀ b, IsBlock pools blocks b → (t.block b).free = (s.block b).free ∧ (t.block b).magic = (s.block b).magic)
    (links : ∀ b, IsBlock pools blocks b →
      (t.block b).nextFree = (s.block b).nextFree ∧ (t.block b).prevFree = (s.block b).prevFree) :
    Heap (freeListInsert t new) pools' blocks' (new :: frees) live := by
  have freeBlock := fun b (free : b ∈ frees) => ((heap.listed b).mp free).1
  have different : ∀ b, IsBlock pools blocks b → b ≠ new := fun b block same => fresh (same ▸ block)
  have proper : new ≠ 0 := by
    have bounds := (layout.bounds ((isBlock new).mpr (.inr rfl))).1
    omega
  refine ⟨layout.congr fun b _ => freeListInsert_phys t new b, ?_, ?_, ?_, heap.unique, ?_⟩
  · refine freeListInsert_linked (heap.linked.congr head ?_) (fun free => fresh (freeBlock new free)) proper
    grind
  · intro b
    rw [List.mem_cons, heap.listed, isBlock, (freeListInsert_tag t new b).1]
    grind
  · intro b block
    obtain ⟨free, magic⟩ := freeListInsert_tag t new b
    rw [KmallocBlock.Tagged, free, magic]
    rcases (isBlock b).mp block with old | rfl
    · rw [if_neg (different b old), if_neg (different b old), (tags b old).1, (tags b old).2]
      exact heap.tagged b old
    simp
  · intro ptr
    rw [heap.handed]
    refine exists_congr fun b => ?_
    rw [isBlock, (freeListInsert_tag t new b).1]
    grind

/-- A fresh pool joins the heap as one free block. -/
theorem Heap.grow (positive : 0 < base) (aligned : kmallocAlign ∣ base)
    (fits : base + kmallocPoolSize < 2 ^ 64)
    (apart : ∀ other ∈ pools, Apart (· + kmallocPoolSize) base other) :
    Heap (freeListInsert (s.modify base fun block =>
        { block with size := kmallocPoolSize - kmallocHeader, nextPhys := 0 }) base)
      (base :: pools) (Function.update blocks base [base]) (base :: frees) live := by
  have notPool : base ∉ pools := by
    intro member
    have clash := apart base member
    simp only [Apart, kmallocPoolSize] at clash
    omega
  have outside : ∀ b, IsBlock pools blocks b → b ≠ base := by
    rintro b ⟨other, member, inPool⟩ rfl
    have inside := (heap.layout.tiled other member).inside inPool
    have extent := blockEnd_gt s.block b
    have clash := apart other member
    simp only [Apart, kmallocPoolSize, kmallocHeader] at clash inside extent
    omega
  have untouched : ∀ b, IsBlock pools blocks b → (s.modify base fun block =>
      { block with size := kmallocPoolSize - kmallocHeader, nextPhys := 0 }).block b = s.block b := by
    intro b block
    rw [Kmalloc.modify_block, if_neg (outside b block)]
  refine heap.addFree (heap.layout.grow positive aligned fits apart ?_ ?_ ?_) ?_ (fun block => outside base block rfl)
    rfl ?_ ?_
  · rw [Kmalloc.modify_block, if_pos rfl]
  · rw [Kmalloc.modify_block, if_pos rfl]
  · grind
  · intro b
    constructor
    · rintro ⟨pool, member, inPool⟩
      by_cases here : pool = base
      · grind
      · rw [Function.update_of_ne here] at inPool
        exact .inl ⟨pool, (List.mem_cons.mp member).resolve_left here, inPool⟩
    · rintro (⟨pool, member, inPool⟩ | rfl)
      · exact ⟨pool, List.mem_cons_of_mem _ member, by grind⟩
      · exact ⟨b, List.mem_cons_self, by simp⟩
  · grind
  grind

/-- A free block that is larger than needed is cut in two free ones. -/
theorem Heap.splitBlock (free : b ∈ frees) (aligned : kmallocAlign ∣ size)
    (enough : size ≤ (s.block b).size) :
    ∃ blocks' frees', Heap (splitBlock s b size) pools blocks' frees' live ∧ b ∈ frees' ∧
      size ≤ ((splitBlock s b size).block b).size ∧ (splitBlock s b size).vm = s.vm := by
  unfold Velox.splitBlock
  dsimp only
  split
  · rename_i room
    have isBlock := ((heap.listed b).mp free).1
    have room' : size + kmallocHeader ≤ (s.block b).size := by
      simp only [kmallocMinSplit, kmallocAlign] at room
      omega
    have beyond : b < b + kmallocHeader + size := by
      simp only [kmallocHeader]
      omega
    -- The new header lies inside the old payload, where no block begins.
    have fresh : ¬ IsBlock pools blocks (b + kmallocHeader + size) := by
      intro block
      have separate := heap.layout.separate isBlock block (by omega)
      have extent := blockEnd_gt s.block (b + kmallocHeader + size)
      simp only [Apart, blockEnd, kmallocHeader] at separate extent room'
      omega
    generalize prepared : ((s.modify (b + kmallocHeader + size) fun block =>
        { block with size := (s.block b).size - size - kmallocHeader, nextPhys := (s.block b).nextPhys }).modify b
      fun block => { block with nextPhys := b + kmallocHeader + size, size := size }) = t
    have front : t.block b = { s.block b with nextPhys := b + kmallocHeader + size, size := size } := by
      rw [← prepared, Kmalloc.modify_block, if_pos rfl, Kmalloc.modify_block, if_neg (by omega)]
    have back : t.block (b + kmallocHeader + size) = { s.block (b + kmallocHeader + size) with
        size := (s.block b).size - size - kmallocHeader, nextPhys := (s.block b).nextPhys } := by
      rw [← prepared, Kmalloc.modify_block, if_neg (by omega), Kmalloc.modify_block, if_pos rfl]
    have rest : ∀ other, IsBlock pools blocks other → other ≠ b → t.block other = s.block other := by
      intro other block different
      have notSplit : other ≠ b + kmallocHeader + size := fun same => fresh (same ▸ block)
      rw [← prepared, Kmalloc.modify_block, if_neg different, Kmalloc.modify_block, if_neg notSplit]
    obtain ⟨base, member, inPool⟩ := id isBlock
    obtain ⟨before, after, parts⟩ := List.append_of_mem inPool
    obtain ⟨blocks', layout, grown⟩ := heap.layout.split member t.block parts aligned room'
      (by grind) (by grind)
      (fun other block different => by grind)
    have kept : ∀ other, IsBlock pools blocks other → (t.block other).free = (s.block other).free ∧
        (t.block other).magic = (s.block other).magic ∧ (t.block other).nextFree = (s.block other).nextFree ∧
        (t.block other).prevFree = (s.block other).prevFree := by
      grind
    refine ⟨blocks', _, heap.addFree layout grown fresh (by rw [← prepared]; rfl)
      (fun other block => ⟨(kept other block).1, (kept other block).2.1⟩) (fun other block => (kept other block).2.2),
      List.mem_cons_of_mem _ free, ?_, ?_⟩
    · rw [(freeListInsert_phys t _ b).1, front]
    · rw [freeListInsert_vm, ← prepared]
      rfl
  grind

/-- A free block is handed out. -/
theorem Heap.handOut (free : b ∈ frees) :
    Heap (handOut s b).2 pools blocks (frees.erase b) ((b + kmallocHeader) :: live) := by
  obtain ⟨isBlock, flag⟩ := (heap.listed b).mp free
  have phys : ∀ other, ((Velox.handOut s b).2.block other).size = (s.block other).size ∧
      ((Velox.handOut s b).2.block other).nextPhys = (s.block other).nextPhys := by
    intro other
    rw [Velox.handOut, Kmalloc.modify_block]
    grind [freeListRemove_phys]
  have mark : ((Velox.handOut s b).2.block b).free = 0 ∧ ((Velox.handOut s b).2.block b).magic = kmallocMagicUsed := by
    rw [Velox.handOut, Kmalloc.modify_block, if_pos rfl]
    exact ⟨rfl, rfl⟩
  have tags : ∀ other, other ≠ b → ((Velox.handOut s b).2.block other).free = (s.block other).free ∧
      ((Velox.handOut s b).2.block other).magic = (s.block other).magic := by
    intro other different
    rw [Velox.handOut, Kmalloc.modify_block, if_neg different]
    exact freeListRemove_tag s b other
  have notLive : b + kmallocHeader ∉ live := by
    intro handed
    obtain ⟨other, -, used, same⟩ := (heap.handed _).mp handed
    grind
  refine ⟨heap.layout.congr fun other _ => phys other, ?_, ?_, ?_, List.nodup_cons.mpr ⟨notLive, heap.unique⟩, ?_⟩
  · refine (freeListRemove_linked heap.linked free).congr rfl fun other member => ?_
    have different : other ≠ b := fun same => heap.linked.nodup.not_mem_erase (same ▸ member)
    rw [Velox.handOut, Kmalloc.modify_block, if_neg different]
    exact ⟨rfl, rfl⟩
  · intro other
    rw [heap.linked.nodup.mem_erase_iff, heap.listed]
    grind
  · intro other block
    by_cases here : other = b
    · subst here
      exact .inr mark
    · rw [KmallocBlock.Tagged, (tags other here).1, (tags other here).2]
      exact heap.tagged other block
  grind [handed]

/-- A handed out block comes back. -/
theorem Heap.give (isBlock : IsBlock pools blocks b) (used : (s.block b).free = 0) :
    Heap (freeListInsert s b) pools blocks (b :: frees) (live.erase (b + kmallocHeader)) := by
  have notFree : b ∉ frees := by
    intro free
    have flag := ((heap.listed b).mp free).2
    omega
  have positive := (heap.layout.bounds isBlock).1
  refine ⟨heap.layout.congr fun other _ => freeListInsert_phys s b other,
    freeListInsert_linked heap.linked notFree (by omega), ?_, ?_, heap.unique.erase _, ?_⟩
  · intro other
    rw [List.mem_cons, heap.listed, (freeListInsert_tag s b other).1]
    grind
  · intro other block
    obtain ⟨free, magic⟩ := freeListInsert_tag s b other
    rw [KmallocBlock.Tagged, free, magic]
    by_cases here : other = b
    · grind
    · rw [if_neg here, if_neg here]
      exact heap.tagged other block
  · intro ptr
    rw [heap.unique.mem_erase_iff, heap.handed]
    constructor
    · rintro ⟨moved, other, block, used, rfl⟩
      have different : other ≠ b := fun same => moved (by rw [same])
      exact ⟨other, block, by rw [(freeListInsert_tag s b other).1, if_neg different, used], rfl⟩
    · rintro ⟨other, block, used, rfl⟩
      rw [(freeListInsert_tag s b other).1] at used
      grind

end

/-- The blocks after one of them took in the next. -/
structure Absorbed (s : Kmalloc) (b next : Nat) (t : Kmalloc) : Prop where
  front : t.block b = { (freeListRemove s next).block b with
    size := ((s.block b).size + (kmallocHeader + (s.block next).size)) % 2 ^ 64
    nextPhys := (s.block next).nextPhys }
  elsewhere : ∀ other, other ≠ b → other ≠ next → t.block other = (freeListRemove s next).block other
  freeList : t.freeList = (freeListRemove s next).freeList
  vm : t.vm = s.vm

theorem absorbPass_found (again : absorbPass b s = .inl t) :
    (s.block b).nextPhys ≠ 0 ∧ (s.block (s.block b).nextPhys).free ≠ 0 := by
  simp only [absorbPass] at again
  grind

theorem absorbPass_absorbed {next : Nat} (nextIs : (s.block b).nextPhys = next) (different : b ≠ next)
    (again : absorbPass b s = .inl t) : Absorbed s b next t := by
  simp only [absorbPass, nextIs] at again
  split at again
  · cases again
    constructor
    · rw [Kmalloc.modify_block, if_neg different, Kmalloc.modify_block, if_pos rfl,
        (freeListRemove_phys s next next).1, (freeListRemove_phys s next next).2, (freeListRemove_phys s next b).1]
    · intro other notB notNext
      rw [Kmalloc.modify_block, if_neg notNext, Kmalloc.modify_block, if_neg notB]
    · rfl
    · exact freeListRemove_vm s next
  · cases again

section Absorbed

variable {next other : Nat}

theorem Absorbed.tags (absorbed : Absorbed s b next t) (notNext : other ≠ next) :
    (t.block other).free = (s.block other).free ∧ (t.block other).magic = (s.block other).magic := by
  by_cases isB : other = b
  · rw [isB, absorbed.front]
    exact freeListRemove_tag s next b
  · rw [absorbed.elsewhere other isB notNext]
    exact freeListRemove_tag s next other

theorem Absorbed.links (absorbed : Absorbed s b next t) (notNext : other ≠ next) :
    (t.block other).nextFree = ((freeListRemove s next).block other).nextFree ∧
      (t.block other).prevFree = ((freeListRemove s next).block other).prevFree := by
  grind [front, elsewhere]

end Absorbed

/-- The block behind a free block is absorbed if it is free too. -/
theorem Heap.absorb (heap : Heap s pools blocks frees live) (member : base ∈ pools)
    (parts : blocks base = before ++ b :: after)
    (again : absorbPass b s = .inl t) :
    ∃ next rest, after = next :: rest ∧ next ∈ frees ∧
      Heap t pools (Function.update blocks base (before ++ b :: rest)) (frees.erase next) live ∧ t.vm = s.vm := by
  obtain ⟨real, flag⟩ := absorbPass_found again
  have onward := (Lib.segment_append.mp (parts ▸ (heap.layout.tiled base member).chain)).2.start_eq
  cases after with
  | nil => exact absurd onward real
  | cons next rest =>
    have nextIs : (s.block b).nextPhys = next := onward
    rw [nextIs] at flag
    have there : IsBlock pools blocks next := ⟨base, member, by simp [parts]⟩
    have tiles := (Lib.segment_append.mp (parts ▸ (heap.layout.tiled base member).tiles)).2.start
    have bounds := (heap.layout.bounds there).2.2.2
    have different : b ≠ next := by
      have extent := blockEnd_gt s.block b
      simp only [kmallocHeader] at extent
      omega
    have free : next ∈ frees := by
      rcases heap.tagged next there with ⟨free, -⟩ | ⟨used, -⟩
      · exact (heap.listed next).mpr ⟨there, free⟩
      omega
    have absorbed := absorbPass_absorbed nextIs different again
    have fits : (s.block b).size + (kmallocHeader + (s.block next).size) < 2 ^ 64 := by
      simp only [blockEnd, kmallocHeader] at tiles bounds ⊢
      omega
    obtain ⟨layout, isBlock⟩ := heap.layout.merge member t.block parts
      (by rw [absorbed.front, Nat.mod_eq_of_lt fits]; exact ⟨rfl, rfl⟩)
      (fun other _ notB notNext => by
        rw [absorbed.elsewhere other notB notNext]; exact freeListRemove_phys s next other)
    refine ⟨next, rest, rfl, free, ⟨layout, ?_, ?_, ?_, heap.unique, ?_⟩, absorbed.vm⟩
    · refine (freeListRemove_linked heap.linked free).congr absorbed.freeList fun other inList => absorbed.links ?_
      exact fun same => heap.linked.nodup.not_mem_erase (same ▸ inList)
    · intro other
      rw [heap.linked.nodup.mem_erase_iff, heap.listed, isBlock]
      constructor
      · rintro ⟨notNext, block, free⟩
        exact ⟨⟨block, notNext⟩, by rw [(absorbed.tags notNext).1, free]⟩
      · rintro ⟨⟨block, notNext⟩, free⟩
        exact ⟨notNext, block, by rw [← (absorbed.tags notNext).1, free]⟩
    · intro other block
      obtain ⟨block, notNext⟩ := (isBlock other).mp block
      rw [KmallocBlock.Tagged, (absorbed.tags notNext).1, (absorbed.tags notNext).2]
      exact heap.tagged other block
    · intro ptr
      rw [heap.handed]
      refine exists_congr fun other => ?_
      rw [isBlock]
      constructor
      · rintro ⟨block, used, same⟩
        have notNext : other ≠ next := by
          grind
        exact ⟨⟨block, notNext⟩, by rw [(absorbed.tags notNext).1, used], same⟩
      · rintro ⟨⟨block, notNext⟩, used, same⟩
        exact ⟨block, by rw [← (absorbed.tags notNext).1, used], same⟩

/-- A list of distinct addresses is shorter than a walk may be. -/
private theorem length_lt_walkFuel {addresses : List Nat} (nodup : addresses.Nodup)
    (proper : ∀ a ∈ addresses, 0 < a ∧ a < 2 ^ 64) : addresses.length < walkFuel := by
  have extended : (0 :: addresses).Nodup :=
    List.nodup_cons.mpr ⟨fun zero => absurd (proper 0 zero).1 (Nat.lt_irrefl 0), nodup⟩
  have inside : 0 :: addresses ⊆ List.range (2 ^ 64) := by
    grind
  have bound := (extended.subperm inside).length_le
  rw [List.length_range, List.length_cons] at bound
  exact bound

section

variable (heap : Heap s pools blocks frees live)
include heap

theorem Heap.walk_bounds : frees.length < walkFuel := by
  refine length_lt_walkFuel heap.linked.nodup fun b free => ?_
  obtain ⟨positive, -, -, fits⟩ := heap.layout.bounds ((heap.listed b).mp free).1
  grind [blockEnd_gt]

/-- The search ends, at a free block that is large enough or at the end of the list, which it
reaches only if no free block is. -/
theorem Heap.search (size : Nat) :
    ∃ found, Lib.loop (fitPass s size) walkFuel s.freeList = some found ∧
      ((found = 0 ∧ ∀ b ∈ frees, (s.block b).size < size) ∨ (found ∈ frees ∧ size ≤ (s.block found).size)) := by
  refine Lib.loop_total
    (fun bound b => ∃ passed rest, frees = passed ++ rest ∧ (∀ b ∈ passed, (s.block b).size < size) ∧
      rest.length = bound ∧ Lib.Segment (fun b => (s.block b).nextFree) b rest 0)
    _ ?_ ?_ ⟨[], frees, rfl, by simp, rfl, heap.linked.forward⟩ heap.walk_bounds
  · rintro bound b next ⟨passed, rest, parts, small, rfl, walk⟩ pass
    simp only [fitPass] at pass
    split at pass
    · cases pass
    · rename_i real
      split at pass
      · cases pass
        cases rest with
        | nil => exact absurd walk real
        | cons first rest =>
          obtain ⟨rfl, onward⟩ := walk
          refine ⟨rest.length, by simp, passed ++ [b], rest, by simp [parts], ?_, rfl, onward⟩
          grind
      · cases pass
  · rintro bound b found ⟨passed, rest, parts, small, -, walk⟩ pass
    simp only [fitPass] at pass
    split at pass
    · rename_i ended
      cases rest with
      | nil =>
        grind
      | cons first rest =>
        have free : first ∈ frees := by simp [parts]
        rw [← walk.1, ended] at free
        exact absurd free heap.linked.proper
    grind [Lib.Segment.start_mem]

/-- One attempt to allocate always ends: it finds no block large enough and changes nothing, or
hands out a block of at least the wanted size. -/
theorem Heap.attempt (aligned : kmallocAlign ∣ size) :
    ∃ ptr t, kmallocAttempt s size = .ok (ptr, t) ∧ t.vm = s.vm ∧
      ((ptr = 0 ∧ t = s ∧ ∀ b ∈ frees, (s.block b).size < size) ∨
      (ptr ≠ 0 ∧ (∃ b ∈ frees, size ≤ (s.block b).size) ∧ ∃ blocks' frees', Heap t pools blocks' frees' (ptr :: live) ∧
        size ≤ (t.block (ptr - kmallocHeader)).size)) := by
  obtain ⟨found, searched, result⟩ := heap.search size
  simp only [kmallocAttempt, searched]
  rcases result with ⟨rfl, small⟩ | ⟨free, enough⟩
  · grind
  · have real : found ≠ 0 := by
      rintro rfl
      exact heap.linked.proper free
    obtain ⟨blocks', frees', cut, free', enough', vm⟩ := heap.splitBlock free aligned enough
    refine ⟨_, _, by rw [if_neg real]; rfl, ?_, .inr ⟨?_, ⟨found, free, enough⟩, blocks', _, cut.handOut free', ?_⟩⟩
    · exact (freeListRemove_vm _ found).trans vm
    · omega
    · have here : found + kmallocHeader - kmallocHeader = found := Nat.add_sub_cancel _ _
      rw [Velox.handOut, here, Kmalloc.modify_block, if_pos rfl, (freeListRemove_phys _ found found).1]
      exact enough'

/-- A block is in use iff its payload is handed out. -/
theorem Heap.used_iff (isBlock : IsBlock pools blocks b) :
    (s.block b).free = 0 ↔ b + kmallocHeader ∈ live := by
  rw [heap.handed]
  grind

theorem Heap.free_iff (isBlock : IsBlock pools blocks b) :
    b ∈ frees ↔ b + kmallocHeader ∉ live := by
  rw [heap.listed, ← heap.used_iff isBlock]
  rcases heap.tagged b isBlock with ⟨free, -⟩ | ⟨used, -⟩
  · simp [isBlock, free]
  · simp [used]

end

/-- In its pool a block is followed by a run of free ones, which ends at one in use or at the end. -/
structure FreeRun (blocks : Nat → List Nat) (live : List Nat) (base b : Nat) (before run rest : List Nat) : Prop where
  parts : blocks base = before ++ b :: (run ++ rest)
  free : ∀ c ∈ run, c + kmallocHeader ∉ live
  stops : ∀ c ∈ rest.head?, c + kmallocHeader ∈ live

/-- The absorbing loop of `kfree` ends when the block has taken in the free run behind it. -/
theorem Heap.absorbAll (heap : Heap s pools blocks frees live) (member : base ∈ pools)
    (parts : blocks base = before ++ b :: after) :
    ∃ t, Lib.loop (absorbPass b) walkFuel s = some t ∧ t.vm = s.vm ∧ ∃ run rest frees',
      FreeRun blocks live base b before run rest ∧
      Heap t pools (Function.update blocks base (before ++ b :: rest)) frees' live := by
  have short : after.length < walkFuel := by
    have bound := length_lt_walkFuel (heap.layout.tiled base member).nodup fun a inPool => by
      obtain ⟨positive, -, -, fits⟩ := heap.layout.bounds ⟨base, member, inPool⟩
      grind [blockEnd_gt]
    grind
  -- Every pass removes the block behind `b` from its pool.
  refine Lib.loop_total (fun bound t => ∃ run rest frees', rest.length = bound ∧ after = run ++ rest ∧
    (∀ c ∈ run, c + kmallocHeader ∉ live) ∧
    Heap t pools (Function.update blocks base (before ++ b :: rest)) frees' live ∧ t.vm = s.vm) _ ?_ ?_
    ⟨[], after, frees, rfl, rfl, by simp, ?_, rfl⟩ short
  · rintro bound current next ⟨run, rest, frees', rfl, split, free, heap', vm⟩ pass
    obtain ⟨absorbed, rest', rfl, listed, heap'', vm'⟩ := heap'.absorb member (Function.update_self _ _ _) pass
    rw [Function.update_idem] at heap''
    refine ⟨rest'.length, by simp, run ++ [absorbed], rest', _, rfl, by simp [split], ?_, heap'', vm'.trans vm⟩
    intro c inside
    rcases List.mem_append.mp inside with earlier | last
    · exact free c earlier
    · rw [List.mem_singleton.mp last]
      exact (heap'.free_iff ((heap'.listed absorbed).mp listed).1).mp listed
  · rintro bound current final ⟨run, rest, frees', -, split, free, heap', vm⟩ pass
    simp only [absorbPass] at pass
    split at pass
    · cases pass
    rename_i ended
    cases pass
    refine ⟨vm, run, rest, frees', ⟨by rw [parts, split], free, ?_⟩, heap'⟩
    intro c first
    obtain ⟨others, rfl⟩ := List.head?_eq_some_iff.mp first
    have chain := (heap'.layout.tiled base member).chain
    rw [Function.update_self] at chain
    have nextIs : (current.block b).nextPhys = c := (Lib.segment_append.mp chain).2.start
    have isBlock : IsBlock pools (Function.update blocks base (before ++ b :: c :: others)) c :=
      ⟨base, member, by simp⟩
    have positive := (heap'.layout.bounds isBlock).1
    rw [nextIs] at ended
    refine (heap'.used_iff isBlock).mp ?_
    omega
  grind [Function.update_eq_self]

/-- Releasing a live pointer always ends, and merges its block with the free run behind it. -/
theorem Heap.kfree (heap : Heap s pools blocks frees live) {ptr : Nat} (handed : ptr ∈ live) :
    ∃ t, kfree s ptr = .ok t ∧ t.vm = s.vm ∧ ∃ base b before run rest frees', base ∈ pools ∧ ptr = b + kmallocHeader ∧
      FreeRun blocks (live.erase ptr) base b before run rest ∧
      Heap t pools (Function.update blocks base (before ++ b :: rest)) frees' (live.erase ptr) := by
  obtain ⟨b, isBlock, used, rfl⟩ := (heap.handed ptr).mp handed
  have magic : (s.block b).magic = kmallocMagicUsed := by
    rcases heap.tagged b isBlock with ⟨free, -⟩ | ⟨-, magic⟩
    · omega
    · exact magic
  have given := heap.give isBlock used
  obtain ⟨base, member, inPool⟩ := isBlock
  obtain ⟨before, after, parts⟩ := List.append_of_mem inPool
  obtain ⟨t, looped, vm, run, rest, frees', split, heap'⟩ := given.absorbAll member parts
  refine ⟨t, ?_, vm.trans (freeListInsert_vm s b), base, b, before, run, rest, frees', member, rfl, split, heap'⟩
  have real : b + kmallocHeader ≠ 0 := by simp [kmallocHeader]
  have valid : ¬ kmallocMagicUsed = kmallocMagicFree := by decide
  simp only [Velox.kfree, Nat.add_sub_cancel, magic, used, looped, real, valid, ↓reduceIte, ne_eq, not_true_eq_false]

end Heap

theorem alignUpSz_eq (v : Nat) : alignUpSz v kmallocAlign = (v + 15) % 2 ^ 64 / 16 * 16 := by
  have block := Lib.and_block ((v + 15) % 2 ^ 64) (show 4 ≤ 64 by decide)
  simp only [Nat.mod_mod] at block
  exact block

/-- The heap over its pools, which are live allocations of `vmalloc` beside the
`mapped` ones of other clients. -/
def HeapSound (boot : Boot) (s : Kmalloc) (live : List Nat) (mapped : List (Nat × Nat)) : Prop :=
  ∃ pools blocks frees, Heap s pools blocks frees live ∧
    VmallocClient.Sound boot ⟨s.vm, pools.map (fun base => (base, kmallocPoolSize)) ++ mapped⟩

section Calls

variable {boot : Boot} {s t : Kmalloc} {live : List Nat} {mapped : List (Nat × Nat)} {size ptr : Nat}

/-- A new pool lies apart from the others. -/
theorem VmallocInv.pool_placed {pools : List Nat}
    (inv : VmallocInv vm ((base, kmallocPoolSize) :: (pools.map (fun base => (base, kmallocPoolSize)) ++ mapped))) :
    0 < base ∧ kmallocAlign ∣ base ∧ base + kmallocPoolSize < 2 ^ 64 ∧
      ∀ other ∈ pools, Apart (· + kmallocPoolSize) base other := by
  have whole : alignUp kmallocPoolSize pmmPageSize = kmallocPoolSize := by decide
  obtain ⟨aligned, low, high⟩ := inv.placed _ List.mem_cons_self
  have positive := inv.region.positive
  have fits := inv.region.fits
  dsimp only at aligned low high
  refine ⟨by omega, Nat.dvd_trans (by decide) aligned, by omega, fun other member => ?_⟩
  have disjoint := (List.pairwise_cons.mp inv.disjoint).1 (allocation (other, kmallocPoolSize)) (by
    grind)
  by_contra overlap
  simp only [Apart, not_or, Nat.not_le] at overlap
  refine disjoint (max base other) ?_
  simp only [allocation, whole, Lib.Range.Contains]
  omega

/-- A heap with one more pool, which is a single free block at the head of the free list. -/
structure Expanded (boot : Boot) (s : Kmalloc) (pools : List Nat) (blocks : Nat → List Nat) (frees live : List Nat)
    (mapped : List (Nat × Nat)) (pool : Nat) (vm : Vmalloc) (t : Kmalloc) : Prop where
  real : pool ≠ 0
  backing : t.vm = vm
  heap : Heap t (pool :: pools) (Function.update blocks pool [pool]) (pool :: frees) live
  below : VmallocClient.Sound boot ⟨t.vm, (pool :: pools).map (fun base => (base, kmallocPoolSize)) ++ mapped⟩
  size : (t.block pool).size = kmallocPoolSize - kmallocHeader
  initialized : t.initialized = s.initialized

/-- What `expand_pool` makes of each answer of `vmalloc`. -/
theorem expandPool_cases {blocks : Nat → List Nat} (room : boot.VmallocRoom)
    (heap : Heap s pools blocks frees live)
    (below : VmallocClient.Sound boot ⟨s.vm, pools.map (fun base => (base, kmallocPoolSize)) ++ mapped⟩) :
    (∃ cause, vmalloc boot s.vm kmallocPoolSize vmallocDefaultFlags = .error cause ∧
      expandPool boot s = .error (.fault cause)) ∨
    (∃ vm, vmalloc boot s.vm kmallocPoolSize vmallocDefaultFlags = .ok (0, vm) ∧
      expandPool boot s = .ok (false, { s with vm := vm }) ∧
      VmallocClient.Sound boot ⟨vm, pools.map (fun base => (base, kmallocPoolSize)) ++ mapped⟩) ∨
    ∃ pool vm t, vmalloc boot s.vm kmallocPoolSize vmallocDefaultFlags = .ok (pool, vm) ∧
      expandPool boot s = .ok (true, t) ∧ Expanded boot s pools blocks frees live mapped pool vm t := by
  cases called : vmalloc boot s.vm kmallocPoolSize vmallocDefaultFlags with
  | error cause =>
    simp [expandPool, called, Lib.attempt, bind, Except.bind]
  | ok result =>
    obtain ⟨pool, vm⟩ := result
    right
    have called' : Lib.attempt (vmalloc boot s.vm kmallocPoolSize vmallocDefaultFlags) = .ok (pool, vm) := by
      rw [called, Lib.attempt]
    rcases vmalloc_keeps room below called with ⟨rfl, kept⟩ | ⟨found, inv⟩
    · refine .inl ⟨vm, rfl, ?_, kept⟩
      refine (Lib.bind_of_ok called').trans ?_
      rfl
    · obtain ⟨positive, aligned, fits, apart⟩ := inv.pool_placed
      have unchanged : Heap { s with vm := vm } pools blocks frees live := heap.congr rfl fun _ _ => rfl
      refine .inr ⟨pool, vm, _, rfl, ?_, found, freeListInsert_vm _ _, unchanged.grow positive aligned fits apart,
        .inr ?_, ?_, ?_⟩
      · refine (Lib.bind_of_ok called').trans ?_
        dsimp only
        rw [if_neg found]
        rfl
      · rw [freeListInsert_vm]
        exact inv
      · rw [(freeListInsert_phys _ _ _).1, Kmalloc.modify_block, if_pos rfl]
      · simp only [freeListInsert]
        split <;> rfl

theorem expandPool_sound (room : boot.VmallocRoom) (sound : HeapSound boot s live mapped) :
    Lib.Yields (expandPool boot s) fun answer => HeapSound boot answer.2 live mapped := by
  obtain ⟨pools, blocks, frees, heap, below⟩ := sound
  rcases expandPool_cases room heap below with
    ⟨cause, -, done⟩ | ⟨vm, -, done, kept⟩ | ⟨pool, vm, t, -, done, expanded⟩
  · rw [done]
    trivial
  · rw [done]
    exact ⟨pools, blocks, frees, heap.congr rfl fun _ _ => rfl, kept⟩
  · rw [done]
    exact ⟨pool :: pools, _, _, expanded.heap, expanded.below⟩

theorem kmallocInitLocked_sound (room : boot.VmallocRoom) (sound : HeapSound boot s live mapped) :
    Lib.Yields (kmallocInitLocked boot s) fun answer => HeapSound boot answer.2 live mapped := by
  unfold kmallocInitLocked
  split
  · exact sound
  · refine (expandPool_sound room sound).bind ?_
    rintro ⟨ok, u⟩ ⟨pools, blocks, frees, heap, below⟩
    cases ok with
    | false => exact ⟨pools, blocks, frees, heap, below⟩
    | true => exact ⟨pools, blocks, frees, heap.congr rfl fun _ _ => rfl, below⟩

/-- What a call of `kmalloc` that returns leaves behind. -/
def KmallocAnswer (boot : Boot) (live : List Nat) (mapped : List (Nat × Nat)) (size ptr : Nat) (t : Kmalloc) : Prop :=
  (ptr = 0 ∧ HeapSound boot t live mapped) ∨
    (ptr ≠ 0 ∧ HeapSound boot t (ptr :: live) mapped ∧ size ≤ (t.block (ptr - kmallocHeader)).size)

theorem kmallocAttempt_sound (sound : HeapSound boot s live mapped) (aligned : kmallocAlign ∣ size) :
    Lib.Yields (kmallocAttempt s size) fun answer => KmallocAnswer boot live mapped size answer.1 answer.2 := by
  obtain ⟨pools, blocks, frees, heap, below⟩ := sound
  obtain ⟨ptr, t, done, vm, result⟩ := heap.attempt aligned
  rw [done]
  rcases result with ⟨rfl, rfl, -⟩ | ⟨found, -, blocks', frees', heap', enough⟩
  · exact .inl ⟨rfl, pools, blocks, frees, heap, below⟩
  · refine .inr ⟨found, ⟨pools, blocks', frees', heap', ?_⟩, enough⟩
    rw [vm]
    exact below

/-- `kmalloc` ends, whatever it is asked for. -/
theorem kmalloc_sound (room : boot.VmallocRoom) (sound : HeapSound boot s live mapped) (size : Nat) :
    Lib.Yields (kmalloc boot s size) fun answer =>
      KmallocAnswer boot live mapped (alignUpSz size kmallocAlign) answer.1 answer.2 := by
  have aligned : kmallocAlign ∣ alignUpSz size kmallocAlign := by
    rw [alignUpSz_eq]
    exact Nat.dvd_mul_left _ _
  unfold kmalloc
  split
  · exact .inl ⟨rfl, sound⟩
  refine (kmallocInitLocked_sound room sound).bind ?_
  rintro ⟨ok, u⟩ sound
  cases ok with
  | false => exact .inl ⟨rfl, sound⟩
  | true =>
    refine (kmallocAttempt_sound sound aligned).bind ?_
    rintro ⟨found, v⟩ answered
    dsimp only at answered ⊢
    split
    · exact answered
    rename_i missing
    refine (expandPool_sound room (answered.resolve_right fun taken => missing taken.1).2).bind ?_
    rintro ⟨ok, w⟩ sound
    cases ok with
    | false => exact .inl ⟨rfl, sound⟩
    | true => exact kmallocAttempt_sound sound aligned

theorem kfree_sound (sound : HeapSound boot s live mapped) (handed : ptr = 0 ∨ ptr ∈ live) :
    Lib.Yields (kfree s ptr) fun t => HeapSound boot t (live.erase ptr) mapped := by
  obtain ⟨pools, blocks, frees, heap, below⟩ := sound
  have proper : 0 ∉ live := by
    intro zero
    obtain ⟨b, -, -, same⟩ := (heap.handed 0).mp zero
    simp [kmallocHeader] at same
  rcases handed with rfl | handed
  · rw [List.erase_of_not_mem proper]
    exact ⟨pools, blocks, frees, heap, below⟩
  · obtain ⟨t, done, vm, base, b, before, run, rest, frees', -, -, -, heap'⟩ := heap.kfree handed
    rw [done]
    refine ⟨pools, _, frees', heap', ?_⟩
    rw [vm]
    exact below

end Calls

/-- The heap, the pointers its clients hold, and the live allocations that others
got from `vmalloc` directly. -/
structure KmallocClient where
  heap : Kmalloc
  live : List Nat
  mapped : List (Nat × Nat)

inductive KmallocCall where
  | kmalloc (size : Nat)
  | kfree (ptr : Nat)
  | store (ptr : Nat) (contents : Nat → KmallocBlock)
  | vmalloc (size flags : Nat)
  | vfree (addr size : Nat)

/-- Writing into a payload changes what would be read as a header anywhere it
overlaps the payload. -/
def storePayload (s : Kmalloc) (ptr : Nat) (contents : Nat → KmallocBlock) : Kmalloc :=
  { s with block := fun a =>
      if ptr < a + kmallocHeader ∧ a < ptr + (s.block (ptr - kmallocHeader)).size then contents a else s.block a }

/-- The calls of clients that release and write only what they hold. -/
def kmallocStep (boot : Boot) (s : KmallocClient) : KmallocCall → Except (Lib.Halt Panic) (Nat × KmallocClient)
  | .kmalloc size => do
    let (ptr, heap) ← kmalloc boot s.heap size
    return (ptr, { s with heap := heap, live := if ptr = 0 then s.live else ptr :: s.live })
  | .kfree ptr =>
    if ptr = 0 ∨ ptr ∈ s.live then do
      let heap ← kfree s.heap ptr
      return (0, { s with heap := heap, live := s.live.erase ptr })
    else .error .misuse
  | .store ptr contents =>
    if ptr ∈ s.live then .ok (0, { s with heap := storePayload s.heap ptr contents }) else .error .misuse
  | .vmalloc size flags => do
    let (addr, vm) ← Lib.attempt (vmalloc boot s.heap.vm size flags)
    return (addr, { s with
      heap := { s.heap with vm := vm }
      mapped := if addr = 0 then s.mapped else (addr, size) :: s.mapped })
  | .vfree addr size =>
    if (addr, size) ∈ s.mapped then do
      let vm ← Lib.attempt (vfree s.heap.vm addr size)
      return (0, { s with heap := { s.heap with vm := vm }, mapped := s.mapped.erase (addr, size) })
    else .error .misuse

section Steps

variable {heap : Kmalloc} {boot : Boot} {s t : KmallocClient} {pools : List Nat} {blocks : Nat → List Nat}
  {frees : List Nat}

section

variable (sound : Heap heap pools blocks frees live) (handed : ptr ∈ live)
include sound handed

/-- A payload and its block. -/
theorem Heap.payload :
    ∃ b, IsBlock pools blocks b ∧ (heap.block b).free = 0 ∧ ptr = b + kmallocHeader ∧ ptr - kmallocHeader = b := by
  obtain ⟨b, isBlock, used, rfl⟩ := (sound.handed ptr).mp handed
  grind

/-- No header overlaps a payload that is handed out. -/
theorem Heap.payload_apart (isBlock : IsBlock pools blocks b) :
    b + kmallocHeader ≤ ptr ∨ ptr + (heap.block (ptr - kmallocHeader)).size ≤ b := by
  obtain ⟨own, isBlock', -, rfl, here⟩ := sound.payload handed
  rw [here]
  by_cases same : b = own
  · omega
  · have separate := sound.layout.separate isBlock isBlock' same
    have extent := blockEnd_gt heap.block b
    simp only [Apart, blockEnd] at separate extent
    omega

theorem Heap.store (contents : Nat → KmallocBlock) :
    Heap (storePayload heap ptr contents) pools blocks frees live := by
  refine sound.congr rfl fun b isBlock => if_neg ?_
  have apart := sound.payload_apart handed isBlock
  omega

theorem Heap.payload_placed : kmallocAlign ∣ ptr ∧ ∃ base ∈ pools, base + kmallocHeader ≤ ptr ∧
      ptr + (heap.block (ptr - kmallocHeader)).size ≤ base + kmallocPoolSize := by
  obtain ⟨b, isBlock, -, rfl, here⟩ := sound.payload handed
  have aligned := (sound.layout.bounds isBlock).2.1
  obtain ⟨base, member, inPool⟩ := isBlock
  have inside := (sound.layout.tiled base member).inside inPool
  rw [here]
  refine ⟨Nat.dvd_add aligned (by decide), base, member, by omega, ?_⟩
  simp only [blockEnd] at inside
  omega

/-- Payloads that are handed out do not overlap. -/
theorem Heap.payloads_apart {other : Nat} (handed' : other ∈ live) (different : other ≠ ptr) :
    other + (heap.block (other - kmallocHeader)).size ≤ ptr ∨
      ptr + (heap.block (ptr - kmallocHeader)).size ≤ other := by
  obtain ⟨b, isBlock, -, rfl, here⟩ := sound.payload handed
  obtain ⟨b', isBlock', -, rfl, here'⟩ := sound.payload handed'
  have separate := sound.layout.separate isBlock' isBlock fun same => different (by rw [same])
  rw [here, here']
  simp only [Apart, blockEnd] at separate
  omega

end

def KmallocClient.Sound (boot : Boot) (s : KmallocClient) : Prop := HeapSound boot s.heap s.live s.mapped

/-- A call that breaks no rule ends and keeps the heap sound. -/
theorem kmallocStep_sound (room : boot.VmallocRoom) (sound : s.Sound boot) (call : KmallocCall) :
    kmallocStep boot s call = .error .misuse ∨
      Lib.Yields (kmallocStep boot s call) fun answer => answer.2.Sound boot := by
  cases call with
  | kmalloc size =>
    refine .inr ((kmalloc_sound room sound size).bind ?_)
    rintro ⟨ptr, heap⟩ (⟨rfl, kept⟩ | ⟨found, kept, -⟩)
    · exact kept
    · simp only [KmallocClient.Sound, Lib.Yields, pure, Except.pure, if_neg found]
      exact kept
  | kfree ptr =>
    simp only [kmallocStep]
    split
    · rename_i handed
      refine .inr ((kfree_sound sound handed).bind ?_)
      intro heap kept
      exact kept
    · exact .inl rfl
  | store ptr contents =>
    simp only [kmallocStep]
    split
    · rename_i handed
      obtain ⟨pools, blocks, frees, heap, below⟩ := sound
      exact .inr ⟨pools, blocks, frees, heap.store handed contents, below⟩
    · exact .inl rfl
  | vmalloc size flags =>
    obtain ⟨pools, blocks, frees, heap, below⟩ := sound
    refine .inr (Lib.Yields.bind (Lib.Yields.attempt fun answer done => vmalloc_keeps room below done) ?_)
    rintro ⟨addr, vm⟩ (⟨rfl, kept⟩ | ⟨found, inv⟩)
    · exact ⟨pools, blocks, frees, heap.congr rfl fun _ _ => rfl, kept⟩
    · simp only [KmallocClient.Sound, Lib.Yields, pure, Except.pure, if_neg found]
      exact ⟨pools, blocks, frees, heap.congr rfl fun _ _ => rfl, .inr (inv.perm List.perm_middle.symm)⟩
  | vfree addr size =>
    simp only [kmallocStep]
    split
    · rename_i listed
      obtain ⟨pools, blocks, frees, heap, below⟩ := sound
      have inv : VmallocInv s.heap.vm
          ((addr, size) :: (pools.map (fun base => (base, kmallocPoolSize)) ++ s.mapped.erase (addr, size))) := by
        rcases below with ⟨-, -, -, -, none', -⟩ | inv
        · simp [(List.append_eq_nil_iff.mp none').2] at listed
        · exact inv.perm (((List.perm_cons_erase listed).append_left _).trans List.perm_middle)
      refine .inr (Lib.Yields.bind (Lib.Yields.attempt fun vm done => vfree_keeps inv done) ?_)
      intro vm kept
      exact ⟨pools, blocks, frees, heap.congr rfl fun _ _ => rfl, .inr kept⟩
    · exact .inl rfl

end Steps

/-- The payload size of the block behind a pointer. -/
def Kmalloc.payloadSize (s : Kmalloc) (ptr : Nat) : Nat := (s.block (ptr - kmallocHeader)).size

theorem kmallocStep_next {call : KmallocCall} (room : boot.VmallocRoom) (sound : s.Sound boot)
    (taken : kmallocStep boot s call = .ok (answer, t)) : t.Sound boot := by
  grind [kmallocStep_sound, Lib.Yields.ok]

theorem kmallocSteps_sound {paging : Paging} {block : Nat → KmallocBlock}
    (reached : Reached boot paging) (room : boot.VmallocRoom)
    (run : Lib.Steps (kmallocStep boot) ⟨⟨⟨paging, [], 0, 0, false⟩, block, 0, false⟩, [], []⟩ trace t) :
    t.Sound boot := by
  refine Lib.Steps.invariant (KmallocClient.Sound boot) (kmallocStep_next room) ?_ run
  refine ⟨[], fun _ => [], [], ⟨⟨by simp, .nil, by simp⟩, .empty _ _ _, ?_, ?_, .nil, ?_⟩,
    .inl ⟨rfl, rfl, rfl, rfl, rfl, reached.space⟩⟩
  · simp [IsBlock]
  · simp [IsBlock]
  · simp [IsBlock]

end Velox
