import Mathlib.Data.List.Pairwise
import Velox.Mm.Kmalloc

namespace Velox

variable {other size next : Nat} {inPool : List Nat}

/-- Two extents that begin where they are named and end at `finish` do not overlap. -/
def Apart (finish : Nat → Nat) (first second : Nat) : Prop := finish first ≤ second ∨ finish second ≤ first

instance (finish : Nat → Nat) : Std.Symm (Apart finish) := ⟨fun _ _ => Or.symm⟩

/-- The first address behind a block. -/
def blockEnd (block : Nat → KmallocBlock) (b : Nat) : Nat := b + kmallocHeader + (block b).size

/-- The address chain from the start of a pool passes `blocks`, which follow each
other without gaps up to the end of the pool. -/
structure Tiled (block : Nat → KmallocBlock) (base : Nat) (blocks : List Nat) : Prop where
  chain : Lib.Segment (fun b => (block b).nextPhys) base blocks 0
  tiles : Lib.Segment (blockEnd block) base blocks (base + kmallocPoolSize)
  sizes : ∀ b ∈ blocks, kmallocAlign ∣ (block b).size

structure Layout (block : Nat → KmallocBlock) (pools : List Nat) (blocks : Nat → List Nat) : Prop where
  placed : ∀ base ∈ pools, 0 < base ∧ kmallocAlign ∣ base ∧ base + kmallocPoolSize < 2 ^ 64
  apart : pools.Pairwise (Apart (· + kmallocPoolSize))
  tiled : ∀ base ∈ pools, Tiled block base (blocks base)

/-- Some pool holds a block at this address. -/
def IsBlock (pools : List Nat) (blocks : Nat → List Nat) (b : Nat) : Prop := ∃ base ∈ pools, b ∈ blocks base

variable {block block' : Nat → KmallocBlock} {base b : Nat} {pools : List Nat} {blocks : Nat → List Nat}

theorem blockEnd_gt (block : Nat → KmallocBlock) (b : Nat) : b + kmallocHeader ≤ blockEnd block b :=
  Nat.le_add_right _ _

section Tiled

variable {inPool before after : List Nat}

section

variable (tiled : Tiled block base inPool)
include tiled

theorem Tiled.congr
    (same : ∀ b ∈ inPool, (block' b).size = (block b).size ∧ (block' b).nextPhys = (block b).nextPhys) :
    Tiled block' base inPool where
  chain := tiled.chain.congr fun b member => (same b member).2
  tiles := tiled.tiles.congr fun b member => by rw [blockEnd, (same b member).1, blockEnd]
  sizes := fun b member => (same b member).1 ▸ tiled.sizes b member

theorem Tiled.inside (member : b ∈ inPool) :
    base ≤ b ∧ blockEnd block b ≤ base + kmallocPoolSize := by
  have steps := tiled.tiles.ascending fun b _ => by have := blockEnd_gt block b; omega
  exact steps.2.2 b member

theorem Tiled.ordered :
    inPool.Pairwise fun lower upper => blockEnd block lower ≤ upper := by
  have steps := tiled.tiles.ascending fun b _ => by have := blockEnd_gt block b; omega
  exact steps.2.1

theorem Tiled.nodup : inPool.Nodup := by
  refine tiled.ordered.imp ?_
  intro lower upper above same
  have := blockEnd_gt block lower
  simp only [kmallocHeader] at this
  omega

theorem Tiled.aligned (start : kmallocAlign ∣ base) :
    ∀ b ∈ inPool, kmallocAlign ∣ b := by
  refine tiled.tiles.forall_mem _ start fun b member aligned => ?_
  have size := tiled.sizes b member
  simp only [blockEnd, kmallocHeader, kmallocAlign] at *
  omega

/-- Behind a block comes the next one of the chain, or the end of the pool. -/
theorem Tiled.next_or_end (positive : 0 < base) (member : b ∈ inPool) :
    blockEnd block b = if (block b).nextPhys = 0 then base + kmallocPoolSize else (block b).nextPhys := by
  obtain ⟨before, after, rfl⟩ := List.append_of_mem member
  have next := (Lib.segment_append.mp tiled.chain).2.start_eq
  have ending := (Lib.segment_append.mp tiled.tiles).2.start_eq
  cases after with
  | nil =>
    grind
  | cons follower rest =>
    have inside := tiled.inside (show follower ∈ before ++ b :: follower :: rest by simp)
    grind

end

/-- A single block that fills its pool. -/
theorem Tiled.single (size : (block base).size = kmallocPoolSize - kmallocHeader)
    (next : (block base).nextPhys = 0) : Tiled block base [base] where
  chain := ⟨rfl, next⟩
  tiles := by
    have total : kmallocHeader + (kmallocPoolSize - kmallocHeader) = kmallocPoolSize := by decide
    exact ⟨rfl, by rw [Lib.Segment, blockEnd, size, Nat.add_assoc, total]⟩
  sizes := by
    intro b member
    cases List.mem_singleton.mp member
    rw [size]
    decide

/-- A block cut in two. -/
theorem Tiled.split (tiled : Tiled block base (before ++ b :: after)) (aligned : kmallocAlign ∣ size)
    (room : size + kmallocHeader ≤ (block b).size)
    (front : (block' b).size = size ∧ (block' b).nextPhys = b + kmallocHeader + size)
    (back : (block' (b + kmallocHeader + size)).size = (block b).size - size - kmallocHeader ∧
      (block' (b + kmallocHeader + size)).nextPhys = (block b).nextPhys)
    (same : ∀ other ∈ before ++ after, (block' other).size = (block other).size ∧
      (block' other).nextPhys = (block other).nextPhys) :
    Tiled block' base (before ++ b :: (b + kmallocHeader + size) :: after) := by
  obtain ⟨chainBefore, chainAfter⟩ := Lib.segment_append.mp tiled.chain
  obtain ⟨tilesBefore, tilesAfter⟩ := Lib.segment_append.mp tiled.tiles
  have early := fun other (member : other ∈ before) => same other (List.mem_append_left _ member)
  have late := fun other (member : other ∈ after) => same other (List.mem_append_right _ member)
  refine ⟨Lib.segment_append.mpr ⟨?_, ?_, ?_⟩, Lib.segment_append.mpr ⟨?_, ?_, ?_⟩, ?_⟩
  · exact chainBefore.congr fun other member => (early other member).2
  · exact front.2
  · dsimp only
    rw [back.2]
    exact chainAfter.congr fun other member => (late other member).2
  · exact tilesBefore.congr fun other member => by rw [blockEnd, (early other member).1, blockEnd]
  · rw [blockEnd, front.1]
  · have ending : blockEnd block' (b + kmallocHeader + size) = blockEnd block b := by
      rw [blockEnd, back.1, blockEnd]
      omega
    rw [ending]
    exact tilesAfter.congr fun other member => by rw [blockEnd, (late other member).1, blockEnd]
  · intro other member
    have whole := tiled.sizes b (by simp)
    simp only [List.mem_append, List.mem_cons] at member
    rcases member with earlier | rfl | rfl | later
    · rw [(early other earlier).1]
      exact tiled.sizes other (by simp [earlier])
    · grind
    · simp only [kmallocAlign, kmallocHeader] at *
      omega
    · rw [(late other later).1]
      exact tiled.sizes other (by simp [later])

/-- A block and the one behind it made one. -/
theorem Tiled.merge (tiled : Tiled block base (before ++ b :: next :: after))
    (joined : (block' b).size = (block b).size + (kmallocHeader + (block next).size) ∧
      (block' b).nextPhys = (block next).nextPhys)
    (same : ∀ other ∈ before ++ after, (block' other).size = (block other).size ∧
      (block' other).nextPhys = (block other).nextPhys) :
    Tiled block' base (before ++ b :: after) := by
  obtain ⟨chainBefore, -, chainAfter⟩ := Lib.segment_append.mp tiled.chain
  obtain ⟨tilesBefore, adjacent, tilesAfter⟩ := Lib.segment_append.mp tiled.tiles
  have early := fun other (member : other ∈ before) => same other (List.mem_append_left _ member)
  have late := fun other (member : other ∈ after) => same other (List.mem_append_right _ member)
  refine ⟨Lib.segment_append.mpr ⟨?_, ?_⟩, Lib.segment_append.mpr ⟨?_, ?_⟩, ?_⟩
  · exact chainBefore.congr fun other member => (early other member).2
  · rw [joined.2]
    exact chainAfter.congr fun other member => (late other member).2
  · exact tilesBefore.congr fun other member => by rw [blockEnd, (early other member).1, blockEnd]
  · have ending : blockEnd block' b = blockEnd block next := by
      simp only [blockEnd, joined.1] at adjacent ⊢
      omega
    rw [ending]
    exact tilesAfter.congr fun other member => by rw [blockEnd, (late other member).1, blockEnd]
  · intro other member
    have front := tiled.sizes b (by simp)
    have back := tiled.sizes next (by simp)
    simp only [List.mem_append, List.mem_cons] at member
    rcases member with earlier | rfl | later
    · rw [(early other earlier).1]
      exact tiled.sizes other (by simp [earlier])
    · simp only [kmallocAlign, kmallocHeader] at *
      omega
    · rw [(late other later).1]
      exact tiled.sizes other (by simp [later])

end Tiled

section

variable (layout : Layout block pools blocks)
include layout

theorem Layout.congr (same : ∀ b, IsBlock pools blocks b →
      (block' b).size = (block b).size ∧ (block' b).nextPhys = (block b).nextPhys) :
    Layout block' pools blocks where
  placed := layout.placed
  apart := layout.apart
  tiled := fun base member => (layout.tiled base member).congr fun b inPool => same b ⟨base, member, inPool⟩

/-- Where a block lies. -/
theorem Layout.bounds (isBlock : IsBlock pools blocks b) :
    0 < b ∧ kmallocAlign ∣ b ∧ kmallocAlign ∣ (block b).size ∧ blockEnd block b < 2 ^ 64 := by
  obtain ⟨base, member, inPool⟩ := isBlock
  obtain ⟨positive, aligned, fits⟩ := layout.placed base member
  have tiled := layout.tiled base member
  have inside := tiled.inside inPool
  grind [Tiled.aligned, Tiled.sizes]

/-- Different blocks do not overlap. -/
theorem Layout.separate (isBlock : IsBlock pools blocks b) (isBlock' : IsBlock pools blocks other)
    (different : b ≠ other) : Apart (blockEnd block) b other := by
  obtain ⟨base, member, inPool⟩ := isBlock
  obtain ⟨base', member', inPool'⟩ := isBlock'
  by_cases same : base = base'
  · subst same
    have ordered := (layout.tiled base member).ordered.imp (S := Apart (blockEnd block)) fun above => .inl above
    exact ordered.forall inPool inPool' different
  · have inside := (layout.tiled base member).inside inPool
    have inside' := (layout.tiled base' member').inside inPool'
    have apart := layout.apart.forall member member' same
    simp only [Apart] at apart ⊢
    omega

theorem Layout.pool_unique (member : base ∈ pools) (member' : other ∈ pools)
    (inPool : b ∈ blocks base) (inPool' : b ∈ blocks other) : base = other := by
  by_contra different
  have inside := (layout.tiled base member).inside inPool
  have inside' := (layout.tiled other member').inside inPool'
  have apart := layout.apart.forall member member' different
  have extent := blockEnd_gt block b
  simp only [Apart, kmallocHeader] at apart extent
  omega

/-- A pool that is one free block. -/
theorem Layout.grow (positive : 0 < base) (aligned : kmallocAlign ∣ base)
    (fits : base + kmallocPoolSize < 2 ^ 64)
    (apart : ∀ other ∈ pools, Apart (· + kmallocPoolSize) base other)
    (size : (block' base).size = kmallocPoolSize - kmallocHeader)
    (next : (block' base).nextPhys = 0) (same : ∀ b, IsBlock pools blocks b →
      (block' b).size = (block b).size ∧ (block' b).nextPhys = (block b).nextPhys) :
    Layout block' (base :: pools) (Function.update blocks base [base]) := by
  refine ⟨List.forall_mem_cons.mpr ⟨⟨positive, aligned, fits⟩, layout.placed⟩,
    List.pairwise_cons.mpr ⟨apart, layout.apart⟩, List.forall_mem_cons.mpr ⟨?_, ?_⟩⟩
  · rw [Function.update_self]
    exact .single size next
  · intro other member
    have different : other ≠ base := by
      have clash := apart other member
      simp only [Apart, kmallocPoolSize] at clash
      omega
    rw [Function.update_of_ne different]
    exact (layout.congr same).tiled other member

/-- One pool laid out anew. -/
theorem Layout.replace (member : base ∈ pools) (tiled : Tiled block' base inPool)
    (same : ∀ other ∈ pools, other ≠ base → ∀ b ∈ blocks other,
      (block' b).size = (block b).size ∧ (block' b).nextPhys = (block b).nextPhys) :
    Layout block' pools (Function.update blocks base inPool) := by
  refine ⟨layout.placed, layout.apart, fun other member' => ?_⟩
  by_cases here : other = base
  · grind
  · rw [Function.update_of_ne here]
    exact (layout.tiled other member').congr (same other member' here)

end

theorem isBlock_iff (member : base ∈ pools) :
    IsBlock pools blocks b ↔ b ∈ blocks base ∨ ∃ other ∈ pools, other ≠ base ∧ b ∈ blocks other := by
  constructor
  · rintro ⟨other, member', inside⟩
    grind
  · rintro (inside | ⟨other, member', -, inside⟩)
    · exact ⟨base, member, inside⟩
    · exact ⟨other, member', inside⟩

/-- A block changes one pool only. -/
theorem Layout.elsewhere (layout : Layout block pools blocks) (member : base ∈ pools) (inPool : b ∈ blocks base)
    {c : Nat} (member' : other ∈ pools) (different : other ≠ base) (inPool' : c ∈ blocks other) : c ≠ b := by
  grind [pool_unique]

section Edit

variable {before after : List Nat} (layout : Layout block pools blocks) (member : base ∈ pools)
include layout member

/-- Cutting a block in two adds one block. -/
theorem Layout.split (block' : Nat → KmallocBlock) (inPool : blocks base = before ++ b :: after)
    (aligned : kmallocAlign ∣ size)
    (room : size + kmallocHeader ≤ (block b).size)
    (front : (block' b).size = size ∧ (block' b).nextPhys = b + kmallocHeader + size)
    (back : (block' (b + kmallocHeader + size)).size = (block b).size - size - kmallocHeader ∧
      (block' (b + kmallocHeader + size)).nextPhys = (block b).nextPhys)
    (same : ∀ other, IsBlock pools blocks other → other ≠ b →
      (block' other).size = (block other).size ∧ (block' other).nextPhys = (block other).nextPhys) :
    ∃ blocks', Layout block' pools blocks' ∧
      ∀ other, IsBlock pools blocks' other ↔ IsBlock pools blocks other ∨ other = b + kmallocHeader + size := by
  have tiled := inPool ▸ layout.tiled base member
  have here : b ∈ blocks base := by simp [inPool]
  have rest : ∀ other ∈ before ++ after, other ∈ blocks base ∧ other ≠ b := by
    intro other inside
    refine ⟨?_, ?_⟩
    · grind
    · rintro rfl
      exact (List.nodup_cons.mp (List.nodup_middle.mp tiled.nodup)).1 inside
  refine ⟨_, layout.replace member (tiled.split aligned room front back ?_) ?_, ?_⟩
  · exact fun other inside => same other ⟨base, member, (rest other inside).1⟩ (rest other inside).2
  · intro other member' different c inside
    exact same c ⟨other, member', inside⟩ (layout.elsewhere member here member' different inside)
  grind [isBlock_iff]

/-- Making a block and its neighbour one removes the neighbour. -/
theorem Layout.merge (block' : Nat → KmallocBlock) (inPool : blocks base = before ++ b :: next :: after)
    (joined : (block' b).size = (block b).size + (kmallocHeader + (block next).size) ∧
      (block' b).nextPhys = (block next).nextPhys)
    (same : ∀ other, IsBlock pools blocks other → other ≠ b → other ≠ next →
      (block' other).size = (block other).size ∧ (block' other).nextPhys = (block other).nextPhys) :
    Layout block' pools (Function.update blocks base (before ++ b :: after)) ∧
      ∀ other, IsBlock pools (Function.update blocks base (before ++ b :: after)) other ↔
        IsBlock pools blocks other ∧ other ≠ next := by
  have tiled := inPool ▸ layout.tiled base member
  have here : b ∈ blocks base := by simp [inPool]
  have there : next ∈ blocks base := by simp [inPool]
  obtain ⟨outB, rest'⟩ := List.nodup_cons.mp (List.nodup_middle.mp tiled.nodup)
  have rest : ∀ other ∈ before ++ after, other ∈ blocks base ∧ other ≠ b ∧ other ≠ next := by
    grind
  refine ⟨layout.replace member (tiled.merge joined ?_) ?_, ?_⟩
  · exact fun other inside =>
      same other ⟨base, member, (rest other inside).1⟩ (rest other inside).2.1 (rest other inside).2.2
  · intro other member' different c inside
    exact same c ⟨other, member', inside⟩ (layout.elsewhere member here member' different inside)
      (layout.elsewhere member there member' different inside)
  grind [elsewhere, isBlock_iff]

end Edit

end Velox
