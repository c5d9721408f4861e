import Mathlib.Data.List.Sort

/-! Finite sets of numbers kept as sorted lists of half-open ranges with a gap
between any two of them. -/

namespace Velox.Lib

variable {taken : Nat} {range other : Range}

structure Range where
  start : Nat
  size : Nat
deriving DecidableEq, Repr

def Range.Contains (range : Range) (point : Nat) : Prop :=
  range.start ≤ point ∧ point < range.start + range.size

/-- The set a list of ranges stands for. -/
def Covers (ranges : List Range) (point : Nat) : Prop := ∃ range ∈ ranges, range.Contains point

@[simp] theorem covers_nil (point : Nat) : ¬ Covers [] point := by
  simp [Covers]

@[simp] theorem covers_cons (range : Range) (ranges : List Range) (point : Nat) :
    Covers (range :: ranges) point ↔ range.Contains point ∨ Covers ranges point := by
  simp [Covers]

@[simp] theorem covers_append (first second : List Range) (point : Nat) :
    Covers (first ++ second) point ↔ Covers first point ∨ Covers second point := by
  simp [Covers, or_and_right, exists_or]

/-- Non-empty ranges in ascending order, no two of which touch. -/
structure Separated (ranges : List Range) : Prop where
  positive : ∀ range ∈ ranges, 0 < range.size
  ordered : ranges.Pairwise fun first second => first.start + first.size < second.start

theorem Separated.nil : Separated [] := ⟨by simp, .nil⟩

theorem Separated.singleton (positive : 0 < range.size) : Separated [range] :=
  ⟨by simpa using positive, List.pairwise_singleton _ _⟩

theorem Separated.cons_iff {ranges : List Range} : Separated (range :: ranges) ↔ 0 < range.size ∧
      (∀ other ∈ ranges, range.start + range.size < other.start) ∧ Separated ranges := by
  constructor
  · rintro ⟨positive, ordered⟩
    have parts := List.pairwise_cons.mp ordered
    exact ⟨positive range List.mem_cons_self, parts.1,
      fun other member => positive other (List.mem_cons_of_mem _ member), parts.2⟩
  · rintro ⟨positive, before, rest⟩
    refine ⟨?_, List.pairwise_cons.mpr ⟨before, rest.ordered⟩⟩
    intro other member
    rcases List.mem_cons.mp member with rfl | later
    · exact positive
    · exact rest.positive other later

variable {before after ranges : List Range} {range : Range}

section

variable (separated : Separated (before ++ range :: after))
include separated

theorem Separated.remove : Separated (before ++ after) := by
  refine ⟨fun other member => separated.positive other ?_, separated.ordered.sublist ?_⟩
  · grind
  simp

/-- Cutting a piece off the front of a range leaves the list separated. -/
theorem Separated.shrink (less : taken < range.size) :
    Separated (before ++ ⟨range.start + taken, range.size - taken⟩ :: after) := by
  induction before with
  | nil =>
    grind [cons_iff]
  | cons first rest ih =>
    grind [cons_iff]

/-- No point of one range lies in another range of the list. -/
theorem Separated.apart (inside : range.Contains point) : ¬ Covers (before ++ after) point := by
  rintro ⟨other, member, covered⟩
  have ordered := List.pairwise_append.mp separated.ordered
  rcases List.mem_append.mp member with early | late
  · have gap := ordered.2.2 other early range List.mem_cons_self
    exact absurd (Nat.lt_trans covered.2 gap) (Nat.not_lt.mpr inside.1)
  · have gap := (List.pairwise_cons.mp ordered.2.1).1 other late
    exact absurd (Nat.lt_trans inside.2 gap) (Nat.not_lt.mpr covered.1)

end

/-- The end of a range is a hole. -/
theorem Separated.hole (separated : Separated ranges) (member : range ∈ ranges) :
    ¬ Covers ranges (range.start + range.size) := by
  obtain ⟨before, after, rfl⟩ := List.append_of_mem member
  have ordered := List.pairwise_append.mp separated.ordered
  rintro ⟨other, listed, covered⟩
  rcases List.mem_append.mp listed with early | late
  · have gap := ordered.2.2 other early range List.mem_cons_self
    exact absurd (Nat.lt_of_lt_of_le covered.2 gap.le) (by omega)
  · rcases List.mem_cons.mp late with rfl | later
    · exact absurd covered.2 (Nat.lt_irrefl _)
    · have gap := (List.pairwise_cons.mp ordered.2.1).1 other later
      exact absurd covered.1 (Nat.not_le.mpr gap)

/-- What is left of a range and the ranges after it when its front is taken. -/
def carve (range : Range) (taken : Nat) (after : List Range) : List Range :=
  if range.size - taken = 0 then after else ⟨range.start + taken, range.size - taken⟩ :: after

theorem Separated.carve (separated : Separated (before ++ range :: after)) :
    Separated (before ++ Lib.carve range taken after) := by
  unfold Lib.carve
  grind [remove, shrink]

theorem covers_carve (separated : Separated (before ++ range :: after)) (enough : taken ≤ range.size)
    (point : Nat) : Covers (before ++ carve range taken after) point ↔
      Covers (before ++ range :: after) point ∧ ¬ (⟨range.start, taken⟩ : Range).Contains point := by
  have piece : Covers (carve range taken after) point ↔
      (range.Contains point ∧ ¬ (⟨range.start, taken⟩ : Range).Contains point) ∨ Covers after point := by
    unfold carve
    split
    · have none' : ¬ (range.Contains point ∧ ¬ (⟨range.start, taken⟩ : Range).Contains point) := by
        simp only [Range.Contains]
        omega
      grind
    · rw [covers_cons]
      refine or_congr_left ?_
      simp only [Range.Contains]
      omega
  have front : (⟨range.start, taken⟩ : Range).Contains point → range.Contains point :=
    fun inside => ⟨inside.1, Nat.lt_of_lt_of_le inside.2 (Nat.add_le_add_left enough _)⟩
  have apart : range.Contains point → ¬ (Covers before point ∨ Covers after point) := by
    intro inside
    rw [← covers_append]
    exact separated.apart inside
  grind [covers_append, covers_cons]

/-- The ranges behind the first lie behind its end. -/
theorem Separated.covers_tail (separated : Separated (range :: ranges)) (point : Nat) :
    Covers ranges point ↔ Covers (range :: ranges) point ∧ range.start + range.size ≤ point := by
  obtain ⟨-, behind, -⟩ := Separated.cons_iff.mp separated
  rw [covers_cons]
  constructor
  · rintro ⟨other, member, inside⟩
    exact ⟨.inr ⟨other, member, inside⟩, (behind other member).le.trans inside.1⟩
  · rintro ⟨inside | later, beyond⟩
    · exact absurd inside.2 (Nat.not_lt.mpr beyond)
    · exact later

/-- The first range of a separated list, against another list that stands for the same set. -/
theorem Separated.head_le (separated : Separated (range :: ranges))
    (separated' : Separated (other :: others))
    (same : ∀ point, Covers (range :: ranges) point ↔ Covers (other :: others) point) :
    range.start ≤ other.start ∧ (range.start = other.start → range.start + range.size ≤ other.start + other.size) := by
  obtain ⟨positive, behind, -⟩ := Separated.cons_iff.mp separated
  obtain ⟨positive', -, -⟩ := Separated.cons_iff.mp separated'
  constructor
  · obtain ⟨found, member, inside⟩ := (same other.start).mpr ⟨other, List.mem_cons_self, Nat.le_refl _, by omega⟩
    rcases List.mem_cons.mp member with rfl | later
    · exact inside.1
    · have gap := behind found later
      have low := inside.1
      omega
  · by_contra longer
    -- The end of the shorter range is covered by the longer one and a hole of its own list.
    refine separated'.hole List.mem_cons_self ((same _).mp ⟨range, List.mem_cons_self, ?_, by omega⟩)
    omega

/-- Separated lists that stand for the same set are equal. -/
theorem Separated.unique (separated : Separated ranges) (separated' : Separated others)
    (same : ∀ point, Covers ranges point ↔ Covers others point) : ranges = others := by
  induction ranges generalizing others with
  | nil =>
    cases others with
    | nil => rfl
    | cons other rest =>
      have positive := separated'.positive other List.mem_cons_self
      have missing := (same other.start).mpr ⟨other, List.mem_cons_self, Nat.le_refl _, by omega⟩
      simp at missing
  | cons range ranges ih =>
    cases others with
    | nil =>
      have positive := separated.positive range List.mem_cons_self
      have missing := (same range.start).mp ⟨range, List.mem_cons_self, Nat.le_refl _, by omega⟩
      simp at missing
    | cons other others =>
      have forth := separated.head_le separated' same
      have back := separated'.head_le separated fun point => (same point).symm
      have head : range = other := by
        cases range
        cases other
        grind
      subst head
      rw [ih (Separated.cons_iff.mp separated).2.2 (Separated.cons_iff.mp separated').2.2 fun point => ?_]
      grind [covers_tail]

/-- A separated list that stands for one interval is that one range. -/
theorem Separated.eq_singleton (separated : Separated ranges) (positive : 0 < range.size)
    (same : ∀ point, Covers ranges point ↔ range.Contains point) : ranges = [range] := by
  refine separated.unique (.singleton positive) fun point => ?_
  rw [same, covers_cons]
  simp

/-- Join a range with the ranges after it that it touches. -/
def coalesceFrom (range : Range) : List Range → List Range
  | [] => [range]
  | next :: rest =>
    if range.start + range.size ≥ next.start then
      coalesceFrom ⟨range.start, max (range.start + range.size) (next.start + next.size) - range.start⟩ rest
    else range :: coalesceFrom next rest

theorem sorted_widen {next : Range} (size : Nat)
    (sorted : (range :: next :: rest).Pairwise (·.start ≤ ·.start)) :
    ((⟨range.start, size⟩ : Range) :: rest).Pairwise (·.start ≤ ·.start) := by
  obtain ⟨least, sortedRest⟩ := List.pairwise_cons.mp sorted
  exact List.pairwise_cons.mpr ⟨fun other member => least other (List.mem_cons_of_mem _ member),
    (List.pairwise_cons.mp sortedRest).2⟩

section

variable (sorted : (range :: ranges).Pairwise (·.start ≤ ·.start))
include sorted

theorem coalesceFrom_covers (point : Nat) :
    Covers (coalesceFrom range ranges) point ↔ range.Contains point ∨ Covers ranges point := by
  induction ranges generalizing range with
  | nil => simp [coalesceFrom]
  | cons next rest ih =>
    obtain ⟨least, sortedRest⟩ := List.pairwise_cons.mp sorted
    have first := least next List.mem_cons_self
    simp only [coalesceFrom]
    split
    · rw [ih (sorted_widen _ sorted)]
      simp only [covers_cons, ← or_assoc]
      refine or_congr_left ?_
      simp only [Range.Contains]
      omega
    grind [covers_cons]

theorem coalesceFrom_start (member : other ∈ coalesceFrom range ranges) :
    range.start ≤ other.start := by
  induction ranges generalizing range with
  | nil =>
    rw [coalesceFrom, List.mem_singleton] at member
    grind
  | cons next rest ih =>
    simp only [coalesceFrom] at member
    grind [sorted_widen]

theorem coalesceFrom_separated (positive : ∀ other ∈ range :: ranges, 0 < other.size) :
    Separated (coalesceFrom range ranges) := by
  induction ranges generalizing range with
  | nil => exact .singleton (positive range List.mem_cons_self)
  | cons next rest ih =>
    obtain ⟨least, sortedRest⟩ := List.pairwise_cons.mp sorted
    have size := positive range List.mem_cons_self
    simp only [coalesceFrom]
    split
    · apply ih (sorted_widen _ sorted)
      grind
    · refine Separated.cons_iff.mpr ⟨size, fun other member => ?_,
        ih sortedRest fun other member => positive other (List.mem_cons_of_mem _ member)⟩
      have beyond := coalesceFrom_start sortedRest member
      omega

/-- Joining ranges keeps every alignment they all have. -/
theorem coalesceFrom_aligned
    (aligned : ∀ other ∈ range :: ranges, unit ∣ other.start ∧ unit ∣ other.size) :
    ∀ other ∈ coalesceFrom range ranges, unit ∣ other.start ∧ unit ∣ other.size := by
  induction ranges generalizing range with
  | nil => exact aligned
  | cons next rest ih =>
    simp only [coalesceFrom]
    split
    · apply ih (sorted_widen _ sorted)
      intro other member
      rcases List.mem_cons.mp member with rfl | later
      · grind [Nat.dvd_sub, Nat.dvd_add]
      grind
    grind

end

def coalesce : List Range → List Range
  | [] => []
  | range :: ranges => coalesceFrom range ranges

section

variable (sorted : ranges.Pairwise (·.start ≤ ·.start))
include sorted

theorem coalesce_separated (positive : ∀ range ∈ ranges, 0 < range.size) :
    Separated (coalesce ranges) := by
  cases ranges with
  | nil => exact .nil
  | cons range ranges => exact coalesceFrom_separated sorted positive

theorem coalesce_covers (point : Nat) :
    Covers (coalesce ranges) point ↔ Covers ranges point := by
  cases ranges with
  | nil => rfl
  | cons range ranges => simp only [coalesce, coalesceFrom_covers sorted, covers_cons]

theorem coalesce_aligned (aligned : ∀ range ∈ ranges, unit ∣ range.start ∧ unit ∣ range.size) :
    ∀ range ∈ coalesce ranges, unit ∣ range.start ∧ unit ∣ range.size := by
  cases ranges with
  | nil => simp [coalesce]
  | cons range ranges => exact coalesceFrom_aligned sorted aligned

end

/-- Insert a range in front of the first one that does not start before it. -/
def insertRange (range : Range) (ranges : List Range) : List Range :=
  ranges.orderedInsert (fun first second => first.start ≤ second.start) range

theorem Separated.sorted (separated : Separated ranges) : ranges.Pairwise (·.start ≤ ·.start) :=
  separated.ordered.imp fun gap => by omega

theorem insertRange_sorted (range : Range) (sorted : ranges.Pairwise (·.start ≤ ·.start)) :
    (insertRange range ranges).Pairwise (·.start ≤ ·.start) := by
  exact List.Pairwise.orderedInsert range ranges sorted

/-- Giving a range back to a separated list and joining what touches. -/
theorem coalesce_insertRange (range : Range) (separated : Separated ranges) (positive : 0 < range.size) :
    Separated (coalesce (insertRange range ranges)) ∧ ∀ point, Covers (coalesce (insertRange range ranges)) point ↔
        range.Contains point ∨ Covers ranges point := by
  have sorted := insertRange_sorted range separated.sorted
  refine ⟨coalesce_separated sorted ?_, fun point => ?_⟩
  · intro other member
    rcases (List.mem_orderedInsert _).mp member with rfl | earlier
    · exact positive
    · exact separated.positive other earlier
  · rw [coalesce_covers sorted]
    simp [Covers, insertRange, List.mem_orderedInsert]

/-- Two ranges that overlap, or one of which starts where the other ends. -/
def Range.Touches (first second : Range) : Prop :=
  first.start ≤ second.start + second.size ∧ second.start ≤ first.start + first.size

theorem coalesceFrom_length_le (range : Range) (ranges : List Range) :
    (coalesceFrom range ranges).length ≤ ranges.length + 1 := by
  induction ranges generalizing range with
  | nil => simp [coalesceFrom]
  | cons next rest ih =>
    simp only [coalesceFrom]
    grind

/-- Nothing is joined in a separated list. -/
theorem coalesceFrom_of_separated (separated : Separated (range :: ranges)) :
    coalesceFrom range ranges = range :: ranges := by
  induction ranges generalizing range with
  | nil => rfl
  | cons next rest ih =>
    obtain ⟨-, behind, separated'⟩ := Separated.cons_iff.mp separated
    have gap := behind next List.mem_cons_self
    rw [coalesceFrom, if_neg (by omega), ih separated']

/-- A range makes a separated list longer, unless it touches one of its ranges. -/
theorem coalesce_insertRange_length (range : Range) (separated : Separated ranges) :
    (coalesce (insertRange range ranges)).length ≤ ranges.length ↔ ∃ other ∈ ranges, other.Touches range := by
  induction ranges with
  | nil => simp [insertRange, coalesce, coalesceFrom]
  | cons next rest ih =>
    obtain ⟨positive, behind, separated'⟩ := Separated.cons_iff.mp separated
    by_cases first : range.start ≤ next.start
    · have inserted : insertRange range (next :: rest) = range :: next :: rest := by
        simp [insertRange, List.orderedInsert, first]
      rw [inserted, coalesce, coalesceFrom]
      split
      · rename_i reaches
        exact iff_of_true (coalesceFrom_length_le _ _) ⟨next, List.mem_cons_self, reaches, by omega⟩
      · rw [coalesceFrom_of_separated separated]
        refine iff_of_false (by simp) ?_
        rintro ⟨other, member, touches, -⟩
        grind
    · have inserted : insertRange range (next :: rest) = next :: insertRange range rest := by
        simp [insertRange, List.orderedInsert, first]
      rw [inserted, coalesce]
      by_cases reaches : range.start ≤ next.start + next.size
      · -- The range comes right behind the one it touches.
        have second : insertRange range rest = range :: rest := by
          cases rest with
          | nil => rfl
          | cons third rest =>
            have beyond := behind third List.mem_cons_self
            have before : range.start ≤ third.start := by omega
            simp [insertRange, List.orderedInsert, before]
        rw [second, coalesceFrom, if_pos reaches]
        exact iff_of_true (coalesceFrom_length_le _ _) ⟨next, List.mem_cons_self, by omega, reaches⟩
      · have apart : ∀ other ∈ insertRange range rest, next.start + next.size < other.start := by
          intro other member
          rcases (List.mem_orderedInsert _).mp member with rfl | later
          · omega
          grind
        have kept : coalesceFrom next (insertRange range rest) = next :: coalesce (insertRange range rest) := by
          cases rest' : insertRange range rest with
          | nil =>
            have length := congrArg List.length rest'
            simp [insertRange, List.orderedInsert_length] at length
          | cons head tail =>
            have gap := apart head (by simp [rest'])
            rw [coalesceFrom, if_neg (by omega), coalesce]
        have away : ¬ next.Touches range := fun touches => reaches touches.2
        grind

theorem coalesce_insertRange_length_le (range : Range) (ranges : List Range) :
    (coalesce (insertRange range ranges)).length ≤ ranges.length + 1 := by
  have length : (insertRange range ranges).length = ranges.length + 1 := List.orderedInsert_length _ _ _
  cases inserted : insertRange range ranges with
  | nil => simp [coalesce]
  | cons first rest =>
    rw [inserted, List.length_cons] at length
    rw [coalesce, ← length]
    exact coalesceFrom_length_le first rest

end Velox.Lib
