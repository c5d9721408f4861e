import Mathlib.Logic.Function.Basic
import Mathlib.Order.Interval.Finset.Nat

/-! Rings of a fixed depth between one writer and one reader. Positions never wrap; a slot is a
position modulo the depth. In a tagged ring every pass over the slots carries its own tag. -/

namespace Velox.Lib

universe u

variable {α : Type u} {depth first count i j : Nat} {memory : Nat → α} {items : List α} {item : α}

/-- Positions less than a depth apart have different slots. -/
theorem slot_ne (before : i < j) (near : j < i + depth) : i % depth ≠ j % depth := by
  intro same
  have equal := Nat.mod_injOn_Ico i depth (Finset.mem_coe.mpr (Finset.mem_Ico.mpr ⟨le_rfl, by omega⟩))
    (Finset.mem_coe.mpr (Finset.mem_Ico.mpr ⟨before.le, near⟩)) same
  omega

/-- The distance of two slots tells the distance of their positions. -/
theorem slot_distance (order : i ≤ j) (near : j < i + depth) : (j % depth + depth - i % depth) % depth = j - i := by
  have positive : 0 < depth := by omega
  have below := Nat.mod_lt i positive
  have split : j % depth = (i % depth + (j - i)) % depth := by
    rw [Nat.mod_add_mod, Nat.add_sub_cancel' order]
  rcases Nat.lt_or_ge (i % depth + (j - i)) depth with fits | wraps
  · rw [Nat.mod_eq_of_lt fits] at split
    rw [split, show i % depth + (j - i) + depth - i % depth = j - i + depth by omega, Nat.add_mod_right,
      Nat.mod_eq_of_lt (by omega)]
  · rw [Nat.mod_eq_sub_mod wraps, Nat.mod_eq_of_lt (show i % depth + (j - i) - depth < depth by omega)] at split
    rw [split, show i % depth + (j - i) - depth + depth - i % depth = j - i by omega, Nat.mod_eq_of_lt (by omega)]

theorem slot_succ (positive : 0 < depth) : (i + 1) % depth = if i % depth + 1 = depth then 0 else i % depth + 1 := by
  have below := Nat.mod_lt i positive
  rw [← Nat.mod_add_mod]
  split
  · next wraps => rw [wraps, Nat.mod_self]
  · next fits => exact Nat.mod_eq_of_lt (by omega)

/-- The tag of the pass that a position belongs to: one in the first pass, then alternating. -/
def passTag (depth i : Nat) : Nat := (i / depth + 1) % 2

theorem passTag_lt : passTag depth i < 2 := Nat.mod_lt _ (by decide)

theorem passTag_zero : passTag depth 0 = 1 := by rw [passTag, Nat.zero_div]

theorem passTag_add (positive : 0 < depth) : passTag depth (i + depth) ≠ passTag depth i := by
  rw [passTag, passTag, Nat.add_div_right i positive]
  omega

theorem passTag_succ (positive : 0 < depth) :
    passTag depth (i + 1) = if i % depth + 1 = depth then passTag depth i ^^^ 1 else passTag depth i := by
  have whole := Nat.div_add_mod i depth
  have below := Nat.mod_lt i positive
  rw [passTag, passTag]
  split
  · next wraps =>
    have pass : (i + 1) / depth = i / depth + 1 := by
      refine Nat.div_eq_of_lt_le ?_ ?_
      · grind
      grind
    grind [Nat.mod_two_eq_zero_or_one]
  · next fits =>
    have pass : (i + 1) / depth = i / depth := by
      refine Nat.div_eq_of_lt_le ?_ ?_
      · grind
      grind
    rw [pass]

/-- The slots hold the items from a position on. -/
def RingHolds (depth : Nat) (memory : Nat → α) (items : List α) (first : Nat) : Prop :=
  ∀ i item, first ≤ i → items[i]? = some item → memory (i % depth) = item

theorem RingHolds.empty : RingHolds depth memory [] first :=
  fun _ _ _ found => absurd found (by simp)

theorem RingHolds.later {next : Nat} (holds : RingHolds depth memory items first) (order : first ≤ next) :
    RingHolds depth memory items next :=
  fun i item from_ => holds i item (order.trans from_)

/-- Writing the next item destroys none that is still to be read. -/
theorem RingHolds.push (holds : RingHolds depth memory items first) (room : items.length < first + depth) :
    RingHolds depth (Function.update memory (items.length % depth) item) (items ++ [item]) first := by
  intro i found from_ there
  rcases lt_trichotomy i items.length with before | here | beyond
  · rw [Function.update_of_ne (slot_ne before (by omega))]
    rw [List.getElem?_append_left before] at there
    exact holds i found from_ there
  · grind
  grind

/-- The slots ahead of the writer carry the tag of the pass before. -/
def RingStale (depth : Nat) (tag : α → Nat) (memory : Nat → α) (count first : Nat) : Prop :=
  ∀ i, count ≤ i → i < first + depth → tag (memory (i % depth)) ≠ passTag depth i

variable {tag : α → Nat}

theorem RingStale.push (stale : RingStale depth tag memory count first) (order : first ≤ count) :
    RingStale depth tag (Function.update memory (count % depth) item) (count + 1) first := by
  intro i ahead near
  rw [Function.update_of_ne (slot_ne (i := count) ahead (by omega)).symm]
  exact stale i (by omega) near

/-- A slot that has been read is ahead of the writer again, one pass later. -/
theorem RingStale.advance (positive : 0 < depth) (stale : RingStale depth tag memory count first)
    (read : tag (memory (first % depth)) = passTag depth first) :
    RingStale depth tag memory count (first + 1) := by
  intro i ahead near
  rcases Nat.lt_or_ge i (first + depth) with before | last
  · exact stale i ahead before
  · have same : i = first + depth := by omega
    rw [same, Nat.add_mod_right, read]
    exact (passTag_add positive).symm

/-- The reader sees its own tag exactly when there is an item to read. -/
theorem tag_iff_written (positive : 0 < depth) (stale : RingStale depth tag memory items.length first)
    (holds : RingHolds depth memory items first) (order : first ≤ items.length)
    (tags : ∀ i item, items[i]? = some item → tag item = passTag depth i) :
    tag (memory (first % depth)) = passTag depth first ↔ first < items.length := by
  constructor
  · intro seen
    by_contra none
    exact stale first (by omega) (by omega) seen
  · intro written
    have there := List.getElem?_eq_getElem written
    rw [holds first _ le_rfl there]
    exact tags first _ there

end Velox.Lib
