import Mathlib.Algebra.Group.Nat.Defs
import Mathlib.Data.List.Basic

/-! Bytes in memory and on disk, by offset, and the little-endian words in them. -/

namespace Velox.Lib

abbrev Bytes := Nat → UInt8

def le16 (bytes : Bytes) (offset : Nat) : Nat :=
  (bytes offset).toNat + 2 ^ 8 * (bytes (offset + 1)).toNat

def le32 (bytes : Bytes) (offset : Nat) : Nat :=
  le16 bytes offset + 2 ^ 16 * le16 bytes (offset + 2)

theorem le16_lt (bytes : Bytes) (offset : Nat) : le16 bytes offset < 2 ^ 16 := by
  have low := (bytes offset).toNat_lt
  have high := (bytes (offset + 1)).toNat_lt
  unfold le16
  omega

theorem le32_lt (bytes : Bytes) (offset : Nat) : le32 bytes offset < 2 ^ 32 := by
  have low := le16_lt bytes offset
  have high := le16_lt bytes (offset + 2)
  unfold le32
  omega

theorem le32_congr {bytes other : Bytes} {offset place : Nat}
    (same : ∀ i < 4, bytes (offset + i) = other (place + i)) : le32 bytes offset = le32 other place := by
  simp only [le32, le16]
  rw [show bytes offset = other place from same 0 (by omega), same 1 (by omega), same 2 (by omega),
    show bytes (offset + 2 + 1) = other (place + 2 + 1) from same 3 (by omega)]

/-- `memcpy (target + place, source + start, count)`. -/
def memcpy (target : Bytes) (place : Nat) (source : Bytes) (start count : Nat) : Bytes := fun i =>
  if place ≤ i ∧ i < place + count then source (start + (i - place)) else target i

/-- In a concatenation of blocks of one size, a position tells its block. -/
theorem getElem?_flatMap_blocks {α β : Type} {blocks : α → List β} {size : Nat} (pos : 0 < size)
    (sized : ∀ a, (blocks a).length = size) (list : List α) (i : Nat) :
    (list.flatMap blocks)[i]? = (list[i / size]?).bind fun a => (blocks a)[i % size]? := by
  induction list generalizing i with
  | nil => simp
  | cons a rest ih =>
    rw [List.flatMap_cons]
    by_cases inside : i < size
    · grind [Nat.div_eq_of_lt, Nat.mod_eq_of_lt]
    · obtain ⟨j, rfl⟩ : ∃ j, i = j + size := ⟨i - size, by omega⟩
      rw [List.getElem?_append_right (by rw [sized]; omega), sized, Nat.add_sub_cancel, ih,
        Nat.add_div_right j pos, Nat.add_mod_right]
      rfl

end Velox.Lib
