import Mathlib.Data.Nat.Count

/-! Counting the members of a decidable set below a bound. -/

namespace Velox.Lib

variable {p q : Nat → Prop} [DecidablePred p] [DecidablePred q] {n x : Nat}

/-- Adding one member below the bound raises the count by one. -/
theorem count_insert (inside : x < n) (absent : ¬ p x) (agree : ∀ y, q y ↔ y = x ∨ p y) :
    Nat.count q n = Nat.count p n + 1 := by
  rw [Nat.count_eq_card_filter_range, Nat.count_eq_card_filter_range]
  have extended : (Finset.range n).filter q = insert x ((Finset.range n).filter p) := by
    grind
  grind

theorem count_congr_below (agree : ∀ y < n, p y ↔ q y) : Nat.count p n = Nat.count q n := by
  rw [Nat.count_eq_card_filter_range, Nat.count_eq_card_filter_range]
  congr 1
  grind

/-- A set and its complement share out the numbers below the bound. -/
theorem count_add_count_of_not (complement : ∀ y, q y ↔ ¬ p y) : Nat.count q n + Nat.count p n = n := by
  induction n with
  | zero => simp
  | succ n ih =>
    grind

end Velox.Lib
