import Mathlib.Algebra.Group.Nat.Defs
import Mathlib.Data.List.Induction
import Mathlib.Logic.Function.Basic

/-! A stack of 64-bit words in memory, which grows towards lower addresses. -/

namespace Velox.Lib

/-- The address of a word, counted from the one at `sp`. -/
def wordAt (sp i : Nat) : Nat := (sp + 8 * i) % 2 ^ 64

/-- The memory has these words from `sp` on. -/
def HoldsWords (mem : Nat → Nat) (sp : Nat) (words : List Nat) : Prop :=
  ∀ i word, words[i]? = some word → mem (wordAt sp i) = word

/-- The stack pointer and the memory after a word was pushed. -/
def pushWord (stack : Nat × (Nat → Nat)) (word : Nat) : Nat × (Nat → Nat) :=
  let sp := (stack.1 + (2 ^ 64 - 8)) % 2 ^ 64
  (sp, Function.update stack.2 sp word)

theorem wordAt_wordAt (sp i j : Nat) : wordAt (wordAt sp i) j = wordAt sp (i + j) := by
  unfold wordAt
  omega

theorem wordAt_ne {sp i j : Nat} (below : i < j) (near : j < 2 ^ 61) : wordAt sp i ≠ wordAt sp j := by
  unfold wordAt
  omega

/-- Words that were pushed lie in memory in the opposite order. -/
theorem holdsWords_pushed (words : List Nat) (few : words.length < 2 ^ 61) (stack : Nat × (Nat → Nat)) :
    HoldsWords (words.foldl pushWord stack).2 (words.foldl pushWord stack).1 words.reverse := by
  induction words using List.reverseRecOn with
  | nil => nofun
  | append_singleton words last ih =>
    rw [List.length_append, List.length_singleton] at few
    have held := ih (by omega)
    rw [List.foldl_append, List.foldl_cons, List.foldl_nil, List.reverse_append, List.reverse_singleton]
    generalize words.foldl pushWord stack = earlier at held
    obtain ⟨sp, mem⟩ := earlier
    have top : wordAt ((sp + (2 ^ 64 - 8)) % 2 ^ 64) 0 = (sp + (2 ^ 64 - 8)) % 2 ^ 64 := by
      unfold wordAt
      omega
    intro i word found
    dsimp only [pushWord]
    cases i with
    | zero =>
      cases found
      rw [top, Function.update_self]
    | succ i =>
      have inside := (List.getElem?_eq_some_iff.mp found).1
      rw [List.length_append, List.length_singleton, List.length_reverse] at inside
      have above : wordAt ((sp + (2 ^ 64 - 8)) % 2 ^ 64) (i + 1) = wordAt sp i := by
        unfold wordAt
        omega
      have apart : wordAt ((sp + (2 ^ 64 - 8)) % 2 ^ 64) (i + 1) ≠ (sp + (2 ^ 64 - 8)) % 2 ^ 64 := by
        rw [← top, wordAt_wordAt]
        exact (wordAt_ne (by omega) (by omega)).symm
      rw [Function.update_of_ne apart, above]
      exact held i word found

end Velox.Lib
