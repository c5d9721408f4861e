import Mathlib.Data.List.DropRight

/-! The non-empty parts of a list between separators. -/

namespace Velox.Lib

variable {α : Type} [DecidableEq α] {sep : α} {path seg rest : List α}

def components (sep : α) (path : List α) : List (List α) :=
  (path.splitOn sep).filter fun part => !part.isEmpty

@[simp] theorem components_nil : components sep [] = [] := rfl

theorem components_append_sep (first second : List α) :
    components sep (first ++ sep :: second) = components sep first ++ components sep second := by
  rw [components, List.splitOn_append_cons_self, List.filter_append]
  rfl

@[simp] theorem components_cons_sep : components sep (sep :: path) = components sep path :=
  components_append_sep [] path

@[simp] theorem components_concat_sep : components sep (path ++ [sep]) = components sep path := by
  rw [components_append_sep, components_nil, List.append_nil]

theorem components_of_notMem (some' : seg ≠ []) (whole : sep ∉ seg) : components sep seg = [seg] := by
  rw [components, List.splitOn_eq_singleton whole, List.filter_singleton, List.isEmpty_eq_false_iff.mpr some']
  rfl

@[simp] theorem components_dropWhile : components sep (path.dropWhile (· = sep)) = components sep path := by
  induction path with
  | nil => rfl
  | cons byte rest ih =>
    by_cases here : byte = sep
    · subst here
      simpa using ih
    · simp [here]

@[simp] theorem components_rdropWhile : components sep (path.rdropWhile (· = sep)) = components sep path := by
  induction path using List.reverseRecOn with
  | nil => rfl
  | append_singleton rest byte ih =>
    by_cases here : byte = sep
    · subst here
      rw [List.rdropWhile_concat_pos _ _ _ (by simp), ih, components_concat_sep]
    · rw [List.rdropWhile_concat_neg _ _ _ (by simpa using here)]

/-- The first part of a list that does not start with a separator. -/
theorem components_cons (some' : path ≠ []) (start : path.head? ≠ some sep) : path.takeWhile (· ≠ sep) ≠ [] ∧
      components sep path = path.takeWhile (· ≠ sep) :: components sep (path.drop (path.takeWhile (· ≠ sep)).length) := by
  have first : path.takeWhile (· ≠ sep) ≠ [] := by
    cases path with
    | nil => exact absurd rfl some'
    | cons byte rest =>
      have other : byte ≠ sep := fun same => start (by rw [same]; rfl)
      simp [other]
  have whole : sep ∉ path.takeWhile (· ≠ sep) := fun member => by
    simpa using List.mem_takeWhile_imp member
  have parts : path.takeWhile (· ≠ sep) ++ path.dropWhile (· ≠ sep) = path := List.takeWhile_append_dropWhile
  cases tail : path.dropWhile (· ≠ sep) with
  | nil =>
    grind [components_nil, components_of_notMem]
  | cons byte after =>
    grind [List.head?_dropWhile_not, components_append_sep, components_of_notMem, components_cons_sep]

theorem components_length : (components sep path).length ≤ path.length := by
  induction path with
  | nil => simp
  | cons byte rest ih =>
    by_cases here : byte = sep
    · grind [components_cons_sep]
    · rw [components, List.splitOn_cons_eq_if_modifyHead, if_neg (by simpa using here)]
      rw [components] at ih
      cases split : rest.splitOn sep with
      | nil => simp
      | cons head tail =>
        grind [List.modifyHead_cons]

/-- A part between separators holds items of the list, and no separator. -/
theorem mem_of_splitOn {item : α} (member : seg ∈ path.splitOn sep) (inside : item ∈ seg) : item ∈ path ∧ item ≠ sep := by
  induction path generalizing seg with
  | nil =>
    grind [List.splitOn_nil]
  | cons byte rest ih =>
    rw [List.splitOn_cons_eq_if_modifyHead] at member
    split at member
    · grind
    · cases split : rest.splitOn sep with
      | nil => grind [List.splitOn_ne_nil]
      | cons head tail =>
        rw [split] at member ih
        rcases List.mem_cons.mp member with rfl | later
        · grind
        grind

theorem components_subset {item : α} (member : seg ∈ components sep path) (inside : item ∈ seg) : item ∈ path :=
  (mem_of_splitOn (List.mem_filter.mp member).1 inside).1

theorem notMem_of_components (member : seg ∈ components sep path) : sep ∉ seg :=
  fun inside => (mem_of_splitOn (List.mem_filter.mp member).1 inside).2 rfl

end Velox.Lib
