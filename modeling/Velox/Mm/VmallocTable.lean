import Velox.Mm.VmallocSafety

/-! `vmalloc_free_range` of `mm/vmalloc.c` on the array itself: the search for the place, the
shift that makes room, and the merging loop that closes the gaps in place. -/

namespace Velox

open Lib (Range Separated Covers)

/-- `g_vmalloc_free` and `g_vmalloc_free_count`. -/
structure FreeTable where
  entry : Nat → Range
  count : Nat

def FreeTable.ranges (t : FreeTable) : List Range := (List.range t.count).map t.entry

/-- The loop over `insert_at`, with as many entries left as the first argument says. -/
def insertAt (entry : Nat → Range) (start : Nat) : Nat → Nat → Nat
  | 0, i => i
  | left + 1, i => if (entry i).start < start then insertAt entry start left (i + 1) else i

/-- The loop that moves the entries from `place` on up by one, from the last one down. -/
def shiftUp (place : Nat) : Nat → (Nat → Range) → Nat → Range
  | 0, entry => entry
  | i + 1, entry => if i + 1 > place then shiftUp place i (Function.update entry (i + 1) (entry i)) else entry

/-- The loop that moves as many entries behind `j` as the first argument says down by one. -/
def shiftDown : Nat → Nat → (Nat → Range) → Nat → Range
  | 0, _, entry => entry
  | left + 1, j, entry => shiftDown left (j + 1) (Function.update entry j (entry (j + 1)))

/-- The merging loop at `i`; every pass takes an entry away or goes on to the next one. -/
def mergeLoop : Nat → Nat → FreeTable → FreeTable
  | 0, _, t => t
  | fuel + 1, i, t =>
    if i + 1 < t.count then
      let aStart := (t.entry i).start
      let aEnd := rangeEnd aStart (t.entry i).size
      let bStart := (t.entry (i + 1)).start
      let bEnd := rangeEnd bStart (t.entry (i + 1)).size
      if aEnd ≥ bStart then
        let newEnd := if aEnd > bEnd then aEnd else bEnd
        mergeLoop fuel i ⟨shiftDown (t.count - (i + 2)) (i + 1) (Function.update t.entry i ⟨aStart, newEnd - aStart⟩), t.count - 1⟩
      else mergeLoop fuel (i + 1) t
    else t

def freeRangeTable (t : FreeTable) (start size : Nat) : Except Panic FreeTable :=
  if size = 0 then .ok t
  else if t.count ≥ vmallocMaxRanges then panic "vmalloc: free list overflow"
  else
    let place := insertAt t.entry start t.count 0
    let entry := Function.update (shiftUp place t.count t.entry) place ⟨start, size⟩
    .ok (mergeLoop (t.count + 1) 0 ⟨entry, t.count + 1⟩)

section Arrays

variable {t : FreeTable} {entry : Nat → Range} {start size : Nat} {before rest : List Range}

theorem insertAt_eq (entry : Nat → Range) (start left i : Nat) :
    insertAt entry start left i = i + (((List.range' i left).map entry).takeWhile (·.start < start)).length := by
  induction left generalizing i with
  | zero => rfl
  | succ left ih =>
    rw [insertAt, List.range'_succ, List.map_cons]
    by_cases lower : (entry i).start < start
    · rw [if_pos lower, ih, List.takeWhile_cons_of_pos (by simpa using lower), List.length_cons]
      omega
    · rw [if_neg lower, List.takeWhile_cons_of_neg (by simpa using lower)]
      rfl

theorem shiftUp_eq (place i j : Nat) (entry : Nat → Range) :
    shiftUp place i entry j = if place < j ∧ j ≤ i then entry (j - 1) else entry j := by
  induction i generalizing entry with
  | zero => rw [shiftUp, if_neg (by omega)]
  | succ i ih =>
    rw [shiftUp]
    grind

theorem shiftDown_eq (left j m : Nat) (entry : Nat → Range) :
    shiftDown left j entry m = if j ≤ m ∧ m < j + left then entry (m + 1) else entry m := by
  induction left generalizing j entry with
  | zero => rw [shiftDown, if_neg (by omega)]
  | succ left ih =>
    rw [shiftDown, ih]
    grind

theorem FreeTable.getElem?_ranges (t : FreeTable) (i : Nat) : t.ranges[i]? = if i < t.count then some (t.entry i) else none := by
  rw [FreeTable.ranges, List.getElem?_map]
  grind

theorem FreeTable.length_ranges (t : FreeTable) : t.ranges.length = t.count := by simp [FreeTable.ranges]

/-- The new range stands in its place, and the others have made room. -/
theorem inserted_ranges (t : FreeTable) (start size : Nat) :
    FreeTable.ranges ⟨Function.update (shiftUp (insertAt t.entry start t.count 0) t.count t.entry)
        (insertAt t.entry start t.count 0) ⟨start, size⟩, t.count + 1⟩ = Lib.insertRange ⟨start, size⟩ t.ranges := by
  have place : insertAt t.entry start t.count 0 = (t.ranges.takeWhile (·.start < start)).length := by
    rw [insertAt_eq, Nat.zero_add, FreeTable.ranges, List.range_eq_range']
  have bound : insertAt t.entry start t.count 0 ≤ t.count := by
    rw [place, ← t.length_ranges]
    exact (List.takeWhile_prefix _).length_le
  have split' : t.ranges.takeWhile (·.start < start) ++ t.ranges.dropWhile (·.start < start) = t.ranges :=
    List.takeWhile_append_dropWhile
  rw [Lib.insertRange, List.orderedInsert_eq_take_drop]
  simp only [Nat.not_le]
  generalize insertAt t.entry start t.count 0 = k at *
  generalize t.ranges.takeWhile (·.start < start) = front at *
  generalize t.ranges.dropWhile (·.start < start) = back at *
  apply List.ext_getElem?
  intro i
  have old := t.getElem?_ranges
  rw [FreeTable.getElem?_ranges]
  dsimp only
  rcases Nat.lt_trichotomy i k with early | rfl | late
  · have kept : (front ++ (⟨start, size⟩ : Range) :: back)[i]? = t.ranges[i]? := by
      grind
    rw [kept, old, if_pos (by omega), if_pos (by omega), Function.update_of_ne (by omega), shiftUp_eq, if_neg (by omega)]
  · grind
  · have moved : (front ++ (⟨start, size⟩ : Range) :: back)[i]? = t.ranges[i - 1]? := by
      grind
    rw [moved, old, Function.update_of_ne (by omega), shiftUp_eq]
    grind

/-- An entry is widened, and the one behind it is taken out. -/
theorem merged_ranges {i : Nat} {first second : Range} (parts : t.ranges = before ++ first :: second :: rest)
    (place : before.length = i) (joined : Range) :
    FreeTable.ranges ⟨shiftDown (t.count - (i + 2)) (i + 1) (Function.update t.entry i joined), t.count - 1⟩ =
      before ++ joined :: rest := by
  have length := congrArg List.length parts
  simp only [t.length_ranges, List.length_append, List.length_cons] at length
  subst place
  apply List.ext_getElem?
  intro j
  have old := t.getElem?_ranges
  rw [parts] at old
  rw [FreeTable.getElem?_ranges]
  dsimp only
  rw [shiftDown_eq]
  rcases Nat.lt_trichotomy j before.length with early | rfl | late
  · grind
  · grind
  · have behind := old (j + 1)
    rw [List.getElem?_append_right (by omega), show j + 1 - before.length = j - before.length - 1 + 1 + 1 by omega,
      List.getElem?_cons_succ, List.getElem?_cons_succ] at behind
    rw [List.getElem?_append_right (by omega), show j - before.length = j - before.length - 1 + 1 by omega,
      List.getElem?_cons_succ, behind]
    grind

/-- The loop in place does what the merging of the list does. -/
theorem mergeLoop_ranges {fuel : Nat} {first : Range} (parts : t.ranges = before ++ first :: rest) (enough : rest.length < fuel) :
    (mergeLoop fuel before.length t).ranges = before ++ mergeFrom first rest := by
  induction rest generalizing fuel first before t with
  | nil =>
    have length := congrArg List.length parts
    simp only [t.length_ranges, List.length_append, List.length_cons, List.length_nil] at length
    cases fuel with
    | zero => cases enough
    | succ fuel => rw [mergeLoop, if_neg (by omega), parts, mergeFrom]
  | cons second rest ih =>
    have length := congrArg List.length parts
    simp only [t.length_ranges, List.length_append, List.length_cons] at length
    have here : t.entry before.length = first := by
      have read := t.getElem?_ranges before.length
      grind
    have next : t.entry (before.length + 1) = second := by
      have read := t.getElem?_ranges (before.length + 1)
      grind
    cases fuel with
    | zero => cases enough
    | succ fuel =>
      rw [List.length_cons, Nat.succ_lt_succ_iff] at enough
      rw [mergeLoop, if_pos (by omega), mergeFrom, here, next]
      dsimp only
      split
      · grind [merged_ranges]
      · have onward : (mergeLoop fuel (before ++ [first]).length t).ranges = before ++ [first] ++ mergeFrom second rest :=
          ih (by simpa using parts) enough
        simpa using onward

/-- The function on the array refines the one on the list of its ranges. -/
theorem freeRangeTable_refines (t : FreeTable) (start size : Nat) :
    (freeRangeTable t start size).map FreeTable.ranges = vmallocFreeRange t.ranges start size := by
  rw [freeRangeTable, vmallocFreeRange, t.length_ranges]
  split_ifs
  · rfl
  · rfl
  · have inserted := inserted_ranges t start size
    cases list : Lib.insertRange ⟨start, size⟩ t.ranges with
    | nil =>
      have length := congrArg List.length list
      simp [Lib.insertRange, List.orderedInsert_length] at length
    | cons first rest =>
      rw [list] at inserted
      have length := congrArg List.length inserted
      rw [FreeTable.length_ranges, List.length_cons] at length
      dsimp only at length
      exact congrArg Except.ok (@mergeLoop_ranges _ [] rest _ first inserted (by omega))

end Arrays

section Union

variable {t u : FreeTable} {start size : Nat}

/-- While an entry is left, a release leaves the union in normal form. -/
theorem freeRangeTable_joins (room : t.count < vmallocMaxRanges) (separated : Separated t.ranges)
    (below : ∀ range ∈ t.ranges, range.start + range.size ≤ 2 ^ 64 - 1) (positive : 0 < size) (fits : start + size ≤ 2 ^ 64 - 1) :
    ∃ u, freeRangeTable t start size = .ok u ∧ u.ranges = Lib.coalesce (Lib.insertRange ⟨start, size⟩ t.ranges) := by
  have refines := freeRangeTable_refines t start size
  cases done : freeRangeTable t start size with
  | error =>
    rw [freeRangeTable, if_neg (by omega), if_neg (by omega)] at done
    cases done
  | ok u =>
    rw [done] at refines
    exact ⟨u, rfl, vmallocFreeRange_coalesces separated below (by decide) positive fits refines.symm⟩

/-- A release makes the table longer by one entry, unless the range touches a free one. -/
theorem room_after_iff (separated : Separated t.ranges) (room : t.count < vmallocMaxRanges)
    (joined : u.ranges = Lib.coalesce (Lib.insertRange ⟨start, size⟩ t.ranges)) :
    u.count < vmallocMaxRanges ↔ t.count + 1 < vmallocMaxRanges ∨ ∃ range ∈ t.ranges, range.Touches ⟨start, size⟩ := by
  grind [Lib.coalesce_insertRange_length_le, Lib.coalesce_insertRange_length, FreeTable.length_ranges]

/-- The union is in normal form, and a second release of the range changes nothing exactly when the
first one has left an entry of the table: when the table is full, the second one stops the kernel. -/
theorem free_range_twice_iff (t : FreeTable) (start size : Nat) (room : t.count < vmallocMaxRanges) (separated : Separated t.ranges)
    (below : ∀ range ∈ t.ranges, range.start + range.size ≤ 2 ^ 64 - 1) (positive : 0 < size) (fits : start + size ≤ 2 ^ 64 - 1) :
    ∃ u, freeRangeTable t start size = .ok u ∧ Separated u.ranges ∧
      (∀ point, Covers u.ranges point ↔ (⟨start, size⟩ : Range).Contains point ∨ Covers t.ranges point) ∧
      ((freeRangeTable u start size).map FreeTable.ranges = .ok u.ranges ↔
        t.count + 1 < vmallocMaxRanges ∨ ∃ range ∈ t.ranges, range.Touches ⟨start, size⟩) := by
  obtain ⟨u, done, joined⟩ := freeRangeTable_joins room separated below positive fits
  obtain ⟨separated', covered⟩ := Lib.coalesce_insertRange ⟨start, size⟩ separated positive
  rw [← joined] at separated' covered
  refine ⟨u, done, separated', covered, ?_⟩
  rw [← room_after_iff separated room joined]
  have below' : ∀ range ∈ u.ranges, range.start + range.size ≤ 2 ^ 64 - 1 := by
    intro range member
    have positive' := separated'.positive range member
    rcases (covered (range.start + range.size - 1)).mp ⟨range, member, by omega, by omega⟩ with new | ⟨old, free, -, high⟩
    · have high := new.2
      grind
    grind
  constructor
  · intro same
    by_contra full
    rw [freeRangeTable, if_neg (by omega), if_pos (by omega)] at same
    cases same
  · intro left
    obtain ⟨v, again, joined'⟩ := freeRangeTable_joins left separated' below' positive fits
    obtain ⟨separated'', covered'⟩ := Lib.coalesce_insertRange ⟨start, size⟩ separated' positive
    rw [← joined'] at separated'' covered'
    have same : v.ranges = u.ranges := by
      refine separated''.unique separated' fun point => ?_
      grind
    rw [again, ← same]
    rfl

/-- Every free range is followed by as large a gap. -/
def gappedTable (count : Nat) : FreeTable := ⟨fun i => ⟨16 * i, 8⟩, count⟩

theorem gappedTable_separated (count : Nat) : Separated (gappedTable count).ranges := by
  refine ⟨?_, ?_⟩
  · simp [gappedTable, FreeTable.ranges]
  · rw [FreeTable.ranges, List.pairwise_map]
    refine List.pairwise_lt_range.imp fun {i j} before => ?_
    dsimp only [gappedTable]
    omega

theorem free_range_twice_iff_gap : (freeRangeTable (gappedTable 2) 8 8).map FreeTable.ranges = .ok [⟨0, 24⟩] ∧
    ∃ u, freeRangeTable (gappedTable 2) 8 8 = .ok u ∧ (freeRangeTable u 8 8).map FreeTable.ranges = .ok u.ranges := by
  refine ⟨rfl, ?_⟩
  obtain ⟨u, done, -, -, again⟩ := free_range_twice_iff (gappedTable 2) 8 8 (by decide) (gappedTable_separated 2)
    (by decide) (by decide) (by decide)
  exact ⟨u, done, again.mpr (.inl (by decide))⟩

set_option maxRecDepth 4000 in
theorem double_release_overflows : Separated (gappedTable 127).ranges ∧
    (freeRangeTable (gappedTable 127) 2032 8).map FreeTable.count = .ok 128 ∧
    (freeRangeTable (gappedTable 127) 2032 8 >>= fun u => freeRangeTable u 2032 8).map FreeTable.ranges =
      .error ⟨"vmalloc: free list overflow"⟩ :=
  ⟨gappedTable_separated 127, rfl, rfl⟩

end Union

end Velox
