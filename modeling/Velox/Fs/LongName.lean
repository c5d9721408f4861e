import Velox.Fs.DirEnds

namespace Velox

open Lib (Bytes)

variable {x : UInt8} {raw : Bytes}

/-- A slot of a long name: neither an end marker nor deleted. -/
def IsSlot (raw : Bytes) : Prop := raw 0 ≠ 0 ∧ raw 0 ≠ 0xE5 ∧ raw 11 = fatAttrLfn

/-- An 8.3 entry of a file or a directory. -/
def IsShort (raw : Bytes) : Prop :=
  raw 0 ≠ 0 ∧ raw 0 ≠ 0xE5 ∧ raw 11 ≠ fatAttrLfn ∧ raw 11 &&& fatAttrVolumeId = 0

instance (raw : Bytes) : Decidable (IsSlot raw) := inferInstanceAs (Decidable (_ ∧ _))
instance (raw : Bytes) : Decidable (IsShort raw) := inferInstanceAs (Decidable (_ ∧ _))

/-- The long name state behind an entry other than an end marker. -/
def LfnState.after (lfn : LfnState) (raw : Bytes) : LfnState :=
  if raw 0 ≠ 0xE5 ∧ raw 11 = fatAttrLfn then lfn.afterSlot raw else lfn.discard

/-- The state behind some entries. -/
def LfnState.behind (lfn : LfnState) (raws : List Bytes) : LfnState := raws.foldl LfnState.after lfn

/-- What the scanners call `used_lfn`. -/
def LfnState.usedLfn (lfn : LfnState) (raw : Bytes) : Bool :=
  lfn.valid && lfn.chars.length > 0 && lfn.expectedSeq == 0 && lfnChecksum raw == lfn.checksum

@[simp]
theorem LfnState.behind_nil (lfn : LfnState) : lfn.behind [] = lfn := rfl

theorem LfnState.behind_cons (lfn : LfnState) (raw : Bytes) (rest : List Bytes) :
    lfn.behind (raw :: rest) = (lfn.after raw).behind rest := rfl

theorem LfnState.behind_append (lfn : LfnState) (first second : List Bytes) :
    lfn.behind (first ++ second) = (lfn.behind first).behind second := List.foldl_append

theorem entryName_eq (lfn : LfnState) (raw : Bytes) :
    entryName lfn raw = if lfn.usedLfn raw then utf16leToUtf8 lfn.chars else .ok (build83Name raw) := rfl

section Kinds

variable {lfn : LfnState} {raw : Bytes}

theorem entryKind_short (short : IsShort raw) : entryKind lfn raw = match entryName lfn raw with
      | .error _ => .overrun (lfn.after raw)
      | .ok name => .entry (.ofRaw raw name) (lfn.after raw) := by
  obtain ⟨running, present, other, file⟩ := short
  have next : lfn.after raw = lfn.discard := if_neg fun slot => other slot.2
  cases named : entryName lfn raw with
  | error fault => simp only [entryKind, if_neg running, if_neg present, if_neg other, if_neg (not_not.mpr file), named, next]
  | ok name => simp only [entryKind, if_neg running, if_neg present, if_neg other, if_neg (not_not.mpr file), named, next]

theorem entryKind_skip (running : raw 0 ≠ 0) (other : ¬ IsShort raw) : entryKind lfn raw = .skip (lfn.after raw) := by
  unfold entryKind LfnState.after
  rw [if_neg running]
  split
  · grind
  · rename_i present
    split
    · grind
    · rename_i long
      have volume : raw 11 &&& fatAttrVolumeId ≠ 0 := fun file => other ⟨running, present, long, file⟩
      grind

end Kinds

/-- Slots as they follow each other on the disk: the first one has the flag, the numbers go down by
one, and `left` is the number of the last one less one. -/
inductive Collects : List Bytes → Nat → Prop where
  | first {raw : Bytes} {left : Nat} (slot : IsSlot raw) (flag : raw 0 &&& 0x40 ≠ 0)
      (number : (raw 0 &&& 0xBF).toNat = left + 1) : Collects [raw] left
  | next {raw : Bytes} {slots : List Bytes} {left : Nat} (earlier : Collects slots (left + 1)) (slot : IsSlot raw)
      (plain : raw 0 &&& 0x40 = 0) (number : (raw 0).toNat = left + 1) : Collects (slots ++ [raw]) left

/-- The state holds the units of the slots, from the last slot to the first, and the checksum of
the first. -/
structure LfnState.Holds (lfn : LfnState) (slots : List Bytes) (left : Nat) : Prop where
  valid : lfn.valid = true
  expected : lfn.expectedSeq.toNat = left
  chars : lfn.chars = slots.reverse.flatMap lfnUnits
  checksum : slots.head?.map (· 13) = some lfn.checksum

section Machine

variable {lfn : LfnState} {raw : Bytes} {slots before : List Bytes} {left : Nat}

theorem lfnUnits_length (slot : Bytes) : (lfnUnits slot).length = 13 := rfl

theorem units_length (slots : List Bytes) : (slots.reverse.flatMap lfnUnits).length = 13 * slots.length := by
  induction slots with
  | nil => rfl
  | cons slot rest ih =>
    rw [List.reverse_cons, List.flatMap_append, List.length_append, ih, List.length_cons]
    simp only [List.flatMap_cons, List.flatMap_nil, List.append_nil, lfnUnits_length]
    omega

private theorem byte_cases (P : UInt8 → Prop) [DecidablePred P] (all : ∀ k < 256, P (UInt8.ofNat k)) (x : UInt8) : P x := by
  have here := all x.toNat x.toNat_lt
  rwa [UInt8.ofNat_toNat] at here

theorem seq_plain (plain : x &&& 0x40 = 0) : x &&& 0xBF = x := by
  revert plain
  exact byte_cases (fun x => x &&& 0x40 = 0 → x &&& 0xBF = x) (by decide +kernel) x

theorem seq_flag (flag : x &&& 0x40 ≠ 0) : x.toNat = 0x40 + (x &&& 0xBF).toNat := by
  revert flag
  exact byte_cases (fun x => x &&& 0x40 ≠ 0 → x.toNat = 0x40 + (x &&& 0xBF).toNat) (by decide +kernel) x

theorem LfnState.after_flag (lfn : LfnState) (slot : IsSlot raw) (flag : raw 0 &&& 0x40 ≠ 0) :
    lfn.after raw = ⟨lfnUnits raw, (raw 0 &&& 0xBF) - 1, raw 13, true⟩ := by
  have pushed : lfnPush ⟨[], raw 0 &&& 0xBF, raw 13, true⟩ raw = ⟨lfnUnits raw, raw 0 &&& 0xBF, raw 13, true⟩ := by
    simp [lfnPush]
  rw [after, if_pos slot.2, afterSlot, if_pos flag]
  simp [pushed]

theorem LfnState.after_plain (lfn : LfnState) (slot : IsSlot raw) (plain : raw 0 &&& 0x40 = 0) : lfn.after raw =
      if lfn.valid = true ∧ raw 0 = lfn.expectedSeq then
        { lfnPush lfn raw with expectedSeq := lfn.expectedSeq - 1 }
      else { lfn with valid := false } := by
  have same : (lfnPush lfn raw).expectedSeq = lfn.expectedSeq := by
    unfold lfnPush
    split <;> rfl
  rw [after, if_pos slot.2, afterSlot, if_neg (not_not.mpr plain)]
  grind [seq_plain]

theorem LfnState.after_other (lfn : LfnState) (running : raw 0 ≠ 0) (other : ¬ IsSlot raw) :
    (lfn.after raw).valid = false := by
  rw [after, if_neg fun slot => other ⟨running, slot⟩]
  rfl

/-- Slots that follow each other leave their units in the state, whatever it was before. -/
theorem Collects.holds (collects : Collects slots left) (few : slots.length ≤ 20) (lfn : LfnState) :
    (lfn.behind slots).Holds slots left := by
  induction collects with
  | @first raw left slot flag number =>
    have small : (1 : UInt8) ≤ raw 0 &&& 0xBF := by
      rw [UInt8.le_iff_toNat_le, number]
      simp
    rw [LfnState.behind_cons, LfnState.behind_nil, lfn.after_flag slot flag]
    refine ⟨rfl, ?_, by simp, rfl⟩
    grind [UInt8.toNat_sub_of_le]
  | @next raw slots left earlier slot plain number ih =>
    rw [List.length_append, List.length_singleton] at few
    have held := ih (by omega)
    rw [LfnState.behind_append, LfnState.behind_cons, LfnState.behind_nil]
    generalize lfn.behind slots = state at held ⊢
    have same : raw 0 = state.expectedSeq := UInt8.toNat_inj.mp (number.trans held.expected.symm)
    have small : (1 : UInt8) ≤ raw 0 := by
      rw [UInt8.le_iff_toNat_le, number]
      simp
    have room : ¬ 20 * 13 < state.chars.length + 13 := by
      rw [held.chars, units_length]
      omega
    rw [state.after_plain slot plain, if_pos ⟨held.valid, same⟩, lfnPush, if_neg room]
    refine ⟨held.valid, ?_, ?_, ?_⟩
    · grind [UInt8.toNat_sub_of_le]
    · rw [held.chars, List.reverse_append, List.reverse_singleton, List.singleton_append, List.flatMap_cons]
    grind [LfnState.Holds.checksum]

/-- What a valid state holds: the slots right before, or the slot number 0, which leads nowhere. -/
theorem LfnState.valid_cases (running : ∀ raw ∈ before, raw 0 ≠ 0)
    (valid : (LfnState.initial.behind before).valid = true) :
    (∃ front slots left, before = front ++ slots ∧ Collects slots left ∧ slots.length ≤ 20) ∨
      (LfnState.initial.behind before).expectedSeq = 255 := by
  induction before using List.reverseRecOn with
  | nil => cases valid
  | append_singleton before raw ih =>
    have present := running raw (by simp)
    have ih := ih fun other member => running other (by simp [member])
    rw [behind_append, behind_cons, behind_nil] at valid ⊢
    by_cases slot : IsSlot raw
    swap
    · grind [after_other]
    by_cases flag : raw 0 &&& 0x40 ≠ 0
    · by_cases zero : raw 0 &&& 0xBF = 0
      · grind [after_flag]
      · have positive : (raw 0 &&& 0xBF).toNat ≠ 0 := fun same => zero (UInt8.toNat_inj.mp same)
        exact .inl ⟨before, [raw], _, rfl, .first slot flag (Nat.succ_pred_eq_of_ne_zero positive).symm, by simp⟩
    rw [not_not] at flag
    rw [after_plain _ slot flag] at valid
    by_cases going : (initial.behind before).valid = true ∧ raw 0 = (initial.behind before).expectedSeq
    swap
    · grind
    rcases ih going.1 with ⟨front, slots, left, rfl, collects, few⟩ | wrapped
    · have held := collects.holds few (initial.behind front)
      rw [← behind_append] at held
      have number : (raw 0).toNat = left := by
        rw [going.2]
        exact held.expected
      have positive : left ≠ 0 := by
        rintro rfl
        exact present (UInt8.toNat_inj.mp number)
      have room : slots.length + 1 ≤ 20 := by
        by_contra many
        rw [if_pos going, lfnPush, if_pos (by rw [held.chars, units_length]; omega)] at valid
        cases valid
      obtain ⟨less, rfl⟩ : ∃ less, left = less + 1 := ⟨left - 1, by omega⟩
      exact .inl ⟨front, slots ++ [raw], less, by simp, collects.next slot flag number, by simpa using room⟩
    grind

end Machine

/-- Slots numbered `n` with the flag `0x40`, `n - 1`, ..., `1`. -/
structure SlotGroup (n : Nat) (slots : List Bytes) : Prop where
  length : slots.length = n
  some' : 1 ≤ n
  few : n ≤ 20
  numbered : ∀ i raw, slots[i]? = some raw → IsSlot raw ∧ (raw 0).toNat = if i = 0 then 0x40 + n else n - i

/-- The `n` entries right before are such slots. -/
def SlotsBefore (before : List Bytes) (n : Nat) (slots : List Bytes) : Prop := slots <:+ before ∧ SlotGroup n slots

section Groups

variable {slots before : List Bytes} {n left : Nat} {raw : Bytes}

theorem Collects.numbered (collects : Collects slots left) {i : Nat} (found : slots[i]? = some raw) :
    IsSlot raw ∧ if i = 0 then (raw 0).toNat = 0x40 + (slots.length + left) else (raw 0).toNat + i = slots.length + left := by
  induction collects generalizing i with
  | first slot flag number =>
    cases i with
    | zero =>
      cases found
      refine ⟨slot, ?_⟩
      rw [if_pos rfl, seq_flag flag, number, List.length_singleton]
      omega
    | succ i => cases found
  | @next last slots left earlier slot plain number ih =>
    rw [List.getElem?_append] at found
    split at found
    · grind
    · have some' : slots.length ≠ 0 := by cases earlier <;> simp
      grind

theorem Collects.group (collects : Collects slots 0) (few : slots.length ≤ 20) : SlotGroup slots.length slots := by
  refine ⟨rfl, ?_, few, ?_⟩
  · cases collects <;> simp
  grind [numbered]

private theorem seq_first (few : n ≤ 20) (number : x.toNat = 0x40 + n) :
    x &&& 0x40 ≠ 0 ∧ (x &&& 0xBF).toNat = n := by
  have all : ∀ n ≤ 20, UInt8.ofNat (0x40 + n) &&& 0x40 ≠ 0 ∧ (UInt8.ofNat (0x40 + n) &&& 0xBF).toNat = n := by decide
  grind [UInt8.ofNat_toNat]

private theorem seq_later (few : x.toNat < 20) : x &&& 0x40 = 0 := by
  have all : ∀ n < 20, UInt8.ofNat n &&& 0x40 = 0 := by decide
  grind [UInt8.ofNat_toNat]

theorem SlotGroup.collects (group : SlotGroup n slots) : Collects slots 0 := by
  have initial : ∀ k < n, Collects (slots.take (k + 1)) (n - 1 - k) := by
    intro k below
    have few := group.few
    have inside : k < slots.length := by rw [group.length]; exact below
    obtain ⟨slot, number⟩ := group.numbered k _ (List.getElem?_eq_getElem inside)
    induction k with
    | zero =>
      obtain ⟨flag, first⟩ := seq_first few number
      rw [List.take_add_one, List.getElem?_eq_getElem inside]
      exact .first slot flag (first.trans (by omega))
    | succ k ih =>
      obtain ⟨slot', number'⟩ := group.numbered k _ (List.getElem?_eq_getElem (by omega))
      rw [if_neg (Nat.succ_ne_zero k)] at number
      rw [List.take_add_one, List.getElem?_eq_getElem inside]
      refine Collects.next ?_ slot (seq_later (by omega)) (number.trans (by omega))
      grind
  have positive := group.some'
  have all := initial (n - 1) (by omega)
  rw [Nat.sub_add_cancel positive, Nat.sub_self, ← group.length, List.take_length] at all
  exact all

/-- The state behind a group of slots. -/
theorem SlotsBefore.holds (slotsBefore : SlotsBefore before n slots) (lfn : LfnState) :
    (lfn.behind before).Holds slots 0 := by
  obtain ⟨⟨front, rfl⟩, group⟩ := slotsBefore
  rw [LfnState.behind_append]
  exact group.collects.holds (group.length.trans_le group.few) _

/-- Of which slots the long name is made, if it is used. -/
theorem usedLfn_iff (running : ∀ earlier ∈ before, earlier 0 ≠ 0) :
    (LfnState.initial.behind before).usedLfn raw = true ↔
      ∃ n slots, SlotsBefore before n slots ∧ slots.head?.map (· 13) = some (lfnChecksum raw) := by
  simp only [LfnState.usedLfn, Bool.and_eq_true, decide_eq_true_eq, beq_iff_eq]
  constructor
  · rintro ⟨⟨⟨valid, -⟩, zero⟩, checksum⟩
    rcases LfnState.valid_cases running valid with ⟨front, slots, left, rfl, collects, few⟩ | wrapped
    · have held := collects.holds few (LfnState.initial.behind front)
      rw [← LfnState.behind_append] at held
      have none' : left = 0 := by
        rw [← held.expected, zero]
        rfl
      subst none'
      exact ⟨_, slots, ⟨⟨front, rfl⟩, collects.group few⟩, by rw [held.checksum, checksum]⟩
    grind
  · rintro ⟨n, slots, slotsBefore, checksum⟩
    have held := slotsBefore.holds .initial
    have some' := slotsBefore.2.some'
    refine ⟨⟨⟨held.valid, ?_⟩, UInt8.toNat_inj.mp held.expected⟩, ?_⟩
    · rw [held.chars, units_length, slotsBefore.2.length]
      omega
    · exact Option.some.inj (checksum.symm.trans held.checksum)

/-- At most one group of slots stands right before an entry. -/
theorem SlotsBefore.unique {m : Nat} {others : List Bytes} (first : SlotsBefore before n slots)
    (second : SlotsBefore before m others) : slots = others := by
  have chars := (first.holds .initial).chars.symm.trans (second.holds .initial).chars
  have length := congrArg List.length chars
  rw [units_length, units_length] at length
  obtain ⟨front, rfl⟩ := first.1
  obtain ⟨front', same⟩ := second.1
  exact (List.append_inj' same (by omega)).2.symm

end Groups

section Scans

variable {maxEntries : Nat} {raw : Bytes} {raws first second : List Bytes} {lfn lfn' : LfnState} {out out' : List Fat32Dirent}

theorem iterDirEntries_append {σ : Type} {cb : Fat32Dirent → σ → Int × σ} {ctx : σ} :
    iterDirEntries cb (first ++ second) lfn ctx = match iterDirEntries cb first lfn ctx with
      | .ok (none, lfn, ctx) => iterDirEntries cb second lfn ctx
      | ended => ended := by
  induction first generalizing lfn ctx with
  | nil => rfl
  | cons raw rest ih =>
    grind [iterDirEntries_cons]

/-- The scanners go on from an entry with the state behind it. -/
theorem entryKind_after (running : raw 0 ≠ 0) :
    entryKind lfn raw = .skip (lfn.after raw) ∨ entryKind lfn raw = .overrun (lfn.after raw) ∨
      ∃ d, entryKind lfn raw = .entry d (lfn.after raw) := by
  grind [entryKind_short, entryKind_skip]

theorem processDirEntries_behind (done : processDirEntries maxEntries raws lfn out = .ok (false, lfn', out')) :
    lfn' = lfn.behind raws := by
  induction raws generalizing lfn out with
  | nil =>
    cases done
    rfl
  | cons raw rest ih =>
    rw [processDirEntries_cons] at done
    by_cases running : raw 0 = 0
    · rw [entryKind_marker.mpr running] at done
      cases done
    grind [LfnState.behind_cons, entryKind_after]

theorem iterDirEntries_behind {σ : Type} {cb : Fat32Dirent → σ → Int × σ} {ctx ctx' : σ}
    (done : iterDirEntries cb raws lfn ctx = .ok (none, lfn', ctx')) : lfn' = lfn.behind raws := by
  induction raws generalizing lfn ctx with
  | nil =>
    cases done
    rfl
  | cons raw rest ih =>
    rw [iterDirEntries_cons] at done
    by_cases running : raw 0 = 0
    · rw [entryKind_marker.mpr running] at done
      cases done
    grind [LfnState.behind_cons, entryKind_after]

end Scans

/-- Both scanners report the 8.3 entry behind the entries `before` of a directory under the name. -/
structure Reports (before : List Bytes) (raw : Bytes) (name : Except FsFault (List UInt8)) : Prop where
  process : ∀ maxEntries lfn out, processDirEntries maxEntries before .initial [] = .ok (false, lfn, out) →
    out.length < maxEntries → processDirEntries maxEntries (before ++ [raw]) .initial [] =
      name.map fun name => (false, lfn.after raw, out ++ [.ofRaw raw name])
  iterate : ∀ (σ : Type) (cb : Fat32Dirent → σ → Int × σ) ctx lfn ctx',
    iterDirEntries cb before .initial ctx = .ok (none, lfn, ctx') → iterDirEntries cb (before ++ [raw]) .initial ctx =
      name.map fun name => ((feed cb [.ofRaw raw name] ctx').1, lfn.after raw, (feed cb [.ofRaw raw name] ctx').2)

theorem entryName_error {lfn : LfnState} {fault : FsFault} (failed : entryName lfn raw = .error fault) :
    fault = .nameOverrun := by
  grind [entryName_eq, utf16leToUtf8_error]

theorem reports_entryName (before : List Bytes) (short : IsShort raw) :
    Reports before raw (entryName (LfnState.initial.behind before) raw) where
  process := by
    intro maxEntries lfn out done room
    rw [processDirEntries_append, done, ← processDirEntries_behind done]
    dsimp only
    rw [processDirEntries_cons, entryKind_short short]
    cases named : entryName lfn raw with
    | error fault =>
      simp only [if_neg (Nat.not_le.mpr room)]
      rw [entryName_error named]
      rfl
    | ok name =>
      simp only [if_neg (Nat.not_le.mpr room)]
      rfl
  iterate := by
    intro σ cb ctx lfn ctx' done
    rw [iterDirEntries_append, done, ← iterDirEntries_behind done]
    dsimp only
    rw [iterDirEntries_cons, entryKind_short short]
    cases named : entryName lfn raw with
    | error fault =>
      rw [entryName_error named]
      rfl
    | ok name =>
      simp only [feed, iterDirEntries, Except.map]
      grind

/-- The long name is used exactly for `n` slots right before that all carry the checksum of the
8.3 name. -/
def LongNameExact (before : List Bytes) (raw : Bytes) : Prop :=
  (LfnState.initial.behind before).usedLfn raw = true ↔
    ∃ n slots, SlotsBefore before n slots ∧ ∀ slot ∈ slots, slot 13 = lfnChecksum raw

/-- The slots right before an entry carry the checksum of its name, if the first of them does. -/
def SlotsAgree (before : List Bytes) (raw : Bytes) : Prop :=
  ∀ n slots, SlotsBefore before n slots → slots.head?.map (· 13) = some (lfnChecksum raw) →
    ∀ slot ∈ slots, slot 13 = lfnChecksum raw

/-- The scanners use the long name exactly for its own entry iff the slots before the entry agree on
their checksum; otherwise they use the 8.3 name. -/
theorem long_name_exact_iff {before : List Bytes} {raw : Bytes} (running : ∀ earlier ∈ before, earlier 0 ≠ 0)
    (short : IsShort raw) :
    Reports before raw (if (LfnState.initial.behind before).usedLfn raw then
      utf16leToUtf8 (LfnState.initial.behind before).chars else .ok (build83Name raw)) ∧
    (LongNameExact before raw ↔ SlotsAgree before raw) := by
  refine ⟨reports_entryName before short, ?_⟩
  unfold LongNameExact
  rw [usedLfn_iff running]
  constructor
  · intro exact' n slots slotsBefore first
    grind [SlotsBefore.unique]
  · intro agree
    constructor
    · rintro ⟨n, slots, slotsBefore, first⟩
      exact ⟨n, slots, slotsBefore, agree n slots slotsBefore first⟩
    · rintro ⟨n, slots, slotsBefore, all⟩
      refine ⟨n, slots, slotsBefore, ?_⟩
      cases slots with
      | nil => exact absurd slotsBefore.2.length (Nat.ne_of_lt slotsBefore.2.some')
      | cons head rest => exact congrArg some (all head List.mem_cons_self)

/-- A slot with its number, checksum and code units. -/
def slotEntry (seq checksum : UInt8) (units : List Nat) : Bytes := fun j =>
  if j = 0 then seq
  else if j = 11 then fatAttrLfn
  else if j = 13 then checksum
  else
    match [1, 3, 5, 7, 9, 14, 16, 18, 20, 22, 24, 28, 30].findIdx? (fun offset => offset == j || offset + 1 == j) with
    | none => 0
    | some k => if [1, 3, 5, 7, 9, 14, 16, 18, 20, 22, 24, 28, 30].contains j then UInt8.ofNat (units.getD k 0)
      else UInt8.ofNat (units.getD k 0 / 256)

def oneFileEntry : Bytes := fun j => (oneFile.lookup j).getD 0

/-- The slots of a name of 14 letters `z`, with the checksums given. -/
def twoSlots (first second : UInt8) : List Bytes :=
  [slotEntry 0x42 first (0x7A :: 0 :: List.replicate 11 0xFFFF), slotEntry 0x01 second (List.replicate 13 0x7A)]

theorem twoSlots_group (first second : UInt8) : SlotsBefore (twoSlots first second) 2 (twoSlots first second) := by
  refine ⟨List.suffix_rfl, rfl, by decide, by decide, ?_⟩
  rintro (_ | _ | i) raw found
  · cases found
    exact ⟨⟨by simp [slotEntry], by simp [slotEntry], rfl⟩, rfl⟩
  · cases found
    exact ⟨⟨by simp [slotEntry], by simp [slotEntry], rfl⟩, rfl⟩
  · cases found

theorem long_name_exact_file :
    LongNameExact (twoSlots (lfnChecksum oneFileEntry) (lfnChecksum oneFileEntry)) oneFileEntry := by
  refine (long_name_exact_iff (by decide) (by decide)).2.mpr ?_
  intro n slots slotsBefore _
  rw [slotsBefore.unique (twoSlots_group _ _)]
  decide +kernel

/-- The second slot carries another checksum, and its part of the name is reported all the same. -/
theorem long_name_of_another_file :
    ¬ LongNameExact (twoSlots (lfnChecksum oneFileEntry) (lfnChecksum oneFileEntry + 1)) oneFileEntry ∧
      (processDirEntries 1 (twoSlots (lfnChecksum oneFileEntry) (lfnChecksum oneFileEntry + 1) ++ [oneFileEntry])
        .initial []).toOption.map (fun result => result.2.2.map Fat32Dirent.name) = some [List.replicate 14 0x7A] := by
  refine ⟨?_, by decide +kernel⟩
  intro exact'
  obtain ⟨n, slots, slotsBefore, all⟩ := exact'.mp (by decide +kernel)
  rw [slotsBefore.unique (twoSlots_group _ _)] at all
  exact absurd (all _ (List.mem_cons_of_mem _ List.mem_cons_self)) (by decide +kernel)

end Velox
