import Velox.Fs.GptInit

namespace Velox

open Lib (Bytes le32)

variable {place' : Nat → Nat}

/-- The buffer of `gpt_init` for the entries. -/
abbrev entryRoom : Nat := 512 * 32

/-- The type of the entry is zero. -/
def EntryVoid (buf : Bytes) (offset : Nat) : Prop := ∀ b < 16, buf (offset + b) = 0

instance decidableEntryVoid (buf : Bytes) (offset : Nat) : Decidable (EntryVoid buf offset) :=
  inferInstanceAs (Decidable (∀ b < 16, buf (offset + b) = 0))

/-- A UTF-16 unit of the name at an offset. -/
def nameUnit (buf : Bytes) (offset i : Nat) : Nat :=
  (buf (offset + 2 * i)).toNat + 2 ^ 8 * (buf (offset + 2 * i + 1)).toNat

/-- The character that `guid_to_utf8` makes of a unit. -/
def nameChar (buf : Bytes) (offset i : Nat) : UInt8 :=
  if nameUnit buf offset i < 0x80 then buf (offset + 2 * i) else 0x3F

/-- A zero unit ends the name before it leaves the buffer, or there is room for all 71 units
that `guid_to_utf8` may read. -/
def NameEnds (buf : Bytes) (offset : Nat) : Prop :=
  offset + 2 * 71 ≤ entryRoom ∨ ∃ k < 71, nameUnit buf offset k = 0 ∧ offset + 2 * k + 2 ≤ entryRoom

/-- What `gpt_init` reads of an entry lies in the buffer: the type of every entry, and of one
that is not empty the fields and the units of the name. -/
def EntryInside (buf : Bytes) (offset : Nat) : Prop :=
  offset + 16 ≤ entryRoom ∧ (¬ EntryVoid buf offset → NameEnds buf (offset + 56))

/-- The bytes of an entry, as a number. -/
def entryWord (buf : Bytes) (offset : Nat) : Nat :=
  ((List.range 8).map fun i => buf (offset + i)).foldr (fun byte rest => byte.toNat + 2 ^ 8 * rest) 0

/-- The record without its name. -/
def GptRecord.unnamed (record : GptRecord) : GptRecord := { record with name := fun _ => 0 }

/-- The fields of the entry at an offset, but for the name. -/
def entryRecord (buf : Bytes) (offset : Nat) : GptRecord where
  typeGuid := (List.range 16).map fun i => buf (offset + i)
  uniqueGuid := (List.range 16).map fun i => buf (offset + 16 + i)
  startLba := entryWord buf (offset + 32)
  endLba := entryWord buf (offset + 40)
  numSectors := (entryWord buf (offset + 40) + 2 ^ 64 - entryWord buf (offset + 32) + 1) % 2 ^ 64
  attributes := entryWord buf (offset + 48)
  name := fun _ => 0

/-- The name after `guid_to_utf8`: the characters before the first zero unit, behind them what
was there, and a zero at the end. -/
def NameCopied (buf : Bytes) (offset : Nat) (old name : Bytes) : Prop :=
  ∃ length ≤ 71, (∀ k < length, nameUnit buf offset k ≠ 0) ∧ (length < 71 → nameUnit buf offset length = 0) ∧
    name 71 = 0 ∧ ∀ j ≠ 71, name j = if j < length then nameChar buf offset j else old j

/-- The record of an entry in a slot that held a name before. -/
structure RecordOf (buf : Bytes) (offset : Nat) (old : Bytes) (record : GptRecord) : Prop where
  fields : record.unnamed = entryRecord buf offset
  name : NameCopied buf (offset + 56) old record.name

section Reads

variable {buf out name : Bytes} {offset count left i : Nat}

theorem entryByte_eq (inside : offset < entryRoom) : entryByte buf offset = .ok (buf offset) := if_pos inside

theorem entryByte_ok {byte : UInt8} (done : entryByte buf offset = .ok byte) : offset < entryRoom ∧ byte = buf offset := by
  unfold entryByte at done
  grind

theorem entryBytes_eq (inside : offset + count ≤ entryRoom) :
    entryBytes buf offset count = .ok ((List.range count).map fun i => buf (offset + i)) := by
  refine Lib.mapM_eq fun i member => entryByte_eq ?_
  grind

theorem entryBytes_inside {bytes : List UInt8} (done : entryBytes buf offset (count + 1) = .ok bytes) :
    offset + (count + 1) ≤ entryRoom := by
  obtain ⟨byte, read⟩ := Lib.mapM_ok done count (List.mem_range.mpr (Nat.lt_succ_self _))
  have inside := (entryByte_ok read).1
  omega

theorem entry64_eq (inside : offset + 8 ≤ entryRoom) : entry64 buf offset = .ok (entryWord buf offset) := by
  rw [entry64, Lib.bind_of_ok (entryBytes_eq inside)]
  rfl

theorem entryEmpty_eq (inside : offset + left ≤ entryRoom) :
    entryEmpty buf left offset = .ok (decide (∀ b < left, buf (offset + b) = 0)) := by
  induction left generalizing offset with
  | zero => simp [entryEmpty]
  | succ left ih =>
    rw [entryEmpty, Lib.bind_of_ok (entryByte_eq (by omega))]
    by_cases zero : buf offset = 0
    · rw [if_neg (not_not.mpr zero), ih (by omega)]
      simp only [Nat.forall_lt_succ_left, Nat.add_zero, zero, true_and, Nat.add_assoc, Nat.add_comm 1]
    · rw [if_pos zero]
      have proper : ¬ ∀ b < left + 1, buf (offset + b) = 0 := fun all => zero (all 0 (Nat.succ_pos _))
      rw [decide_eq_false proper]
      rfl

theorem entryEmpty_inside (some' : 0 < left) (done : entryEmpty buf left offset = .ok true) :
    offset + left ≤ entryRoom := by
  induction left generalizing offset with
  | zero => omega
  | succ left ih =>
    obtain ⟨byte, read, onward⟩ := Lib.bind_ok done
    have inside := (entryByte_ok read).1
    split at onward
    · cases onward
    grind

/-- The loop of `guid_to_utf8` that ended, and what it read. -/
theorem guidToUtf8From_ok (done : guidToUtf8From buf offset left i out = .ok name) :
    ∃ length ≤ left, (∀ k, i ≤ k → k < i + length → nameUnit buf offset k ≠ 0) ∧
      (length < left → nameUnit buf offset (i + length) = 0 ∧ offset + 2 * (i + length) + 2 ≤ entryRoom) ∧
      (0 < length → offset + 2 * (i + length) ≤ entryRoom) ∧
      ∀ j, name j = if i ≤ j ∧ j < i + length then nameChar buf offset j else out j := by
  induction left generalizing i out with
  | zero =>
    cases done
    grind
  | succ left ih =>
    obtain ⟨low, read, done⟩ := Lib.bind_ok done
    obtain ⟨high, read', done⟩ := Lib.bind_ok done
    obtain ⟨-, rfl⟩ := entryByte_ok read
    obtain ⟨inside, rfl⟩ := entryByte_ok read'
    dsimp only at done
    split at done
    · rename_i zero
      cases done
      exact ⟨0, Nat.zero_le _, by omega, fun _ => ⟨zero, by omega⟩, by omega, fun j => (if_neg (by omega)).symm⟩
    · rename_i proper
      obtain ⟨length, short, units, stops, reads, copied⟩ := ih done
      refine ⟨length + 1, by omega, ?_, ?_, ?_, ?_⟩
      · intro k low high
        by_cases first : k = i
        · exact first ▸ proper
        grind
      · grind
      · omega
      · intro j
        rw [copied]
        by_cases first : j = i
        · subst first
          have first : ¬ (j + 1 ≤ j ∧ j < j + 1 + length) := by omega
          have here : j ≤ j ∧ j < j + (length + 1) := by omega
          rw [if_neg first, if_pos here, Function.update_self]
          rfl
        grind

/-- The loop of `guid_to_utf8` ends if a zero unit comes in time or there is room for all. -/
theorem guidToUtf8From_total (ends : offset + 2 * (i + left) ≤ entryRoom ∨
      ∃ k, i ≤ k ∧ k < i + left ∧ nameUnit buf offset k = 0 ∧ offset + 2 * k + 2 ≤ entryRoom) :
    ∃ name, guidToUtf8From buf offset left i out = .ok name := by
  induction left generalizing i out with
  | zero => exact ⟨out, rfl⟩
  | succ left ih =>
    have inside : offset + 2 * i + 1 < entryRoom := by
      omega
    rw [guidToUtf8From, Lib.bind_of_ok (entryByte_eq (by omega)), Lib.bind_of_ok (entryByte_eq inside)]
    dsimp only
    split
    · exact ⟨out, rfl⟩
    · rename_i proper
      refine ih ?_
      rcases ends with room | ⟨k, low, high, zero, inside'⟩
      · exact .inl (by omega)
      · refine .inr ⟨k, ?_, by omega, zero, inside'⟩
        rcases Nat.eq_or_lt_of_le low with rfl | more
        · exact absurd zero proper
        · exact more

theorem guidToUtf8_ok (done : guidToUtf8 buf offset 72 out = .ok name) :
    NameEnds buf offset ∧ NameCopied buf offset out name := by
  obtain ⟨copied, looped, done⟩ := Lib.bind_ok done
  cases done
  obtain ⟨length, short, units, stops, reads, bytes⟩ := guidToUtf8From_ok looped
  simp only [Nat.zero_add] at stops reads
  constructor
  · rcases Nat.lt_or_ge length 71 with stopped | whole
    · exact .inr ⟨length, stopped, (stops stopped).1, (stops stopped).2⟩
    · exact .inl (by omega)
  · refine ⟨length, short, fun k below => units k (Nat.zero_le _) (by omega), fun shorter => (stops shorter).1,
      Function.update_self _ _ _, ?_⟩
    grind

theorem guidToUtf8_total (ends : NameEnds buf offset) (out : Bytes) : ∃ name, guidToUtf8 buf offset 72 out = .ok name := by
  have ends' : offset + 2 * (0 + 71) ≤ entryRoom ∨ ∃ k, 0 ≤ k ∧ k < 0 + 71 ∧ nameUnit buf offset k = 0 ∧
      offset + 2 * k + 2 ≤ entryRoom := by
    rcases ends with room | ⟨k, below, zero, inside⟩
    · exact .inl (by omega)
    grind
  obtain ⟨name, done⟩ : ∃ name, guidToUtf8From buf offset 71 0 out = .ok name := guidToUtf8From_total ends'
  exact ⟨_, Lib.bind_of_ok done⟩

end Reads

section Entries

variable {buf : Bytes} {s t : Gpt} {offset : Nat}

theorem NameEnds.fields (ends : NameEnds buf (offset + 56)) : offset + 56 ≤ entryRoom := by
  rcases ends with room | ⟨k, -, -, inside⟩ <;> omega

theorem gptEntry_void (typed : offset + 16 ≤ entryRoom) (void : EntryVoid buf offset) : gptEntry buf s offset = .ok s := by
  have tested : entryEmpty buf 16 offset = .ok (decide (EntryVoid buf offset)) := entryEmpty_eq typed
  unfold gptEntry
  rw [Lib.bind_of_ok tested, if_pos (decide_eq_true void)]
  rfl

/-- The part of a pass behind the test for an empty entry. -/
theorem gptEntry_occupied (typed : offset + 16 ≤ entryRoom) (occupied : ¬ EntryVoid buf offset) :
    gptEntry buf s offset = if 128 ≤ s.count then .error .tableOverrun else do
      let uniqueGuid ← entryBytes buf (offset + 16) 16
      let startLba ← entry64 buf (offset + 32)
      let endLba ← entry64 buf (offset + 40)
      let attributes ← entry64 buf (offset + 48)
      let name ← guidToUtf8 buf (offset + 56) 72 (s.partitions s.count).name
      let record := {
        typeGuid := (List.range 16).map fun i => buf (offset + i)
        uniqueGuid := uniqueGuid
        startLba := startLba
        endLba := endLba
        numSectors := (endLba + 2 ^ 64 - startLba + 1) % 2 ^ 64
        attributes := attributes
        name := name }
      return ⟨Function.update s.partitions s.count record, s.count + 1⟩ := by
  have tested : entryEmpty buf 16 offset = .ok (decide (EntryVoid buf offset)) := entryEmpty_eq typed
  unfold gptEntry
  rw [Lib.bind_of_ok tested, if_neg (by simp [occupied])]
  split
  · rfl
  · exact Lib.bind_of_ok (entryBytes_eq typed)

/-- A pass that succeeds has read the whole type. -/
theorem gptEntry_typed (done : gptEntry buf s offset = .ok t) : offset + 16 ≤ entryRoom := by
  obtain ⟨empty, tested, onward⟩ := Lib.bind_ok done
  cases empty with
  | true => exact entryEmpty_inside (by decide) tested
  | false =>
    rw [if_neg Bool.false_ne_true] at onward
    split at onward
    · cases onward
    · obtain ⟨typeGuid, read, -⟩ := Lib.bind_ok onward
      exact entryBytes_inside read

/-- What a pass of the loop that succeeds found in the entry and made of it. -/
theorem gptEntry_cases (done : gptEntry buf s offset = .ok t) : EntryInside buf offset ∧
    ((EntryVoid buf offset ∧ t = s) ∨ (¬ EntryVoid buf offset ∧ s.count < 128 ∧ ∃ record,
      RecordOf buf offset (s.partitions s.count).name record ∧
      t = ⟨Function.update s.partitions s.count record, s.count + 1⟩)) := by
  have typed := gptEntry_typed done
  by_cases void : EntryVoid buf offset
  · rw [gptEntry_void typed void] at done
    cases done
    exact ⟨⟨typed, fun occupied => absurd void occupied⟩, .inl ⟨void, rfl⟩⟩
  · rw [gptEntry_occupied typed void] at done
    split at done
    · cases done
    obtain ⟨uniqueGuid, unique, done⟩ := Lib.bind_ok done
    obtain ⟨startLba, start, done⟩ := Lib.bind_ok done
    obtain ⟨endLba, last, done⟩ := Lib.bind_ok done
    obtain ⟨attributes, attributed, done⟩ := Lib.bind_ok done
    obtain ⟨name, named, done⟩ := Lib.bind_ok done
    obtain ⟨ends, copied⟩ := guidToUtf8_ok named
    have fields := ends.fields
    rw [entryBytes_eq (by omega), Except.ok.injEq] at unique
    rw [entry64_eq (by omega), Except.ok.injEq] at start last attributed
    subst unique start last attributed
    refine ⟨⟨typed, fun _ => ends⟩, .inr ⟨void, by omega, _, ⟨?_, copied⟩, (Except.ok.inj done).symm⟩⟩
    rfl

/-- A pass succeeds on an entry inside the buffer, as long as there is room in the table. -/
theorem gptEntry_total (inside : EntryInside buf offset) (room : ¬ EntryVoid buf offset → s.count < 128) :
    ∃ t, gptEntry buf s offset = .ok t := by
  obtain ⟨typed, ends⟩ := inside
  by_cases void : EntryVoid buf offset
  · exact ⟨s, gptEntry_void typed void⟩
  · have fields := (ends void).fields
    have stored := room void
    obtain ⟨name, named⟩ := guidToUtf8_total (ends void) (s.partitions s.count).name
    rw [gptEntry_occupied typed void, if_neg (by omega), Lib.bind_of_ok (entryBytes_eq (by omega)),
      Lib.bind_of_ok (entry64_eq (by omega)), Lib.bind_of_ok (entry64_eq (by omega)),
      Lib.bind_of_ok (entry64_eq (by omega)), Lib.bind_of_ok named]
    exact ⟨_, rfl⟩

end Entries

/-- The entries that are not empty, in their order. -/
def occupied (buf : Bytes) (place : Nat → Nat) (entries : List Nat) : List Nat :=
  entries.filter fun i => ¬ EntryVoid buf (place i)

/-- The table after some of the entries: a record for each that is not empty. -/
structure TableSoFar (buf : Bytes) (place : Nat → Nat) (s : Gpt) (passed : List Nat) (t : Gpt) : Prop where
  inside : ∀ i ∈ passed, EntryInside buf (place i)
  count : t.count = (occupied buf place passed).length
  bounded : t.count ≤ 128
  stored : ∀ k i, (occupied buf place passed)[k]? = some i →
    RecordOf buf (place i) (s.partitions k).name (t.partitions k)
  fresh : ∀ k, t.count ≤ k → t.partitions k = s.partitions k

section Table

variable {buf : Bytes} {place : Nat → Nat} {s t u : Gpt} {passed entries : List Nat} {i : Nat}

theorem TableSoFar.start (s : Gpt) : TableSoFar buf place s [] { s with count := 0 } :=
  ⟨by simp, rfl, by simp, by simp [occupied], fun _ _ => rfl⟩

theorem TableSoFar.extend (table : TableSoFar buf place s passed t) (done : gptEntry buf t (place i) = .ok u) :
    TableSoFar buf place s (passed ++ [i]) u := by
  obtain ⟨inside, count, bounded, stored, fresh⟩ := table
  obtain ⟨inside', result⟩ := gptEntry_cases done
  have all : ∀ j ∈ passed ++ [i], EntryInside buf (place j) := by
    grind
  rcases result with ⟨void, rfl⟩ | ⟨proper, room, record, made, rfl⟩
  · have same : occupied buf place (passed ++ [i]) = occupied buf place passed := by
      simp [occupied, void]
    rw [← same] at count stored
    exact ⟨all, count, bounded, stored, fresh⟩
  · have longer : occupied buf place (passed ++ [i]) = occupied buf place passed ++ [i] := by
      simp [occupied, proper]
    refine ⟨all, ?_, room, ?_, ?_⟩
    · grind
    · grind
    grind

theorem mem_occupied (found : i ∈ occupied buf place entries) : i ∈ entries ∧ ¬ EntryVoid buf (place i) := by
  simpa [occupied] using found

theorem occupied_congr (same : ∀ i ∈ entries, place' i = place i) :
    occupied buf place' entries = occupied buf place entries :=
  List.filter_congr fun i member => by rw [same i member]

/-- Only the places of the entries that were passed matter. -/
theorem TableSoFar.congr (table : TableSoFar buf place s passed t)
    (same : ∀ i ∈ passed, place' i = place i) : TableSoFar buf place' s passed t := by
  obtain ⟨inside, count, bounded, stored, fresh⟩ := table
  have entries : occupied buf place' passed = occupied buf place passed := occupied_congr same
  refine ⟨fun i member => ?_, entries ▸ count, bounded, fun k i found => ?_, fresh⟩
  · grind
  · rw [entries] at found
    rw [same i (mem_occupied (List.mem_of_getElem? found)).1]
    exact stored k i found

/-- The fields of the table are those of the entries that are not empty. -/
theorem TableSoFar.fields (table : TableSoFar buf place s passed t) :
    (List.range t.count).map (fun k => (t.partitions k).unnamed) =
      (occupied buf place passed).map fun i => entryRecord buf (place i) := by
  refine List.ext_getElem (by simp [table.count]) fun k below below' => ?_
  rw [List.length_map] at below'
  have found := List.getElem?_eq_getElem below'
  simpa using (table.stored k _ found).fields

theorem gptLoop_table (done : entries.foldlM (fun t i => gptEntry buf t (place i)) { s with count := 0 } = .ok t) :
    TableSoFar buf place s entries t :=
  Lib.foldlM_progress (TableSoFar buf place s) (fun _ table passed => table.extend passed) (.start s) done

theorem gptLoop_total (inside : ∀ i ∈ entries, EntryInside buf (place i)) (room : (occupied buf place entries).length ≤ 128) :
    ∃ t, entries.foldlM (fun t i => gptEntry buf t (place i)) { s with count := 0 } = .ok t := by
  refine Lib.foldlM_total (TableSoFar buf place s) ?_ (.start s)
  rintro passed i rest state parts table
  have space : ¬ EntryVoid buf (place i) → state.count < 128 := by
    intro proper
    have split : occupied buf place entries = occupied buf place passed ++ i :: occupied buf place rest := by
      simp [occupied, parts, proper]
    grind [TableSoFar.count]
  grind [gptEntry_total, TableSoFar.extend]

end Table

/-- Where an entry that is read lies below the end of the buffer, no offset has wrapped. -/
theorem offsets_plain {count size : Nat} (word : size < 2 ^ 32) (low : ∀ i < count, i * size % 2 ^ 32 + 16 ≤ entryRoom) :
    ∀ i < count, i * size % 2 ^ 32 = i * size ∧ i * size + 16 ≤ entryRoom := by
  intro i below
  induction i with
  | zero => simp [entryRoom]
  | succ i ih =>
    have first := low 1 (by omega)
    grind

/-- The header and the entries that `gpt_init` reads from a drive. -/
structure GptDisk (drive : AtaDrive) (sector buf : Bytes) : Prop where
  header : virtioBlkRead drive 1 1 (fun _ => 0) = some sector
  signature : (List.range 8).map sector = gptSignature
  entries : virtioBlkRead drive 2 32 (fun _ => 0) = some buf

/-- The number of the entries, by the header. -/
def entryCount (sector : Bytes) : Nat := le32 sector 80

/-- Where an entry lies in the array. -/
def entryPlace (sector : Bytes) (i : Nat) : Nat := i * le32 sector 84

/-- The entries of the array that are not empty and lie in the buffer. -/
def fittingEntries (sector buf : Bytes) : List Nat :=
  (List.range (entryCount sector)).filter fun i =>
    ¬ EntryVoid buf (entryPlace sector i) ∧ entryPlace sector i + 128 ≤ entryRoom

section Init

variable {drive : AtaDrive} {sector buf : Bytes} {s t : Gpt}

theorem GptDisk.gptInit_eq (disk : GptDisk drive sector buf) (s : Gpt) : gptInit s drive =
    ((List.range (entryCount sector)).foldlM (fun s i => gptEntry buf s (entryPlace sector i % 2 ^ 32)) { s with count := 0 } >>=
      fun s => .ok (true, s)) := by
  simp only [gptInit, disk.header, disk.signature, disk.entries, ne_eq, not_true_eq_false, ↓reduceIte]
  rfl

/-- A run that ends has made the table of all entries, at their places in the array. -/
theorem GptDisk.table (disk : GptDisk drive sector buf) (done : gptInit s drive = .ok (true, t)) :
    TableSoFar buf (entryPlace sector) s (List.range (entryCount sector)) t := by
  rw [disk.gptInit_eq] at done
  obtain ⟨u, looped, done⟩ := Lib.bind_ok done
  cases done
  have table : TableSoFar buf (fun i => entryPlace sector i % 2 ^ 32) s _ t := gptLoop_table looped
  have plain := offsets_plain (Lib.le32_lt sector 84) fun i below => (table.inside i (List.mem_range.mpr below)).1
  exact table.congr fun i member => (plain i (List.mem_range.mp member)).1.symm

theorem GptDisk.total (disk : GptDisk drive sector buf)
    (inside : ∀ i < entryCount sector, EntryInside buf (entryPlace sector i))
    (room : (occupied buf (entryPlace sector) (List.range (entryCount sector))).length ≤ 128) (s : Gpt) :
    ∃ t, gptInit s drive = .ok (true, t) := by
  have plain : ∀ i ∈ List.range (entryCount sector), entryPlace sector i % 2 ^ 32 = entryPlace sector i := by
    intro i member
    have low := (inside i (List.mem_range.mp member)).1
    grind
  rw [← occupied_congr plain] at room
  obtain ⟨t, looped⟩ := gptLoop_total (s := s) (fun i member => by
    grind) room
  exact ⟨t, by rw [disk.gptInit_eq, Lib.bind_of_ok looped]⟩

theorem fittingEntries_eq : fittingEntries sector buf =
    (occupied buf (entryPlace sector) (List.range (entryCount sector))).filter fun i =>
      entryPlace sector i + 128 ≤ entryRoom := by
  simp [fittingEntries, occupied, List.filter_filter, and_comm]

end Init

deriving instance DecidableEq for GptFault

instance decidableNameEnds (buf : Bytes) (offset : Nat) : Decidable (NameEnds buf offset) :=
  inferInstanceAs (Decidable (_ ∨ ∃ k < 71, _))

instance decidableEntryInside (buf : Bytes) (offset : Nat) : Decidable (EntryInside buf offset) :=
  inferInstanceAs (Decidable (_ ∧ (_ → _)))

/-- A drive with these numbers in its header and these entries. -/
def gptDrive (count size : UInt8) (entries : Bytes) : AtaDrive where
  ready := true
  completes := fun _ _ => true
  byte := fun i =>
    if 512 ≤ i ∧ i < 520 then gptSignature.getD (i - 512) 0
    else if i = 592 then count
    else if i = 596 then size
    else if 1024 ≤ i then entries (i - 1024)
    else 0

/-- The sectors of such a drive that `gpt_init` reads. -/
def gptSectors (count size : UInt8) (entries : Bytes) (first number : Nat) : Bytes :=
  fun i => if i < 512 * number then (gptDrive count size entries).byte (512 * first + i) else 0

theorem gptDrive_disk (count size : UInt8) (entries : Bytes) :
    GptDisk (gptDrive count size entries) (gptSectors count size entries 1 1) (gptSectors count size entries 2 32) :=
  ⟨rfl, rfl, rfl⟩

/-- One entry, of which only the type is not zero. -/
def oneEntry : Bytes := fun i => if i = 0 then 1 else 0

/-- For every header and every entries `gpt_init` reads and stores inside its buffers, and the
table holds the entries that fit and are not empty in their order, iff the type of every entry of
the array lies in the buffer, every entry that is not empty lies there with the units of its name
up to a zero or the 71st, and no more than 128 are not empty. -/
theorem gpt_inside_iff {drive : AtaDrive} {sector buf : Bytes} (disk : GptDisk drive sector buf) (s : Gpt) :
    (∃ t, gptInit s drive = .ok (true, t) ∧ t.count ≤ 128 ∧
      (List.range t.count).map (fun k => (t.partitions k).unnamed) =
        (fittingEntries sector buf).map fun i => entryRecord buf (entryPlace sector i)) ↔
    (∀ i < entryCount sector, EntryInside buf (entryPlace sector i) ∧
      (¬ EntryVoid buf (entryPlace sector i) → entryPlace sector i + 128 ≤ entryRoom)) ∧
    (occupied buf (entryPlace sector) (List.range (entryCount sector))).length ≤ 128 := by
  constructor
  · rintro ⟨t, done, bounded, stored⟩
    have table := disk.table done
    have lengths := congrArg List.length stored
    rw [List.length_map, List.length_map, List.length_range, table.count, fittingEntries_eq] at lengths
    have fits := List.length_filter_eq_length_iff.mp lengths.symm
    refine ⟨fun i below => ⟨table.inside i (List.mem_range.mpr below), fun proper => ?_⟩, table.count ▸ bounded⟩
    exact of_decide_eq_true (fits i (by simp [occupied, below, proper]))
  · rintro ⟨inside, room⟩
    obtain ⟨t, done⟩ := disk.total (fun i below => (inside i below).1) room s
    have table := disk.table done
    refine ⟨t, done, table.count ▸ room, ?_⟩
    rw [table.fields, fittingEntries_eq, List.filter_eq_self.mpr]
    intro i found
    obtain ⟨member, proper⟩ := mem_occupied found
    grind

theorem gpt_inside_iff_sample : ∃ t, gptInit blankGpt (gptDrive 2 128 oneEntry) = .ok (true, t) ∧ t.count ≤ 128 ∧
    (List.range t.count).map (fun k => (t.partitions k).unnamed) =
      (fittingEntries (gptSectors 2 128 oneEntry 1 1) (gptSectors 2 128 oneEntry 2 32)).map fun i =>
        entryRecord (gptSectors 2 128 oneEntry 2 32) (entryPlace (gptSectors 2 128 oneEntry 1 1) i) :=
  (gpt_inside_iff (gptDrive_disk 2 128 oneEntry) blankGpt).mpr ⟨by decide +kernel, by decide +kernel⟩

/-- With 129 entries of 128 bytes the last one lies behind the buffer. -/
theorem gpt_reads_behind : GptDisk (gptDrive 129 128 oneEntry) (gptSectors 129 128 oneEntry 1 1) (gptSectors 129 128 oneEntry 2 32) ∧
    gptInit blankGpt (gptDrive 129 128 oneEntry) = .error (.entryOverrun 16384) :=
  ⟨gptDrive_disk 129 128 oneEntry, Lib.eq_error_of_fault (by decide +kernel)⟩

end Velox
