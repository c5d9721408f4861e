import Velox.Fs.GptTable

namespace Velox

open Lib (Bytes)

/-- The name as its users read it, up to the first zero. -/
def cName (name : Bytes) : List UInt8 := ((List.range 72).map name).takeWhile (· ≠ 0)

/-- The conversion of the units of an entry's own name field. -/
def ownName (buf : Bytes) (offset : Nat) : List UInt8 :=
  ((List.range 36).takeWhile fun k => nameUnit buf offset k ≠ 0).map (nameChar buf offset)

/-- What the users of a record see of it. -/
def GptRecord.descriptor (record : GptRecord) : GptRecord × List UInt8 := (record.unnamed, cName record.name)

/-- What an entry alone makes a descriptor. -/
def ownDescriptor (buf : Bytes) (offset : Nat) : GptRecord × List UInt8 :=
  (entryRecord buf offset, ownName buf (offset + 56))

/-- The name is followed by a zero, in the entries if it fills its field and in the slot. -/
def NameClosed (buf : Bytes) (offset : Nat) (old : Bytes) : Prop :=
  ((ownName buf offset).length = 36 → nameUnit buf offset 36 = 0) ∧ old (ownName buf offset).length = 0

section Prefixes

variable {α : Type} {bound length : Nat}

/-- Where a predicate stops to hold, below a bound. -/
theorem exists_holds_until (p : Nat → Bool) (bound : Nat) :
    ∃ length ≤ bound, (∀ k < length, p k = true) ∧ (length < bound → p length = false) := by
  induction bound with
  | zero => simp
  | succ bound ih =>
    grind

theorem takeWhile_congr {list : List α} (same : ∀ a ∈ list, p a = q a) : list.takeWhile p = list.takeWhile q := by
  induction list with
  | nil => rfl
  | cons a rest ih =>
    grind [List.takeWhile_cons]

/-- The values before the first one that fails begin with any run of values that hold. -/
theorem takeWhile_range (f : Nat → α) (p : α → Bool) (short : length ≤ bound) (holds : ∀ k < length, p (f k) = true) :
    ∃ rest, ((List.range bound).map f).takeWhile p = (List.range length).map f ++ rest ∧
      ((length < bound → p (f length) = false) → rest = []) := by
  obtain ⟨more, rfl⟩ := Nat.exists_eq_add_of_le short
  rw [List.range_add, List.map_append, List.takeWhile_append_of_pos]
  · refine ⟨_, rfl, fun stops => ?_⟩
    cases more with
    | zero => rfl
    | succ more =>
      rw [List.range_succ_eq_map, List.map_cons, List.map_cons, Nat.add_zero, List.takeWhile_cons_of_neg]
      simp [stops (by omega)]
  grind

end Prefixes

section Names

variable {buf old name : Bytes} {offset : Nat}

theorem nameChar_ne_zero (proper : nameUnit buf offset k ≠ 0) : nameChar buf offset k ≠ 0 := by
  unfold nameChar
  split
  · rename_i ascii
    intro zero
    have low : (buf (offset + 2 * k)).toNat = 0 := by
      rw [zero]
      rfl
    unfold nameUnit at proper ascii
    omega
  · decide

/-- The own name: how far it goes, and its characters. -/
theorem ownName_eq (buf : Bytes) (offset : Nat) : ∃ length ≤ 36, ownName buf offset = (List.range length).map (nameChar buf offset) ∧
    (∀ k < length, nameUnit buf offset k ≠ 0) ∧ (length < 36 → nameUnit buf offset length = 0) := by
  obtain ⟨length, short, holds, stops⟩ := exists_holds_until (fun k => decide (nameUnit buf offset k ≠ 0)) 36
  simp only [decide_eq_true_eq, decide_eq_false_iff_not, not_not] at holds stops
  refine ⟨length, short, ?_, holds, stops⟩
  obtain ⟨rest, parts, ended⟩ := takeWhile_range id (fun k => decide (nameUnit buf offset k ≠ 0)) short
    fun k below => decide_eq_true (holds k below)
  rw [List.map_id, List.map_id] at parts
  rw [ownName, parts, ended fun shorter => by simp [stops shorter], List.append_nil]

/-- The name in a slot is the own name of the entry iff both are closed. -/
theorem NameCopied.own_iff (copied : NameCopied buf offset old name) :
    cName name = ownName buf offset ↔ NameClosed buf offset old := by
  obtain ⟨length, short, own, units, stops⟩ := ownName_eq buf offset
  obtain ⟨reach, bound, units', stops', -, bytes⟩ := copied
  have counted : (ownName buf offset).length = length := by simp [own]
  have chars : ∀ k < length, name k = nameChar buf offset k := by
    grind
  have proper : ∀ k < length, decide (name k ≠ 0) = true := by
    grind [nameChar_ne_zero]
  have same : ownName buf offset = (List.range length).map name := by
    rw [own]
    exact List.map_congr_left fun k member => (chars k (List.mem_range.mp member)).symm
  -- The name is read on behind the own one unless a zero follows there.
  have ended : cName name = ownName buf offset ↔ name length = 0 := by
    obtain ⟨rest, parts, closed⟩ := takeWhile_range name (fun byte => decide (byte ≠ 0)) (show length ≤ 72 by omega) proper
    constructor
    · intro equal
      by_contra more
      obtain ⟨rest', parts', -⟩ := takeWhile_range name (fun byte => decide (byte ≠ 0)) (show length + 1 ≤ 72 by omega)
        fun k below => by
          grind
      have lengths := congrArg List.length (parts'.symm.trans equal)
      grind
    · intro zero
      rw [cName, parts, closed fun _ => by simp [zero], List.append_nil, same]
  rw [ended, NameClosed, counted, bytes length (by omega)]
  grind [nameChar_ne_zero]

/-- An entry alone makes its own descriptor. -/
theorem ownDescriptor_congr (same : ∀ b < 128, buf' (offset' + b) = buf (offset + b)) :
    ownDescriptor buf' offset' = ownDescriptor buf offset := by
  have bytes : ∀ start count, start + count ≤ 128 →
      (List.range count).map (fun i => buf' (offset' + start + i)) = (List.range count).map fun i => buf (offset + start + i) := by
    intro start count inside
    refine List.map_congr_left fun i member => ?_
    have below := List.mem_range.mp member
    rw [Nat.add_assoc, same (start + i) (by omega), Nat.add_assoc]
  have words : ∀ start, start + 8 ≤ 128 → entryWord buf' (offset' + start) = entryWord buf (offset + start) := by
    intro start inside
    rw [entryWord, entryWord, bytes start 8 inside]
  have units : ∀ k ∈ List.range 36, nameUnit buf' (offset' + 56) k = nameUnit buf (offset + 56) k ∧
      nameChar buf' (offset' + 56) k = nameChar buf (offset + 56) k := by
    intro k member
    have below := List.mem_range.mp member
    have low := same (56 + 2 * k) (by omega)
    have high := same (56 + 2 * k + 1) (by omega)
    simp only [← Nat.add_assoc] at low high
    have unit : nameUnit buf' (offset' + 56) k = nameUnit buf (offset + 56) k := by
      rw [nameUnit, nameUnit, low, high]
    refine ⟨unit, ?_⟩
    rw [nameChar, nameChar, unit, low]
  have raw : entryRecord buf' offset' = entryRecord buf offset := by
    unfold entryRecord
    rw [words 32 (by omega), words 40 (by omega), words 48 (by omega), bytes 16 16 (by omega)]
    congr 1
    exact bytes 0 16 (by omega)
  have name : ownName buf' (offset' + 56) = ownName buf (offset + 56) := by
    unfold ownName
    rw [takeWhile_congr fun k member => by rw [(units k member).1]]
    exact List.map_congr_left fun k member => (units k (List.takeWhile_subset _ member)).2
  rw [ownDescriptor, ownDescriptor, raw, name]

end Names

/-- Entries of which the first has the units of a list as its name. -/
def namedEntry (units : List UInt8) : Bytes :=
  fun i => if i = 0 then 1 else if 56 ≤ i ∧ i % 2 = 0 then units.getD ((i - 56) / 2) 0 else 0

/-- A drive with such entries, of which the first one counts. -/
def namedDrive (units : List UInt8) : AtaDrive := gptDrive 1 128 (namedEntry units)

/-- A descriptor is what its own entry makes it iff the name is closed: with a zero behind it in
the array if it fills its field, and at its end in the slot, where an earlier run may have left
something else. Closed names make runs that agree on an entry agree on its descriptor. -/
theorem descriptor_own_iff {drive : AtaDrive} {sector buf : Bytes} {s t : Gpt} {k i : Nat}
    (disk : GptDisk drive sector buf) (done : gptInit s drive = .ok (true, t))
    (slot : (occupied buf (entryPlace sector) (List.range (entryCount sector)))[k]? = some i) :
    ((t.partitions k).descriptor = ownDescriptor buf (entryPlace sector i) ↔
      NameClosed buf (entryPlace sector i + 56) (s.partitions k).name) ∧
    ∀ {drive' sector' buf' s' t' k'}, GptDisk drive' sector' buf' → gptInit s' drive' = .ok (true, t') →
      (occupied buf' (entryPlace sector') (List.range (entryCount sector')))[k']? = some i →
      (∀ b < 128, buf' (entryPlace sector' i + b) = buf (entryPlace sector i + b)) →
      NameClosed buf (entryPlace sector i + 56) (s.partitions k).name →
      NameClosed buf' (entryPlace sector' i + 56) (s'.partitions k').name →
      (t'.partitions k').descriptor = (t.partitions k).descriptor := by
  have own : ∀ {drive sector buf s t k}, GptDisk drive sector buf → gptInit s drive = .ok (true, t) →
      (occupied buf (entryPlace sector) (List.range (entryCount sector)))[k]? = some i →
      ((t.partitions k).descriptor = ownDescriptor buf (entryPlace sector i) ↔
        NameClosed buf (entryPlace sector i + 56) (s.partitions k).name) := by
    intro drive sector buf s t k disk done slot
    have made := (disk.table done).stored k i slot
    rw [GptRecord.descriptor, ownDescriptor, made.fields, Prod.mk.injEq, ← made.name.own_iff]
    exact and_iff_right rfl
  refine ⟨own disk done slot, ?_⟩
  intro drive' sector' buf' s' t' k' disk' done' slot' same closed closed'
  rw [(own disk done slot).mpr closed, (own disk' done' slot').mpr closed']
  exact ownDescriptor_congr same

theorem descriptor_own_iff_short : ∃ t, gptInit blankGpt (namedDrive [0x58]) = .ok (true, t) ∧
    (t.partitions 0).descriptor = ownDescriptor (gptSectors 1 128 (namedEntry [0x58]) 2 32) 0 := by
  obtain ⟨⟨status, t⟩, done, listed⟩ := Lib.exists_ok_of_test
    (show (gptInit blankGpt (namedDrive [0x58])).toOption.any (fun answer => answer.1) = true by decide +kernel)
  obtain rfl : status = true := listed
  refine ⟨t, done, ?_⟩
  refine (descriptor_own_iff (k := 0) (i := 0) (gptDrive_disk 1 128 (namedEntry [0x58])) done (by decide +kernel)).1.mpr ?_
  exact ⟨by decide +kernel, by decide +kernel⟩

/-- The name X shows the end of the name AB that an earlier run left in the slot, and a name of
36 units shows the first byte of the entry behind it. -/
theorem descriptor_shows_others :
    (∃ s t, Lib.Steps gptInit blankGpt [(namedDrive [0x41, 0x42], true), (namedDrive [0x58], true)] s ∧
      Lib.Steps gptInit blankGpt [(namedDrive [0x58], true)] t ∧
      cName (s.partitions 0).name = [0x58, 0x42] ∧ cName (t.partitions 0).name = [0x58]) ∧
    (∀ b < 128, namedEntry (List.replicate 36 0x41 ++ [0x42]) b = namedEntry (List.replicate 36 0x41) b) ∧
    ∃ s t, Lib.Steps gptInit blankGpt [(namedDrive (List.replicate 36 0x41 ++ [0x42]), true)] s ∧
      Lib.Steps gptInit blankGpt [(namedDrive (List.replicate 36 0x41), true)] t ∧
      cName (s.partitions 0).name = List.replicate 36 0x41 ++ [0x42] ∧
      cName (t.partitions 0).name = List.replicate 36 0x41 := by
  have named : ∀ trace name, (Lib.replay gptInit blankGpt trace).any
      (fun s => decide (cName (s.partitions 0).name = name)) = true →
      ∃ s, Lib.Steps gptInit blankGpt trace s ∧ cName (s.partitions 0).name = name := by
    intro trace name replayed
    obtain ⟨s, run, test⟩ := Lib.Steps.exists_of_replay_test replayed
    grind
  refine ⟨?_, by decide +kernel, ?_⟩
  · obtain ⟨s, run, shown⟩ := named [(namedDrive [0x41, 0x42], true), (namedDrive [0x58], true)] [0x58, 0x42]
      (by decide +kernel)
    obtain ⟨t, run', shown'⟩ := named [(namedDrive [0x58], true)] [0x58] (by decide +kernel)
    grind
  · obtain ⟨s, run, shown⟩ := named [(namedDrive (List.replicate 36 0x41 ++ [0x42]), true)]
      (List.replicate 36 0x41 ++ [0x42]) (by decide +kernel)
    obtain ⟨t, run', shown'⟩ := named [(namedDrive (List.replicate 36 0x41), true)] (List.replicate 36 0x41)
      (by decide +kernel)
    grind

end Velox
