import Velox.Fs.LongName
import Velox.Fs.Fat32Walk

namespace Velox

open Lib (Bytes)

def shortCount (raws : List Bytes) : Nat := raws.countP fun raw => IsShort raw

/-- What `utf16le_to_utf8` writes for the units of some slots, without the terminator. -/
def longNameBytes (slots : List Bytes) : List UInt8 :=
  ((slots.reverse.flatMap lfnUnits).takeWhile (· ≠ 0)).flatMap utf8Unit

/-- The long name that is used for any of the first `room` 8.3 entries fits into its field. -/
def NamesFit (room : Nat) (raws : List Bytes) : Prop :=
  ∀ before raw after n slots, raws = before ++ raw :: after → (∀ earlier ∈ before, earlier 0 ≠ 0) → IsShort raw →
    shortCount before < room → SlotsBefore before n slots → slots.head?.map (· 13) = some (lfnChecksum raw) →
      (longNameBytes slots).length + 1 ≤ 256

section Overrun

variable {maxEntries : Nat} {raws : List Bytes} {raw : Bytes} {lfn : LfnState} {out : List Fat32Dirent}

theorem shortCount_cons_short (short : IsShort raw) (rest : List Bytes) :
    shortCount (raw :: rest) = shortCount rest + 1 :=
  List.countP_cons_of_pos (decide_eq_true short)

theorem shortCount_cons_other (other : ¬ IsShort raw) (rest : List Bytes) : shortCount (raw :: rest) = shortCount rest :=
  List.countP_cons_of_neg (by simpa using other)

/-- `process_dir_cluster` fails iff a name does not fit and there is room for its entry. -/
theorem processDirEntries_fails_iff : (∃ fault, processDirEntries maxEntries raws lfn out = .error fault) ↔
      ∃ before raw after, raws = before ++ raw :: after ∧ (∀ earlier ∈ before, earlier 0 ≠ 0) ∧ IsShort raw ∧
        out.length + shortCount before < maxEntries ∧ ∃ fault, entryName (lfn.behind before) raw = .error fault := by
  induction raws generalizing lfn out with
  | nil => simp [processDirEntries]
  | cons raw rest ih =>
    -- the failing entry is the first one, or it lies behind it
    have split : (∃ before found after, raw :: rest = before ++ found :: after ∧ (∀ earlier ∈ before, earlier 0 ≠ 0) ∧
        IsShort found ∧ out.length + shortCount before < maxEntries ∧
          ∃ fault, entryName (lfn.behind before) found = .error fault) ↔
        (IsShort raw ∧ out.length < maxEntries ∧ ∃ fault, entryName lfn raw = .error fault) ∨
        (raw 0 ≠ 0 ∧ ∃ before found after, rest = before ++ found :: after ∧ (∀ earlier ∈ before, earlier 0 ≠ 0) ∧
          IsShort found ∧ out.length + shortCount (raw :: before) < maxEntries ∧
            ∃ fault, entryName ((lfn.after raw).behind before) found = .error fault) := by
      constructor
      · rintro ⟨_ | ⟨first, before⟩, found, after, same, running, short, room, fails⟩
        · obtain ⟨rfl, rfl⟩ := List.cons.inj same
          exact .inl ⟨short, room, fails⟩
        · obtain ⟨rfl, rfl⟩ := List.cons.inj same
          refine .inr ⟨running _ List.mem_cons_self, before, found, after, rfl, ?_, short, room, fails⟩
          grind
      · rintro (⟨short, room, fails⟩ | ⟨present, before, found, after, rfl, running, short, room, fails⟩)
        · exact ⟨[], raw, rest, rfl, by simp, short, room, fails⟩
        · exact ⟨raw :: before, found, after, rfl, by grind, short, room, fails⟩
    rw [split, processDirEntries_cons]
    by_cases marker : raw 0 = 0
    · rw [entryKind_marker.mpr marker]
      have other : ¬ IsShort raw := fun short => short.1 marker
      simp [marker, other]
    by_cases short : IsShort raw
    · have full : maxEntries ≤ out.length → ∀ lfn, ¬ ∃ fault, processDirEntries maxEntries rest lfn out = .error fault := by
        intro full lfn
        rw [ih]
        omega
      rw [entryKind_short short]
      simp only [shortCount_cons_short short]
      by_cases room : out.length < maxEntries
      · cases named : entryName lfn raw with
        | error fault =>
          exact ⟨fun _ => .inl ⟨short, room, fault, rfl⟩, fun _ => ⟨.nameOverrun, if_neg (Nat.not_le.mpr room)⟩⟩
        | ok name =>
          simp only [if_neg (Nat.not_le.mpr room), ih, List.length_append, List.length_singleton]
          simp [marker, Nat.add_assoc, Nat.add_comm 1]
      · grind
    · rw [entryKind_skip marker short]
      simp only [shortCount_cons_other short, ih]
      simp [short, marker]

theorem utf16leToUtf8_fails_iff (chars : List Nat) :
    (∃ fault, utf16leToUtf8 chars = .error fault) ↔ ¬ ((chars.takeWhile (· ≠ 0)).flatMap utf8Unit).length + 1 ≤ 256 := by
  unfold utf16leToUtf8
  dsimp only
  split
  · grind
  grind

/-- The entries behind which a name does not fit, by the slots before them. -/
theorem entryName_fails_iff (running : ∀ earlier ∈ before, earlier 0 ≠ 0) :
    (∃ fault, entryName (LfnState.initial.behind before) raw = .error fault) ↔
      ∃ n slots, SlotsBefore before n slots ∧ slots.head?.map (· 13) = some (lfnChecksum raw) ∧
        ¬ (longNameBytes slots).length + 1 ≤ 256 := by
  rw [entryName_eq]
  split
  · rename_i used
    rw [utf16leToUtf8_fails_iff]
    obtain ⟨n, slots, slotsBefore, checksum⟩ := (usedLfn_iff running).mp used
    have chars := (slotsBefore.holds .initial).chars
    rw [chars]
    constructor
    · intro long
      exact ⟨n, slots, slotsBefore, checksum, long⟩
    · rintro ⟨m, others, slotsBefore', -, long⟩
      rw [slotsBefore.unique slotsBefore']
      exact long
  · rename_i unused
    simp only [reduceCtorEq, exists_false, false_iff]
    rintro ⟨n, slots, slotsBefore, checksum, -⟩
    exact unused ((usedLfn_iff running).mpr ⟨n, slots, slotsBefore, checksum⟩)

/-- `process_dir_cluster` stays in the name fields iff the long names fit. -/
theorem processDirEntries_fits_iff :
    (∃ result, processDirEntries maxEntries raws .initial [] = .ok result) ↔ NamesFit maxEntries raws := by
  have fails := @processDirEntries_fails_iff maxEntries raws .initial []
  have either : (∃ result, processDirEntries maxEntries raws .initial [] = .ok result) ↔
      ¬ ∃ fault, processDirEntries maxEntries raws .initial [] = .error fault := by
    cases processDirEntries maxEntries raws .initial [] with
    | error fault => simp
    | ok result => simp
  rw [either, fails]
  constructor
  · intro fits before raw after n slots same running short room slotsBefore checksum
    by_contra long
    refine fits ⟨before, raw, after, same, running, short, by simpa using room, ?_⟩
    exact (entryName_fails_iff running).mpr ⟨n, slots, slotsBefore, checksum, long⟩
  · rintro fits ⟨before, raw, after, same, running, short, room, failed⟩
    obtain ⟨n, slots, slotsBefore, checksum, long⟩ := (entryName_fails_iff running).mp failed
    exact long (fits before raw after n slots same running short (by simpa using room) slotsBefore checksum)

theorem processDirEntries_length {ended : Bool}
    (done : processDirEntries maxEntries raws lfn out = .ok (ended, lfn', out')) :
    out'.length ≤ out.length + shortCount raws := by
  induction raws generalizing lfn out with
  | nil =>
    cases done
    omega
  | cons raw rest ih =>
    rw [processDirEntries_cons] at done
    by_cases marker : raw 0 = 0
    · rw [entryKind_marker.mpr marker] at done
      grind
    grind [entryKind_short, shortCount_cons_short, entryKind_skip, shortCount_cons_other]

/-- With room for every entry a scan that meets a name that does not fit fails. -/
theorem scanEntries_fits (fits : ∀ room, NamesFit room raws) : (scanEntries .initial raws).2 ≠ .overrun := by
  obtain ⟨⟨ended, lfn', out'⟩, done⟩ := processDirEntries_fits_iff.mpr (fits (raws.length + 1))
  have scanned := @processDirEntries_scan (raws.length + 1) raws .initial [] (Nat.zero_le _)
  have few := processDirEntries_length done
  have some' : shortCount raws ≤ raws.length := List.countP_le_length
  grind

end Overrun

/-- What is written into the name fields stays inside them: no scan of the entries fails, and the
names that are reported fit, with their terminators. -/
structure NamesInField (raws : List Bytes) : Prop where
  process : ∀ maxEntries, ∃ ended lfn out, processDirEntries maxEntries raws .initial [] = .ok (ended, lfn, out) ∧
    ∀ d ∈ out, d.name.length + 1 ≤ 256
  iterate : ∀ (σ : Type) (cb : Fat32Dirent → σ → Int × σ) ctx, ∃ result, iterDirEntries cb raws .initial ctx = .ok result
  handed : ∃ ended lfn, iterDirEntries (fun d fits => (0, fits && decide (d.name.length + 1 ≤ 256))) raws .initial true =
    .ok (ended, lfn, true)

theorem feed_fits (fits : ∀ d ∈ es, d.name.length + 1 ≤ 256) :
    feed (fun d fits => (0, fits && decide (d.name.length + 1 ≤ 256))) es true = (none, true) := by
  induction es with
  | nil => rfl
  | cons d rest ih =>
    have first := fits d List.mem_cons_self
    simpa [feed, first] using ih fun other member => fits other (List.mem_cons_of_mem _ member)

/-- The name fields are not overrun iff the long names in use fit into them. -/
theorem names_in_field_iff (raws : List Bytes) : NamesInField raws ↔ ∀ room, NamesFit room raws := by
  constructor
  · intro inside room
    obtain ⟨ended, lfn, out, done, -⟩ := inside.process room
    exact processDirEntries_fits_iff.mp ⟨_, done⟩
  · intro fits
    have runs := scanEntries_fits fits
    refine ⟨?_, ?_, ?_⟩
    · intro maxEntries
      have scanned := @processDirEntries_scan maxEntries raws .initial [] (Nat.zero_le _)
      have names : ∀ d ∈ ([] ++ (scanEntries .initial raws).1).take maxEntries, d.name.length + 1 ≤ 256 :=
        fun d member => Nat.succ_le_succ (scanEntries_names d (List.mem_of_mem_take member))
      grind
    · intro σ cb ctx
      have iterated := @iterDirEntries_scan σ cb raws .initial ctx
      grind
    · have iterated := @iterDirEntries_scan _ (fun d fits => (0, fits && decide (d.name.length + 1 ≤ 256))) raws .initial true
      rw [feed_fits fun d member => Nat.succ_le_succ (scanEntries_names d member)] at iterated
      grind

/-- Seven slots full of a unit that takes three bytes, for the file of `oneFileEntry`. -/
def wideSlots : List Bytes :=
  [0x47, 6, 5, 4, 3, 2, 1].map fun seq => slotEntry seq (lfnChecksum oneFileEntry) (List.replicate 13 0x4E00)

/-- Both scanners write 273 bytes and a terminator into the field of 256. -/
theorem name_field_overrun :
    (longNameBytes wideSlots).length = 273 ∧
      processDirEntries 1 (wideSlots ++ [oneFileEntry]) .initial [] = .error .nameOverrun ∧
      iterDirEntries (fat32LookupCb [0x61]) (wideSlots ++ [oneFileEntry]) .initial none = .error .nameOverrun ∧
      ¬ NamesInField (wideSlots ++ [oneFileEntry]) := by
  have failed : processDirEntries 1 (wideSlots ++ [oneFileEntry]) .initial [] = .error .nameOverrun := by decide +kernel
  refine ⟨by decide +kernel, failed, by decide +kernel, ?_⟩
  intro inside
  obtain ⟨ended, lfn, out, done, -⟩ := inside.process 1
  grind

end Velox
