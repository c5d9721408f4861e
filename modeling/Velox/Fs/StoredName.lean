import Velox.Fs.NameField

namespace Velox

open Lib (Bytes)

/-- A code unit that is neither the terminator nor half of a pair. -/
def IsUnit (unit : Nat) : Prop := 0 < unit ∧ unit < 0xD800 ∨ 0xDFFF < unit ∧ unit < 0x10000

instance (unit : Nat) : Decidable (IsUnit unit) := inferInstanceAs (Decidable (_ ∨ _))

def utf8Form (u : List Nat) : List UInt8 := u.flatMap fun unit => String.utf8EncodeChar (Char.ofNat unit)

/-- A name in whole slots: the terminator and padding follow it where the last slot has room. -/
def padded (u : List Nat) : List Nat := (u ++ 0 :: List.replicate 12 0xFFFF).take (13 * ((u.length + 12) / 13))

/-- A name that a directory can hold and `fat32_dirent_t` has room for. -/
structure IsLongName (u : List Nat) : Prop where
  some' : 1 ≤ u.length
  few : u.length ≤ 255
  units : ∀ unit ∈ u, IsUnit unit
  fits : (utf8Form u).length ≤ 255

/-- The slots store the name for the 8.3 entry `raw`. -/
structure StoredAs (u : List Nat) (raw : Bytes) (slots : List Bytes) : Prop where
  group : SlotGroup ((u.length + 12) / 13) slots
  units : slots.reverse.flatMap lfnUnits = padded u
  checksum : ∀ slot ∈ slots, slot 13 = lfnChecksum raw

section Names

variable {u : List Nat} {raw : Bytes} {slots : List Bytes}

theorem charOfNat_val (valid : IsUnit unit) : (Char.ofNat unit).val.toNat = unit := by
  unfold IsUnit at valid
  have isChar : unit.isValidChar := by
    omega
  rw [Char.ofNat, dif_pos isChar]
  rfl

/-- A continuation byte. -/
theorem utf8_tail (x : Nat) : 0x80 ||| x % 64 = x % 64 + 128 := by
  have small : x % 64 < 2 ^ 6 := Nat.mod_lt x (by decide)
  rw [Lib.or_eq_add_of_lt (show 0x80 % 2 ^ 6 = 0 by decide) small, Nat.add_comm]

theorem utf8Unit_eq (valid : IsUnit unit) : utf8Unit unit = String.utf8EncodeChar (Char.ofNat unit) := by
  have low : unit &&& 0x3F = unit % 64 := Nat.and_two_pow_sub_one_eq_mod unit 6
  have middle : unit >>> 6 &&& 0x3F = unit / 64 % 64 := by
    rw [Nat.shiftRight_eq_div_pow]
    exact Nat.and_two_pow_sub_one_eq_mod _ 6
  unfold utf8Unit String.utf8EncodeChar
  simp only [charOfNat_val valid]
  unfold IsUnit at valid
  by_cases one : unit < 0x80
  · grind
  rw [if_neg one, if_neg (show ¬ unit ≤ 127 by omega)]
  by_cases two : unit < 0x800
  · have high : unit / 64 < 2 ^ 5 := by omega
    rw [if_pos two, if_pos (show unit ≤ 2047 by omega), low, utf8_tail, Nat.shiftRight_eq_div_pow,
      Lib.or_eq_add_of_lt (show 0xC0 % 2 ^ 5 = 0 by decide) high,
      Nat.mod_eq_of_lt (show unit / 64 < 32 from high), Nat.add_comm]
  · have high : unit / 4096 < 2 ^ 4 := by omega
    rw [if_neg two, if_neg (show ¬ unit ≤ 2047 by omega), if_pos (show unit ≤ 65535 by omega), low, middle, utf8_tail,
      utf8_tail, Nat.shiftRight_eq_div_pow, Lib.or_eq_add_of_lt (show 0xE0 % 2 ^ 4 = 0 by decide) high,
      Nat.mod_eq_of_lt (show unit / 4096 < 16 from high), Nat.add_comm 0xE0]

theorem IsLongName.nonzero (long : IsLongName u) (member : unit ∈ u) : unit ≠ 0 := by
  have valid := long.units unit member
  unfold IsUnit at valid
  omega

/-- The terminator is where the name ends. -/
theorem padded_takeWhile (long : IsLongName u) : (padded u).takeWhile (· ≠ 0) = u := by
  have short : u.length ≤ 13 * ((u.length + 12) / 13) := by omega
  rw [padded, List.take_append, List.take_of_length_le short,
    List.takeWhile_append_of_pos fun unit member => decide_eq_true (long.nonzero member)]
  simp

theorem longNameBytes_stored (long : IsLongName u) (stored : StoredAs u raw slots) : longNameBytes slots = utf8Form u := by
  rw [longNameBytes, stored.units, padded_takeWhile long]
  exact List.flatMap_congr fun unit member => utf8Unit_eq (long.units unit member)

theorem StoredAs.head (stored : StoredAs u raw slots) : slots.head?.map (· 13) = some (lfnChecksum raw) := by
  cases slots with
  | nil => exact absurd stored.group.length (Nat.ne_of_lt stored.group.some')
  | cons head rest => exact congrArg some (stored.checksum head List.mem_cons_self)

theorem StoredAs.slot (stored : StoredAs u raw slots) {slot : Bytes} (member : slot ∈ slots) : slot 0 ≠ 0 := by
  obtain ⟨i, found⟩ := List.mem_iff_getElem?.mp member
  exact (stored.group.numbered i slot found).1.1

/-- Behind the slots, whatever came before them, the name of the entry is the one that was stored. -/
theorem entryName_stored (long : IsLongName u) (stored : StoredAs u raw slots) (lfn : LfnState) :
    entryName (lfn.behind slots) raw = .ok (utf8Form u) := by
  have held := SlotsBefore.holds ⟨List.suffix_rfl, stored.group⟩ lfn
  have some' := long.some'
  have used : (lfn.behind slots).usedLfn raw = true := by
    simp only [LfnState.usedLfn, Bool.and_eq_true, decide_eq_true_eq, beq_iff_eq]
    refine ⟨⟨⟨held.valid, ?_⟩, UInt8.toNat_inj.mp held.expected⟩, ?_⟩
    · rw [held.chars, units_length, stored.group.length]
      omega
    · exact Option.some.inj (stored.head.symm.trans held.checksum)
  have bytes : ((lfn.behind slots).chars.takeWhile (· ≠ 0)).flatMap utf8Unit = utf8Form u := by
    rw [held.chars]
    exact longNameBytes_stored long stored
  have fits := long.fits
  rw [entryName_eq, if_pos used, utf16leToUtf8, bytes, if_pos (by omega)]

end Names

/-- The raw entries of a directory whose clusters can be read: those up to the cluster with the end
marker, or up to the end of the chain. -/
inductive ChainEntries (disk : Disk) (vol : Fat32Vol) : Nat → List Bytes → Prop where
  | past {cluster : Nat} (outside : ¬ (2 ≤ cluster ∧ cluster < fat32Bad)) : ChainEntries disk vol cluster []
  | last {cluster : Nat} {filled : Bytes} (inside : 2 ≤ cluster ∧ cluster < fat32Bad)
      (read : fat32ReadCluster disk vol cluster (fun _ => 0) = some filled)
      (marker : ∃ raw ∈ diskEntries vol filled, raw 0 = 0) : ChainEntries disk vol cluster (diskEntries vol filled)
  | more {cluster : Nat} {filled : Bytes} {rest : List Bytes} (inside : 2 ≤ cluster ∧ cluster < fat32Bad)
      (read : fat32ReadCluster disk vol cluster (fun _ => 0) = some filled)
      (next : fat32ReadFatEntry disk vol cluster ≠ fat32Bad)
      (others : ChainEntries disk vol (fat32ReadFatEntry disk vol cluster) rest) :
      ChainEntries disk vol cluster (diskEntries vol filled ++ rest)

section Walk

variable {disk : Disk} {vol : Fat32Vol} {cluster maxEntries : Nat} {raws : List Bytes} {lfn lfn' : LfnState}
  {out out' : List Fat32Dirent} {ended : Bool}

/-- How a walk over all the entries ends. -/
def walkResult (maxEntries : Nat) (raws : List Bytes) (lfn : LfnState) (out : List Fat32Dirent) :
    Except (Lib.Halt FsFault) (Bool × List Fat32Dirent) :=
  match processDirEntries maxEntries raws lfn out with
  | .error fault => .error (.fault fault)
  | .ok (_, _, out) => .ok (true, out)

theorem rawEntries_512 (mounted : vol.Mounted) (sector512 : vol.bpb.bytesPerSector = 512) (filled : Bytes) :
    rawEntries vol filled = diskEntries vol filled := by
  have none' : vol.bytesPerCluster / 32 - 16 * vol.bpb.sectorsPerCluster = 0 := by
    rw [mounted.bytesPerCluster, sector512]
    omega
  rw [rawEntries_split mounted, staleEntries, none']
  exact List.append_nil _

/-- The walk of `fat32_read_dir` scans the entries of the chain as if they were in one cluster. -/
theorem ChainEntries.walk (mounted : vol.Mounted) (chain : ChainEntries disk vol cluster raws) :
    ∃ n, ∀ lfn out buf, Lib.loop (readDirPass disk vol maxEntries) n ⟨cluster, lfn, out, buf⟩ =
      some (walkResult maxEntries raws lfn out) := by
  induction chain with
  | past outside => exact ⟨1, fun lfn out buf => readDir_past outside⟩
  | @last cluster filled inside read marker =>
    refine ⟨1, fun lfn out buf => ?_⟩
    obtain ⟨filled', read', same, -⟩ := fat32ReadCluster_other read buf
    rw [readDir_pass inside, read']
    dsimp only
    rw [rawEntries_split mounted, diskEntries_congr same, processDirEntries_append, walkResult]
    grind [processDirEntries_marker]
  | @more cluster filled rest inside read next others ih =>
    obtain ⟨n, ih⟩ := ih
    -- the table is read only on volumes with sectors of 512 bytes
    have sector512 : vol.bpb.bytesPerSector = 512 := by
      grind [Fat32Vol.Mounted.large, fat32ReadFatEntry_large]
    refine ⟨n + 1, fun lfn out buf => ?_⟩
    obtain ⟨filled', read', same, -⟩ := fat32ReadCluster_other read buf
    rw [readDir_pass inside, read']
    dsimp only
    rw [rawEntries_512 mounted sector512, diskEntries_congr same, walkResult, processDirEntries_append]
    cases scanned : processDirEntries maxEntries (diskEntries vol filled) lfn out with
    | error fault => rfl
    | ok result =>
      obtain ⟨_ | _, lfn', out'⟩ := result
      · dsimp only
        rw [if_neg next]
        exact ih lfn' out' filled'
      · rfl

/-- Entries that were written stay in the buffer. -/
theorem processDirEntries_extends (done : processDirEntries maxEntries raws lfn out = .ok (ended, lfn', out')) :
    out <+: out' := by
  induction raws generalizing lfn out with
  | nil =>
    cases done
    exact List.prefix_rfl
  | cons raw rest ih =>
    grind [processDirEntries_cons, List.prefix_append]

theorem processDirEntries_running (running : ∀ raw ∈ raws, raw 0 ≠ 0)
    (done : processDirEntries maxEntries raws lfn out = .ok (ended, lfn', out')) : ended = false := by
  induction raws generalizing lfn out with
  | nil =>
    cases done
    rfl
  | cons raw rest ih =>
    have others := fun next member => running next (List.mem_cons_of_mem raw member)
    rw [processDirEntries_cons] at done
    split at done
    · rename_i kind
      exact absurd (entryKind_marker.mp kind) (running raw List.mem_cons_self)
    · exact ih others done
    · grind
    · exact ih others done

end Walk

/-- With enough fuel `fat32_read_dir` succeeds and reports the entry. -/
def ReadDirReports (disk : Disk) (vol : Fat32Vol) (dirCluster maxEntries : Nat) (d : Fat32Dirent) : Prop :=
  ∃ fuel, ∀ more ≥ fuel, ∀ buf, ∃ es, fat32ReadDir disk vol more (some buf) dirCluster maxEntries = .ok (true, es) ∧ d ∈ es

section Stored

variable {disk : Disk} {vol : Fat32Vol} {dirCluster maxEntries : Nat} {u : List Nat} {raw : Bytes}
  {raws before slots after : List Bytes}

theorem readDirReports_iff (mounted : vol.Mounted) (chain : ChainEntries disk vol dirCluster raws) (d : Fat32Dirent) :
    ReadDirReports disk vol dirCluster maxEntries d ↔
      ∃ ended lfn es, processDirEntries maxEntries raws .initial [] = .ok (ended, lfn, es) ∧ d ∈ es := by
  obtain ⟨n, walks⟩ := @ChainEntries.walk disk vol dirCluster maxEntries raws mounted chain
  have answer : ∀ more ≥ n, ∀ buf, fat32ReadDir disk vol more (some buf) dirCluster maxEntries =
      walkResult maxEntries raws .initial [] := by
    intro more enough buf
    rw [fat32ReadDir, Lib.loop_mono (walks .initial [] buf) enough]
    rfl
  constructor
  · rintro ⟨fuel, reports⟩
    obtain ⟨es, done, member⟩ := reports (max fuel n) (le_max_left _ _) fun _ => 0
    rw [answer _ (le_max_right _ _), walkResult] at done
    grind
  · rintro ⟨ended, lfn, es, scanned, member⟩
    refine ⟨n, fun more enough buf => ⟨es, ?_, member⟩⟩
    rw [answer more enough, walkResult, scanned]

theorem readDir_overruns (mounted : vol.Mounted) (chain : ChainEntries disk vol dirCluster raws)
    (long : ¬ NamesFit maxEntries raws) : ∃ fuel, ∀ more ≥ fuel, ∀ buf,
      fat32ReadDir disk vol more (some buf) dirCluster maxEntries = .error (.fault .nameOverrun) := by
  obtain ⟨n, walks⟩ := @ChainEntries.walk disk vol dirCluster maxEntries raws mounted chain
  refine ⟨n, fun more enough buf => ?_⟩
  rw [fat32ReadDir, Lib.loop_mono (walks .initial [] buf) enough, walkResult]
  cases scanned : processDirEntries maxEntries raws .initial [] with
  | error fault =>
    rw [processDirEntries_error scanned]
    rfl
  | ok result => exact absurd (processDirEntries_fits_iff.mp ⟨result, scanned⟩) long

/-- A scan with room for the entry that does not fail reports it. -/
theorem processDirEntries_stored {ended : Bool} {lfn : LfnState}
    (running : ∀ earlier ∈ before, earlier 0 ≠ 0) (short : IsShort raw) (long : IsLongName u)
    (stored : StoredAs u raw slots) (room : shortCount before < maxEntries)
    (done : processDirEntries maxEntries (before ++ slots ++ raw :: after) .initial [] = .ok (ended, lfn, es)) :
    .ofRaw raw (utf8Form u) ∈ es := by
  rw [processDirEntries_append] at done
  have present : ∀ earlier ∈ before ++ slots, earlier 0 ≠ 0 := by
    intro earlier member
    rcases List.mem_append.mp member with first | slot
    · grind
    · exact stored.slot slot
  cases scanned : processDirEntries maxEntries (before ++ slots) .initial [] with
  | error fault =>
    grind
  | ok result =>
    obtain ⟨ended', lfn', out⟩ := result
    cases processDirEntries_running present scanned
    have bound := processDirEntries_length scanned
    have none' : shortCount slots = 0 := by
      refine List.countP_eq_zero.mpr fun slot member => ?_
      obtain ⟨i, found⟩ := List.mem_iff_getElem?.mp member
      have long := (stored.group.numbered i slot found).1.2.2
      exact fun isShort => (of_decide_eq_true isShort).2.2.1 long
    have count : shortCount (before ++ slots) = shortCount before + shortCount slots := List.countP_append
    have free : ¬ maxEntries ≤ out.length := by
      grind
    have named : entryName lfn' raw = .ok (utf8Form u) := by
      rw [processDirEntries_behind scanned, LfnState.behind_append]
      exact entryName_stored long stored _
    rw [scanned] at done
    simp only [processDirEntries_cons, entryKind_short short, named, if_neg free] at done
    exact (processDirEntries_extends done).subset (by simp)

/-- A long name that was stored before an 8.3 entry is reported for it iff no name for which there
is room overruns its field. -/
theorem stored_name_reported_iff (mounted : vol.Mounted) (chain : ChainEntries disk vol dirCluster raws)
    (entries : raws = before ++ slots ++ raw :: after) (running : ∀ earlier ∈ before, earlier 0 ≠ 0)
    (short : IsShort raw) (long : IsLongName u) (stored : StoredAs u raw slots) (room : shortCount before < maxEntries) :
    ReadDirReports disk vol dirCluster maxEntries (.ofRaw raw (utf8Form u)) ↔ NamesFit maxEntries raws := by
  grind [readDirReports_iff, processDirEntries_fits_iff, processDirEntries_stored]

end Stored

/-- The sample volume with these entries in the root directory, in the clusters 2, 3 and 4. -/
def storedDir (entries : List Bytes) : Disk where
  drive := {
    ready := true
    completes := fun _ _ => true
    byte := fun address =>
      if address < 2560 then sampleByte 100 [(2, 3), (3, 4), (4, fat32Eoc)] address
      else entries.getD ((address - 2560) / 32) (fun _ => 0) ((address - 2560) % 32) }
  partitions := [⟨3, 100⟩]

def storedCluster (entries : List Bytes) (cluster : Nat) : List Bytes :=
  diskEntries (sampleVol 100 98) ((fat32ReadCluster (storedDir entries) (sampleVol 100 98) cluster fun _ => 0).getD fun _ => 0)

def storedEntries (entries : List Bytes) : List Bytes :=
  storedCluster entries 2 ++ (storedCluster entries 3 ++ storedCluster entries 4)

theorem storedDir_chain {entries : List Bytes} (second : fat32ReadFatEntry (storedDir entries) (sampleVol 100 98) 2 = 3)
    (third : fat32ReadFatEntry (storedDir entries) (sampleVol 100 98) 3 = 4)
    (marker : ∃ raw ∈ storedCluster entries 4, raw 0 = 0) :
    ChainEntries (storedDir entries) (sampleVol 100 98) 2 (storedEntries entries) := by
  have read : ∀ cluster, (fat32ReadCluster (storedDir entries) (sampleVol 100 98) cluster fun _ => 0).isSome = true →
      fat32ReadCluster (storedDir entries) (sampleVol 100 98) cluster (fun _ => 0) =
        some ((fat32ReadCluster (storedDir entries) (sampleVol 100 98) cluster fun _ => 0).getD fun _ => 0) := by
    intro cluster readable
    obtain ⟨filled, done⟩ := Option.isSome_iff_exists.mp readable
    rw [done]
    rfl
  refine .more (by decide) (read 2 rfl) (by rw [second]; decide) ?_
  rw [second]
  refine .more (by decide) (read 3 rfl) (by rw [third]; decide) ?_
  rw [third]
  exact .last (by decide) (read 4 rfl) marker

theorem SlotGroup.of_numbers (length : slots.length = n) (some' : 1 ≤ n) (few : n ≤ 20)
    (numbers : ∀ i < n, slots[i]?.all (fun raw => IsSlot raw ∧ (raw 0).toNat = if i = 0 then 0x40 + n else n - i) = true) :
    SlotGroup n slots := by
  refine ⟨length, some', few, fun i raw found => ?_⟩
  have here := numbers i (length ▸ (List.getElem?_eq_some_iff.mp found).1)
  grind

def deletedEntry : Bytes := fun _ => 0xE5

def letters : List Nat := List.replicate 14 0x7A

theorem letters_long : IsLongName letters := ⟨by decide, by decide, by decide, by decide +kernel⟩

/-- The name `letters` with its two slots in different clusters. -/
def splitEntries : List Bytes :=
  List.replicate 15 deletedEntry ++ twoSlots (lfnChecksum oneFileEntry) (lfnChecksum oneFileEntry) ++ [oneFileEntry]

theorem parts_of_drop (raws : List Bytes) {a b : Nat} (below : a + b < raws.length) (other : Bytes) :
    raws = raws.take a ++ (raws.drop a).take b ++ raws.getD (a + b) other :: raws.drop (a + b + 1) := by
  rw [← List.take_add, List.getD_eq_getElem _ _ below, ← List.drop_eq_getElem_cons, List.take_append_drop]

theorem stored_name_reported_split :
    ReadDirReports (storedDir splitEntries) (sampleVol 100 98) 2 1
      (.ofRaw ((storedEntries splitEntries).getD 17 deletedEntry) (utf8Form letters)) := by
  have mounted := fat32Mount_mounted (show fat32Mount (storedDir splitEntries) 0 = some (sampleVol 100 98) by decide +kernel)
  have chain := @storedDir_chain splitEntries (by decide +kernel) (by decide +kernel) (by decide +kernel)
  have group : SlotGroup 2 (((storedEntries splitEntries).drop 15).take 2) :=
    .of_numbers (by decide +kernel) (by decide) (by decide) (by decide +kernel)
  refine (stored_name_reported_iff mounted chain (@parts_of_drop _ 15 2 (by decide +kernel) deletedEntry)
    (by decide +kernel) (by decide +kernel) letters_long ⟨group, by decide +kernel, by decide +kernel⟩
    (by decide +kernel)).mpr ?_
  exact processDirEntries_fits_iff.mp ⟨_, Lib.eq_ok_outcome (false, .initial, []) (by decide +kernel)⟩

/-- A name of 780 bytes for the first of two files, whose 8.3 entry is at the start of the third
cluster, and `letters` for the second. -/
def crowdedEntries : List Bytes :=
  List.replicate 12 deletedEntry ++
    (0x54 :: (List.range 19).reverse.map fun i => UInt8.ofNat (i + 1)).map (fun seq =>
      slotEntry seq (lfnChecksum oneFileEntry) (List.replicate 13 0x4E00)) ++
    oneFileEntry :: twoSlots (lfnChecksum oneFileEntry) (lfnChecksum oneFileEntry) ++ [oneFileEntry]

theorem crowdedEntries_long : ¬ NamesFit 2 (storedEntries crowdedEntries) := by
  intro fits
  have group : SlotGroup 20 (((storedEntries crowdedEntries).drop 12).take 20) :=
    .of_numbers (by decide +kernel) (by decide) (by decide) (by decide +kernel)
  have slots : SlotsBefore ((storedEntries crowdedEntries).take 12 ++ ((storedEntries crowdedEntries).drop 12).take 20) 20
      (((storedEntries crowdedEntries).drop 12).take 20) := ⟨List.suffix_append _ _, group⟩
  have length := fits _ _ _ 20 _ (@parts_of_drop _ 12 20 (by decide +kernel) deletedEntry) (by decide +kernel)
    (by decide +kernel) (by decide +kernel) slots (by decide +kernel)
  revert length
  decide +kernel

theorem stored_name_lost :
    ∃ before slots raw after, ChainEntries (storedDir crowdedEntries) (sampleVol 100 98) 2 (before ++ slots ++ raw :: after) ∧
      (∀ earlier ∈ before, earlier 0 ≠ 0) ∧ IsShort raw ∧ IsLongName letters ∧ StoredAs letters raw slots ∧
      shortCount before < 2 ∧
      (∃ fuel, ∀ more ≥ fuel, ∀ buf, fat32ReadDir (storedDir crowdedEntries) (sampleVol 100 98) more (some buf) 2 2 =
        .error (.fault .nameOverrun)) ∧
      ¬ ReadDirReports (storedDir crowdedEntries) (sampleVol 100 98) 2 2 (.ofRaw raw (utf8Form letters)) := by
  have mounted := fat32Mount_mounted (show fat32Mount (storedDir crowdedEntries) 0 = some (sampleVol 100 98) by decide +kernel)
  have chain := @storedDir_chain crowdedEntries (by decide +kernel) (by decide +kernel) (by decide +kernel)
  have group : SlotGroup 2 (((storedEntries crowdedEntries).drop 33).take 2) :=
    .of_numbers (by decide +kernel) (by decide) (by decide) (by decide +kernel)
  obtain ⟨fuel, failed⟩ := readDir_overruns mounted chain crowdedEntries_long
  refine ⟨(storedEntries crowdedEntries).take 33, _, (storedEntries crowdedEntries).getD 35 deletedEntry,
    (storedEntries crowdedEntries).drop 36, ?_, by decide +kernel, by decide +kernel, letters_long,
    ⟨group, by decide +kernel, by decide +kernel⟩, by decide +kernel, ⟨fuel, failed⟩, ?_⟩
  · rw [← @parts_of_drop _ 33 2 (by decide +kernel) deletedEntry]
    exact chain
  rintro ⟨enough, reports⟩
  obtain ⟨es, done, -⟩ := reports (max enough fuel) (le_max_left _ _) fun _ => 0
  grind

end Velox
