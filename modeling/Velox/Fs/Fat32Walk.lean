import Velox.Fs.DirAgree
import Velox.Fs.Vfs
import Velox.Lib.Split

namespace Velox

open Lib (Bytes components)

variable {a path : List UInt8} {fuel : Nat} {raw : Bytes}

section Names

/-- A name as the comparisons of `fat32_name_equal_ci` see it. -/
def foldName (name : List UInt8) : List UInt8 := (cString name).map fat32Tolower

theorem fat32NameEqualCi_iff (a b : List UInt8) : fat32NameEqualCi a b = true ↔ foldName a = foldName b := by
  induction a generalizing b with
  | nil =>
    cases b with
    | nil => simp [fat32NameEqualCi]
    | cons y ys => by_cases zero : y = 0 <;> simp [fat32NameEqualCi, foldName, cString, zero]
  | cons x xs ih =>
    cases b with
    | nil => by_cases zero : x = 0 <;> simp [fat32NameEqualCi, foldName, cString, zero]
    | cons y ys =>
      have rest := ih ys
      by_cases zero : x = 0 <;> by_cases zero' : y = 0 <;>
        simp [fat32NameEqualCi, foldName, cString, zero, zero'] at rest ⊢
      intro _
      exact rest

theorem fat32LookupCb_congr (same : foldName a = foldName b) :
    fat32LookupCb a = fat32LookupCb b := by
  funext ent found
  have equal : fat32NameEqualCi ent.name a = fat32NameEqualCi ent.name b := by
    rw [Bool.eq_iff_iff, fat32NameEqualCi_iff, fat32NameEqualCi_iff, same]
  rw [fat32LookupCb, fat32LookupCb, equal]

theorem fat32Lookup_congr (same : foldName a = foldName b) (disk : Disk)
    (vol : Fat32Vol) (fuel : Nat) (buf : Option Bytes) (cluster : Nat) :
    fat32Lookup disk vol fuel buf cluster a = fat32Lookup disk vol fuel buf cluster b := by
  rw [fat32Lookup, fat32Lookup, fat32LookupCb_congr same]

theorem foldName_cString (name : List UInt8) : foldName (cString name) = foldName name := by
  rw [foldName, foldName, cString, cString, List.takeWhile_takeWhile]
  simp

/-- Names that compare equal have the same length. -/
theorem cString_length_of_fold (same : foldName a = foldName b) :
    (cString a).length = (cString b).length := by
  simpa [foldName] using congrArg List.length same

end Names

section Lookups

variable {disk : Disk} {vol : Fat32Vol} {cluster fuel : Nat} {lfn : LfnState} {σ : Type} {cb : Fat32Dirent → σ → Int × σ} {ctx : σ}

/-- A walk of `fat32_iter_dir` does not depend on what its buffer held. -/
theorem ScanFixed.iterDir (fixed : ScanFixed disk vol At) (here : At cluster lfn)
    (buf buf' : Bytes) :
    Lib.loop (iterDirPass cb disk vol) fuel ⟨cluster, lfn, ctx, buf⟩ =
      Lib.loop (iterDirPass cb disk vol) fuel ⟨cluster, lfn, ctx, buf'⟩ := by
  induction fuel generalizing cluster lfn ctx buf buf' with
  | zero => rfl
  | succ fuel ih =>
    by_cases inside : 2 ≤ cluster ∧ cluster < fat32Bad
    · rw [iterDir_pass inside, iterDir_pass inside]
      cases scan : clusterScan disk vol cluster lfn with
      | none =>
        have first := (fixed.seen here inside buf).trans scan
        have second := (fixed.seen here inside buf').trans scan
        grind
      | some result =>
        obtain ⟨es, ended⟩ := result
        obtain ⟨filled, read, scanned⟩ := fixed.cases here inside scan buf
        obtain ⟨filled', read', scanned'⟩ := fixed.cases here inside scan buf'
        have first := @iterDirEntries_scan σ cb (rawEntries vol filled) lfn ctx
        have second := @iterDirEntries_scan σ cb (rawEntries vol filled') lfn ctx
        simp only [scanned] at first
        simp only [scanned'] at second
        rw [read, read']
        dsimp only
        generalize feed cb es ctx = fed at first second
        rcases fed with ⟨_ | rc, ctx'⟩
        · cases ended with
          | marker =>
            grind
          | overrun =>
            grind
          | running lfn' =>
            rw [first, second]
            dsimp only
            by_cases bad : fat32ReadFatEntry disk vol cluster = fat32Bad
            · grind
            · rw [if_neg bad, if_neg bad, ih (fixed.onward here inside scan bad) filled filled']
        grind
    grind [iterDir_past]

/-- The scans of a directory do not depend on what their buffers held. -/
def ScanSettled (disk : Disk) (vol : Fat32Vol) (cluster : Nat) : Prop :=
  ∃ At, ScanFixed disk vol At ∧ At cluster .initial

theorem ScanSettled.lookup (settled : ScanSettled disk vol cluster) (fuel : Nat) (buf buf' : Bytes) (name : List UInt8) :
    fat32Lookup disk vol fuel (some buf) cluster name = fat32Lookup disk vol fuel (some buf') cluster name := by
  obtain ⟨At, fixed, here⟩ := settled
  rw [fat32Lookup, fat32Lookup, fat32IterDir, fat32IterDir]
  rw [fixed.iterDir here buf buf']

/-- More passes do not change what a lookup found. -/
theorem fat32Lookup_mono {name : List UInt8}
    (done : fat32Lookup disk vol fuel buf cluster name = .ok answer) {more : Nat}
    (enough : fuel ≤ more) : fat32Lookup disk vol more buf cluster name = .ok answer := by
  unfold fat32Lookup fat32IterDir at done ⊢
  split at done
  · grind
  · rename_i high
    rw [if_neg high]
    cases buf with
    | none => exact done
    | some buf =>
      obtain ⟨result, ended, onward⟩ := Lib.bind_ok done
      grind [Lib.loop_mono, Lib.finish_ok]

/-- A directory has an entry for a name. -/
def Finds (disk : Disk) (vol : Fat32Vol) (cluster : Nat) (name : List UInt8) (ent : Fat32Dirent) : Prop :=
  ∃ fuel, fat32Lookup disk vol fuel (some fun _ => 0) cluster name = .ok (0, some ent)

theorem Finds.unique {name : List UInt8} (first : Finds disk vol cluster name ent)
    (second : Finds disk vol cluster name ent') : ent = ent' := by
  obtain ⟨fuel, found⟩ := first
  obtain ⟨fuel', found'⟩ := second
  grind [fat32Lookup_mono]

theorem Finds.congr {b : List UInt8} {ent : Fat32Dirent} (finds : Finds disk vol cluster a ent)
    (same : foldName a = foldName b) :
    Finds disk vol cluster b ent := by
  obtain ⟨fuel, found⟩ := finds
  exact ⟨fuel, by rw [← fat32Lookup_congr same, found]⟩

theorem Finds.proper {name : List UInt8} (finds : Finds disk vol cluster name ent) : 2 ≤ cluster := by
  obtain ⟨fuel, found⟩ := finds
  by_contra low
  rw [fat32Lookup, fat32IterDir, if_pos (Nat.not_le.mp low)] at found
  cases found

theorem build83Name_length (raw : Bytes) : (build83Name raw).length ≤ 12 := by
  have base := (List.rdropWhile_prefix (fun byte => decide (byte = (0x20 : UInt8))) (l := (List.range 8).map raw)).length_le
  have ext := (List.rdropWhile_prefix (fun byte => decide (byte = (0x20 : UInt8)))
    (l := (List.range 3).map fun j => raw (8 + j))).length_le
  simp only [build83Name, List.length_append, List.length_map]
  grind

theorem entryName_length {name : List UInt8} (named : entryName lfn raw = .ok name) : name.length ≤ vfsNameMax := by
  unfold entryName at named
  split at named
  · unfold utf16leToUtf8 at named
    dsimp only at named
    split at named
    · rename_i fits
      cases named
      exact Nat.le_of_succ_le_succ fits
    · cases named
  · cases named
    exact le_trans (build83Name_length raw) (by decide)

/-- The name of an entry that a directory lists fits. -/
theorem entryKind_name {d : Fat32Dirent} (kind : entryKind lfn raw = .entry d lfn') :
    d.name.length ≤ vfsNameMax := by
  unfold entryKind at kind
  split at kind
  · cases kind
  split at kind
  · cases kind
  split at kind
  · cases kind
  split at kind
  · cases kind
  split at kind
  · cases kind
  · rename_i named
    cases kind
    exact entryName_length named

theorem scanEntries_names {raws : List Bytes} : ∀ d ∈ (scanEntries lfn raws).1, d.name.length ≤ vfsNameMax := by
  induction raws generalizing lfn with
  | nil => simp [scanEntries]
  | cons raw rest ih =>
    rw [scanEntries]
    cases kind : entryKind lfn raw with
    | marker => simp
    | overrun lfn => simp
    | skip lfn => exact ih
    | entry d lfn =>
      intro other member
      rcases List.mem_cons.mp member with rfl | later
      · exact entryKind_name kind
      · exact ih other later

section

variable (Holds : σ → Prop)
  (kept : ∀ {d ctx}, Holds ctx → d.name.length ≤ vfsNameMax → Holds (cb d ctx).2)
  (initial : Holds ctx)
include Holds kept initial

/-- What the callback keeps of its state holds after the entries of a cluster. -/
theorem iterDirEntries_keeps (done : iterDirEntries cb raws lfn ctx = .ok (answer, lfn', ctx')) :
    Holds ctx' := by
  induction raws generalizing lfn ctx with
  | nil =>
    cases done
    exact initial
  | cons raw rest ih =>
    grind [iterDirEntries_cons, entryKind_name]

theorem iterDir_keeps
    (done : Lib.loop (iterDirPass cb disk vol) fuel ⟨cluster, lfn, ctx, buf⟩ = some (.ok (rc, ctx'))) :
    Holds ctx' := by
  induction fuel generalizing cluster lfn ctx buf with
  | zero => cases done
  | succ fuel ih =>
    by_cases inside : 2 ≤ cluster ∧ cluster < fat32Bad
    · rw [iterDir_pass inside] at done
      split at done
      · grind
      split at done
      · cases done
      · rename_i iterated
        cases done
        exact iterDirEntries_keeps Holds kept initial iterated
      · rename_i iterated
        have next := iterDirEntries_keeps Holds kept initial iterated
        grind
    grind [iterDir_past]

end

/-- An entry that was found has the name, up to case, and it fits. -/
theorem fat32Lookup_found {name : List UInt8}
    (done : fat32Lookup disk vol fuel buf cluster name = .ok (rc, some ent)) :
    foldName ent.name = foldName name ∧ ent.name.length ≤ vfsNameMax := by
  let Good : Option Fat32Dirent → Prop := fun found =>
    ∀ ent, found = some ent → foldName ent.name = foldName name ∧ ent.name.length ≤ vfsNameMax
  have kept : ∀ {d : Fat32Dirent} {found : Option Fat32Dirent}, Good found → d.name.length ≤ vfsNameMax →
      Good (fat32LookupCb name d found).2 := by
    intro d found good short
    unfold fat32LookupCb
    split
    · rename_i hit
      rintro ent ⟨⟩
      exact ⟨(fat32NameEqualCi_iff _ _).mp hit, short⟩
    · exact good
  obtain ⟨⟨rc', found⟩, iterated, onward⟩ := Lib.bind_ok done
  have same : found = some ent := by
    dsimp only at onward
    split at onward
    · cases onward
      rfl
    · cases onward
      rfl
  suffices good : Good found from good ent same
  have initial : Good none := nofun
  unfold fat32IterDir at iterated
  split at iterated
  · grind
  cases buf with
  | none =>
    grind
  | some buf =>
    exact iterDir_keeps Good kept initial (Lib.finish_ok iterated)

end Lookups

/-- From an entry, over names, to another entry. -/
inductive Walk (disk : Disk) (vol : Fat32Vol) : Fat32Dirent → List (List UInt8) → Fat32Dirent → Prop where
  | here : Walk disk vol ent [] ent
  | down {ent next last : Fat32Dirent} {name : List UInt8} {rest : List (List UInt8)}
      (isDir : ent.attributes &&& fatAttrDirectory ≠ 0) (finds : Finds disk vol ent.firstCluster name next)
      (onward : Walk disk vol next rest last) : Walk disk vol ent (name :: rest) last

/-- A directory of the volume. -/
inductive DirAt (disk : Disk) (vol : Fat32Vol) : Nat → Prop where
  | root : DirAt disk vol vol.rootCluster
  | sub (above : DirAt disk vol cluster) (finds : Finds disk vol cluster name ent)
      (isDir : ent.attributes &&& fatAttrDirectory ≠ 0) : DirAt disk vol ent.firstCluster

section Walks

variable {disk : Disk} {vol : Fat32Vol} {ent last : Fat32Dirent} {names : List (List UInt8)}

theorem Walk.unique (first : Walk disk vol ent names last)
    (second : Walk disk vol ent names last') : last = last' := by
  induction first with
  | here =>
    cases second
    rfl
  | down _ finds _ ih =>
    cases second with
    | down _ finds' onward' =>
      grind [Finds.unique]

/-- No scan of a directory of the volume depends on what its buffer held. -/
def VolumeSettled (disk : Disk) (vol : Fat32Vol) : Prop := ∀ cluster, DirAt disk vol cluster → ScanSettled disk vol cluster

theorem VolumeSettled.finds (settled : VolumeSettled disk vol) (dirAt : DirAt disk vol cluster) {name : List UInt8}
    (found : fat32Lookup disk vol fuel (some buf) cluster name = .ok (0, some ent)) :
    Finds disk vol cluster name ent :=
  ⟨fuel, by rw [(settled cluster dirAt).lookup fuel (fun _ => 0) buf, found]⟩

theorem VolumeSettled.lookup (settled : VolumeSettled disk vol) (dirAt : DirAt disk vol cluster)
    {name : List UInt8} (finds : Finds disk vol cluster name ent) :
    ∃ n, ∀ fuel ≥ n, ∀ buf, fat32Lookup disk vol fuel (some buf) cluster name = .ok (0, some ent) := by
  obtain ⟨n, found⟩ := finds
  refine ⟨n, fun fuel enough buf => ?_⟩
  rw [(settled cluster dirAt).lookup fuel buf fun _ => 0]
  exact fat32Lookup_mono found enough

end Walks

section Paths

variable {p : List UInt8}

theorem cString_eq_nil : cString p = [] ↔ p.headD 0 = 0 := by
  cases p with
  | nil => simp [cString]
  | cons byte rest => by_cases zero : byte = 0 <;> simp [cString, zero]

/-- The segment that `fat32_copy_segment` cuts off. -/
theorem segment_eq : (p.takeWhile fun c => c ≠ 0 ∧ c ≠ 0x2F) = (cString p).takeWhile (· ≠ 0x2F) := by
  rw [cString, List.takeWhile_takeWhile]
  grind

theorem cString_drop (inside : n ≤ (cString p).length) : cString (p.drop n) = (cString p).drop n := by
  induction p generalizing n with
  | nil => simp [cString]
  | cons byte rest ih =>
    cases n with
    | zero => rfl
    | succ n =>
      by_cases zero : byte = 0
      · simp [cString, zero] at inside
      · have deeper : cString (byte :: rest) = byte :: cString rest := by simp [cString, zero]
        grind

theorem cString_skipSlashes : cString (fat32SkipSlashes p) = (cString p).dropWhile (· = 0x2F) := by
  induction p with
  | nil => rfl
  | cons byte rest ih =>
    by_cases slash : byte = 0x2F
    · have deeper : cString (byte :: rest) = byte :: cString rest := by simp [cString, slash]
      rw [deeper, fat32SkipSlashes, List.dropWhile_cons_of_pos (by simp [slash]), List.dropWhile_cons_of_pos (by simp [slash])]
      exact ih
    · rw [fat32SkipSlashes, List.dropWhile_cons_of_neg (by simp [slash])]
      by_cases zero : byte = 0
      · simp [cString, zero]
      · have deeper : cString (byte :: rest) = byte :: cString rest := by simp [cString, zero]
        grind [List.dropWhile_cons_of_neg]

/-- The components behind the first segment and the slashes after it. -/
theorem components_behind (some' : cString p ≠ []) (start : (cString p).head? ≠ some 0x2F) :
    let name := p.takeWhile fun c => c ≠ 0 ∧ c ≠ 0x2F
    let rest := fat32SkipSlashes (p.drop name.length)
    components 0x2F (cString p) = name :: components 0x2F (cString rest) ∧ (cString rest).head? ≠ some 0x2F := by
  intro name rest
  have named : name = (cString p).takeWhile (· ≠ 0x2F) := segment_eq
  have inside : name.length ≤ (cString p).length := by
    rw [named]
    exact (List.takeWhile_prefix _).length_le
  have text : cString rest = ((cString p).drop name.length).dropWhile (· = 0x2F) := by
    rw [cString_skipSlashes, cString_drop inside]
  refine ⟨?_, fun slash => ?_⟩
  · rw [(Lib.components_cons some' start).2, ← named, text, Lib.components_dropWhile]
  grind [List.head?_dropWhile_not]

theorem components_nil_iff (start : (cString p).head? ≠ some 0x2F) : components 0x2F (cString p) = [] ↔ cString p = [] := by
  refine ⟨fun none' => ?_, fun none' => by rw [none']; rfl⟩
  by_contra some'
  rw [(Lib.components_cons some' start).2] at none'
  cases none'

theorem fat32Lookup_zero {disk : Disk} {name : List UInt8}
    (done : fat32Lookup disk vol fuel buf cluster name = .ok (rc, some ent)) (positive : ¬ rc < 0) :
    rc = 0 := by
  obtain ⟨⟨rc', found⟩, -, onward⟩ := Lib.bind_ok done
  dsimp only at onward
  split at onward
  · cases onward
    omega
  · cases onward
    rfl

variable {disk : Disk} {vol : Fat32Vol} {cur last : Fat32Dirent} {c calls : Nat} {current : Option Fat32Dirent}

/-- Where a walk of `fat32_lookup_path` is, with the rest of the path. -/
structure AtEntry (disk : Disk) (vol : Fat32Vol) (p : List UInt8) (c : Nat) (current : Option Fat32Dirent)
    (cur : Fat32Dirent) : Prop where
  start : (cString p).head? ≠ some 0x2F
  below : cString p ≠ [] → c = cur.firstCluster ∧ DirAt disk vol c ∧ cur.attributes &&& fatAttrDirectory ≠ 0
  spent : cString p = [] → current = some cur

/-- What `fat32_lookup_path` finds is at the end of a walk. -/
theorem lookupPath_sound {inner : Nat} (settled : VolumeSettled disk vol) (here : AtEntry disk vol p c current cur)
    (done : Lib.loop (lookupPathPass ⟨disk, inner, buffers⟩ vol) fuel ⟨p, c, current, calls⟩ = some (.ok (0, some last))) :
    Walk disk vol cur (components 0x2F (cString p)) last := by
  induction fuel generalizing p c current cur calls with
  | zero => cases done
  | succ fuel ih =>
    simp only [Lib.loop, lookupPathPass, fat32CopySegment] at done
    by_cases spent : cString p = []
    · rw [if_pos (cString_eq_nil.mp spent), here.spent spent] at done
      cases done
      rw [spent]
      exact .here
    obtain ⟨split, start⟩ := components_behind spent here.start
    obtain ⟨rfl, dirAt, isDir⟩ := here.below spent
    rw [if_neg (fun head => spent (cString_eq_nil.mpr head))] at done
    rw [split]
    by_cases long : 257 ≤ (p.takeWhile fun c => c ≠ 0 ∧ c ≠ 0x2F).length
    · grind
    rw [if_neg long] at done
    dsimp only at done
    cases looked : fat32Lookup disk vol inner (some (buffers calls)) cur.firstCluster
        (p.takeWhile fun c => c ≠ 0 ∧ c ≠ 0x2F) with
    | error halt =>
      grind
    | ok answer =>
      obtain ⟨rc, found⟩ := answer
      rw [looked] at done
      dsimp only at done
      by_cases negative : rc < 0
      · grind
      rw [if_neg negative] at done
      cases found with
      | none => cases done
      | some next =>
        obtain rfl := fat32Lookup_zero looked negative
        have finds := settled.finds dirAt looked
        refine .down isDir finds ?_
        dsimp only at done
        by_cases ended : cString (fat32SkipSlashes (p.drop (p.takeWhile fun c => c ≠ 0 ∧ c ≠ 0x2F).length)) = []
        · rw [if_neg (not_not.mpr (cString_eq_nil.mp ended))] at done
          exact ih ⟨start, fun some' => absurd ended some', fun _ => rfl⟩ done
        · rw [if_pos (fun head => ended (cString_eq_nil.mpr head))] at done
          by_cases file : next.attributes &&& fatAttrDirectory = 0
          · grind
          rw [if_neg file] at done
          by_cases low : next.firstCluster < 2
          · grind
          rw [if_neg low] at done
          exact ih ⟨start, fun _ => ⟨rfl, .sub dirAt finds file, file⟩, fun none' => absurd none' ended⟩ done

/-- A walk is made by `fat32_lookup_path`. -/
theorem lookupPath_complete (settled : VolumeSettled disk vol) {names : List (List UInt8)} (walk : Walk disk vol cur names last)
    (split : components 0x2F (cString p) = names) (here : AtEntry disk vol p c current cur) :
    ∃ n, ∀ inner ≥ n, ∀ fuel ≥ n, ∀ buffers,
      Lib.loop (lookupPathPass ⟨disk, inner, buffers⟩ vol) fuel ⟨p, c, current, calls⟩ = some (.ok (0, some last)) := by
  induction walk generalizing p c current calls with
  | here =>
    have spent := (components_nil_iff here.start).mp split
    refine ⟨1, fun inner _ fuel enough buffers => ?_⟩
    obtain ⟨fuel, rfl⟩ : ∃ rest, fuel = rest + 1 := ⟨fuel - 1, by omega⟩
    simp only [Lib.loop, lookupPathPass]
    rw [if_pos (cString_eq_nil.mp spent), here.spent spent]
  | @down cur next last name rest isDir finds onward ih =>
    have some' : cString p ≠ [] := fun spent => by
      rw [spent] at split
      cases split
    obtain ⟨split', start⟩ := components_behind some' here.start
    rw [split] at split'
    injection split' with named behind
    obtain ⟨rfl, dirAt, -⟩ := here.below some'
    have onwardHere : AtEntry disk vol (fat32SkipSlashes (p.drop (p.takeWhile fun c => c ≠ 0 ∧ c ≠ 0x2F).length))
        (if cString (fat32SkipSlashes (p.drop (p.takeWhile fun c => c ≠ 0 ∧ c ≠ 0x2F).length)) = [] then cur.firstCluster
          else next.firstCluster) (some next) next := by
      refine ⟨start, fun more => ?_, fun _ => rfl⟩
      have below : next.attributes &&& fatAttrDirectory ≠ 0 := by
        cases onward with
        | here => exact absurd ((components_nil_iff start).mp behind.symm) more
        | down isDir' _ _ => exact isDir'
      rw [if_neg more]
      exact ⟨rfl, .sub dirAt finds below, below⟩
    obtain ⟨n, loops⟩ := @ih _ _ (calls + 1) _ behind.symm onwardHere
    obtain ⟨m, looks⟩ := settled.lookup dirAt finds
    have short : ¬ 257 ≤ (p.takeWhile fun c => c ≠ 0 ∧ c ≠ 0x2F).length := by
      obtain ⟨folded, fits⟩ := fat32Lookup_found (looks m (le_refl m) fun _ => 0)
      have length := cString_length_of_fold folded
      have whole : cString (p.takeWhile fun c => c ≠ 0 ∧ c ≠ 0x2F) = p.takeWhile fun c => c ≠ 0 ∧ c ≠ 0x2F :=
        List.takeWhile_eq_self_iff.mpr fun byte member => by
          grind [List.mem_takeWhile_imp]
      have fits' : (cString next.name).length ≤ next.name.length := (List.takeWhile_prefix _).length_le
      rw [named, whole] at length
      unfold vfsNameMax at fits
      omega
    refine ⟨max n m + 1, fun inner enoughInner fuel enough buffers => ?_⟩
    obtain ⟨fuel, rfl⟩ : ∃ rest, fuel = rest + 1 := ⟨fuel - 1, by omega⟩
    simp only [Lib.loop, lookupPathPass, fat32CopySegment]
    rw [if_neg (fun head => some' (cString_eq_nil.mpr head)), if_neg short]
    dsimp only
    rw [← named, looks inner (by omega)]
    dsimp only
    rw [if_neg (Int.lt_irrefl 0), named]
    by_cases ended : cString (fat32SkipSlashes (p.drop (p.takeWhile fun c => c ≠ 0 ∧ c ≠ 0x2F).length)) = []
    · rw [if_neg (not_not.mpr (cString_eq_nil.mp ended))]
      grind
    · rw [if_pos (fun head => ended (cString_eq_nil.mpr head))]
      have dirNext := (onwardHere.below ended).2.2
      have proper : ¬ next.firstCluster < 2 := by
        cases onward with
        | here => exact absurd ((components_nil_iff start).mp behind.symm) ended
        | down _ finds' _ => exact Nat.not_lt.mpr finds'.proper
      grind

/-- The walk over a path starts at the root, which needs no entry. -/
theorem AtEntry.root (some' : cString (fat32SkipSlashes p) ≠ []) :
    AtEntry disk vol (fat32SkipSlashes p) vol.rootCluster none (fat32MakeRootDirent vol) := by
  refine ⟨fun slash => ?_, fun _ => ⟨rfl, .root, show fatAttrDirectory &&& fatAttrDirectory ≠ 0 by decide⟩, fun none' => absurd none' some'⟩
  grind [List.head?_dropWhile_not, cString_skipSlashes]

theorem components_skipSlashes : components 0x2F (cString (fat32SkipSlashes p)) = components 0x2F (cString p) := by
  rw [cString_skipSlashes, Lib.components_dropWhile]

/-- `fat32_lookup_path` finds what is at the end of the walk over the components. -/
theorem fat32LookupPath_sound (settled : VolumeSettled disk vol)
    (done : fat32LookupPath ⟨disk, fuel, buffers⟩ vol path = .ok (0, some last)) :
    Walk disk vol (fat32MakeRootDirent vol) (components 0x2F (cString path)) last := by
  unfold fat32LookupPath at done
  by_cases empty : path.headD 0 = 0
  · rw [if_pos empty] at done
    cases done
    rw [cString_eq_nil.mpr empty]
    exact .here
  rw [if_neg empty] at done
  rw [← components_skipSlashes]
  by_cases spent : cString (fat32SkipSlashes path) = []
  · rw [if_pos (cString_eq_nil.mp spent)] at done
    cases done
    rw [spent]
    exact .here
  · rw [if_neg fun head => spent (cString_eq_nil.mpr head)] at done
    exact lookupPath_sound settled (.root spent) (Lib.finish_ok done)

theorem fat32LookupPath_complete (settled : VolumeSettled disk vol)
    (walk : Walk disk vol (fat32MakeRootDirent vol) (components 0x2F (cString path)) last) :
    ∃ n, ∀ fuel ≥ n, ∀ buffers, fat32LookupPath ⟨disk, fuel, buffers⟩ vol path = .ok (0, some last) := by
  unfold fat32LookupPath
  by_cases empty : path.headD 0 = 0
  · rw [cString_eq_nil.mpr empty] at walk
    cases walk
    refine ⟨0, fun fuel _ buffers => by rw [if_pos empty]⟩
  rw [← components_skipSlashes] at walk
  by_cases spent : cString (fat32SkipSlashes path) = []
  · rw [spent] at walk
    cases walk
    refine ⟨0, fun fuel _ buffers => by rw [if_neg empty, if_pos (cString_eq_nil.mp spent)]⟩
  · obtain ⟨n, loops⟩ := @lookupPath_complete _ _ _ _ _ _ 0 _ settled _ walk rfl (.root spent)
    refine ⟨n, fun fuel enough buffers => ?_⟩
    rw [if_neg empty, if_neg fun head => spent (cString_eq_nil.mpr head)]
    exact congrArg Lib.finish (loops fuel enough fuel enough buffers)

end Paths

end Velox
