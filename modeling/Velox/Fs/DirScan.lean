import Velox.Fs.Fat32Dir
import Velox.Fs.Fat32Read

/-! What a directory lists, and that the two scanners of `fs/fat32.c` see it alike. -/

namespace Velox

open Lib (Bytes le16 le32)

variable {fault : FsFault} {result : List Fat32Dirent}

/-- What one raw entry means after the long name collected so far. -/
inductive EntryKind where
  | marker
  | skip (lfn : LfnState)
  | overrun (lfn : LfnState)
  | entry (d : Fat32Dirent) (lfn : LfnState)

/-- The long name state after one more slot. -/
def LfnState.afterSlot (lfn : LfnState) (slot : Bytes) : LfnState :=
  let lfn := if slot 0 &&& 0x40 ≠ 0 then ⟨[], slot 0 &&& 0xBF, slot 13, true⟩ else lfn
  let lfn := if !lfn.valid || slot 0 &&& 0xBF != lfn.expectedSeq then { lfn with valid := false } else lfn
  if lfn.valid then { lfnPush lfn slot with expectedSeq := (lfnPush lfn slot).expectedSeq - 1 } else lfn

def entryName (lfn : LfnState) (raw : Bytes) : Except FsFault (List UInt8) :=
  if lfn.valid && lfn.chars.length > 0 && lfn.expectedSeq == 0 && lfnChecksum raw == lfn.checksum then
    utf16leToUtf8 lfn.chars
  else .ok (build83Name raw)

def Fat32Dirent.ofRaw (raw : Bytes) (name : List UInt8) : Fat32Dirent where
  name := name
  attributes := raw 11
  firstCluster := le16 raw 20 * 2 ^ 16 + le16 raw 26
  fileSize := le32 raw 28
  created := ⟨le16 raw 16, le16 raw 14⟩
  modified := ⟨le16 raw 24, le16 raw 22⟩
  accessed := ⟨le16 raw 18, 0⟩

def entryKind (lfn : LfnState) (raw : Bytes) : EntryKind :=
  if raw 0 = 0x00 then .marker
  else if raw 0 = 0xE5 then .skip lfn.discard
  else if raw 11 = fatAttrLfn then .skip (lfn.afterSlot raw)
  else if raw 11 &&& fatAttrVolumeId ≠ 0 then .skip lfn.discard
  else
    match entryName lfn raw with
    | .error _ => .overrun lfn.discard
    | .ok name => .entry (.ofRaw raw name) lfn.discard

/-- How a scan of raw entries ends. -/
inductive ScanEnd where
  | marker
  | overrun
  | running (lfn : LfnState)
deriving DecidableEq, Repr

/-- The entries that a sequence of raw entries lists. -/
def scanEntries : LfnState → List Bytes → List Fat32Dirent × ScanEnd
  | lfn, [] => ([], .running lfn)
  | lfn, raw :: rest =>
    match entryKind lfn raw with
    | .marker => ([], .marker)
    | .overrun _ => ([], .overrun)
    | .skip lfn => scanEntries lfn rest
    | .entry d lfn => (d :: (scanEntries lfn rest).1, (scanEntries lfn rest).2)

theorem utf16leToUtf8_error (failed : utf16leToUtf8 chars = .error fault) :
    fault = .nameOverrun := by
  unfold utf16leToUtf8 at failed
  grind

section Process

variable {maxEntries : Nat} {raw : Bytes} {rest raws : List Bytes} {lfn : LfnState} {out : List Fat32Dirent}

theorem processDirEntries_cons : processDirEntries maxEntries (raw :: rest) lfn out = match entryKind lfn raw with
      | .marker => .ok (true, lfn, out)
      | .skip lfn => processDirEntries maxEntries rest lfn out
      | .overrun lfn => if maxEntries ≤ out.length then processDirEntries maxEntries rest lfn out
        else .error .nameOverrun
      | .entry d lfn => processDirEntries maxEntries rest lfn (if maxEntries ≤ out.length then out else out ++ [d]) := by
  rw [processDirEntries, entryKind]
  split
  · rfl
  split
  · rfl
  split
  · rfl
  split
  · rfl
  rw [entryName]
  by_cases long : (lfn.valid && lfn.chars.length > 0 && lfn.expectedSeq == 0 && lfnChecksum raw == lfn.checksum) = true
  · rw [if_pos long, if_pos long]
    cases decoded : utf16leToUtf8 lfn.chars with
    | error fault =>
      cases utf16leToUtf8_error decoded
      rfl
    | ok name =>
      split <;> rfl
  · split <;> rfl

theorem processDirEntries_append {first : List Bytes} : processDirEntries maxEntries (first ++ second) lfn out =
      match processDirEntries maxEntries first lfn out with
      | .ok (false, lfn, out) => processDirEntries maxEntries second lfn out
      | ended => ended := by
  induction first generalizing lfn out with
  | nil => rfl
  | cons raw rest ih =>
    grind [processDirEntries_cons]

theorem processDirEntries_error (failed : processDirEntries maxEntries raws lfn out = .error fault) :
    fault = .nameOverrun := by
  induction raws generalizing lfn out with
  | nil => cases failed
  | cons raw rest ih =>
    grind [processDirEntries_cons]

/-- What was written stays. -/
theorem processDirEntries_grows {ended : Bool}
    (done : processDirEntries maxEntries raws lfn out = .ok (ended, lfn', out')) :
    out.length ≤ out'.length := by
  induction raws generalizing lfn out with
  | nil =>
    cases done
    exact le_refl _
  | cons raw rest ih =>
    grind [processDirEntries_cons]

/-- `process_dir_cluster` writes what its entries list, as far as there is room. -/
theorem processDirEntries_scan (room : out.length ≤ maxEntries) : match (scanEntries lfn raws).2 with
    | .marker => ∃ lfn', processDirEntries maxEntries raws lfn out =
        .ok (true, lfn', (out ++ (scanEntries lfn raws).1).take maxEntries)
    | .running lfn' => processDirEntries maxEntries raws lfn out =
        .ok (false, lfn', (out ++ (scanEntries lfn raws).1).take maxEntries)
    | .overrun => ∀ ended lfn' out', processDirEntries maxEntries raws lfn out = .ok (ended, lfn', out') →
        maxEntries ≤ out'.length := by
  induction raws generalizing lfn out with
  | nil => simp [scanEntries, processDirEntries, List.take_of_length_le room]
  | cons raw rest ih =>
    rw [processDirEntries_cons, scanEntries]
    cases entryKind lfn raw with
    | marker => simp [List.take_of_length_le room]
    | skip lfn => exact ih room
    | overrun lfn =>
      grind [processDirEntries_grows]
    | entry d lfn =>
      by_cases full : maxEntries ≤ out.length
      · grind
      · have more := @ih lfn (out ++ [d]) (by grind)
        simp only [List.append_assoc, List.singleton_append] at more
        simp only [if_neg full]
        exact more

end Process

section Iterate

variable {σ : Type} {cb : Fat32Dirent → σ → Int × σ} {raw : Bytes} {rest raws : List Bytes} {lfn : LfnState} {ctx : σ}

/-- Hand entries to a callback until it ends the walk. -/
def feed (cb : Fat32Dirent → σ → Int × σ) : List Fat32Dirent → σ → Option Int × σ
  | [], ctx => (none, ctx)
  | d :: rest, ctx =>
    if (cb d ctx).1 < 0 then (some (cb d ctx).1, (cb d ctx).2)
    else if 0 < (cb d ctx).1 then (some 0, (cb d ctx).2)
    else feed cb rest (cb d ctx).2

theorem feed_append (first second : List Fat32Dirent) : feed cb (first ++ second) ctx = match feed cb first ctx with
      | (some rc, ctx) => (some rc, ctx)
      | (none, ctx) => feed cb second ctx := by
  induction first generalizing ctx with
  | nil => rfl
  | cons d rest ih =>
    simp only [List.cons_append, feed]
    grind

theorem iterDirEntries_cons : iterDirEntries cb (raw :: rest) lfn ctx = match entryKind lfn raw with
      | .marker => .ok (some 0, lfn, ctx)
      | .skip lfn => iterDirEntries cb rest lfn ctx
      | .overrun _ => .error .nameOverrun
      | .entry d lfn =>
        if (cb d ctx).1 < 0 then .ok (some (cb d ctx).1, lfn, (cb d ctx).2)
        else if 0 < (cb d ctx).1 then .ok (some 0, lfn, (cb d ctx).2)
        else iterDirEntries cb rest lfn (cb d ctx).2 := by
  rw [iterDirEntries, entryKind]
  split
  · rfl
  split
  · rfl
  split
  · rfl
  split
  · rfl
  rw [entryName]
  by_cases long : (lfn.valid && lfn.chars.length > 0 && lfn.expectedSeq == 0 && lfnChecksum raw == lfn.checksum) = true
  · rw [if_pos long, if_pos long]
    cases decoded : utf16leToUtf8 lfn.chars with
    | error fault =>
      cases utf16leToUtf8_error decoded
      rfl
    | ok name => rfl
  · rw [if_neg long, if_neg long]
    rfl

theorem iterDirEntries_error (failed : iterDirEntries cb raws lfn ctx = .error fault) :
    fault = .nameOverrun := by
  induction raws generalizing lfn ctx with
  | nil => cases failed
  | cons raw rest ih =>
    grind [iterDirEntries_cons]

/-- `fat32_iter_dir` hands on what its entries list. -/
theorem iterDirEntries_scan : match feed cb (scanEntries lfn raws).1 ctx, (scanEntries lfn raws).2 with
    | (some rc, ctx'), _ => ∃ lfn', iterDirEntries cb raws lfn ctx = .ok (some rc, lfn', ctx')
    | (none, ctx'), .marker => ∃ lfn', iterDirEntries cb raws lfn ctx = .ok (some 0, lfn', ctx')
    | (none, ctx'), .running lfn' => iterDirEntries cb raws lfn ctx = .ok (none, lfn', ctx')
    | (none, _), .overrun => iterDirEntries cb raws lfn ctx = .error .nameOverrun := by
  induction raws generalizing lfn ctx with
  | nil => rfl
  | cons raw rest ih =>
    rw [iterDirEntries_cons, scanEntries]
    cases entryKind lfn raw with
    | marker => exact ⟨_, rfl⟩
    | skip lfn => exact ih
    | overrun lfn => rfl
    | entry d lfn =>
      dsimp only [feed]
      by_cases failed : (cb d ctx).1 < 0
      · simp only [if_pos failed]
        exact ⟨_, rfl⟩
      by_cases stopped : 0 < (cb d ctx).1
      · simp only [if_neg failed, if_pos stopped]
        exact ⟨_, rfl⟩
      grind

end Iterate

/-- What a cluster lists, read into a buffer of zeros. -/
def clusterScan (disk : Disk) (vol : Fat32Vol) (cluster : Nat) (lfn : LfnState) : Option (List Fat32Dirent × ScanEnd) :=
  (fat32ReadCluster disk vol cluster fun _ => 0).map fun filled => scanEntries lfn (rawEntries vol filled)

/-- A directory lists some entries, from a cluster on, and comes to a regular end
after some more clusters. -/
inductive Lists (disk : Disk) (vol : Fat32Vol) : Nat → Nat → LfnState → List Fat32Dirent → Prop where
  | past (outside : ¬ (2 ≤ cluster ∧ cluster < fat32Bad)) : Lists disk vol 0 cluster lfn []
  | last (inside : 2 ≤ cluster ∧ cluster < fat32Bad) (seen : clusterScan disk vol cluster lfn = some (es, .marker)) :
      Lists disk vol 0 cluster lfn es
  | more (inside : 2 ≤ cluster ∧ cluster < fat32Bad)
      (seen : clusterScan disk vol cluster lfn = some (es, .running lfn'))
      (good : fat32ReadFatEntry disk vol cluster ≠ fat32Bad)
      (rest : Lists disk vol n (fat32ReadFatEntry disk vol cluster) lfn' es') :
      Lists disk vol (n + 1) cluster lfn (es ++ es')

/-- At these places of a walk it does not matter what the buffer held before. -/
structure ScanFixed (disk : Disk) (vol : Fat32Vol) (At : Nat → LfnState → Prop) : Prop where
  seen : ∀ {cluster lfn}, At cluster lfn → 2 ≤ cluster ∧ cluster < fat32Bad → ∀ buf,
    (fat32ReadCluster disk vol cluster buf).map (fun filled => scanEntries lfn (rawEntries vol filled)) =
      clusterScan disk vol cluster lfn
  onward : ∀ {cluster lfn es lfn'}, At cluster lfn → 2 ≤ cluster ∧ cluster < fat32Bad →
    clusterScan disk vol cluster lfn = some (es, .running lfn') →
    fat32ReadFatEntry disk vol cluster ≠ fat32Bad → At (fat32ReadFatEntry disk vol cluster) lfn'

section Walk

variable {disk : Disk} {vol : Fat32Vol} {At : Nat → LfnState → Prop} {maxEntries fuel n cluster : Nat} {lfn : LfnState}
variable {es out : List Fat32Dirent} {buf : Bytes}

theorem ScanFixed.cases (fixed : ScanFixed disk vol At) (here : At cluster lfn)
    (inside : 2 ≤ cluster ∧ cluster < fat32Bad) {ended : ScanEnd}
    (seen : clusterScan disk vol cluster lfn = some (es, ended)) (buf : Bytes) :
    ∃ filled, fat32ReadCluster disk vol cluster buf = some filled ∧
      scanEntries lfn (rawEntries vol filled) = (es, ended) := by
  have same := (fixed.seen here inside buf).trans seen
  rw [Option.map_eq_some_iff] at same
  exact same

theorem readDir_past (outside : ¬ (2 ≤ cluster ∧ cluster < fat32Bad)) :
    Lib.loop (readDirPass disk vol maxEntries) (fuel + 1) ⟨cluster, lfn, out, buf⟩ = some (.ok (true, out)) := by
  simp only [Lib.loop, readDirPass, if_pos outside]

theorem readDir_pass (inside : 2 ≤ cluster ∧ cluster < fat32Bad) :
    Lib.loop (readDirPass disk vol maxEntries) (fuel + 1) ⟨cluster, lfn, out, buf⟩ =
      match fat32ReadCluster disk vol cluster buf with
      | none => some (.ok (false, out))
      | some filled =>
        match processDirEntries maxEntries (rawEntries vol filled) lfn out with
        | .error fault => some (.error (.fault fault))
        | .ok (true, _, out) => some (.ok (true, out))
        | .ok (false, lfn, out) =>
          if fat32ReadFatEntry disk vol cluster = fat32Bad then some (.ok (false, out))
          else Lib.loop (readDirPass disk vol maxEntries) fuel
            ⟨fat32ReadFatEntry disk vol cluster, lfn, out, filled⟩ := by
  simp only [Lib.loop, readDirPass, if_neg (not_not.mpr inside), processDirCluster]
  grind

theorem readDir_grows {ok : Bool}
    (done : Lib.loop (readDirPass disk vol maxEntries) fuel ⟨cluster, lfn, out, buf⟩ = some (.ok (ok, result))) :
    out.length ≤ result.length := by
  induction fuel generalizing cluster lfn out buf with
  | zero => cases done
  | succ fuel ih =>
    by_cases inside : 2 ≤ cluster ∧ cluster < fat32Bad
    · rw [readDir_pass inside] at done
      split at done
      · grind
      split at done
      · cases done
      · rename_i written
        cases done
        exact processDirEntries_grows written
      · rename_i written
        have grown := processDirEntries_grows written
        grind
    grind [readDir_past]

/-- A walk of `fat32_read_dir` that ends with room left has seen the directory. -/
theorem readDir_lists (fixed : ScanFixed disk vol At) (here : At cluster lfn)
    (room : out.length ≤ maxEntries)
    (done : Lib.loop (readDirPass disk vol maxEntries) fuel ⟨cluster, lfn, out, buf⟩ = some (.ok (true, result)))
    (short : result.length < maxEntries) :
    ∃ n es, n < fuel ∧ Lists disk vol n cluster lfn es ∧ result = out ++ es := by
  induction fuel generalizing cluster lfn out buf with
  | zero => cases done
  | succ fuel ih =>
    by_cases inside : 2 ≤ cluster ∧ cluster < fat32Bad
    · rw [readDir_pass inside] at done
      split at done
      · cases done
      rename_i filled read
      have seen : clusterScan disk vol cluster lfn = some (scanEntries lfn (rawEntries vol filled)) := by
        grind [ScanFixed.seen]
      have scanned := @processDirEntries_scan maxEntries (rawEntries vol filled) lfn out room
      obtain ⟨⟨es, ended⟩, scan⟩ : ∃ scan, scan = scanEntries lfn (rawEntries vol filled) := ⟨_, rfl⟩
      rw [← scan] at seen scanned
      have whole : ∀ list : List Fat32Dirent, (list.take maxEntries).length < maxEntries →
          list.take maxEntries = list := by
        grind [List.take_of_length_le]
      cases ended with
      | marker =>
        obtain ⟨lfn', processed⟩ := scanned
        rw [processed] at done
        cases done
        exact ⟨0, es, Nat.succ_pos _, .last inside seen, whole _ short⟩
      | running lfn' =>
        rw [scanned] at done
        dsimp only at done
        split at done
        · cases done
        rename_i good
        obtain ⟨n, es', below, rest, same⟩ :=
          ih (fixed.onward here inside seen good) (List.length_take_le _ _) done
        have kept := whole _ (lt_of_le_of_lt (readDir_grows done) short)
        rw [kept, List.append_assoc] at same
        exact ⟨n + 1, es ++ es', Nat.succ_lt_succ below, .more inside seen good rest, same⟩
      | overrun =>
        -- A name that does not fit is skipped only when the buffer is full already.
        split at done
        · cases done
        · grind
        · rename_i written
          split at done
          · cases done
          · have full := scanned _ _ _ written
            exact absurd (full.trans (readDir_grows done)) (Nat.not_le.mpr short)
    · rw [readDir_past inside] at done
      cases done
      exact ⟨0, [], Nat.succ_pos _, .past inside, (List.append_nil _).symm⟩

/-- `fat32_read_dir` writes what the directory lists, as far as there is room. -/
theorem Lists.readDir (lists : Lists disk vol n cluster lfn es) (fixed : ScanFixed disk vol At) (here : At cluster lfn)
    (room : out.length ≤ maxEntries) (enough : n < fuel) (buf : Bytes) :
    Lib.loop (readDirPass disk vol maxEntries) fuel ⟨cluster, lfn, out, buf⟩ =
      some (.ok (true, (out ++ es).take maxEntries)) := by
  induction lists generalizing fuel out buf with
  | past outside =>
    obtain ⟨fuel, rfl⟩ : ∃ rest, fuel = rest + 1 := ⟨fuel - 1, by omega⟩
    rw [readDir_past outside, List.append_nil, List.take_of_length_le room]
  | @last cluster lfn es inside seen =>
    obtain ⟨fuel, rfl⟩ : ∃ rest, fuel = rest + 1 := ⟨fuel - 1, by omega⟩
    obtain ⟨filled, read, scan⟩ := fixed.cases here inside seen buf
    grind [processDirEntries_scan, readDir_pass]
  | @more cluster lfn es lfn' n es' inside seen good rest ih =>
    obtain ⟨fuel, rfl⟩ : ∃ rest, fuel = rest + 1 := ⟨fuel - 1, by omega⟩
    obtain ⟨filled, read, scan⟩ := fixed.cases here inside seen buf
    have scanned := @processDirEntries_scan maxEntries (rawEntries vol filled) lfn out room
    rw [scan] at scanned
    dsimp only at scanned
    simp only [readDir_pass inside, read, scanned, if_neg good]
    rw [ih (fixed.onward here inside seen good) (List.length_take_le _ _) (by omega), ← List.append_assoc, List.take_append,
      List.take_take, min_self, List.length_take, @List.take_append _ (out ++ es)]
    grind

theorem Lists.eq_nil (lists : Lists disk vol n cluster lfn es) (outside : ¬ (2 ≤ cluster ∧ cluster < fat32Bad)) :
    es = [] := by
  cases lists with
  | past _ => rfl
  | last inside _ => omega
  | more inside _ _ _ => omega

variable {σ : Type} {cb : Fat32Dirent → σ → Int × σ} {ctx : σ}

theorem iterDir_past (outside : ¬ (2 ≤ cluster ∧ cluster < fat32Bad)) :
    Lib.loop (iterDirPass cb disk vol) (fuel + 1) ⟨cluster, lfn, ctx, buf⟩ = some (.ok (0, ctx)) := by
  simp only [Lib.loop, iterDirPass, if_pos outside]

theorem iterDir_pass (inside : 2 ≤ cluster ∧ cluster < fat32Bad) :
    Lib.loop (iterDirPass cb disk vol) (fuel + 1) ⟨cluster, lfn, ctx, buf⟩ =
      match fat32ReadCluster disk vol cluster buf with
      | none => some (.ok (fat32ErrIo, ctx))
      | some filled =>
        match iterDirEntries cb (rawEntries vol filled) lfn ctx with
        | .error fault => some (.error (.fault fault))
        | .ok (some rc, _, ctx) => some (.ok (rc, ctx))
        | .ok (none, lfn, ctx) =>
          if fat32ReadFatEntry disk vol cluster = fat32Bad then some (.ok (fat32ErrIo, ctx))
          else if fat32Eoc ≤ fat32ReadFatEntry disk vol cluster then some (.ok (0, ctx))
          else Lib.loop (iterDirPass cb disk vol) fuel
            ⟨fat32ReadFatEntry disk vol cluster, lfn, ctx, filled⟩ := by
  simp only [Lib.loop, iterDirPass, if_neg (not_not.mpr inside)]
  grind

/-- `fat32_iter_dir` hands on what the directory lists. -/
theorem Lists.iterDir (lists : Lists disk vol n cluster lfn es) (fixed : ScanFixed disk vol At) (here : At cluster lfn)
    (enough : n < fuel) (buf : Bytes) :
    Lib.loop (iterDirPass cb disk vol) fuel ⟨cluster, lfn, ctx, buf⟩ =
      some (.ok ((feed cb es ctx).1.getD 0, (feed cb es ctx).2)) := by
  induction lists generalizing fuel ctx buf with
  | past outside =>
    obtain ⟨fuel, rfl⟩ : ∃ rest, fuel = rest + 1 := ⟨fuel - 1, by omega⟩
    rw [iterDir_past outside]
    rfl
  | @last cluster lfn es inside seen =>
    obtain ⟨fuel, rfl⟩ : ∃ rest, fuel = rest + 1 := ⟨fuel - 1, by omega⟩
    obtain ⟨filled, read, scan⟩ := fixed.cases here inside seen buf
    grind [iterDirEntries_scan, iterDir_pass]
  | @more cluster lfn es lfn' n es' inside seen good rest ih =>
    obtain ⟨fuel, rfl⟩ : ∃ rest, fuel = rest + 1 := ⟨fuel - 1, by omega⟩
    obtain ⟨filled, read, scan⟩ := fixed.cases here inside seen buf
    have scanned := @iterDirEntries_scan σ cb (rawEntries vol filled) lfn ctx
    simp only [scan] at scanned
    simp only [iterDir_pass inside, read, feed_append]
    generalize feed cb es ctx = fed at scanned ⊢
    rcases fed with ⟨_ | rc, ctx'⟩
    · rw [scanned]
      by_cases eoc : fat32Eoc ≤ fat32ReadFatEntry disk vol cluster
      · have none' := rest.eq_nil fun onward => by unfold fat32Eoc fat32Bad at *; omega
        simp only [if_neg good, if_pos eoc, none']
        rfl
      · grind [ScanFixed.onward]
    grind

end Walk

/-- The first entry that the name matches ends a lookup. -/
theorem feed_lookup (name : List UInt8) (es : List Fat32Dirent) :
    ∃ stopped, feed (fat32LookupCb name) es none = (stopped, es.find? fun d => fat32NameEqualCi d.name name) ∧
      stopped.getD 0 = 0 := by
  induction es with
  | nil => exact ⟨none, rfl, rfl⟩
  | cons d rest ih =>
    by_cases same : fat32NameEqualCi d.name name = true
    · exact ⟨some 0, by simp [feed, fat32LookupCb, same], rfl⟩
    · simpa [feed, fat32LookupCb, same] using ih

theorem feed_readdir (index : Nat) (es : List Fat32Dirent) (current : Nat) (before : current ≤ index) :
    ∃ stopped reached, feed (fat32ReaddirCb index) es (current, none) = (stopped, reached, es[index - current]?) ∧
      stopped.getD 0 = 0 ∧ (es.length ≤ index - current → stopped = none) := by
  induction es generalizing current with
  | nil => exact ⟨none, current, rfl, rfl, fun _ => rfl⟩
  | cons d rest ih =>
    by_cases here : current = index
    · exact ⟨some 0, current, by simp [feed, fat32ReaddirCb, here], rfl, fun long => by simp [here] at long⟩
    · obtain ⟨stopped, reached, fed, zero, short⟩ := ih (current + 1) (by omega)
      have next : index - current = index - (current + 1) + 1 := by omega
      refine ⟨stopped, reached, ?_, zero, fun long => short ?_⟩
      · simpa [feed, fat32ReaddirCb, here, next] using fed
      grind

theorem scanEntries_append (lfn : LfnState) (first second : List Bytes) : scanEntries lfn (first ++ second) =
      match scanEntries lfn first with
      | (es, .running lfn) => (es ++ (scanEntries lfn second).1, (scanEntries lfn second).2)
      | ended => ended := by
  induction first generalizing lfn with
  | nil => simp [scanEntries]
  | cons raw rest ih =>
    simp only [List.cons_append, scanEntries]
    cases entryKind lfn raw with
    | marker => rfl
    | overrun lfn => rfl
    | skip lfn => exact ih lfn
    | entry d lfn =>
      grind

theorem rawEntries_congr {first : Bytes} (same : ∀ i < 32 * count, first i = second i) :
    (List.range count).map (rawEntry first) = (List.range count).map (rawEntry second) := by
  refine List.map_congr_left fun i member => funext fun j => ?_
  unfold rawEntry
  grind

end Velox
