import Mathlib.Order.Filter.AtTopBot.Basic
import Velox.Fs.PathNames

namespace Velox

open Lib (Bytes components)
open Filter (atTop)

def dot : List UInt8 := [0x2E]
def dotDot : List UInt8 := [0x2E, 0x2E]

/-- What can stand between the slashes of a path. -/
structure IsName (name : List UInt8) : Prop where
  some' : name ≠ []
  whole : 0x2F ∉ name
  text : 0 ∉ name

/-- The directory that an entry stands for: the root is written as cluster 0. -/
def Fat32Vol.dirOf (vol : Fat32Vol) (ent : Fat32Dirent) : Nat :=
  if ent.firstCluster < 2 then vol.rootCluster else ent.firstCluster

/-- Every directory below another one has an entry `..` that leads back, with the root written as
cluster 0. -/
def ParentsHeld (disk : Disk) (vol : Fat32Vol) : Prop :=
  ∀ {cluster name sub}, DirAt disk vol cluster → Finds disk vol cluster name sub →
    sub.attributes &&& fatAttrDirectory ≠ 0 → foldName name ≠ dot → foldName name ≠ dotDot →
    2 ≤ sub.firstCluster ∧ ∃ up, Finds disk vol sub.firstCluster dotDot up ∧ up.attributes &&& fatAttrDirectory ≠ 0 ∧
      up.firstCluster = if cluster = vol.rootCluster then 0 else cluster

/-- The directory at the end of some names, with cluster 0 read as the root. -/
inductive Leads (disk : Disk) (vol : Fat32Vol) : Nat → List (List UInt8) → Nat → Prop where
  | here : Leads disk vol cluster [] cluster
  | down (finds : Finds disk vol cluster name ent) (isDir : ent.attributes &&& fatAttrDirectory ≠ 0)
      (onward : Leads disk vol (vol.dirOf ent) rest last) : Leads disk vol cluster (name :: rest) last

/-- The same over entries that have a cluster of their own. -/
inductive Descends (disk : Disk) (vol : Fat32Vol) : Nat → List (List UInt8) → Nat → Prop where
  | here : Descends disk vol cluster [] cluster
  | down (isName : IsName name) (finds : Finds disk vol cluster name ent)
      (isDir : ent.attributes &&& fatAttrDirectory ≠ 0) (proper : 2 ≤ ent.firstCluster)
      (onward : Descends disk vol ent.firstCluster rest last) : Descends disk vol cluster (name :: rest) last

/-- `d/s/..` -/
def detour (d s : List UInt8) : List UInt8 := d ++ 0x2F :: (s ++ 0x2F :: dotDot)

/-- Going down from `d` into `s` and up again is no detour: what is looked up from there and what is
listed there is the same, with enough passes of the loops and whatever the buffers held. -/
structure DownUp (disk : Disk) (vol : Fat32Vol) (d s : List UInt8) : Prop where
  lookup : ∀ r, components 0x2F (cString r) ≠ [] → ∃ n, ∀ fuel ≥ n, ∀ buffers buffers',
    fat32LookupPath ⟨disk, fuel, buffers⟩ vol (detour d s ++ 0x2F :: r) =
      fat32LookupPath ⟨disk, fuel, buffers'⟩ vol (d ++ 0x2F :: r)
  listing : ∃ n, ∀ fuel ≥ n, ∀ buffers buffers' maxEntries,
    fat32ReadDirPath ⟨disk, fuel, buffers⟩ vol (detour d s) maxEntries =
      fat32ReadDirPath ⟨disk, fuel, buffers'⟩ vol d maxEntries

/-- `fat32_lookup_path` gives up on the path: it goes on from an entry that stands for the root. -/
def Unresolved (disk : Disk) (vol : Fat32Vol) (path : List UInt8) : Prop :=
  ∃ n, ∀ fuel ≥ n, ∀ buffers, fat32LookupPath ⟨disk, fuel, buffers⟩ vol path = .ok (fat32ErrIo, none)

section Texts

variable {d s r name : List UInt8} {names : List (List UInt8)}

theorem cString_append (text : 0 ∉ d) (r : List UInt8) : cString (d ++ r) = d ++ cString r :=
  List.takeWhile_append_of_pos fun _ member => decide_eq_true fun zero => text (zero ▸ member)

theorem cString_of_text (text : 0 ∉ d) : cString d = d := by
  have whole := cString_append text []
  rwa [List.append_nil, show cString [] = [] from rfl, List.append_nil] at whole

theorem IsName.components (isName : IsName name) : components 0x2F name = [name] :=
  Lib.components_of_notMem isName.some' isName.whole

theorem components_isName {path : List UInt8} (member : name ∈ components 0x2F (cString path)) : IsName name := by
  refine ⟨?_, Lib.notMem_of_components member, ?_⟩
  · simpa using (List.mem_filter.mp member).2
  · intro zero
    have inside := Lib.components_subset member zero
    have passed := List.mem_takeWhile_imp inside
    simp at passed

/-- The components of a path that goes on after another one. -/
theorem components_onward (text : 0 ∉ d) : components 0x2F (cString (d ++ 0x2F :: r)) =
    components 0x2F d ++ components 0x2F (cString r) := by
  have slash : cString (0x2F :: r) = 0x2F :: cString r := by simp [cString]
  rw [cString_append text, slash, Lib.components_append_sep]

theorem detour_text (text : 0 ∉ d) (isName : IsName s) : 0 ∉ detour d s := by
  have ending : (0 : UInt8) ∉ dotDot := by decide
  simp [detour, text, isName.text, ending]

theorem components_detour (isName : IsName s) : components 0x2F (detour d s) = components 0x2F d ++ [s, dotDot] := by
  rw [detour, Lib.components_append_sep, Lib.components_append_sep, isName.components]
  rfl

/-- A text for some names and one more. -/
theorem components_flatMap (isNames : ∀ name ∈ names, IsName name) (last : List UInt8) :
    components 0x2F (names.flatMap (· ++ [0x2F]) ++ last) = names ++ components 0x2F last := by
  induction names with
  | nil => rfl
  | cons name rest ih =>
    rw [List.flatMap_cons, List.append_assoc, List.append_assoc, List.singleton_append, Lib.components_append_sep,
      (isNames name List.mem_cons_self).components, ih fun other member => isNames other (List.mem_cons_of_mem _ member)]
    rfl

end Texts

section Walks

variable {disk : Disk} {vol : Fat32Vol} {name : List UInt8} {names before after : List (List UInt8)} {ent : Fat32Dirent}
variable {cluster start last : Nat}

theorem Finds.short (finds : Finds disk vol cluster name ent) (isName : IsName name) : ¬ 257 ≤ name.length := by
  obtain ⟨fuel, found⟩ := finds
  obtain ⟨folded, fits⟩ := fat32Lookup_found found
  have length := cString_length_of_fold folded
  have fits' : (cString ent.name).length ≤ ent.name.length := (List.takeWhile_prefix _).length_le
  rw [cString_of_text isName.text] at length
  unfold vfsNameMax at fits
  omega

/-- One name of a walk that is found: what the walk does next. -/
theorem Finds.step (finds : Finds disk vol cluster name ent) (isName : IsName name) (mounted : vol.Mounted) :
    ∀ᶠ fuel in atTop, ∀ buffers calls rest, lookupNames ⟨disk, fuel, buffers⟩ vol calls cluster (name :: rest) =
      if rest = [] then .ok (0, some ent)
      else if ent.attributes &&& fatAttrDirectory = 0 then .ok (fat32ErrNotdir, none)
      else if ent.firstCluster < 2 then .ok (fat32ErrIo, none)
      else lookupNames ⟨disk, fuel, buffers⟩ vol (calls + 1) ent.firstCluster rest := by
  filter_upwards [Filter.eventually_atTop.mpr (finds.lookup mounted)] with fuel looks buffers calls rest
  rw [lookupNames, if_neg (finds.short isName), looks]
  rfl

section

variable (descends : Descends disk vol start names last)
include descends

theorem Descends.proper (low : 2 ≤ start) : 2 ≤ last := by
  induction descends with
  | here => exact low
  | down _ _ _ proper _ ih => exact ih proper

theorem Descends.isName : ∀ name ∈ names, IsName name := by
  induction descends with
  | here => simp
  | down isName _ _ _ _ ih =>
    grind

/-- A walk over names that all have a cluster goes on from the last of them. -/
theorem Descends.onward (mounted : vol.Mounted) :
    ∀ᶠ fuel in atTop, ∀ buffers calls rest, rest ≠ [] →
      lookupNames ⟨disk, fuel, buffers⟩ vol calls start (names ++ rest) =
        lookupNames ⟨disk, fuel, buffers⟩ vol (calls + names.length) last rest := by
  induction descends with
  | here => simp
  | down isName finds isDir proper _ ih =>
    filter_upwards [finds.step isName mounted, ih] with fuel step ih buffers calls rest some'
    rw [List.cons_append, step, if_neg (by simp [some']), if_neg isDir, if_neg (Nat.not_lt.mpr proper), ih _ _ _ some',
      List.length_cons, Nat.add_assoc, Nat.add_comm 1]

/-- The entry at the end of a walk is that of the directory there. -/
theorem Descends.entry (mounted : vol.Mounted) (some' : names ≠ []) :
    ∃ ent : Fat32Dirent, ent.attributes &&& fatAttrDirectory ≠ 0 ∧ vol.dirOf ent = last ∧
      ∀ᶠ fuel in atTop, ∀ buffers calls, lookupNames ⟨disk, fuel, buffers⟩ vol calls start names = .ok (0, some ent) := by
  induction descends with
  | here => exact absurd rfl some'
  | @down cluster name ent rest last isName finds isDir proper onward ih =>
    by_cases none' : rest = []
    · subst none'
      cases onward
      refine ⟨ent, isDir, if_neg (Nat.not_lt.mpr proper), ?_⟩
      filter_upwards [finds.step isName mounted] with fuel step buffers calls
      rw [step, if_pos rfl]
    · obtain ⟨found, isDir', there, walks⟩ := ih none'
      refine ⟨found, isDir', there, ?_⟩
      filter_upwards [finds.step isName mounted, walks] with fuel step walks buffers calls
      grind

end

/-- From the root this holds for no names, too. -/
theorem Descends.found (descends : Descends disk vol vol.rootCluster names last) (mounted : vol.Mounted) :
    ∃ ent : Fat32Dirent, ent.attributes &&& fatAttrDirectory ≠ 0 ∧ vol.dirOf ent = last ∧
      ∀ᶠ fuel in atTop, ∀ buffers, lookupNames ⟨disk, fuel, buffers⟩ vol 0 vol.rootCluster names = .ok (0, some ent) := by
  by_cases none' : names = []
  · subst none'
    cases descends
    refine ⟨fat32MakeRootDirent vol, show fatAttrDirectory &&& fatAttrDirectory ≠ 0 by decide, ?_, .of_forall fun _ _ => rfl⟩
    exact ite_self _
  grind [entry, Filter.Eventually.mono]

theorem Leads.dirAt (leads : Leads disk vol start names last) (dirAt : DirAt disk vol start) : DirAt disk vol last := by
  induction leads with
  | here => exact dirAt
  | down finds isDir _ ih =>
    refine ih ?_
    unfold Fat32Vol.dirOf
    split
    · exact .root
    · exact .sub dirAt finds isDir

/-- `fat32_lookup_path` comes to an entry that stands for the root. -/
structure Barred (disk : Disk) (vol : Fat32Vol) (start : Nat) (before : List (List UInt8)) (name : List UInt8)
    (ent : Fat32Dirent) : Prop where
  reached : ∃ cluster, Descends disk vol start before cluster ∧ Finds disk vol cluster name ent
  isName : IsName name
  isDir : ent.attributes &&& fatAttrDirectory ≠ 0
  low : ent.firstCluster < 2

/-- A way to a directory has a cluster at every name, or comes to an entry that stands for the root. -/
theorem Leads.route (leads : Leads disk vol start names last) (isNames : ∀ name ∈ names, IsName name) :
    Descends disk vol start names last ∨ ∃ before name after ent, names = before ++ name :: after ∧
      Barred disk vol start before name ent ∧ (after = [] → last = vol.rootCluster) := by
  induction leads with
  | here => exact .inl .here
  | @down cluster name ent rest last finds isDir onward ih =>
    have isName := isNames name List.mem_cons_self
    by_cases low : ent.firstCluster < 2
    · refine .inr ⟨[], name, rest, ent, rfl, ⟨⟨cluster, .here, finds⟩, isName, isDir, low⟩, ?_⟩
      rintro rfl
      cases onward
      exact if_pos low
    · have proper := Nat.not_lt.mp low
      rw [Fat32Vol.dirOf, if_neg low] at ih
      rcases ih fun other member => isNames other (List.mem_cons_of_mem _ member) with
        descends | ⟨before, barrier, after, ent', parts, ⟨⟨there, descends, finds'⟩, isName', isDir', low'⟩, ended⟩
      · exact .inl (.down isName finds isDir proper descends)
      · refine .inr ⟨name :: before, barrier, after, ent', by rw [parts]; rfl, ⟨⟨there, ?_, finds'⟩, isName', isDir', low'⟩, ended⟩
        exact .down isName finds isDir proper descends

/-- There it gives up, unless the path ends. -/
theorem Barred.gives_up (barred : Barred disk vol start before name ent) (mounted : vol.Mounted) :
    ∀ᶠ fuel in atTop, ∀ buffers calls rest, lookupNames ⟨disk, fuel, buffers⟩ vol calls start (before ++ name :: rest) =
      if rest = [] then .ok (0, some ent) else .ok (fat32ErrIo, none) := by
  obtain ⟨⟨cluster, descends, finds⟩, isName, isDir, low⟩ := barred
  filter_upwards [descends.onward mounted, finds.step isName mounted] with fuel onward step buffers calls rest
  grind

/-- What walks from a directory find does not depend on what their buffers held. -/
theorem lookupNames_settled {fuel : Nat} (isNames : ∀ name ∈ names, IsName name) (some' : names ≠ [])
    (settled : ∀ names last, Descends disk vol start names last → ScanSettled disk vol last)
    (buffers buffers' : Nat → Bytes) (calls calls' : Nat) :
    lookupNames ⟨disk, fuel, buffers⟩ vol calls start names = lookupNames ⟨disk, fuel, buffers'⟩ vol calls' start names := by
  induction names generalizing start calls calls' with
  | nil => exact absurd rfl some'
  | cons name rest ih =>
    have isName := isNames name List.mem_cons_self
    have fixed := settled [] start .here
    rw [lookupNames, lookupNames]
    rw [fixed.lookup fuel (buffers' calls') (buffers calls)]
    by_cases long : 257 ≤ name.length
    · grind
    rw [if_neg long, if_neg long]
    cases looked : fat32Lookup disk vol fuel (some (buffers calls)) start name with
    | error halt => rfl
    | ok answer =>
      obtain ⟨rc, found⟩ := answer
      by_cases negative : rc < 0
      · grind
      cases found with
      | none => rfl
      | some ent =>
        dsimp only
        by_cases ended : rest = []
        · grind
        rw [if_neg ended, if_neg ended]
        by_cases file : ent.attributes &&& fatAttrDirectory = 0
        · grind
        rw [if_neg file, if_neg file]
        by_cases low : ent.firstCluster < 2
        · grind
        rw [if_neg low, if_neg low]
        obtain rfl := fat32Lookup_zero looked negative
        have finds : Finds disk vol start name ent := ⟨fuel, by grind [ScanSettled.lookup]⟩
        refine ih (fun other member => isNames other (List.mem_cons_of_mem _ member)) ended ?_ _ _
        intro names last descends
        exact settled _ last (.down isName finds file (Nat.not_lt.mp low) descends)

end Walks

section Answers

variable {disk : Disk} {vol : Fat32Vol} {env : FsEnv} {d s r path : List UInt8} {ent : Fat32Dirent} {maxEntries : Nat}

theorem lookupPath_eventually (disk : Disk) (vol : Fat32Vol) (path : List UInt8) :
    ∀ᶠ fuel in atTop, ∀ buffers, fat32LookupPath ⟨disk, fuel, buffers⟩ vol path =
      lookupNames ⟨disk, fuel, buffers⟩ vol 0 vol.rootCluster (components 0x2F (cString path)) := by
  filter_upwards [Filter.eventually_gt_atTop _] with fuel enough buffers
  exact fat32LookupPath_eq enough

/-- A path without zeros, and what follows it. -/
theorem lookupPath_onward (text : 0 ∉ d) (r : List UInt8) :
    ∀ᶠ fuel in atTop, ∀ buffers, fat32LookupPath ⟨disk, fuel, buffers⟩ vol (d ++ 0x2F :: r) =
      lookupNames ⟨disk, fuel, buffers⟩ vol 0 vol.rootCluster (components 0x2F d ++ components 0x2F (cString r)) := by
  have names := lookupPath_eventually disk vol (d ++ 0x2F :: r)
  rwa [components_onward text] at names

theorem lookupPath_text (text : 0 ∉ d) : ∀ᶠ fuel in atTop, ∀ buffers, fat32LookupPath ⟨disk, fuel, buffers⟩ vol d =
    lookupNames ⟨disk, fuel, buffers⟩ vol 0 vol.rootCluster (components 0x2F d) := by
  have names := lookupPath_eventually disk vol d
  rwa [cString_of_text text] at names

theorem fat32ReadDirPath_found (found : fat32LookupPath env vol path = .ok (0, some ent))
    (isDir : ent.attributes &&& fatAttrDirectory ≠ 0) : fat32ReadDirPath env vol path maxEntries =
      (fat32ReadDir env.disk vol env.fuel (some (env.buffers (components 0x2F (cString path)).length)) (vol.dirOf ent)
        maxEntries).bind fun listed => .ok (if listed.1 then 0 else fat32ErrIo, some listed.2) := by
  rw [fat32ReadDirPath, Lib.bind_of_ok found]
  dsimp only
  rw [if_neg (Int.lt_irrefl 0), if_neg isDir]
  rfl

theorem fat32ReadDirPath_refused (refused : fat32LookupPath env vol path = .ok (fat32ErrIo, none)) :
    fat32ReadDirPath env vol path maxEntries = .ok (fat32ErrIo, none) := by
  rw [fat32ReadDirPath, Lib.bind_of_ok refused]
  rfl

theorem fat32ReadDirPath_writes (found : fat32LookupPath env vol path = .ok (0, some ent))
    (isDir : ent.attributes &&& fatAttrDirectory ≠ 0) : fat32ReadDirPath env vol path maxEntries ≠ .ok (fat32ErrIo, none) := by
  rw [fat32ReadDirPath_found found isDir]
  intro same
  obtain ⟨listed, -, answer⟩ := Lib.bind_ok same
  grind

/-- An answer with enough passes is the only one. -/
theorem Unresolved.not_found (unresolved : Unresolved disk vol path)
    (found : ∀ᶠ fuel in atTop, ∀ buffers, fat32LookupPath ⟨disk, fuel, buffers⟩ vol path = .ok (0, some ent)) : False := by
  obtain ⟨fuel, refused, found⟩ := ((Filter.eventually_atTop.mpr unresolved).and found).exists
  have same := (refused fun _ _ => 0).symm.trans (found fun _ _ => 0)
  cases same

end Answers

section Cases

variable {disk : Disk} {vol : Fat32Vol} {d s name : List UInt8} {before after : List (List UInt8)} {ent sub : Fat32Dirent}
variable {cluster : Nat}

section

variable (barred : Barred disk vol vol.rootCluster before name ent) (mounted : vol.Mounted)
  (text : 0 ∉ d) (isName : IsName s)
include barred mounted text isName

/-- A path that goes on from an entry that stands for the root is not resolved, nor is what follows it. -/
theorem Barred.downUp (parts : components 0x2F d = before ++ name :: after) (more : after ≠ []) :
    DownUp disk vol d s ∧ Unresolved disk vol d := by
  have gives := barred.gives_up mounted
  refine ⟨⟨fun r _ => ?_, ?_⟩, ?_⟩
  · refine Filter.eventually_atTop.mp ?_
    filter_upwards [gives, lookupPath_onward text r, lookupPath_onward (detour_text text isName) r]
      with fuel gives short long buffers buffers'
    rw [short, long, components_detour isName, parts]
    simp only [List.append_assoc, List.cons_append]
    rw [gives, gives, if_neg (by simp [more]), if_neg (by simp [more])]
  · refine Filter.eventually_atTop.mp ?_
    filter_upwards [gives, lookupPath_text text, lookupPath_text (detour_text text isName)]
      with fuel gives short long buffers buffers' maxEntries
    rw [fat32ReadDirPath_refused, fat32ReadDirPath_refused]
    · rw [short, parts, gives, if_neg more]
    · rw [long, components_detour isName, parts, List.append_assoc, List.cons_append, gives, if_neg (by simp [more])]
  · refine Filter.eventually_atTop.mp ?_
    filter_upwards [gives, lookupPath_text text] with fuel gives short buffers
    rw [short, parts, gives, if_neg more]

/-- A path that ends at such an entry is resolved and can be listed, but not gone on from. -/
theorem Barred.not_downUp (parts : components 0x2F d = before ++ [name]) :
    ¬ DownUp disk vol d s ∧ ¬ Unresolved disk vol d := by
  have gives := barred.gives_up mounted
  have found : ∀ᶠ fuel in atTop, ∀ buffers, fat32LookupPath ⟨disk, fuel, buffers⟩ vol d = .ok (0, some ent) := by
    filter_upwards [gives, lookupPath_text text] with fuel gives short buffers
    rw [short, parts, gives, if_pos rfl]
  refine ⟨fun downUp => ?_, fun unresolved => unresolved.not_found found⟩
  obtain ⟨fuel, same, found, gives, long⟩ := ((Filter.eventually_atTop.mpr downUp.listing).and (found.and (gives.and
    (lookupPath_text (detour_text text isName))))).exists
  refine fat32ReadDirPath_writes (found fun _ _ => 0) barred.isDir ((same (fun _ _ => 0) (fun _ _ => 0) 0).symm.trans ?_)
  refine fat32ReadDirPath_refused ?_
  rw [long, components_detour isName, parts, List.append_assoc, List.singleton_append, gives, if_neg (List.cons_ne_nil _ _)]

end

theorem dotDot_isName : IsName dotDot := ⟨by decide, by decide, by decide⟩

/-- The directories that paths lead to from a directory on. -/
def Beneath (disk : Disk) (vol : Fat32Vol) (start last : Nat) : Prop := ∃ names, Descends disk vol start names last

/-- A subdirectory with its `..` entry, at the end of a path. -/
structure Subdir (disk : Disk) (vol : Fat32Vol) (d s : List UInt8) (cluster : Nat) (sub up : Fat32Dirent) : Prop where
  reached : Descends disk vol vol.rootCluster (components 0x2F d) cluster
  text : 0 ∉ d
  isName : IsName s
  finds : Finds disk vol cluster s sub
  isDir : sub.attributes &&& fatAttrDirectory ≠ 0
  proper : 2 ≤ sub.firstCluster
  parent : Finds disk vol sub.firstCluster dotDot up
  upDir : up.attributes &&& fatAttrDirectory ≠ 0
  written : up.firstCluster = if cluster = vol.rootCluster then 0 else cluster

section Subdirectories

variable {up : Fat32Dirent}

section

variable (subdir : Subdir disk vol d s cluster sub up) (mounted : vol.Mounted)
include subdir mounted

/-- Down into the subdirectory, up and on. -/
theorem Subdir.walks :
    ∀ᶠ fuel in atTop, ∀ buffers rest,
      lookupNames ⟨disk, fuel, buffers⟩ vol 0 vol.rootCluster (components 0x2F d ++ s :: dotDot :: rest) =
        if rest = [] then .ok (0, some up)
        else if up.firstCluster < 2 then .ok (fat32ErrIo, none)
        else lookupNames ⟨disk, fuel, buffers⟩ vol ((components 0x2F d).length + 2) up.firstCluster rest := by
  filter_upwards [subdir.reached.onward mounted, subdir.finds.step subdir.isName mounted,
    subdir.parent.step dotDot_isName mounted] with fuel onward step up buffers rest
  rw [onward _ _ _ (List.cons_ne_nil _ _), step, if_neg (List.cons_ne_nil _ _), if_neg subdir.isDir,
    if_neg (Nat.not_lt.mpr subdir.proper), up, if_neg subdir.upDir, Nat.zero_add]

/-- From a subdirectory of the root, there is no way on. -/
theorem Subdir.not_root (downUp : DownUp disk vol d s) :
    cluster ≠ vol.rootCluster := by
  intro root
  have low : up.firstCluster < 2 := by
    rw [subdir.written, if_pos root]
    decide
  have name : components 0x2F (cString s) = [s] := by
    rw [cString_of_text subdir.isName.text]
    exact subdir.isName.components
  have same := Filter.eventually_atTop.mpr (downUp.lookup s (by grind))
  obtain ⟨fuel, same, walks, onward, step, short, long⟩ := (same.and ((subdir.walks mounted).and
    ((subdir.reached.onward mounted).and ((subdir.finds.step subdir.isName mounted).and
      ((lookupPath_onward subdir.text s).and (lookupPath_onward (detour_text subdir.text subdir.isName) s)))))).exists
  have answers := same (fun _ _ => 0) fun _ _ => 0
  rw [short, long, components_detour subdir.isName, name, List.append_assoc, List.cons_append, List.singleton_append, walks,
    if_neg (List.cons_ne_nil _ _), if_pos low, onward _ _ _ (List.cons_ne_nil _ _), step, if_pos rfl] at answers
  cases answers

/-- What is listed does not depend on the buffers. -/
theorem Subdir.endMarked (downUp : DownUp disk vol d s) :
    EndMarked disk vol cluster := by
  by_contra leaves
  obtain ⟨ent, isDir, there, found⟩ := subdir.reached.found mounted
  obtain ⟨fuel, same, found, short, positive⟩ := ((Filter.eventually_atTop.mpr downUp.listing).and (found.and
    ((lookupPath_text subdir.text).and (Filter.eventually_gt_atTop 0)))).exists
  obtain ⟨fuel, rfl⟩ : ∃ rest, fuel = rest + 1 := ⟨fuel - 1, by omega⟩
  obtain ⟨zeros, deleted⟩ := listing_varies mounted subdir.finds.proper leaves fuel
  have answers := (same (fun _ _ => 0) (fun _ _ => 0) 0).symm.trans (same (fun _ _ => 0) (fun _ _ => 0xE5) 0)
  rw [fat32ReadDirPath_found ((short _).trans (found _)) isDir, fat32ReadDirPath_found ((short _).trans (found _)) isDir,
    there, zeros, deleted] at answers
  cases answers

/-- What is looked up further below does not, either. -/
theorem Subdir.inSectors (downUp : DownUp disk vol d s) {last : Nat}
    (below : Beneath disk vol cluster last) : ScanInSectors disk vol last := by
  by_contra leaves
  obtain ⟨names, descends⟩ := below
  have longest : IsName longestName :=
    ⟨List.cons_ne_nil _ _, fun slash => absurd (List.eq_of_mem_replicate slash) (by decide),
      fun zero => absurd (List.eq_of_mem_replicate zero) (by decide)⟩
  have text : 0 ∉ names.flatMap (· ++ [0x2F]) := by
    intro zero
    obtain ⟨name, member, inside⟩ := List.mem_flatMap.mp zero
    rcases List.mem_append.mp inside with inName | slash
    · exact (descends.isName name member).text inName
    grind
  have parts : components 0x2F (cString (names.flatMap (· ++ [0x2F]) ++ longestName)) = names ++ [longestName] := by
    rw [cString_append text, cString_of_text longest.text, components_flatMap descends.isName, longest.components]
  have same := Filter.eventually_atTop.mpr (downUp.lookup (names.flatMap (· ++ [0x2F]) ++ longestName) (by simp [parts]))
  obtain ⟨fuel, same, onward, further, short, positive⟩ := (same.and ((subdir.reached.onward mounted).and
    ((descends.onward mounted).and ((lookupPath_onward subdir.text _).and (Filter.eventually_gt_atTop 0))))).exists
  obtain ⟨fuel, rfl⟩ : ∃ rest, fuel = rest + 1 := ⟨fuel - 1, by omega⟩
  obtain ⟨zeros, deleted⟩ := lookup_varies mounted (descends.proper subdir.finds.proper) leaves fuel
  have answers := (same (fun _ _ => 0) (fun _ _ => 0)).symm.trans (same (fun _ _ => 0) (fun _ _ => 0xE5))
  have length : ¬ 257 ≤ longestName.length := by
    rw [longestName, List.length_replicate]
    decide
  rw [short, short, parts, onward _ _ _ (by simp), onward _ _ _ (by simp), further _ _ _ (List.cons_ne_nil _ _),
    further _ _ _ (List.cons_ne_nil _ _), lookupNames, lookupNames, if_neg length, if_neg length, zeros, deleted] at answers
  cases answers

/-- Otherwise it is no detour. -/
theorem Subdir.downUp (other : cluster ≠ vol.rootCluster) (marked : EndMarked disk vol cluster)
    (inSectors : ∀ last, Beneath disk vol cluster last → ScanInSectors disk vol last) :
    DownUp disk vol d s := by
  have back : up.firstCluster = cluster := by rw [subdir.written, if_neg other]
  have high : ¬ up.firstCluster < 2 := by
    rw [back]
    exact Nat.not_lt.mpr subdir.finds.proper
  refine ⟨fun r some' => ?_, ?_⟩
  · refine Filter.eventually_atTop.mp ?_
    filter_upwards [subdir.walks mounted, subdir.reached.onward mounted, lookupPath_onward subdir.text r,
      lookupPath_onward (detour_text subdir.text subdir.isName) r] with fuel walks onward short long buffers buffers'
    rw [short, long, components_detour subdir.isName, List.append_assoc, List.cons_append, List.singleton_append, walks,
      if_neg some', if_neg high, back, onward _ _ _ some']
    refine lookupNames_settled (fun name member => components_isName member) some' ?_ _ _ _ _
    exact fun names last descends => (inSectors last ⟨names, descends⟩).fixed mounted
  · obtain ⟨ent, isDir, there, found⟩ := subdir.reached.found mounted
    refine Filter.eventually_atTop.mp ?_
    filter_upwards [subdir.walks mounted, found, lookupPath_text subdir.text,
      lookupPath_text (detour_text subdir.text subdir.isName)] with fuel walks found short long buffers buffers' maxEntries
    have reached : fat32LookupPath ⟨disk, fuel, buffers⟩ vol (detour d s) = .ok (0, some up) := by
      rw [long, components_detour subdir.isName, walks, if_pos rfl]
    rw [fat32ReadDirPath_found reached subdir.upDir, fat32ReadDirPath_found ((short _).trans (found _)) isDir, there,
      show vol.dirOf up = cluster from (if_neg high).trans back]
    rw [marked.readDir mounted fuel maxEntries]

end

end Subdirectories

end Cases

/-- A directory's entry in the cluster of the directory above. -/
def subdirByte (name : List UInt8) (cluster : UInt8) (j : Nat) : UInt8 :=
  if j < 11 then name.getD j 0x20 else if j = 11 then 0x10 else if j = 26 then cluster else 0

/-- A directory `A` in the root and a directory `B` in there. -/
def nestedNames : List (List (List UInt8 × UInt8)) :=
  [[([0x41], 3)], [(dot, 3), (dotDot, 0), ([0x42], 4)], [(dot, 4), (dotDot, 3)]]

/-- A volume with these directories in the clusters 2, 3 and 4. -/
def nestedDirs : Disk where
  drive := {
    ready := true
    completes := fun _ _ => true
    byte := fun address =>
      if 2560 ≤ address then
        match (nestedNames.getD ((address - 2560) / 512) [])[(address - 2560) % 512 / 32]? with
        | some (name, cluster) => subdirByte name cluster ((address - 2560) % 32)
        | none => 0
      else sampleByte 100 [(2, fat32Eoc), (3, fat32Eoc), (4, fat32Eoc)] address }
  partitions := [⟨3, 100⟩]

def subdirEntry (name : List UInt8) (cluster : Nat) : Fat32Dirent := ⟨name, 0x10, cluster, 0, ⟨0, 0⟩, ⟨0, 0⟩, ⟨0, 0⟩⟩

/-- An entry that is found is listed. -/
theorem Finds.listed {disk : Disk} {fuel : Nat} {name : List UInt8}
    (finds : Finds disk vol cluster name ent) (mounted : vol.Mounted)
    (sector512 : vol.bpb.bytesPerSector = 512)
    (listed : fat32ReadDir disk vol fuel (some fun _ => 0) cluster maxEntries = .ok (true, es))
    (room : es.length < maxEntries) : ent ∈ es ∧ foldName ent.name = foldName name := by
  have agree := agree_of_fixed (@scanFixed_of_512 disk vol mounted sector512) trivial finds.proper
  obtain ⟨fuel', found⟩ := finds
  have same := fat32Lookup_mono found (Nat.le_max_right fuel fuel')
  rw [(agree fuel _ maxEntries es listed room _ (Nat.le_max_left fuel fuel') _).2.1 name] at same
  cases hit : es.find? fun d => fat32NameEqualCi d.name name with
  | none =>
    grind
  | some d =>
    rw [hit] at same
    cases same
    have equal := List.find?_some hit
    exact ⟨List.mem_of_find?_eq_some hit, (fat32NameEqualCi_iff _ _).mp equal⟩

theorem nestedDirs_mount : fat32Mount nestedDirs 0 = some (sampleVol 100 98) := by decide +kernel

/-- What its three directories hold. -/
def nestedEntries : Nat → List Fat32Dirent
  | 2 => [subdirEntry [0x61] 3]
  | 3 => [subdirEntry dot 3, subdirEntry dotDot 0, subdirEntry [0x62] 4]
  | 4 => [subdirEntry dot 4, subdirEntry dotDot 3]
  | _ => []

theorem nestedDirs_finds {name : List UInt8} (known : cluster ∈ [0, 2, 3, 4])
    (finds : Finds nestedDirs (sampleVol 100 98) cluster name ent) :
    ent ∈ nestedEntries cluster ∧ foldName ent.name = foldName name := by
  have listings : ∀ cluster ∈ [2, 3, 4], fat32ReadDir nestedDirs (sampleVol 100 98) 2 (some fun _ => 0) cluster 9 =
      .ok (true, nestedEntries cluster) ∧ (nestedEntries cluster).length < 9 := by decide +kernel
  have high : cluster ∈ [2, 3, 4] := by
    rcases List.mem_cons.mp known with rfl | high
    · exact absurd finds.proper (by decide)
    · exact high
  obtain ⟨listed, room⟩ := listings cluster high
  exact finds.listed (fat32Mount_mounted nestedDirs_mount) rfl listed room

theorem nestedDirs_dirAt (dirAt : DirAt nestedDirs (sampleVol 100 98) cluster) : cluster ∈ [0, 2, 3, 4] := by
  have closed : ∀ cluster ∈ [0, 2, 3, 4], ∀ ent ∈ nestedEntries cluster, ent.firstCluster ∈ [0, 2, 3, 4] := by decide
  induction dirAt with
  | root => decide
  | sub _ finds _ ih => exact closed _ ih _ (nestedDirs_finds ih finds).1

theorem nestedDirs_parents : ParentsHeld nestedDirs (sampleVol 100 98) := by
  intro cluster name sub dirAt finds isDir notDot notDotDot
  have known := nestedDirs_dirAt dirAt
  obtain ⟨member, same⟩ := nestedDirs_finds known finds
  rw [← same] at notDot notDotDot
  have proper : ∀ cluster ∈ [0, 2, 3, 4], ∀ ent ∈ nestedEntries cluster, foldName ent.name ≠ dot →
      foldName ent.name ≠ dotDot →
      (cluster = 2 ∧ ent.firstCluster = 3) ∨ (cluster = 3 ∧ ent.firstCluster = 4) := by decide +kernel
  rcases proper cluster known sub member notDot notDotDot with ⟨rfl, below⟩ | ⟨rfl, below⟩
  · rw [below]
    exact ⟨by decide, subdirEntry dotDot 0, ⟨2, by decide +kernel⟩, by decide, rfl⟩
  · rw [below]
    exact ⟨by decide, subdirEntry dotDot 3, ⟨2, by decide +kernel⟩, by decide, rfl⟩

theorem nestedDirs_a : Finds nestedDirs (sampleVol 100 98) 2 [0x41] (subdirEntry [0x61] 3) := ⟨2, by decide +kernel⟩

end Velox
