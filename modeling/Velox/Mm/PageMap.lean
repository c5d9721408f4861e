import Velox.Mm.PagingInit

namespace Velox

/-- The frame a page is bound to, and whether the page is bound on its own or as
part of a 2 MiB page. -/
structure Binding where
  frame : Nat
  small : Bool
deriving DecidableEq, Repr

/-- A partial map from the page numbers of 48-bit virtual addresses. -/
abbrev PageMap := Fin (2 ^ 36) → Option Binding

def virtPage (virtAddr : Nat) : Fin (2 ^ 36) := ⟨pageNumber virtAddr, pageNumber_lt virtAddr⟩

inductive PagingCall where
  | map (virtAddr physAddr flags : Nat)
  | unmap (virtAddr : Nat)
  | protect (virtAddr flags : Nat)
deriving DecidableEq, Repr

/-- `paging_map_page` and `paging_protect_page` answer with a flag,
`paging_unmap_page` also with the frame it unbound. -/
inductive PagingAnswer where
  | flag (ok : Bool)
  | frame (unbound : Option Nat)
deriving DecidableEq, Repr

def PagingAnswer.accepted : PagingAnswer → Bool
  | .flag ok => ok
  | .frame unbound => unbound.isSome

namespace PageMap

def translate (m : PageMap) (virtAddr : Nat) : Option Nat :=
  (m (virtPage virtAddr)).map fun binding => binding.frame + virtAddr % 4096

/-- What each call means for the map. -/
def step (m : PageMap) : PagingCall → Except Panic (PagingAnswer × PageMap)
  | .map virtAddr physAddr flags =>
    if virtAddr % 4096 = 0 ∧ physAddr % 4096 = 0 ∧
        ¬ (flags &&& pagingFlagGlobal ≠ 0 ∧ flags &&& pagingFlagUser ≠ 0) ∧ m.translate virtAddr = none then
      .ok (.flag true, Function.update m (virtPage virtAddr) (some ⟨physAddr, true⟩))
    else .ok (.flag false, m)
  | .unmap virtAddr =>
    match m (virtPage virtAddr) with
    | some ⟨frame, true⟩ => .ok (.frame (some frame), Function.update m (virtPage virtAddr) none)
    | _ => .ok (.frame none, m)
  | .protect virtAddr _ =>
    match m (virtPage virtAddr) with
    | some ⟨_, true⟩ => .ok (.flag true, m)
    | _ => .ok (.flag false, m)

end PageMap

/-- The calls on the kernel root. -/
def pagingStep (s : Paging) : PagingCall → Except Panic (PagingAnswer × Paging)
  | .map virtAddr physAddr flags => do
    let (ok, s) ← pagingMapPage s s.info.rootPml4Phys virtAddr physAddr flags
    return (.flag ok, s)
  | .unmap virtAddr => do
    let (unbound, s) ← pagingUnmapPage s s.info.rootPml4Phys virtAddr
    return (.frame unbound, s)
  | .protect virtAddr flags => do
    let (ok, s) ← pagingProtectPage s s.info.rootPml4Phys virtAddr flags
    return (.flag ok, s)

def Leaf.binding (page : Fin (2 ^ 36)) : Leaf → Binding
  | .small entry => ⟨Leaf.address (page * 4096) (.small entry), true⟩
  | .huge entry => ⟨Leaf.address (page * 4096) (.huge entry), false⟩

/-- The map the tables under the kernel root stand for. -/
def Paging.pageMap (s : Paging) : PageMap := fun page =>
  (s.leafAt s.info.rootPml4Phys (page * 4096)).map (Leaf.binding page)

/-- The states of the paging code after `paging_init`. Between its calls other
parts of the kernel allocate frames and free frames that are no tables. -/
inductive Reached (boot : Boot) : Paging → Prop where
  | init (atBoot : AtBoot boot s) (done : pagingInit boot s = .ok t) : Reached boot t
  | call (before : Reached boot s) (taken : pagingStep s call = .ok (answer, t)) : Reached boot t
  | setNx (before : Reached boot s) (enabled : Bool) : Reached boot { s with nxEnabled := enabled }
  | allocFrame (before : Reached boot s) (taken : pmmTryAllocPagePhys s.pmm = (some frame, pmm)) :
      Reached boot { s with pmm := pmm }
  | freeFrame (before : Reached boot s)
      (foreign : ∀ path, path.length ≤ 3 → s.tableAt s.info.rootPml4Phys path ≠ some frame) :
      Reached boot { s with pmm := pmmFreePagePhys s.pmm frame }

variable {s t : Paging} {root : Nat}

theorem pageNumber_page (page : Fin (2 ^ 36)) : pageNumber (page * 4096) = page := by
  simp only [pageNumber]
  omega

theorem virtPage_eq_iff : virtPage v = virtPage w ↔ pageNumber v = pageNumber w := Fin.ext_iff

theorem Paging.leafAt_page (s : Paging) (root virtAddr : Nat) :
    s.leafAt root ((virtPage virtAddr : Nat) * 4096) = s.leafAt root virtAddr :=
  s.leafAt_pageNumber root ((pageNumber_page (virtPage virtAddr)).trans rfl)

/-- The leaves of some pages went through a function, and no others changed. -/
def Touched (root : Nat) (f : Option Leaf → Option Leaf) (pages : List Nat) (s t : Paging) : Prop :=
  ∀ other, t.leafAt root other =
    if ∃ page ∈ pages, pageNumber page = pageNumber other then f (s.leafAt root other) else s.leafAt root other

theorem Touched.refl (root : Nat) (f : Option Leaf → Option Leaf) (s : Paging) : Touched root f [] s s :=
  fun other => by simp

/-- A page that is visited again is only changed once. -/
theorem Touched.cons {pages : List Nat} (settled : ∀ leaf, f (f leaf) = f leaf)
    (first : Touched root f [page] s u) (rest : Touched root f pages u t) :
    Touched root f (page :: pages) s t := by
  intro other
  simp only [rest other, first other, List.mem_singleton, exists_eq_left, List.exists_mem_cons_iff]
  by_cases here : pageNumber page = pageNumber other
  · simp [here, settled]
  · simp [here]

theorem Touched.unchanged {virtAddr : Nat}
    (same : f (s.leafAt root virtAddr) = s.leafAt root virtAddr) :
    Touched root f [virtAddr] s s := by
  intro other
  simp only [List.mem_singleton, exists_eq_left]
  grind [Paging.leafAt_pageNumber]

theorem Rebound.touched {virtAddr : Nat}
    (rebound : Rebound root virtAddr (f (s.leafAt root virtAddr)) s t) :
    Touched root f [virtAddr] s t := by
  intro other
  simp only [List.mem_singleton, exists_eq_left]
  rw [rebound.leaves]
  by_cases same : pageNumber virtAddr = pageNumber other
  · rw [if_pos same.symm, if_pos same, s.leafAt_pageNumber root same]
  grind

/-- A function of the entry on the leaf of a page of its own, which leaves other leaves alone. -/
def Leaf.onSmall (g : Nat → Option Leaf) : Option Leaf → Option Leaf
  | some (.small entry) => g entry
  | leaf => leaf

theorem Leaf.onSmall_of_not_small {leaf : Option Leaf} (other : ∀ entry, leaf ≠ some (.small entry))
    (g : Nat → Option Leaf) : Leaf.onSmall g leaf = leaf := by
  cases leaf with
  | none => rfl
  | some leaf =>
    cases leaf with
    | small entry => grind
    | huge entry => rfl

theorem Leaf.onSmall_settled (settled : ∀ entry, Leaf.onSmall g (g entry) = g entry)
    (leaf : Option Leaf) : Leaf.onSmall g (Leaf.onSmall g leaf) = Leaf.onSmall g leaf := by
  cases leaf with
  | none => rfl
  | some leaf =>
    cases leaf with
    | small entry => exact settled entry
    | huge entry => rfl

/-- The address of a leaf is its frame plus the page offset. -/
theorem Leaf.address_eq (leaf : Leaf) (virtAddr : Nat) :
    leaf.address virtAddr = (leaf.binding (virtPage virtAddr)).frame + virtAddr % 4096 := by
  have low4k : ∀ x, x &&& (pageSize4k - 1) = x % 2 ^ 12 := fun x => Nat.and_two_pow_sub_one_eq_mod x 12
  have low2m : ∀ x, x &&& (pageSize2m - 1) = x % 2 ^ 21 := fun x => Nat.and_two_pow_sub_one_eq_mod x 21
  cases leaf with
  | small entry =>
    have field := mask4k_aligned entry
    simp only [Leaf.binding, Leaf.address, low4k]
    rw [Lib.or_eq_add_of_lt field.1 (Nat.mod_lt _ (by decide)),
      Lib.or_eq_add_of_lt field.1 (Nat.mod_lt _ (by decide))]
    omega
  | huge entry =>
    have field := mask2m_aligned entry
    simp only [Leaf.binding, Leaf.address, low2m]
    rw [Lib.or_eq_add_of_lt field.1 (Nat.mod_lt _ (by decide)),
      Lib.or_eq_add_of_lt field.1 (Nat.mod_lt _ (by decide))]
    simp only [virtPage, pageNumber]
    omega

/-- The tables translate as the map they stand for. -/
theorem pagingTranslate_eq (tree : TableTree s s.info.rootPml4Phys) (virtAddr : Nat) :
    pagingTranslate s s.info.rootPml4Phys virtAddr = s.pageMap.translate virtAddr := by
  rw [pagingTranslate, translateWithCr3_eq_leaf tree, PageMap.translate, Paging.pageMap, Paging.leafAt_page, Option.map_map]
  grind [Option.map_congr, Leaf.address_eq]

theorem pageMap_eq_none (virtAddr : Nat) :
    s.pageMap.translate virtAddr = none ↔ s.leafAt s.info.rootPml4Phys virtAddr = none := by
  simp [PageMap.translate, Paging.pageMap, Paging.leafAt_page]

theorem pageMap_small {virtAddr entry : Nat}
    (found : s.leafAt s.info.rootPml4Phys virtAddr = some (.small entry)) :
    s.pageMap (virtPage virtAddr) = some ⟨entry &&& entryAddrMask4k, true⟩ := by
  have low : ∀ x, x &&& (pageSize4k - 1) = x % 4096 := fun x => Nat.and_two_pow_sub_one_eq_mod x 12
  simp only [Paging.pageMap, Paging.leafAt_page, found, Option.map_some, Leaf.binding, Leaf.address, low,
    Nat.mul_mod_left, Nat.or_zero]

theorem pageMap_not_small {virtAddr : Nat}
    (missing : ∀ entry, s.leafAt s.info.rootPml4Phys virtAddr ≠ some (.small entry)) (frame : Nat) :
    s.pageMap (virtPage virtAddr) ≠ some ⟨frame, true⟩ := by
  intro bound
  simp only [Paging.pageMap, Paging.leafAt_page, Option.map_eq_some_iff] at bound
  obtain ⟨leaf, found, same⟩ := bound
  cases leaf with
  | small entry => grind
  | huge entry => simp [Leaf.binding] at same

/-- Rebinding the leaf of one page updates the map there. -/
theorem pageMap_update {virtAddr : Nat} {leaf : Option Leaf}
    (sameRoot : t.info.rootPml4Phys = s.info.rootPml4Phys)
    (leaves : ∀ other, t.leafAt s.info.rootPml4Phys other =
      if pageNumber other = pageNumber virtAddr then leaf else s.leafAt s.info.rootPml4Phys other) :
    t.pageMap = Function.update s.pageMap (virtPage virtAddr) (leaf.map (Leaf.binding (virtPage virtAddr))) := by
  funext page
  simp only [Paging.pageMap, sameRoot, leaves, pageNumber_page]
  by_cases same : page = virtPage virtAddr
  · subst page
    simp [virtPage]
  · have different : (page : Nat) ≠ pageNumber virtAddr := fun equal => same (Fin.ext equal)
    simp [different, same, Paging.pageMap]

/-- What every call keeps, whatever it answers. -/
structure StepKeeps (s t : Paging) : Prop where
  tree : TableTree t t.info.rootPml4Phys
  rootPml4Phys : t.info.rootPml4Phys = s.info.rootPml4Phys
  nxEnabled : t.nxEnabled = s.nxEnabled
  highest : t.pmm.info.highestPhysicalAddress = s.pmm.info.highestPhysicalAddress
  initialized : t.initialized = s.initialized

theorem StepKeeps.of_rebound {virtAddr : Nat} {leaf : Option Leaf}
    (rebound : Rebound s.info.rootPml4Phys virtAddr leaf s t) : StepKeeps s t :=
  ⟨rebound.rootPml4Phys ▸ rebound.tree, rebound.rootPml4Phys, rebound.nxEnabled, rebound.highest, rebound.initialized⟩

/-- Physical addresses fit into the address field of an entry. -/
def PagingCall.PhysBelow : PagingCall → Prop
  | .map _ physAddr _ => physAddr < 2 ^ 52
  | _ => True

instance : DecidablePred PagingCall.PhysBelow
  | .map _ physAddr _ => inferInstanceAs (Decidable (physAddr < 2 ^ 52))
  | .unmap _ => inferInstanceAs (Decidable True)
  | .protect _ _ => inferInstanceAs (Decidable True)

/-- Every call keeps the tree, and a refused call keeps the whole state. -/
theorem pagingStep_keeps (tree : TableTree s s.info.rootPml4Phys) {call : PagingCall}
    (taken : pagingStep s call = .ok (answer, t)) :
    StepKeeps s t ∧ (answer.accepted = false → t = s) := by
  have unchanged : StepKeeps s s := ⟨tree, rfl, rfl, rfl, rfl⟩
  cases call with
  | map virtAddr physAddr flags =>
    obtain ⟨⟨ok, next⟩, done, rest⟩ := Lib.bind_ok taken
    cases rest
    rcases pagingMapPage_rebound tree done with ⟨rfl, rfl, -⟩ | ⟨rfl, -, rebound⟩
    · grind
    · exact ⟨.of_rebound rebound, fun refused => by cases refused⟩
  | unmap virtAddr =>
    obtain ⟨⟨unbound, next⟩, done, rest⟩ := Lib.bind_ok taken
    cases rest
    rcases pagingUnmapPage_rebound tree done with ⟨rfl, rfl, -⟩ | ⟨entry, -, rfl, rebound⟩
    · grind
    · exact ⟨.of_rebound rebound, fun refused => by cases refused⟩
  | protect virtAddr flags =>
    obtain ⟨⟨ok, next⟩, done, rest⟩ := Lib.bind_ok taken
    cases rest
    rcases pagingProtectPage_rebound tree done with ⟨rfl, rfl, -⟩ | ⟨entry, -, rfl, rebound⟩
    · grind
    · exact ⟨.of_rebound rebound, fun refused => by cases refused⟩

/-- Every call does to the tables what it means for the map. -/
theorem pagingStep_refines (tree : TableTree s s.info.rootPml4Phys) {call : PagingCall}
    (below : call.PhysBelow) (taken : pagingStep s call = .ok (answer, t)) :
    PageMap.step s.pageMap call = .ok (answer, t.pageMap) := by
  cases call with
  | map virtAddr physAddr flags =>
    obtain ⟨⟨ok, next⟩, done, rest⟩ := Lib.bind_ok taken
    cases rest
    rcases pagingMapPage_rebound tree done with ⟨rfl, rfl, refused⟩ | ⟨rfl, allowed, rebound⟩
    · rw [MapAllowed, ← pageMap_eq_none] at refused
      simp only [PageMap.step, if_neg refused]
    · have fixed := mask4k_of_aligned allowed.2.1 below
      have bound : t.pageMap (virtPage virtAddr) = some ⟨physAddr, true⟩ := by
        have leaf := rebound.leaves virtAddr
        rw [if_pos rfl, ← rebound.rootPml4Phys] at leaf
        rw [pageMap_small leaf, leafEntry_frame, fixed]
      have updated := pageMap_update rebound.rootPml4Phys rebound.leaves
      rw [MapAllowed, ← pageMap_eq_none] at allowed
      simp only [PageMap.step, if_pos allowed]
      rw [updated] at bound ⊢
      grind
  | unmap virtAddr =>
    obtain ⟨⟨unbound, next⟩, done, rest⟩ := Lib.bind_ok taken
    cases rest
    rcases pagingUnmapPage_rebound tree done with ⟨rfl, rfl, missing⟩ | ⟨entry, mapped, rfl, rebound⟩
    · simp only [PageMap.step]
      grind [pageMap_not_small]
    · simp only [PageMap.step, pageMap_small mapped, pageMap_update rebound.rootPml4Phys rebound.leaves,
        Option.map_none]
  | protect virtAddr flags =>
    obtain ⟨⟨ok, next⟩, done, rest⟩ := Lib.bind_ok taken
    cases rest
    rcases pagingProtectPage_rebound tree done with ⟨rfl, rfl, missing⟩ | ⟨entry, mapped, rfl, rebound⟩
    · simp only [PageMap.step]
      grind [pageMap_not_small]
    · -- The rewritten entry holds the same frame.
      have kept : t.pageMap = s.pageMap := by
        have leaf := rebound.leaves virtAddr
        rw [if_pos rfl, ← rebound.rootPml4Phys] at leaf
        have bound := pageMap_small leaf
        have updated := pageMap_update rebound.rootPml4Phys rebound.leaves
        rw [updated, Function.update_self, leafEntry_frame, ← pageMap_small mapped] at bound
        rw [updated, bound, Function.update_eq_self]
      simp only [PageMap.step, pageMap_small mapped, kept]

theorem Reached.space (reached : Reached boot s) : KernelSpace boot s := by
  induction reached with
  | init atBoot done => exact pagingInit_space atBoot done
  | call before taken ih =>
    have keeps := (pagingStep_keeps ih.tree taken).1
    exact ⟨keeps.tree, keeps.initialized.trans ih.initialized, keeps.highest.trans ih.highest, ih.aligned,
      ih.kernelEnd⟩
  | setNx before enabled ih => exact ⟨ih.tree.congr rfl rfl, ih.initialized, ih.highest, ih.aligned, ih.kernelEnd⟩
  | allocFrame before taken ih =>
    have got := pmmTryAllocPagePhys_allocated taken
    exact ⟨ih.tree.allocFrame taken, ih.initialized, got.highest.trans ih.highest, ih.aligned, ih.kernelEnd⟩
  | freeFrame before foreign ih =>
    exact ⟨ih.tree.freeFrame foreign, ih.initialized, (pmmFreePagePhys_highest _ _).trans ih.highest, ih.aligned,
      ih.kernelEnd⟩

/-- The page tables refine the map: from every state after `paging_init`, every
run of calls is a run of the map with the same answers, translation agrees for
every address afterwards, and a refused call changes nothing. -/
theorem page_tables_refine {boot : Boot} {s t : Paging} {trace : List (PagingCall × PagingAnswer)}
    (reached : Reached boot s) (below : ∀ event ∈ trace, event.1.PhysBelow)
    (run : Lib.Steps pagingStep s trace t) :
    (∃ m, Lib.Steps PageMap.step s.pageMap trace m ∧
      ∀ virtAddr, pagingTranslate t s.info.rootPml4Phys virtAddr = m.translate virtAddr) ∧
    ∀ call answer u, pagingStep t call = .ok (answer, u) → answer.accepted = false → u = t := by
  obtain ⟨m, abstractRun, tree, sameRoot, rfl⟩ : ∃ m, Lib.Steps PageMap.step s.pageMap trace m ∧
      TableTree t t.info.rootPml4Phys ∧ t.info.rootPml4Phys = s.info.rootPml4Phys ∧ m = t.pageMap := by
    refine Lib.Steps.simulation
      (fun (current : Paging) m => TableTree current current.info.rootPml4Phys ∧
        current.info.rootPml4Phys = s.info.rootPml4Phys ∧ m = current.pageMap)
      PagingCall.PhysBelow ?_ ⟨reached.space.tree, rfl, rfl⟩ below run
    rintro current call answer next _ ⟨tree, sameRoot, rfl⟩ below taken
    have keeps := (pagingStep_keeps tree taken).1
    exact ⟨_, pagingStep_refines tree below taken, keeps.tree, keeps.rootPml4Phys.trans sameRoot, rfl⟩
  refine ⟨⟨_, abstractRun, fun virtAddr => ?_⟩, fun call answer u taken => (pagingStep_keeps tree taken).2⟩
  grind [pagingTranslate_eq]

/-- The bootloader's tables: two 1 GiB pages over the lowest memory. -/
def bootTables (table : Nat) (index : Fin 512) : Nat :=
  if table = 0x100000 ∧ (index = 0 ∨ index = 511) then 0x101003
  else if table = 0x101000 ∧ (index = 0 ∨ index = 510) then 0x83
  else 0

/-- Page tables that also reach the last GiB of the address space. -/
def topTables (table : Nat) (index : Fin 512) : Nat :=
  if table = 0x100000 ∧ (index = 0 ∨ index = 511) then 0x101003
  else if table = 0x101000 ∧ (index = 0 ∨ index = 510 ∨ index = 511) then 0x83
  else 0

def tinyPaging : Paging where
  pmm := Lib.outcome blankPmm (pmmInit tinyBoot blankPmm)
  tables := bootTables
  info := ⟨false, 0, 0, 0, 0, 0, 0, 0⟩
  initialized := false
  nxEnabled := true
  cr3 := 0x100000

def tinyPagingReady : Paging := Lib.outcome tinyPaging (pagingInit tinyBoot tinyPaging)

theorem tinyPaging_atBoot : AtBoot tinyBoot tinyPaging where
  started := ⟨blankPmm, Lib.eq_ok_outcome blankPmm (by decide +kernel)⟩
  fresh := rfl
  apart := by
    unfold Boot.EntriesApart
    decide
  sized := by decide

theorem tinyPagingReady_reached : Reached tinyBoot tinyPagingReady :=
  .init tinyPaging_atBoot (Lib.eq_ok_outcome _ (by decide +kernel))

theorem page_tables_refine_tiny :
    ∃ t m, Lib.Steps PageMap.step tinyPagingReady.pageMap
        [(.map 0x400000 0x5000 1, .flag true), (.unmap 0x400123, .frame (some 0x5000))] m ∧
      ∀ virtAddr, pagingTranslate t tinyPagingReady.info.rootPml4Phys virtAddr = m.translate virtAddr := by
  obtain ⟨t, run⟩ := Lib.Steps.exists_of_replay (show (Lib.replay pagingStep tinyPagingReady
    [(.map 0x400000 0x5000 1, .flag true), (.unmap 0x400123, .frame (some 0x5000))]).isSome = true by
      decide +kernel)
  obtain ⟨m, abstractRun, translated⟩ := (page_tables_refine tinyPagingReady_reached (by decide) run).1
  exact ⟨t, m, abstractRun, translated⟩

end Velox
