import Velox.Mm.Shootdown
import Velox.Mm.VmallocBacking

namespace Velox

variable {virtAddr frame : Nat} {leaf : Option Leaf} {paging : Paging} {after : After}

section Tables

variable {s t : Paging} {root virtAddr frame : Nat}

/-- A used frame that holds no table. -/
structure Paging.Private (s : Paging) (root frame : Nat) : Prop where
  aligned : frame % 4096 = 0
  inside : frame / 4096 < s.pmm.info.totalPages
  used : s.pmm.bitTest (frame / 4096) = true
  foreign : ∀ path, path.length ≤ 3 → s.tableAt root path ≠ some frame

theorem Rebound.keeps_private (rebound : Rebound root virtAddr leaf s t)
    (own : s.Private root frame) : t.Private root frame := by
  obtain ⟨used, foreign⟩ := rebound.keeps_frame own.aligned own.used own.foreign
  exact ⟨own.aligned, rebound.total ▸ own.inside, used, foreign⟩

theorem Rebound.translate (tree : TableTree s root) (rebound : Rebound root virtAddr leaf s t)
    (page : Fin (2 ^ 36)) : pagingTranslate t root (page * 4096) =
      if page = virtPage virtAddr then leaf.map (Leaf.address (page * 4096))
      else pagingTranslate s root (page * 4096) := by
  have same : pageNumber (page * 4096) = pageNumber virtAddr ↔ page = virtPage virtAddr := by
    rw [pageNumber_page, Fin.ext_iff, virtPage]
  rw [pagingTranslate, translateWithCr3_eq_leaf rebound.tree, rebound.leaves]
  by_cases here : page = virtPage virtAddr
  · grind
  · rw [if_neg (same.not.mpr here), if_neg here, translateWithCr3_eq_leaf tree]

/-- Freeing empty tables rebinds nothing. -/
theorem Pruned.rebound (pruned : Pruned root s t) (virtAddr : Nat) :
    Rebound root virtAddr (s.leafAt root virtAddr) s t where
  tree := pruned.tree
  leaves := by
    intro other
    rw [pruned.leaves]
    grind [Paging.leafAt_pageNumber]
  origin := fun path table short reached => .inl (pruned.tables path table short reached)
  freed := pruned.freed
  total := pruned.total
  highest := pruned.highest
  rootPml4Phys := pruned.rootPml4Phys
  nxEnabled := pruned.nxEnabled
  initialized := pruned.initialized

/-- Clearing the entry of a page unbinds it and frees nothing. -/
theorem pagingClearPage_rebound (tree : TableTree s root)
    (done : pagingClearPage s root virtAddr = .ok (answer, t)) :
    (answer = none ∧ t = s) ∨ ∃ found, answer = some found ∧ Rebound root virtAddr none s t := by
  simp only [pagingClearPage, walkToPte_find tree, bind, Except.bind] at done
  cases reached : s.tableAt root (walkPath virtAddr) with
  | none =>
    simp only [reached, Option.map_none] at done
    cases done
    simp
  | some pt =>
    simp only [reached, Option.map_some] at done
    split at done
    · cases done
      simp
    · cases done
      grind [TableTree.clearLeaf_rebound]

end Tables

variable {Cpu : Type}

/-- The page and the frame that `vfree` is about to give back. -/
def Stage.claim : Stage Cpu → Option (Nat × Nat)
  | .invlpg virtAddr (.unmapped (some frame)) | .send virtAddr (.unmapped (some frame)) _
  | .prune virtAddr (some frame) | .release virtAddr frame => some (virtAddr, frame)
  | _ => none

/-- The shootdown for a processor is still to be sent. -/
def Stage.Owes (stage : Stage Cpu) (target : Cpu) : Prop :=
  match stage with
  | .invlpg _ _ => True
  | .send _ _ targets => target ∈ targets
  | _ => False

/-- Frames are owned by the kernel or claimed by one `vfree`, and hold no table. -/
structure Ownership (s : Smp Cpu) : Prop where
  tree : TableTree s.paging s.root
  owned : ∀ frame ∈ s.owned, s.paging.Private s.root frame
  unique : s.owned.Nodup
  claimed : ∀ cpu virtAddr frame, (s.stage cpu).claim = some (virtAddr, frame) →
    s.paging.Private s.root frame ∧ frame ∉ s.owned
  apart : ∀ first second v w frame, (s.stage first).claim = some (v, frame) →
    (s.stage second).claim = some (w, frame) → first = second

/-- What the TLBs may still hold. A translation to a claimed frame is about to be
flushed; a released one is gone. -/
structure Coherent (cfg : SmpConfig Cpu) (s : Smp Cpu) : Prop where
  online : ∀ cpu page frame, s.tlb cpu page = some frame → cfg.online cpu = true
  active : ∀ cpu, s.stage cpu ≠ .idle → cfg.online cpu = true
  unbound : ∀ cpu virtAddr frame, (s.stage cpu).claim = some (virtAddr, frame) →
    s.translated (virtPage virtAddr) ≠ some frame
  flushing : ∀ cpu virtAddr frame, (s.stage cpu).claim = some (virtAddr, frame) →
    ∀ other, s.tlb other (virtPage virtAddr) = some frame → other ∈ s.inFlight ∨ (s.stage cpu).Owes other
  gone : ∀ page frame, (page, frame) ∈ s.released →
    s.translated page ≠ some frame ∧ ∀ cpu, s.tlb cpu page ≠ some frame

theorem Stage.claim_invlpg {claim : Nat × Nat} :
    (Stage.invlpg virtAddr after : Stage Cpu).claim = some claim ↔
      ∃ frame, after = .unmapped (some frame) ∧ claim = (virtAddr, frame) := by
  cases after with
  | mapped => simp [Stage.claim]
  | unmapped freed => cases freed <;> simp [Stage.claim, eq_comm]

theorem Stage.claim_send {claim : Nat × Nat} :
    (Stage.send virtAddr after targets).claim = some claim ↔
      ∃ frame, after = .unmapped (some frame) ∧ claim = (virtAddr, frame) := by
  cases after with
  | mapped => simp [Stage.claim]
  | unmapped freed => cases freed <;> simp [Stage.claim, eq_comm]

theorem Stage.claim_prune {claim : Nat × Nat} :
    (Stage.prune virtAddr freed : Stage Cpu).claim = some claim ↔
      ∃ frame, freed = some frame ∧ claim = (virtAddr, frame) := by
  cases freed <;> simp [Stage.claim, eq_comm]

section Steps

variable {cfg : SmpConfig Cpu} {s t : Smp Cpu}

theorem Ownership.mono (own : Ownership s) (tree : TableTree t.paging t.root)
    (keeps : ∀ frame, s.paging.Private s.root frame → t.paging.Private t.root frame) (owned : t.owned = s.owned)
    (claims : ∀ cpu claim, (t.stage cpu).claim = some claim → (s.stage cpu).claim = some claim) : Ownership t where
  tree := tree
  owned := fun frame member => keeps frame (own.owned frame (owned ▸ member))
  unique := owned ▸ own.unique
  claimed := fun cpu virtAddr frame claim => by
    grind [claimed]
  apart := fun first second v w frame claim claim' =>
    own.apart first second v w frame (claims first _ claim) (claims second _ claim')

/-- The TLBs may forget, and stages may give up their claims. -/
theorem Coherent.mono (coherent : Coherent cfg s)
    (tlb : ∀ cpu page frame, t.tlb cpu page = some frame → s.tlb cpu page = some frame)
    (active : ∀ cpu, t.stage cpu ≠ .idle → cfg.online cpu = true)
    (translated : ∀ page, t.translated page = s.translated page) (released : t.released = s.released)
    (claims : ∀ cpu claim, (t.stage cpu).claim = some claim → (s.stage cpu).claim = some claim)
    (flushing : ∀ cpu virtAddr frame, (t.stage cpu).claim = some (virtAddr, frame) →
      ∀ other, t.tlb other (virtPage virtAddr) = some frame → other ∈ t.inFlight ∨ (t.stage cpu).Owes other) :
    Coherent cfg t where
  online := fun cpu page frame cached => coherent.online cpu page frame (tlb cpu page frame cached)
  active := active
  unbound := fun cpu virtAddr frame claim => by
    grind [unbound]
  flushing := flushing
  gone := fun page frame listed => by
    grind [gone]

end Steps

section Advance

variable [DecidableEq Cpu] {cfg : SmpConfig Cpu} {s t : Smp Cpu} {cpu : Cpu}

theorem setStage_claim
    (kept : ∀ claim, stage.claim = some claim → (s.stage cpu).claim = some claim) (other : Cpu)
    (claim : Nat × Nat) (claimed : ((s.setStage cpu stage).stage other).claim = some claim) :
    (s.stage other).claim = some claim := by
  simp only [Smp.setStage, Function.update_apply] at claimed
  grind

theorem setTlb_none (other : Cpu) (place : Fin (2 ^ 36)) (frame : Nat)
    (cached : (s.setTlb cpu page none).tlb other place = some frame) :
    s.tlb other place = some frame ∧ ¬ (other = cpu ∧ place = page) := by
  simp only [Smp.setTlb, Function.update_apply] at cached
  grind

theorem Coherent.active_update (coherent : Coherent cfg s) (running : cfg.online cpu = true)
    {other : Cpu} (busy : Function.update s.stage cpu stage other ≠ .idle) :
    cfg.online other = true := by
  grind [active]

/-- Only the processor that moves has to account for its claim again. -/
theorem Coherent.restage (coherent : Coherent cfg s)
    (stages : t.stage = Function.update s.stage cpu stage) (running : cfg.online cpu = true)
    (sent : ∀ other ∈ s.inFlight, other ∈ t.inFlight)
    (tlb : ∀ cpu page frame, t.tlb cpu page = some frame → s.tlb cpu page = some frame)
    (translated : ∀ page, t.translated page = s.translated page)
    (released : t.released = s.released)
    (kept : ∀ claim, stage.claim = some claim → (s.stage cpu).claim = some claim)
    (mine : ∀ virtAddr frame, stage.claim = some (virtAddr, frame) →
      ∀ other, t.tlb other (virtPage virtAddr) = some frame → other ∈ t.inFlight ∨ stage.Owes other) :
    Coherent cfg t := by
  refine coherent.mono tlb (fun other busy => coherent.active_update running (stages ▸ busy)) translated released ?_ ?_
  · intro other claim claimed
    refine setStage_claim kept other claim ?_
    rw [Smp.setStage, ← stages]
    exact claimed
  · intro holder virtAddr frame claim other cached
    by_cases here : holder = cpu
    · rw [here, stages, Function.update_self] at claim ⊢
      grind
    · rw [stages, Function.update_of_ne here] at claim ⊢
      exact (coherent.flushing holder virtAddr frame claim other (tlb _ _ _ cached)).imp_left (sent other)

theorem Pruned.translate {s t : Paging} {root : Nat} (tree : TableTree s root) (pruned : Pruned root s t)
    (virtAddr : Nat) : pagingTranslate t root virtAddr = pagingTranslate s root virtAddr := by
  grind [translateWithCr3_eq_leaf, tree, leaves]

/-- The shootdown of a processor reaches all others that are online. -/
def SmpConfig.Reaches (cfg : SmpConfig Cpu) : Prop :=
  ∀ self other, cfg.online self = true → cfg.online other = true → other ≠ self → other ∈ ipiTlbShootdown cfg self

instance [Fintype Cpu] (cfg : SmpConfig Cpu) : Decidable cfg.Reaches := by
  unfold SmpConfig.Reaches
  infer_instance

/-- A move that leaves the page tables and the frames alone. -/
theorem moved_keeps (own : Ownership s) (coherent : Coherent cfg s) (busy : s.stage cpu ≠ .idle)
    {lock : Option Cpu} (sent : ∀ other ∈ s.inFlight, other ∈ inFlight)
    (forgets : ∀ cpu page frame, tlb cpu page = some frame → s.tlb cpu page = some frame)
    (kept : ∀ claim, stage.claim = some claim → (s.stage cpu).claim = some claim)
    (mine : ∀ virtAddr frame, stage.claim = some (virtAddr, frame) →
      ∀ other, tlb other (virtPage virtAddr) = some frame → other ∈ inFlight ∨ stage.Owes other) :
    let t := { s with tlb := tlb, inFlight := inFlight, lock := lock }.setStage cpu stage
    Ownership t ∧ Coherent cfg t :=
  ⟨own.mono own.tree (fun _ own => own) rfl (setStage_claim kept),
    coherent.restage rfl (coherent.active cpu busy) sent forgets (fun _ => rfl) rfl kept mine⟩

omit [DecidableEq Cpu] in
/-- A claim that is no longer waiting to be sent is in flight. -/
theorem Coherent.sent (coherent : Coherent cfg s) (none : ∀ other, ¬ (s.stage cpu).Owes other)
    (claim : (s.stage cpu).claim = some (virtAddr, frame)) {other : Cpu}
    (cached : s.tlb other (virtPage virtAddr) = some frame) : other ∈ s.inFlight :=
  (coherent.flushing cpu virtAddr frame claim other cached).resolve_right (none other)

theorem prune_keeps (own : Ownership s) (coherent : Coherent cfg s) (at' : s.stage cpu = .prune virtAddr freed)
    {next : Stage Cpu}
    (kept : ∀ claim, next.claim = some claim → (s.stage cpu).claim = some claim) :
    let t := { s with paging := freeEmptyTables s.paging s.root virtAddr, lock := none }.setStage cpu next
    Ownership t ∧ Coherent cfg t := by
  intro t
  have running := coherent.active cpu (by simp [at'])
  have pruned := freeEmptyTables_pruned own.tree virtAddr
  have sameRoot : t.root = s.root := pruned.rootPml4Phys
  refine ⟨own.mono (sameRoot ▸ pruned.tree) ?_ rfl (setStage_claim kept), ?_⟩
  · intro frame own
    rw [sameRoot]
    exact (pruned.rebound virtAddr).keeps_private own
  · refine coherent.restage rfl running (fun _ sent => sent) (fun _ _ _ cached => cached) ?_ rfl kept ?_
    · intro page
      rw [Smp.translated, sameRoot]
      exact pruned.translate own.tree _
    · intro v frame claimed other cached
      exact .inl (coherent.sent (fun _ => by rw [at']; exact id) (kept _ claimed) cached)

theorem advance_keeps (reaches : cfg.Reaches) (own : Ownership s) (coherent : Coherent cfg s)
    (taken : s.advance cfg cpu = some t) : Ownership t ∧ Coherent cfg t := by
  unfold Smp.advance at taken
  split at taken
  · rename_i virtAddr after at'
    cases taken
    have busy : s.stage cpu ≠ .idle := by simp [at']
    refine moved_keeps own coherent busy (fun _ sent => sent) (fun _ _ _ cached => (setTlb_none _ _ _ cached).1) ?_ ?_
    · grind [Stage.claim_invlpg, Stage.claim_send]
    · intro v frame claimed other cached
      obtain ⟨_, -, same⟩ := Stage.claim_send.mp claimed
      obtain ⟨before, elsewhere⟩ := setTlb_none _ _ _ cached
      refine .inr (reaches cpu other (coherent.active cpu busy) (coherent.online _ _ _ before) ?_)
      grind
  · rename_i virtAddr after target rest at'
    cases taken
    have kept : ∀ claim, (Stage.send virtAddr after rest).claim = some claim → (s.stage cpu).claim = some claim := by
      grind [Stage.claim_send]
    refine moved_keeps own coherent (by simp [at']) (fun _ sent => List.mem_cons_of_mem _ sent)
      (fun _ _ _ cached => cached) kept ?_
    intro v frame claimed other cached
    rcases coherent.flushing cpu v frame (kept _ claimed) other cached with sent | owed
    · grind
    · rw [at'] at owed
      rcases List.mem_cons.mp owed with rfl | later
      · simp
      · exact .inr later
  · rename_i virtAddr at'
    cases taken
    exact moved_keeps own coherent (by simp [at']) (fun _ sent => sent) (fun _ _ _ cached => cached)
      (fun _ no => by cases no) fun _ _ no => by cases no
  · rename_i virtAddr freed at'
    cases taken
    have kept : ∀ claim, (Stage.prune virtAddr freed : Stage Cpu).claim = some claim →
        (s.stage cpu).claim = some claim := by
      intro claim claimed
      obtain ⟨frame, rfl, rfl⟩ := Stage.claim_prune.mp claimed
      rw [at']
      rfl
    refine moved_keeps own coherent (by simp [at']) (fun _ sent => sent) (fun _ _ _ cached => cached) kept ?_
    intro v frame claimed other cached
    exact .inl (coherent.sent (fun _ => by rw [at']; exact List.not_mem_nil) (kept _ claimed) cached)
  · rename_i virtAddr freed at'
    split at taken
    · cases taken
      refine prune_keeps own coherent at' fun claim claimed => ?_
      rw [at']
      exact claimed
    · cases taken
      exact prune_keeps own coherent at' fun claim no => by cases no
  · cases taken
  · cases taken

omit [DecidableEq Cpu] in
/-- A frame from the allocator belongs to nobody else. -/
theorem alloc_keeps (own : Ownership s) (coherent : Coherent cfg s) {pmm : Pmm}
    (taken : pmmTryAllocPagePhys s.paging.pmm = (some frame, pmm)) :
    let t := { s with paging := { s.paging with pmm := pmm }, owned := frame :: s.owned }
    Ownership t ∧ Coherent cfg t := by
  intro t
  have got := pmmTryAllocPagePhys_allocated taken
  have keeps : ∀ other, s.paging.Private s.root other → t.paging.Private t.root other ∧ other ≠ frame := by
    intro other own
    refine ⟨⟨own.aligned, got.total ▸ own.inside, by simp [t, got.bits, own.used], own.foreign⟩, ?_⟩
    rintro rfl
    have clear := got.clear
    simp [own.used] at clear
  have new : t.paging.Private t.root frame := by
    refine ⟨got.aligned, got.total ▸ got.below, by simp [t, got.bits], fun path short reached => ?_⟩
    have used := (own.tree.placed path frame short reached).2.2
    simp [got.clear] at used
  refine ⟨⟨own.tree.allocFrame taken, ?_, ?_, ?_, own.apart⟩, ?_⟩
  · exact List.forall_mem_cons.mpr ⟨new, fun other member => (keeps other (own.owned other member)).1⟩
  · refine List.nodup_cons.mpr ⟨fun member => ?_, own.unique⟩
    exact (keeps frame (own.owned frame member)).2 rfl
  · grind [Ownership.claimed]
  · exact coherent.mono (fun _ _ _ cached => cached) coherent.active (fun _ => rfl) rfl (fun _ _ claim => claim)
      coherent.flushing

/-- A new mapping of a frame that no `vfree` holds. -/
theorem map_keeps (own : Ownership s) (coherent : Coherent cfg s)
    (running : cfg.online cpu = true) (idle : s.stage cpu = .idle) (below : physAddr < 2 ^ 52)
    (given : physAddr ∈ s.owned ∨ s.paging.pmm.info.totalPages ≤ physAddr / 4096)
    (done : pagingMapPage s.paging s.root virtAddr physAddr flags = .ok (true, paging)) :
    let t := { s with
      paging := paging
      lock := some cpu
      released := s.released.filter (· ≠ (virtPage virtAddr, physAddr)) }.setStage cpu (.invlpg virtAddr .mapped)
    Ownership t ∧ Coherent cfg t := by
  intro t
  rcases pagingMapPage_rebound own.tree done with ⟨no, -⟩ | ⟨-, allowed, rebound⟩
  · cases no
  have sameRoot : t.root = s.root := rebound.rootPml4Phys
  have kept : ∀ claim, (Stage.invlpg virtAddr .mapped : Stage Cpu).claim = some claim →
      (s.stage cpu).claim = some claim := fun _ no => by cases no
  have translated : ∀ page, t.translated page =
      if page = virtPage virtAddr then some physAddr else s.translated page := by
    intro page
    rw [Smp.translated, sameRoot]
    refine (rebound.translate own.tree page).trans ?_
    split
    · have fixed := mask4k_of_aligned allowed.2.1 below
      have low : ((page : Nat) * 4096) &&& (pageSize4k - 1) = 0 :=
        (Nat.and_two_pow_sub_one_eq_mod _ 12).trans (Nat.mul_mod_left _ _)
      rw [Option.map_some, Leaf.address, leafEntry_frame, fixed, low, Nat.or_zero]
    · rfl
  refine ⟨own.mono (sameRoot ▸ rebound.tree) ?_ rfl (setStage_claim kept), ?_, ?_, ?_, ?_, ?_⟩
  · intro frame own
    rw [sameRoot]
    exact rebound.keeps_private own
  · exact coherent.online
  · exact fun other busy => coherent.active_update running busy
  · intro holder v frame claim
    have claim := setStage_claim kept holder _ claim
    obtain ⟨own', notOwned⟩ := own.claimed holder v frame claim
    rw [translated]
    split
    · rintro ⟨⟩
      rcases given with owned | outside
      · exact notOwned owned
      · exact absurd own'.inside (Nat.not_lt.mpr outside)
    grind [Coherent.unbound]
  · intro holder v frame claim other cached
    have before := setStage_claim kept holder _ claim
    by_cases here : holder = cpu
    · rw [here, idle] at before
      cases before
    · rcases coherent.flushing holder v frame before other cached with sent | owed
      · exact .inl sent
      · refine .inr ?_
        simp only [t, Smp.setStage, Function.update_of_ne here]
        exact owed
  · intro page frame listed
    obtain ⟨listed, different⟩ := List.mem_filter.mp listed
    obtain ⟨unbound, flushed⟩ := coherent.gone page frame listed
    refine ⟨?_, flushed⟩
    grind

/-- Clearing an entry, for `vfree` with a claim on the frame behind it. -/
theorem clear_keeps (own : Ownership s) (coherent : Coherent cfg s)
    (running : cfg.online cpu = true) (fewer : owned.Sublist s.owned)
    (claimed : ∀ frame, freed = some frame → frame ∈ s.owned ∧ frame ∉ owned)
    (done : pagingClearPage s.paging s.root virtAddr = .ok (some frame, paging)) :
    let t := { s with
      paging := paging
      lock := some cpu
      owned := owned }.setStage cpu (.invlpg virtAddr (.unmapped freed))
    Ownership t ∧ Coherent cfg t := by
  intro t
  rcases pagingClearPage_rebound own.tree done with ⟨no, -⟩ | ⟨found, -, rebound⟩
  · cases no
  have sameRoot : t.root = s.root := rebound.rootPml4Phys
  have keeps : ∀ frame, s.paging.Private s.root frame → t.paging.Private t.root frame := by
    intro frame own
    rw [sameRoot]
    exact rebound.keeps_private own
  have translated : ∀ page, t.translated page = if page = virtPage virtAddr then none else s.translated page := by
    intro page
    rw [Smp.translated, sameRoot]
    exact rebound.translate own.tree page
  have here : t.stage cpu = .invlpg virtAddr (.unmapped freed) := Function.update_self _ _ _
  have elsewhere : ∀ other, other ≠ cpu → t.stage other = s.stage other :=
    fun other different => Function.update_of_ne different _ _
  have mine : ∀ claim, (t.stage cpu).claim = some claim → claim.1 = virtAddr ∧ freed = some claim.2 := by
    intro claim claims
    rw [here] at claims
    obtain ⟨frame, same, rfl⟩ := Stage.claim_invlpg.mp claims
    grind
  refine ⟨⟨sameRoot ▸ rebound.tree, ?_, own.unique.sublist fewer, ?_, ?_⟩, coherent.online, ?_, ?_, ?_, ?_⟩
  · exact fun frame member => keeps frame (own.owned frame (fewer.subset member))
  · intro holder v frame claim
    by_cases same : holder = cpu
    · obtain ⟨owned', notLeft⟩ := claimed frame (mine _ (same ▸ claim)).2
      exact ⟨keeps frame (own.owned frame owned'), notLeft⟩
    · rw [elsewhere holder same] at claim
      obtain ⟨own', notOwned⟩ := own.claimed holder v frame claim
      exact ⟨keeps frame own', fun member => notOwned (fewer.subset member)⟩
  · -- A frame owned until now has no other claim.
    have fresh : ∀ holder v w frame, (t.stage cpu).claim = some (v, frame) → (t.stage holder).claim = some (w, frame) →
        holder = cpu := by
      intro holder v w frame claim claim'
      by_contra different
      rw [elsewhere holder different] at claim'
      exact (own.claimed holder w frame claim').2 (claimed frame (mine _ claim).2).1
    intro first second v w frame claim claim'
    by_cases sameFirst : first = cpu
    · grind
    · by_cases sameSecond : second = cpu
      · grind
      grind [Ownership.apart]
  · exact fun other busy => coherent.active_update running busy
  · intro holder v frame claim
    rw [translated]
    split
    · simp
    · by_cases same : holder = cpu
      · grind
      grind [Coherent.unbound]
  · intro holder v frame claim other cached
    by_cases same : holder = cpu
    · rw [same, here]
      exact .inr trivial
    · rw [elsewhere holder same] at claim ⊢
      exact coherent.flushing holder v frame claim other cached
  · intro page frame listed
    obtain ⟨unbound, flushed⟩ := coherent.gone page frame listed
    refine ⟨?_, flushed⟩
    grind

/-- `vfree` gives a frame back when all shootdowns have arrived. -/
theorem free_keeps (own : Ownership s) (coherent : Coherent cfg s) (at' : s.stage cpu = .release virtAddr frame)
    (settled : s.inFlight = []) :
    let t := { s with
      paging := { s.paging with pmm := pmmFreePagePhys s.paging.pmm frame }
      released := (virtPage virtAddr, frame) :: s.released }.setStage cpu .idle
    Ownership t ∧ Coherent cfg t := by
  intro t
  have claim : (s.stage cpu).claim = some (virtAddr, frame) := by rw [at']; rfl
  obtain ⟨own', notOwned⟩ := own.claimed cpu virtAddr frame claim
  have here : t.stage cpu = .idle := Function.update_self _ _ _
  have elsewhere : ∀ other, other ≠ cpu → t.stage other = s.stage other :=
    fun other different => Function.update_of_ne different _ _
  have kept : ∀ holder claim, (t.stage holder).claim = some claim →
      holder ≠ cpu ∧ (s.stage holder).claim = some claim := by
    intro holder claim claims
    have different : holder ≠ cpu := by
      rintro rfl
      rw [here] at claims
      cases claims
    grind
  have keeps : ∀ other, other ≠ frame → s.paging.Private s.root other → t.paging.Private t.root other := by
    intro other different own
    refine ⟨own.aligned, (pmmFreePagePhys_totalPages s.paging.pmm frame).symm ▸ own.inside, ?_, own.foreign⟩
    refine (pmmFreePagePhys_bitTest _ _ _).mpr ⟨own.used, fun clash => different ?_⟩
    grind [Paging.Private.aligned]
  refine ⟨⟨own.tree.freeFrame own'.foreign, ?_, own.unique, ?_, ?_⟩, coherent.online, ?_, ?_, ?_, ?_⟩
  · exact fun other member => keeps other (fun same => notOwned (same ▸ member)) (own.owned other member)
  · intro holder v other claims
    obtain ⟨different, claim'⟩ := kept holder _ claims
    obtain ⟨private', notOwned'⟩ := own.claimed holder v other claim'
    refine ⟨keeps other ?_ private', notOwned'⟩
    grind [Ownership.apart]
  · intro first second v w other claimFirst claimSecond
    exact own.apart first second v w other (kept first _ claimFirst).2 (kept second _ claimSecond).2
  · grind [Coherent.active]
  · exact fun holder v other claim' => coherent.unbound holder v other (kept holder _ claim').2
  · intro holder v other claim' target cached
    obtain ⟨different, claim'⟩ := kept holder _ claim'
    rw [elsewhere holder different]
    exact coherent.flushing holder v other claim' target cached
  · intro page other listed
    rcases List.mem_cons.mp listed with new | old
    · cases new
      refine ⟨coherent.unbound cpu virtAddr frame claim, fun target cached => ?_⟩
      have sent := coherent.sent (fun _ => by rw [at']; exact id) claim cached
      simp [settled] at sent
    · exact coherent.gone page other old

/-- A processor caches what the tables say. -/
theorem fill_keeps (coherent : Coherent cfg s) (running : cfg.online cpu = true)
    (bound : s.translated page = some frame) : Coherent cfg (s.setTlb cpu page (some frame)) := by
  have cases' : ∀ other place found, (s.setTlb cpu page (some frame)).tlb other place = some found →
      s.tlb other place = some found ∨ (other = cpu ∧ place = page ∧ found = frame) := by
    intro other place found cached
    simp only [Smp.setTlb, Function.update_apply] at cached
    grind
  refine ⟨?_, coherent.active, coherent.unbound, ?_, ?_⟩
  · grind [Coherent.online]
  · intro holder virtAddr claimed claim other cached
    rcases cases' other _ claimed cached with old | ⟨-, there, rfl⟩
    · exact coherent.flushing holder virtAddr claimed claim other old
    · exact absurd (there ▸ bound) (coherent.unbound holder virtAddr _ claim)
  · intro place found listed
    obtain ⟨unbound, flushed⟩ := coherent.gone place found listed
    refine ⟨unbound, fun other cached => ?_⟩
    grind

/-- A shootdown flushes its target. -/
theorem deliver_keeps (coherent : Coherent cfg s) : Coherent cfg { s with
      inFlight := s.inFlight.erase cpu
      tlb := Function.update s.tlb cpu fun _ => none } := by
  have flushed : ∀ other page frame, Function.update s.tlb cpu (fun _ => none) other page = some frame →
      other ≠ cpu ∧ s.tlb other page = some frame := by
    intro other page frame cached
    by_cases here : other = cpu
    · grind
    · rw [Function.update_of_ne here] at cached
      exact ⟨here, cached⟩
  refine coherent.mono (fun other page frame cached => (flushed other page frame cached).2) coherent.active
    (fun _ => rfl) rfl (fun _ _ claim => claim) ?_
  intro holder virtAddr frame claim other cached
  obtain ⟨different, before⟩ := flushed other _ frame cached
  refine (coherent.flushing holder virtAddr frame claim other before).imp_left fun sent => ?_
  grind

/-- `vfree` gives a frame back only when no shootdown is on its way. -/
def ShootdownSettled (s : Smp Cpu) : SmpOp Cpu → Prop
  | .free _ => s.inFlight = []
  | _ => True

instance (s : Smp Cpu) (op : SmpOp Cpu) : Decidable (ShootdownSettled s op) := by
  unfold ShootdownSettled
  split <;> infer_instance

theorem smpStep_keeps (reaches : cfg.Reaches) (own : Ownership s) (coherent : Coherent cfg s)
    (settled : ShootdownSettled s op) (taken : smpStep cfg s op = .ok (answer, t)) :
    Ownership t ∧ Coherent cfg t := by
  unfold smpStep at taken
  split at taken
  · cases taken
  rename_i on
  have running : cfg.online op.cpu = true := by simpa using on
  cases op with
  | alloc cpu =>
    simp only at taken
    split at taken
    · cases taken
    · split at taken
      · rename_i pmm failed
        cases taken
        rw [pmmTryAllocPagePhys_failed failed]
        exact ⟨own, coherent⟩
      grind [alloc_keeps]
  | map cpu virtAddr physAddr flags =>
    simp only at taken
    split at taken
    · cases taken
    split at taken
    · cases taken
    rename_i given
    obtain ⟨⟨ok, paging⟩, mapped, taken⟩ := Lib.bind_ok taken
    have mapped := Lib.attempt_ok mapped
    have idle : s.stage cpu = .idle := by grind
    obtain ⟨below, given⟩ := not_not.mp given
    cases ok with
    | false =>
      cases taken
      rcases pagingMapPage_rebound own.tree mapped with ⟨-, rfl, -⟩ | ⟨no, -⟩
      · exact ⟨own, coherent⟩
      · cases no
    | true =>
      cases taken
      exact map_keeps own coherent running idle below given mapped
  | unmap cpu virtAddr free =>
    simp only at taken
    split at taken
    · cases taken
    obtain ⟨⟨found, paging⟩, cleared, taken⟩ := Lib.bind_ok taken
    have cleared := Lib.attempt_ok cleared
    cases found with
    | none =>
      cases taken
      rcases pagingClearPage_rebound own.tree cleared with ⟨-, rfl⟩ | ⟨_, no, -⟩
      · exact ⟨own, coherent⟩
      · cases no
    | some frame =>
      simp only at taken
      split at taken
      · cases taken
        exact clear_keeps own coherent running (List.Sublist.refl _) (fun _ no => by cases no) cleared
      split at taken
      · cases taken
      rename_i owned
      cases taken
      refine clear_keeps own coherent running List.erase_sublist ?_ cleared
      rintro _ ⟨⟩
      exact ⟨not_not.mp owned, own.unique.not_mem_erase⟩
  | advance cpu =>
    grind [advance_keeps]
  | free cpu =>
    simp only at taken
    split at taken
    · rename_i virtAddr frame at'
      cases taken
      exact free_keeps own coherent at' settled
    · cases taken
  | fill cpu page =>
    simp only at taken
    split at taken
    · rename_i frame bound
      cases taken
      exact ⟨own.mono own.tree (fun _ kept => kept) rfl (fun _ _ claim => claim), fill_keeps coherent running bound⟩
    · cases taken
  | evict cpu page =>
    cases taken
    refine ⟨own.mono own.tree (fun _ kept => kept) rfl (fun _ _ claim => claim), ?_⟩
    exact coherent.mono (fun _ _ _ cached => (setTlb_none _ _ _ cached).1) coherent.active (fun _ => rfl) rfl
      (fun _ _ claim => claim)
      fun holder virtAddr frame claim other cached =>
        coherent.flushing holder virtAddr frame claim other (setTlb_none _ _ _ cached).1
  | deliver cpu =>
    simp only at taken
    split at taken
    · cases taken
      exact ⟨own.mono own.tree (fun _ kept => kept) rfl (fun _ _ claim => claim), deliver_keeps coherent⟩
    · cases taken

end Advance

variable [DecidableEq Cpu]

/-- When every shootdown reaches all other processors and has arrived before the
frame goes back to the allocator, no TLB keeps a translation to it: not when the
frame is given back, and not later. -/
theorem no_stale_translation {cfg : SmpConfig Cpu} {boot : Boot} {paging : Paging} (reached : Reached boot paging)
    (reaches : cfg.Reaches) {trace : List (SmpOp Cpu × Option Nat)} {s : Smp Cpu}
    (run : Lib.Steps (Lib.guarded ShootdownSettled (smpStep cfg)) (.start paging) trace s) :
    ∀ page frame, (page, frame) ∈ s.released → ∀ cpu, s.tlb cpu page ≠ some frame := by
  have own : Ownership (.start paging : Smp Cpu) :=
    ⟨reached.space.tree, (fun _ no => by cases no), List.nodup_nil, (fun _ _ _ no => by cases no),
      (fun _ _ _ _ _ no => by cases no)⟩
  have coherent : Coherent cfg (.start paging) :=
    ⟨(fun _ _ _ no => by cases no), (fun _ busy => absurd rfl busy), (fun _ _ _ no => by cases no),
      (fun _ _ _ no => by cases no), (fun _ _ no => by cases no)⟩
  have kept : Ownership s ∧ Coherent cfg s := by
    refine Lib.Steps.invariant (fun current => Ownership current ∧ Coherent cfg current) ?_ ⟨own, coherent⟩ run
    rintro current op answer next ⟨own, coherent⟩ taken
    obtain ⟨settled, stepped⟩ := Lib.guarded_ok taken
    grind [smpStep_keeps]
  exact fun page frame listed => (kept.2.gone page frame listed).2

def twoCpus : SmpConfig Bool where
  cpus := [false, true]
  online := fun _ => true
  apicId := Bool.toNat
  ipiReady := true
  lapicReady := true

/-- One processor maps a page, the other uses it, and the first one unmaps it for
`vfree`, up to the point where the frame goes back. -/
def mapUseUnmap : List (SmpOp Bool × Option Nat) :=
  [(.alloc false, some 0xC000), (.map false 0x400000 0xC000 1, some 0xC000), (.advance false, none),
    (.advance false, none), (.advance false, none), (.deliver true, none), (.fill true 0x400, some 0xC000),
    (.unmap false 0x400000 true, some 0xC000), (.advance false, none), (.advance false, none),
    (.advance false, none), (.advance false, none)]

theorem no_stale_translation_two : ∃ s,
    Lib.Steps (Lib.guarded ShootdownSettled (smpStep twoCpus)) (.start tinyPagingReady)
      (mapUseUnmap ++ [(.deliver true, none), (.free false, some 0xC000)]) s ∧
    (0x400, 0xC000) ∈ s.released ∧ s.tlb true 0x400 ≠ some 0xC000 := by
  obtain ⟨s, run, listed⟩ := Lib.Steps.exists_of_replay_test
    (show (Lib.replay (Lib.guarded ShootdownSettled (smpStep twoCpus)) (.start tinyPagingReady)
      (mapUseUnmap ++ [(.deliver true, none), (.free false, some 0xC000)])).any
        (fun s => (0x400, 0xC000) ∈ s.released) = true by decide +kernel)
  have listed := of_decide_eq_true listed
  have reaches : twoCpus.Reaches := by decide
  exact ⟨s, run, listed, no_stale_translation tinyPagingReady_reached reaches run 0x400 0xC000 listed true⟩

/-- The shootdown is still on its way when the frame goes back, and the second
processor allocates it while its own TLB maps the old page to it. -/
theorem stale_translation_to_recycled_frame : ∃ s,
    Reached tinyBoot tinyPagingReady ∧ twoCpus.Reaches ∧
    Lib.Steps (smpStep twoCpus) (.start tinyPagingReady)
      (mapUseUnmap ++ [(.free false, some 0xC000), (.alloc true, some 0xC000)]) s ∧
    (0x400, 0xC000) ∈ s.released ∧ s.translated 0x400 = none ∧ 0xC000 ∈ s.owned ∧ s.tlb true 0x400 = some 0xC000 := by
  obtain ⟨s, run, test⟩ := Lib.Steps.exists_of_replay_test
    (show (Lib.replay (smpStep twoCpus) (.start tinyPagingReady)
      (mapUseUnmap ++ [(.free false, some 0xC000), (.alloc true, some 0xC000)])).any
        (fun s => (0x400, 0xC000) ∈ s.released ∧ s.translated 0x400 = none ∧ 0xC000 ∈ s.owned ∧
          s.tlb true 0x400 = some 0xC000) = true by decide +kernel)
  exact ⟨s, tinyPagingReady_reached, by decide, run, of_decide_eq_true test⟩

end Velox
