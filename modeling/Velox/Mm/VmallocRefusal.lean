import Velox.Mm.PagingStorage
import Velox.Mm.VmallocSafety

namespace Velox

/-- The states other parts of the kernel lead to, by calls of the paging code and by taking and
giving back frames that are no tables. -/
inductive Later : Paging → Paging → Prop where
  | now : Later s s
  | call (before : Later s t) (taken : pagingStep t call = .ok (answer, u)) : Later s u
  | setNx (before : Later s t) (enabled : Bool) : Later s { t with nxEnabled := enabled }
  | allocFrame (before : Later s t) (taken : pmmTryAllocPagePhys t.pmm = (some frame, pmm)) :
      Later s { t with pmm := pmm }
  | freeFrame (before : Later s t)
      (foreign : ∀ path, path.length ≤ 3 → t.tableAt t.info.rootPml4Phys path ≠ some frame) :
      Later s { t with pmm := pmmFreePagePhys t.pmm frame }

variable {s t u : Paging} {root addr flags frame : Nat} {pmm : Pmm}

section Frames

theorem Tallied.allocFrame (tallied : Tallied root [] s) (taken : pmmTryAllocPagePhys s.pmm = (some frame, pmm)) :
    Tallied root [] { s with pmm := pmm } :=
  tallied.congr (tallied.tree.allocFrame taken) rfl rfl

theorem Tallied.freeFrame (tallied : Tallied root [] s)
    (foreign : ∀ path, path.length ≤ 3 → s.tableAt root path ≠ some frame) :
    Tallied root [] { s with pmm := pmmFreePagePhys s.pmm frame } :=
  tallied.congr (tallied.tree.freeFrame foreign) rfl rfl

/-- A frame that is handed out joins those that hold no table. -/
theorem TableTree.otherFrames_allocFrame (tree : TableTree s root)
    (taken : pmmTryAllocPagePhys s.pmm = (some frame, pmm)) (page : Nat) :
    page ∈ ({ s with pmm := pmm } : Paging).otherFrames root ↔ page = frame / 4096 ∨ page ∈ s.otherFrames root := by
  have got := pmmTryAllocPagePhys_allocated taken
  have aligned := got.aligned
  have unreached := tree.free_unreached got.clear
  simp only [Paging.mem_otherFrames, got.bits, Bool.or_eq_true, decide_eq_true_eq]
  constructor
  · rintro ⟨here | used, other⟩
    · exact .inl here
    · exact .inr ⟨used, other⟩
  · rintro (rfl | ⟨used, other⟩)
    · refine ⟨.inl rfl, ?_⟩
      rintro ⟨path, short, reached⟩
      rw [show frame / 4096 * 4096 = frame by omega] at reached
      exact unreached path short reached
    · exact ⟨.inr used, other⟩

/-- A frame that holds no table and is given back leaves them. -/
theorem TableTree.otherFrames_freeFrame (tree : TableTree s root) (aligned : frame % 4096 = 0)
    (below : frame / 4096 < s.pmm.info.totalPages) (listed : frame / 4096 ∈ s.otherFrames root) (page : Nat) :
    page ∈ ({ s with pmm := pmmFreePagePhys s.pmm frame } : Paging).otherFrames root ↔
      page ∈ s.otherFrames root ∧ page ≠ frame / 4096 := by
  have frees : s.pmm.Frees frame := ⟨tree.ready.initialized, aligned, below, listed.1⟩
  simp only [Paging.mem_otherFrames, pmmFreePagePhys_bitTest, frees, true_and]
  constructor
  · rintro ⟨⟨used, kept⟩, other⟩
    exact ⟨⟨used, other⟩, kept⟩
  · rintro ⟨⟨used, other⟩, kept⟩
    exact ⟨⟨used, kept⟩, other⟩

/-- The frame of a page that holds no table is foreign to the tables. -/
theorem Paging.foreign_of_other (aligned : frame % 4096 = 0) (listed : frame / 4096 ∈ s.otherFrames root)
    (path : List (Fin 512)) (short : path.length ≤ 3) : s.tableAt root path ≠ some frame := by
  intro reached
  refine listed.2 ⟨path, short, ?_⟩
  grind

end Frames

theorem Reached.later (reached : Reached boot s) (later : Later s t) : Reached boot t := by
  induction later with
  | now => exact reached
  | call _ taken ih => exact .call ih taken
  | setNx _ enabled ih => exact .setNx ih enabled
  | allocFrame _ taken ih => exact .allocFrame ih taken
  | freeFrame _ foreign ih => exact .freeFrame ih foreign

theorem Tallied.later (tallied : Tallied s.info.rootPml4Phys [] s) (later : Later s t) :
    Tallied t.info.rootPml4Phys [] t := by
  induction later with
  | now => exact tallied
  | call _ taken ih => exact pagingStep_tallied ih taken
  | setNx _ _ ih => exact ih.congr (ih.tree.congr rfl rfl) rfl rfl
  | allocFrame _ taken ih => exact ih.allocFrame taken
  | freeFrame _ foreign ih => exact ih.freeFrame foreign

section Loops

variable {offsets : List Nat} {count : Nat}

theorem Tallied.mapRefused (tallied : Tallied root [] s)
    (taken : pmmTryAllocPagePhys s.pmm = (some frame, pmm))
    (refused : pagingMapPage { s with pmm := pmm } root page frame flags = .ok (false, t)) :
    Tallied root [] { t with pmm := pmmFreePagePhys t.pmm frame } := by
  rcases pagingMapPage_walk (tallied.allocFrame taken).tree refused with ⟨-, rfl, -⟩ | ⟨accepted, -⟩
  · exact (tallied.allocFrame taken).freeFrame (tallied.tree.free_unreached (pmmTryAllocPagePhys_allocated taken).clear)
  · cases accepted

theorem mapPages_tallied (tallied : Tallied root [] s)
    (done : mapPages root addr flags offsets 0 s = .ok (count, t)) : Tallied root [] t := by
  obtain ⟨-, -, -, tallied⟩ := mapPages_rule (fun _ state => Tallied root [] state)
    (fun _ tallied taken called => (pagingMapPage_tallied (tallied.allocFrame taken) called).1)
    (fun tallied taken called => tallied.mapRefused taken called) tallied done
  exact tallied

theorem unmapPages_tallied {pages : Nat → Prop} (backed : Backed base root s pages)
    (tallied : Tallied root [] s) (unique : offsets.Nodup)
    (fits : ∀ offset ∈ offsets, addr + offset < 2 ^ 64)
    (present : ∀ offset ∈ offsets, pages (addr + offset))
    (done : unmapPages root addr offsets s = .ok t) : Tallied root [] t := by
  refine (unmapPages_rule (fun before _ state => (Backed base root state fun virtAddr =>
    pages virtAddr ∧ ∀ offset ∈ before, virtAddr ≠ addr + offset) ∧ Tallied root [] state) ?_
    ⟨backed.subset (by simp), tallied⟩ done).2
  rintro before offset rest state answer next joined ⟨backed, tallied⟩ called
  obtain ⟨frame, answered, backed'⟩ := backed.unmapPass unique fits present joined called
  exact ⟨frame, answered, backed', (pagingUnmapPage_tallied tallied called).1.congr backed'.tree rfl rfl⟩

end Loops

/-- The state `t` is `s` with some more pages mapped, each to a frame of its own that was not in
use, and with the tables for them. -/
structure Borrowed (root : Nat) (s t : Paging) (pages : List Nat) : Prop where
  tallied : Tallied root [] t
  recorded : t.info.rootPml4Phys = s.info.rootPml4Phys
  agree : ∀ (path : List (Fin 512)) (at' table : Nat), path.length ≤ 3 → t.tableAt root path = some at' →
    s.tableAt root path = some table → at' = table
  apart : pages.Pairwise fun first second => pageNumber first ≠ pageNumber second
  vacant : ∀ page ∈ pages, s.leafAt root page = none
  leaves : ∀ virtAddr, (∀ page ∈ pages, pageNumber virtAddr ≠ pageNumber page) →
    t.leafAt root virtAddr = s.leafAt root virtAddr
  mapped : ∀ page ∈ pages, ∃ frame, t.frameAt root page = some frame ∧ frame / 4096 < t.pmm.info.totalPages ∧
    frame / 4096 ∉ s.otherFrames root
  distinct : ∀ first second frame, first ∈ pages → second ∈ pages → t.frameAt root first = some frame →
    t.frameAt root second = some frame → first = second
  frames : ∀ number, number ∈ t.otherFrames root ↔
    number ∈ s.otherFrames root ∨ ∃ page ∈ pages, t.frameAt root page = some (number * 4096)

/-- The mappings, the frames in use and the counter of the tables are those from before. -/
structure Undone (root : Nat) (s t : Paging) : Prop where
  tallied : Tallied root [] t
  recorded : t.info.rootPml4Phys = s.info.rootPml4Phys
  leaves : ∀ virtAddr, t.leafAt root virtAddr = s.leafAt root virtAddr
  used : ∀ page, t.pmm.bitTest page = s.pmm.bitTest page
  counter : t.info.tablePagesAllocated = s.info.tablePagesAllocated

theorem Undone.refl (tallied : Tallied root [] s) : Undone root s s := ⟨tallied, rfl, fun _ => rfl, fun _ => rfl, rfl⟩

section Borrowed

variable {pages : List Nat} {page : Nat}

theorem Borrowed.start (tallied : Tallied root [] s) : Borrowed root s s [] where
  tallied := tallied
  recorded := rfl
  agree := by
    grind
  apart := .nil
  vacant := by simp
  leaves := fun _ _ => rfl
  mapped := by simp
  distinct := by simp
  frames := by simp

/-- With all pages given back, everything is as before. -/
theorem Borrowed.undone (borrowed : Borrowed root s t []) (tallied : Tallied root [] s) : Undone root s t := by
  have leaves : ∀ virtAddr, t.leafAt root virtAddr = s.leafAt root virtAddr :=
    fun virtAddr => borrowed.leaves virtAddr (by simp)
  have tables := Paging.tablePages_congr (tallied.tableAt_congr borrowed.tallied leaves borrowed.agree)
  refine ⟨borrowed.tallied, borrowed.recorded, leaves, fun number => ?_, tallied.counter_congr borrowed.tallied tables⟩
  have frames := borrowed.frames number
  simp only [List.not_mem_nil, false_and, exists_false, or_false] at frames
  rw [Bool.eq_iff_iff, borrowed.tallied.tree.used_iff, tallied.tree.used_iff, frames, tables]

/-- The frame behind a borrowed page is in use and holds no table. -/
theorem Borrowed.listed (borrowed : Borrowed root s t pages) (member : page ∈ pages)
    (found : t.frameAt root page = some frame) : frame / 4096 ∈ t.otherFrames root := by
  refine (borrowed.frames _).mpr (.inr ⟨page, member, ?_⟩)
  grind [frameAt_aligned]

/-- One pass of the mapping loop borrows one more page. -/
theorem Borrowed.mapPage (borrowed : Borrowed root s t pages)
    (kept : ∀ path table, path.length ≤ 3 → s.tableAt root path = some table → t.tableAt root path = some table)
    (taken : pmmTryAllocPagePhys t.pmm = (some frame, pmm))
    (apart : ∀ other ∈ pages, pageNumber page ≠ pageNumber other)
    (mapped : pagingMapPage { t with pmm := pmm } root page frame flags = .ok (true, u)) :
    Borrowed root s u (page :: pages) ∧
      ∀ path table, path.length ≤ 3 → s.tableAt root path = some table → u.tableAt root path = some table := by
  have got := pmmTryAllocPagePhys_allocated taken
  have before := borrowed.tallied.tree
  have tallied := borrowed.tallied.allocFrame taken
  obtain ⟨tallied', frames⟩ := pagingMapPage_tallied tallied mapped
  rcases pagingMapPage_rebound tallied.tree mapped with ⟨refused, -⟩ | ⟨-, allowed, rebound⟩
  · cases refused
  have tables : ∀ path table, path.length ≤ 3 → s.tableAt root path = some table → u.tableAt root path = some table :=
    fun path table short reached => pagingMapPage_tables tallied.tree mapped short (kept path table short reached)
  have fixed : frame &&& entryAddrMask4k = frame := by
    have sized := before.sized
    have below := got.below
    exact mask4k_of_aligned got.aligned (by omega)
  have here : u.frameAt root page = some frame := by
    rw [Paging.frameAt_eq_some]
    exact ⟨_, (rebound.leaves page).trans (if_pos rfl), by rw [leafEntry_frame, fixed]⟩
  have others : ∀ other ∈ pages, u.frameAt root other = t.frameAt root other :=
    fun other member => rebound.frameAt_other fun same => apart other member same.symm
  have total : u.pmm.info.totalPages = t.pmm.info.totalPages := rebound.total.trans got.total
  have unlisted : frame / 4096 ∉ t.otherFrames root := by
    intro listed
    have used := listed.1
    rw [got.clear] at used
    cases used
  have unused : ∀ other ∈ pages, u.frameAt root other ≠ some frame := by
    grind [listed]
  refine ⟨⟨tallied', rebound.rootPml4Phys.trans borrowed.recorded, ?_, ?_, ?_, ?_, ?_, ?_, ?_⟩, tables⟩
  · grind
  · exact List.pairwise_cons.mpr ⟨apart, borrowed.apart⟩
  · refine List.forall_mem_cons.mpr ⟨?_, borrowed.vacant⟩
    exact (borrowed.leaves page apart).symm.trans allowed.2.2.2
  · intro virtAddr outside
    obtain ⟨away, outside⟩ := List.forall_mem_cons.mp outside
    rw [rebound.leaves, if_neg away]
    exact borrowed.leaves virtAddr outside
  · refine List.forall_mem_cons.mpr ⟨⟨frame, here, got.below.trans_eq total.symm, ?_⟩, ?_⟩
    · exact fun listed => unlisted ((borrowed.frames _).mpr (.inl listed))
    grind [mapped]
  · intro first second phys firstMember secondMember firstFound secondFound
    rcases List.mem_cons.mp firstMember with rfl | firstOld <;> rcases List.mem_cons.mp secondMember with rfl | secondOld
    · rfl
    · grind
    · grind
    grind [distinct]
  · intro number
    have aligned := got.aligned
    have same : number = frame / 4096 ↔ frame = number * 4096 := by omega
    simp only [frames, before.otherFrames_allocFrame taken, borrowed.frames, same, List.mem_cons, or_and_right, exists_or,
      exists_eq_left, here, Option.some.injEq]
    grind

/-- One pass of an unmapping loop gives one page back. -/
theorem Borrowed.unmapPage (borrowed : Borrowed root s t (page :: pages))
    (unmapped : pagingUnmapPage t root page = .ok (answer, u)) :
    ∃ frame, answer = some frame ∧ Borrowed root s { u with pmm := pmmFreePagePhys u.pmm frame } pages := by
  have first : page ∈ page :: pages := List.mem_cons_self
  obtain ⟨apart, apart'⟩ := List.pairwise_cons.mp borrowed.apart
  obtain ⟨frame, found, below, unlisted⟩ := borrowed.mapped page first
  have aligned := frameAt_aligned found
  obtain ⟨entry, leaf, masked⟩ := Paging.frameAt_eq_some.mp found
  obtain ⟨tallied, frames⟩ := pagingUnmapPage_tallied borrowed.tallied unmapped
  rcases pagingUnmapPage_rebound borrowed.tallied.tree unmapped with ⟨-, -, missing⟩ | ⟨entry', leaf', rfl, rebound⟩
  · grind
  rw [leaf, Option.some.injEq, Leaf.small.injEq] at leaf'
  subst leaf'
  rw [masked] at unmapped ⊢
  have kept := (pagingUnmapPage_keeps borrowed.tallied.tree unmapped).1
  have listed : frame / 4096 ∈ u.otherFrames root := by
    grind [listed]
  have others : ∀ other ∈ pages, u.frameAt root other = t.frameAt root other :=
    fun other member => rebound.frameAt_other fun same => apart other member same.symm
  have total := (pmmFreePagePhys_totalPages u.pmm frame).trans rebound.total
  refine ⟨frame, rfl, tallied.freeFrame (Paging.foreign_of_other aligned listed),
    rebound.rootPml4Phys.trans borrowed.recorded, ?_, apart', ?_, ?_, ?_, ?_, ?_⟩
  · exact fun path at' table short reached => borrowed.agree path at' table short (kept path at' short reached)
  · grind [vacant]
  · intro virtAddr outside
    refine (rebound.leaves virtAddr).trans ?_
    split
    · rename_i same
      exact ((s.leafAt_pageNumber root same).trans (borrowed.vacant page first)).symm
    · rename_i away
      exact borrowed.leaves virtAddr (List.forall_mem_cons.mpr ⟨away, outside⟩)
  · intro other member
    obtain ⟨phys, backing, inside, new⟩ := borrowed.mapped other (List.mem_cons_of_mem _ member)
    exact ⟨phys, (others other member).trans backing, inside.trans_eq total.symm, new⟩
  · intro one two phys oneMember twoMember oneFound twoFound
    exact borrowed.distinct one two phys (List.mem_cons_of_mem _ oneMember) (List.mem_cons_of_mem _ twoMember)
      ((others one oneMember).symm.trans oneFound) ((others two twoMember).symm.trans twoFound)
  · intro number
    have same : some (number * 4096) = some frame ↔ number = frame / 4096 := by
      grind
    rw [tallied.tree.otherFrames_freeFrame aligned (below.trans_eq rebound.total.symm) listed, frames, borrowed.frames]
    constructor
    · rintro ⟨earlier | ⟨other, member, backing⟩, kept⟩
      · exact .inl earlier
      · rcases List.mem_cons.mp member with rfl | old
        · grind
        · exact .inr ⟨other, old, (others other old).trans backing⟩
    · rintro (earlier | ⟨other, old, backing⟩)
      · grind
      · have backing' := (others other old).symm.trans backing
        refine ⟨.inr ⟨other, List.mem_cons_of_mem _ old, backing'⟩, fun clash => ?_⟩
        rw [same.mpr clash] at backing'
        exact apart other old (congrArg _ (borrowed.distinct page other frame first (List.mem_cons_of_mem _ old) found backing'))

theorem Borrowed.perm (borrowed : Borrowed root s t pages) (same : pages.Perm others) : Borrowed root s t others := by
  obtain ⟨tallied, recorded, agree, apart, vacant, leaves, mapped, distinct, frames⟩ := borrowed
  simp only [same.mem_iff] at vacant leaves mapped distinct frames
  refine ⟨tallied, recorded, agree, ?_, vacant, leaves, mapped, distinct, frames⟩
  exact (List.Perm.pairwise_iff Ne.symm same).mp apart

/-- The refused pass of the mapping loop gives its frame back. -/
theorem Borrowed.mapRefused (borrowed : Borrowed root s t pages)
    (taken : pmmTryAllocPagePhys t.pmm = (some frame, pmm))
    (refused : pagingMapPage { t with pmm := pmm } root page frame flags = .ok (false, u)) :
    Borrowed root s { u with pmm := pmmFreePagePhys u.pmm frame } pages := by
  have got := pmmTryAllocPagePhys_allocated taken
  have before := borrowed.tallied.tree
  have tallied := borrowed.tallied.allocFrame taken
  have aligned := got.aligned
  have listed := (before.otherFrames_allocFrame taken (frame / 4096)).mpr (.inl rfl)
  have below : frame / 4096 < pmm.info.totalPages := got.below.trans_eq got.total.symm
  have total : (pmmFreePagePhys pmm frame).info.totalPages = t.pmm.info.totalPages :=
    (pmmFreePagePhys_totalPages pmm frame).trans got.total
  rcases pagingMapPage_walk tallied.tree refused with ⟨-, rfl, -⟩ | ⟨accepted, -⟩
  · refine ⟨tallied.freeFrame (Paging.foreign_of_other aligned listed), borrowed.recorded, borrowed.agree, borrowed.apart,
      borrowed.vacant, borrowed.leaves, ?_, borrowed.distinct, ?_⟩
    · intro other member
      obtain ⟨phys, found, inside, new⟩ := borrowed.mapped other member
      exact ⟨phys, found, inside.trans_eq total.symm, new⟩
    · intro number
      rw [tallied.tree.otherFrames_freeFrame aligned below listed, before.otherFrames_allocFrame taken, borrowed.frames]
      constructor
      · rintro ⟨new | earlier, kept⟩
        · exact absurd new kept
        · exact earlier
      · intro earlier
        refine ⟨.inr earlier, ?_⟩
        rintro rfl
        have used := ((borrowed.frames _).mpr earlier).1
        rw [got.clear] at used
        cases used
  · cases accepted

end Borrowed

section Loops

variable {offsets : List Nat} {count : Nat}

/-- The mapping loop borrows an initial part of the pages it is given. -/
theorem mapPages_borrowed (tallied : Tallied root [] s) (fits : ∀ offset ∈ offsets, addr + offset < 2 ^ 64)
    (apart : (offsets.map (addr + ·)).Pairwise fun first second => pageNumber first ≠ pageNumber second)
    (done : mapPages root addr flags offsets 0 s = .ok (count, t)) :
    ∃ taken, taken <+: offsets ∧ count = taken.length * 4096 ∧ Borrowed root s t (taken.map (addr + ·)) := by
  have rule := mapPages_rule (fun before state => Borrowed root s state (before.map (addr + ·)) ∧
    ∀ path table, path.length ≤ 3 → s.tableAt root path = some table → state.tableAt root path = some table)
    (fun {before offset state phys pmm next} initial ⟨borrowed, kept⟩ taken called => ?_)
    (fun {before offset state phys pmm next} ⟨borrowed, kept⟩ taken called => ?_)
    ⟨.start tallied, fun _ _ _ reached => reached⟩ done
  · grind
  · rw [Nat.mod_eq_of_lt (fits offset (initial.subset (by simp)))] at called
    have apart := apart.sublist (initial.map (addr + ·)).sublist
    rw [List.map_append, List.pairwise_append] at apart
    obtain ⟨borrowed', kept'⟩ :=
      borrowed.mapPage kept taken (fun other member => (apart.2.2 other member _ (by simp)).symm) called
    refine ⟨borrowed'.perm ?_, kept'⟩
    grind
  · refine ⟨borrowed.mapRefused taken called, ?_⟩
    rcases pagingMapPage_walk (borrowed.tallied.allocFrame taken).tree called with ⟨-, rfl, -⟩ | ⟨accepted, -⟩
    · exact kept
    · cases accepted

/-- An unmapping loop over borrowed pages gives them back. -/
theorem unmapPages_borrowed (borrowed : Borrowed root s t (offsets.map (addr + ·)))
    (fits : ∀ offset ∈ offsets, addr + offset < 2 ^ 64) (done : unmapPages root addr offsets t = .ok u) :
    Borrowed root s u [] := by
  refine unmapPages_rule (fun _ rest state => Borrowed root s state (rest.map (addr + ·))) ?_ borrowed done
  rintro before offset rest state answer next rfl borrowed called
  rw [Nat.mod_eq_of_lt (fits offset (by simp))] at called
  exact borrowed.unmapPage called

end Loops

section Calls

variable {boot : Boot} {s t : Vmalloc} {live : List (Nat × Nat)} {size : Nat}

section

variable (inv : VmallocInv s live) (positive : 0 < size)
  (enough : size ≤ alignUp size pmmPageSize)
  (tallied : Tallied s.paging.info.rootPml4Phys [] s.paging)
include inv positive enough tallied

theorem vmallocCarve_tallied
    (done : vmallocCarve s (alignUp size pmmPageSize) flags = .ok (addr, t)) :
    Tallied t.paging.info.rootPml4Phys [] t.paging := by
  rcases vmallocCarve_stages inv positive enough done with ⟨-, rfl⟩ |
    ⟨-, start, left, count, paging, found, looped, backed, ⟨-, -, rfl⟩ | ⟨bounded, -, paging', undone, rfl⟩⟩
  · exact tallied
  · grind [Backed.recorded, mapPages_tallied]
  · have vacant := fun offset (member : offset ∈ strides 0 (count * 4096) 4096) =>
      (inv.vacant positive enough found bounded member).1
    have present : ∀ offset ∈ strides 0 (count * 4096) 4096, LivePage live (start + offset) ∨
        ∃ other ∈ strides 0 (count * 4096) 4096, start + offset = start + other :=
      fun offset member => .inr ⟨offset, member, rfl⟩
    have recorded := (unmapPages_backed backed (strides_pages_nodup count) vacant present undone).recorded
    grind [unmapPages_tallied, mapPages_tallied, strides_pages_nodup]

/-- A carving that fails leaves the free ranges, the mappings and the frames in use as they were. -/
theorem vmallocCarve_refused (done : vmallocCarve s (alignUp size pmmPageSize) flags = .ok (0, t)) :
    t.initialized = true ∧ t.free = s.free ∧ Undone s.paging.info.rootPml4Phys s.paging t.paging := by
  have ready := inv.region.initialized
  obtain ⟨pages, extent⟩ := alignUp_pages positive enough
  rcases vmallocCarve_stages inv positive enough done with ⟨-, rfl⟩ |
    ⟨-, start, left, count, paging, found, looped, -, ⟨-, rfl, -⟩ | ⟨bounded, -, paging', undone, rfl⟩⟩
  · exact ⟨ready, rfl, .refl tallied⟩
  · obtain ⟨-, -, -, inside, -⟩ := firstFit_ok inv.ranges inv.region.fits pages found
    have low := ((inv.covers 0).mp (inside 0 ⟨Nat.le_refl _, Nat.lt_add_of_pos_right extent⟩)).1
    have base := inv.region.positive
    omega
  · obtain ⟨-, aligned, below, inside, -⟩ := firstFit_ok inv.ranges inv.region.fits pages found
    have low := ((inv.covers start).mp (inside start ⟨Nat.le_refl _, Nat.lt_add_of_pos_right extent⟩)).1
    have region := inv.region.bounded
    have limit := inv.region.fits
    obtain ⟨total, whole⟩ := pages
    rw [whole, Nat.mul_comm] at looped below bounded
    have small : ∀ offset ∈ strides 0 (total * 4096) 4096, start + offset < 2 ^ 64 := by
      intro offset member
      have short := (mem_strides_pages.mp member).2
      omega
    have apart := strides_pages_apart aligned (show total ≤ 2 ^ 36 by omega)
    obtain ⟨taken, initial, counted, borrowed⟩ := mapPages_borrowed tallied small apart looped
    obtain ⟨-, same⟩ := strides_pages_prefix initial
    grind [Borrowed.undone, unmapPages_borrowed]

end

theorem vmalloc_tallied (room : boot.VmallocRoom) {s : VmallocClient} (sound : s.Sound boot)
    (tallied : Tallied s.vm.paging.info.rootPml4Phys [] s.vm.paging)
    (done : vmalloc boot s.vm size flags = .ok (addr, t)) : Tallied t.paging.info.rootPml4Phys [] t.paging := by
  grind [vmalloc_stages, vmallocCarve_tallied]

theorem vfree_tallied (inv : VmallocInv s ((addr, size) :: live))
    (tallied : Tallied s.paging.info.rootPml4Phys [] s.paging) (done : vfree s addr size = .ok t) :
    Tallied t.paging.info.rootPml4Phys [] t.paging := by
  obtain ⟨paging, free, unmapped, -, rfl⟩ := vfree_live inv done
  obtain ⟨unique, small, present⟩ := inv.head_pages
  have recorded := (unmapPages_backed inv.backed unique small present unmapped).recorded
  rw [recorded]
  exact unmapPages_tallied inv.backed tallied unique small present unmapped

/-- The free ranges as the next call of `vmalloc` finds them. -/
def Vmalloc.ranges (boot : Boot) (s : Vmalloc) : List Lib.Range := (vmallocInitOnceLocked boot s).2.free

/-- A `vmalloc` that answers `NULL` costs nothing. -/
theorem vmalloc_refused (room : boot.VmallocRoom) {s : VmallocClient} (sound : s.Sound boot)
    (tallied : Tallied s.vm.paging.info.rootPml4Phys [] s.vm.paging)
    (done : vmalloc boot s.vm size flags = .ok (0, t)) :
    t.ranges boot = s.vm.ranges boot ∧ Undone s.vm.paging.info.rootPml4Phys s.vm.paging t.paging := by
  rcases vmalloc_stages room sound done with ⟨-, rfl⟩ | ⟨vm, first, inv, same, positive, enough, carved⟩
  · exact ⟨rfl, .refl tallied⟩
  · obtain ⟨ready, free, undone⟩ := vmallocCarve_refused inv positive enough (same ▸ tallied) carved
    refine ⟨?_, same ▸ undone⟩
    have again : vmallocInitOnceLocked boot t = (true, t) := by
      simp [vmallocInitOnceLocked, ready]
    rw [Vmalloc.ranges, Vmalloc.ranges, again, first]
    exact free

end Calls

end Velox
