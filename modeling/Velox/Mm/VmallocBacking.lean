import Velox.Mm.PagingInit
import Velox.Mm.Vmalloc

namespace Velox

variable {virtAddr frame offset : Nat} {leaf : Option Leaf}

variable {s t : Paging} {root base : Nat}

/-- The frame a page is mapped to by a last-level entry. -/
def Paging.frameAt (s : Paging) (root virtAddr : Nat) : Option Nat :=
  match s.leafAt root virtAddr with
  | some (.small entry) => some (entry &&& entryAddrMask4k)
  | _ => none

theorem Paging.frameAt_eq_some : s.frameAt root virtAddr = some frame ↔
      ∃ entry, s.leafAt root virtAddr = some (.small entry) ∧ entry &&& entryAddrMask4k = frame := by
  unfold Paging.frameAt
  grind

theorem Rebound.frameAt_other {other : Nat} (rebound : Rebound root virtAddr leaf s t)
    (different : pageNumber other ≠ pageNumber virtAddr) : t.frameAt root other = s.frameAt root other := by
  simp only [Paging.frameAt, rebound.leaves, if_neg different]

/-- Every page of a set is mapped to a used frame of its own that holds no table. -/
structure Backed (base root : Nat) (s : Paging) (pages : Nat → Prop) : Prop where
  tree : TableTree s root
  recorded : s.info.rootPml4Phys = root
  inside : ∀ virtAddr, pages virtAddr → virtAddr % 4096 = 0 ∧ base ≤ virtAddr ∧ virtAddr < base + 2 ^ 28
  mapped : ∀ virtAddr, pages virtAddr → ∃ frame, s.frameAt root virtAddr = some frame ∧
    s.pmm.bitTest (frame / 4096) = true ∧ ∀ path, path.length ≤ 3 → s.tableAt root path ≠ some frame
  distinct : ∀ first second frame, pages first → pages second → s.frameAt root first = some frame →
    s.frameAt root second = some frame → first = second

variable {pages : Nat → Prop}

theorem frameAt_aligned (found : s.frameAt root virtAddr = some frame) : frame % 4096 = 0 := by
  obtain ⟨entry, -, rfl⟩ := Paging.frameAt_eq_some.mp found
  exact (mask4k_aligned entry).1

/-- Pages of one region differ in their page numbers. -/
theorem Backed.pageNumber_ne (backed : Backed base root s pages) {first : Nat}
    (member : pages first) (aligned : second % 4096 = 0) (low : base ≤ second)
    (high : second < base + 2 ^ 28) (different : first ≠ second) :
    pageNumber first ≠ pageNumber second := by
  obtain ⟨aligned', low', high'⟩ := backed.inside first member
  simp only [pageNumber]
  omega

/-- A used frame that is no table survives a call on the tables. -/
theorem Rebound.keeps_frame (rebound : Rebound root virtAddr leaf s t)
    (aligned : frame % 4096 = 0) (used : s.pmm.bitTest (frame / 4096) = true)
    (foreign : ∀ path, path.length ≤ 3 → s.tableAt root path ≠ some frame) :
    t.pmm.bitTest (frame / 4096) = true ∧ ∀ path, path.length ≤ 3 → t.tableAt root path ≠ some frame := by
  grind [freed, origin]

section Frames

variable {phys : Nat} {pmm : Pmm}

section

variable (backed : Backed base root s pages)
include backed

theorem Backed.allocFrame (taken : pmmTryAllocPagePhys s.pmm = (some phys, pmm)) :
    Backed base root { s with pmm := pmm } pages := by
  have got := pmmTryAllocPagePhys_allocated taken
  refine ⟨backed.tree.allocFrame taken, backed.recorded, backed.inside, ?_, backed.distinct⟩
  intro virtAddr member
  obtain ⟨frame, found, used, foreign⟩ := backed.mapped virtAddr member
  exact ⟨frame, found, by simp [got.bits, used], foreign⟩

/-- A frame the allocator hands out backs no page yet. -/
theorem Backed.unused (clear : s.pmm.bitTest (phys / 4096) = false) (member : pages virtAddr) :
    s.frameAt root virtAddr ≠ some phys := by
  obtain ⟨frame, found', used, -⟩ := backed.mapped virtAddr member
  grind

theorem Backed.freeFrame (foreign : ∀ path, path.length ≤ 3 → s.tableAt root path ≠ some phys)
    (unused : ∀ virtAddr, pages virtAddr → s.frameAt root virtAddr ≠ some phys) :
    Backed base root { s with pmm := pmmFreePagePhys s.pmm phys } pages := by
  refine ⟨backed.tree.freeFrame foreign, backed.recorded, backed.inside, ?_, backed.distinct⟩
  intro virtAddr member
  obtain ⟨frame, found, used, foreign'⟩ := backed.mapped virtAddr member
  refine ⟨frame, found, (pmmFreePagePhys_bitTest s.pmm phys _).mpr ⟨used, ?_⟩, foreign'⟩
  rintro ⟨⟨-, aligned, -, -⟩, same⟩
  grind [frameAt_aligned]

theorem Backed.subset {fewer : Nat → Prop}
    (included : ∀ virtAddr, fewer virtAddr → pages virtAddr) : Backed base root s fewer where
  tree := backed.tree
  recorded := backed.recorded
  inside := fun virtAddr member => backed.inside virtAddr (included virtAddr member)
  mapped := fun virtAddr member => backed.mapped virtAddr (included virtAddr member)
  distinct := fun first second frame firstMember secondMember =>
    backed.distinct first second frame (included first firstMember) (included second secondMember)

/-- A call on one page keeps the backing of the others. -/
theorem Backed.rebind (rebound : Rebound root virtAddr leaf s t)
    (others : ∀ other, pages other → pageNumber other ≠ pageNumber virtAddr) :
    Backed base root t pages := by
  refine ⟨rebound.tree, rebound.rootPml4Phys.trans backed.recorded, backed.inside, ?_, ?_⟩
  · intro other member
    obtain ⟨frame, found, used, foreign⟩ := backed.mapped other member
    grind [Rebound.keeps_frame, frameAt_aligned, Rebound.frameAt_other]
  · intro first second frame firstMember secondMember
    rw [rebound.frameAt_other (others first firstMember), rebound.frameAt_other (others second secondMember)]
    grind [distinct]

/-- One pass of the mapping loop of `vmalloc`. -/
theorem Backed.mapPage (taken : pmmTryAllocPagePhys s.pmm = (some phys, pmm))
    (absent : ¬ pages virtAddr) (aligned : virtAddr % 4096 = 0) (low : base ≤ virtAddr)
    (high : virtAddr < base + 2 ^ 28)
    (mapped : pagingMapPage { s with pmm := pmm } root virtAddr phys flags = .ok (true, t)) :
    Backed base root t fun other => pages other ∨ other = virtAddr := by
  have got := pmmTryAllocPagePhys_allocated taken
  have backed' := backed.allocFrame taken
  have others : ∀ other, pages other → pageNumber other ≠ pageNumber virtAddr := by
    grind [pageNumber_ne]
  rcases pagingMapPage_rebound backed'.tree mapped with ⟨refused, -, -⟩ | ⟨-, -, rebound⟩
  · cases refused
  have kept := backed'.rebind rebound others
  have fixed : phys &&& entryAddrMask4k = phys := by
    have sized := backed.tree.sized
    have below := got.below
    exact mask4k_of_aligned got.aligned (by omega)
  have here : t.frameAt root virtAddr = some phys := by
    rw [Paging.frameAt_eq_some]
    exact ⟨_, (rebound.leaves virtAddr).trans (if_pos rfl), by rw [leafEntry_frame, fixed]⟩
  have fresh := rebound.keeps_frame got.aligned (by simp [got.bits]) (backed.tree.free_unreached got.clear)
  have unused : ∀ other, pages other → t.frameAt root other ≠ some phys := by
    intro other member
    rw [rebound.frameAt_other (others other member)]
    exact backed.unused got.clear member
  refine ⟨kept.tree, kept.recorded, ?_, ?_, ?_⟩
  · rintro other (member | rfl)
    · exact backed.inside other member
    omega
  · rintro other (member | rfl)
    · exact kept.mapped other member
    grind
  grind [distinct]

/-- The refused pass of the mapping loop gives its frame back. -/
theorem Backed.mapRefused (taken : pmmTryAllocPagePhys s.pmm = (some phys, pmm))
    (refused : pagingMapPage { s with pmm := pmm } root virtAddr phys flags = .ok (false, t)) :
    Backed base root { t with pmm := pmmFreePagePhys t.pmm phys } pages := by
  have got := pmmTryAllocPagePhys_allocated taken
  have backed' := backed.allocFrame taken
  rcases pagingMapPage_rebound backed'.tree refused with ⟨-, rfl, -⟩ | ⟨accepted, -, -⟩
  · exact backed'.freeFrame (backed.tree.free_unreached got.clear)
      (fun virtAddr member => backed.unused got.clear member)
  · cases accepted

/-- One pass of an unmapping loop over a backed page. -/
theorem Backed.unmapPage (member : pages virtAddr)
    (unmapped : pagingUnmapPage s root virtAddr = .ok (answer, t)) :
    ∃ frame, answer = some frame ∧
      Backed base root { t with pmm := pmmFreePagePhys t.pmm frame } fun other => pages other ∧ other ≠ virtAddr := by
  obtain ⟨aligned, low, high⟩ := backed.inside virtAddr member
  obtain ⟨frame, found, used, foreign⟩ := backed.mapped virtAddr member
  obtain ⟨entry, leaf, rfl⟩ := Paging.frameAt_eq_some.mp found
  rcases pagingUnmapPage_rebound backed.tree unmapped with ⟨-, -, missing⟩ | ⟨entry', leaf', rfl, rebound⟩
  · grind
  rw [leaf, Option.some.injEq, Leaf.small.injEq] at leaf'
  subst leaf'
  have others : ∀ other, pages other ∧ other ≠ virtAddr → pageNumber other ≠ pageNumber virtAddr :=
    fun other ⟨inside, different⟩ => backed.pageNumber_ne inside aligned low high different
  have kept := (backed.subset fun other (inside : pages other ∧ other ≠ virtAddr) => inside.1).rebind rebound others
  refine ⟨_, rfl, kept.freeFrame (rebound.keeps_frame (frameAt_aligned found) used foreign).2 ?_⟩
  rintro other ⟨inside, different⟩ same
  rw [rebound.frameAt_other (others other ⟨inside, different⟩)] at same
  grind [distinct]

end

end Frames

section Loops

variable {addr flags count : Nat} {offsets : List Nat}

/-- What holds of the pages that the mapping loop has done holds of those it got to when it ends. -/
theorem mapPages_rule (Holds : List Nat → Paging → Prop)
    (pass : ∀ {before offset s phys pmm t}, before ++ [offset] <+: offsets → Holds before s →
      pmmTryAllocPagePhys s.pmm = (some phys, pmm) →
      pagingMapPage { s with pmm := pmm } root ((addr + offset) % 2 ^ 64) phys flags = .ok (true, t) →
      Holds (before ++ [offset]) t)
    (refused : ∀ {before offset s phys pmm t}, Holds before s → pmmTryAllocPagePhys s.pmm = (some phys, pmm) →
      pagingMapPage { s with pmm := pmm } root ((addr + offset) % 2 ^ 64) phys flags = .ok (false, t) →
      Holds before { t with pmm := pmmFreePagePhys t.pmm phys })
    (start : Holds [] s) (done : mapPages root addr flags offsets 0 s = .ok (count, t)) :
    ∃ before, before <+: offsets ∧ count = before.length * 4096 ∧ Holds before t := by
  suffices onward : ∀ rest before mapped s, before ++ rest = offsets → mapped = before.length * 4096 → Holds before s →
      mapPages root addr flags rest mapped s = .ok (count, t) →
      ∃ before, before <+: offsets ∧ count = before.length * 4096 ∧ Holds before t from
    onward offsets [] 0 s rfl rfl start done
  intro rest
  induction rest with
  | nil =>
    intro before mapped s joined counted held done
    cases done
    grind
  | cons offset rest ih =>
    intro before mapped s joined counted held done
    rw [mapPages] at done
    split at done
    · rename_i pmm failed
      cases done
      rw [pmmTryAllocPagePhys_failed failed]
      exact ⟨before, ⟨_, joined⟩, counted, held⟩
    · rename_i phys pmm taken
      obtain ⟨⟨ok, middle⟩, called, done⟩ := Lib.bind_ok done
      cases ok with
      | false =>
        cases done
        grind
      | true =>
        rw [List.append_cons] at joined
        refine ih _ _ _ joined ?_ (pass ⟨rest, joined⟩ held taken called) done
        rw [counted, List.length_append, List.length_singleton, pmmPageSize]
        omega

/-- What holds of the pages that an unmapping loop has done and has to do holds of all when it ends. -/
theorem unmapPages_rule (Holds : List Nat → List Nat → Paging → Prop)
    (pass : ∀ {before offset rest s answer t}, before ++ offset :: rest = offsets → Holds before (offset :: rest) s →
      pagingUnmapPage s root ((addr + offset) % 2 ^ 64) = .ok (answer, t) →
      ∃ frame, answer = some frame ∧ Holds (before ++ [offset]) rest { t with pmm := pmmFreePagePhys t.pmm frame })
    (start : Holds [] offsets s) (done : unmapPages root addr offsets s = .ok t) : Holds offsets [] t := by
  suffices onward : ∀ rest before s, before ++ rest = offsets → Holds before rest s →
      unmapPages root addr rest s = .ok t → Holds offsets [] t from onward offsets [] s rfl start done
  intro rest
  induction rest with
  | nil =>
    intro before s joined held done
    cases done
    grind
  | cons offset rest ih =>
    intro before s joined held done
    obtain ⟨middle, first, done⟩ := Lib.bind_ok done
    obtain ⟨⟨answer, unmapped⟩, called, first⟩ := Lib.bind_ok first
    obtain ⟨frame, rfl, held⟩ := pass joined held called
    cases first
    exact ih _ _ ((List.append_cons ..).symm.trans joined) held done

/-- The mapping loop backs an initial part of the pages it is given. -/
theorem mapPages_backed (backed : Backed base root s pages)
    (unique : offsets.Nodup) (fits : ∀ offset ∈ offsets, addr + offset < 2 ^ 64)
    (inside : ∀ offset ∈ offsets, (addr + offset) % 4096 = 0 ∧ base ≤ addr + offset ∧ addr + offset < base + 2 ^ 28)
    (absent : ∀ offset ∈ offsets, ¬ pages (addr + offset))
    (done : mapPages root addr flags offsets 0 s = .ok (count, t)) :
    ∃ backedOffsets, backedOffsets <+: offsets ∧ count = backedOffsets.length * 4096 ∧
      Backed base root t fun virtAddr => pages virtAddr ∨ ∃ offset ∈ backedOffsets, virtAddr = addr + offset := by
  refine mapPages_rule (fun before state => Backed base root state fun virtAddr =>
    pages virtAddr ∨ ∃ offset ∈ before, virtAddr = addr + offset) ?_ (fun backed => backed.mapRefused)
    (backed.subset (by simp)) done
  intro before offset state phys pmm next initial backed taken called
  have member : offset ∈ offsets := initial.subset (by simp)
  have new : ¬ (pages (addr + offset) ∨ ∃ other ∈ before, addr + offset = addr + other) := by
    rintro (earlier | ⟨other, earlier, same⟩)
    · grind
    · have equal : offset = other := by omega
      exact (List.nodup_append.mp (unique.sublist initial.sublist)).2.2 other earlier offset (by simp) equal.symm
  rw [Nat.mod_eq_of_lt (fits offset member)] at called
  grind [Backed.subset, Backed.mapPage]

/-- One pass of an unmapping loop over backed pages. -/
theorem Backed.unmapPass (backed : Backed base root s fun virtAddr => pages virtAddr ∧ ∀ other ∈ before, virtAddr ≠ addr + other)
    (unique : offsets.Nodup) (fits : ∀ offset ∈ offsets, addr + offset < 2 ^ 64)
    (present : ∀ offset ∈ offsets, pages (addr + offset))
    (joined : before ++ offset :: rest = offsets)
    (called : pagingUnmapPage s root ((addr + offset) % 2 ^ 64) = .ok (answer, t)) :
    ∃ frame, answer = some frame ∧ Backed base root { t with pmm := pmmFreePagePhys t.pmm frame }
      fun virtAddr => pages virtAddr ∧ ∀ other ∈ before ++ [offset], virtAddr ≠ addr + other := by
  subst joined
  have member : offset ∈ before ++ offset :: rest := by simp
  have here : pages (addr + offset) ∧ ∀ other ∈ before, addr + offset ≠ addr + other := by
    grind
  rw [Nat.mod_eq_of_lt (fits offset member)] at called
  obtain ⟨frame, answered, backed'⟩ := backed.unmapPage here called
  refine ⟨frame, answered, backed'.subset ?_⟩
  rintro virtAddr ⟨listed, away⟩
  exact ⟨⟨listed, fun other earlier => away other (List.mem_append_left _ earlier)⟩, away offset (by simp)⟩

/-- An unmapping loop over backed pages removes exactly those. -/
theorem unmapPages_backed (backed : Backed base root s pages) (unique : offsets.Nodup)
    (fits : ∀ offset ∈ offsets, addr + offset < 2 ^ 64) (present : ∀ offset ∈ offsets, pages (addr + offset))
    (done : unmapPages root addr offsets s = .ok t) :
    Backed base root t fun virtAddr => pages virtAddr ∧ ∀ offset ∈ offsets, virtAddr ≠ addr + offset :=
  unmapPages_rule (fun before _ state => Backed base root state fun virtAddr =>
    pages virtAddr ∧ ∀ offset ∈ before, virtAddr ≠ addr + offset)
    (fun joined backed called => backed.unmapPass unique fits present joined called) (backed.subset (by simp)) done

end Loops

theorem strides_pages (count : Nat) : strides 0 (count * 4096) 4096 = (List.range count).map (· * 4096) := by
  have length : (count * 4096 - 0 + (4096 - 1)) / 4096 = count := by omega
  simp only [strides, length, Nat.zero_add]

theorem mem_strides_pages :
    offset ∈ strides 0 (count * 4096) 4096 ↔ offset % 4096 = 0 ∧ offset < count * 4096 := by
  rw [strides_pages, List.mem_map]
  constructor
  · grind
  · rintro ⟨aligned, below⟩
    exact ⟨offset / 4096, List.mem_range.mpr (by omega), by omega⟩

theorem strides_pages_nodup (count : Nat) : (strides 0 (count * 4096) 4096).Nodup := by
  exact List.nodup_range.map fun first second same => by simpa using same

/-- The pages of a range differ in their page numbers. -/
theorem strides_pages_apart (start : 4096 ∣ addr) (short : count ≤ 2 ^ 36) :
    ((strides 0 (count * 4096) 4096).map (addr + ·)).Pairwise fun first second => pageNumber first ≠ pageNumber second := by
  rw [strides_pages, List.map_map, List.pairwise_map]
  refine List.Pairwise.imp_of_mem ?_ (List.pairwise_lt_range (n := count))
  intro first second _ last below
  have bound := List.mem_range.mp last
  simp only [Function.comp_apply, pageNumber]
  omega

/-- An initial part of a page loop is a shorter page loop. -/
theorem strides_pages_prefix (initial : offsets <+: strides 0 (count * 4096) 4096) :
    offsets.length ≤ count ∧ offsets = strides 0 (offsets.length * 4096) 4096 := by
  rw [strides_pages] at initial
  have bound := initial.length_le
  rw [List.length_map, List.length_range] at bound
  refine ⟨bound, ?_⟩
  rw [strides_pages, List.prefix_iff_eq_take.mp initial, List.length_take, List.length_map, List.length_range,
    Nat.min_eq_left bound, ← List.map_take, List.take_range, Nat.min_eq_left bound]

end Velox
