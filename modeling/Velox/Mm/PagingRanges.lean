import Velox.Mm.FrameDemand

namespace Velox

variable {size offset other : Nat} {ok : Bool}

section Map

variable {s t u : Paging} {root virtAddr physAddr flags : Nat} {offsets : List Nat}

/-- The state `t` is `s` with the pages at some offsets mapped, which had not been. -/
structure RangeMapped (root virtAddr physAddr flags : Nat) (offsets : List Nat) (s t : Paging) : Prop where
  tree : TableTree t root
  allowed : ∀ offset ∈ offsets, MapAllowed s root (virtAddr + offset) (physAddr + offset) flags
  apart : (offsets.map (virtAddr + ·)).Pairwise fun first second => pageNumber first ≠ pageNumber second
  inside : ∀ offset ∈ offsets, t.leafAt root (virtAddr + offset) =
    some (.small (leafEntry s.nxEnabled (physAddr + offset) flags))
  outside : ∀ other, (∀ offset ∈ offsets, pageNumber (virtAddr + offset) ≠ pageNumber other) →
    t.leafAt root other = s.leafAt root other
  draws : Draws root (pagesTables (offsets.map (virtAddr + ·))) 0 s t
  rootPml4Phys : t.info.rootPml4Phys = s.info.rootPml4Phys

section

variable (tree : TableTree s root)
include tree

theorem RangeMapped.nil : RangeMapped root virtAddr physAddr flags [] s s where
  tree := tree
  allowed := by simp
  apart := .nil
  inside := by simp
  outside := fun _ _ => rfl
  draws := ⟨fun path _ => by simp [pagesTables], by simp [pagesTables, Paging.missing]⟩
  rootPml4Phys := rfl

/-- One page more in front of those that are mapped. -/
theorem RangeMapped.cons {rest : List Nat}
    (called : pagingMapPage s root (virtAddr + offset) (physAddr + offset) flags = .ok (true, u))
    (later : RangeMapped root virtAddr physAddr flags rest u t) :
    RangeMapped root virtAddr physAddr flags (offset :: rest) s t := by
  rcases pagingMapPage_rebound tree called with ⟨no, -⟩ | ⟨-, allowed, rebound⟩
  · cases no
  -- A later page that is still free in `u` is not the one just mapped.
  have apart : ∀ other ∈ rest, pageNumber (virtAddr + other) ≠ pageNumber (virtAddr + offset) := by
    intro other member same
    have free := (later.allowed other member).2.2.2
    rw [rebound.leaves, if_pos same] at free
    cases free
  have drawn := (pagingMapPage_draws tree called).trans later.draws fun _ => pagesTables_short
  refine ⟨later.tree, ?_, ?_, ?_, ?_, ?_, later.rootPml4Phys.trans rebound.rootPml4Phys⟩
  · intro other member
    rcases List.mem_cons.mp member with rfl | member
    · exact allowed
    · obtain ⟨aligned, aligned', compatible, free⟩ := later.allowed other member
      rw [rebound.leaves, if_neg (apart other member)] at free
      exact ⟨aligned, aligned', compatible, free⟩
  · grind [List.pairwise_cons, apart]
  · intro other member
    rcases List.mem_cons.mp member with rfl | member
    · rw [later.outside _ apart, rebound.leaves, if_pos rfl]
    · rw [later.inside other member, rebound.nxEnabled]
  · intro other away
    rw [later.outside other fun place member => away place (List.mem_cons_of_mem _ member), rebound.leaves,
      if_neg (away offset List.mem_cons_self).symm]
  · rw [List.map_cons, pagesTables_cons]
    exact drawn

section

variable (fits : ∀ offset ∈ offsets, virtAddr + offset < 2 ^ 64 ∧ physAddr + offset < 2 ^ 64)
include fits

/-- What the loop leaves: all pages, or those before the first one that is refused. -/
theorem mapRangePages_cases
    (done : mapRangePages root virtAddr physAddr flags offsets s = .ok (ok, t)) :
    (ok = true ∧ RangeMapped root virtAddr physAddr flags offsets s t) ∨
      (ok = false ∧ ∃ before offset, before ++ [offset] <+: offsets ∧
        RangeMapped root virtAddr physAddr flags before s t ∧
        ¬ MapAllowed t root (virtAddr + offset) (physAddr + offset) flags) := by
  induction offsets generalizing s with
  | nil =>
    cases done
    exact .inl ⟨rfl, .nil tree⟩
  | cons offset rest ih =>
    obtain ⟨small, small'⟩ := fits offset List.mem_cons_self
    simp only [mapRangePages, Nat.mod_eq_of_lt small, Nat.mod_eq_of_lt small'] at done
    obtain ⟨⟨accepted, u⟩, called, done⟩ := Lib.bind_ok done
    cases accepted with
    | false =>
      cases done
      rcases pagingMapPage_rebound tree called with ⟨-, rfl, refused⟩ | ⟨yes, -⟩
      · exact .inr ⟨rfl, [], offset, List.cons_prefix_cons.mpr ⟨rfl, List.nil_prefix⟩, .nil tree, refused⟩
      · cases yes
    | true =>
      rcases pagingMapPage_rebound tree called with ⟨no, -⟩ | ⟨-, -, rebound⟩
      · cases no
      rcases ih rebound.tree (fun other member => fits other (List.mem_cons_of_mem _ member)) done with
        ⟨rfl, mapped⟩ | ⟨rfl, before, stop, initial, mapped, refused⟩
      · grind [RangeMapped.cons]
      · exact .inr ⟨rfl, offset :: before, stop, List.cons_prefix_cons.mpr ⟨rfl, initial⟩, mapped.cons tree called, refused⟩

/-- The loop panics only for want of a frame for a table. -/
theorem mapRangePages_halts {fault : Panic}
    (halted : mapRangePages root virtAddr physAddr flags offsets s = .error fault) :
    s.pmm.info.freePages < (s.missing root (pagesTables (offsets.map (virtAddr + ·)))).card := by
  induction offsets generalizing s with
  | nil => cases halted
  | cons offset rest ih =>
    obtain ⟨small, small'⟩ := fits offset List.mem_cons_self
    simp only [mapRangePages, Nat.mod_eq_of_lt small, Nat.mod_eq_of_lt small'] at halted
    rw [List.map_cons, pagesTables_cons]
    rcases Lib.bind_error halted with stopped | ⟨⟨accepted, u⟩, called, halted⟩
    · exact (pagingMapPage_short tree stopped).2.trans_le (s.missing_mono root Finset.subset_union_left)
    · cases accepted with
      | false => cases halted
      | true =>
        rcases pagingMapPage_rebound tree called with ⟨no, -⟩ | ⟨-, -, rebound⟩
        · cases no
        have short := ih rebound.tree (fun other member => fits other (List.mem_cons_of_mem _ member)) halted
        exact (pagingMapPage_draws tree called).short (fun _ => pagesTables_short) short

end

end

/-- The arguments with which `paging_map_range` comes to its loop. -/
def MapRangeEnters (virtAddr physAddr size : Nat) : Prop :=
  size ≠ 0 ∧ virtAddr + size < 2 ^ 64 ∧ physAddr + size < 2 ^ 64 ∧ size ≤ alignUp size pageSize4k

theorem pagingMapRange_refused (refused : ¬ MapRangeEnters virtAddr physAddr size) :
    pagingMapRange s root virtAddr physAddr size flags = .ok (false, s) := by
  have word : alignUp size pageSize4k < 2 ^ 64 := by
    rw [pageSize4k, alignUp_page]
    omega
  simp only [pagingMapRange]
  split_ifs with empty wraps large
  · rfl
  · rfl
  · rfl
  · exact absurd ⟨empty, by omega, by omega, by omega⟩ refused

theorem pagingMapRange_enters (enters : MapRangeEnters virtAddr physAddr size) :
    pagingMapRange s root virtAddr physAddr size flags =
      mapRangePages root virtAddr physAddr flags (strides 0 (alignUp size pageSize4k) pageSize4k) s := by
  obtain ⟨some', low, low', enough⟩ := enters
  have fits : ¬ (virtAddr > 2 ^ 64 - 1 - size ∨ physAddr > 2 ^ 64 - 1 - size) := by omega
  simp only [pagingMapRange, if_neg some', if_neg fits, if_neg (Nat.not_lt.mpr enough)]

/-- A size that does not wrap when it is rounded up. -/
theorem alignUp_whole (enough : size ≤ alignUp size pageSize4k) :
    ∃ count, alignUp size pageSize4k = count * 4096 ∧ size ≤ count * 4096 ∧ count * 4096 < size + 4096 := by
  rw [pageSize4k, alignUp_page] at enough ⊢
  grind

/-- The offsets of the loop do not carry an address past its end. -/
theorem MapRangeEnters.fits (enters : MapRangeEnters virtAddr physAddr size) :
    ∀ offset ∈ strides 0 (alignUp size pageSize4k) pageSize4k, virtAddr + offset < 2 ^ 64 ∧ physAddr + offset < 2 ^ 64 := by
  obtain ⟨-, low, low', enough⟩ := enters
  obtain ⟨count, whole, -, tight⟩ := alignUp_whole enough
  intro offset member
  rw [whole] at member
  obtain ⟨aligned, below⟩ := mem_strides_pages.mp member
  omega

theorem Leaf.address_small (entry virtAddr : Nat) :
    Leaf.address virtAddr (.small entry) = (entry &&& entryAddrMask4k) + virtAddr % 4096 := by
  have low : virtAddr &&& (pageSize4k - 1) = virtAddr % 2 ^ 12 := Nat.and_two_pow_sub_one_eq_mod virtAddr 12
  rw [Leaf.address, low, Lib.or_eq_add_of_lt (mask4k_aligned entry).1 (Nat.mod_lt _ (by decide))]
  rfl

/-- The translation of an address in a page that was mapped. -/
theorem RangeMapped.translate (mapped : RangeMapped root virtAddr physAddr flags offsets s t) {low : Nat}
    (member : offset ∈ offsets) (small : low < 4096) :
    pagingTranslate t root (virtAddr + offset + low) = some ((physAddr + offset &&& entryAddrMask4k) + low) := by
  have aligned := (mapped.allowed offset member).1
  have same : pageNumber (virtAddr + offset + low) = pageNumber (virtAddr + offset) := by
    simp only [pageNumber]
    omega
  rw [pagingTranslate, translateWithCr3_eq_leaf mapped.tree, t.leafAt_pageNumber root same, mapped.inside offset member,
    Option.map_some, Leaf.address_small, leafEntry_frame]
  congr 2
  omega

/-- Every call translates addresses outside of its range as before. -/
theorem RangeMapped.translate_outside (tree : TableTree s root) (mapped : RangeMapped root virtAddr physAddr flags offsets s t)
    (away : ∀ offset ∈ offsets, pageNumber (virtAddr + offset) ≠ pageNumber other) :
    pagingTranslate t root other = pagingTranslate s root other := by
  grind [translateWithCr3_eq_leaf, tree, outside]

/-- The call maps the range or leaves everything as it was, and in either case it does not touch
other pages. -/
def MapRangeAtomic (s : Paging) (root virtAddr physAddr size flags : Nat) : Prop :=
  ∃ ok t, pagingMapRange s root virtAddr physAddr size flags = .ok (ok, t) ∧
    (ok = true → ∀ v, virtAddr ≤ v → v < virtAddr + alignUp size pageSize4k →
      pagingTranslate t root v = some (physAddr + (v - virtAddr))) ∧
    (ok = false → (∀ v, pagingTranslate t root v = pagingTranslate s root v) ∧
      ∀ page, t.pmm.bitTest page = s.pmm.bitTest page) ∧
    ∀ v, (∀ w, virtAddr ≤ w → w < virtAddr + alignUp size pageSize4k → pageNumber w ≠ pageNumber v) →
      pagingTranslate t root v = pagingTranslate s root v

/-- The whole range can be mapped: it has no page twice and none that is mapped already, there are
frames for its tables, and its frames fit into the entries. -/
def RangeMappable (s : Paging) (root virtAddr physAddr size : Nat) : Prop :=
  alignUp size pageSize4k ≤ 2 ^ 48 ∧
  (∀ offset ∈ strides 0 (alignUp size pageSize4k) pageSize4k, s.leafAt root (virtAddr + offset) = none) ∧
  (s.missing root (pagesTables ((strides 0 (alignUp size pageSize4k) pageSize4k).map (virtAddr + ·)))).card ≤
    s.pmm.info.freePages ∧
  physAddr + alignUp size pageSize4k ≤ 2 ^ 52

variable {size : Nat}

/-- The loop starts with the address that was passed. -/
theorem MapRangeEnters.first (enters : MapRangeEnters virtAddr physAddr size) :
    ∃ rest, strides 0 (alignUp size pageSize4k) pageSize4k = 0 :: rest := by
  obtain ⟨some', -, -, enough⟩ := enters
  exact strides_cons (show 0 < alignUp size pageSize4k by omega) (by decide)

section

variable (tree : TableTree s root) (enters : MapRangeEnters virtAddr physAddr size)
include tree enters

/-- A first page that is refused ends the call with nothing changed. -/
theorem pagingMapRange_first_refused (refused : ¬ MapAllowed s root virtAddr physAddr flags) :
    pagingMapRange s root virtAddr physAddr size flags = .ok (false, s) := by
  obtain ⟨rest, list⟩ := enters.first
  obtain ⟨low, low'⟩ := enters.fits 0 (by grind)
  rw [pagingMapRange_enters enters, list, mapRangePages, Nat.mod_eq_of_lt low, Nat.mod_eq_of_lt low', Nat.add_zero,
    Nat.add_zero]
  cases called : pagingMapPage s root virtAddr physAddr flags with
  | error fault => exact absurd (pagingMapPage_short tree called).1 refused
  | ok answer =>
    obtain ⟨ok, u⟩ := answer
    rcases pagingMapPage_rebound tree called with ⟨rfl, rfl, -⟩ | ⟨-, allowed, -⟩
    · exact Lib.bind_of_ok called
    grind

/-- A range that can be mapped as a whole is mapped. -/
theorem pagingMapRange_mapped (allowed : MapAllowed s root virtAddr physAddr flags)
    (mappable : RangeMappable s root virtAddr physAddr size) :
    ∃ t, pagingMapRange s root virtAddr physAddr size flags = .ok (true, t) ∧
      RangeMapped root virtAddr physAddr flags (strides 0 (alignUp size pageSize4k) pageSize4k) s t := by
  obtain ⟨short, free, frames, -⟩ := mappable
  obtain ⟨aligned, aligned', compatible, -⟩ := allowed
  rw [pagingMapRange_enters enters]
  cases looped : mapRangePages root virtAddr physAddr flags (strides 0 (alignUp size pageSize4k) pageSize4k) s with
  | error fault => exact absurd frames (Nat.not_le.mpr (mapRangePages_halts tree enters.fits looped))
  | ok answer =>
    obtain ⟨ok, t⟩ := answer
    rcases mapRangePages_cases tree enters.fits looped with ⟨rfl, mapped⟩ | ⟨-, before, stop, initial, mapped, refused⟩
    · grind
    · -- The page where the loop stopped is still free, and differs from those before it.
      exfalso
      apply refused
      obtain ⟨count, whole, -⟩ := alignUp_whole enters.2.2.2
      have member := initial.subset (List.mem_append_right before List.mem_cons_self)
      have apart := strides_pages_apart (Nat.dvd_of_mod_eq_zero aligned) (show count ≤ 2 ^ 36 by omega)
      rw [← whole] at apart
      have others := (apart.sublist (initial.sublist.map _))
      rw [List.map_append, List.pairwise_append] at others
      have place := (mem_strides_pages.mp (whole ▸ member)).1
      refine ⟨by omega, by omega, compatible, ?_⟩
      rw [mapped.outside _ fun offset earlier => others.2.2 _ (List.mem_map_of_mem earlier) _ (by simp)]
      exact free stop member

/-- A call that maps its range or nothing could map all of it. -/
theorem MapRangeAtomic.mappable (allowed : MapAllowed s root virtAddr physAddr flags)
    (atomic : MapRangeAtomic s root virtAddr physAddr size flags) :
    RangeMappable s root virtAddr physAddr size := by
  obtain ⟨ok, t, done, whole', kept, -⟩ := atomic
  obtain ⟨count, whole, low, tight⟩ := alignUp_whole enters.2.2.2
  have some' := enters.1
  rw [pagingMapRange_enters enters] at done
  rcases mapRangePages_cases tree enters.fits done with ⟨rfl, mapped⟩ | ⟨rfl, before, stop, initial, mapped, refused⟩
  · have last := mapped.translate (show (count - 1) * 4096 ∈ _ by rw [whole]; exact mem_strides_pages.mpr (by omega))
      (show 0 < 4096 by decide)
    rw [whole' rfl _ (by omega) (by omega), Option.some.injEq] at last
    have field := mask4k_aligned (physAddr + (count - 1) * 4096)
    refine ⟨?_, fun offset member => (mapped.allowed offset member).2.2.2, ?_, ?_⟩
    · by_contra long
      have first : 0 ∈ strides 0 (alignUp size pageSize4k) pageSize4k := by
        rw [whole]
        exact mem_strides_pages.mpr (by omega)
      have again : 2 ^ 48 ∈ strides 0 (alignUp size pageSize4k) pageSize4k := by
        rw [whole]
        exact mem_strides_pages.mpr (by omega)
      have either : Std.Symm fun first second => pageNumber (virtAddr + first) ≠ pageNumber (virtAddr + second) :=
        ⟨fun _ _ different => different.symm⟩
      apply (List.pairwise_map.mp mapped.apart).forall first again (by decide)
      simp only [pageNumber]
      omega
    · have left := mapped.draws.left
      omega
    · omega
  · exfalso
    obtain ⟨rest, list⟩ := enters.first
    rw [list] at initial
    cases before with
    | nil =>
      obtain ⟨rfl, -⟩ := List.cons_prefix_cons.mp initial
      apply refused
      obtain ⟨aligned, aligned', compatible, free⟩ := allowed
      refine ⟨aligned, aligned', compatible, ?_⟩
      grind [RangeMapped.outside]
    | cons first before =>
      -- The first page was mapped and stays so.
      have now := mapped.translate List.mem_cons_self (show 0 < 4096 by decide)
      rw [(kept rfl).1, pagingTranslate, translateWithCr3_eq_leaf tree] at now
      have free : s.leafAt root (virtAddr + 0 + 0) = none := allowed.2.2.2
      grind

end

theorem pagingMapRange_outside (tree : TableTree s root)
    (done : pagingMapRange s root virtAddr physAddr size flags = .ok (ok, t))
    (away : ∀ w, virtAddr ≤ w → w < virtAddr + alignUp size pageSize4k → pageNumber w ≠ pageNumber other) :
    pagingTranslate t root other = pagingTranslate s root other := by
  by_cases enters : MapRangeEnters virtAddr physAddr size
  · have within : ∀ offset ∈ strides 0 (alignUp size pageSize4k) pageSize4k,
        pageNumber (virtAddr + offset) ≠ pageNumber other := by
      intro offset member
      obtain ⟨_, -, below⟩ := mem_strides (by decide) member
      grind
    rw [pagingMapRange_enters enters] at done
    rcases mapRangePages_cases tree enters.fits done with ⟨-, mapped⟩ | ⟨-, before, stop, initial, mapped, -⟩
    · exact mapped.translate_outside tree within
    · exact mapped.translate_outside tree fun offset member => within offset (initial.subset (List.mem_append_left _ member))
  grind [pagingMapRange_refused]

end Map

/-- `paging_map_range` maps its range or changes nothing iff the first page is refused or all of the
range can be mapped; it never touches a page outside of its range. -/
theorem map_range_atomic_iff {boot : Boot} {s : Paging} (reached : Reached boot s) (virtAddr physAddr size flags : Nat) :
    (MapRangeAtomic s s.info.rootPml4Phys virtAddr physAddr size flags ↔
      (MapRangeEnters virtAddr physAddr size → MapAllowed s s.info.rootPml4Phys virtAddr physAddr flags →
        RangeMappable s s.info.rootPml4Phys virtAddr physAddr size)) ∧
    ∀ ok t, pagingMapRange s s.info.rootPml4Phys virtAddr physAddr size flags = .ok (ok, t) →
      ∀ v, (∀ w, virtAddr ≤ w → w < virtAddr + alignUp size pageSize4k → pageNumber w ≠ pageNumber v) →
        pagingTranslate t s.info.rootPml4Phys v = pagingTranslate s s.info.rootPml4Phys v := by
  have tree := reached.space.tree
  refine ⟨⟨fun atomic enters allowed => atomic.mappable tree enters allowed, fun condition => ?_⟩,
    fun ok t done v away => pagingMapRange_outside tree done away⟩
  have idle : pagingMapRange s s.info.rootPml4Phys virtAddr physAddr size flags = .ok (false, s) →
      MapRangeAtomic s s.info.rootPml4Phys virtAddr physAddr size flags := by
    intro refused
    exact ⟨false, s, refused, fun no => absurd no (by decide), fun _ => ⟨fun _ => rfl, fun _ => rfl⟩, fun _ _ => rfl⟩
  by_cases enters : MapRangeEnters virtAddr physAddr size
  · by_cases allowed : MapAllowed s s.info.rootPml4Phys virtAddr physAddr flags
    · have mappable := condition enters allowed
      obtain ⟨t, done, mapped⟩ := pagingMapRange_mapped tree enters allowed mappable
      refine ⟨true, t, done, fun _ v above below => ?_, fun no => absurd no (by decide), fun v away => pagingMapRange_outside tree done away⟩
      obtain ⟨count, whole, -⟩ := alignUp_whole enters.2.2.2
      have member : (v - virtAddr) / 4096 * 4096 ∈ strides 0 (alignUp size pageSize4k) pageSize4k := by
        rw [whole]
        exact mem_strides_pages.mpr (by omega)
      have translated := mapped.translate member (show (v - virtAddr) % 4096 < 4096 by omega)
      have frame := (mapped.allowed _ member).2.1
      have small := mappable.2.2.2
      grind [mask4k_of_aligned]
    grind [pagingMapRange_first_refused]
  · exact idle (pagingMapRange_refused enters)

theorem map_range_atomic_iff_tiny :
    MapRangeAtomic tinyPagingReady tinyPagingReady.info.rootPml4Phys 0x400000 0x5000 0x2000 1 := by
  refine (map_range_atomic_iff tinyPagingReady_reached 0x400000 0x5000 0x2000 1).1.mpr fun _ _ => ?_
  unfold RangeMappable
  decide +kernel

/-- The second page of the range is mapped already, and the first one stays mapped when the call
answers `false`. -/
theorem map_range_stops_half_way : ∃ s t, Reached tinyBoot s ∧
    pagingMapRange s s.info.rootPml4Phys 0x400000 0x5000 0x2000 1 = .ok (false, t) ∧
    pagingTranslate s s.info.rootPml4Phys 0x400000 = none ∧
    pagingTranslate t s.info.rootPml4Phys 0x400000 = some 0x5000 := by
  obtain ⟨⟨answer, s⟩, taken, passed⟩ := Lib.exists_ok_of_test
    (show (pagingStep tinyPagingReady (.map 0x401000 0x7000 1)).toOption.any (fun next =>
      pagingTranslate next.2 next.2.info.rootPml4Phys 0x400000 = none ∧
        (pagingMapRange next.2 next.2.info.rootPml4Phys 0x400000 0x5000 0x2000 1).toOption.any (fun last =>
          last.1 = false ∧ pagingTranslate last.2 next.2.info.rootPml4Phys 0x400000 = some 0x5000) = true) = true
      by decide +kernel)
  obtain ⟨before, half⟩ := of_decide_eq_true passed
  obtain ⟨⟨ok, t⟩, done, passed'⟩ := Lib.exists_ok_of_test half
  obtain ⟨rfl, after⟩ := of_decide_eq_true passed'
  exact ⟨s, t, tinyPagingReady_reached.call taken, done, before, after⟩

section Protect

variable {s t : Paging} {root virtAddr flags size : Nat} {offsets : List Nat}

/-- What `paging_protect_page` makes of a leaf. -/
def Leaf.withRights (nxEnabled : Bool) (flags : Nat) : Option Leaf → Option Leaf :=
  Leaf.onSmall fun entry => some (.small (leafEntry nxEnabled entry flags))

theorem leafEntry_again (nxEnabled : Bool) (entry flags : Nat) :
    leafEntry nxEnabled (leafEntry nxEnabled entry flags) flags = leafEntry nxEnabled entry flags := by
  have frame := leafEntry_frame nxEnabled entry flags
  simp only [leafEntry] at frame ⊢
  rw [frame]

theorem Leaf.withRights_settled (nxEnabled : Bool) (flags : Nat) (leaf : Option Leaf) :
    Leaf.withRights nxEnabled flags (Leaf.withRights nxEnabled flags leaf) = Leaf.withRights nxEnabled flags leaf := by
  refine Leaf.onSmall_settled (fun entry => ?_) leaf
  rw [Leaf.onSmall, leafEntry_again]

theorem Leaf.withRights_small (nxEnabled : Bool) (flags : Nat) (leaf : Option Leaf) :
    (∃ entry, Leaf.withRights nxEnabled flags leaf = some (.small entry)) ↔ ∃ entry, leaf = some (.small entry) := by
  cases leaf with
  | none => rfl
  | some leaf =>
    cases leaf with
    | small entry => exact ⟨fun _ => ⟨entry, rfl⟩, fun _ => ⟨_, rfl⟩⟩
    | huge entry => rfl

theorem pagingProtectPage_touched (tree : TableTree s root) (virtAddr flags : Nat) :
    ∃ done t, pagingProtectPage s root virtAddr flags = .ok (done, t) ∧ TableTree t root ∧
      Touched root (Leaf.withRights s.nxEnabled flags) [virtAddr] s t ∧
      (t.nxEnabled = s.nxEnabled ∧ t.info.rootPml4Phys = s.info.rootPml4Phys) ∧
      (done = true ↔ ∃ entry, s.leafAt root virtAddr = some (.small entry)) := by
  have returns : ∃ answer, pagingProtectPage s root virtAddr flags = .ok answer := by
    simp only [pagingProtectPageLocked, walkToPte_find tree, bind, Except.bind]
    cases s.tableAt root (walkPath virtAddr) with
    | none => exact ⟨_, rfl⟩
    | some pt =>
      dsimp only [Option.map_some]
      split
      · exact ⟨_, rfl⟩
      · exact ⟨_, rfl⟩
  obtain ⟨⟨done, t⟩, called⟩ := returns
  refine ⟨done, t, called, ?_⟩
  rcases pagingProtectPage_rebound tree called with ⟨rfl, rfl, none'⟩ | ⟨entry, mapped, rfl, rebound⟩
  · exact ⟨tree, .unchanged (Leaf.onSmall_of_not_small none' _), ⟨rfl, rfl⟩, by simpa using none'⟩
  · have changed : Leaf.withRights s.nxEnabled flags (s.leafAt root virtAddr) =
        some (.small (leafEntry s.nxEnabled entry flags)) := by rw [mapped, Leaf.withRights, Leaf.onSmall]
    grind [Rebound.tree, Rebound.touched, Rebound.nxEnabled, Rebound.rootPml4Phys]

/-- Changing rights leaves the pages that have an entry of their own. -/
theorem Touched.small_iff {nxEnabled : Bool} {pages : List Nat}
    (touched : Touched root (Leaf.withRights nxEnabled flags) pages s t) (other : Nat) :
    (∃ entry, t.leafAt root other = some (.small entry)) ↔ ∃ entry, s.leafAt root other = some (.small entry) := by
  rw [touched other]
  split
  · exact Leaf.withRights_small _ _ _
  · exact Iff.rfl

/-- The loop goes through all pages and reports whether each of them had an entry of its own. -/
theorem protectRangePages_touched (tree : TableTree s root) (fits : ∀ offset ∈ offsets, virtAddr + offset < 2 ^ 64)
    (flags : Nat) (ok : Bool) :
    ∃ done t, protectRangePages root virtAddr flags offsets ok s = .ok (done, t) ∧ TableTree t root ∧
      Touched root (Leaf.withRights s.nxEnabled flags) (offsets.map (virtAddr + ·)) s t ∧
      (t.nxEnabled = s.nxEnabled ∧ t.info.rootPml4Phys = s.info.rootPml4Phys) ∧
      (done = true ↔ ok = true ∧ ∀ offset ∈ offsets, ∃ entry, s.leafAt root (virtAddr + offset) = some (.small entry)) := by
  induction offsets generalizing s ok with
  | nil => exact ⟨ok, s, rfl, tree, .refl root _ s, ⟨rfl, rfl⟩, by simp⟩
  | cons offset rest ih =>
    obtain ⟨first, u, called, tree', touched, ⟨nx, recorded⟩, had⟩ := pagingProtectPage_touched tree (virtAddr + offset) flags
    obtain ⟨done, t, looped, tree'', touched', ⟨nx', recorded'⟩, had'⟩ :=
      ih tree' (fun other member => fits other (List.mem_cons_of_mem _ member)) (if first then ok else false)
    rw [nx] at touched'
    refine ⟨done, t, ?_, tree'', touched.cons (Leaf.withRights_settled _ _) touched',
      ⟨nx'.trans nx, recorded'.trans recorded⟩, ?_⟩
    · rw [protectRangePages, Nat.mod_eq_of_lt (fits offset List.mem_cons_self)]
      exact (Lib.bind_of_ok called).trans looped
    · rw [had', List.forall_mem_cons, ← had]
      simp only [touched.small_iff]
      cases first <;> simp

/-- The arguments with which `paging_protect_range` comes to its loop. -/
def ProtectRangeEnters (virtAddr size : Nat) : Prop :=
  size ≠ 0 ∧ virtAddr + size < 2 ^ 64 ∧ size ≤ alignUp size pageSize4k

theorem pagingProtectRange_refused (refused : ¬ ProtectRangeEnters virtAddr size) :
    pagingProtectRange s root virtAddr size flags = .ok (false, s) := by
  have word : alignUp size pageSize4k < 2 ^ 64 := by
    rw [pageSize4k, alignUp_page]
    omega
  simp only [pagingProtectRange]
  split_ifs with empty wraps large
  · rfl
  · rfl
  · rfl
  · exact absurd ⟨empty, by omega, by omega⟩ refused

/-- What the call does past its checks. -/
theorem pagingProtectRange_enters (tree : TableTree s root) (enters : ProtectRangeEnters virtAddr size) (flags : Nat) :
    ∃ done t, pagingProtectRange s root virtAddr size flags = .ok (done, t) ∧ TableTree t root ∧
      Touched root (Leaf.withRights s.nxEnabled flags)
        ((strides 0 (alignUp size pageSize4k) pageSize4k).map (virtAddr + ·)) s t ∧
      t.info.rootPml4Phys = s.info.rootPml4Phys ∧
      (done = true ↔ ∀ offset ∈ strides 0 (alignUp size pageSize4k) pageSize4k,
        ∃ entry, s.leafAt root (virtAddr + offset) = some (.small entry)) := by
  obtain ⟨some', low, enough⟩ := enters
  obtain ⟨count, whole, -, tight⟩ := alignUp_whole enough
  have fits : ∀ offset ∈ strides 0 (alignUp size pageSize4k) pageSize4k, virtAddr + offset < 2 ^ 64 := by
    intro offset member
    rw [whole] at member
    obtain ⟨aligned, below⟩ := mem_strides_pages.mp member
    omega
  obtain ⟨done, t, looped, tree', touched, ⟨-, recorded⟩, had⟩ := protectRangePages_touched tree fits flags true
  rw [pagingProtectRange, if_neg some', if_neg (by omega)]
  grind

section

variable (enters : ProtectRangeEnters virtAddr size)
include enters

/-- The pages that the loop visits, for any alignment of the address. -/
theorem protectRange_visits (other : Nat) :
    (∃ page ∈ (strides 0 (alignUp size pageSize4k) pageSize4k).map (virtAddr + ·), pageNumber page = pageNumber other) ↔
      ∃ k < alignUp size pageSize4k / 4096, (virtAddr / 4096 + k) % 2 ^ 36 = pageNumber other := by
  obtain ⟨-, -, enough⟩ := enters
  obtain ⟨count, whole, -⟩ := alignUp_whole enough
  rw [whole, pageSize4k, strides_pages, Nat.mul_div_cancel count (by decide)]
  simp only [List.map_map, List.mem_map, List.mem_range, Function.comp_apply, exists_exists_and_eq_and, pageNumber]
  simp [Nat.add_mul_div_right]

/-- The page of every address of the range is visited, but for a last page that the offset of the
first one pushes out. -/
theorem protectRange_covers {v : Nat} (above : virtAddr ≤ v) (below : v < virtAddr + size) :
    (∃ k < alignUp size pageSize4k / 4096, (virtAddr / 4096 + k) % 2 ^ 36 = pageNumber v) ∨
      (alignUp size pageSize4k < virtAddr % 4096 + size ∧ alignUp size pageSize4k < 2 ^ 48 ∧
        pageNumber v = pageNumber (virtAddr + size - 1)) := by
  obtain ⟨-, low, enough⟩ := enters
  obtain ⟨count, whole, least, tight⟩ := alignUp_whole enough
  rw [whole, Nat.mul_div_cancel count (by decide)]
  simp only [pageNumber]
  by_cases inside : v / 4096 - virtAddr / 4096 < count
  · exact .inl ⟨v / 4096 - virtAddr / 4096, inside, by omega⟩
  · by_cases wide : 2 ^ 48 ≤ count * 4096
    · exact .inl ⟨count - 2 ^ 36, by omega, by omega⟩
    omega

/-- A last page that is pushed out is not visited. -/
theorem protectRange_misses (pushed : alignUp size pageSize4k < virtAddr % 4096 + size)
    (narrow : alignUp size pageSize4k < 2 ^ 48) :
    ¬ ∃ k < alignUp size pageSize4k / 4096, (virtAddr / 4096 + k) % 2 ^ 36 = pageNumber (virtAddr + size - 1) := by
  obtain ⟨-, low, enough⟩ := enters
  obtain ⟨count, whole, least, tight⟩ := alignUp_whole enough
  rintro ⟨k, below, same⟩
  simp only [pageNumber] at same
  omega

end

end Protect

/-- A successful `paging_protect_range` gives every page that meets its range the requested rights iff
the offset in the first page does not push a further page out of the loop, or that page has these
rights already; it never touches a page that does not meet the range. -/
theorem protect_range_covers_iff {boot : Boot} {s t : Paging} (reached : Reached boot s) {virtAddr size flags : Nat}
    (done : pagingProtectRange s s.info.rootPml4Phys virtAddr size flags = .ok (true, t)) :
    ((∀ v, virtAddr ≤ v → v < virtAddr + size → ∃ entry, s.leafAt s.info.rootPml4Phys v = some (.small entry) ∧
        t.leafAt s.info.rootPml4Phys v = some (.small (leafEntry s.nxEnabled entry flags))) ↔
      virtAddr % 4096 + size ≤ alignUp size pageSize4k ∨ 2 ^ 48 ≤ alignUp size pageSize4k ∨
        ∃ entry, s.leafAt s.info.rootPml4Phys (virtAddr + size - 1) = some (.small entry) ∧
          leafEntry s.nxEnabled entry flags = entry) ∧
    ∀ v, (∀ w, virtAddr ≤ w → w < virtAddr + size → pageNumber w ≠ pageNumber v) →
      t.leafAt s.info.rootPml4Phys v = s.leafAt s.info.rootPml4Phys v := by
  have tree := reached.space.tree
  have enters : ProtectRangeEnters virtAddr size := by
    grind [pagingProtectRange_refused]
  obtain ⟨ok, t', called, -, touched, -, had⟩ := pagingProtectRange_enters tree enters flags
  rw [done] at called
  cases called
  have had := had.mp rfl
  have visits := protectRange_visits enters
  have reset : ∀ v, (∃ k < alignUp size pageSize4k / 4096, (virtAddr / 4096 + k) % 2 ^ 36 = pageNumber v) →
      ∃ entry, s.leafAt s.info.rootPml4Phys v = some (.small entry) ∧
        t.leafAt s.info.rootPml4Phys v = some (.small (leafEntry s.nxEnabled entry flags)) := by
    intro v visited
    obtain ⟨page, member, same⟩ := (visits v).mpr visited
    obtain ⟨offset, member', rfl⟩ := List.mem_map.mp member
    obtain ⟨entry, small⟩ := had offset member'
    rw [s.leafAt_pageNumber _ same] at small
    refine ⟨entry, small, ?_⟩
    rw [touched v, if_pos ⟨_, member, same⟩, small, Leaf.withRights, Leaf.onSmall]
  have kept : ∀ v, (¬ ∃ k < alignUp size pageSize4k / 4096, (virtAddr / 4096 + k) % 2 ^ 36 = pageNumber v) →
      t.leafAt s.info.rootPml4Phys v = s.leafAt s.info.rootPml4Phys v := by
    intro v missed
    rw [touched v, if_neg (mt (visits v).mp missed)]
  refine ⟨⟨fun law => ?_, fun condition v above below => ?_⟩, fun v away => ?_⟩
  · by_contra neither
    rw [not_or, not_or, Nat.not_le, Nat.not_le] at neither
    obtain ⟨pushed, narrow, other⟩ := neither
    have some' := enters.1
    obtain ⟨entry, small, now⟩ := law (virtAddr + size - 1) (by omega) (by omega)
    rw [kept _ (protectRange_misses enters pushed narrow), small, Option.some.injEq, Leaf.small.injEq] at now
    grind
  · rcases protectRange_covers enters above below with visited | ⟨pushed, narrow, same⟩
    · exact reset v visited
    grind [protectRange_misses, Paging.leafAt_pageNumber]
  · refine kept v fun visited => ?_
    obtain ⟨page, member, same⟩ := (visits v).mpr visited
    obtain ⟨offset, member', rfl⟩ := List.mem_map.mp member
    obtain ⟨count, whole, -, tight⟩ := alignUp_whole enters.2.2
    rw [whole] at member'
    obtain ⟨aligned, small⟩ := mem_strides_pages.mp member'
    grind

theorem protect_range_covers_iff_tiny : ∃ s t, Reached tinyBoot s ∧
    pagingProtectRange s s.info.rootPml4Phys 0x400000 0x800 0 = .ok (true, t) ∧
    s.leafAt s.info.rootPml4Phys 0x400010 = some (.small 0x8000000000005003) ∧
    t.leafAt s.info.rootPml4Phys 0x400010 = some (.small 0x8000000000005001) := by
  obtain ⟨⟨answer, s⟩, taken, passed⟩ := Lib.exists_ok_of_test
    (show (pagingStep tinyPagingReady (.map 0x400000 0x5000 1)).toOption.any (fun next =>
      (pagingProtectRange next.2 next.2.info.rootPml4Phys 0x400000 0x800 0).toOption.any (fun last => last.1) = true ∧
        next.2.nxEnabled = true ∧
        next.2.leafAt next.2.info.rootPml4Phys 0x400010 = some (.small 0x8000000000005003)) = true by decide +kernel)
  obtain ⟨returns, nx, before⟩ := of_decide_eq_true passed
  dsimp only at returns nx before
  obtain ⟨⟨ok, t⟩, done, accepted⟩ := Lib.exists_ok_of_test returns
  cases accepted
  have reached := tinyPagingReady_reached.call taken
  obtain ⟨entry, small, now⟩ := (protect_range_covers_iff reached done).1.mpr (.inl (by decide)) 0x400010 (by decide) (by decide)
  rw [before, Option.some.injEq, Leaf.small.injEq] at small
  rw [← small, nx] at now
  exact ⟨s, t, reached, done, before, now⟩

/-- Two pages that may be written: a range that meets both is made read-only, and the second page
may still be written. -/
theorem protect_range_misses_last : ∃ s t, Reached tinyBoot s ∧
    pagingProtectRange s s.info.rootPml4Phys 0x400800 0x1000 0 = .ok (true, t) ∧
    t.leafAt s.info.rootPml4Phys 0x400000 = some (.small 0x8000000000005001) ∧
    s.leafAt s.info.rootPml4Phys 0x401000 = some (.small 0x8000000000006003) ∧
    t.leafAt s.info.rootPml4Phys 0x401000 = some (.small 0x8000000000006003) ∧
    0x8000000000006003 &&& pageWritable ≠ 0 := by
  obtain ⟨⟨answer, middle⟩, taken, passed⟩ := Lib.exists_ok_of_test
    (show (pagingStep tinyPagingReady (.map 0x400000 0x5000 1)).toOption.any (fun first =>
      (pagingStep first.2 (.map 0x401000 0x6000 1)).toOption.any (fun next =>
        next.2.leafAt next.2.info.rootPml4Phys 0x401000 = some (.small 0x8000000000006003) ∧
        (pagingProtectRange next.2 next.2.info.rootPml4Phys 0x400800 0x1000 0).toOption.any (fun last => last.1 = true ∧
          last.2.leafAt next.2.info.rootPml4Phys 0x400000 = some (.small 0x8000000000005001) ∧
          last.2.leafAt next.2.info.rootPml4Phys 0x401000 = some (.small 0x8000000000006003)) = true)) = true
      by decide +kernel)
  obtain ⟨⟨answer', s⟩, taken', passed'⟩ := Lib.exists_ok_of_test passed
  obtain ⟨before, protects⟩ := of_decide_eq_true passed'
  obtain ⟨⟨ok, t⟩, done, results⟩ := Lib.exists_ok_of_test protects
  obtain ⟨rfl, first, second⟩ := of_decide_eq_true results
  exact ⟨s, t, (tinyPagingReady_reached.call taken).call taken', done, first, before, second, by decide⟩

end Velox
