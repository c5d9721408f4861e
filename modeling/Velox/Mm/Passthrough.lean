import Velox.Mm.PagingSpace

namespace Velox

section Carry

variable {s t u : Paging} {root oldCr3Phys : Nat}

/-- The tables that the old root leads through are neither tables of the new one nor free frames. -/
def OldApart (s : Paging) (root oldCr3Phys : Nat) : Prop :=
  ∀ virtAddr, ∀ table ∈ translateReads s oldCr3Phys virtAddr, Outside root s table

/-- So it is while `paging_init` builds the new tables. -/
theorem Laid.oldApart {s₀ : Paging} (laid : Laid s₀ root s) (safe : OldTablesSafe s₀ oldCr3Phys) :
    OldApart s root oldCr3Phys := by
  intro virtAddr table member
  have same := (translate_congr fun table member => laid.kept table (safe virtAddr table member)).2
  rw [same] at member
  exact laid.outside (safe virtAddr table member)

/-- Both roots send an address to the same place, the old one as in `s` and the new one as in `t`. -/
def CarriedOver (s t : Paging) (root oldCr3Phys virtAddr : Nat) : Prop :=
  ∃ phys, translateWithCr3 s oldCr3Phys virtAddr = some phys ∧ translateWithCr3 t root virtAddr = some phys

/-- More is mapped under a root, and the frames outside of it are left alone. -/
structure Extends (root : Nat) (s t : Paging) : Prop where
  tree : TableTree t root
  outside : ∀ frame, Outside root s frame → t.tables frame = s.tables frame ∧ Outside root t frame
  kept : ∀ virtAddr phys, translateWithCr3 s root virtAddr = some phys → translateWithCr3 t root virtAddr = some phys

theorem Extends.refl (tree : TableTree s root) : Extends root s s :=
  ⟨tree, fun _ outside => ⟨rfl, outside⟩, fun _ _ found => found⟩

theorem Extends.trans (first : Extends root s t) (second : Extends root t u) : Extends root s u where
  tree := second.tree
  outside := by
    intro frame outside
    obtain ⟨same, outside'⟩ := first.outside frame outside
    obtain ⟨same', outside''⟩ := second.outside frame outside'
    grind
  kept := fun virtAddr phys found => second.kept virtAddr phys (first.kept virtAddr phys found)

theorem Extends.translate_old (more : Extends root s t) (apart : OldApart s root oldCr3Phys) (virtAddr : Nat) :
    translateWithCr3 t oldCr3Phys virtAddr = translateWithCr3 s oldCr3Phys virtAddr :=
  translateWithCr3_congr fun table member => (more.outside table (apart virtAddr table member)).1

variable {virtAddr phys : Nat} {fresh : Bool}

/-- One page of a window: it is mapped as the old root has it, or it was so before. -/
theorem ensurePageMapping_carries (tree : TableTree s root) (aligned : virtAddr % 4096 = 0)
    (found : translateWithCr3 s oldCr3Phys virtAddr = some phys)
    (done : ensurePageMapping s root virtAddr (alignDown phys pageSize4k) (pageWritable ||| pageGlobal) = .ok (fresh, t)) :
    Extends root s t ∧ ∀ offset < 4096, CarriedOver s t root oldCr3Phys (virtAddr + offset) := by
  have frame : alignDown phys pageSize4k = phys / 4096 * 4096 := by
    have small := translateWithCr3_lt found
    rw [pageSize4k, alignDown_page]
    omega
  unfold ensurePageMapping at done
  split at done
  · split at done
    · cases done
    rename_i same
    cases done
    refine ⟨.refl tree, fun offset inside => ⟨alignDown phys pageSize4k + offset, ?_, ?_⟩⟩
    · grind [translateWithCr3_page]
    · have again : alignDown (alignDown phys pageSize4k) pageSize4k = alignDown phys pageSize4k := by
        rw [frame, pageSize4k, alignDown_page]
        have small := translateWithCr3_lt found
        omega
      grind [translateWithCr3_page]
  · rename_i unmapped
    obtain ⟨next, mapped, done⟩ := Lib.bind_ok done
    cases done
    obtain ⟨tree', leaves, outside⟩ := mapPage4k_sets tree mapped
    refine ⟨⟨tree', outside, fun other place there => ?_⟩, fun offset inside => ⟨alignDown phys pageSize4k + offset, ?_, ?_⟩⟩
    · rw [translateWithCr3_eq_leaf tree] at unmapped there
      rw [translateWithCr3_eq_leaf tree', leaves]
      split
      · rename_i same
        rw [s.leafAt_pageNumber root same, Option.map_eq_none_iff.mp unmapped] at there
        cases there
      · exact there
    · grind [translateWithCr3_page]
    · have small := translateWithCr3_lt found
      have page : pageNumber (virtAddr + offset) = pageNumber virtAddr := by
        unfold pageNumber
        omega
      rw [translateWithCr3_eq_leaf tree', leaves, if_pos page, Option.map_some, Option.some.injEq]
      exact smallLeaf_address (by omega) (by omega) aligned inside (by decide)

/-- What the loop over the pages of a window does. -/
theorem mapRangeFromOldCr3_carries (tree : TableTree s root) (apart : OldApart s root oldCr3Phys) {first last pages : Nat}
    (done : mapRangeFromOldCr3 s root oldCr3Phys first last = .ok (pages, t)) :
    Extends root s t ∧ ∀ page ∈ strides (alignDown first pageSize4k) (alignUp last pageSize4k) pageSize4k,
      ∀ offset < 4096, CarriedOver s t root oldCr3Phys (page + offset) := by
  simp only [mapRangeFromOldCr3] at done
  refine Lib.foldlM_progress (fun passed (state : Nat × Paging) => Extends root s state.2 ∧
    ∀ page ∈ passed, ∀ offset < 4096, CarriedOver s state.2 root oldCr3Phys (page + offset)) ?_
    ⟨.refl tree, by simp⟩ done
  intro passed state page next member held stepped
  obtain ⟨more, carried⟩ := held
  split at stepped
  · cases stepped
  rename_i phys found
  obtain ⟨⟨fresh, mapped⟩, ensured, rest⟩ := Lib.bind_ok stepped
  cases rest
  have aligned : page % 4096 = 0 := by
    obtain ⟨k, place, -⟩ := mem_strides (by decide) member
    rw [pageSize4k, alignDown_page] at place
    omega
  obtain ⟨more', carried'⟩ := ensurePageMapping_carries more.tree aligned found ensured
  refine ⟨more.trans more', fun earlier member' offset inside => ?_⟩
  rcases List.mem_append.mp member' with before | here
  · obtain ⟨phys', old, new⟩ := carried earlier before offset inside
    exact ⟨phys', old, more'.kept _ _ new⟩
  · cases List.mem_singleton.mp here
    obtain ⟨phys', old, new⟩ := carried' offset inside
    exact ⟨phys', (more.translate_old apart _).symm.trans old, new⟩

end Carry

/-- A window that does not end in the last page of the address space is carried over; for one that
does, the rounded end wraps to 0 and nothing is mapped. What is mapped already is never changed. -/
theorem passthrough_carried_iff {s t : Paging} {root oldCr3Phys first last pages : Nat} (tree : TableTree s root)
    (apart : OldApart s root oldCr3Phys) (ordered : first < last) (word : last < 2 ^ 64)
    (done : mapRangeFromOldCr3 s root oldCr3Phys first last = .ok (pages, t)) :
    ((∀ virtAddr, first ≤ virtAddr → virtAddr < last → CarriedOver s t root oldCr3Phys virtAddr) ↔
      last ≤ 2 ^ 64 - 4096 ∨ ∀ virtAddr, first ≤ virtAddr → virtAddr < last → CarriedOver s s root oldCr3Phys virtAddr) ∧
    (∀ virtAddr phys, translateWithCr3 s root virtAddr = some phys → translateWithCr3 t root virtAddr = some phys) ∧
    ∀ virtAddr, translateWithCr3 t oldCr3Phys virtAddr = translateWithCr3 s oldCr3Phys virtAddr := by
  obtain ⟨more, carried⟩ := mapRangeFromOldCr3_carries tree apart done
  refine ⟨⟨fun law => ?_, fun condition => ?_⟩, more.kept, more.translate_old apart⟩
  · by_cases low : last ≤ 2 ^ 64 - 4096
    · exact .inl low
    · -- The rounded end is 0, so that the loop has no pages.
      have wrapped : alignUp last pageSize4k = 0 := by
        rw [pageSize4k, alignUp_page]
        omega
      have none' : strides (alignDown first pageSize4k) 0 pageSize4k = [] := by simp [strides, pageSize4k]
      simp only [mapRangeFromOldCr3, wrapped, none', List.foldlM_nil] at done
      cases done
      exact .inr law
  · rcases condition with low | already
    · intro virtAddr above below
      have inside : virtAddr / 4096 * 4096 ∈ strides (alignDown first pageSize4k) (alignUp last pageSize4k) pageSize4k := by
        rw [pageSize4k, alignDown_page, alignUp_page, strides]
        exact List.mem_map.mpr ⟨virtAddr / 4096 - first / 4096, List.mem_range.mpr (by omega), by omega⟩
      have place := carried _ inside (virtAddr % 4096) (Nat.mod_lt _ (by decide))
      grind
    · intro virtAddr above below
      obtain ⟨phys, old, new⟩ := already virtAddr above below
      exact ⟨phys, old, more.kept _ _ new⟩

theorem passthrough_carried_iff_tiny : ∃ s t root pages, TableTree s root ∧ OldApart s root 0x100000 ∧
    mapRangeFromOldCr3 s root 0x100000 0xffffffff80002010 0xffffffff80002fff = .ok (pages, t) ∧
    translateWithCr3 t root 0xffffffff80002800 = some 0x2800 := by
  obtain ⟨⟨root, s⟩, allocated, passed⟩ := Lib.exists_ok_of_test
    (show (allocTablePage tinyPaging).toOption.any (fun answer =>
      translateWithCr3 answer.2 0x100000 0xffffffff80002800 = some 0x2800 ∧
        (mapRangeFromOldCr3 answer.2 answer.1 0x100000 0xffffffff80002010 0xffffffff80002fff).toOption.isSome = true) = true
      by decide +kernel)
  obtain ⟨before, returns⟩ := of_decide_eq_true passed
  dsimp only at before returns
  obtain ⟨⟨pages, t⟩, done, -⟩ := Lib.exists_ok_of_test (Option.any_true ▸ returns)
  have laid := allocTablePage_laid (pmmInit_ready tinyPaging_atBoot.started.choose_spec) tinyPaging_atBoot.total allocated
  have tree : TableTree s root := laid.built.tree.congr rfl rfl
  have apart : OldApart s root 0x100000 := laid.oldApart tinyPaging_handedOver.oldTables
  have law := (passthrough_carried_iff tree apart (by decide) (by decide) done).1.mpr (.inl (by decide))
  obtain ⟨phys, old, new⟩ := law 0xffffffff80002800 (by decide) (by decide)
  grind

/-- The smallest machine with its stack in the last page of the address space. -/
def topBoot : Boot := { tinyBoot with rsp := 0xfffffffffffff800 }

def topPaging : Paging := { tinyPaging with tables := topTables }

/-- The window around such a stack is not carried over, and `paging_init` returns with a root under
which the stack is not mapped. -/
theorem passthrough_drops_last_page :
    (∃ s t root, TableTree s root ∧ OldApart s root 0x100000 ∧
      mapRangeFromOldCr3 s root 0x100000 (0xfffffffffffff800 - stackProtectWindowBytes) (2 ^ 64 - 1) = .ok (0, t) ∧
      translateWithCr3 s 0x100000 0xfffffffffffff800 = some 0x3ffff800 ∧
      translateWithCr3 t root 0xfffffffffffff800 = none) ∧
    ∃ ready, pagingInit topBoot topPaging = .ok ready ∧
      translateWithCr3 topPaging topPaging.cr3 topBoot.rsp.toNat = some 0x3ffff800 ∧
      translateWithCr3 ready ready.cr3 topBoot.rsp.toNat = none := by
  constructor
  · obtain ⟨⟨root, s⟩, allocated, passed⟩ := Lib.exists_ok_of_test
      (show (allocTablePage topPaging).toOption.any (fun answer =>
        translateWithCr3 answer.2 0x100000 0xfffffffffffff800 = some 0x3ffff800 ∧
          (mapRangeFromOldCr3 answer.2 answer.1 0x100000 (0xfffffffffffff800 - stackProtectWindowBytes)
            (2 ^ 64 - 1)).toOption.any (fun last => last.1 = 0 ∧
              translateWithCr3 last.2 answer.1 0xfffffffffffff800 = none) = true) = true by decide +kernel)
    obtain ⟨before, returns⟩ := of_decide_eq_true passed
    obtain ⟨⟨pages, t⟩, done, after⟩ := Lib.exists_ok_of_test returns
    obtain ⟨rfl, dropped⟩ := of_decide_eq_true after
    have pmm : topPaging.pmm = tinyPaging.pmm := rfl
    have laid := allocTablePage_laid (by rw [pmm]; exact pmmInit_ready tinyPaging_atBoot.started.choose_spec)
      (by rw [pmm]; exact tinyPaging_atBoot.total) allocated
    have safe : OldTablesSafe topPaging (topPaging.cr3 &&& entryAddrMask4k) := by
      refine oldTables_safe rfl (fun index => ?_) (fun index => ?_) (by decide +kernel)
      · by_cases linked : index = 0 ∨ index = 511 <;> simp [topPaging, topTables, linked]
      · by_cases huge : index = 0 ∨ index = 510 ∨ index = 511 <;> simp [topPaging, topTables, huge, pagePs]
    exact ⟨s, t, root, laid.built.tree.congr rfl rfl, laid.oldApart safe, done, before, dropped⟩
  · obtain ⟨ready, started, after⟩ := Lib.exists_ok_of_test
      (show (pagingInit topBoot topPaging).toOption.any (fun ready =>
        translateWithCr3 ready ready.cr3 topBoot.rsp.toNat = none) = true by decide +kernel)
    exact ⟨ready, started, by decide +kernel, of_decide_eq_true after⟩

end Velox
