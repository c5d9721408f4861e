import Velox.Mm.PagingStorage

namespace Velox

variable {s t : Paging} {root virtAddr physAddr : Nat}

/-- The table pages that `translate_with_cr3` reads. -/
def translateReads (s : Paging) (rootCr3Phys virtAddr : Nat) : List Nat :=
  let pml4 := rootCr3Phys &&& entryAddrMask4k
  let pml4e := s.tables pml4 (pml4Index virtAddr)
  let pdpt := pml4e &&& entryAddrMask4k
  let pdpte := s.tables pdpt (pdptIndex virtAddr)
  let pd := pdpte &&& entryAddrMask4k
  let pde := s.tables pd (pdIndex virtAddr)
  if (pml4e &&& pagePresent) = 0 then [pml4]
  else if (pdpte &&& pagePresent) = 0 ∨ pdpte &&& pagePs ≠ 0 then [pml4, pdpt]
  else if (pde &&& pagePresent) = 0 ∨ pde &&& pagePs ≠ 0 then [pml4, pdpt, pd]
  else [pml4, pdpt, pd, pde &&& entryAddrMask4k]

section

variable (agree : ∀ table ∈ translateReads s root virtAddr, t.tables table = s.tables table)
include agree

/-- A translation only depends on the tables it reads. -/
theorem translate_congr :
    translateWithCr3 t root virtAddr = translateWithCr3 s root virtAddr ∧
      translateReads t root virtAddr = translateReads s root virtAddr := by
  unfold translateReads at agree ⊢
  unfold translateWithCr3
  have first : t.tables (root &&& entryAddrMask4k) = s.tables (root &&& entryAddrMask4k) := by
    grind
  rw [first]
  by_cases present4 : s.tables (root &&& entryAddrMask4k) (pml4Index virtAddr) &&& pagePresent = 0
  · grind
  generalize s.tables (root &&& entryAddrMask4k) (pml4Index virtAddr) &&& entryAddrMask4k = pdpt at agree ⊢
  by_cases present3 : s.tables pdpt (pdptIndex virtAddr) &&& pagePresent = 0
  · grind
  grind

theorem translateWithCr3_congr :
    translateWithCr3 t root virtAddr = translateWithCr3 s root virtAddr := (translate_congr agree).1

end

theorem mask1g_aligned (entry : Nat) :
    (entry &&& entryAddrMask1g) % 2 ^ 30 = 0 ∧ entry &&& entryAddrMask1g < 2 ^ 52 := by
  have block := Lib.and_block entry (show 30 ≤ 52 by decide)
  have mask : entryAddrMask1g = 2 ^ 52 - 2 ^ 30 := by decide
  rw [mask, block]
  omega

/-- An address field and a page offset, for pages of 4 KiB, 2 MiB and 1 GiB. -/
private theorem field_offset {offset : Nat} (size : n = 12 ∨ n = 21 ∨ n = 30)
    (field0 : field % 2 ^ n = 0) (small : field < 2 ^ 52) (aligned : page % 4096 = 0)
    (inside : offset < 4096) :
    field ||| (page + offset) &&& (2 ^ n - 1) = alignDown (field ||| page &&& (2 ^ n - 1)) pageSize4k + offset := by
  have low : ∀ x, x &&& (2 ^ n - 1) = x % 2 ^ n := fun x => Nat.and_two_pow_sub_one_eq_mod x n
  rw [low, low, Lib.or_eq_add_of_lt field0 (Nat.mod_lt _ (Nat.two_pow_pos n)),
    Lib.or_eq_add_of_lt field0 (Nat.mod_lt _ (Nat.two_pow_pos n)), pageSize4k, alignDown_page]
  rcases size with rfl | rfl | rfl <;> omega

/-- The physical address of the first byte of a page determines those of the others. -/
theorem translateWithCr3_page (s : Paging) (root : Nat) {offset : Nat} (aligned : page % 4096 = 0)
    (inside : offset < 4096) :
    translateWithCr3 s root (page + offset) =
      (translateWithCr3 s root page).map fun phys => alignDown phys pageSize4k + offset := by
  have same : pageNumber (page + offset) = pageNumber page := by
    unfold pageNumber
    omega
  obtain ⟨l4, l3, l2, l1⟩ := (pageNumber_eq_iff _ _).mp same
  unfold translateWithCr3
  rw [l4, l3, l2, l1]
  dsimp only
  split
  · rfl
  split
  · rfl
  split
  · exact congrArg some (field_offset (.inr (.inr rfl)) (mask1g_aligned _).1 (mask1g_aligned _).2 aligned inside)
  split
  · rfl
  split
  · exact congrArg some (field_offset (.inr (.inl rfl)) (mask2m_aligned _).1 (mask2m_aligned _).2 aligned inside)
  split
  · rfl
  · exact congrArg some (field_offset (.inl rfl) (mask4k_aligned _).1 (mask4k_aligned _).2 aligned inside)

/-- A frame that the allocator cannot hand out. -/
def Pmm.Taken (s : Pmm) (frame : Nat) : Prop :=
  s.bitTest (frame / 4096) = true ∨ s.info.totalPages ≤ frame / 4096

instance Pmm.decidableTaken (s : Pmm) (frame : Nat) : Decidable (s.Taken frame) :=
  inferInstanceAs (Decidable (s.bitTest (frame / 4096) = true ∨ s.info.totalPages ≤ frame / 4096))

/-- A frame that neither is a table of a root nor can become one. -/
def Outside (root : Nat) (s : Paging) (frame : Nat) : Prop :=
  s.pmm.Taken frame ∧ ∀ path, path.length ≤ 3 → s.tableAt root path ≠ some frame

section Outside

variable {path : List (Fin 512)} {index : Fin 512} {parent table frame : Nat}

theorem Grown.outside (grown : Grown root s t) (outside : Outside root s frame) : Outside root t frame := by
  obtain ⟨taken, apart⟩ := outside
  refine ⟨?_, fun path short reached => ?_⟩
  · rcases taken with used | above
    · exact .inl (grown.used _ used)
    · exact .inr (grown.total.trans_le above)
  · rcases grown.origin path frame short reached with earlier | fresh
    · grind
    · have below := (grown.tree.placed path frame short reached).2.1
      rw [grown.total] at below
      rcases taken with used | above
      · grind
      · omega

/-- Writing into a table of the root leaves other frames alone. -/
theorem Outside.setEntry (outside : Outside root s frame) (short : path.length ≤ 3)
    (reached : s.tableAt root path = some table) (index : Fin 512) (entry : Nat) :
    (s.setEntry table index entry).tables frame = s.tables frame := by
  have apart : frame ≠ table := by
    rintro rfl
    exact outside.2 path short reached
  funext place
  exact Lib.writeEntry_elsewhere s.tables entry (.inl apart)

theorem getOrCreateTable_outside (tree : TableTree s root) (short : path.length ≤ 2)
    (reached : s.tableAt root path = some parent)
    (done : getOrCreateTable s parent index user = .ok (table, t))
    (outside : Outside root s frame) : t.tables frame = s.tables frame := by
  rcases getOrCreateTable_cases tree short reached done with ⟨-, -, -, ⟨rfl, -⟩ | ⟨-, rfl⟩⟩ | ⟨graft, -⟩
  · rfl
  · grind [Outside.setEntry]
  · obtain ⟨parent', reached', tables⟩ := graft.tables
    have got := graft.allocated
    have apart : frame ≠ parent' := by
      rintro rfl
      exact outside.2 path (by omega) reached'
    have old : frame ≠ table := by
      have below := got.below
      rcases outside.1 with used | above
      · grind [Allocated.clear]
      · omega
    rw [tables]
    funext place
    rw [Lib.writeEntry_elsewhere _ _ (.inl apart), Function.update_of_ne old]

/-- What mapping a page does: its leaf is set, and frames outside of the tree are left alone. -/
theorem mapPage4k_sets (tree : TableTree s root)
    (done : mapPage4k s root virtAddr physAddr flags = .ok t) :
    TableTree t root ∧
    (∀ other, t.leafAt root other = if pageNumber other = pageNumber virtAddr then
        some (.small (physAddr &&& entryAddrMask4k ||| flags ||| pagePresent))
      else s.leafAt root other) ∧
    ∀ frame, Outside root s frame → t.tables frame = s.tables frame ∧ Outside root t frame := by
  obtain ⟨-, -, pdpt, s₁, pd, s₂, pt, s₃, first, second, third, rfl⟩ := mapPage4k_ok done
  have start : s.tableAt root [] = some root := rfl
  obtain ⟨grown₁, reached₁, -⟩ := getOrCreateTable_grown tree (by simp) start first
  obtain ⟨grown₂, reached₂, -⟩ := getOrCreateTable_grown grown₁.tree (by simp) reached₁ second
  obtain ⟨grown₃, reached₃, -⟩ := getOrCreateTable_grown grown₂.tree (by simp) reached₂ third
  refine ⟨grown₃.tree.setLeaf reached₃ (.inr (smallEntry_present _ _)), fun other => ?_, fun frame outside => ?_⟩
  · rw [grown₃.tree.leafAt_setLeaf reached₃, if_pos (smallEntry_present _ _), grown₃.leaves, grown₂.leaves, grown₁.leaves]
  · have outside₁ := grown₁.outside outside
    have outside₂ := grown₂.outside outside₁
    have outside₃ := grown₃.outside outside₂
    refine ⟨?_, outside₃.1, fun path short reached => outside₃.2 path short ?_⟩
    · rw [outside₃.setEntry (by simp) reached₃, getOrCreateTable_outside grown₂.tree (by simp) reached₂ third outside₂,
        getOrCreateTable_outside grown₁.tree (by simp) reached₁ second outside₁,
        getOrCreateTable_outside tree (by simp) start first outside]
    · rwa [grown₃.tree.tableAt_setLeaf reached₃ _ short] at reached

end Outside

/-- The tables of a root, built in frames that were free, with all other frames as they were. -/
structure Laid (s₀ : Paging) (root : Nat) (s : Paging) : Prop where
  built : Built s₀.pmm root s
  kept : ∀ table, s₀.pmm.Taken table → s.tables table = s₀.tables table

section Laid

variable {s₀ : Paging} {path : List (Fin 512)} {index : Fin 512} {parent table : Nat}

section

variable (laid : Laid s₀ root s)
include laid

theorem Laid.congr (pmm : t.pmm = s.pmm) (tables : t.tables = s.tables)
    (recorded : t.info.rootPml4Phys = s.info.rootPml4Phys) : Laid s₀ root t :=
  ⟨laid.built.congr pmm tables recorded, tables ▸ laid.kept⟩

/-- The tables of the tree stand in frames that were free. -/
theorem Laid.outside (taken : s₀.pmm.Taken table) : Outside root s table := by
  refine ⟨?_, fun path short reached => ?_⟩
  · rcases taken with used | above
    · exact .inl (laid.built.used _ used)
    · exact .inr (laid.built.total.trans_le above)
  · have free := laid.built.origin path table short reached
    have below := (laid.built.tree.placed path table short reached).2.1
    rw [laid.built.total] at below
    rcases taken with used | above
    · grind
    · omega

theorem Laid.getOrCreate (short : path.length ≤ 2) (reached : s.tableAt root path = some parent)
    (done : getOrCreateTable s parent index false = .ok (table, t)) :
    Laid s₀ root t ∧ t.tableAt root (path ++ [index]) = some table ∧
      ∀ virtAddr, t.leafAt root virtAddr = s.leafAt root virtAddr := by
  have tree := laid.built.tree
  obtain ⟨grown, below, -⟩ := getOrCreateTable_grown tree short reached done
  refine ⟨⟨laid.built.grow grown, fun other taken => ?_⟩, below, grown.leaves⟩
  rw [getOrCreateTable_outside tree short reached done (laid.outside taken), laid.kept other taken]

theorem mapPage4k_laid (done : mapPage4k s root virtAddr physAddr flags = .ok t) :
    Laid s₀ root t ∧ ∀ other, t.leafAt root other = if pageNumber other = pageNumber virtAddr then
        some (.small (physAddr &&& entryAddrMask4k ||| flags ||| pagePresent))
      else s.leafAt root other := by
  obtain ⟨-, leaves, frames⟩ := mapPage4k_sets laid.built.tree done
  refine ⟨⟨mapPage4k_built laid.built done, fun other taken => ?_⟩, leaves⟩
  rw [(frames other (laid.outside taken)).1, laid.kept other taken]

end

/-- A huge entry is the leaf of the addresses of its block. -/
theorem TableTree.leafAt_setHuge (tree : TableTree s root) {entry : Nat}
    (reached : s.tableAt root [pml4Index virtAddr, pdptIndex virtAddr] = some pd)
    (present : entry &&& pagePresent ≠ 0) (huge : entry &&& pagePs ≠ 0) (other : Nat) :
    (s.setEntry pd (pdIndex virtAddr) entry).leafAt root other =
      if walkPath other = walkPath virtAddr then some (.huge entry) else s.leafAt root other := by
  have leaf := tableChild_of_huge huge
  have entries : ∀ (path : List (Fin 512)) place, path.length ≤ 3 →
      (s.setEntry pd (pdIndex virtAddr) entry).entryAt root path place =
        if path = [pml4Index virtAddr, pdptIndex virtAddr] ∧ place = pdIndex virtAddr then some entry
        else if [pml4Index virtAddr, pdptIndex virtAddr] ++ [pdIndex virtAddr] <+: path then none
        else s.entryAt root path place :=
    fun path place bounded => Lib.entryAt_writeEntry_prune tree.unshared reached (by simp) leaf bounded
  split
  · rename_i same
    have last := entries (walkPath other) (ptIndex other) (by simp [walkPath])
    simp only [walkPath, List.cons.injEq, and_true] at same
    have directory := entries [pml4Index other, pdptIndex other] (pdIndex other) (by simp)
    simp only [Paging.leafAt, directory]
    grind
  · rename_i different
    apply Paging.leafAt_congr_off (show [pml4Index virtAddr, pdptIndex virtAddr].length ≤ 2 by simp)
      (fun through => different (through.eq_of_length (by simp [walkPath])).symm)
    grind

theorem mapPage2m_laid (laid : Laid s₀ root s)
    (done : mapPage2m s root virtAddr physAddr (pageWritable ||| pageGlobal) = .ok t) :
    Laid s₀ root t ∧ ∀ other, t.leafAt root other =
      if walkPath other = walkPath virtAddr then some (.huge (hugeEntry physAddr)) else s.leafAt root other := by
  have built := mapPage2m_built laid.built done
  obtain ⟨-, -, pdpt, s₁, pd, s₂, first, second, rfl⟩ := mapPage2m_ok done
  have start : s.tableAt root [] = some root := rfl
  obtain ⟨laid₁, reached₁, leaves₁⟩ := laid.getOrCreate (by simp) start first
  obtain ⟨laid₂, reached₂, leaves₂⟩ := laid₁.getOrCreate (by simp) reached₁ second
  obtain ⟨present, -, huge⟩ := hugeEntry_bits physAddr
  refine ⟨⟨built, fun other taken => ?_⟩, fun other => ?_⟩
  · rw [(laid₂.outside taken).setEntry (by simp) reached₂, laid₂.kept other taken]
  · rw [laid₂.built.tree.leafAt_setHuge reached₂ present huge, leaves₂, leaves₁]

/-- A page that is mapped already is left alone. -/
theorem ensurePageMapping_laid (laid : Laid s₀ root s)
    (done : ensurePageMapping s root virtAddr physAddr flags = .ok (fresh, t)) :
    Laid s₀ root t ∧ ∀ other leaf, s.leafAt root other = some leaf → t.leafAt root other = some leaf := by
  obtain rfl | ⟨unmapped, first⟩ := ensurePageMapping_cases done
  · exact ⟨laid, fun _ _ found => found⟩
  · rw [translateWithCr3_eq_leaf laid.built.tree, Option.map_eq_none_iff] at unmapped
    obtain ⟨laid', leaves⟩ := mapPage4k_laid laid first
    refine ⟨laid', ?_⟩
    intro other leaf found
    rw [leaves, if_neg, found]
    intro same
    rw [← Paging.leafAt_page, virtPage_eq_iff.mpr same, Paging.leafAt_page, unmapped] at found
    cases found

end Laid

/-- The tables of a root send a virtual address to a physical one. -/
def Paging.Sends (s : Paging) (root virtAddr physAddr : Nat) : Prop :=
  ∃ leaf, s.leafAt root virtAddr = some leaf ∧ leaf.address virtAddr = physAddr

theorem Paging.Sends.congr (sends : s.Sends root virtAddr physAddr)
    (same : t.leafAt root virtAddr = s.leafAt root virtAddr) : t.Sends root virtAddr physAddr := by
  obtain ⟨leaf, found, address⟩ := sends
  exact ⟨leaf, same.trans found, address⟩

theorem TableTree.translate_of_sends (tree : TableTree s root) (sends : s.Sends root virtAddr physAddr) :
    translateWithCr3 s root virtAddr = some physAddr := by
  obtain ⟨leaf, found, rfl⟩ := sends
  rw [translateWithCr3_eq_leaf tree, found]
  rfl

section Leaves

/-- Canonical addresses with one page number lie in one page. -/
theorem page_of_pageNumber (canonical : Canonical v) (canonical' : Canonical w) (low : v < 2 ^ 64)
    (low' : w < 2 ^ 64) (same : pageNumber v = pageNumber w) : v / 4096 = w / 4096 := by
  unfold pageNumber at same
  unfold Canonical at canonical canonical'
  omega

/-- The address that a small page gives to its bytes. -/
theorem smallLeaf_address {offset : Nat} (aligned : phys % 4096 = 0) (small : phys < 2 ^ 52)
    (page0 : page % 4096 = 0) (inside : offset < 4096) (outside : flags &&& entryAddrMask4k = 0) :
    (Leaf.small (phys &&& entryAddrMask4k ||| flags ||| pagePresent)).address (page + offset) = phys + offset := by
  have fixed := mask4k_of_aligned aligned small
  have field : (phys &&& entryAddrMask4k ||| flags ||| pagePresent) &&& entryAddrMask4k = phys := by
    rw [fixed, Nat.or_assoc]
    exact or_flags_mask fixed ((Lib.or_and_eq_zero _ _ _).mpr ⟨outside, by decide⟩)
  have low : (page + offset) &&& (pageSize4k - 1) = (page + offset) % 2 ^ 12 := Nat.and_two_pow_sub_one_eq_mod _ 12
  rw [Leaf.address, field, low, Lib.or_eq_add_of_lt aligned (Nat.mod_lt _ (by decide))]
  omega

theorem mask2m_of_aligned {address : Nat} (aligned : address % 2 ^ 21 = 0) (small : address < 2 ^ 52) :
    address &&& entryAddrMask2m = address := by
  have block := Lib.and_block address (show 21 ≤ 52 by decide)
  have mask : entryAddrMask2m = 2 ^ 52 - 2 ^ 21 := by decide
  rw [mask, block]
  omega

/-- The address that a 2 MiB page gives to its bytes. -/
theorem hugeLeaf_address {block offset : Nat} (aligned : phys % 2 ^ 21 = 0)
    (small : phys < 2 ^ 52) (block0 : block % 2 ^ 21 = 0) (inside : offset < 2 ^ 21) :
    (Leaf.huge (hugeEntry phys)).address (block + offset) = phys + offset := by
  have fixed := mask2m_of_aligned aligned small
  have field : hugeEntry phys &&& entryAddrMask2m = phys := by
    rw [hugeEntry, fixed, Nat.and_or_distrib_right, Nat.and_or_distrib_right, Nat.and_or_distrib_right, fixed]
    rw [show (pageWritable ||| pageGlobal) &&& entryAddrMask2m = 0 by decide,
      show pagePresent &&& entryAddrMask2m = 0 by decide, show pagePs &&& entryAddrMask2m = 0 by decide]
    simp only [Nat.or_zero]
  have low : (block + offset) &&& (pageSize2m - 1) = (block + offset) % 2 ^ 21 := Nat.and_two_pow_sub_one_eq_mod _ 21
  rw [Leaf.address, field, low, Lib.or_eq_add_of_lt aligned (Nat.mod_lt _ (by decide))]
  omega

end Leaves

section Passes

variable {s₀ : Paging} {boot : Boot} {oldCr3Phys span : Nat}

/-- The tables that the old root leads through are in no frame that can be handed out. -/
def OldTablesSafe (s₀ : Paging) (oldCr3Phys : Nat) : Prop :=
  ∀ virtAddr, ∀ table ∈ translateReads s₀ oldCr3Phys virtAddr, s₀.pmm.Taken table

theorem Laid.translate_old (laid : Laid s₀ root s) (safe : OldTablesSafe s₀ oldCr3Phys) (virtAddr : Nat) :
    translateWithCr3 s oldCr3Phys virtAddr = translateWithCr3 s₀ oldCr3Phys virtAddr :=
  translateWithCr3_congr fun table member => laid.kept table (safe virtAddr table member)

theorem translateWithCr3_lt {root : Nat} (found : translateWithCr3 s root virtAddr = some phys) : phys < 2 ^ 52 := by
  have part : ∀ {n x : Nat}, n ≤ 30 → x &&& (2 ^ n - 1) < 2 ^ 52 := by
    intro n x small
    have below := Nat.and_two_pow_sub_one_eq_mod x n
    rw [below]
    exact lt_of_lt_of_le (Nat.mod_lt _ (Nat.two_pow_pos n)) (Nat.pow_le_pow_right (by decide) (by omega))
  unfold translateWithCr3 at found
  dsimp only at found
  split at found
  · cases found
  split at found
  · cases found
  split at found
  · cases found
    exact Nat.or_lt_two_pow (mask1g_aligned _).2 (@part 30 _ (by decide))
  split at found
  · cases found
  split at found
  · cases found
    exact Nat.or_lt_two_pow (mask2m_aligned _).2 (@part 21 _ (by decide))
  split at found
  · cases found
  · cases found
    exact Nat.or_lt_two_pow (mask4k_aligned _).2 (@part 12 _ (by decide))

/-- The kernel's image keeps its physical addresses. -/
def ImageKept (s₀ : Paging) (boot : Boot) (oldCr3Phys root : Nat) (s : Paging) : Prop :=
  ∀ virt, boot.KernelPage virt → ∃ phys, translateWithCr3 s₀ oldCr3Phys virt = some phys ∧ s.Sends root virt phys

/-- One page of the kernel's image, and the pages before it. -/
theorem kernelPage_laid (safe : OldTablesSafe s₀ oldCr3Phys) (laid : Laid s₀ root s)
    (found : translateWithCr3 s oldCr3Phys virtAddr = some phys)
    (done : mapPage4k s root virtAddr (alignDown phys pageSize4k) (pageWritable ||| pageGlobal) = .ok t) :
    Laid s₀ root t ∧ (∀ other, pageNumber other ≠ pageNumber virtAddr → t.leafAt root other = s.leafAt root other) ∧
      ∀ offset < 4096, ∃ phys, translateWithCr3 s₀ oldCr3Phys (virtAddr + offset) = some phys ∧
        t.Sends root (virtAddr + offset) phys := by
  obtain ⟨laid', leaves⟩ := mapPage4k_laid laid done
  obtain ⟨aligned, -⟩ := mapPage4k_ok done
  refine ⟨laid', fun other different => by grind, ?_⟩
  intro offset inside
  have page : pageNumber (virtAddr + offset) = pageNumber virtAddr := by
    unfold pageNumber
    omega
  have small := translateWithCr3_lt found
  have frame : alignDown phys pageSize4k = phys / 4096 * 4096 := by
    rw [pageSize4k, alignDown_page]
    omega
  rw [laid.translate_old safe] at found
  refine ⟨alignDown phys pageSize4k + offset, by grind [translateWithCr3_page], ?_⟩
  refine ⟨_, by rw [leaves, if_pos page], ?_⟩
  exact smallLeaf_address (by omega) (by omega) aligned inside (by decide)

/-- A range of canonical addresses is at most half of the address space long. -/
theorem canonical_range {first last : Nat} (high : last ≤ 2 ^ 64)
    (canonical : ∀ address, first ≤ address → address < last → Canonical address) : last ≤ first + 2 ^ 47 := by
  by_contra long
  have start := canonical first le_rfl (by omega)
  have middle := canonical (max first (2 ^ 47)) (le_max_left _ _) (by omega)
  unfold Canonical at start middle
  omega

theorem Boot.WindowApart.size (apart : boot.WindowApart span) : span ≤ 2 ^ 47 := by
  have bound := @canonical_range boot.hhdmOffset.toNat _ apart.noWrap fun address above below => by
    have here := apart.window (address - boot.hhdmOffset.toNat) (by omega)
    grind
  omega

theorem mapKernelRange_laid (safe : OldTablesSafe s₀ oldCr3Phys) (image : ∀ virt, boot.KernelPage virt → Canonical virt)
    (laid : Laid s₀ root s) {pages : Nat} (done : mapKernelRangeFromOldCr3 boot s root oldCr3Phys = .ok (pages, t)) :
    Laid s₀ root t ∧ ImageKept s₀ boot oldCr3Phys root t := by
  have last := boot.kernelVirtualEnd.toNat_lt
  have size := canonical_range last.le fun virt above below => image virt ⟨above, below⟩
  simp only [mapKernelRangeFromOldCr3] at done
  split at done
  · cases done
  obtain ⟨final, loop, done⟩ := Lib.bind_ok done
  cases done
  -- after some pages, those passed translate as before
  have passed := Lib.foldlM_progress (fun passed state => Laid s₀ root state ∧
    ∀ page ∈ passed, boot.KernelPage (boot.kernelVirtualStart.toNat + page * 4096) ∧ ∀ offset < 4096,
      ∃ phys, translateWithCr3 s₀ oldCr3Phys (boot.kernelVirtualStart.toNat + page * 4096 + offset) = some phys ∧
        state.Sends root (boot.kernelVirtualStart.toNat + page * 4096 + offset) phys) ?_ ⟨laid, by simp⟩ loop
  · refine ⟨passed.1, ?_⟩
    intro virt kernel
    have inside : (virt - boot.kernelVirtualStart.toNat) / 4096 ∈ List.range
        (alignUp (boot.kernelVirtualEnd.toNat - boot.kernelVirtualStart.toNat) pageSize4k / pageSize4k) := by
      unfold Boot.KernelPage at kernel
      rw [List.mem_range, pageSize4k, alignUp_page]
      omega
    have place := (passed.2 _ inside).2 ((virt - boot.kernelVirtualStart.toNat) % 4096) (Nat.mod_lt _ (by decide))
    have first := kernel.1
    grind
  · intro passed state page next member held stepped
    obtain ⟨place, inside⟩ := kernelPage_of_range member
    split at stepped
    · cases stepped
    rename_i phys found
    obtain ⟨laid', others, mapped⟩ := kernelPage_laid safe held.1 found stepped
    refine ⟨laid', ?_⟩
    intro earlier member'
    rw [List.mem_append, List.mem_singleton] at member'
    by_cases same : earlier = page
    · grind
    · obtain ⟨inside', before⟩ := held.2 earlier (member'.resolve_right same)
      refine ⟨inside', ?_⟩
      intro offset small
      obtain ⟨phys', old, sends⟩ := before offset small
      refine ⟨phys', old, sends.congr (others _ ?_)⟩
      intro equal
      have aligned := (mapPage4k_ok stepped).1
      have here := page_of_pageNumber (image _ inside) (image _ inside') (by omega)
        (by unfold Boot.KernelPage at inside'; omega) (by unfold pageNumber at equal ⊢; omega)
      omega

/-- The direct map sends a byte to its place. -/
def Direct (boot : Boot) (root : Nat) (s : Paging) (x : Nat) : Prop := s.Sends root (boot.hhdmOffset.toNat + x) x

/-- What mapping one page of the direct map does. -/
structure DirectPage (s₀ : Paging) (boot : Boot) (root size phys : Nat) (s t : Paging) : Prop where
  laid : Laid s₀ root t
  aligned : (boot.hhdmOffset.toNat + phys) % size = 0
  elsewhere : ∀ virt, Canonical virt → virt < 2 ^ 64 → virt / size ≠ (boot.hhdmOffset.toNat + phys) / size →
    t.leafAt root virt = s.leafAt root virt
  direct : ∀ offset < size, Direct boot root t (phys + offset)

section

variable (laid : Laid s₀ root s) (canonical : Canonical (boot.hhdmOffset.toNat + phys))
  (low : boot.hhdmOffset.toNat + phys < 2 ^ 64) (small : phys < 2 ^ 52)
include laid canonical low small

theorem mapPage2m_direct
    (done : mapPage2m s root (boot.hhdmOffset.toNat + phys) phys (pageWritable ||| pageGlobal) = .ok t) :
    DirectPage s₀ boot root (2 ^ 21) phys s t := by
  obtain ⟨laid', leaves⟩ := mapPage2m_laid laid done
  obtain ⟨aligned, frame, -⟩ := mapPage2m_ok done
  refine ⟨laid', aligned, ?_, ?_⟩
  · intro virt here below different
    rw [leaves, if_neg]
    grind [block_of_walkPath]
  · intro offset inside
    have block : walkPath (boot.hhdmOffset.toNat + (phys + offset)) = walkPath (boot.hhdmOffset.toNat + phys) := by
      simp only [walkPath, List.cons.injEq, and_true, Fin.ext_iff, pml4Index, pdptIndex, pdIndex, tableIndex_val]
      omega
    refine ⟨_, by rw [leaves, if_pos block], ?_⟩
    rw [← Nat.add_assoc]
    exact hugeLeaf_address frame small aligned inside

theorem mapPage4k_direct
    (done : mapPage4k s root (boot.hhdmOffset.toNat + phys) phys (pageWritable ||| pageGlobal) = .ok t) :
    DirectPage s₀ boot root 4096 phys s t := by
  obtain ⟨laid', leaves⟩ := mapPage4k_laid laid done
  obtain ⟨aligned, frame, -⟩ := mapPage4k_ok done
  refine ⟨laid', aligned, ?_, ?_⟩
  · intro virt here below different
    rw [leaves, if_neg]
    grind [page_of_pageNumber]
  · intro offset inside
    have page : pageNumber (boot.hhdmOffset.toNat + (phys + offset)) = pageNumber (boot.hhdmOffset.toNat + phys) := by
      unfold pageNumber
      omega
    refine ⟨_, by rw [leaves, if_pos page], ?_⟩
    rw [← Nat.add_assoc]
    exact smallLeaf_address frame small aligned inside (by decide)

end

/-- A pass over the pages of one size, in a part of the window. -/
theorem directPass {first size : Nat} {body : Paging → Nat → Except Panic Paging}
    (laid : Laid s₀ root s) (sizes : size = 4096 ∨ size = 2 ^ 21)
    (whole : (limit - first) % size = 0) (noWrap : boot.hhdmOffset.toNat + limit ≤ 2 ^ 64)
    (window : ∀ x < limit, Canonical (boot.hhdmOffset.toNat + x))
    (page : ∀ {state phys next}, phys < limit → Laid s₀ root state → body state phys = .ok next →
      DirectPage s₀ boot root size phys state next)
    (done : (strides first limit size).foldlM body s = .ok t) :
    Laid s₀ root t ∧ (∀ virt, Canonical virt → virt < 2 ^ 64 →
        ¬ (boot.hhdmOffset.toNat + first ≤ virt ∧ virt < boot.hhdmOffset.toNat + limit) →
          t.leafAt root virt = s.leafAt root virt) ∧
      ∀ x, first ≤ x → x < limit → Direct boot root t x := by
  have positive : 0 < size := by omega
  -- after some pages, those passed are in place and nothing outside the window has moved
  have passed := Lib.foldlM_progress (fun passed state => Laid s₀ root state ∧
    (∀ virt, Canonical virt → virt < 2 ^ 64 →
      ¬ (boot.hhdmOffset.toNat + first ≤ virt ∧ virt < boot.hhdmOffset.toNat + limit) →
        state.leafAt root virt = s.leafAt root virt) ∧
    ∀ phys ∈ passed, phys ∈ strides first limit size ∧ ∀ offset < size, Direct boot root state (phys + offset))
    ?_ ⟨laid, fun _ _ _ _ => rfl, by simp⟩ done
  · obtain ⟨laid', outside, mapped⟩ := passed
    refine ⟨laid', outside, ?_⟩
    intro x above below
    have member : first + (x - first) / size * size ∈ strides first limit size := by
      refine List.mem_map.mpr ⟨(x - first) / size, List.mem_range.mpr ?_, rfl⟩
      grind
    have place := (mapped _ member).2 ((x - first) % size) (Nat.mod_lt _ positive)
    grind
  · intro passed state phys next member held stepped
    obtain ⟨laid', outside, mapped⟩ := held
    obtain ⟨k, place, below⟩ := mem_strides positive member
    have here := page below laid' stepped
    have aligned := here.aligned
    refine ⟨here.laid, ?_, ?_⟩
    · grind [DirectPage.elsewhere]
    · intro earlier member'
      rw [List.mem_append, List.mem_singleton] at member'
      by_cases same : earlier = phys
      · grind [DirectPage.direct]
      · obtain ⟨inside, before⟩ := mapped earlier (member'.resolve_right same)
        obtain ⟨k', place', below'⟩ := mem_strides positive inside
        refine ⟨inside, ?_⟩
        intro offset small
        have fits : earlier + offset < limit := by rcases sizes with rfl | rfl <;> omega
        refine (before offset small).congr (here.elsewhere _ (window _ fits) (by omega) ?_)
        rcases sizes with rfl | rfl <;> omega

theorem mapHhdmRange_laid (apart : boot.WindowApart span) (whole : span % 4096 = 0) (laid : Laid s₀ root s)
    (done : mapHhdmRange boot s root span = .ok t) :
    Laid s₀ root t ∧ (∀ virt, boot.KernelPage virt → t.leafAt root virt = s.leafAt root virt) ∧
      ∀ x < span, Direct boot root t x := by
  have noWrap := apart.noWrap
  have size := apart.size
  simp only [mapHhdmRange] at done
  obtain ⟨middle, huge, small⟩ := Lib.bind_ok done
  generalize bound : (if ((boot.hhdmOffset.toNat &&& (pageSize2m - 1)) == 0) = true then alignDown span pageSize2m else 0)
    = limit at huge small
  have limit0 : limit % 2 ^ 21 = 0 ∧ limit ≤ span := by
    grind [alignDown_block]
  obtain ⟨laid₁, outside₁, direct₁⟩ := directPass laid (.inr rfl) (by omega) (by omega)
    (fun x below => apart.window x (by omega)) (fun {state phys next} below held stepped => by
      split at stepped
      · cases stepped
      obtain ⟨mapped, first, rest⟩ := Lib.bind_ok stepped
      cases rest
      rw [Nat.mod_eq_of_lt (by omega)] at first
      have page := mapPage2m_direct held (apart.window phys (by omega)) (by omega) (by omega) first
      exact ⟨page.laid.congr rfl rfl rfl, page.aligned, page.elsewhere, page.direct⟩) huge
  obtain ⟨laid₂, outside₂, direct₂⟩ := directPass laid₁ (.inl rfl) (by omega) (by omega)
    (fun x below => apart.window x below) (fun {state phys next} below held stepped => by
      split at stepped
      · cases stepped
      obtain ⟨mapped, first, rest⟩ := Lib.bind_ok stepped
      cases rest
      rw [Nat.mod_eq_of_lt (by omega)] at first
      have page := mapPage4k_direct held (apart.window phys (by omega)) (by omega) (by omega) first
      exact ⟨page.laid.congr rfl rfl rfl, page.aligned, page.elsewhere, page.direct⟩) small
  refine ⟨laid₂, ?_, ?_⟩
  · intro virt kernel
    have canonical := apart.image virt kernel
    have low : virt < 2 ^ 64 := lt_trans kernel.2 boot.kernelVirtualEnd.toNat_lt
    have away : ¬ (boot.hhdmOffset.toNat ≤ virt ∧ virt < boot.hhdmOffset.toNat + span) := by
      rintro ⟨above, below⟩
      have here := apart.apart (virt - boot.hhdmOffset.toNat) (by omega)
      grind
    grind
  · intro x below
    by_cases first : x < limit
    · exact (direct₁ x (Nat.zero_le _) first).congr (outside₂ _ (apart.window x below) (by omega) (by omega))
    grind

theorem mapPassthrough_laid (laid : Laid s₀ root s) (done : mapPassthrough boot s root oldCr3Phys = .ok t) :
    Laid s₀ root t ∧ ∀ other leaf, s.leafAt root other = some leaf → t.leafAt root other = some leaf := by
  refine mapPassthrough_keeps (fun u => Laid s₀ root u ∧ ∀ other leaf, s.leafAt root other = some leaf → u.leafAt root other = some leaf)
    ?_ ?_ ⟨laid, fun _ _ found => found⟩ done
  · intro u v _ _ _ held ensured
    obtain ⟨laid', kept⟩ := ensurePageMapping_laid held.1 ensured
    exact ⟨laid', fun other leaf found => kept other leaf (held.2 other leaf found)⟩
  · intro u v held pmm tables recorded _
    exact ⟨held.1.congr pmm tables recorded, fun other leaf found => by
      simpa only [Paging.leafAt, Paging.entryAt, tables] using held.2 other leaf found⟩

theorem allocTablePage_laid {table : Nat} (ready : s.pmm.Ready) (sized : s.pmm.info.totalPages ≤ 2 ^ 40)
    (done : allocTablePage s = .ok (table, t)) :
    Laid s table { t with info := { t.info with rootPml4Phys := table } } := by
  refine ⟨allocTablePage_built ready sized done, ?_⟩
  obtain ⟨got, -, same⟩ := allocTablePage_ok done
  intro other taken
  have apart : other ≠ table := by
    have clear := got.clear
    have below := got.below
    rcases taken with used | above
    · grind
    · omega
  rw [same]
  grind

end Passes

/-- What Limine hands over: the direct map apart from the kernel, and tables that stand in no
frame of the allocator. -/
structure HandedOver (boot : Boot) (s : Paging) : Prop where
  started : ∃ blank, pmmInit boot blank = .ok s.pmm
  fresh : s.initialized = false
  window : boot.WindowApart (alignUp (maxPhysicalEnd boot.memoryMap) pageSize4k)
  oldTables : OldTablesSafe s (s.cr3 &&& entryAddrMask4k)

theorem HandedOver.total (handed : HandedOver boot s) : s.pmm.info.totalPages ≤ 2 ^ 40 := by
  obtain ⟨blank, started⟩ := handed.started
  obtain ⟨noWrap, total⟩ := pmmInit_total started
  have size := handed.window.size
  rw [pageSize4k, alignUp_page] at size
  omega

theorem translateWithCr3_masked (s : Paging) (root virtAddr : Nat) :
    translateWithCr3 s (root &&& entryAddrMask4k) virtAddr = translateWithCr3 s root virtAddr := by
  rw [translateWithCr3, translateWithCr3, Nat.and_assoc, Nat.and_self]

/-- The tables at the switch to the new root, and what is reclaimed after it. -/
theorem pagingInit_laid (handed : HandedOver boot s) (done : pagingInit boot s = .ok t) :
    ∃ newPml4 s₄ skipStart skipEnd, Laid s newPml4 s₄ ∧ ImageKept s boot (s.cr3 &&& entryAddrMask4k) newPml4 s₄ ∧
      (∀ x < alignUp s.pmm.info.highestPhysicalAddress pageSize4k, Direct boot newPml4 s₄ x) ∧
      (skipStart, skipEnd) = reclaimSkip (translateWithCr3 s s.cr3 boot.rsp.toNat) ∧
      t.cr3 = newPml4 ∧ t.tables = s₄.tables ∧
      t.pmm = (reclaimBootloaderReclaimable boot.memoryMap s₄.pmm skipStart skipEnd).2 := by
  obtain ⟨blank, started⟩ := handed.started
  have highest := pmmInit_highest started
  obtain ⟨newPml4, s₁, pages, s₂, s₃, s₄, -, allocated, kernel, hhdm, passthrough, skipStart, skipEnd, skip, rfl⟩ :=
    pagingInit_stages handed.fresh done
  rw [highest] at hhdm ⊢
  have whole : alignUp (maxPhysicalEnd boot.memoryMap) pageSize4k % 4096 = 0 := by
    rw [pageSize4k, alignUp_page]
    omega
  have laid₁ := allocTablePage_laid (pmmInit_ready started) handed.total allocated
  obtain ⟨laid₂, image⟩ := mapKernelRange_laid handed.oldTables handed.window.image laid₁ kernel
  obtain ⟨laid₃, still, direct⟩ := mapHhdmRange_laid handed.window whole (by exact laid₂.congr rfl rfl rfl) hhdm
  obtain ⟨laid₄, kept⟩ := mapPassthrough_laid laid₃ passthrough
  have onward : ∀ {virt phys}, s₃.Sends newPml4 virt phys → s₄.Sends newPml4 virt phys := by
    rintro virt phys ⟨leaf, found, address⟩
    exact ⟨leaf, kept virt leaf found, address⟩
  rw [laid₄.translate_old handed.oldTables, translateWithCr3_masked] at skip
  refine ⟨newPml4, s₄, skipStart, skipEnd, laid₄, ?_, fun x below => onward (direct x below), skip, rfl, rfl, rfl⟩
  intro virt kernelPage
  obtain ⟨phys, old, sends⟩ := image virt kernelPage
  exact ⟨phys, old, onward (sends.congr (still virt kernelPage))⟩

/-- The new address space translates the kernel's image as the old one did, and every byte of
memory through the direct map. -/
theorem address_space_preserved {boot : Boot} (handed : HandedOver boot s) (done : pagingInit boot s = .ok t) :
    (∀ virt, boot.KernelPage virt → ∃ phys,
      translateWithCr3 s s.cr3 virt = some phys ∧ translateWithCr3 t t.cr3 virt = some phys) ∧
    ∀ x < alignUp s.pmm.info.highestPhysicalAddress pageSize4k,
      translateWithCr3 t t.cr3 (boot.hhdmOffset.toNat + x) = some x := by
  obtain ⟨newPml4, s₄, -, -, laid, image, direct, -, cr3, tables, -⟩ := pagingInit_laid handed done
  have translate : ∀ {virt phys}, s₄.Sends newPml4 virt phys → translateWithCr3 t t.cr3 virt = some phys := by
    intro virt phys sends
    rw [cr3, ← laid.built.tree.translate_of_sends sends]
    grind [translateWithCr3_congr]
  refine ⟨?_, fun x below => translate (direct x below)⟩
  intro virt kernelPage
  obtain ⟨phys, old, sends⟩ := image virt kernelPage
  grind [translateWithCr3_masked]

/-- Page tables that stand in two frames: the upper one leads to the lower one, which has only pages
of 1 GiB. -/
theorem oldTables_safe (cr3 : s.cr3 = 0x100000) (top : ∀ index, s.tables 0x100000 index = 0x101003 ∨ s.tables 0x100000 index = 0)
    (next : ∀ index, s.tables 0x101000 index &&& pagePresent = 0 ∨ s.tables 0x101000 index &&& pagePs ≠ 0)
    (taken : ∀ table ∈ [0x100000, 0x101000], s.pmm.Taken table) : OldTablesSafe s (s.cr3 &&& entryAddrMask4k) := by
  intro virtAddr table member
  have root : s.cr3 &&& entryAddrMask4k &&& entryAddrMask4k = 0x100000 := by
    rw [cr3]
    decide
  have places : table = 0x100000 ∨ table = 0x101000 := by
    rw [translateReads, root] at member
    rcases top (pml4Index virtAddr) with linked | empty
    · have masked : (0x101003 : Nat) &&& entryAddrMask4k = 0x101000 := by decide
      grind
    grind
  grind

/-- The tables of `bootTables` stand in two frames. -/
theorem bootTables_safe (tables : s.tables = bootTables) (cr3 : s.cr3 = 0x100000)
    (taken : ∀ table ∈ [0x100000, 0x101000], s.pmm.Taken table) : OldTablesSafe s (s.cr3 &&& entryAddrMask4k) := by
  refine oldTables_safe cr3 (fun index => ?_) (fun index => ?_) taken
  · rw [tables]
    unfold bootTables
    split <;> simp
  · rw [tables]
    by_cases huge : index = 0 ∨ index = 510 <;> simp [bootTables, huge, pagePs]

theorem tinyPaging_handedOver : HandedOver tinyBoot tinyPaging where
  started := tinyPaging_atBoot.started
  fresh := rfl
  window := tinyPaging_cold.window
  oldTables := bootTables_safe rfl rfl (by decide +kernel)

theorem address_space_preserved_tiny :
    translateWithCr3 tinyPagingReady tinyPagingReady.cr3 0xffffffff80002010 = some 0x2010 ∧
      translateWithCr3 tinyPagingReady tinyPagingReady.cr3 0xffff800000010fff = some 0x10fff := by
  have started : pagingInit tinyBoot tinyPaging = .ok tinyPagingReady := Lib.eq_ok_outcome _ (by decide +kernel)
  obtain ⟨image, direct⟩ := address_space_preserved tinyPaging_handedOver started
  obtain ⟨phys, old, new⟩ := image 0xffffffff80002010 ⟨by decide, by decide⟩
  have before : translateWithCr3 tinyPaging tinyPaging.cr3 0xffffffff80002010 = some 0x2010 := by decide +kernel
  rw [before] at old
  exact ⟨new.trans old.symm, direct 0x10fff (by decide +kernel)⟩

end Velox
