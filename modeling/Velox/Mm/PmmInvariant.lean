import Velox.Lib.Count
import Velox.Lib.Runs
import Velox.Mm.Pmm

namespace Velox.Pmm

private theorem bitTest_eq (s : Pmm) (bit : Nat) : s.bitTest bit = (s.bitmap (bit / 8)).getLsbD (bit % 8) := by
  have inside : bit % 8 < 8 := Nat.mod_lt _ (by decide)
  have low : bit &&& 7 = bit % 8 := Nat.and_two_pow_sub_one_eq_mod bit 3
  have nonzero : BitVec.twoPow 8 (bit % 8) ≠ 0#8 := by
    intro zero
    have same := congrArg (fun word => word.getLsbD (bit % 8)) zero
    simp [inside] at same
  rw [bitTest, Nat.shiftRight_eq_div_pow, low, ← BitVec.twoPow_eq, BitVec.and_twoPow]
  grind

theorem bitTest_bitSet (s : Pmm) (page q : Nat) : (s.bitSet page).bitTest q = (decide (q = page) || s.bitTest q) := by
  have low : page &&& 7 = page % 8 := Nat.and_two_pow_sub_one_eq_mod page 3
  simp only [bitTest_eq, bitSet, Nat.shiftRight_eq_div_pow, low, ← BitVec.twoPow_eq]
  grind

theorem bitTest_bitClear (s : Pmm) (page q : Nat) :
    (s.bitClear page).bitTest q = (!decide (q = page) && s.bitTest q) := by
  have low : page &&& 7 = page % 8 := Nat.and_two_pow_sub_one_eq_mod page 3
  simp only [bitTest_eq, bitClear, Nat.shiftRight_eq_div_pow, low, ← BitVec.twoPow_eq]
  grind

@[simp] theorem markPageUsed_totalPages (s : Pmm) (page : Nat) :
    (s.markPageUsed page).info.totalPages = s.info.totalPages := by
  unfold markPageUsed
  split
  · rfl
  · split <;> rfl

@[simp] theorem markPageFree_totalPages (s : Pmm) (page : Nat) :
    (s.markPageFree page).info.totalPages = s.info.totalPages := by
  unfold markPageFree
  split
  · rfl
  · split <;> rfl

theorem markPageUsed_bitTest (s : Pmm) (page q : Nat) : (s.markPageUsed page).bitTest q =
      (decide (q = page ∧ page < s.info.totalPages) || s.bitTest q) := by
  unfold markPageUsed
  by_cases outside : page ≥ s.info.totalPages
  · grind
  · have inside : page < s.info.totalPages := by omega
    by_cases taken : s.bitTest page = true
    · grind
    · have free : s.bitTest page = false := by simpa using taken
      have marked := bitTest_bitSet s page q
      simp only [outside, free, inside, Bool.not_false, ↓reduceIte, and_true]
      exact marked

theorem markPageFree_bitTest (s : Pmm) (page q : Nat) : (s.markPageFree page).bitTest q =
      (!decide (q = page ∧ page < s.info.totalPages) && s.bitTest q) := by
  unfold markPageFree
  by_cases outside : page ≥ s.info.totalPages
  · grind
  · have inside : page < s.info.totalPages := by omega
    by_cases taken : s.bitTest page = true
    · have cleared := bitTest_bitClear s page q
      simp only [outside, taken, inside, ↓reduceIte, and_true]
      exact cleared
    grind

/-- Both counters count the bitmap, and the frame count fits a word. -/
structure Accounted (s : Pmm) : Prop where
  bounded : s.info.totalPages ≤ 2 ^ 52
  free : s.info.freePages = Nat.count (fun page => s.bitTest page = false) s.info.totalPages
  used : s.info.usedPages = Nat.count (fun page => s.bitTest page = true) s.info.totalPages

theorem Accounted.sum {s : Pmm} (counted : s.Accounted) :
    s.info.freePages + s.info.usedPages = s.info.totalPages := by
  grind [free, used, Lib.count_add_count_of_not]

private theorem wordPred_succ (n : Nat) : wordPred (n + 1) = n := by
  simp [wordPred]

private theorem wordSucc_of_lt (small : n < 2 ^ 52) : wordSucc n = n + 1 := by
  have distinct : n ≠ 2 ^ 64 - 1 := by omega
  simp only [wordSucc, distinct, ↓reduceIte]

theorem markPageUsed_accounted {s : Pmm} (counted : s.Accounted) (page : Nat) : (s.markPageUsed page).Accounted := by
  by_cases inside : page < s.info.totalPages
  · by_cases taken : s.bitTest page = true
    · have same : s.markPageUsed page = s := by simp [markPageUsed, taken]
      grind
    · have clear : s.bitTest page = false := by simpa using taken
      have total := counted.sum
      have bounded := counted.bounded
      have bits := markPageUsed_bitTest s page
      -- The frame leaves the set of clear bits and joins the set of set bits.
      have freed : Nat.count (fun q => s.bitTest q = false) s.info.totalPages =
          Nat.count (fun q => (s.markPageUsed page).bitTest q = false) s.info.totalPages + 1 := by
        apply Lib.count_insert inside
        · simp [bits, inside]
        grind
      have gained : Nat.count (fun q => (s.markPageUsed page).bitTest q = true) s.info.totalPages =
          Nat.count (fun q => s.bitTest q = true) s.info.totalPages + 1 := by
        apply Lib.count_insert inside
        · simp [clear]
        · simp [bits, inside]
      have counters : (s.markPageUsed page).info.freePages = wordPred s.info.freePages ∧
          (s.markPageUsed page).info.usedPages = wordSucc s.info.usedPages := by
        simp [markPageUsed, clear, Nat.not_le.mpr inside]
      have room : s.info.usedPages < 2 ^ 52 := by
        have positive := counted.free.trans freed
        omega
      refine ⟨by simpa using bounded, ?_, ?_⟩
      · rw [counters.1, counted.free, freed, wordPred_succ, markPageUsed_totalPages]
      · rw [counters.2, wordSucc_of_lt room, counted.used, markPageUsed_totalPages, gained]
  · have same : s.markPageUsed page = s := by simp [markPageUsed, Nat.not_lt.mp inside]
    grind

theorem markPageFree_accounted {s : Pmm} (counted : s.Accounted) (page : Nat) : (s.markPageFree page).Accounted := by
  by_cases inside : page < s.info.totalPages
  · by_cases taken : s.bitTest page = true
    · have total := counted.sum
      have bounded := counted.bounded
      have bits := markPageFree_bitTest s page
      have lost : Nat.count (fun q => s.bitTest q = true) s.info.totalPages =
          Nat.count (fun q => (s.markPageFree page).bitTest q = true) s.info.totalPages + 1 := by
        apply Lib.count_insert inside
        · simp [bits, inside]
        grind
      have gained : Nat.count (fun q => (s.markPageFree page).bitTest q = false) s.info.totalPages =
          Nat.count (fun q => s.bitTest q = false) s.info.totalPages + 1 := by
        apply Lib.count_insert inside
        · simp [taken]
        grind
      have counters : (s.markPageFree page).info.freePages = wordSucc s.info.freePages ∧
          (s.markPageFree page).info.usedPages = wordPred s.info.usedPages := by
        simp [markPageFree, taken, Nat.not_le.mpr inside]
      have room : s.info.freePages < 2 ^ 52 := by
        have positive := counted.used.trans lost
        omega
      refine ⟨by simpa using bounded, ?_, ?_⟩
      · rw [counters.1, wordSucc_of_lt room, counted.free, markPageFree_totalPages, gained]
      · rw [counters.2, counted.used, lost, wordPred_succ, markPageFree_totalPages]
    · have same : s.markPageFree page = s := by simp [markPageFree, taken]
      grind
  · have same : s.markPageFree page = s := by simp [markPageFree, Nat.not_lt.mp inside]
    grind

section

variable (pages : List Nat)
include pages

@[simp] theorem foldl_markPageFree_totalPages (s : Pmm) :
    (pages.foldl markPageFree s).info.totalPages = s.info.totalPages := by
  induction pages generalizing s with
  | nil => rfl
  | cons page rest ih => simp [ih]

@[simp] theorem foldl_markPageUsed_totalPages (s : Pmm) :
    (pages.foldl markPageUsed s).info.totalPages = s.info.totalPages := by
  induction pages generalizing s with
  | nil => rfl
  | cons page rest ih => simp [ih]

theorem foldl_markPageFree_bitTest (s : Pmm) (q : Nat) : (pages.foldl markPageFree s).bitTest q =
      (!decide (q ∈ pages ∧ q < s.info.totalPages) && s.bitTest q) := by
  induction pages generalizing s with
  | nil => simp
  | cons page rest ih =>
    grind [markPageFree_bitTest, markPageFree_totalPages]

theorem foldl_markPageUsed_bitTest (s : Pmm) (q : Nat) : (pages.foldl markPageUsed s).bitTest q =
      (decide (q ∈ pages ∧ q < s.info.totalPages) || s.bitTest q) := by
  induction pages generalizing s with
  | nil => simp
  | cons page rest ih =>
    grind [markPageUsed_bitTest, markPageUsed_totalPages]

theorem foldl_markPageFree_accounted (counted : s.Accounted) :
    (pages.foldl markPageFree s).Accounted := by
  induction pages generalizing s with
  | nil => exact counted
  | cons page rest ih => exact ih (markPageFree_accounted counted page)

theorem foldl_markPageUsed_accounted (counted : s.Accounted) :
    (pages.foldl markPageUsed s).Accounted := by
  induction pages generalizing s with
  | nil => exact counted
  | cons page rest ih => exact ih (markPageUsed_accounted counted page)

end

@[simp] theorem markRangeFree_totalPages (s : Pmm) (first last : Nat) :
    (s.markRangeFree first last).info.totalPages = s.info.totalPages := by
  unfold markRangeFree
  split <;> simp

@[simp] theorem markRangeUsed_totalPages (s : Pmm) (first last : Nat) :
    (s.markRangeUsed first last).info.totalPages = s.info.totalPages := by
  unfold markRangeUsed
  split <;> simp

theorem markRangeFree_accounted {s : Pmm} (counted : s.Accounted) (first last : Nat) :
    (s.markRangeFree first last).Accounted := by
  unfold markRangeFree
  grind [foldl_markPageFree_accounted]

theorem markRangeUsed_accounted {s : Pmm} (counted : s.Accounted) (first last : Nat) :
    (s.markRangeUsed first last).Accounted := by
  unfold markRangeUsed
  grind [foldl_markPageUsed_accounted]

/-- Freeing a range of addresses without wrap-around clears the bits of the
pages that lie wholly inside it. -/
theorem markRangeFree_bitTest (s : Pmm) {first last : Nat} (noWrap : first + 4095 < 2 ^ 64)
    (fits : last < 2 ^ 64) (q : Nat) :
    (s.markRangeFree first last).bitTest q =
      (!decide (first ≤ q * 4096 ∧ q * 4096 + 4096 ≤ last ∧ q < s.info.totalPages) && s.bitTest q) := by
  unfold markRangeFree
  split
  · grind
  · rw [foldl_markPageFree_bitTest]
    have same : (q ∈ List.range' (physToPage (alignUp first pmmPageSize))
          (min (physToPage (alignDown last pmmPageSize)) s.info.totalPages -
            physToPage (alignUp first pmmPageSize)) ∧ q < s.info.totalPages) ↔
        (first ≤ q * 4096 ∧ q * 4096 + 4096 ≤ last ∧ q < s.info.totalPages) := by
      rw [List.mem_range'_1]
      simp only [physToPage, pmmPageSize, alignUp_page, alignDown_page, Nat.mod_eq_of_lt noWrap,
        Nat.mod_eq_of_lt fits]
      omega
    simp only [same]

theorem freeUsable_totalPages (s : Pmm) (entry : MemoryMapEntry) :
    (s.freeUsable entry).info.totalPages = s.info.totalPages := by
  unfold freeUsable
  split <;> simp

theorem freeUsable_accounted {s : Pmm} (counted : s.Accounted) (entry : MemoryMapEntry) :
    (s.freeUsable entry).Accounted := by
  unfold freeUsable
  grind [markRangeFree_accounted]

theorem foldl_freeUsable_totalPages (entries : List MemoryMapEntry) (s : Pmm) :
    (entries.foldl freeUsable s).info.totalPages = s.info.totalPages := by
  induction entries generalizing s with
  | nil => rfl
  | cons entry rest ih => rw [List.foldl_cons, ih, freeUsable_totalPages]

theorem foldl_freeUsable_accounted (entries : List MemoryMapEntry) (counted : s.Accounted) :
    (entries.foldl freeUsable s).Accounted := by
  induction entries generalizing s with
  | nil => exact counted
  | cons entry rest ih => exact ih (freeUsable_accounted counted entry)

theorem markRangeUsed_clear {s : Pmm} {first last : Nat}
    (clear : (s.markRangeUsed first last).bitTest q = false) : s.bitTest q = false := by
  unfold markRangeUsed at clear
  split at clear
  · exact clear
  · rw [foldl_markPageUsed_bitTest, Bool.or_eq_false_iff] at clear
    exact clear.2

/-- The frames one pass over the map clears: those wholly inside a usable entry. -/
theorem foldl_freeUsable_clear {entries : List MemoryMapEntry} (s : Pmm)
    (noWrap : ∀ entry ∈ entries, entry.base.toNat + 4095 < 2 ^ 64) (q : Nat) :
    (entries.foldl freeUsable s).bitTest q = false ↔ s.bitTest q = false ∨ ∃ entry ∈ entries, entry.type = .usable ∧
        entry.base.toNat ≤ q * 4096 ∧ q * 4096 + 4096 ≤ entry.rawEnd ∧ q < s.info.totalPages := by
  induction entries generalizing s with
  | nil => simp
  | cons entry rest ih =>
    rw [List.foldl_cons, ih _ (fun other member => noWrap other (List.mem_cons_of_mem _ member)),
      freeUsable_totalPages]
    unfold freeUsable
    grind [markRangeFree_bitTest, MemoryMapEntry.rawEnd_lt]

theorem reset_bitTest (s : Pmm) {total : Nat} (base highest : Nat) (covered : total ≤ bytes * 8)
    (below : q < total) : (s.reset total bytes base highest).bitTest q = true := by
  have ones : ∀ k < 8, (0xFF#8).getLsbD k = true := by decide
  rw [bitTest_eq, reset]
  grind

/-- Before the memory map is read every frame counts as used. -/
theorem reset_accounted (s : Pmm) {total : Nat} (base highest : Nat) (bounded : total ≤ 2 ^ 52)
    (covered : total ≤ bytes * 8) : (s.reset total bytes base highest).Accounted := by
  refine ⟨bounded, ?_, ?_⟩
  · refine (Nat.count_iff_forall_not.mpr ?_).symm
    intro q below
    simp [reset_bitTest s base highest covered below]
  · have all := Lib.count_congr_below (n := total) (p := fun _ => True)
      (q := fun q => (s.reset total bytes base highest).bitTest q = true)
      (fun q below => by grind [reset_bitTest])
    rw [Nat.count_true] at all
    exact all

/-- The allocator as every call after `pmm_init` finds it. -/
structure Ready (s : Pmm) : Prop extends s.Accounted where
  initialized : s.initialized = true
  positive : 0 < s.info.totalPages
  hint : s.nextSearch < s.info.totalPages

end Pmm

private theorem foldl_max_le (entries : List MemoryMapEntry) (start : Nat) :
    let top := entries.foldl
      (fun maxEnd entry => if entry.rawEnd > maxEnd then entry.rawEnd else maxEnd) start
    start ≤ top ∧ ∀ entry ∈ entries, entry.rawEnd ≤ top := by
  induction entries generalizing start with
  | nil => simp
  | cons entry rest ih =>
    grind

theorem rawEnd_le_maxPhysicalEnd {entries : List MemoryMapEntry} {entry : MemoryMapEntry}
    (member : entry ∈ entries) : entry.rawEnd ≤ maxPhysicalEnd entries :=
  (foldl_max_le entries 0).2 entry member

theorem maxPhysicalEnd_lt (entries : List MemoryMapEntry) : maxPhysicalEnd entries < 2 ^ 64 := by
  suffices bound : ∀ (rest : List MemoryMapEntry) start, start < 2 ^ 64 → rest.foldl
      (fun maxEnd entry => if entry.rawEnd > maxEnd then entry.rawEnd else maxEnd) start < 2 ^ 64 from
    bound entries 0 (by decide)
  intro rest
  induction rest with
  | nil => simp
  | cons entry rest ih =>
    grind [MemoryMapEntry.rawEnd_lt]

theorem alignUp_eight (value : Nat) : alignUp value 8 = (value + 7) % 2 ^ 64 / 8 * 8 := by
  have block := Lib.and_block ((value + 7) % 2 ^ 64) (show 3 ≤ 64 by decide)
  simp only [Nat.mod_mod] at block
  exact block

/-- Everything a successful `pmm_init` computed. -/
theorem pmmInit_ok (started : pmmInit boot s₀ = .ok s) : ∃ total bytes base marked,
      total = alignUp (maxPhysicalEnd boot.memoryMap) pmmPageSize / pmmPageSize ∧ total ≠ 0 ∧
      bytes = alignUp total 8 / 8 ∧
      findBitmapRegion boot.memoryMap bytes = some base ∧
      marked = ((((boot.memoryMap.foldl Pmm.freeUsable
        (s₀.reset total bytes base (maxPhysicalEnd boot.memoryMap))).markRangeUsed base
          ((base + alignUp bytes pmmPageSize) % 2 ^ 64)).markRangeUsed
          boot.kernelPhysicalStart.toNat boot.kernelPhysicalEnd.toNat).markPageUsed 0) ∧
      s = { marked with
        nextSearch := if marked.info.totalPages > 1 then 1 else 0
        initialized := true } := by
  simp only [pmmInit, panic, bind, Except.bind, pure, Except.pure] at started
  grind

/-- The frame count of a map that `pmm_init` accepts: rounding up to a page
did not wrap. -/
theorem totalPages_eq {entries : List MemoryMapEntry}
    (nonzero : alignUp (maxPhysicalEnd entries) pmmPageSize / pmmPageSize ≠ 0) :
    maxPhysicalEnd entries + 4095 < 2 ^ 64 ∧ alignUp (maxPhysicalEnd entries) pmmPageSize / pmmPageSize =
        (maxPhysicalEnd entries + 4095) / 4096 := by
  have small := maxPhysicalEnd_lt entries
  simp only [pmmPageSize, alignUp_page] at nonzero ⊢
  omega

/-- The bitmap region is large enough for one bit a frame. -/
theorem bitmapBytes_cover {total : Nat} (bounded : total ≤ 2 ^ 52) : total ≤ alignUp total 8 / 8 * 8 := by
  rw [alignUp_eight]
  omega

theorem pmmInit_ready (started : pmmInit boot s₀ = .ok s) : s.Ready := by
  obtain ⟨total, bytes, base, marked, totalEq, nonzero, bytesEq, -, markedEq, result⟩ := pmmInit_ok started
  obtain ⟨-, exact⟩ := totalPages_eq (totalEq ▸ nonzero)
  have small := maxPhysicalEnd_lt boot.memoryMap
  have bounded : total ≤ 2 ^ 52 := by omega
  have covered : total ≤ bytes * 8 := bytesEq ▸ bitmapBytes_cover bounded
  have counted : marked.Accounted := by
    grind [Pmm.markPageUsed_accounted, Pmm.markRangeUsed_accounted, Pmm.foldl_freeUsable_accounted, Pmm.reset_accounted]
  have size : marked.info.totalPages = total := by
    rw [markedEq]
    simp [Pmm.foldl_freeUsable_totalPages, Pmm.reset]
  subst result
  refine ⟨⟨counted.bounded, counted.free, counted.used⟩, rfl, ?_, ?_⟩
  · grind
  grind

/-- A frame that `pmm_init` leaves free lies wholly inside a usable entry. -/
theorem pmmInit_free_usable (started : pmmInit boot s₀ = .ok s) (below : page < s.info.totalPages)
    (free : s.bitTest page = false) :
    ∃ entry ∈ boot.memoryMap, entry.type = .usable ∧
      entry.base.toNat ≤ page * 4096 ∧ page * 4096 + 4096 ≤ entry.rawEnd := by
  obtain ⟨total, bytes, base, marked, totalEq, nonzero, bytesEq, -, markedEq, result⟩ := pmmInit_ok started
  obtain ⟨noWrap, exact⟩ := totalPages_eq (totalEq ▸ nonzero)
  have bounded : total ≤ 2 ^ 52 := by omega
  have covered : total ≤ bytes * 8 := bytesEq ▸ bitmapBytes_cover bounded
  have size : marked.info.totalPages = total := by
    rw [markedEq]
    simp [Pmm.foldl_freeUsable_totalPages, Pmm.reset]
  have clear : marked.bitTest page = false := by
    subst result
    exact free
  rw [markedEq, Pmm.markPageUsed_bitTest, Bool.or_eq_false_iff] at clear
  have unmarked := Pmm.markRangeUsed_clear (Pmm.markRangeUsed_clear clear.2)
  rw [Pmm.foldl_freeUsable_clear] at unmarked
  · grind [Pmm.reset_bitTest]
  · intro entry member
    have low := entry.base_le_rawEnd
    have high := rawEnd_le_maxPhysicalEnd member
    omega

section Info

/-- Marking frames changes the two counters and nothing else of what `pmm_init` has set up. -/
def PmmInfo.Recounted (info info' : PmmInfo) : Prop :=
  ∃ free used, info' = { info with freePages := free, usedPages := used }

theorem PmmInfo.Recounted.refl (info : PmmInfo) : info.Recounted info := ⟨_, _, rfl⟩

theorem PmmInfo.Recounted.trans {first : PmmInfo} (before : first.Recounted second)
    (after : second.Recounted third) : first.Recounted third := by
  obtain ⟨_, _, rfl⟩ := before
  obtain ⟨free, used, rfl⟩ := after
  exact ⟨free, used, rfl⟩

theorem Pmm.markPageUsed_recounted (s : Pmm) (page : Nat) : s.info.Recounted (s.markPageUsed page).info := by
  unfold Pmm.markPageUsed
  split
  · exact .refl _
  · split <;> exact ⟨_, _, rfl⟩

theorem Pmm.markPageFree_recounted (s : Pmm) (page : Nat) : s.info.Recounted (s.markPageFree page).info := by
  unfold Pmm.markPageFree
  split
  · exact .refl _
  · split <;> exact ⟨_, _, rfl⟩

theorem Pmm.markPageUsed_highest (s : Pmm) (page : Nat) :
    (s.markPageUsed page).info.highestPhysicalAddress = s.info.highestPhysicalAddress := by
  obtain ⟨_, _, same⟩ := s.markPageUsed_recounted page
  rw [same]

theorem Pmm.markPageFree_highest (s : Pmm) (page : Nat) :
    (s.markPageFree page).info.highestPhysicalAddress = s.info.highestPhysicalAddress := by
  obtain ⟨_, _, same⟩ := s.markPageFree_recounted page
  rw [same]

theorem Pmm.markRangeUsed_recounted (s : Pmm) (first last : Nat) : s.info.Recounted (s.markRangeUsed first last).info := by
  unfold Pmm.markRangeUsed
  split
  · exact .refl _
  · exact List.foldlRecOn (motive := fun t : Pmm => s.info.Recounted t.info) _ _ (.refl _)
      fun t same page _ => same.trans (t.markPageUsed_recounted page)

theorem Pmm.freeUsable_recounted (s : Pmm) (entry : MemoryMapEntry) : s.info.Recounted (s.freeUsable entry).info := by
  unfold Pmm.freeUsable Pmm.markRangeFree
  split
  · split
    · exact .refl _
    · exact List.foldlRecOn (motive := fun t : Pmm => s.info.Recounted t.info) _ _ (.refl _)
        fun t same page _ => same.trans (t.markPageFree_recounted page)
  · exact .refl _

section

variable (started : pmmInit boot s₀ = .ok s)
include started

/-- What `pmm_init` has recorded of the memory and of its bitmap. -/
theorem pmmInit_info :
    s.info.highestPhysicalAddress = maxPhysicalEnd boot.memoryMap ∧
      s.info.totalPages = alignUp (maxPhysicalEnd boot.memoryMap) pmmPageSize / pmmPageSize ∧ s.info.totalPages ≠ 0 ∧
      s.info.bitmapBytes = alignUp s.info.totalPages 8 / 8 ∧
      findBitmapRegion boot.memoryMap s.info.bitmapBytes = some s.info.bitmapPhysBase := by
  obtain ⟨total, bytes, base, marked, totalEq, nonzero, bytesEq, found, markedEq, rfl⟩ := pmmInit_ok started
  have usable : (s₀.reset total bytes base (maxPhysicalEnd boot.memoryMap)).info.Recounted
      (boot.memoryMap.foldl Pmm.freeUsable (s₀.reset total bytes base (maxPhysicalEnd boot.memoryMap))).info :=
    List.foldlRecOn (motive := fun t : Pmm =>
      (s₀.reset total bytes base (maxPhysicalEnd boot.memoryMap)).info.Recounted t.info) _ _ (.refl _)
      fun t same entry _ => same.trans (t.freeUsable_recounted entry)
  have counted : (s₀.reset total bytes base (maxPhysicalEnd boot.memoryMap)).info.Recounted marked.info := by
    grind [PmmInfo.Recounted.trans, Pmm.markRangeUsed_recounted, Pmm.markPageUsed_recounted]
  obtain ⟨_, _, same⟩ := counted
  rw [same]
  exact ⟨rfl, totalEq, nonzero, bytesEq, found⟩

theorem pmmInit_highest :
    s.info.highestPhysicalAddress = maxPhysicalEnd boot.memoryMap :=
  (pmmInit_info started).1

/-- The frames that are tracked reach to the end of the highest entry of the map. -/
theorem pmmInit_total : maxPhysicalEnd boot.memoryMap + 4095 < 2 ^ 64 ∧
      s.info.totalPages = (maxPhysicalEnd boot.memoryMap + 4095) / 4096 := by
  obtain ⟨-, total, nonzero, -⟩ := pmmInit_info started
  obtain ⟨noWrap, exact⟩ := totalPages_eq (total ▸ nonzero)
  omega

theorem pmmInit_noWrap :
    ∀ entry ∈ boot.memoryMap, entry.base.toNat + 4095 < 2 ^ 64 := by
  intro entry member
  have bound := (pmmInit_total started).1
  have low := entry.base_le_rawEnd
  have high := rawEnd_le_maxPhysicalEnd member
  omega

end

end Info

end Velox
