import Velox.Mm.PmmSafety

/-! Which frames `pmm_init` leaves free, and where it puts its bitmap. -/

namespace Velox

variable {entry : MemoryMapEntry} {page first last : Nat}

/-- The frame lies wholly inside the entry. -/
def MemoryMapEntry.Contains (entry : MemoryMapEntry) (page : Nat) : Prop :=
  entry.base.toNat ≤ page * 4096 ∧ page * 4096 + 4096 ≤ entry.base.toNat + entry.length.toNat

/-- Some address of the frame is in `[first, last)`. -/
def Meets (page first last : Nat) : Prop := ∃ address, address / 4096 = page ∧ first ≤ address ∧ address < last

/-- The frame holds bytes of the bitmap. -/
def PmmInfo.HoldsBitmap (info : PmmInfo) (page : Nat) : Prop :=
  Meets page info.bitmapPhysBase (info.bitmapPhysBase + info.bitmapBytes)

/-- The frame is tracked and its bit is clear. -/
def Pmm.IsFree (s : Pmm) (page : Nat) : Prop := page < s.info.totalPages ∧ s.bitTest page = false

/-- The frames that may be handed out after the boot. -/
structure Boot.MayFree (boot : Boot) (info : PmmInfo) (page : Nat) : Prop where
  usable : ∃ entry ∈ boot.memoryMap, entry.type = .usable ∧ entry.Contains page
  proper : page ≠ 0
  bitmap : ¬ info.HoldsBitmap page
  kernel : ¬ Meets page boot.kernelPhysicalStart.toNat boot.kernelPhysicalEnd.toNat

/-- `linker.ld` ends the image at `ALIGN(4K)` and moves it by a multiple of that. -/
def Boot.ImageAligned (boot : Boot) : Prop := boot.kernelPhysicalEnd.toNat % 4096 = 0

theorem meets_iff :
    Meets page first last ↔ first < last ∧ first < page * 4096 + 4096 ∧ page * 4096 < last := by
  constructor
  · rintro ⟨address, rfl, low, high⟩
    omega
  · rintro ⟨some', low, high⟩
    exact ⟨max first (page * 4096), by omega, by omega, by omega⟩

/-- Where saturation would show, `pmm_init` does not get this far. -/
theorem MemoryMapEntry.rawEnd_eq (below : entry.rawEnd + 1 < 2 ^ 64) :
    entry.rawEnd = entry.base.toNat + entry.length.toNat := by
  have length := entry.length.toNat_lt
  simp only [MemoryMapEntry.rawEnd] at below ⊢
  grind

/-- Reserving a range of addresses sets the bits of the frames it touches. -/
theorem Pmm.markRangeUsed_bitTest (s : Pmm) (fits : first < 2 ^ 64) (noWrap : last + 4095 < 2 ^ 64)
    (q : Nat) : (s.markRangeUsed first last).bitTest q = true ↔
      Meets q first last ∧ q < s.info.totalPages ∨ s.bitTest q = true := by
  rw [meets_iff]
  unfold Pmm.markRangeUsed
  split
  · grind
  · rw [Pmm.foldl_markPageUsed_bitTest, Bool.or_eq_true, decide_eq_true_iff]
    refine or_congr_left ?_
    rw [List.mem_range'_1]
    simp only [Pmm.physToPage, pmmPageSize, alignUp_page, alignDown_page, Nat.mod_eq_of_lt noWrap,
      Nat.mod_eq_of_lt fits]
    omega

/-- The region that is found for the bitmap. -/
theorem findBitmapRegion_some {entries : List MemoryMapEntry} {size base : Nat}
    (noWrap : ∀ entry ∈ entries, entry.rawEnd + 4095 < 2 ^ 64) (found : findBitmapRegion entries size = some base) :
    base % 4096 = 0 ∧ ∃ entry ∈ entries, entry.type = .usable ∧ entry.base.toNat ≤ base ∧
      base + alignUp size pmmPageSize ≤ entry.rawEnd := by
  obtain ⟨entry, member, here⟩ := List.exists_of_findSome?_eq_some found
  split at here
  · cases here
  · dsimp only at here
    split at here
    · cases here
    split at here
    · rename_i ordered large
      cases here
      have low := entry.base_le_rawEnd
      have high := noWrap entry member
      have first : alignUp entry.base.toNat 4096 = (entry.base.toNat + 4095) / 4096 * 4096 := by
        rw [alignUp_page, Nat.mod_eq_of_lt (by omega)]
      have last : alignDown entry.rawEnd 4096 = entry.rawEnd / 4096 * 4096 := by
        rw [alignDown_page, Nat.mod_eq_of_lt (by omega)]
      simp only [pmmPageSize, first, last] at ordered large ⊢
      grind
    · cases here

variable {boot : Boot} {s₀ s : Pmm}

section

variable (started : pmmInit boot s₀ = .ok s)
include started

theorem pmmInit_rawEnd (member : entry ∈ boot.memoryMap) :
    entry.rawEnd + 4095 < 2 ^ 64 ∧ entry.rawEnd = entry.base.toNat + entry.length.toNat ∧
      entry.rawEnd ≤ 4096 * s.info.totalPages := by
  obtain ⟨noWrap, total⟩ := pmmInit_total started
  have covered := rawEnd_le_maxPhysicalEnd member
  grind [MemoryMapEntry.rawEnd_eq]

/-- The bitmap has a bit for every frame and lies in one usable entry, from a page boundary on. -/
theorem pmmInit_bitmap :
    s.info.totalPages ≤ 8 * s.info.bitmapBytes ∧ s.info.bitmapPhysBase % 4096 = 0 ∧
      ∃ entry ∈ boot.memoryMap, entry.type = .usable ∧ entry.base.toNat ≤ s.info.bitmapPhysBase ∧
        s.info.bitmapPhysBase + alignUp s.info.bitmapBytes pmmPageSize ≤ entry.rawEnd := by
  obtain ⟨-, total⟩ := pmmInit_total started
  obtain ⟨-, -, -, bytes, found⟩ := pmmInit_info started
  have small := maxPhysicalEnd_lt boot.memoryMap
  have covered := bitmapBytes_cover (show s.info.totalPages ≤ 2 ^ 52 by omega)
  exact ⟨by omega, findBitmapRegion_some (fun entry member => (pmmInit_rawEnd started member).1) found⟩

/-- The bytes of the bitmap take up whole frames. -/
theorem pmmInit_span :
    s.info.bitmapPhysBase + alignUp s.info.bitmapBytes pmmPageSize + 4095 < 2 ^ 64 ∧ ∀ page,
      Meets page s.info.bitmapPhysBase (s.info.bitmapPhysBase + alignUp s.info.bitmapBytes pmmPageSize) ↔
        s.info.HoldsBitmap page := by
  obtain ⟨covered, aligned, entry, member, -, -, inside⟩ := pmmInit_bitmap started
  obtain ⟨-, total⟩ := pmmInit_total started
  obtain ⟨-, -, nonzero, bytes, -⟩ := pmmInit_info started
  have high := (pmmInit_rawEnd started member).1
  have small := maxPhysicalEnd_lt boot.memoryMap
  have size : s.info.bitmapBytes ≤ 2 ^ 52 := by
    rw [bytes, alignUp_eight]
    omega
  refine ⟨by omega, fun page => ?_⟩
  rw [PmmInfo.HoldsBitmap, meets_iff, meets_iff]
  simp only [pmmPageSize, alignUp_page]
  omega

/-- The order in which `pmm_init` marks the frames. -/
theorem pmmInit_marked (page : Nat) :
    s.bitTest page = ((((boot.memoryMap.foldl Pmm.freeUsable (s₀.reset s.info.totalPages s.info.bitmapBytes
      s.info.bitmapPhysBase (maxPhysicalEnd boot.memoryMap))).markRangeUsed s.info.bitmapPhysBase
        ((s.info.bitmapPhysBase + alignUp s.info.bitmapBytes pmmPageSize) % 2 ^ 64)).markRangeUsed
        boot.kernelPhysicalStart.toNat boot.kernelPhysicalEnd.toNat).markPageUsed 0).bitTest page := by
  obtain ⟨-, total', -, bytes', found'⟩ := pmmInit_info started
  obtain ⟨total, bytes, base, marked, totalEq, -, bytesEq, found, markedEq, result⟩ := pmmInit_ok started
  have sameTotal : s.info.totalPages = total := total'.trans totalEq.symm
  have sameBytes : s.info.bitmapBytes = bytes := by grind
  rw [sameBytes, found] at found'
  rw [sameTotal, sameBytes, ← Option.some.inj found', ← markedEq, result]
  rfl

end

/-- The bits that `pmm_init` leaves clear. -/
theorem pmmInit_clear_iff (image : boot.ImageAligned) (started : pmmInit boot s₀ = .ok s)
    (below : page < s.info.totalPages) : s.bitTest page = false ↔
      (∃ entry ∈ boot.memoryMap, entry.type = .usable ∧ entry.base.toNat ≤ page * 4096 ∧
        page * 4096 + 4096 ≤ entry.rawEnd) ∧ page ≠ 0 ∧ ¬ s.info.HoldsBitmap page ∧
      ¬ Meets page boot.kernelPhysicalStart.toNat boot.kernelPhysicalEnd.toNat := by
  obtain ⟨spanFits, span⟩ := pmmInit_span started
  obtain ⟨covered, -⟩ := pmmInit_bitmap started
  have kernelStart := boot.kernelPhysicalStart.toNat_lt
  have kernelEnd := boot.kernelPhysicalEnd.toNat_lt
  have kernelFits : boot.kernelPhysicalEnd.toNat + 4095 < 2 ^ 64 := by
    unfold Boot.ImageAligned at image
    omega
  have usable := Pmm.foldl_freeUsable_clear (s₀.reset s.info.totalPages s.info.bitmapBytes s.info.bitmapPhysBase
    (maxPhysicalEnd boot.memoryMap)) (pmmInit_noWrap started) page
  rw [Pmm.reset_bitTest s₀ _ _ (by omega) below] at usable
  rw [pmmInit_marked started, Nat.mod_eq_of_lt (by omega), Pmm.markPageUsed_bitTest, Bool.or_eq_false_iff,
    ← Bool.not_eq_true (Pmm.bitTest _ _), Pmm.markRangeUsed_bitTest _ kernelStart kernelFits,
    Pmm.markRangeUsed_bitTest _ (by omega) spanFits, span page, not_or, not_or, Bool.not_eq_true, usable]
  simp only [Pmm.markRangeUsed_totalPages, Pmm.foldl_freeUsable_totalPages, Pmm.reset, below, and_true,
    decide_eq_false_iff_not, Bool.true_eq_false, false_or]
  grind

/-- After `pmm_init` a frame is free iff it lies wholly inside a usable entry, is not frame 0 and
holds neither bytes of the bitmap nor of the kernel; and the bitmap lies in one usable entry. -/
theorem pmm_init_frees_exactly (boot : Boot) (s₀ s : Pmm) (image : boot.ImageAligned)
    (started : pmmInit boot s₀ = .ok s) :
    (∀ page, s.IsFree page ↔ boot.MayFree s.info page) ∧
    (∃ entry ∈ boot.memoryMap, entry.type = .usable ∧ ∀ page, s.info.HoldsBitmap page → entry.Contains page) ∧
    s.info.totalPages ≤ 8 * s.info.bitmapBytes := by
  obtain ⟨covered, aligned, region, member, usable, low, high⟩ := pmmInit_bitmap started
  refine ⟨fun page => ⟨?_, ?_⟩, ⟨region, member, usable, fun page holds => ?_⟩, covered⟩
  · rintro ⟨below, clear⟩
    obtain ⟨⟨entry, member, usable, first, last⟩, proper, bitmap, kernel⟩ :=
      (pmmInit_clear_iff image started below).mp clear
    have same := (pmmInit_rawEnd started member).2.1
    exact ⟨⟨entry, member, usable, first, same ▸ last⟩, proper, bitmap, kernel⟩
  · rintro ⟨⟨entry, member, usable, first, last⟩, proper, bitmap, kernel⟩
    obtain ⟨-, same, tracked⟩ := pmmInit_rawEnd started member
    have below : page < s.info.totalPages := by omega
    exact ⟨below, (pmmInit_clear_iff image started below).mpr
      ⟨⟨entry, member, usable, first, same ▸ last⟩, proper, bitmap, kernel⟩⟩
  · have same := (pmmInit_rawEnd started member).2.1
    have whole := ((pmmInit_span started).2 page).mpr holds
    rw [meets_iff] at whole
    have rounded : alignUp s.info.bitmapBytes pmmPageSize % 4096 = 0 := by
      rw [pmmPageSize, alignUp_page]
      omega
    exact ⟨by omega, by omega⟩

theorem pmm_init_frees_exactly_tiny : tinyBoot.ImageAligned ∧ ∃ s, pmmInit tinyBoot blankPmm = .ok s ∧
    ∀ page, s.IsFree page ↔ tinyBoot.MayFree s.info page := by
  have image : tinyBoot.ImageAligned := by
    unfold Boot.ImageAligned
    decide
  have started : pmmInit tinyBoot blankPmm = .ok (Lib.outcome blankPmm (pmmInit tinyBoot blankPmm)) :=
    Lib.eq_ok_outcome _ (by decide +kernel)
  exact ⟨image, _, started, (pmm_init_frees_exactly _ _ _ image started).1⟩

end Velox
