import Velox.Mm.PmmSafety

/-! The physical region pages of `arch/x86_64/drivers/block/nvme.c`: how the driver tells
the controller where a buffer is. -/

namespace Velox

def pmmPhysToVirt (boot : Boot) (physAddr : Nat) : Nat := (physAddr + boot.hhdmOffset.toNat) % 2 ^ 64

def pmmVirtToPhys (boot : Boot) (virtAddr : Nat) : Nat := (virtAddr + (2 ^ 64 - boot.hhdmOffset.toNat)) % 2 ^ 64

/-- Zero is `NULL`. -/
def pmmAllocPage (boot : Boot) (s : Pmm) : Nat × Pmm :=
  match pmmTryAllocPagePhys s with
  | (none, s) => (0, s)
  | (some physAddr, s) => (pmmPhysToVirt boot physAddr, s)

structure NvmePrp where
  prp1 : Nat
  prp2 : Nat
  prpListVirt : Nat
  prpListPhys : Nat
deriving DecidableEq, Repr

/-- The physical pages, and the words that lie in them by physical address. -/
structure PrpMemory where
  pmm : Pmm
  words : Nat → Nat

/-- The loop that fills the list, on the address of the page and the memory. -/
def fillPrpList (boot : Boot) (listPhys : Nat) (state : Nat × (Nat → Nat)) (i : Nat) : Nat × (Nat → Nat) :=
  ((state.1 + pmmPageSize) % 2 ^ 64, Function.update state.2 (listPhys + 8 * i) (pmmVirtToPhys boot state.1))

def nvmeBuildPrp (boot : Boot) (s : PrpMemory) (buf len : Nat) : Option NvmePrp × PrpMemory :=
  if buf = 0 ∨ len = 0 then (none, s)
  else
    let phys := pmmVirtToPhys boot buf
    let offset := buf &&& (pmmPageSize - 1)
    let firstBytes := pmmPageSize - offset
    if len ≤ firstBytes then (some ⟨phys, 0, 0, 0⟩, s)
    else
      let remaining := len - firstBytes
      let pageCount := (remaining + pmmPageSize - 1) % 2 ^ 64 / pmmPageSize
      let maxEntries := pmmPageSize / 8
      if pageCount > maxEntries then (none, s)
      else
        let (list, pmm) := pmmAllocPage boot s.pmm
        if list = 0 then (none, { s with pmm := pmm })
        else
          let listPhys := pmmVirtToPhys boot list
          let cleared := fun address =>
            if listPhys ≤ address ∧ address < listPhys + pmmPageSize then 0 else s.words address
          let filled := (List.range pageCount).foldl (fillPrpList boot listPhys) ((buf + firstBytes) % 2 ^ 64, cleared)
          (some ⟨phys, listPhys, list, listPhys⟩, ⟨pmm, filled.2⟩)

/-- The physical addresses that a controller with pages of 4096 bytes transfers to, by the rule of
the NVMe specification: the rest of the page of PRP1, then the page at PRP2 if one is enough, and
otherwise the pages in the list at PRP2. -/
def prpAddresses (words : Nat → Nat) (prp1 prp2 len : Nat) : List Nat :=
  let firstBytes := 4096 - prp1 % 4096
  (List.range (min len firstBytes)).map (prp1 + ·) ++
    (List.range (len - firstBytes)).map fun i =>
      if len ≤ firstBytes + 4096 then prp2 + i else words (prp2 + 8 * (i / 4096)) + i % 4096

/-- The physical addresses of a buffer in the direct map. -/
def bufferAddresses (boot : Boot) (buf len : Nat) : List Nat := (List.range len).map (buf - boot.hhdmOffset.toNat + ·)

def pagesTouched (buf len : Nat) : Nat := (buf + len - 1) / 4096 - buf / 4096 + 1

section Build

variable {boot : Boot} {buf len listPhys : Nat}

theorem pmmVirtToPhys_eq (inside : boot.hhdmOffset.toNat ≤ buf) (below : buf < 2 ^ 64) :
    pmmVirtToPhys boot buf = buf - boot.hhdmOffset.toNat := by
  unfold pmmVirtToPhys
  omega

theorem pmmVirtToPhys_inj {first second : Nat} (below : first < 2 ^ 64) (below' : second < 2 ^ 64) :
    pmmVirtToPhys boot first = pmmVirtToPhys boot second ↔ first = second := by
  unfold pmmVirtToPhys
  omega

theorem pmmAllocPage_lt (boot : Boot) (s : Pmm) : (pmmAllocPage boot s).1 < 2 ^ 64 := by
  unfold pmmAllocPage
  split
  · exact Nat.two_pow_pos 64
  · exact Nat.mod_lt _ (Nat.two_pow_pos 64)

/-- The loop stores the addresses of the pages in order. -/
theorem fillPrpList_words (start : Nat) (words : Nat → Nat) (count : Nat) :
    ((List.range count).foldl (fillPrpList boot listPhys) (start % 2 ^ 64, words)).1 = (start + pmmPageSize * count) % 2 ^ 64 ∧
      ∀ i < count, ((List.range count).foldl (fillPrpList boot listPhys) (start % 2 ^ 64, words)).2 (listPhys + 8 * i) =
        pmmVirtToPhys boot ((start + pmmPageSize * i) % 2 ^ 64) := by
  induction count with
  | zero => simp
  | succ count ih =>
    rw [List.range_succ, List.foldl_append, List.foldl_cons, List.foldl_nil]
    dsimp only [fillPrpList]
    grind

theorem and_pageMask (address : Nat) : address &&& (pmmPageSize - 1) = address % 4096 :=
  Nat.and_two_pow_sub_one_eq_mod address 12

/-- What `nvme_build_prp` has set up where it succeeds. -/
theorem nvmeBuildPrp_some {s t : PrpMemory} {prp : NvmePrp} (built : nvmeBuildPrp boot s buf len = (some prp, t)) :
    0 < len ∧ prp.prp1 = pmmVirtToPhys boot buf ∧ (4096 - buf % 4096 < len →
        prp.prp2 = pmmVirtToPhys boot (pmmAllocPage boot s.pmm).1 ∧
        ∀ i < (len - (4096 - buf % 4096) + 4096 - 1) % 2 ^ 64 / 4096,
          t.words (prp.prp2 + 8 * i) = pmmVirtToPhys boot ((buf + (4096 - buf % 4096) + 4096 * i) % 2 ^ 64)) := by
  unfold nvmeBuildPrp at built
  simp only [and_pageMask] at built
  simp only [pmmPageSize] at built
  rcases ite_eq_iff.mp built with ⟨-, no⟩ | ⟨given, built⟩
  · cases no
  have some' : 0 < len := by omega
  rcases ite_eq_iff.mp built with ⟨one, done⟩ | ⟨-, built⟩
  · grind
  iterate 2
    rcases ite_eq_iff.mp built with ⟨-, no⟩ | ⟨-, built⟩
    · cases no
  cases built
  exact ⟨some', rfl, fun _ => ⟨rfl, (fillPrpList_words _ _ _).2⟩⟩

/-- The addresses of a buffer, page by page. -/
theorem bufferAddresses_split (boot : Boot) (buf len first : Nat) :
    bufferAddresses boot buf len = (List.range (min len first)).map (buf - boot.hhdmOffset.toNat + ·) ++
      (List.range (len - first)).map fun i => buf - boot.hhdmOffset.toNat + first + i := by
  have parts : List.range len = List.range (min len first) ++ (List.range (len - first)).map (min len first + ·) := by
    rw [← List.range_add]
    congr 1
    omega
  rw [bufferAddresses, parts, List.map_append, List.map_map]
  congr 1
  refine List.map_congr_left fun i member => ?_
  grind

end Build

/-- The controller finds the buffer iff it does not touch exactly two pages, or the page that is
handed out for the list is the second one. -/
theorem prp_decodes_iff {boot : Boot} {s t : PrpMemory} {buf len : Nat} {prp : NvmePrp}
    (aligned : boot.hhdmOffset.toNat % 4096 = 0) (inside : boot.hhdmOffset.toNat ≤ buf) (room : buf + len ≤ 2 ^ 64)
    (built : nvmeBuildPrp boot s buf len = (some prp, t)) :
    prpAddresses t.words prp.prp1 prp.prp2 len = bufferAddresses boot buf len ↔
      pagesTouched buf len ≠ 2 ∨ (pmmAllocPage boot s.pmm).1 = (buf / 4096 + 1) * 4096 := by
  obtain ⟨some', prp1, listed⟩ := nvmeBuildPrp_some built
  rw [pmmVirtToPhys_eq inside (by omega)] at prp1
  have offset : prp.prp1 % 4096 = buf % 4096 := by omega
  rw [prpAddresses, offset, prp1, bufferAddresses_split boot buf len (4096 - buf % 4096), List.append_right_inj,
    List.map_inj_left]
  by_cases one : len ≤ 4096 - buf % 4096
  · have touched : pagesTouched buf len ≠ 2 := by
      unfold pagesTouched
      omega
    grind
  obtain ⟨prp2, words⟩ := listed (Nat.not_le.mp one)
  by_cases two : len ≤ 4096 - buf % 4096 + 4096
  · have touched : pagesTouched buf len = 2 := by
      unfold pagesTouched
      omega
    have second : buf - boot.hhdmOffset.toNat + (4096 - buf % 4096) = pmmVirtToPhys boot ((buf / 4096 + 1) * 4096) := by
      grind [pmmVirtToPhys_eq]
    have same := @pmmVirtToPhys_inj boot (pmmAllocPage boot s.pmm).1 ((buf / 4096 + 1) * 4096) (pmmAllocPage_lt boot s.pmm)
      (by omega)
    constructor
    · intro all
      have first := all 0 (List.mem_range.mpr (by omega))
      grind
    grind
  · have touched : pagesTouched buf len ≠ 2 := by
      unfold pagesTouched
      omega
    refine ⟨fun _ => .inl touched, fun _ i member => ?_⟩
    have below := List.mem_range.mp member
    have page : buf + (4096 - buf % 4096) + 4096 * (i / 4096) < 2 ^ 64 := by omega
    rw [if_neg two, words (i / 4096) (by omega), Nat.mod_eq_of_lt page, pmmVirtToPhys_eq (by omega) page]
    omega

/-- The memory of the tiny machine. -/
def tinyPrp : PrpMemory := ⟨Lib.outcome blankPmm (pmmInit tinyBoot blankPmm), fun _ => 0⟩

theorem prp_decodes_three : ∃ prp t, nvmeBuildPrp tinyBoot tinyPrp 0xFFFF800000008F00 0x1200 = (some prp, t) ∧
    prpAddresses t.words prp.prp1 prp.prp2 0x1200 = bufferAddresses tinyBoot 0xFFFF800000008F00 0x1200 := by
  have built : (nvmeBuildPrp tinyBoot tinyPrp 0xFFFF800000008F00 0x1200).1 =
      some ⟨0x8F00, 0x1000, 0xFFFF800000001000, 0x1000⟩ := by decide +kernel
  have whole : nvmeBuildPrp tinyBoot tinyPrp 0xFFFF800000008F00 0x1200 =
      (some ⟨0x8F00, 0x1000, 0xFFFF800000001000, 0x1000⟩, (nvmeBuildPrp tinyBoot tinyPrp 0xFFFF800000008F00 0x1200).2) :=
    Prod.ext built rfl
  exact ⟨_, _, whole, (prp_decodes_iff (by decide) (by decide) (by decide) whole).mpr (.inl (by decide))⟩

/-- A buffer of 512 bytes in two pages: the controller transfers the second half into the list. -/
theorem prp_second_page_lost : ∃ prp t, nvmeBuildPrp tinyBoot tinyPrp 0xFFFF800000008F00 0x200 = (some prp, t) ∧
    prpAddresses t.words prp.prp1 prp.prp2 0x200 = (List.range 0x100).map (0x8F00 + ·) ++ (List.range 0x100).map (0x1000 + ·) ∧
    bufferAddresses tinyBoot 0xFFFF800000008F00 0x200 = (List.range 0x200).map (0x8F00 + ·) ∧
    prpAddresses t.words prp.prp1 prp.prp2 0x200 ≠ bufferAddresses tinyBoot 0xFFFF800000008F00 0x200 := by
  have built : (nvmeBuildPrp tinyBoot tinyPrp 0xFFFF800000008F00 0x200).1 =
      some ⟨0x8F00, 0x1000, 0xFFFF800000001000, 0x1000⟩ := by decide +kernel
  have whole : nvmeBuildPrp tinyBoot tinyPrp 0xFFFF800000008F00 0x200 =
      (some ⟨0x8F00, 0x1000, 0xFFFF800000001000, 0x1000⟩, (nvmeBuildPrp tinyBoot tinyPrp 0xFFFF800000008F00 0x200).2) :=
    Prod.ext built rfl
  exact ⟨_, _, whole, by decide +kernel, by decide +kernel, by decide +kernel⟩

end Velox
