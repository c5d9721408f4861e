import Velox.Mm.Paging

namespace Velox

variable {address flags : Nat}

/-- The table page an entry leads to, if it is present and not a huge page. -/
def tableChild (entry : Nat) : Option Nat :=
  if entry &&& pagePresent ≠ 0 ∧ entry &&& pagePs = 0 then some (entry &&& entryAddrMask4k) else none

@[simp] theorem tableChild_zero : tableChild 0 = none := by
  simp [tableChild]

theorem tableChild_eq_some {entry table : Nat} : tableChild entry = some table ↔
      entry &&& pagePresent ≠ 0 ∧ entry &&& pagePs = 0 ∧ entry &&& entryAddrMask4k = table := by
  unfold tableChild
  grind

/-- The address field of an entry holds every page-aligned address below `2^52`. -/
theorem mask4k_of_aligned (aligned : address % 4096 = 0) (small : address < 2 ^ 52) :
    address &&& entryAddrMask4k = address := by
  have block := Lib.and_block address (show 12 ≤ 52 by decide)
  have mask : entryAddrMask4k = 2 ^ 52 - 2 ^ 12 := by decide
  rw [mask, block]
  omega

theorem mask4k_aligned (entry : Nat) :
    (entry &&& entryAddrMask4k) % 4096 = 0 ∧ entry &&& entryAddrMask4k < 2 ^ 52 := by
  have block := Lib.and_block entry (show 12 ≤ 52 by decide)
  have mask : entryAddrMask4k = 2 ^ 52 - 2 ^ 12 := by decide
  rw [mask, block]
  omega

theorem mask2m_aligned (entry : Nat) :
    (entry &&& entryAddrMask2m) % 2 ^ 21 = 0 ∧ entry &&& entryAddrMask2m < 2 ^ 52 := by
  have block := Lib.and_block entry (show 21 ≤ 52 by decide)
  have mask : entryAddrMask2m = 2 ^ 52 - 2 ^ 21 := by decide
  rw [mask, block]
  omega

/-- A field that the address mask covers has no bit outside the mask. -/
private theorem masked_and {mask bits : Nat} (fixed : address &&& mask = address)
    (outside : mask &&& bits = 0) : address &&& bits = 0 := by
  grind

/-- Decoding of an entry built from an address field and flag bits. -/
theorem or_flags_mask (fixed : address &&& entryAddrMask4k = address)
    (outside : flags &&& entryAddrMask4k = 0) : (address ||| flags) &&& entryAddrMask4k = address := by
  grind

theorem or_flags_bit {bit : Nat} (fixed : address &&& entryAddrMask4k = address)
    (outside : entryAddrMask4k &&& bit = 0) : (address ||| flags) &&& bit = flags &&& bit := by
  grind

/-- The flag word of a new intermediate entry. -/
def linkFlags (user : Bool) : Nat := if user then 7 else 3

theorem link_entry_eq (table : Nat) (user : Bool) : (if user then table ||| pagePresent ||| pageWritable ||| pageUser
      else table ||| pagePresent ||| pageWritable) = table ||| linkFlags user := by
  cases user
  · simp only [linkFlags, Bool.false_eq_true, ↓reduceIte, Nat.or_assoc]
    rfl
  · simp only [linkFlags, ↓reduceIte, Nat.or_assoc]
    rfl

section Link

variable {table : Nat} (fixed : table &&& entryAddrMask4k = table) (user : Bool)
include fixed

theorem tableChild_link : tableChild (table ||| linkFlags user) = some table := by
  rw [tableChild_eq_some]
  refine ⟨?_, ?_, or_flags_mask fixed (by cases user <;> decide)⟩
  · rw [or_flags_bit fixed (by decide)]
    cases user <;> decide
  · rw [or_flags_bit fixed (by decide)]
    cases user <;> decide

theorem link_writable : (table ||| linkFlags user) &&& pageWritable ≠ 0 := by
  rw [or_flags_bit fixed (by decide)]
  cases user <;> decide

theorem link_user : (table ||| linkFlags user) &&& pageUser ≠ 0 ↔ user = true := by
  rw [or_flags_bit fixed (by decide)]
  cases user <;> decide

end Link

theorem tableChild_or_user (entry : Nat) : tableChild (entry ||| pageUser) = tableChild entry := by
  have present : (entry ||| pageUser) &&& pagePresent = entry &&& pagePresent := by
    rw [Nat.and_or_distrib_right, show pageUser &&& pagePresent = 0 by decide, Nat.or_zero]
  have size : (entry ||| pageUser) &&& pagePs = entry &&& pagePs := by
    rw [Nat.and_or_distrib_right, show pageUser &&& pagePs = 0 by decide, Nat.or_zero]
  have address : (entry ||| pageUser) &&& entryAddrMask4k = entry &&& entryAddrMask4k := by
    rw [Nat.and_or_distrib_right, show pageUser &&& entryAddrMask4k = 0 by decide, Nat.or_zero]
  simp only [tableChild, present, size, address]

/-- The flag word as a function of the six tests `paging_flags_to_hw` makes. -/
private def hwWord (writable user global through cache nx : Bool) : Nat :=
  let hw := 0
  let hw := if writable then hw ||| pageWritable else hw
  let hw := if user then hw ||| pageUser else hw
  let hw := if global then hw ||| pageGlobal else hw
  let hw := if through then hw ||| pagePwt else hw
  let hw := if cache then hw ||| pagePcd else hw
  if nx then hw ||| pageNx else hw

private theorem hwWord_bits : ∀ writable user global through cache nx : Bool,
    let word := hwWord writable user global through cache nx
    word &&& entryAddrMask4k = 0 ∧ word &&& pagePresent = 0 ∧
      (word &&& pageWritable ≠ 0 ↔ writable = true) ∧ (word &&& pageUser ≠ 0 ↔ user = true) ∧
      (word &&& pageNx ≠ 0 ↔ nx = true) := by
  decide

private theorem pagingFlagsToHw_eq (nx : Bool) (flags : Nat) :
    pagingFlagsToHw nx flags = hwWord (decide (flags &&& pagingFlagWritable ≠ 0))
      (decide (flags &&& pagingFlagUser ≠ 0)) (decide (flags &&& pagingFlagGlobal ≠ 0))
      (decide (flags &&& pagingFlagWriteThrough ≠ 0)) (decide (flags &&& pagingFlagNoCache ≠ 0))
      (decide (flags &&& pagingFlagExec = 0 ∧ nx = true)) := by
  simp only [pagingFlagsToHw, hwWord, decide_eq_true_eq]

/-- The hardware flags of a request, one bit for each flag of the interface. -/
theorem pagingFlagsToHw_bits (nx : Bool) (flags : Nat) :
    pagingFlagsToHw nx flags &&& entryAddrMask4k = 0 ∧ pagingFlagsToHw nx flags &&& pagePresent = 0 ∧
      (pagingFlagsToHw nx flags &&& pageWritable ≠ 0 ↔ flags &&& pagingFlagWritable ≠ 0) ∧
      (pagingFlagsToHw nx flags &&& pageUser ≠ 0 ↔ flags &&& pagingFlagUser ≠ 0) ∧
      (pagingFlagsToHw nx flags &&& pageNx ≠ 0 ↔ flags &&& pagingFlagExec = 0 ∧ nx = true) := by
  have bits := hwWord_bits (decide (flags &&& pagingFlagWritable ≠ 0))
    (decide (flags &&& pagingFlagUser ≠ 0)) (decide (flags &&& pagingFlagGlobal ≠ 0))
    (decide (flags &&& pagingFlagWriteThrough ≠ 0)) (decide (flags &&& pagingFlagNoCache ≠ 0))
    (decide (flags &&& pagingFlagExec = 0 ∧ nx = true))
  simp only [← pagingFlagsToHw_eq, decide_eq_true_eq] at bits
  exact bits

private theorem hwWord_global : ∀ writable user global through cache nx : Bool,
    hwWord writable user global through cache nx &&& pageGlobal ≠ 0 ↔ global = true := by
  decide

theorem pagingFlagsToHw_global (nx : Bool) (flags : Nat) :
    pagingFlagsToHw nx flags &&& pageGlobal ≠ 0 ↔ flags &&& pagingFlagGlobal ≠ 0 := by
  rw [pagingFlagsToHw_eq, hwWord_global, decide_eq_true_eq]

/-- Everything later modules read off a last-level entry that was written for
`address` with `flags`. -/
theorem leaf_entry_decodes (nx : Bool)
    (fixed : address &&& entryAddrMask4k = address) :
    let entry := address ||| (pagingFlagsToHw nx flags ||| pagePresent)
    entry &&& pagePresent ≠ 0 ∧ entry &&& entryAddrMask4k = address ∧
      (entry &&& pageWritable ≠ 0 ↔ flags &&& pagingFlagWritable ≠ 0) ∧
      (entry &&& pageUser ≠ 0 ↔ flags &&& pagingFlagUser ≠ 0) ∧
      (entry &&& pageNx ≠ 0 ↔ flags &&& pagingFlagExec = 0 ∧ nx = true) := by
  obtain ⟨address0, present0, writable, user, exec⟩ := pagingFlagsToHw_bits nx flags
  refine ⟨?_, ?_, ?_, ?_, ?_⟩
  · rw [or_flags_bit fixed (by decide), Lib.or_and_ne_zero]
    exact .inr (by decide)
  · exact or_flags_mask fixed ((Lib.or_and_eq_zero _ _ _).mpr ⟨address0, by decide⟩)
  · rw [or_flags_bit fixed (by decide), Nat.and_or_distrib_right,
      show pagePresent &&& pageWritable = 0 by decide, Nat.or_zero, writable]
  · rw [or_flags_bit fixed (by decide), Nat.and_or_distrib_right,
      show pagePresent &&& pageUser = 0 by decide, Nat.or_zero, user]
  · rw [or_flags_bit fixed (by decide), Nat.and_or_distrib_right,
      show pagePresent &&& pageNx = 0 by decide, Nat.or_zero, exec]

theorem tableIndex_val (virtAddr shift : Nat) : (tableIndex virtAddr shift).val = virtAddr / 2 ^ shift % 512 := by
  simp only [tableIndex, Nat.shiftRight_eq_div_pow]
  exact Nat.and_two_pow_sub_one_eq_mod _ 9

/-- The 36-bit number of the page an address lies in. -/
def pageNumber (virtAddr : Nat) : Nat := virtAddr / 4096 % 2 ^ 36

theorem pageNumber_lt (virtAddr : Nat) : pageNumber virtAddr < 2 ^ 36 :=
  Nat.mod_lt _ (by decide)

theorem pageNumber_eq_iff (v w : Nat) :
    pageNumber v = pageNumber w ↔ pml4Index v = pml4Index w ∧ pdptIndex v = pdptIndex w ∧
      pdIndex v = pdIndex w ∧ ptIndex v = ptIndex w := by
  simp only [pml4Index, pdptIndex, pdIndex, ptIndex, Fin.ext_iff, tableIndex_val, pageNumber]
  omega

end Velox
