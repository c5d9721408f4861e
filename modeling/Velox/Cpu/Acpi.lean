import Velox.Cpu.Madt
import Velox.Drivers.NvmePrp

/-! The ACPI root table of `arch/x86_64/cpu/acpi.c` and the search for a table in it. -/

namespace Velox

open Lib (Bytes le16 le32)

/-- Zero is `NULL`. -/
def acpiPhysToVirt (boot : Boot) (addr : Nat) : Nat :=
  if addr = 0 then 0 else if addr &&& 2 ^ 63 ≠ 0 then addr else pmmPhysToVirt boot addr

/-- The bytes from an address on. -/
def tableAt (mem : Bytes) (base : Nat) : Bytes := fun i => mem ((base + i) % 2 ^ 64)

def acpiSig4Equal (table : Bytes) (sig : String) : Bool :=
  (List.range 4).map table = sig.toList.map Char.toUInt8

def sdtChecksumValid (table : Bytes) : Bool :=
  (List.range (le32 table 4)).foldl (fun sum i => sum + table i) 0 = 0

structure Acpi where
  xsdt : Nat := 0
  rsdt : Nat := 0
  xsdtEntryCount : Nat := 0
  rsdtEntryCount : Nat := 0

def sdtHeaderSize : Nat := 36

/-- The 64-bit difference of the length and the size of the header, in entries. -/
def tableSlots (table : Bytes) (entrySize : Nat) : Nat :=
  (le32 table 4 + 2 ^ 64 - sdtHeaderSize) % 2 ^ 64 / entrySize

/-- The first part of `acpi_init`: the root table that the RSDP names. -/
def acpiChooseRoot (boot : Boot) (rsdp : Bytes) : Except Panic Acpi :=
  let xsdtAddress := le32 rsdp 24 + 2 ^ 32 * le32 rsdp 28
  let rsdtAddress := le32 rsdp 16
  if rsdp 15 ≥ 2 ∧ xsdtAddress ≠ 0 then .ok { xsdt := acpiPhysToVirt boot xsdtAddress }
  else if rsdtAddress ≠ 0 then .ok { rsdt := acpiPhysToVirt boot rsdtAddress }
  else panic "acpi: no ACPI root table"

/-- The second part: its checks and the number of its entries. -/
def acpiCheckRoot (mem : Bytes) (s : Acpi) : Except Panic Acpi :=
  if s.xsdt ≠ 0 then
    let xsdt := tableAt mem s.xsdt
    if !acpiSig4Equal xsdt "XSDT" then panic "acpi: XSDT signature mismatch"
    else if !sdtChecksumValid xsdt then .ok { s with xsdt := 0 }
    else .ok { s with xsdtEntryCount := tableSlots xsdt 8 }
  else if s.rsdt ≠ 0 then
    let rsdt := tableAt mem s.rsdt
    if !acpiSig4Equal rsdt "RSDT" then panic "acpi: RSDT signature mismatch"
    else if !sdtChecksumValid rsdt then .ok { s with rsdt := 0 }
    else .ok { s with rsdtEntryCount := tableSlots rsdt 4 }
  else .ok s

def acpiInit (boot : Boot) (mem : Bytes) (rsdpAddress : Nat) : Except Panic Acpi :=
  if rsdpAddress = 0 then panic "acpi: limine did not provide an RSDP response"
  else acpiChooseRoot boot (tableAt mem (acpiPhysToVirt boot rsdpAddress)) >>= acpiCheckRoot mem

/-- What the search ends with, and the entries of the root table that it has read; a fault is
the access to a header at `NULL`. -/
inductive AcpiFind where
  | fault | missing
  | found (hdr : Nat)

/-- The loop of `acpi_find_table` from entry `i` on. -/
def acpiFindLoop (boot : Boot) (mem : Bytes) (sig : String) (entry : Nat → Nat) : Nat → Nat → AcpiFind × List Nat
  | 0, _ => (.missing, [])
  | remaining + 1, i =>
    let hdr := acpiPhysToVirt boot (entry i)
    if hdr = 0 then (.fault, [i])
    else if acpiSig4Equal (tableAt mem hdr) sig && sdtChecksumValid (tableAt mem hdr) then (.found hdr, [i])
    else
      let (result, later) := acpiFindLoop boot mem sig entry remaining (i + 1)
      (result, i :: later)

def xsdtEntry (table : Bytes) (i : Nat) : Nat := le32 table (36 + 8 * i) + 2 ^ 32 * le32 table (36 + 8 * i + 4)

def rsdtEntry (table : Bytes) (i : Nat) : Nat := le32 table (36 + 4 * i)

def acpiFindTable (boot : Boot) (mem : Bytes) (s : Acpi) (sig : String) : AcpiFind × List Nat :=
  if s.xsdt ≠ 0 then acpiFindLoop boot mem sig (xsdtEntry (tableAt mem s.xsdt)) s.xsdtEntryCount 0
  else if s.rsdt ≠ 0 then acpiFindLoop boot mem sig (rsdtEntry (tableAt mem s.rsdt)) s.rsdtEntryCount 0
  else (.missing, [])

/-- The root table in use and the size of its entries. -/
def Acpi.root (s : Acpi) : Option (Nat × Nat) :=
  if s.xsdt ≠ 0 then some (s.xsdt, 8) else if s.rsdt ≠ 0 then some (s.rsdt, 4) else none

section Entries

variable {boot : Boot} {mem : Bytes} {sig : String} {entry : Nat → Nat} {s : Acpi}

theorem acpiFindLoop_bounds {remaining start i : Nat} (member : i ∈ (acpiFindLoop boot mem sig entry remaining start).2) :
    start ≤ i ∧ i < start + remaining := by
  induction remaining generalizing start with
  | zero => cases member
  | succ remaining ih =>
    simp only [acpiFindLoop] at member
    grind

theorem acpiFindLoop_first {remaining start : Nat} (some' : 0 < remaining) :
    start ∈ (acpiFindLoop boot mem sig entry remaining start).2 := by
  cases remaining with
  | zero => cases some'
  | succ remaining =>
    simp only [acpiFindLoop]
    split_ifs <;> simp

/-- All entries are inside the root table iff its length covers the header. -/
theorem acpiFindLoop_inside_iff (table : Bytes) {size : Nat} (sized : size = 4 ∨ size = 8) :
    (∀ i ∈ (acpiFindLoop boot mem sig entry (tableSlots table size) 0).2, sdtHeaderSize + size * (i + 1) ≤ le32 table 4) ↔
      sdtHeaderSize ≤ le32 table 4 := by
  constructor
  · by_contra short
    -- The subtraction wraps, so that there is at least one entry.
    have count : 0 < tableSlots table size := by
      simp only [tableSlots, sdtHeaderSize] at short ⊢
      grind
    grind [acpiFindLoop_first]
  · intro covered i member
    obtain ⟨-, below⟩ := acpiFindLoop_bounds member
    simp only [tableSlots, sdtHeaderSize] at below covered ⊢
    grind

theorem acpiInit_count {rsdpAddress : Nat} (accepted : acpiInit boot mem rsdpAddress = .ok s) :
    (s.xsdt ≠ 0 → s.xsdtEntryCount = tableSlots (tableAt mem s.xsdt) 8) ∧
      (s.xsdt = 0 → s.rsdt ≠ 0 → s.rsdtEntryCount = tableSlots (tableAt mem s.rsdt) 4) := by
  rw [acpiInit] at accepted
  split at accepted
  · cases accepted
  · obtain ⟨first, chosen, accepted⟩ := Lib.bind_ok accepted
    have only : first.xsdt = 0 ∨ first.rsdt = 0 := by
      simp only [acpiChooseRoot] at chosen
      split_ifs at chosen <;> cases chosen
      · exact .inr rfl
      · exact .inl rfl
    simp only [acpiCheckRoot] at accepted
    split_ifs at accepted <;> cases accepted <;> simp_all

end Entries

/-- The memory of a machine whose RSDP at 2^63 names an XSDT at 2^63 + 64; the bytes of the two
tables follow one another. -/
def acpiMemory (rsdp xsdt : List UInt8) : Bytes := fun addr =>
  if addr < 2 ^ 63 + 64 then rsdp.getD (addr - 2 ^ 63) 0 else xsdt.getD (addr - (2 ^ 63 + 64)) 0

/-- Revision 2, with the address of the XSDT. -/
def rsdpBytes : List UInt8 := List.replicate 15 0 ++ [2] ++ List.replicate 8 0 ++ [64, 0, 0, 0, 0, 0, 0, 128]

def xsdtBytes (length checksum : UInt8) : List UInt8 := [88, 83, 68, 84, length, 0, 0, 0, 0, checksum]

def acpiBoot : Boot := ⟨[], 0, ⟨0, 0, 0⟩, 0, 0, 0, 0, 0⟩

end Velox
