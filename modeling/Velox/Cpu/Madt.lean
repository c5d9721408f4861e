import Velox.Lib.Bytes
import Mathlib.Data.List.Basic

/-! The walk over the interrupt controller table in `arch/x86_64/cpu/madt.c`. A table is
the bytes from its first one on, so that the walk can read past its length. -/

namespace Velox

open Lib (Bytes le16 le32)

structure MadtLapicInfo where
  apicId : UInt8
  acpiUid : UInt8
  flags : Nat

structure MadtIoapicInfo where
  id : UInt8
  address : Nat
  gsiBase : Nat

structure MadtIsoInfo where
  irq : UInt8
  gsi : Nat
  polarity : Nat
  trigger : Nat

def madtMaxLapics : Nat := 256
def madtMaxIoapics : Nat := 8
def madtMaxIsos : Nat := 24

/-- The tables, and the offsets of the bytes that the walk has read. -/
structure Madt where
  lapics : List MadtLapicInfo := []
  ioapics : List MadtIoapicInfo := []
  isos : List MadtIsoInfo := []
  lapicAddress : Nat := 0
  reads : List Nat := []

def Madt.read (s : Madt) (offset size : Nat) : Madt :=
  { s with reads := (List.range size).map (offset + ·) ++ s.reads }

section Walk

variable (table : Bytes)

def madtLapic (p : Nat) : MadtLapicInfo := ⟨table (p + 3), table (p + 2), le32 table (p + 4)⟩

def madtIoapic (p : Nat) : MadtIoapicInfo := ⟨table (p + 2), le32 table (p + 4), le32 table (p + 8)⟩

def madtIso (p : Nat) : MadtIsoInfo :=
  let flags := le16 table (p + 8)
  ⟨table (p + 3), le32 table (p + 4), flags &&& 3, (flags >>> 2) &&& 3⟩

def madtLength (p : Nat) : Nat := (table (p + 1)).toNat

/-- The switch on the type of the record at `p`. -/
def madtRecord (p : Nat) (s : Madt) : Madt :=
  if table p = 0 then
    if madtLength table p < 8 then s
    else
      let s := s.read (p + 4) 4
      if le32 table (p + 4) &&& 1 = 0 ∧ le32 table (p + 4) &&& 2 = 0 then s
      else if s.lapics.length ≥ madtMaxLapics then s
      else { s.read (p + 2) 2 with lapics := s.lapics ++ [madtLapic table p] }
  else if table p = 1 then
    if madtLength table p < 12 then s
    else if s.ioapics.length ≥ madtMaxIoapics then s
    else { (s.read (p + 2) 1).read (p + 4) 8 with ioapics := s.ioapics ++ [madtIoapic table p] }
  else if table p = 2 then
    if madtLength table p < 10 then s
    else if s.isos.length ≥ madtMaxIsos then s
    else { s.read (p + 3) 7 with isos := s.isos ++ [madtIso table p] }
  else s

def madtWalk (length p : Nat) (s : Madt) : Madt :=
  if p < length then
    let s := s.read (p + 1) 1
    if madtLength table p < 2 ∨ p + madtLength table p > length then s
    else madtWalk length (p + madtLength table p) (madtRecord table p (s.read p 1))
  else s
termination_by length - p

/-- `madt_init` on the answer of `acpi_find_table`. -/
def madtInit : Option Bytes → Madt → Madt
  | none, s => s
  | some table, s => madtWalk table (le32 table 4) 44 { s with lapicAddress := le32 table 36 }

end Walk

section Records

variable (table : Bytes) (length : Nat)

/-- Consecutive records from `p` to `q`, each of two bytes or more and inside the table. -/
inductive MadtRecords : Nat → List Nat → Nat → Prop where
  | nil : MadtRecords p [] p
  | cons (header : 2 ≤ madtLength table p) (fits : p + madtLength table p ≤ length)
      (rest : MadtRecords (p + madtLength table p) records q) : MadtRecords p (p :: records) q

def lapicUsable (p : Nat) : Bool :=
  table p = 0 ∧ 8 ≤ madtLength table p ∧ (le32 table (p + 4) &&& 1 ≠ 0 ∨ le32 table (p + 4) &&& 2 ≠ 0)

def ioapicUsable (p : Nat) : Bool := table p = 1 ∧ 12 ≤ madtLength table p

def isoUsable (p : Nat) : Bool := table p = 2 ∧ 10 ≤ madtLength table p

/-- One more entry for a usable record, as long as there is room. -/
def collect {α : Type} (room : Nat) (usable : Nat → Bool) (info : Nat → α) (entries : List α) (p : Nat) : List α :=
  if usable p ∧ entries.length < room then entries ++ [info p] else entries

variable {table length} {p : Nat} {s : Madt}

theorem foldl_collect {α : Type} {room : Nat} {usable : Nat → Bool} {info : Nat → α} (records : List Nat)
    {entries : List α} (fits : entries.length ≤ room) : records.foldl (collect room usable info) entries =
      (entries ++ (records.filter usable).map info).take room := by
  induction records generalizing entries with
  | nil => simp [List.take_of_length_le fits]
  | cons p rest ih =>
    rw [List.foldl_cons, collect]
    by_cases good : usable p
    · grind
    grind

theorem madtRecord_tables (table : Bytes) (p : Nat) (s : Madt) :
    (madtRecord table p s).lapics = collect madtMaxLapics (lapicUsable table) (madtLapic table) s.lapics p ∧
    (madtRecord table p s).ioapics = collect madtMaxIoapics (ioapicUsable table) (madtIoapic table) s.ioapics p ∧
    (madtRecord table p s).isos = collect madtMaxIsos (isoUsable table) (madtIso table) s.isos p := by
  simp only [madtRecord, collect, lapicUsable, ioapicUsable, isoUsable]
  grind [Madt.read]

/-- Only bytes of the record are read. -/
theorem madtRecord_reads (table : Bytes) (p : Nat) (s : Madt) :
    ∃ fields, (madtRecord table p s).reads = fields ++ s.reads ∧ ∀ offset ∈ fields, offset < p + madtLength table p := by
  have none' : ∃ fields, s.reads = fields ++ s.reads ∧ ∀ offset ∈ fields, offset < p + madtLength table p := ⟨[], by simp⟩
  simp only [madtRecord]
  split_ifs
  · exact none'
  · exact ⟨_, rfl, by simp; omega⟩
  · exact ⟨_, rfl, by simp; omega⟩
  · exact ⟨_, (List.append_assoc _ _ _).symm, by simp; omega⟩
  · exact none'
  · exact none'
  · exact ⟨_, (List.append_assoc _ _ _).symm, by simp; omega⟩
  · exact none'
  · exact none'
  · exact ⟨_, rfl, by simp; omega⟩
  · exact none'

theorem MadtRecords.eq_nil (records : MadtRecords table length p offsets q)
    (unfit : madtLength table p < 2 ∨ p + madtLength table p > length) : offsets = [] ∧ q = p := by
  cases records with
  | nil => exact ⟨rfl, rfl⟩
  | cons header fits => omega

/-- The walk takes the longest sequence of records. -/
theorem madtWalk_tables (table : Bytes) (length p : Nat) (s : Madt) : ∃ records q, MadtRecords table length p records q ∧
    (∀ other q', MadtRecords table length p other q' → other <+: records) ∧
    (madtWalk table length p s).lapics =
      records.foldl (collect madtMaxLapics (lapicUsable table) (madtLapic table)) s.lapics ∧
    (madtWalk table length p s).ioapics =
      records.foldl (collect madtMaxIoapics (ioapicUsable table) (madtIoapic table)) s.ioapics ∧
    (madtWalk table length p s).isos =
      records.foldl (collect madtMaxIsos (isoUsable table) (madtIso table)) s.isos := by
  fun_induction madtWalk table length p s with
  | case1 p s inside s' unfit =>
    exact ⟨[], p, .nil, fun other q' chain => by simp [(chain.eq_nil unfit).1], rfl, rfl, rfl⟩
  | case2 p s inside s' fit ih =>
    obtain ⟨records, q, chain, longest, lapics, ioapics, isos⟩ := ih
    obtain ⟨lapics', ioapics', isos'⟩ := madtRecord_tables table p (s'.read p 1)
    refine ⟨p :: records, q, .cons (by omega) (by omega) chain, fun other q' chain' => ?_, ?_, ?_, ?_⟩
    · cases chain' with
      | nil => simp
      | cons header fits rest => grind
    · rw [lapics, lapics']
      rfl
    · rw [ioapics, ioapics']
      rfl
    · rw [isos, isos']
      rfl
  | case3 p s outside =>
    exact ⟨[], p, .nil, fun other q' chain => by simp [(chain.eq_nil (by omega)).1], rfl, rfl, rfl⟩

/-- The walk reads past the table iff it comes to the last byte of it. -/
theorem madtWalk_reads_iff (table : Bytes) (length p : Nat) (s : Madt) :
    (∀ offset ∈ (madtWalk table length p s).reads, offset < length) ↔
      (∀ offset ∈ s.reads, offset < length) ∧ ∀ records q, MadtRecords table length p records q → q + 1 ≠ length := by
  fun_induction madtWalk table length p s with
  | case1 p s inside s' unfit =>
    rw [show s'.reads = (p + 1) :: s.reads from rfl, List.forall_mem_cons, and_comm]
    refine and_congr_right fun _ => ⟨fun below records q chain => ?_, fun apart => ?_⟩
    · rw [(chain.eq_nil unfit).2]
      omega
    · have different := apart [] p .nil
      omega
  | case2 p s inside s' fit ih =>
    obtain ⟨fields, reads, within⟩ := madtRecord_reads table p (s'.read p 1)
    rw [ih, reads, show (s'.read p 1).reads = p :: (p + 1) :: s.reads from rfl]
    simp only [List.forall_mem_append, List.forall_mem_cons]
    refine and_congr ⟨fun all => all.2.2.2, fun all => ⟨fun offset member => ?_, inside, by omega, all⟩⟩ ⟨?_, ?_⟩
    · grind
    · intro apart records q chain
      cases chain with
      | nil => omega
      | cons header fits rest => exact apart _ _ rest
    · exact fun apart records q chain => apart _ _ (.cons (by omega) (by omega) chain)
  | case3 p s outside =>
    refine (and_iff_left fun records q chain => ?_).symm
    rw [(chain.eq_nil (by omega)).2]
    omega

end Records

end Velox
