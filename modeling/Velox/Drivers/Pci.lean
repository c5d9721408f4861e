import Velox.Lib.Traversal

/-! The enumeration of `arch/x86_64/drivers/block/pci.c`: a scan of the buses that
goes down every bridge it meets. -/

namespace Velox

variable {f : PciFunction} {bus : UInt8}

/-- What the data port answers, by the word written to the address port. -/
abbrev PciConfig := UInt32 → UInt32

structure PciFunction where
  bus : UInt8
  device : UInt8
  function : UInt8
deriving DecidableEq

def pciRead32 (config : PciConfig) (f : PciFunction) (offset : UInt8) : UInt32 :=
  config (((1 : UInt32) <<< 31) ||| (f.bus.toUInt32 <<< 16) ||| (f.device.toUInt32 <<< 11) |||
    (f.function.toUInt32 <<< 8) ||| (offset &&& 0xFC).toUInt32)

def pciRead16 (config : PciConfig) (f : PciFunction) (offset : UInt8) : UInt16 :=
  ((pciRead32 config f offset >>> ((offset &&& 2) * 8).toUInt32) &&& 0xFFFF).toUInt16

def pciRead8 (config : PciConfig) (f : PciFunction) (offset : UInt8) : UInt8 :=
  ((pciRead32 config f offset >>> ((offset &&& 3) * 8).toUInt32) &&& 0xFF).toUInt8

structure PciDevice extends PciFunction where
  vendorId : UInt16
  deviceId : UInt16
  command : UInt16
  status : UInt16
  classCode : UInt8
  subclass : UInt8
  progIf : UInt8
  revision : UInt8
  headerType : UInt8
  irqPin : UInt8
  irqLine : UInt8
  bars : List UInt32
deriving DecidableEq

def pciBars (config : PciConfig) (f : PciFunction) : List UInt32 :=
  let type := pciRead8 config f 0x0E &&& 0x7F
  if type = 0x00 then (List.range 6).map fun i => pciRead32 config f (0x10 + UInt8.ofNat i * 4)
  else if type = 0x01 then [pciRead32 config f 0x10, pciRead32 config f 0x14, 0, 0, 0, 0]
  else [0, 0, 0, 0, 0, 0]

/-- The node that `pci_scan_function` fills in. -/
def pciDevice (config : PciConfig) (f : PciFunction) : PciDevice :=
  { f with
    vendorId := pciRead16 config f 0x00
    deviceId := pciRead16 config f 0x02
    command := pciRead16 config f 0x04
    status := pciRead16 config f 0x06
    classCode := pciRead8 config f 0x0B
    subclass := pciRead8 config f 0x0A
    progIf := pciRead8 config f 0x09
    revision := pciRead8 config f 0x08
    headerType := pciRead8 config f 0x0E
    irqPin := pciRead8 config f 0x3D
    irqLine := pciRead8 config f 0x3C
    bars := pciBars config f }

/-- `deviceList` from its head on. The calls of `vmalloc` are counted, and `dropped` holds
the functions that the message about a failed one names. -/
structure PciState where
  deviceList : List PciDevice := []
  deviceCount : Nat := 0
  vmallocs : Nat := 0
  dropped : List PciFunction := []
deriving DecidableEq

section Scan

variable (config : PciConfig) (vmalloc : Nat → Bool)

/-- `scanBus` is the recursive call. -/
def pciScanFunction (scanBus : UInt8 → PciState → Option PciState) (f : PciFunction) (s : PciState) :
    Option PciState :=
  if pciRead16 config f 0x00 = 0xFFFF then some s
  else if !vmalloc s.vmallocs then
    some { s with vmallocs := s.vmallocs + 1, dropped := f :: s.dropped }
  else do
    let s := { s with vmallocs := s.vmallocs + 1 }
    let dev := pciDevice config f
    let secondaryBus := pciRead8 config f 0x19
    let s ← if dev.headerType &&& 0x7F = 0x01 ∧ secondaryBus ≠ 0 then scanBus secondaryBus s else some s
    return { s with deviceList := dev :: s.deviceList, deviceCount := s.deviceCount + 1 }

def pciScanDevice (scanBus : UInt8 → PciState → Option PciState) (bus device : UInt8) (s : PciState) :
    Option PciState :=
  if pciRead16 config ⟨bus, device, 0⟩ 0x00 = 0xFFFF then some s
  else do
    let headerType := pciRead8 config ⟨bus, device, 0⟩ 0x0E
    let s ← pciScanFunction config vmalloc scanBus ⟨bus, device, 0⟩ s
    if headerType &&& 0x80 ≠ 0 then
      [1, 2, 3, 4, 5, 6, 7].foldlM (fun s fn => pciScanFunction config vmalloc scanBus ⟨bus, device, fn⟩ s) s
    else return s

def pciDevices : List UInt8 := (List.range 32).map UInt8.ofNat

/-- `none` when the calls nest deeper than `fuel`. -/
def pciScanBus : Nat → UInt8 → PciState → Option PciState
  | 0, _, _ => none
  | fuel + 1, bus, s => pciDevices.foldlM (fun s dev => pciScanDevice config vmalloc (pciScanBus fuel) bus dev s) s

def pciEnumerate (fuel : Nat) : Option PciState := pciScanBus config vmalloc fuel 0 {}

end Scan

section Purpose

variable (config : PciConfig)

def PciPresent (f : PciFunction) : Prop := pciRead16 config f 0x00 ≠ 0xFFFF

instance (f : PciFunction) : Decidable (PciPresent config f) := inferInstanceAs (Decidable (_ ≠ _))

/-- The functions of a device that are there: function 0 decides about the others. -/
def pciDeviceFunctions (bus device : UInt8) : List PciFunction :=
  if PciPresent config ⟨bus, device, 0⟩ then
    let more := if pciRead8 config ⟨bus, device, 0⟩ 0x0E &&& 0x80 ≠ 0 then [1, 2, 3, 4, 5, 6, 7] else []
    ((0 :: more).map (PciFunction.mk bus device)).filter (PciPresent config ·)
  else []

def pciFunctions (bus : UInt8) : List PciFunction := pciDevices.flatMap (pciDeviceFunctions config bus)

/-- The bus behind a bridge. -/
def pciSecondary (f : PciFunction) : Option UInt8 :=
  if pciRead8 config f 0x0E &&& 0x7F = 0x01 ∧ pciRead8 config f 0x19 ≠ 0 then some (pciRead8 config f 0x19) else none

/-- Present on bus 0, or on the bus behind a bridge that is reachable. -/
def PciReachable (f : PciFunction) : Prop := Lib.Reachable (pciFunctions config) (pciSecondary config) 0 f

/-- One node for each reachable function, filled in from its configuration space. -/
structure PciEnumerated (s : PciState) : Prop where
  once : (s.deviceList.map PciDevice.toPciFunction).Nodup
  found : ∀ f, f ∈ s.deviceList.map PciDevice.toPciFunction ↔ PciReachable config f
  filled : ∀ dev ∈ s.deviceList, dev = pciDevice config dev.toPciFunction
  count : s.deviceCount = s.deviceList.length

/-- The state behind a scan that found `out`. -/
def PciState.add (s : PciState) (out : List PciFunction) : PciState :=
  { s with
    deviceList := (out.map (pciDevice config)).reverse ++ s.deviceList
    deviceCount := s.deviceCount + out.length
    vmallocs := s.vmallocs + out.length }

variable {config} {vmalloc : Nat → Bool} {visit : UInt8 → Option (List PciFunction)}

theorem PciState.add_append (s : PciState) (first second : List PciFunction) :
    s.add config (first ++ second) = (s.add config first).add config second := by
  simp [PciState.add, Nat.add_assoc]

theorem foldlM_add {α : Type} {step : PciState → α → Option PciState} {items : α → List PciFunction} (todo : List α)
    (each : ∀ s x, step s x = (Lib.visitItems (pciSecondary config) visit (items x)).map (s.add config)) (s : PciState) :
    todo.foldlM step s = (Lib.visitItems (pciSecondary config) visit (todo.flatMap items)).map (s.add config) := by
  induction todo generalizing s with
  | nil => simp [Lib.visitItems, PciState.add]
  | cons x rest ih =>
    rw [List.foldlM_cons, List.flatMap_cons, Lib.visitItems_append, each]
    cases Lib.visitItems (pciSecondary config) visit (items x) with
    | none => rfl
    | some first =>
      simp only [Option.map_some, Option.bind_eq_bind, Option.bind_some, ih, Option.map_map]
      exact congrArg (Option.map · _) (funext fun second => (s.add_append first second).symm)

section Runs

variable {scanBus : UInt8 → PciState → Option PciState} (succeeds : ∀ call, vmalloc call = true)
  (buses : ∀ bus s, scanBus bus s = (visit bus).map (s.add config))
include succeeds buses

theorem pciScanFunction_add (f : PciFunction) (s : PciState) : pciScanFunction config vmalloc scanBus f s =
      (Lib.visitItems (pciSecondary config) visit ([f].filter (PciPresent config ·))).map (s.add config) := by
  by_cases present : PciPresent config f
  · have vendor : ¬ pciRead16 config f 0x00 = 0xFFFF := present
    simp only [pciScanFunction, if_neg vendor, succeeds, Bool.not_true, Bool.false_eq_true, if_false]
    rw [show [f].filter (PciPresent config ·) = [f] by simp [present]]
    simp only [Lib.visitItems, pciSecondary, buses, show (pciDevice config f).headerType = pciRead8 config f 0x0E from rfl]
    split
    · cases found : visit (pciRead8 config f 0x19) with
      | none => simp [found]
      | some below => simp [found, PciState.add, Nat.add_assoc, Nat.add_comm 1]
    · simp [PciState.add]
  · have vendor : pciRead16 config f 0x00 = 0xFFFF := not_not.mp present
    simp [pciScanFunction, vendor, present, Lib.visitItems, PciState.add]

theorem pciScanDevice_add (bus device : UInt8) (s : PciState) : pciScanDevice config vmalloc scanBus bus device s =
      (Lib.visitItems (pciSecondary config) visit (pciDeviceFunctions config bus device)).map (s.add config) := by
  by_cases present : PciPresent config ⟨bus, device, 0⟩
  · have vendor : ¬ pciRead16 config ⟨bus, device, 0⟩ 0x00 = 0xFFFF := present
    have all := fun fns => foldlM_add fns (fun s fn => pciScanFunction_add succeeds buses ⟨bus, device, fn⟩ s) s
    have split' : ∀ fns : List UInt8, (fns.map (PciFunction.mk bus device)).filter (PciPresent config ·) =
        fns.flatMap fun fn => [⟨bus, device, fn⟩].filter (PciPresent config ·) := by
      intro fns
      induction fns with
      | nil => rfl
      | cons fn rest ih =>
        grind
    rw [pciDeviceFunctions, if_pos present, split', ← all, pciScanDevice, if_neg vendor, List.foldlM_cons]
    grind
  · have vendor : pciRead16 config ⟨bus, device, 0⟩ 0x00 = 0xFFFF := not_not.mp present
    simp [pciScanDevice, vendor, pciDeviceFunctions, present, Lib.visitItems, PciState.add]

end Runs

theorem pciScanBus_add (succeeds : ∀ call, vmalloc call = true) (fuel : Nat) (bus : UInt8) (s : PciState) :
    pciScanBus config vmalloc fuel bus s =
      (Lib.visit (pciFunctions config) (pciSecondary config) fuel bus).map (s.add config) := by
  induction fuel generalizing bus s with
  | zero => rfl
  | succ fuel ih => exact foldlM_add pciDevices (fun s dev => pciScanDevice_add succeeds ih bus dev s) s

theorem pciDeviceFunctions_mem {device : UInt8} (member : f ∈ pciDeviceFunctions config bus device) :
    f.bus = bus ∧ f.device = device := by
  rw [pciDeviceFunctions] at member
  grind

theorem pciFunctions_bus (member : f ∈ pciFunctions config bus) : f.bus = bus := by
  obtain ⟨device, -, member⟩ := List.mem_flatMap.mp member
  exact (pciDeviceFunctions_mem member).1

theorem pciFunctions_nodup (bus : UInt8) : (pciFunctions config bus).Nodup := by
  refine List.nodup_flatMap.mpr ⟨fun device _ => ?_, ?_⟩
  · rw [pciDeviceFunctions]
    split
    · refine (List.Nodup.map (fun _ _ same => (PciFunction.mk.inj same).2.2) ?_).filter _
      split <;> decide
    · exact .nil
  · have different : pciDevices.Pairwise (· ≠ ·) := by decide
    refine different.imp fun apart => List.disjoint_left.mpr fun f member member' => apart ?_
    rw [← (pciDeviceFunctions_mem member).2, (pciDeviceFunctions_mem member').2]

theorem pciSecondary_ne_zero (f : PciFunction) : pciSecondary config f ≠ some 0 := by
  rw [pciSecondary]
  simp

instance : Finite PciFunction :=
  .of_injective (fun f : PciFunction => (f.bus.toFin, f.device.toFin, f.function.toFin)) fun f g same => by
    simp only [Prod.mk.injEq, UInt8.toFin_inj] at same
    cases f
    simp_all

/-- When `vmalloc` succeeds, an enumeration is a traversal of the buses. -/
theorem pciEnumerated_iff_listed (succeeds : ∀ call, vmalloc call = true) :
    (∃ fuel s, pciEnumerate config vmalloc fuel = some s ∧ PciEnumerated config s) ↔
      ∃ out, Lib.Listed (pciFunctions config) (pciSecondary config) (pciFunctions config 0) out ∧ out.Nodup := by
  have names : ∀ out, ((({} : PciState).add config out).deviceList.map PciDevice.toPciFunction) = out.reverse := by
    simp [PciState.add, Function.comp_def, pciDevice]
  simp only [pciEnumerate, pciScanBus_add succeeds, Option.map_eq_some_iff]
  constructor
  · rintro ⟨fuel, s, ⟨out, ended, rfl⟩, once, -, -, -⟩
    grind [List.nodup_reverse, Lib.visit_listed]
  · rintro ⟨out, listed, once⟩
    obtain ⟨fuel, ended⟩ := Lib.exists_visit_iff.mpr listed
    refine ⟨fuel, _, ⟨out, ended, rfl⟩, ?_, fun f => ?_, ?_, ?_⟩
    · grind
    · rw [names, List.mem_reverse, listed.mem_iff, PciReachable, Lib.reachable_iff]
    · simp [PciState.add, pciDevice]
    · simp [PciState.add]

theorem pciListed_nodup_iff :
    (∃ out, Lib.Listed (pciFunctions config) (pciSecondary config) (pciFunctions config 0) out ∧ out.Nodup) ↔
      Lib.OneParent (pciFunctions config) (pciSecondary config) 0 :=
  Lib.exists_listed_nodup_iff pciFunctions_nodup
    (fun member member' => (pciFunctions_bus member).symm.trans (pciFunctions_bus member')) pciSecondary_ne_zero

end Purpose

/-- The enumeration ends with one node for each reachable function iff no two reachable bridges
have one secondary bus with a function on it. -/
theorem pci_enumerate_iff (config : PciConfig) {vmalloc : Nat → Bool} (succeeds : ∀ call, vmalloc call = true) :
    (∃ fuel s, pciEnumerate config vmalloc fuel = some s ∧ PciEnumerated config s) ↔
      ∀ first second bus, PciReachable config first → PciReachable config second →
        pciSecondary config first = some bus → pciSecondary config second = some bus →
        pciFunctions config bus ≠ [] → first = second := by
  rw [pciEnumerated_iff_listed succeeds, pciListed_nodup_iff]
  exact ⟨fun one _ _ _ reached reached' => one reached reached', fun one => one _ _ _⟩

/-- A machine with a bridge at 00:00.0 to bus 1, where 01:00.0 has the given header type; both
name bus 1 as their secondary one. -/
def twoFunctions (header : UInt32) : PciConfig := fun word =>
  if word = 0x80000000 ∨ word = 0x80010000 then 0x12341234
  else if word = 0x8000000C then 0x00010000
  else if word = 0x8001000C then header <<< 16
  else if word = 0x80000018 ∨ word = 0x80010018 then 0x0100
  else if word &&& 0xFC = 0 then 0xFFFFFFFF else 0

theorem pci_enumerate_bridge :
    ∃ fuel s, pciEnumerate (twoFunctions 0) (fun _ => true) fuel = some s ∧ PciEnumerated (twoFunctions 0) s := by
  have only : ∀ f, PciReachable (twoFunctions 0) f → f = ⟨0, 0, 0⟩ ∨ f = ⟨1, 0, 0⟩ := by
    have zero : pciFunctions (twoFunctions 0) 0 = [⟨0, 0, 0⟩] := by decide +kernel
    have one : pciFunctions (twoFunctions 0) 1 = [⟨1, 0, 0⟩] := by decide +kernel
    intro f reached
    induction reached with
    | root member => grind
    | under _ next ih =>
      obtain ⟨bus, leads, member⟩ := next
      rcases ih with rfl | rfl
      · rw [show pciSecondary (twoFunctions 0) ⟨0, 0, 0⟩ = some 1 by decide +kernel, Option.some.injEq] at leads
        grind
      · rw [show pciSecondary (twoFunctions 0) ⟨1, 0, 0⟩ = none by decide +kernel] at leads
        cases leads
  refine (pci_enumerate_iff (twoFunctions 0) fun _ => rfl).mpr fun first second bus reached reached' leads leads' _ => ?_
  have leaf : pciSecondary (twoFunctions 0) ⟨1, 0, 0⟩ = none := by decide +kernel
  grind

/-- A bridge on bus 1 whose secondary bus is bus 1. -/
theorem pci_enumerate_own_bus :
    ¬ ∃ fuel s, pciEnumerate (twoFunctions 1) (fun _ => true) fuel = some s ∧ PciEnumerated (twoFunctions 1) s := by
  rw [pciEnumerated_iff_listed fun _ => rfl, pciListed_nodup_iff]
  intro one
  have first : pciSecondary (twoFunctions 1) ⟨0, 0, 0⟩ = some 1 := by decide +kernel
  have top : Lib.Reachable (pciFunctions (twoFunctions 1)) (pciSecondary (twoFunctions 1)) 0 ⟨0, 0, 0⟩ :=
    .root (by decide +kernel)
  have below := top.under ⟨1, first, show ⟨1, 0, 0⟩ ∈ _ by decide +kernel⟩
  have same := one top below first (by decide +kernel) (by decide +kernel)
  cases same

end Velox
