import Velox.Mm.PageMap

/-! Several processors on the kernel address space: their TLBs, the shootdown interrupts on their
way, and the steps of `paging_map_page`, `paging_unmap_page` and `vfree`. -/

namespace Velox

/-- What `kernel/ipi.c` reads: `g_cpus` in order, and whether the interrupt
controller and the handlers are set up. -/
structure SmpConfig (Cpu : Type) where
  cpus : List Cpu
  online : Cpu → Bool
  apicId : Cpu → Nat
  ipiReady : Bool
  lapicReady : Bool

variable {Cpu : Type}

/-- The processors `ipi_broadcast_vector` sends to, the sender left out. -/
def ipiBroadcastVector (cfg : SmpConfig Cpu) (self : Cpu) : List Cpu :=
  if !cfg.lapicReady then []
  else cfg.cpus.filter fun cpu => cfg.online cpu && cfg.apicId cpu != cfg.apicId self

def ipiTlbShootdown (cfg : SmpConfig Cpu) (self : Cpu) : List Cpu :=
  if !cfg.ipiReady || cfg.cpus.length ≤ 1 then [] else ipiBroadcastVector cfg self

/-- The first half of `paging_unmap_page_locked`, up to the cleared entry. -/
def pagingClearPage (s : Paging) (rootPml4Phys virtAddr : Nat) : Except Panic (Option Nat × Paging) := do
  match ← walkToPte s rootPml4Phys virtAddr false false with
  | (none, s) => return (none, s)
  | (some pte, s) =>
    let entry := s.tables pte.table pte.index
    if (entry &&& pagePresent) = 0 then return (none, s)
    return (some (entry &&& entryAddrMask4k), s.setEntry pte.table pte.index 0)

/-- The second half frees the tables that became empty. -/
theorem pagingUnmapPage_halves (s : Paging) (root virtAddr : Nat) : pagingUnmapPage s root virtAddr = do
      match ← pagingClearPage s root virtAddr with
      | (none, s) => return (none, s)
      | (some frame, s) => return (some frame, freeEmptyTables s root virtAddr) := by
  simp only [pagingUnmapPageLocked, pagingClearPage, bind, Except.bind]
  cases walkToPte s root virtAddr false false with
  | error fault => rfl
  | ok walked =>
    obtain ⟨pte, t⟩ := walked
    cases pte with
    | none => rfl
    | some pte =>
      dsimp only
      split <;> rfl

/-- What follows the shootdown of a changed entry: nothing after a mapping; after
an unmapping the empty tables go, and with `vfree` the frame. -/
inductive After where
  | mapped
  | unmapped (freed : Option Nat)
deriving DecidableEq, Repr

/-- Where a processor stands in the paging code. From `invlpg` to `prune` it holds
the paging lock; at `release` it is back in `vfree`, before `pmm_free_page_phys`. -/
inductive Stage (Cpu : Type) where
  | idle
  | invlpg (virtAddr : Nat) (after : After)
  | send (virtAddr : Nat) (after : After) (targets : List Cpu)
  | prune (virtAddr : Nat) (freed : Option Nat)
  | release (virtAddr frame : Nat)
deriving DecidableEq, Repr

/-- `tlb` holds the frame a processor has cached for a page, `inFlight` the targets
of the shootdowns not yet delivered. Two records are kept beside the machine's own
state: the frames the kernel got from the physical allocator and still owns, and
the pages whose frame `vfree` gave back and that were not mapped to it since. -/
structure Smp (Cpu : Type) where
  paging : Paging
  tlb : Cpu → Fin (2 ^ 36) → Option Nat
  inFlight : List Cpu
  stage : Cpu → Stage Cpu
  lock : Option Cpu
  owned : List Nat
  released : List (Fin (2 ^ 36) × Nat)

inductive SmpOp (Cpu : Type) where
  | alloc (cpu : Cpu)
  | map (cpu : Cpu) (virtAddr physAddr flags : Nat)
  | unmap (cpu : Cpu) (virtAddr : Nat) (free : Bool)
  | advance (cpu : Cpu)
  | free (cpu : Cpu)
  | fill (cpu : Cpu) (page : Fin (2 ^ 36))
  | evict (cpu : Cpu) (page : Fin (2 ^ 36))
  | deliver (cpu : Cpu)
deriving DecidableEq

def SmpOp.cpu : SmpOp Cpu → Cpu
  | .alloc cpu | .map cpu _ _ _ | .unmap cpu _ _ | .advance cpu | .free cpu | .fill cpu _ | .evict cpu _
  | .deliver cpu => cpu

namespace Smp

def root (s : Smp Cpu) : Nat := s.paging.info.rootPml4Phys

/-- The frame the tables give to a page. -/
def translated (s : Smp Cpu) (page : Fin (2 ^ 36)) : Option Nat :=
  pagingTranslate s.paging s.root (page * 4096)

/-- Before the first use of the address space: the TLBs are empty. -/
def start (paging : Paging) : Smp Cpu where
  paging := paging
  tlb := fun _ _ => none
  inFlight := []
  stage := fun _ => .idle
  lock := none
  owned := []
  released := []

variable [DecidableEq Cpu]

def setStage (s : Smp Cpu) (cpu : Cpu) (stage : Stage Cpu) : Smp Cpu :=
  { s with stage := Function.update s.stage cpu stage }

def setTlb (s : Smp Cpu) (cpu : Cpu) (page : Fin (2 ^ 36)) (frame : Option Nat) : Smp Cpu :=
  { s with tlb := Function.update s.tlb cpu (Function.update (s.tlb cpu) page frame) }

/-- The next step of a processor inside the paging code. -/
def advance (cfg : SmpConfig Cpu) (s : Smp Cpu) (cpu : Cpu) : Option (Smp Cpu) :=
  match s.stage cpu with
  | .invlpg virtAddr after =>
    some ((s.setTlb cpu (virtPage virtAddr) none).setStage cpu (.send virtAddr after (ipiTlbShootdown cfg cpu)))
  | .send virtAddr after (target :: rest) =>
    some ({ s with inFlight := target :: s.inFlight }.setStage cpu (.send virtAddr after rest))
  | .send _ .mapped [] => some ({ s with lock := none }.setStage cpu .idle)
  | .send virtAddr (.unmapped freed) [] => some (s.setStage cpu (.prune virtAddr freed))
  | .prune virtAddr freed =>
    let s := { s with paging := freeEmptyTables s.paging s.root virtAddr, lock := none }
    match freed with
    | some frame => some (s.setStage cpu (.release virtAddr frame))
    | none => some (s.setStage cpu .idle)
  | .idle | .release _ _ => none

end Smp

variable [DecidableEq Cpu]

/-- One step of one online processor; a step that is not possible is refused. The
kernel maps frames it owns or memory outside the allocator's range, and gives to
`vfree` only pages whose frame it owns. -/
def smpStep (cfg : SmpConfig Cpu) (s : Smp Cpu) (op : SmpOp Cpu) : Except (Lib.Halt Panic) (Option Nat × Smp Cpu) :=
  if !cfg.online op.cpu then .error .misuse
  else
    match op with
    | .alloc cpu =>
      if s.stage cpu ≠ .idle then .error .misuse
      else
        match pmmTryAllocPagePhys s.paging.pmm with
        | (none, pmm) => .ok (none, { s with paging := { s.paging with pmm := pmm } })
        | (some frame, pmm) =>
          .ok (some frame, { s with paging := { s.paging with pmm := pmm }, owned := frame :: s.owned })
    | .map cpu virtAddr physAddr flags =>
      if s.stage cpu ≠ .idle ∨ s.lock ≠ none then .error .misuse
      else if ¬ (physAddr < 2 ^ 52 ∧ (physAddr ∈ s.owned ∨ s.paging.pmm.info.totalPages ≤ physAddr / 4096)) then
        .error .misuse
      else do
        let (ok, paging) ← Lib.attempt (pagingMapPage s.paging s.root virtAddr physAddr flags)
        let s := { s with paging := paging }
        if !ok then return (none, s)
        else
          return (some physAddr, { s with
            lock := some cpu
            released := s.released.filter (· ≠ (virtPage virtAddr, physAddr)) }.setStage cpu (.invlpg virtAddr .mapped))
    | .unmap cpu virtAddr free =>
      if s.stage cpu ≠ .idle ∨ s.lock ≠ none then .error .misuse
      else do
        match ← Lib.attempt (pagingClearPage s.paging s.root virtAddr) with
        | (none, paging) => return (none, { s with paging := paging })
        | (some frame, paging) =>
          let s := { s with paging := paging, lock := some cpu }
          if !free then return (some frame, s.setStage cpu (.invlpg virtAddr (.unmapped none)))
          else if frame ∉ s.owned then .error .misuse
          else
            return (some frame,
              { s with owned := s.owned.erase frame }.setStage cpu (.invlpg virtAddr (.unmapped (some frame))))
    | .advance cpu =>
      match s.advance cfg cpu with
      | some s => .ok (none, s)
      | none => .error .misuse
    | .free cpu =>
      match s.stage cpu with
      | .release virtAddr frame =>
        .ok (some frame, { s with
          paging := { s.paging with pmm := pmmFreePagePhys s.paging.pmm frame }
          released := (virtPage virtAddr, frame) :: s.released }.setStage cpu .idle)
      | _ => .error .misuse
    | .fill cpu page =>
      match s.translated page with
      | some frame => .ok (some frame, s.setTlb cpu page (some frame))
      | none => .error .misuse
    | .evict cpu page => .ok (none, s.setTlb cpu page none)
    | .deliver cpu =>
      if cpu ∈ s.inFlight then
        .ok (none, { s with
          inFlight := s.inFlight.erase cpu
          tlb := Function.update s.tlb cpu fun _ => none })
      else .error .misuse

end Velox
