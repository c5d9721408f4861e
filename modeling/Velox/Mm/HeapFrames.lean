import Velox.Mm.KmallocCost

namespace Velox

open Lib (Range)

variable {boot : Boot} {t : KmallocClient} {virtAddr : Nat}

/-- The address is a byte of a payload or of an area that a client holds. -/
def KmallocClient.Uses (t : KmallocClient) (virtAddr : Nat) : Prop :=
  (∃ ptr ∈ t.live, ptr ≤ virtAddr ∧ virtAddr < ptr + t.heap.payloadSize ptr) ∨
    ∃ area ∈ t.mapped, area.1 ≤ virtAddr ∧ virtAddr < area.1 + area.2

def Vmalloc.phys (s : Vmalloc) (virtAddr : Nat) : Option Nat :=
  pagingTranslate s.paging s.paging.info.rootPml4Phys virtAddr

/-- The page of a byte of a live allocation. -/
theorem VmallocInv.livePage (inv : VmallocInv s live) (member : entry ∈ live)
    (inside : (allocation entry).Contains virtAddr) : LivePage live (virtAddr / 4096 * 4096) := by
  have aligned := (inv.placed entry member).1
  have pages := (alignUp_pages (inv.sizes entry member).1 (inv.sizes entry member).2).1
  refine ⟨by omega, allocation entry, List.mem_map_of_mem member, ?_⟩
  simp only [allocation, Range.Contains] at inside ⊢
  omega

/-- Bytes of live allocations have physical addresses of their own. -/
theorem VmallocInv.byte (inv : VmallocInv s live) (live' : Lib.Covers (live.map allocation) virtAddr) :
    ∃ phys, s.phys virtAddr = some phys ∧ s.paging.pmm.bitTest (phys / 4096) = true ∧
      ∀ other, Lib.Covers (live.map allocation) other → s.phys other = some phys → other = virtAddr := by
  have page : ∀ {v}, Lib.Covers (live.map allocation) v → LivePage live (v / 4096 * 4096) := by
    rintro v ⟨_, member, inside⟩
    obtain ⟨entry, listed, rfl⟩ := List.mem_map.mp member
    exact inv.livePage listed inside
  obtain ⟨frame, found, used, -⟩ := inv.backed.mapped _ (page live')
  have aligned := frameAt_aligned found
  refine ⟨_, pagingTranslate_offset inv.backed.tree found, ?_, fun other inside same => ?_⟩
  · rwa [show (frame + virtAddr % 4096) / 4096 = frame / 4096 by omega]
  · obtain ⟨frame', found', -⟩ := inv.backed.mapped _ (page inside)
    have aligned' := frameAt_aligned found'
    rw [Vmalloc.phys, pagingTranslate_offset inv.backed.tree found', Option.some_inj] at same
    have frames : frame' = frame := by omega
    have pages := inv.backed.distinct _ _ frame (page live') (page inside) found (frames ▸ found')
    omega

/-- What a client uses lies in a live allocation, of the heap or its own. -/
theorem KmallocClient.Uses.covered (uses : t.Uses virtAddr) (heap : Heap t.heap pools blocks frees t.live)
    (enough : ∀ area ∈ t.mapped, area.2 ≤ alignUp area.2 pmmPageSize) :
    Lib.Covers ((pools.map (fun base => (base, kmallocPoolSize)) ++ t.mapped).map allocation) virtAddr := by
  rcases uses with ⟨ptr, live, low, high⟩ | ⟨area, mapped, low, high⟩
  · obtain ⟨-, base, member, above, below⟩ := heap.payload_placed live
    refine ⟨_, List.mem_map_of_mem (List.mem_append_left _ (List.mem_map_of_mem member)), ?_⟩
    have whole : alignUp kmallocPoolSize pmmPageSize = kmallocPoolSize := by decide
    simp only [allocation, Range.Contains, whole, Kmalloc.payloadSize] at high ⊢
    omega
  · refine ⟨_, List.mem_map_of_mem (List.mem_append_right _ mapped), low, ?_⟩
    exact high.trans_le (Nat.add_le_add_left (enough area mapped) _)

/-- Over every history of the allocators, a byte that a client may use has a used frame behind it
and a physical address that no other such byte has. -/
theorem bytes_in_use_apart {paging : Paging} {block : Nat → KmallocBlock} {trace : List (KmallocCall × Nat)}
    (reached : Reached boot paging) (room : boot.VmallocRoom)
    (run : Lib.Steps (kmallocStep boot) ⟨⟨⟨paging, [], 0, 0, false⟩, block, 0, false⟩, [], []⟩ trace t)
    (uses : t.Uses virtAddr) :
    ∃ phys, t.heap.vm.phys virtAddr = some phys ∧ t.heap.vm.paging.pmm.bitTest (phys / 4096) = true ∧
      ∀ other, t.Uses other → t.heap.vm.phys other = some phys → other = virtAddr := by
  obtain ⟨pools, blocks, frees, heap, below⟩ := kmallocSteps_sound reached room run
  rcases below with ⟨-, -, -, -, none', -⟩ | inv
  · -- Before the first call nothing is in use.
    obtain ⟨pools', mapped⟩ := List.append_eq_nil_iff.mp none'
    obtain ⟨_, member, -⟩ := uses.covered heap (by simp [mapped])
    simp [pools', mapped] at member
  · have enough := fun area member => (inv.sizes area (List.mem_append_right _ member)).2
    obtain ⟨phys, found, used, only⟩ := inv.byte (uses.covered heap enough)
    exact ⟨phys, found, used, fun other uses' same => only other (uses'.covered heap enough) same⟩

theorem bytes_in_use_apart_tiny : ∃ t,
    Lib.Steps (kmallocStep tinyBoot) ⟨tinyHeap, [], []⟩ [(.vmalloc 100 9, 0xffffffff80003000)] t ∧
      ∃ phys, t.heap.vm.phys 0xffffffff80003063 = some phys ∧ t.heap.vm.paging.pmm.bitTest (phys / 4096) = true := by
  obtain ⟨t, run, passed⟩ := Lib.Steps.exists_of_replay_test (show (Lib.replay (kmallocStep tinyBoot) ⟨tinyHeap, [], []⟩
    [(.vmalloc 100 9, 0xffffffff80003000)]).any (·.mapped = [(0xffffffff80003000, 100)]) = true by decide +kernel)
  have uses : t.Uses 0xffffffff80003063 := .inr (by rw [of_decide_eq_true passed]; decide)
  obtain ⟨phys, found, used, -⟩ := bytes_in_use_apart tinyPagingReady_reached tinyBoot_room run uses
  exact ⟨t, run, phys, found, used⟩

end Velox
