import Velox.Mm.VmallocRefusal

namespace Velox

/-- The page a call is about. -/
def PagingCall.virtAddr : PagingCall → Nat
  | .map virtAddr _ _ => virtAddr
  | .unmap virtAddr => virtAddr
  | .protect virtAddr _ => virtAddr

/-- The allocator with its live allocations, from the boot on. Others take and give back frames that
hold no table and back no live page, and call the paging code for pages that are not handed out. -/
inductive VmallocReached (boot : Boot) : Vmalloc → List (Nat × Nat) → Prop where
  | start (cold : ColdBoot boot s₀) (init : pagingInit boot s₀ = .ok s) : VmallocReached boot ⟨s, [], 0, 0, false⟩ []
  | vmalloc (before : VmallocReached boot s live) (done : vmalloc boot s size flags = .ok (addr, t)) :
      VmallocReached boot t (if addr = 0 then live else (addr, size) :: live)
  | vfree (before : VmallocReached boot s live) (handed : (addr, size) ∈ live) (done : vfree s addr size = .ok t) :
      VmallocReached boot t (live.erase (addr, size))
  | call (before : VmallocReached boot s live)
      (apart : ∀ page, LivePage live page → pageNumber page ≠ pageNumber call.virtAddr)
      (taken : pagingStep s.paging call = .ok (answer, paging)) : VmallocReached boot { s with paging := paging } live
  | setNx (before : VmallocReached boot s live) (enabled : Bool) :
      VmallocReached boot { s with paging := { s.paging with nxEnabled := enabled } } live
  | allocFrame (before : VmallocReached boot s live) (taken : pmmTryAllocPagePhys s.paging.pmm = (some frame, pmm)) :
      VmallocReached boot { s with paging := { s.paging with pmm := pmm } } live
  | freeFrame (before : VmallocReached boot s live)
      (foreign : ∀ path, path.length ≤ 3 → s.paging.tableAt s.paging.info.rootPml4Phys path ≠ some frame)
      (unused : ∀ page, LivePage live page → s.paging.frameAt s.paging.info.rootPml4Phys page ≠ some frame) :
      VmallocReached boot { s with paging := { s.paging with pmm := pmmFreePagePhys s.paging.pmm frame } } live

section Reached

variable {boot : Boot} {live : List (Nat × Nat)}

/-- A call of the paging code changes the leaf of its page at most. -/
theorem pagingStep_rebound {s t : Paging} {call : PagingCall} {answer : PagingAnswer}
    (tree : TableTree s s.info.rootPml4Phys) (taken : pagingStep s call = .ok (answer, t)) :
    t = s ∨ ∃ leaf, Rebound s.info.rootPml4Phys call.virtAddr leaf s t := by
  cases call with
  | map virtAddr physAddr flags =>
    obtain ⟨⟨ok, next⟩, done, rest⟩ := Lib.bind_ok taken
    cases rest
    rcases pagingMapPage_rebound tree done with ⟨-, same, -⟩ | ⟨-, -, rebound⟩
    · exact .inl same
    · exact .inr ⟨_, rebound⟩
  | unmap virtAddr =>
    obtain ⟨⟨unbound, next⟩, done, rest⟩ := Lib.bind_ok taken
    cases rest
    rcases pagingUnmapPage_rebound tree done with ⟨-, same, -⟩ | ⟨_, -, -, rebound⟩
    · exact .inl same
    · exact .inr ⟨_, rebound⟩
  | protect virtAddr flags =>
    obtain ⟨⟨ok, next⟩, done, rest⟩ := Lib.bind_ok taken
    cases rest
    rcases pagingProtectPage_rebound tree done with ⟨-, same, -⟩ | ⟨_, -, -, rebound⟩
    · exact .inl same
    · exact .inr ⟨_, rebound⟩

variable {s t : Vmalloc}

/-- Others may replace the page tables by any that still back what is live. -/
theorem VmallocClient.Sound.replace {paging : Paging} (sound : VmallocClient.Sound boot ⟨s, live⟩)
    (space : KernelSpace boot s.paging → KernelSpace boot paging)
    (backed : Backed s.base s.paging.info.rootPml4Phys s.paging (LivePage live) →
      Backed s.base s.paging.info.rootPml4Phys paging (LivePage live)) :
    VmallocClient.Sound boot ⟨{ s with paging := paging }, live⟩ := by
  rcases sound with ⟨fresh, free, base, limit, none', before⟩ | inv
  · exact .inl ⟨fresh, free, base, limit, none', space before⟩
  · exact .inr (inv.replace (backed inv.backed))

theorem VmallocReached.sound (reached : VmallocReached boot s live) (room : boot.VmallocRoom) :
    VmallocClient.Sound boot ⟨s, live⟩ ∧ Tallied s.paging.info.rootPml4Phys [] s.paging := by
  induction reached with
  | start cold init =>
    exact ⟨.inl ⟨rfl, rfl, rfl, rfl, rfl, pagingInit_space cold.toAtBoot init⟩, pagingInit_tallied cold init⟩
  | vmalloc _ done ih =>
    obtain ⟨sound, tallied⟩ := ih
    refine ⟨?_, vmalloc_tallied room sound tallied done⟩
    rcases vmalloc_keeps room sound done with ⟨rfl, kept⟩ | ⟨real, inv⟩
    · exact kept
    · rw [if_neg real]
      exact .inr inv
  | vfree _ handed done ih =>
    obtain ⟨⟨-, -, -, -, none', -⟩ | inv, tallied⟩ := ih
    · grind
    · have first := inv.perm (List.perm_cons_erase handed)
      exact ⟨.inr (vfree_keeps first done), vfree_tallied first tallied done⟩
  | call _ apart taken ih =>
    obtain ⟨sound, tallied⟩ := ih
    have keeps := (pagingStep_keeps tallied.tree taken).1
    refine ⟨sound.replace ?_ fun backed => ?_, ?_⟩
    · exact fun space => ⟨keeps.tree, keeps.initialized.trans space.initialized, keeps.highest.trans space.highest,
        space.aligned, space.kernelEnd⟩
    · grind [pagingStep_rebound, Tallied.tree, Backed.rebind]
    · exact pagingStep_tallied tallied taken
  | setNx _ enabled ih =>
    obtain ⟨sound, tallied⟩ := ih
    have tree := @TableTree.congr _ { Vmalloc.paging _ with nxEnabled := enabled } _ tallied.tree rfl rfl
    refine ⟨sound.replace ?_ fun backed => ?_, tallied.congr tree rfl rfl⟩
    · exact fun space => ⟨tree, space.initialized, space.highest, space.aligned, space.kernelEnd⟩
    · exact ⟨tree, backed.recorded, backed.inside, backed.mapped, backed.distinct⟩
  | allocFrame _ taken ih =>
    obtain ⟨sound, tallied⟩ := ih
    have got := pmmTryAllocPagePhys_allocated taken
    refine ⟨sound.replace ?_ fun backed => backed.allocFrame taken, tallied.allocFrame taken⟩
    exact fun space => ⟨space.tree.allocFrame taken, space.initialized, got.highest.trans space.highest, space.aligned,
      space.kernelEnd⟩
  | freeFrame _ foreign unused ih =>
    obtain ⟨sound, tallied⟩ := ih
    refine ⟨sound.replace ?_ fun backed => backed.freeFrame foreign unused, tallied.freeFrame foreign⟩
    exact fun space => ⟨space.tree.freeFrame foreign, space.initialized, (pmmFreePagePhys_highest _ _).trans space.highest,
      space.aligned, space.kernelEnd⟩

end Reached

/-- A `vmalloc` that answers `NULL`, at whatever page it failed and for whatever flags, leaves the
free ranges, all translations, the frames in use and the counter of the page tables as they were. -/
theorem vmalloc_fails_atomically {boot : Boot} {s t : Vmalloc} {live : List (Nat × Nat)} {size flags : Nat}
    (room : boot.VmallocRoom) (reached : VmallocReached boot s live) (ready : s.initialized = true)
    (failed : vmalloc boot s size flags = .ok (0, t)) :
    t.free = s.free ∧
    (∀ virtAddr, pagingTranslate t.paging t.paging.info.rootPml4Phys virtAddr =
      pagingTranslate s.paging s.paging.info.rootPml4Phys virtAddr) ∧
    (∀ page, t.paging.pmm.bitTest page = s.paging.pmm.bitTest page) ∧
    t.paging.info.tablePagesAllocated = s.paging.info.tablePagesAllocated := by
  obtain ⟨sound, tallied⟩ := reached.sound room
  have set : vmallocInitOnceLocked boot s = (true, s) := by simp [vmallocInitOnceLocked, ready]
  obtain ⟨free, undone⟩ : t.free = s.free ∧ Undone s.paging.info.rootPml4Phys s.paging t.paging := by
    rcases vmalloc_stages room sound failed with ⟨-, rfl⟩ | ⟨vm, first, inv, -, positive, enough, carved⟩
    · exact ⟨rfl, .refl tallied⟩
    · rw [set] at first
      cases first
      exact (vmallocCarve_refused inv positive enough tallied carved).2
  refine ⟨free, fun virtAddr => ?_, undone.used, undone.counter⟩
  unfold pagingTranslate
  rw [undone.recorded, translateWithCr3_eq_leaf undone.tallied.tree, translateWithCr3_eq_leaf tallied.tree, undone.leaves]

/-- The smallest machine after its first page. -/
theorem tinyVmalloc_first (P : Vmalloc → Prop) [DecidablePred P]
    (passed : ((vmalloc tinyBoot ⟨tinyPagingReady, [], 0, 0, false⟩ 1 9).toOption.any fun answer =>
      answer.1 = 0xffffffff80003000 ∧ P answer.2) = true) :
    ∃ s, VmallocReached tinyBoot s [(0xffffffff80003000, 1)] ∧ P s := by
  have start : VmallocReached tinyBoot ⟨tinyPagingReady, [], 0, 0, false⟩ [] :=
    .start tinyPaging_cold (Lib.eq_ok_outcome tinyPaging (by decide +kernel))
  obtain ⟨⟨addr, s⟩, done, passed⟩ := Lib.exists_ok_of_test passed
  obtain ⟨rfl, holds⟩ := of_decide_eq_true passed
  exact ⟨s, start.vmalloc done, holds⟩

/-- It cannot back a pool of the heap. -/
theorem vmalloc_fails_atomically_tiny : ∃ s t, VmallocReached tinyBoot s [(0xffffffff80003000, 1)] ∧
    vmalloc tinyBoot s 0x400000 9 = .ok (0, t) ∧ t.free = s.free ∧
    ∀ page, t.paging.pmm.bitTest page = s.paging.pmm.bitTest page := by
  obtain ⟨s, reached, ready, refused⟩ := tinyVmalloc_first (fun s => s.initialized = true ∧
    (vmalloc tinyBoot s 0x400000 9).toOption.any (fun answer => answer.1 = 0) = true) (by decide +kernel)
  obtain ⟨⟨addr, t⟩, failed, null⟩ := Lib.exists_ok_of_test refused
  cases of_decide_eq_true null
  obtain ⟨free, -, used, -⟩ := vmalloc_fails_atomically tinyBoot_room reached ready failed
  exact ⟨s, t, reached, failed, free, used⟩

end Velox
