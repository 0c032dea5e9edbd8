import Ukulele.VaddressRuns

/-! Runs of any calls: frees need not match what was allocated. -/

set_option autoImplicit false

namespace Ukulele
open Chain Intervals

/-- The spaces reached by any calls, with the largest number of regions after a call so far. -/
inductive VaddressCalls (spaceBegin spaceEnd : Uintptr) : VaddressSpace → Nat → Prop where
  | new (block : Nat → StorageBlock) (region : Node → AddressRegion) :
      VaddressCalls spaceBegin spaceEnd (vaddressSpaceNew block region spaceBegin spaceEnd) 0
  | allocate {s s' : VaddressSpace} {most : Nat} {p : Uintptr} {size : Size}
      (prior : VaddressCalls spaceBegin spaceEnd s most)
      (h : vaddressAllocate s size = some (p, s')) :
      VaddressCalls spaceBegin spaceEnd s' (max most (allocatedNodes s').length)
  | free {s s' : VaddressSpace} {most : Nat} {address : Uintptr} {size : Size}
      (prior : VaddressCalls spaceBegin spaceEnd s most)
      (hwrap : address.toNat + size.toNat < 2 ^ 64)
      (h : vaddressFree s address size = some s') :
      VaddressCalls spaceBegin spaceEnd s' (max most (allocatedNodes s').length)

/-- The gaps that `vaddress_allocate` measures, from `free_begin` up to `free_end`. -/
def vaddressGaps (s : VaddressSpace) : List (Uintptr × Uintptr) :=
  (s.spaceBegin, nextBegin s s.allocated) ::
    (allocatedNodes s).map (fun a => ((s.region a).endAt, nextBegin s (s.region a).next))

/-- The allocated list ends, its regions are in order inside the space, and no gap is negative. -/
structure RegionsWellFormed (spaceBegin spaceEnd : Uintptr) (s : VaddressSpace) : Prop where
  list : Seg s.nexts s.allocated (allocatedNodes s) none
  sorted : Sorted spaceEnd.toNat spaceBegin.toNat (allocatedRegions s)
  gaps : ∀ g ∈ vaddressGaps s, g.1 ≤ g.2

section Calls

variable {spaceBegin spaceEnd : Uintptr} {s : VaddressSpace} {most : Nat}

theorem gap_le {l : List Node} {head : Option Node} {lo : Nat} (hseg : Seg s.nexts head l none)
    (hs : Sorted s.spaceEnd.toNat lo (l.map (bounds s))) :
    lo ≤ (nextBegin s head).toNat ∧
    ∀ a ∈ l, (s.region a).endAt ≤ nextBegin s (s.region a).next := by
  induction l generalizing head lo with
  | nil =>
    simp only [Seg] at hseg
    subst hseg
    exact ⟨hs, by simp⟩
  | cons b l ih =>
    obtain ⟨rfl, hrest⟩ := hseg
    obtain ⟨hbegin, -, hsorted⟩ := hs
    obtain ⟨hgap, hgaps⟩ := ih hrest hsorted
    refine ⟨hbegin, ?_⟩
    intro a ha
    rcases List.mem_cons.mp ha with rfl | ha
    · exact BitVec.le_def.mpr hgap
    · exact hgaps a ha

theorem VaddressOk.wellFormed (h : VaddressOk s) : RegionsWellFormed s.spaceBegin s.spaceEnd s := by
  obtain ⟨l, u, bs, hheap⟩ := h.heap
  have hseg : Seg s.nexts s.allocated (allocatedNodes s) none := by
    rw [hheap.allocatedNodes_eq]
    exact hheap.allocated
  obtain ⟨hfirst, hnext⟩ := gap_le hseg h.sorted
  refine ⟨hseg, h.sorted, ?_⟩
  intro g hg
  rcases List.mem_cons.mp hg with rfl | hg
  · exact BitVec.le_def.mpr hfirst
  · obtain ⟨a, ha, rfl⟩ := List.mem_map.mp hg
    exact hnext a ha

theorem VaddressOk.new (block : Nat → StorageBlock) (region : Node → AddressRegion)
    (h : spaceBegin ≤ spaceEnd) : VaddressOk (vaddressSpaceNew block region spaceBegin spaceEnd) :=
  (VaddressRunOk.new block region h).ok

theorem VaddressCalls.ok (h : spaceBegin ≤ spaceEnd)
    (hrun : VaddressCalls spaceBegin spaceEnd s most) :
    VaddressOk s ∧ s.spaceBegin = spaceBegin ∧ s.spaceEnd = spaceEnd := by
  induction hrun with
  | new block region => exact ⟨VaddressOk.new block region h, rfl, rfl⟩
  | @allocate s s' most p size _ hcall ih =>
    obtain ⟨hok, hb, he⟩ := ih
    rcases hok.allocate size with hnull | ⟨q, t, halloc, hok', hb', he', -⟩
    · rw [hnull, Option.some.injEq, Prod.mk.injEq] at hcall
      obtain ⟨-, rfl⟩ := hcall
      exact ⟨hok, hb, he⟩
    · rw [halloc, Option.some.injEq, Prod.mk.injEq] at hcall
      obtain ⟨-, rfl⟩ := hcall
      exact ⟨hok', hb'.trans hb, he'.trans he⟩
  | @free s s' most address size _ hwrap hcall ih =>
    obtain ⟨hok, hb, he⟩ := ih
    obtain ⟨t, hfree, hok', hb', he', -⟩ := hok.free hwrap
    rw [hfree, Option.some.injEq] at hcall
    subst hcall
    exact ⟨hok', hb'.trans hb, he'.trans he⟩

theorem VaddressOk.returns (h : VaddressOk s) :
    (∀ size, (vaddressAllocate s size).isSome) ∧
    ∀ address size : BitVec 64, address.toNat + size.toNat < 2 ^ 64 →
      (vaddressFree s address size).isSome := by
  constructor
  · intro size
    rcases h.allocate size with hnull | ⟨p, s', halloc, -⟩
    · simp [hnull]
    · simp [halloc]
  · intro address size hwrap
    obtain ⟨s', hfree, -⟩ := h.free hwrap
    simp [hfree]

/-- After any calls the regions are in order, and every further call returns. -/
theorem vaddress_regions_stay_sorted (h : spaceBegin ≤ spaceEnd)
    (hrun : VaddressCalls spaceBegin spaceEnd s most) :
    RegionsWellFormed spaceBegin spaceEnd s ∧ (∀ size, (vaddressAllocate s size).isSome) ∧
    ∀ address size : BitVec 64, address.toNat + size.toNat < 2 ^ 64 →
      (vaddressFree s address size).isSome := by
  obtain ⟨hok, hbegin, hend⟩ := hrun.ok h
  have hwell := hok.wellFormed
  rw [hbegin, hend] at hwell
  exact ⟨hwell, hok.returns⟩

end Calls

theorem VaddressCalls.page {spaceBegin spaceEnd : Uintptr} {s : VaddressSpace} {most : Nat}
    (h : VaddressCalls spaceBegin spaceEnd s most)
    (hsome : (vaddressAllocate s 0x1000#64).isSome) :
    VaddressCalls spaceBegin spaceEnd (pageAllocated s)
      (max most (allocatedNodes (pageAllocated s)).length) := by
  obtain ⟨⟨p, t⟩, ht⟩ := Option.isSome_iff_exists.mp hsome
  have hpage : vaddressAllocate s 0x1000#64 = some (p, pageAllocated s) := by
    simp only [pageAllocated, ht, Option.getD_some]
  exact h.allocate hpage

/-- Two pages are allocated, and then all from the middle of the first one on is freed. -/
theorem vaddress_regions_stay_sorted_example :
    RegionsWellFormed 0x1000#64 0x9000#64
      ((vaddressFree (pageAllocated (pageAllocated freshSpace)) 0x1800#64 0x8000#64).getD
        freshSpace) := by
  have hfresh : VaddressCalls 0x1000#64 0x9000#64 freshSpace 0 := VaddressCalls.new _ _
  have hrun := (hfresh.page (by decide +kernel)).page (by decide +kernel)
  obtain ⟨t, ht⟩ := Option.isSome_iff_exists.mp
    (by decide +kernel : (vaddressFree (pageAllocated (pageAllocated freshSpace)) 0x1800#64
      0x8000#64).isSome)
  rw [ht, Option.getD_some]
  exact (vaddress_regions_stay_sorted (by decide) (hrun.free (by decide) ht)).1

end Ukulele
