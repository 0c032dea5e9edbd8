import Ukulele.MmuLookups

/-! The two calls on a depth-0 table, each as its two passes over the tree of tables. -/

set_option autoImplicit false

namespace Ukulele
open RadixTree

theorem convertFlags_spec (flags : BitVec 32) :
    convertFlags flags &&& mmuRegPhysAddressMask = 0#64 ∧
      convertFlags flags &&& mmuRegPresent = mmuRegPresent := by
  unfold convertFlags
  simp only
  split <;> split <;> split <;> split <;> decide

/-- The entry that `mmu_assign` stores for an address. -/
def assignEntry (flags : BitVec 32) (address : Uintptr) (page : Physical) (virtAddr : Uintptr) :
    BitVec 64 := virtAddr - address + page ||| convertFlags flags

theorem assignEntry_present (flags : BitVec 32) (address : Uintptr) (page : Physical)
    (v : Uintptr) : entryCoding.present (assignEntry flags address page v) = true := by
  rw [present_iff, assignEntry, BitVec.and_or_distrib_right, (convertFlags_spec flags).2]
  intro h
  have hbit : ((v - address + page) &&& mmuRegPresent ||| mmuRegPresent).getLsbD 0 = true := by
    rw [BitVec.getLsbD_or, show mmuRegPresent.getLsbD 0 = true by decide, Bool.or_true]
  rw [h] at hbit
  contradiction

theorem assignEntry_page (flags : BitVec 32) (address : Uintptr) (page : Physical)
    (v : Uintptr) : assignEntry flags address page v &&& mmuRegPhysAddressMask =
      (page + (v - address)) &&& mmuRegPhysAddressMask := by
  rw [assignEntry, BitVec.and_or_distrib_right, (convertFlags_spec flags).1, BitVec.or_zero,
    BitVec.add_comm]

theorem assign_storesAt (flags : BitVec 32) (address : Uintptr) (page : Physical) :
    StoresAt (leafCallbackAssignLinear page address (convertFlags flags))
      (assignEntry flags address page) := fun _ _ _ => rfl

theorem clear_storesAt : StoresAt leafCallbackClear (fun _ => 0#64) := fun _ _ _ => rfl

section Passes

variable {s : Machine} {top : MmuPageMapPart} {t : Physical} {T : PageTree 3}
  {loc loc₀ : NodeCommandLoc} {B a b : Nat}

/-- After the checks a call on `loc₀` walks the key range of `loc`. -/
def Enters (s : Machine) (loc₀ loc : NodeCommandLoc) : Prop :=
  ∀ (visit : NodeCallback) (s' : Machine), s'.cr3 = s.cr3 →
    applyNodesEntry loc₀ visit s' = applyNodes loc visit s'

/-- Reserving and then setting the leaf entries, from above the leaf tables. -/
theorem assign_passes {n : Nat} {T : PageTree n} (htree : TreeOk s loc.page.page T) (hp : PmmOk s)
    (hlow : PmmLow s) (hdepth : loc.page.depth < pageMapDepthBottom) (hloc : LocAt loc n B a b)
    (henter : Enters s loc₀ loc) {callback : LeafCallback} {value : Uintptr → BitVec 64}
    (hcb : StoresAt callback value) :
    Outcome (fun e => e = outOfTables)
      (fun s' => ∃ T₁, Reserved 0#64 TableEntry n a b T T₁ ∧
        TreeStep s s' loc.page.page T (setRange n T₁ a b (keyValue value B)))
      (applyNodesEntry loc₀ (nodeCallbackReserve walkFuel) s >>=
        applyNodesEntry loc₀ (nodeCallbackLeaf callback walkFuel)) := by
  have hfuel : n ≤ walkFuel := by
    have := hloc.depth
    unfold walkFuel
    omega
  have hreserve := reserveBelow_spec n (Nat.le_succ_of_le hfuel) hloc htree hp hlow
  have hbelow : reserveBelow (walkFuel + 1) loc s =
      applyNodesEntry loc₀ (nodeCallbackReserve walkFuel) s := by
    rw [henter _ s rfl, reserveBelow, if_pos hdepth]
  rw [hbelow] at hreserve
  apply hreserve.bind
  intro s₁ ⟨T₁, hstep₁, hres⟩
  have hcov : ∀ k, a ≤ k → k < b → Covered n T₁ k := by
    intro k ha hb
    exact hres.covered (by decide) ha hb (Nat.lt_of_lt_of_le hb hloc.le)
  have hleaf := leaf_spec hcb n hfuel hloc hstep₁.tree hstep₁.pmm hcov
  obtain ⟨s₂, hrun, hstep₂⟩ := hleaf.returns
  rw [henter _ s₁ hstep₁.cr3_eq]
  apply Outcome.of_eq hrun
  refine ⟨T₁, hres, hstep₁.trans hstep₂ ?_⟩
  have hsame : tables (setRange n T₁ a b (keyValue value B)) = tables T₁ :=
    pages_setRange entryCoding
  rw [hsame]
  exact Finset.subset_union_right

/-- The tree after its leaf entries in a range were cleared and the range was collected. -/
def removed (T : PageTree 3) (a b : Nat) : PageTree 3 :=
  prune entryCoding 0#64 3 (setRange 3 T a b (fun _ => 0#64)) a b

/-- Clearing the leaf entries and then collecting the tables that became empty. -/
theorem remove_passes (h : TopOk s top t T) (hpage : loc.page = ⟨t, 0⟩) (hloc : LocAt loc 3 B a b)
    (henter : Enters s loc₀ loc) (hcov : ∀ k, a ≤ k → k < b → Covered 3 T k)
    (hman : ∀ p ∈ tables T, p ∉ tables (removed T a b) → p ∈ s.pmm.managedPages) :
    ∃ s', (applyNodesEntry loc₀ (nodeCallbackLeaf leafCallbackClear walkFuel) s >>=
        applyNodesEntry loc₀ (nodeCallbackGc walkFuel)) = .ok s' ∧
      TreeStep s s' t T (removed T a b) := by
  have htree : TreeOk s loc.page.page T := by
    rw [hpage]
    exact h.tree
  have hleaf := leaf_spec clear_storesAt 3 (by decide : 3 ≤ walkFuel) hloc htree h.pmm hcov
  obtain ⟨s₁, hrun, hstep₁⟩ := hleaf.returns
  have hsame : tables (setRange 3 T a b (fun _ => 0#64)) = tables T := pages_setRange entryCoding
  have hman₁ : ∀ p ∈ tables (setRange 3 T a b (fun _ => 0#64)), p ∉ tables (removed T a b) →
      p ∈ s₁.pmm.managedPages := by
    rw [hsame, hstep₁.managed_eq]
    exact hman
  have hgc := gcBelow_spec 3 (by decide : 3 ≤ walkFuel + 1) hloc hstep₁.tree hstep₁.pmm hman₁
  have hbelow : gcBelow (walkFuel + 1) loc s₁ =
      applyNodesEntry loc₀ (nodeCallbackGc walkFuel) s₁ := by
    rw [henter _ s₁ hstep₁.cr3_eq]
    unfold gcBelow
    rw [hpage]
    rfl
  rw [hbelow] at hgc
  obtain ⟨s₂, hrun₂, hstep₂⟩ := hgc.returns
  refine ⟨s₂, ?_, ?_⟩
  · rw [henter _ s rfl, hrun]
    exact hrun₂
  · rw [hpage] at hstep₁ hstep₂
    apply hstep₁.trans hstep₂
    have hsame' : tables (setRange 3 T a b (keyValue (fun _ => 0#64) B)) = tables T := hsame
    rw [hsame']
    exact Finset.subset_union_left

end Passes

def lastEntryStart : Uintptr := 0xffffff8000000000#64

section Calls

variable {s : Machine} {top : MmuPageMapPart} {t : Physical} {T : PageTree 3}
  {address : Uintptr} {size : Size}

theorem EntryChecks.enters {loc : NodeCommandLoc} {part : MmuPageMapPart} (h : EntryChecks s loc)
    (hpart : resolve s loc.page = part) : Enters s loc { loc with page := part } := by
  intro visit s' hc
  have hr : resolve s' loc.page = part := by
    rw [← hpart]
    unfold resolve getCurrentPageMapTop
    rw [hc]
  rw [(h.congr hc).entry_eq visit, hr]

theorem below_lastEntry {e : Uintptr} (h : e ≤ lastEntryStart) : e.toNat + 2 ^ 39 ≤ 2 ^ 64 := by
  have hn := BitVec.le_def.mp h
  have hl : lastEntryStart.toNat = 2 ^ 64 - 2 ^ 39 := by decide
  omega

theorem mmuAssign_spec (h : TopOk s top t T) (hlow : PmmLow s)
    (hc : EntryChecks s ⟨top, address, address + size⟩) (hend : address + size ≤ lastEntryStart)
    (flags : BitVec 32) (page : Physical) :
    Outcome (fun e => e = outOfTables)
      (fun s' => ∃ T₁,
        Reserved 0#64 TableEntry 3 (pageKey address) (pageKey (address + size)) T T₁ ∧
        TreeStep s s' t T (setRange 3 T₁ (pageKey address) (pageKey (address + size))
          (keyValue (assignEntry flags address page) (addressBase address))))
      (mmuAssign s top flags address size page) :=
  assign_passes h.tree h.pmm hlow (by decide : 0 < 3) (hc.locAt t (below_lastEntry hend))
    (hc.enters h.resolved) (assign_storesAt flags address page)

theorem mmuRemove_spec (h : TopOk s top t T) (hc : EntryChecks s ⟨top, address, address + size⟩)
    (hend : address + size ≤ lastEntryStart)
    (hcov : ∀ k, pageKey address ≤ k → k < pageKey (address + size) → Covered 3 T k)
    (hman : ∀ p ∈ tables T, p ∉ tables (removed T (pageKey address) (pageKey (address + size))) →
      p ∈ s.pmm.managedPages) :
    ∃ s', mmuRemove s top address size = .ok s' ∧
      TreeStep s s' t T (removed T (pageKey address) (pageKey (address + size))) :=
  remove_passes h rfl (hc.locAt t (below_lastEntry hend)) (hc.enters h.resolved) hcov hman

end Calls

end Ukulele
