import Ukulele.MmuBounds

/-! `mmu_assign` on any range of a depth-0 table: which ranges it maps, and what it does to the
ranges at the end of the address space.
-/

set_option autoImplicit false

namespace Ukulele
open RadixTree

/-- The addresses of the range lead to the frames from `page` on, the others where they led
before. -/
def AssignsExactly (s : Machine) (top : MmuPageMapPart) (flags : BitVec 32) (address : Uintptr)
    (size : Size) (page : Physical) : Prop :=
  ∃ s', mmuAssign s top flags address size page = .ok s' ∧
    ∀ v, mmuIsCanonicalAddress v = true → translate s' top v =
      if InRange address size v then .ok ⟨page + (pageOf v - address), pageMapDepthMemory⟩
      else translate s top v

def lastTableStart : Uintptr := 0xffffffffffe00000#64

variable {s : Machine} {top : MmuPageMapPart} {t : Physical} {T : PageTree 3}
  {address : Uintptr} {size : Size}

section Last

variable {loc : NodeCommandLoc}

theorem EntryChecks.locAt_last (h : EntryChecks s loc) (hlast : lastTableStart ≤ loc.start)
    (t : Physical) :
    LocAt ⟨⟨t, 0⟩, loc.start, 0#64⟩ 3 (addressBase loc.start) (pageKey loc.start)
      (span 512 3) := by
  obtain ⟨h₁, h₂, h₃, h₄, h₅⟩ := h.toNat
  have hstart := BitVec.le_def.mp hlast
  have hn : lastTableStart.toNat = 2 ^ 64 - 2 ^ 21 := by decide
  have hlt := loc.start.isLt
  unfold addressBase pageKey
  rw [span_three]
  refine ⟨⟨rfl, ?_, ?_, ?_, ?_, ?_, ?_, ?_, ?_⟩, ?_, ?_⟩
  · rw [span_three]
    omega
  · change loc.start.toNat = _
    omega
  · change (0#64).toNat = _
    rw [show loc.start.toNat / 2 ^ 48 = 2 ^ 16 - 1 by omega]
    decide
  · omega
  · rw [span_three]
    omega
  · rw [span_three]
    omega
  · omega
  · omega
  · rw [span_three]
  · right
    omega

theorem EntryChecks.applyNodes_last (h : EntryChecks s loc) (hlast : lastTableStart ≤ loc.start)
    (t : Physical) (visit : NodeCallback) (s' : Machine) :
    applyNodes ⟨⟨t, 0⟩, loc.start, loc.endAt⟩ visit s' =
      applyNodes ⟨⟨t, 0⟩, loc.start, 0#64⟩ visit s' := by
  obtain ⟨h₁, h₂, h₃, h₄, h₅⟩ := h.toNat
  have hstart := BitVec.le_def.mp hlast
  have hn : lastTableStart.toNat = 2 ^ 64 - 2 ^ 21 := by decide
  have hlt := loc.start.isLt
  have hend := loc.endAt.isLt
  have hw : width 512 3 = 2 ^ 27 := by decide
  have hspan₂ : span 512 2 = 2 ^ 27 := by decide
  have hin : LocIn ⟨⟨t, 0⟩, loc.start, loc.endAt⟩ 3 _ _ _ := h.locIn ⟨t, 0⟩ rfl
  have hzero := h.locAt_last hlast t
  rw [span_three] at hin
  have hfirst : NodeCommandLoc.startIdx ⟨⟨t, 0⟩, loc.start, loc.endAt⟩ = 511 := by
    rw [hin.startIdx_eq, hw]
    omega
  have hfirst' : NodeCommandLoc.startIdx ⟨⟨t, 0⟩, loc.start, 0#64⟩ = 511 := hfirst
  have hstop : NodeCommandLoc.endIdx ⟨⟨t, 0⟩, loc.start, loc.endAt⟩ = 512 := by
    rw [hin.endIdx_eq (by rw [hw]; omega), hw]
    omega
  have hstop' : NodeCommandLoc.endIdx ⟨⟨t, 0⟩, loc.start, 0#64⟩ = 512 := by
    rw [hzero.endIdx_eq]
    decide
  have hchild : ∀ e, NodeCommandLoc.child ⟨⟨t, 0⟩, loc.start, loc.endAt⟩ (511 : Nat) e =
      NodeCommandLoc.child ⟨⟨t, 0⟩, loc.start, 0#64⟩ (511 : Nat) e := by
    intro e
    have hend₁ : (NodeCommandLoc.child ⟨⟨t, 0⟩, loc.start, loc.endAt⟩ (511 : Nat) e).endAt =
        0#64 := by
      apply BitVec.eq_of_toNat_eq
      rw [hin.child_end, hspan₂]
      simp only [BitVec.toNat_ofNat]
      omega
    have hend₂ : (NodeCommandLoc.child ⟨⟨t, 0⟩, loc.start, 0#64⟩ (511 : Nat) e).endAt = 0#64 := by
      apply BitVec.eq_of_toNat_eq
      rw [hzero.child_end]
      exact Nat.zero_min _
    rw [NodeCommandLoc.child] at hend₁ hend₂ ⊢
    rw [NodeCommandLoc.child]
    simp only at hend₁ hend₂ ⊢
    rw [hend₁, hend₂]
    rfl
  have hidx := tableIndex_ok (by decide : 511 < 512)
  rw [applyNodes, applyNodes, hfirst, hstop, hfirst', hstop']
  change applyNodesLoop _ visit 1 ((511 : Nat) : Int) s' = applyNodesLoop _ visit 1 ((511 : Nat) : Int) s'
  simp only [applyNodesLoop, hidx, hchild]

theorem EntryChecks.enters_last (h : EntryChecks s loc) (hlast : lastTableStart ≤ loc.start)
    (ht : resolve s loc.page = ⟨t, 0⟩) : Enters s loc ⟨⟨t, 0⟩, loc.start, 0#64⟩ := by
  intro visit s' hc
  rw [h.enters ht visit s' hc]
  exact h.applyNodes_last hlast t visit s'

theorem key_last_iff (hlast : lastTableStart ≤ address) (ha : Aligned address) {v : Uintptr}
    (hv : mmuIsCanonicalAddress v = true) :
    (pageKey address ≤ pageKey v ∧ pageKey v < span 512 3) ↔ address ≤ v := by
  have hstart := BitVec.le_def.mp hlast
  have hn : lastTableStart.toNat = 2 ^ 64 - 2 ^ 21 := by decide
  have hv' := (canonical_iff v).mp hv
  have hlt := v.isLt
  have halt := address.isLt
  unfold Aligned at ha
  rw [BitVec.le_def]
  unfold pageKey
  rw [span_three]
  omega

end Last

/-- From the last leaf table on the call maps every page up to the end of the address space. -/
theorem mmuAssign_last (h : TopOk s top t T) (hlow : PmmLow s)
    (hc : EntryChecks s ⟨top, address, address + size⟩) (hlast : lastTableStart ≤ address)
    (flags : BitVec 32) (page : Physical) :
    Outcome (fun e => e = outOfTables)
      (fun s' => ∀ v, mmuIsCanonicalAddress v = true → translate s' top v =
        if address ≤ v then
          .ok ⟨(page + (pageOf v - address)) &&& mmuRegPhysAddressMask, pageMapDepthMemory⟩
        else translate s top v)
      (mmuAssign s top flags address size page) := by
  have hspec : Outcome (fun e => e = outOfTables) _ (mmuAssign s top flags address size page) :=
    assign_passes h.tree h.pmm hlow (by decide : 0 < 3) (hc.locAt_last hlast t)
      (hc.enters_last hlast h.resolved) (assign_storesAt flags address page)
  apply hspec.mono (fun e he => he)
  intro s' ⟨T₁, hr, hstep⟩ v hv
  have hf : ∀ k, entryCoding.present
      (keyValue (assignEntry flags address page) (addressBase address) k) = true :=
    fun k => assignEntry_present flags address page _
  have htop := h.step hstep (AllTables.assigned hr h.entries _)
  have hkey := key_last_iff hlast hc.start hv
  rw [htop.translate_eq, get_assigned hr hf (Nat.le_refl _)]
  by_cases hin : address ≤ v
  · have hstart := BitVec.le_def.mp hlast
    have hle := BitVec.le_def.mp hin
    have hn : lastTableStart.toNat = 2 ^ 64 - 2 ^ 21 := by decide
    have hlt := v.isLt
    have hhalf : address.toNat / 2 ^ 47 = v.toNat / 2 ^ 47 := by omega
    rw [if_pos hin, if_pos (hkey.mpr hin), keyValue, keyAddress hc.canonical hhalf,
      lookupResult, assignEntry_page]
  · rw [if_neg hin, if_neg (fun hk => hin (hkey.mp hk)), h.translate_eq]

theorem nodeCallbackReserve_keeps {c : Physical} (fuel : Nat) : ∀ {loc : NodeCommandLoc}
    {entry : EntryPtr} {s : Machine}, s.cr3 = c →
    Outcome (fun _ => True) (fun s' => s'.cr3 = c) (nodeCallbackReserve fuel loc entry s) := by
  induction fuel with
  | zero =>
    intro loc entry s hs
    rw [nodeCallbackReserve_eq]
    apply ((reserveEntry_walks loc entry s).mono (fun _ _ => trivial) (fun _ h => h)).bind
    intro r ⟨hr, _⟩
    unfold reserveBelow
    split
    · trivial
    · exact hr.trans hs
  | succ fuel ih =>
    intro loc entry s hs
    rw [nodeCallbackReserve_eq]
    apply ((reserveEntry_walks loc entry s).mono (fun _ _ => trivial) (fun _ h => h)).bind
    intro r ⟨hr, _⟩
    unfold reserveBelow
    split
    · exact applyNodesLoop_keeps (fun _ _ _ hs' => ih hs') _ (hr.trans hs)
    · exact hr.trans hs

theorem mmuAssign_ne_ok (hc : EntryChecks s ⟨top, address, address + size⟩)
    (hfit : ¬ WalkFits (resolve s top).depth address (address + size)) (flags : BitVec 32)
    (page : Physical) (s' : Machine) : mmuAssign s top flags address size page ≠ .ok s' := by
  have hreserve : Outcome (fun _ => True) (fun s₁ => s₁.cr3 = s.cr3)
      (applyNodesEntry ⟨top, address, address + size⟩ (nodeCallbackReserve walkFuel) s) := by
    have hs : (fun s₁ : Machine => s₁.cr3 = s.cr3) s := rfl
    rw [hc.enter _ rfl]
    exact applyNodesLoop_keeps (fun _ _ _ h => nodeCallbackReserve_keeps _ h) _ hs
  have hrun : Outcome (fun _ => True) (fun _ => False)
      (mmuAssign s top flags address size page) := by
    apply hreserve.bind
    intro s₁ hs₁
    obtain ⟨i, hi⟩ := hc.leaf_strays hfit hs₁ (assign_storesAt flags address page)
    rw [hi]
    trivial
  intro hok
  exact hrun.of_ok hok

theorem TopOk.walkFits_iff (h : TopOk s top t T)
    (hc : EntryChecks s ⟨top, address, address + size⟩) :
    WalkFits (resolve s top).depth address (address + size) ↔
      address + size ≤ lastEntryStart ∨ lastTableStart ≤ address := by
  obtain ⟨h₁, h₂, h₃, h₄, h₅⟩ := hc.toNat
  have hl : lastEntryStart.toNat = 2 ^ 64 - 2 ^ 39 := by decide
  have hn : lastTableStart.toNat = 2 ^ 64 - 2 ^ 21 := by decide
  have hend := (address + size).isLt
  rw [h.resolved, BitVec.le_def, BitVec.le_def, hl, hn]
  unfold WalkFits tableStart tableBytes entryBytes
  rw [if_neg (by simp [pageMapDepthBottom])]
  simp only [depthShiftSize] at *
  omega

/-- A range is mapped, and nothing else, exactly if it leaves the last entry of the top table
alone; or if it lies in the last leaf table and the pages behind it already lead to the frames
that follow. -/
theorem mmu_assign_maps_exactly (h : TopOk s top t T) (hlow : PmmLow s)
    (hc : EntryChecks s ⟨top, address, address + size⟩) (flags : BitVec 32) {page : Physical}
    (hpage : Aligned page) (hfit : page.toNat + size.toNat ≤ 2 ^ 52)
    (hroom : mmuAssign s top flags address size page ≠ .error outOfTables) :
    AssignsExactly s top flags address size page ↔
      address + size ≤ lastEntryStart ∨
      lastTableStart ≤ address ∧ ∀ v, mmuIsCanonicalAddress v = true → address + size ≤ v →
        translate s top v =
          .ok ⟨(page + (pageOf v - address)) &&& mmuRegPhysAddressMask, pageMapDepthMemory⟩ := by
  constructor
  · intro ⟨s', hrun, hmap⟩
    by_cases hend : address + size ≤ lastEntryStart
    · exact Or.inl hend
    · right
      have hlast : lastTableStart ≤ address := by
        by_contra hbelow
        have hfits := mt (h.walkFits_iff hc).mp (not_or.mpr ⟨hend, hbelow⟩)
        exact mmuAssign_ne_ok hc hfits flags page s' hrun
      refine ⟨hlast, ?_⟩
      intro v hv hafter
      have hall := (mmuAssign_last h hlow hc hlast flags page).of_ok hrun v hv
      have hin : ¬ InRange address size v := fun hin => BitVec.not_le.mpr hin.2.2 hafter
      have hge : address ≤ v := BitVec.le_trans (BitVec.le_of_lt hc.order) hafter
      rw [if_pos hge, hmap v hv, if_neg hin] at hall
      exact hall
  · intro hcond
    have hout : Outcome (fun e => e = outOfTables) (fun _ => True)
        (mmuAssign s top flags address size page) := by
      rcases hcond with hend | ⟨hlast, _⟩
      · exact (mmuAssign_assigned h hlow hc hend flags page).mono (fun _ h => h) (fun _ _ => trivial)
      · exact (mmuAssign_last h hlow hc hlast flags page).mono (fun _ h => h) (fun _ _ => trivial)
    cases hrun : mmuAssign s top flags address size page with
    | error e =>
      rw [hrun] at hout hroom
      exact absurd (congrArg Except.error hout) hroom
    | ok s' =>
      refine ⟨s', hrun, ?_⟩
      intro v hv
      rcases hcond with hend | ⟨hlast, hafter⟩
      · obtain ⟨_, _, _, ha⟩ := (mmuAssign_assigned h hlow hc hend flags page).of_ok hrun
        rw [ha.translate_eq v hv]
        by_cases hin : InRange address size v
        · rw [if_pos hin, if_pos hin, hc.frame_eq hin hpage hfit]
        · rw [if_neg hin, if_neg hin]
      · rw [(mmuAssign_last h hlow hc hlast flags page).of_ok hrun v hv]
        by_cases hin : InRange address size v
        · rw [if_pos hin, if_pos hin.2.1, hc.frame_eq hin hpage hfit]
        · rw [if_neg hin]
          by_cases hge : address ≤ v
          · rw [if_pos hge, hafter v hv (BitVec.not_lt.mp (fun hlt => hin ⟨hv, hge, hlt⟩))]
          · rw [if_neg hge]

theorem mmu_assign_maps_exactly_example : ∃ s, TopOk s exampleTop 0x5000#64 (blank 0#64 3) ∧
    AssignsExactly s exampleTop memoryWrite 0x7fffffe000#64 0x4000#64 0x7000#64 := by
  obtain ⟨s, s', htop, hok, hrun⟩ := exampleSpread_mapped
  have hroom : mmuAssign s exampleTop memoryWrite 0x7fffffe000#64 0x4000#64 0x7000#64 ≠
      .error outOfTables := by
    simp [hrun]
  exact ⟨s, htop, (mmu_assign_maps_exactly htop (hok.low (by decide)) (exampleSpread_checks htop)
    memoryWrite (by decide) (by decide) hroom).mpr (Or.inl (by decide))⟩

/-- One page in the last 512 GiB, in which the kernel is linked. -/
theorem mmu_assign_past_table_end : ∃ s, TopOk s exampleTop 0x5000#64 (blank 0#64 3) ∧
    EntryChecks s ⟨exampleTop, 0xffffffffffdff000#64, 0xffffffffffdff000#64 + 0x1000#64⟩ ∧
    mmuAssign s exampleTop memoryWrite 0xffffffffffdff000#64 0x1000#64 0x7000#64 =
      .error (.tableIndexOutOfBounds 512) ∧
    ¬ AssignsExactly s exampleTop memoryWrite 0xffffffffffdff000#64 0x1000#64 0x7000#64 := by
  obtain ⟨s, hadd, _, htop⟩ := exampleTop_ok
  have hrun : (pmmAdd bareMachine exampleRange.start exampleRange.size).bind (fun s =>
      (mmuAssign s exampleTop memoryWrite 0xffffffffffdff000#64 0x1000#64 0x7000#64).map
        (fun _ => ())) = .error (.tableIndexOutOfBounds 512) := by
    rw [pmmAdd]
    decide +kernel
  rw [hadd] at hrun
  cases h : mmuAssign s exampleTop memoryWrite 0xffffffffffdff000#64 0x1000#64 0x7000#64 with
  | ok s' => simp [Except.bind, Except.map, h] at hrun
  | error e =>
    refine ⟨s, htop, htop.checks (by decide) (by decide) (by decide) (by decide) (by decide), ?_, ?_⟩
    · simpa [Except.bind, Except.map, h] using hrun
    · intro hassigns
      obtain ⟨s', hok, -⟩ := hassigns
      rw [h] at hok
      contradiction

end Ukulele
