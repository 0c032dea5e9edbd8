import Ukulele.MmuCalls
import Ukulele.PmmRuns

/-! What the two calls do to translations, to memory and to the pages in use. -/

set_option autoImplicit false

namespace Ukulele
open RadixTree

def InRange (address : Uintptr) (size : Size) (v : Uintptr) : Prop :=
  mmuIsCanonicalAddress v = true ∧ address ≤ v ∧ v < address + size

instance (address : Uintptr) (size : Size) (v : Uintptr) : Decidable (InRange address size v) :=
  inferInstanceAs (Decidable (_ ∧ _))

section Keys

variable {s : Machine} {top : MmuPageMapPart} {address : Uintptr} {size : Size}

theorem EntryChecks.key_iff (h : EntryChecks s ⟨top, address, address + size⟩) {v : Uintptr}
    (hv : mmuIsCanonicalAddress v = true) :
    InRange address size v ↔
      pageKey address ≤ pageKey v ∧ pageKey v < pageKey (address + size) := by
  rw [h.mem_range_iff hv]
  exact and_iff_right hv

theorem EntryChecks.exists_address (h : EntryChecks s ⟨top, address, address + size⟩) {k : Nat}
    (hlo : pageKey address ≤ k) (hhi : k < pageKey (address + size)) :
    ∃ v, InRange address size v ∧ pageKey v = k := by
  obtain ⟨h₁, h₂, h₃, h₄, h₅⟩ := h.toNat
  simp only at h₁ h₂ h₃ h₄ h₅
  have hlt := (address + size).isLt
  unfold pageKey at hlo hhi
  rw [span_three] at hlo hhi
  have hn : (BitVec.ofNat 64 (addressBase address + 4096 * k)).toNat =
      addressBase address + 4096 * k := by
    rw [BitVec.toNat_ofNat, Nat.mod_eq_of_lt]
    unfold addressBase
    omega
  refine ⟨BitVec.ofNat 64 (addressBase address + 4096 * k), ⟨?_, ?_, ?_⟩, ?_⟩
  · rw [canonical_iff, hn]
    unfold addressBase
    omega
  · rw [BitVec.le_def, hn]
    unfold addressBase
    omega
  · rw [BitVec.lt_def, hn]
    unfold addressBase
    omega
  · unfold pageKey
    rw [span_three, hn]
    unfold addressBase
    omega

theorem EntryChecks.keyValue_eq (h : EntryChecks s ⟨top, address, address + size⟩) {v : Uintptr}
    (hv : InRange address size v) (value : Uintptr → BitVec 64) :
    keyValue value (addressBase address) (pageKey v) = value (pageOf v) := by
  obtain ⟨h₁, h₂, h₃, h₄, h₅⟩ := h.toNat
  simp only at h₁ h₂ h₃ h₄ h₅
  obtain ⟨hcan, hlo, hhi⟩ := hv
  have hv' := (canonical_iff v).mp hcan
  rw [BitVec.le_def] at hlo
  rw [BitVec.lt_def] at hhi
  unfold keyValue
  rw [keyAddress h.canonical]
  simp only
  omega

theorem InRange.toNat_offset {v : Uintptr} (hv : InRange address size v) (ha : Aligned address) :
    (pageOf v - address).toNat = v.toNat / 4096 * 4096 - address.toNat := by
  have hof := toNat_pageOf v
  have hlo := BitVec.le_def.mp hv.2.1
  unfold Aligned at ha
  rw [BitVec.toNat_sub_of_le, hof]
  rw [BitVec.le_def, hof]
  omega

theorem EntryChecks.frame_eq (h : EntryChecks s ⟨top, address, address + size⟩) {v : Uintptr}
    (hv : InRange address size v) {page : Physical} (hpage : Aligned page)
    (hfit : page.toNat + size.toNat ≤ 2 ^ 52) :
    (page + (pageOf v - address)) &&& mmuRegPhysAddressMask = page + (pageOf v - address) := by
  obtain ⟨h₁, h₂, h₃, h₄, h₅⟩ := h.toNat
  simp only at h₁ h₂ h₃ h₄ h₅
  have hsub := hv.toNat_offset h.start
  obtain ⟨hcan, hlo, hhi⟩ := hv
  rw [BitVec.le_def] at hlo
  rw [BitVec.lt_def] at hhi
  have hsum : (address + size).toNat = (address.toNat + size.toNat) % 2 ^ 64 :=
    BitVec.toNat_add address size
  have hsz := size.isLt
  have haddr := address.isLt
  have htotal : (page + (pageOf v - address)).toNat =
      page.toNat + (v.toNat / 4096 * 4096 - address.toNat) := by
    rw [BitVec.toNat_add, hsub, Nat.mod_eq_of_lt]
    omega
  unfold Aligned at hpage
  apply and_physAddressMask
  · unfold Aligned
    omega
  · omega

end Keys

section Trees

variable {T T₁ : PageTree 3} {a b : Nat}

theorem get_removed (hcov : ∀ k, a ≤ k → k < b → Covered 3 T k) (k : Nat) :
    get entryCoding 3 (removed T a b) k =
      if a ≤ k ∧ k < b then none else get entryCoding 3 T k := by
  rw [removed, get_prune]
  split
  · rename_i hk
    rw [get_setRange_of_mem entryCoding (by decide) (hcov k hk.1 hk.2) hk.1 hk.2,
      not_present_zero, if_neg Bool.false_ne_true]
  · rename_i hk
    exact get_setRange_of_notMem entryCoding (by decide) hk

theorem get_assigned (hr : Reserved 0#64 TableEntry 3 a b T T₁) {f : Nat → BitVec 64}
    (hf : ∀ k, entryCoding.present (f k) = true) (hb : b ≤ span 512 3) (k : Nat) :
    get entryCoding 3 (setRange 3 T₁ a b f) k =
      if a ≤ k ∧ k < b then some (f k) else get entryCoding 3 T k := by
  split
  · rename_i hk
    have hcov := hr.covered (by decide) hk.1 hk.2 (Nat.lt_of_lt_of_le hk.2 hb)
    rw [get_setRange_of_mem entryCoding (by decide) hcov hk.1 hk.2, if_pos (hf k)]
  · rename_i hk
    rw [get_setRange_of_notMem entryCoding (by decide) hk]
    exact hr.get_eq entryCoding not_present_zero k

theorem AllTables.assigned (hr : Reserved 0#64 TableEntry 3 a b T T₁)
    (h : AllTables TableEntry 3 T) (f : Nat → BitVec 64) :
    AllTables TableEntry 3 (setRange 3 T₁ a b f) :=
  (hr.allTables (fun _ hw => hw) h).setRange a b f

theorem AllTables.removed (h : AllTables TableEntry 3 T) :
    AllTables TableEntry 3 (removed T a b) :=
  (h.setRange a b _).prune entryCoding

end Trees

section Calls

variable {s : Machine} {top : MmuPageMapPart} {t : Physical} {T : PageTree 3}
  {address : Uintptr} {size : Size}

theorem pageKey_lt (v : Uintptr) : pageKey v < span 512 3 := key_lt_span _ 3

/-- `mmu_assign` as a change of the tree and of the translations. -/
structure Assigned (s s' : Machine) (top : MmuPageMapPart) (t : Physical) (T T' : PageTree 3)
    (address : Uintptr) (size : Size) (page : Physical) : Prop where
  step : TreeStep s s' t T T'
  topOk : TopOk s' top t T'
  noEmpty : NoEmpty entryCoding 3 T → NoEmpty entryCoding 3 T'
  translate_eq : ∀ v, mmuIsCanonicalAddress v = true → translate s' top v =
    if InRange address size v then
      .ok ⟨(page + (pageOf v - address)) &&& mmuRegPhysAddressMask, pageMapDepthMemory⟩
    else translate s top v

theorem mmuAssign_assigned (h : TopOk s top t T) (hlow : PmmLow s)
    (hc : EntryChecks s ⟨top, address, address + size⟩) (hend : address + size ≤ lastEntryStart)
    (flags : BitVec 32) (page : Physical) :
    Outcome (fun e => e = outOfTables)
      (fun s' => ∃ T₁ f,
        Reserved 0#64 TableEntry 3 (pageKey address) (pageKey (address + size)) T T₁ ∧
        Assigned s s' top t T
          (setRange 3 T₁ (pageKey address) (pageKey (address + size)) f) address size page)
      (mmuAssign s top flags address size page) := by
  apply (mmuAssign_spec h hlow hc hend flags page).mono (fun e he => he)
  intro s' ⟨T₁, hr, hstep⟩
  have hf : ∀ k, entryCoding.present
      (keyValue (assignEntry flags address page) (addressBase address) k) = true :=
    fun k => assignEntry_present flags address page _
  have htop := h.step hstep (AllTables.assigned hr h.entries _)
  have hlt : pageKey address < pageKey (address + size) :=
    (hc.locAt t (below_lastEntry hend)).lt
  refine ⟨T₁, _, hr, hstep, htop, fun hn => hr.noEmpty entryCoding (by decide) hn hlt hf, ?_⟩
  intro v hv
  rw [htop.translate_eq, get_assigned hr hf (Nat.le_of_lt (pageKey_lt _))]
  by_cases hin : InRange address size v
  · rw [if_pos hin, if_pos ((hc.key_iff hv).mp hin), hc.keyValue_eq hin, lookupResult,
      assignEntry_page]
  · rw [if_neg hin, if_neg (fun hk => hin ((hc.key_iff hv).mpr hk)), h.translate_eq]

/-- `mmu_remove` as a change of the tree and of the translations. -/
structure Removed (s s' : Machine) (top : MmuPageMapPart) (t : Physical) (T T' : PageTree 3)
    (address : Uintptr) (size : Size) : Prop where
  step : TreeStep s s' t T T'
  topOk : TopOk s' top t T'
  tables_subset : tables T' ⊆ tables T
  translate_eq : ∀ v, mmuIsCanonicalAddress v = true → translate s' top v =
    if InRange address size v then .ok ⟨0#64, pageMapDepthInvalid⟩ else translate s top v

theorem removed_subset {T : PageTree 3} {a b : Nat} : tables (removed T a b) ⊆ tables T := by
  have hsame : tables (setRange 3 T a b (fun _ => 0#64)) = tables T := pages_setRange entryCoding
  rw [← hsame]
  exact pages_prune entryCoding

theorem mmuRemove_removed (h : TopOk s top t T)
    (hc : EntryChecks s ⟨top, address, address + size⟩) (hend : address + size ≤ lastEntryStart)
    (hcov : ∀ k, pageKey address ≤ k → k < pageKey (address + size) → Covered 3 T k)
    (hman : ∀ p ∈ tables T, p ∉ tables (removed T (pageKey address) (pageKey (address + size))) →
      p ∈ s.pmm.managedPages) :
    ∃ s', mmuRemove s top address size = .ok s' ∧
      Removed s s' top t T (removed T (pageKey address) (pageKey (address + size)))
        address size := by
  obtain ⟨s', hrun, hstep⟩ := mmuRemove_spec h hc hend hcov hman
  have htop := h.step hstep (AllTables.removed h.entries)
  refine ⟨s', hrun, hstep, htop, removed_subset, ?_⟩
  intro v hv
  rw [htop.translate_eq, get_removed hcov]
  by_cases hin : InRange address size v
  · rw [if_pos hin, if_pos ((hc.key_iff hv).mp hin), lookupResult]
  · rw [if_neg hin, if_neg (fun hk => hin ((hc.key_iff hv).mpr hk)), h.translate_eq]

end Calls

section Pool

variable {s s' : Machine} {t : Physical} {n : Nat} {T T' : PageTree n}

theorem TreeStep.used_sdiff (h : TreeStep s s' t T T') :
    usedPages s' \ tables T' = usedPages s \ tables T := by
  have hpool := Finset.ext_iff.mp h.pool
  ext p
  have hp := hpool p
  rw [Finset.mem_union, Finset.mem_union] at hp
  simp only [usedPages, Finset.mem_sdiff, h.managed_eq]
  constructor
  · rintro ⟨⟨hm, hf⟩, hT⟩
    have hnot := fun hx => (hp.mpr hx).elim hf hT
    exact ⟨⟨hm, fun hx => hnot (Or.inl hx)⟩, fun hx => hnot (Or.inr hx)⟩
  · rintro ⟨⟨hm, hf⟩, hT⟩
    have hnot := fun hx => (hp.mp hx).elim hf hT
    exact ⟨⟨hm, fun hx => hnot (Or.inl hx)⟩, fun hx => hnot (Or.inr hx)⟩

theorem TreeStep.tables_used (h : TreeStep s s' t T T') (hp : PmmOk s)
    (hused : tables T ⊆ usedPages s) : tables T' ⊆ usedPages s' := by
  intro p hin
  rw [usedPages, Finset.mem_sdiff, h.managed_eq]
  refine ⟨?_, h.tree.not_free p (Finset.mem_insert_of_mem hin)⟩
  rcases h.table_origin hin with hf | hT
  · exact hp.free_subset_managed hf
  · exact (Finset.mem_sdiff.mp (hused hT)).1

end Pool

section Fresh

variable {s : Machine} {R : List PmmRange} {L : Finset Physical}

theorem PmmRunOk.low (h : PmmRunOk s R L) (hR : ∀ r ∈ R, r.stop ≤ 2 ^ 52) : PmmLow s := by
  intro p hp
  obtain ⟨i, hi, k, hk, rfl⟩ := mem_managedPages.mp hp
  obtain ⟨r, hr, -, hhi⟩ := h.inside i hi
  have hstop := hR r hr
  rw [(h.ok.block i hi).toNat_pageAt hk]
  simp only [PmmCtrlPtr.blockEnd] at hhi
  omega

theorem PmmRunOk.below (h : PmmRunOk s R L) {t : Physical}
    (hR : ∀ r ∈ R, t.toNat < r.start.toNat) :
    t ∉ s.pmm.managedPages ∧ t ∉ s.pmm.controlPages := by
  constructor
  · intro hm
    obtain ⟨i, hi, k, hk, he⟩ := mem_managedPages.mp hm
    obtain ⟨r, hr, hlo, -⟩ := h.inside i hi
    have hn := (h.ok.block i hi).toNat_pageAt hk
    have := hR r hr
    rw [he] at hn
    omega
  · intro hc
    obtain ⟨i, hi, he⟩ := mem_controlPages.mp hc
    obtain ⟨r, hr, hlo, -⟩ := h.inside i hi
    have := hR r hr
    rw [he] at hlo
    omega

theorem TopOk.of_zeroPage (hp : PmmOk s) {t : Physical} (ht : t ≠ 0#64)
    (ha : Aligned t) (hm : t ∉ s.pmm.managedPages) (hc : t ∉ s.pmm.controlPages)
    (hz : s.mem t = zeroPage) : TopOk s ⟨t, 0⟩ t (blank 0#64 3) := by
  have htables : pages entryCoding 3 (blank 0#64 3 : PageTree 3) = ∅ :=
    pages_blank entryCoding not_present_zero
  have hin : ∀ p ∈ insert t (tables (blank 0#64 3 : PageTree 3)), p = t := by
    intro p hp
    rw [tables, htables] at hp
    simpa using hp
  have hsep : Separated entryCoding 3 (blank 0#64 3 : PageTree 3) := separated_blank entryCoding
  refine ⟨if_neg ht, ha, ⟨read_blank entryCoding not_present_zero hz, hsep, ?_, ?_, ?_⟩,
    allTables_blank, hp⟩
  · rw [tables, htables]
    exact Finset.notMem_empty t
  · intro p hp' hfree
    rw [hin p hp'] at hfree
    exact hm (hp.free_subset_managed hfree)
  · intro p hp' hctrl
    rw [hin p hp'] at hctrl
    exact hc hctrl

def exampleTop : MmuPageMapPart := ⟨0x5000#64, 0⟩

theorem exampleTop_ok : ∃ s, pmmAdd bareMachine exampleRange.start exampleRange.size = .ok s ∧
    PmmRunOk s [exampleRange] ∅ ∧ TopOk s exampleTop 0x5000#64 (blank 0#64 3) := by
  have hbare := bareMachine_run.invariant
  have hout : Outside bareMachine exampleRange.start.toNat exampleRange.stop := by
    intro i hi
    contradiction
  obtain ⟨s, hs, hadd⟩ := pmmAdd_spec hbare.ok (by decide) (by decide) hout
  have hrun := hbare.add (by decide) (by simp) hs
  obtain ⟨hm, hc⟩ := hrun.below (t := 0x5000#64) (by decide)
  exact ⟨s, hs, hrun, TopOk.of_zeroPage hrun.ok (by decide) (by decide) hm hc
    (hadd.mem_eq _ (Or.inl (by decide)))⟩

theorem exampleTop_checks {s : Machine} {T : PageTree 3} (h : TopOk s exampleTop 0x5000#64 T) :
    EntryChecks s ⟨exampleTop, 0x200000#64, 0x200000#64 + 0x1000#64⟩ :=
  h.checks (by decide) (by decide) (by decide) (by decide) (by decide)

/-- Four pages, two on each side of a border between tables of every level. -/
theorem exampleSpread_checks {s : Machine} {T : PageTree 3} (h : TopOk s exampleTop 0x5000#64 T) :
    EntryChecks s ⟨exampleTop, 0x7fffffe000#64, 0x7fffffe000#64 + 0x4000#64⟩ :=
  h.checks (by decide) (by decide) (by decide) (by decide) (by decide)

theorem exampleTop_returns {flags : BitVec 32} {address : Uintptr} {size : Size} {page : Physical}
    (hrun : (pmmAdd bareMachine exampleRange.start exampleRange.size).bind (fun s =>
      (mmuAssign s exampleTop flags address size page).map (fun _ => ())) = .ok ()) :
    ∃ s s', TopOk s exampleTop 0x5000#64 (blank 0#64 3) ∧ PmmRunOk s [exampleRange] ∅ ∧
      mmuAssign s exampleTop flags address size page = .ok s' := by
  obtain ⟨s, hadd, hok, htop⟩ := exampleTop_ok
  rw [hadd] at hrun
  cases h : mmuAssign s exampleTop flags address size page with
  | error e => simp [Except.bind, Except.map, h] at hrun
  | ok s' => exact ⟨s, s', htop, hok, h⟩

theorem exampleSpread_mapped : ∃ s s', TopOk s exampleTop 0x5000#64 (blank 0#64 3) ∧
    PmmRunOk s [exampleRange] ∅ ∧
    mmuAssign s exampleTop memoryWrite 0x7fffffe000#64 0x4000#64 0x7000#64 = .ok s' := by
  apply exampleTop_returns
  rw [pmmAdd]
  decide +kernel

theorem exampleTop_mapped : ∃ s s' T₁ f, TopOk s exampleTop 0x5000#64 (blank 0#64 3) ∧
    PmmRunOk s [exampleRange] ∅ ∧
    mmuAssign s exampleTop memoryWrite 0x200000#64 0x1000#64 0x7000#64 = .ok s' ∧
    Reserved 0#64 TableEntry 3 512 513 (blank 0#64 3) T₁ ∧
    Assigned s s' exampleTop 0x5000#64 (blank 0#64 3) (setRange 3 T₁ 512 513 f) 0x200000#64
      0x1000#64 0x7000#64 := by
  obtain ⟨s, s', htop, hok, h⟩ := @exampleTop_returns memoryWrite 0x200000#64 0x1000#64 0x7000#64 (by
    rw [pmmAdd]
    decide +kernel)
  obtain ⟨T₁, f, hr, ha⟩ := (mmuAssign_assigned htop (hok.low (by decide)) (exampleTop_checks htop)
    (by decide) memoryWrite 0x7000#64).of_ok h
  exact ⟨s, s', T₁, f, htop, hok, h, hr, ha⟩

end Fresh

end Ukulele
