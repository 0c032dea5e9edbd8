import Ukulele.PmmRuns

/-! Which addresses `pmm_free_page` takes back, and what a refused free leaves behind. -/

set_option autoImplicit false

namespace Ukulele

def pmmFreePageM (physical : Physical) : EStateM Fault Machine Unit := do
  if physical = 0#64 then return
  match owningEntry (← get).pmm physical with
  | some i =>
    let p := (← get).pmm.entry i
    let pageindex := ((physical - p.physicalStart) / pageSize).toNat
    let entry ← MonadExcept.ofExcept (entryIndex (pageindex / 64 : Nat))
    let bit := pageindex % 64
    if (← get).mem p.ctrl entry &&& (1#64 <<< bit) ≠ 0#64 then throw (.doubleFree physical)
    modify fun s => { s with
      mem := Function.update s.mem p.ctrl (Bitset.insert (s.mem p.ctrl) entry bit) }
    modify fun s => { s with
      pmm := ⟨Function.update s.pmm.entry i { p with freePages := p.freePages + 1#16 }⟩ }
  | none => throw (.badFree physical)

theorem pmmFreePageM_eq (s : Machine) (physical : Physical) :
    pmmFreePageM physical s = match pmmFreePage s physical with
      | .ok s' => .ok () s'
      | .error e => .error e s := by
  by_cases hz : physical = 0#64
  · simp only [pmmFreePageM, pmmFreePage, hz]
    rfl
  · simp only [pmmFreePageM, pmmFreePage, hz, if_false, bind, EStateM.bind, get, getThe,
      MonadStateOf.get, EStateM.get, pure]
    cases ho : owningEntry s.pmm physical with
    | none => rfl
    | some i =>
      simp only [EStateM.bind, EStateM.get, Except.bind]
      cases he : entryIndex (((physical - (s.pmm.entry i).physicalStart) / pageSize).toNat / 64 : Nat) with
      | error e => rfl
      | ok j =>
        simp only [MonadExcept.ofExcept, pure, EStateM.pure]
        split
        · rfl
        · rfl

def InPage (p physical : Physical) : Prop :=
  p.toNat ≤ physical.toNat ∧ physical.toNat < p.toNat + 4096

theorem InPage.eq {p q physical : Physical} (hp : InPage p physical) (hq : InPage q physical)
    (hap : Aligned p) (haq : Aligned q) : p = q := by
  simp only [InPage, Aligned] at *
  apply BitVec.eq_of_toNat_eq
  omega

theorem inPage_self (p : Physical) : InPage p p := by
  simp [InPage]

/-- The free returns for a page of `L` and panics with nothing changed for any other address. -/
def FreeDetects (s : Machine) (L : Finset Physical) (physical : Physical) : Prop :=
  match pmmFreePageM physical s with
  | .ok _ _ => physical ∈ L
  | .error _ s' => physical ∉ L ∧ s' = s

/-- The address is no pointer behind the first byte of a page of `L`. In a block that ends the
address space it is the other way around: it is not the page itself. -/
def PointsWell (s : Machine) (L : Finset Physical) (physical : Physical) : Prop :=
  ∀ i, (s.pmm.entry i).active = true → ∀ k < (s.pmm.entry i).maxPages.toNat,
    (s.pmm.entry i).pageAt k ∈ L → InPage ((s.pmm.entry i).pageAt k) physical →
      (physical = (s.pmm.entry i).pageAt k ↔ (s.pmm.entry i).blockEnd < 2 ^ 64)

section Detection

variable {s : Machine} {physical : Physical}

theorem InEntry.page {p : PmmCtrlPtr} {blk : RawPage} (hb : BlockOk p blk)
    (h : InEntry p physical) :
    p.blockEnd < 2 ^ 64 ∧ ((physical - p.physicalStart) / pageSize).toNat < p.maxPages.toNat ∧
      InPage (p.pageAt ((physical - p.physicalStart) / pageSize).toNat) physical := by
  obtain ⟨-, hlo, hhi⟩ := h
  have hpos : 0 < p.maxPages.toNat := by
    by_contra hz
    have hz : p.maxPages = 0#16 := BitVec.eq_of_toNat_eq (by simpa using hz)
    simp only [hz, BitVec.setWidth_zero, BitVec.mul_zero, BitVec.add_zero] at hhi
    exact absurd hlo (BitVec.not_le.mpr hhi)
  have hfits := hb.fits
  have hs : pageSize.toNat = 4096 := by decide
  have hidx : ((physical - p.physicalStart) / pageSize).toNat =
      (physical.toNat - p.physicalStart.toNat) / 4096 := by
    rw [BitVec.toNat_udiv, hs, BitVec.toNat_sub_of_le hlo]
  rw [BitVec.lt_def, hb.toNat_limit hpos] at hhi
  rw [BitVec.le_def, hb.toNat_start hpos] at hlo
  have hend : p.blockEnd < 2 ^ 64 := by
    by_contra hn
    have he : p.blockEnd = 2 ^ 64 := by omega
    simp [he] at hhi
  rw [Nat.mod_eq_of_lt hend, PmmCtrlPtr.blockEnd] at hhi
  rw [hidx, hb.toNat_start hpos]
  have hk : (physical.toNat - (p.ctrl.toNat + 4096)) / 4096 < p.maxPages.toNat := by omega
  refine ⟨hend, hk, ?_⟩
  rw [InPage, hb.toNat_pageAt hk]
  omega

theorem InPage.inEntry {p : PmmCtrlPtr} {blk : RawPage} (hb : BlockOk p blk)
    (ha : p.active = true) (hend : p.blockEnd < 2 ^ 64) {k : Nat} (hk : k < p.maxPages.toNat)
    (h : InPage (p.pageAt k) physical) : InEntry p physical := by
  rw [InPage, hb.toNat_pageAt hk] at h
  refine ⟨ha, ?_, ?_⟩
  · rw [BitVec.le_def, hb.toNat_start (by omega)]
    omega
  · rw [BitVec.lt_def, hb.toNat_limit (by omega), Nat.mod_eq_of_lt hend, PmmCtrlPtr.blockEnd]
    omega

theorem pmmFreePage_inEntry (h : PmmOk s) (hz : physical ≠ 0#64) {i : Fin 168}
    (ho : owningEntry s.pmm physical = some i) {k : Nat}
    (hk : ((physical - (s.pmm.entry i).physicalStart) / pageSize).toNat = k)
    (hlt : k < (s.pmm.entry i).maxPages.toNat) :
    (k ∈ Bitset.members (s.mem (s.pmm.entry i).ctrl) ∧
      pmmFreePage s physical = .error (.doubleFree physical)) ∨
    (k ∉ Bitset.members (s.mem (s.pmm.entry i).ctrl) ∧
      ∃ s', pmmFreePage s physical = .ok s') := by
  have hmax := (h.block i (owningEntry_some ho).1).max_le
  let j : Fin 512 := ⟨k / 64, by omega⟩
  have hfree := pmmFreePage_bit hz ho hk (rfl : j.val = k / 64)
  by_cases hin : k ∈ Bitset.members (s.mem (s.pmm.entry i).ctrl)
  · rw [if_pos hin] at hfree
    exact Or.inl ⟨hin, hfree⟩
  · rw [if_neg hin] at hfree
    exact Or.inr ⟨hin, _, hfree⟩

theorem PmmOk.used_pageAt (h : PmmOk s) {i : Fin 168} (hi : (s.pmm.entry i).active = true)
    {k : Nat} (hk : k < (s.pmm.entry i).maxPages.toNat) :
    (s.pmm.entry i).pageAt k ∈ usedPages s ↔ k ∉ Bitset.members (s.mem (s.pmm.entry i).ctrl) := by
  rw [mem_usedPages h]
  constructor
  · rintro ⟨j, hj, l, hl, hn, he⟩
    obtain ⟨rfl, rfl⟩ := h.pageAt_unique hj hi hl hk he
    exact hn
  · intro hn
    exact ⟨i, hi, k, hk, hn, rfl⟩

theorem PmmOk.used_aligned (h : PmmOk s) {p : Physical} (hp : p ∈ usedPages s) : Aligned p :=
  h.managed_aligned (Finset.mem_sdiff.mp hp).1

theorem PmmOk.freeDetects_none (h : PmmOk s) (hz : physical ≠ 0#64)
    (ho : owningEntry s.pmm physical = none) :
    FreeDetects s (usedPages s) physical ↔ PointsWell s (usedPages s) physical := by
  have hbad : pmmFreePageM physical s = .error (.badFree physical) s := by
    simp [pmmFreePageM_eq, pmmFreePage, hz, ho]
  simp only [FreeDetects, hbad, and_true]
  constructor
  · intro hnot i hi k hk hlive hin
    -- A page of such an address lies in a block that wraps.
    have hend : ¬ (s.pmm.entry i).blockEnd < 2 ^ 64 :=
      fun hend => owningEntry_none ho i (hin.inEntry (h.block i hi) hi hend hk)
    have hne : physical ≠ (s.pmm.entry i).pageAt k := fun he => hnot (he ▸ hlive)
    exact iff_of_false hne hend
  · intro hwell hlive
    obtain ⟨i, hi, k, hk, -, rfl⟩ := (mem_usedPages h).mp hlive
    have hend := (hwell i hi k hk hlive (inPage_self _)).mp rfl
    exact owningEntry_none ho i ((inPage_self _).inEntry (h.block i hi) hi hend hk)

theorem PmmOk.freeDetects_some (h : PmmOk s) (hz : physical ≠ 0#64) {i : Fin 168}
    (ho : owningEntry s.pmm physical = some i) :
    FreeDetects s (usedPages s) physical ↔ PointsWell s (usedPages s) physical := by
  have hi := (owningEntry_some ho).1
  obtain ⟨hend, hk, hpage⟩ := (owningEntry_some ho).page (h.block i hi)
  have hlive := h.used_pageAt hi hk
  have hfree := pmmFreePage_inEntry h hz ho rfl hk
  generalize ((physical - (s.pmm.entry i).physicalStart) / pageSize).toNat = k at *
  have honly : ∀ j, (s.pmm.entry j).active = true → ∀ l < (s.pmm.entry j).maxPages.toNat,
      InPage ((s.pmm.entry j).pageAt l) physical → j = i ∧ l = k := by
    intro j hj l hl hin
    have he := hin.eq hpage ((h.block j hj).pageAt_aligned hl) ((h.block i hi).pageAt_aligned hk)
    exact h.pageAt_unique hj hi hl hk he
  have hphys : physical ∈ usedPages s → physical = (s.pmm.entry i).pageAt k :=
    fun hmem => (inPage_self physical).eq hpage (h.used_aligned hmem)
      ((h.block i hi).pageAt_aligned hk)
  rcases hfree with ⟨hin, herror⟩ | ⟨hin, s', hok⟩
  · have hdead : physical ∉ usedPages s := by
      intro hmem
      rw [hphys hmem] at hmem
      exact hlive.mp hmem hin
    have hwell : PointsWell s (usedPages s) physical := by
      intro j hj l hl hmem hin'
      obtain ⟨rfl, rfl⟩ := honly j hj l hl hin'
      exact absurd hin (hlive.mp hmem)
    simp [FreeDetects, pmmFreePageM_eq, herror, hdead, hwell]
  · simp only [FreeDetects, pmmFreePageM_eq, hok]
    constructor
    · intro hmem j hj l hl _ hin'
      obtain ⟨rfl, rfl⟩ := honly j hj l hl hin'
      exact iff_of_true (hphys hmem) hend
    · intro hwell
      rw [(hwell i hi k hk (hlive.mpr hin) hpage).mpr hend]
      exact hlive.mpr hin

theorem PmmOk.freeDetects_iff (h : PmmOk s) (hz : physical ≠ 0#64) :
    FreeDetects s (usedPages s) physical ↔ PointsWell s (usedPages s) physical := by
  cases ho : owningEntry s.pmm physical with
  | none => exact h.freeDetects_none hz ho
  | some i => exact h.freeDetects_some hz ho

end Detection

/-- `pmm_free_page` takes back the pages that are out and refuses every other address, changing
nothing, exactly if the address points well. -/
theorem pmm_free_detects_iff {s : Machine} {R : List PmmRange} {L : Finset Physical}
    (h : PmmRun s R L) {physical : Physical} (hz : physical ≠ 0#64) :
    FreeDetects s L physical ↔ PointsWell s L physical := by
  rw [← h.invariant.live]
  exact h.invariant.ok.freeDetects_iff hz

theorem exampleRange_taken : ∃ s, PmmRun s [exampleRange] {0x101000#64} := by
  obtain ⟨s, hrun, hfirst⟩ := exampleRange_run
  cases h : pmmAllocatePage s with
  | error e => simp [h, Except.map] at hfirst
  | ok r =>
    obtain ⟨p, s'⟩ := r
    have hp : p = 0x101000#64 := by simpa [h, Except.map] using hfirst
    subst hp
    exact ⟨s', hrun.take (by decide) h⟩

theorem exampleRange_blockEnd {s : Machine} {L : Finset Physical}
    (h : PmmRun s [exampleRange] L) {i : Fin 168} (hi : (s.pmm.entry i).active = true) :
    (s.pmm.entry i).blockEnd < 2 ^ 64 := by
  obtain ⟨r, hr, -, hle⟩ := h.invariant.inside i hi
  rw [List.mem_singleton.mp hr] at hle
  have hstop : exampleRange.stop = 0x140000 := by decide
  omega

theorem pmm_free_detects_iff_example : ∃ s, PmmRun s [exampleRange] {0x101000#64} ∧
    FreeDetects s {0x101000#64} 0x101000#64 := by
  obtain ⟨s, hrun⟩ := exampleRange_taken
  refine ⟨s, hrun, (pmm_free_detects_iff hrun (by decide)).mpr ?_⟩
  intro i hi k hk hlive _
  exact iff_of_true (Finset.mem_singleton.mp hlive).symm (exampleRange_blockEnd hrun hi)

/-- A pointer into a page that is out: the page is given back. -/
theorem pmm_free_takes_inner_pointer : ∃ s, PmmRun s [exampleRange] {0x101000#64} ∧
    (∃ s', pmmFreePage s 0x101008#64 = .ok s') ∧ ¬ FreeDetects s {0x101000#64} 0x101008#64 := by
  obtain ⟨s, hrun⟩ := exampleRange_taken
  have hlive : (0x101000#64 : Physical) ∈ usedPages s := by
    rw [hrun.invariant.live]
    exact Finset.mem_singleton_self _
  obtain ⟨i, hi, k, hk, -, he⟩ := (mem_usedPages hrun.invariant.ok).mp hlive
  have hwell : ¬ PointsWell s {0x101000#64} 0x101008#64 := by
    intro hwell
    have hin : InPage ((s.pmm.entry i).pageAt k) 0x101008#64 := by
      simp [he, InPage]
    have hself := (hwell i hi k hk (by simp [he]) hin).mpr (exampleRange_blockEnd hrun hi)
    rw [he] at hself
    contradiction
  have hnot : ¬ FreeDetects s {0x101000#64} 0x101008#64 := by
    rw [← hrun.invariant.live] at hwell ⊢
    rwa [hrun.invariant.ok.freeDetects_iff (by decide)]
  refine ⟨s, hrun, ?_, hnot⟩
  cases hf : pmmFreePage s 0x101008#64 with
  | ok s' => exact ⟨s', rfl⟩
  | error e => exact absurd (by simp [FreeDetects, pmmFreePageM_eq, hf]) hnot

end Ukulele
