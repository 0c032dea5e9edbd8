import Ukulele.MmuEffects

/-! `mmu_remove` after `mmu_assign` on a range that held no pages. The tables taken for the range
are the ones given back, and the others are as they were.
-/

set_option autoImplicit false

namespace Ukulele
open RadixTree

variable {s : Machine} {top : MmuPageMapPart} {t : Physical} {T : PageTree 3}
  {address : Uintptr} {size : Size}

theorem TopOk.translate_none_iff (h : TopOk s top t T) (v : Uintptr) :
    translate s top v = .ok ⟨0#64, pageMapDepthInvalid⟩ ↔
      get entryCoding 3 T (pageKey v) = none := by
  rw [h.translate_eq, Except.ok.injEq]
  cases get entryCoding 3 T (pageKey v) with
  | none => simp [lookupResult]
  | some w => simp [lookupResult, pageMapDepthMemory, pageMapDepthInvalid]

theorem TreeStep.free_back {s₁ s₂ : Machine} {n : Nat} {T T' : PageTree n}
    (h : TreeOk s t T) (h₁ : TreeStep s s₁ t T T') (h₂ : TreeStep s₁ s₂ t T' T) :
    freePages s₂ = freePages s := by
  have hpool := Finset.ext_iff.mp (h₂.pool.trans h₁.pool)
  ext p
  have hp := hpool p
  rw [Finset.mem_union, Finset.mem_union] at hp
  constructor
  · intro hf
    cases hp.mp (Or.inl hf) with
    | inl hs => exact hs
    | inr hT => exact absurd hf (h₂.tree.not_free p (Finset.mem_insert_of_mem hT))
  · intro hf
    cases hp.mpr (Or.inl hf) with
    | inl hs => exact hs
    | inr hT => exact absurd hf (h.not_free p (Finset.mem_insert_of_mem hT))

/-- A tree without empty tables and without remains in its absent entries comes back as it was,
entry for entry, and so do the pages in use. -/
theorem mmu_remove_undoes_assign (h : TopOk s top t T) (hlow : PmmLow s)
    (hempty : NoEmpty entryCoding 3 T) (hclean : Clean entryCoding 0#64 3 T)
    (hc : EntryChecks s ⟨top, address, address + size⟩)
    (hend : address + size ≤ lastEntryStart)
    (hfree : ∀ v, InRange address size v → translate s top v = .ok ⟨0#64, pageMapDepthInvalid⟩)
    (flags : BitVec 32) (page : Physical)
    (hroom : mmuAssign s top flags address size page ≠ .error outOfTables) :
    ∃ s₁ s₂, mmuAssign s top flags address size page = .ok s₁ ∧
      mmuRemove s₁ top address size = .ok s₂ ∧
      TreeOk s₂ t T ∧ (∀ p ∈ insert t (tables T), s₂.mem p = s.mem p) ∧
      usedPages s₂ = usedPages s := by
  have hassign := mmuAssign_assigned h hlow hc hend flags page
  cases hrun : mmuAssign s top flags address size page with
  | error e =>
    rw [hrun] at hassign hroom
    exact absurd (congrArg Except.error hassign) hroom
  | ok s₁ =>
    obtain ⟨T₁, f, hr, ha⟩ := hassign.of_ok hrun
    have hb : pageKey (address + size) ≤ span 512 3 := Nat.le_of_lt (pageKey_lt _)
    have hunmapped : ∀ k, pageKey address ≤ k → k < pageKey (address + size) →
        get entryCoding 3 T k = none := by
      intro k hlo hhi
      obtain ⟨v, hv, rfl⟩ := hc.exists_address hlo hhi
      exact (h.translate_none_iff v).mp (hfree v hv)
    -- clearing and pruning lead back to the first tree
    have hback : removed (setRange 3 T₁ (pageKey address) (pageKey (address + size)) f)
        (pageKey address) (pageKey (address + size)) = T := by
      rw [removed, setRange_setRange]
      exact hr.prune_clear entryCoding (by decide) not_present_zero hclean hempty hunmapped
    have hc₁ := hc.congr ha.step.cr3_eq
    have hcov : ∀ k, pageKey address ≤ k → k < pageKey (address + size) →
        Covered 3 (setRange 3 T₁ (pageKey address) (pageKey (address + size)) f) k := by
      intro k hlo hhi
      rw [covered_setRange]
      exact hr.covered (by decide) hlo hhi (Nat.lt_of_lt_of_le hhi hb)
    obtain ⟨s₂, hrun₂, hremoved⟩ := mmuRemove_removed ha.topOk hc₁ hend hcov (by
      rw [hback]
      intro p hp hgone
      rw [ha.step.managed_eq]
      cases ha.step.table_origin hp with
      | inl hf => exact h.pmm.free_subset_managed hf
      | inr hT => exact absurd hT hgone)
    have hstep := hremoved.step
    rw [hback] at hstep
    refine ⟨s₁, s₂, rfl, hrun₂, hstep.tree, ?_, ?_⟩
    · exact mem_eq_of_read_eq entryCoding h.tree.read_eq hstep.tree.read_eq
    · rw [usedPages, usedPages, TreeStep.free_back h.tree ha.step hstep, hstep.managed_eq,
        ha.step.managed_eq]

theorem mmu_remove_undoes_assign_example : ∃ s s₁ s₂,
    TopOk s exampleTop 0x5000#64 (blank 0#64 3) ∧
    mmuAssign s exampleTop memoryWrite 0x7fffffe000#64 0x4000#64 0x7000#64 = .ok s₁ ∧
    mmuRemove s₁ exampleTop 0x7fffffe000#64 0x4000#64 = .ok s₂ ∧
    s₂.mem 0x5000#64 = s.mem 0x5000#64 ∧ usedPages s₂ = usedPages s := by
  obtain ⟨s, s', htop, hok, hrun⟩ := exampleSpread_mapped
  have hnone : ∀ v, translate s exampleTop v = .ok ⟨0#64, pageMapDepthInvalid⟩ := by
    intro v
    rw [htop.translate_none_iff]
    exact get_empty entryCoding (empty_blank entryCoding not_present_zero) _
  have hroom : mmuAssign s exampleTop memoryWrite 0x7fffffe000#64 0x4000#64 0x7000#64 ≠
      .error outOfTables := by
    simp [hrun]
  obtain ⟨s₁, s₂, h₁, h₂, _, hmem, hused⟩ := mmu_remove_undoes_assign htop (hok.low (by decide))
    (noEmpty_blank entryCoding) (clean_blank entryCoding) (exampleSpread_checks htop) (by decide)
    (fun v _ => hnone v) memoryWrite 0x7000#64 hroom
  exact ⟨s, s₁, s₂, htop, h₁, h₂, hmem _ (Finset.mem_insert_self _ _), hused⟩

end Ukulele
