import Ukulele.MmuEffects

/-! `mmu_assign` on a part of the page map at any depth, the leaf tables included. -/

set_option autoImplicit false

namespace Ukulele
open RadixTree

def partBase (n : Nat) (v : Uintptr) : Nat :=
  v.toNat / (4096 * span 512 n) * (4096 * span 512 n)

/-- The two addresses are below the same table of height `n`. -/
def SameTable (n : Nat) (u v : Uintptr) : Prop := pageKey u / span 512 n = pageKey v / span 512 n

def InSpan (n : Nat) (address : Uintptr) (size : Size) : Prop :=
  ∀ v, InRange address size v → SameTable n address v

def partEnd (n : Nat) (address : Uintptr) (size : Size) : Nat :=
  ((address + size).toNat - partBase n address) / 4096

theorem inSpan_three (address : Uintptr) (size : Size) : InSpan 3 address size := by
  intro v _
  unfold SameTable
  rw [Nat.div_eq_of_lt (pageKey_lt address), Nat.div_eq_of_lt (pageKey_lt v)]

theorem partBase_add (n : Nat) {u v : Uintptr}
    (h : u.toNat / (4096 * span 512 n) = v.toNat / (4096 * span 512 n)) :
    partBase n u + 4096 * partKey n v = v.toNat / 4096 * 4096 := by
  have hv := Nat.div_add_mod (v.toNat / 4096) (span 512 n)
  rw [Nat.div_div_eq_div_mul] at hv
  calc partBase n u + 4096 * partKey n v
      = 4096 * (span 512 n * (v.toNat / (4096 * span 512 n)) + v.toNat / 4096 % span 512 n) := by
        unfold partBase partKey
        rw [h]
        ring
    _ = v.toNat / 4096 * 4096 := by rw [hv, Nat.mul_comm]

section Ranges

variable {s : Machine} {part : MmuPageMapPart} {p : Physical} {d n : Nat} {address : Uintptr}
  {size : Size}

theorem InSpan.quotient (h : InSpan n address size) (hd : d + n = 3)
    (hc : EntryChecks s ⟨part, address, address + size⟩) {v : Uintptr}
    (hv : InRange address size v) :
    address.toNat / (4096 * span 512 n) = v.toNat / (4096 * span 512 n) := by
  obtain ⟨h₁, h₂, h₃, h₄, h₅⟩ := hc.toNat
  simp only at h₁ h₂ h₃ h₄ h₅
  have hsame := h v hv
  obtain ⟨hcan, hlo, hhi⟩ := hv
  have hv' := (canonical_iff v).mp hcan
  rw [BitVec.le_def] at hlo
  rw [BitVec.lt_def] at hhi
  unfold SameTable pageKey at hsame
  rw [span_three] at hsame
  have hlevel : n = 0 ∨ n = 1 ∨ n = 2 ∨ n = 3 := by omega
  rcases hlevel with rfl | rfl | rfl | rfl <;> simp only [span] at hsame ⊢ <;> omega

theorem EntryChecks.toNat_last (hc : EntryChecks s ⟨part, address, address + size⟩) :
    (address + size - pageSize).toNat = (address + size).toNat - 4096 := by
  obtain ⟨h₁, h₂, h₃, h₄, h₅⟩ := hc.toNat
  simp only at h₁ h₂ h₃ h₄ h₅
  have hp : pageSize.toNat = 4096 := by decide
  rw [BitVec.toNat_sub_of_le, hp]
  rw [BitVec.le_def, hp]
  omega

theorem EntryChecks.first_inRange (hc : EntryChecks s ⟨part, address, address + size⟩) :
    InRange address size address := ⟨hc.canonical, BitVec.le_refl address, hc.order⟩

theorem EntryChecks.last_inRange (hc : EntryChecks s ⟨part, address, address + size⟩) :
    InRange address size (address + size - pageSize) := by
  obtain ⟨h₁, h₂, h₃, h₄, h₅⟩ := hc.toNat
  simp only at h₁ h₂ h₃ h₄ h₅
  have hlast := hc.toNat_last
  refine ⟨?_, ?_, ?_⟩
  · rw [canonical_iff, hlast]
    omega
  · rw [BitVec.le_def, hlast]
    omega
  · rw [BitVec.lt_def, hlast]
    omega

theorem InSpan.locAt (h : InSpan n address size) (hd : d + n = 3)
    (hc : EntryChecks s ⟨part, address, address + size⟩)
    (hend : address + size ≤ lastEntryStart) :
    LocAt ⟨⟨p, d⟩, address, address + size⟩ n (partBase n address) (partKey n address)
      (partEnd n address size) := by
  obtain ⟨h₁, h₂, h₃, h₄, h₅⟩ := hc.toNat
  simp only at h₁ h₂ h₃ h₄ h₅
  have hfar := below_lastEntry hend
  have hlast := h.quotient hd hc hc.last_inRange
  rw [hc.toNat_last] at hlast
  have hbase : partBase n address + 4096 * partKey n address = address.toNat := by
    rw [partBase_add n rfl]
    omega
  have hkey : partKey n address < span 512 n := key_lt_span _ n
  have hmul : partBase n address =
      address.toNat / (4096 * span 512 n) * (4096 * span 512 n) := rfl
  have hnext : partBase n address + 4096 * partEnd n address size = (address + size).toNat := by
    unfold partEnd
    omega
  have hsizes : 4096 * span 512 n ≤ 2 ^ 48 ∧ 4096 * width 512 n ≤ 2 ^ 39 ∧
      partBase n address + 4096 * span 512 n ≤ 2 ^ 64 ∧
      (address + size).toNat ≤ partBase n address + 4096 * span 512 n := by
    have hlevel : n = 0 ∨ n = 1 ∨ n = 2 ∨ n = 3 := by omega
    have hlt := address.isLt
    rcases hlevel with rfl | rfl | rfl | rfl <;> simp only [span, width] at hlast hmul ⊢ <;> omega
  obtain ⟨hspan, hwidth, hfits, hin⟩ := hsizes
  refine ⟨⟨hd, ?_, hbase.symm, ?_, ?_, hkey, hfits, ?_, ?_⟩, ?_, Or.inl ?_⟩
  · rw [hmul, Nat.mul_mod_left]
  · change (address + size).toNat = _
    omega
  · omega
  · omega
  · omega
  · omega
  · omega

theorem InSpan.partKey_mem (h : InSpan n address size) (hd : d + n = 3)
    (hc : EntryChecks s ⟨part, address, address + size⟩) {v : Uintptr}
    (hv : InRange address size v) :
    partKey n address ≤ partKey n v ∧ partKey n v < partEnd n address size := by
  obtain ⟨h₁, h₂, h₃, h₄, h₅⟩ := hc.toNat
  simp only at h₁ h₂ h₃ h₄ h₅
  have hstart := partBase_add n (rfl : address.toNat / (4096 * span 512 n) = _)
  have hkey := partBase_add n (h.quotient hd hc hv)
  have hlo := BitVec.le_def.mp hv.2.1
  have hhi := BitVec.lt_def.mp hv.2.2
  unfold partEnd
  omega

theorem InSpan.keyValue_eq (h : InSpan n address size) (hd : d + n = 3)
    (hc : EntryChecks s ⟨part, address, address + size⟩) {v : Uintptr}
    (hv : InRange address size v) (value : Uintptr → BitVec 64) :
    keyValue value (partBase n address) (partKey n v) = value (pageOf v) := by
  unfold keyValue
  congr 1
  apply BitVec.eq_of_toNat_eq
  have hlt := v.isLt
  rw [partBase_add n (h.quotient hd hc hv), toNat_pageOf, BitVec.toNat_ofNat]
  omega

theorem InSpan.exists_address (h : InSpan n address size) (hd : d + n = 3)
    (hc : EntryChecks s ⟨part, address, address + size⟩) (hend : address + size ≤ lastEntryStart)
    {k : Nat} (hlo : partKey n address ≤ k) (hhi : k < partEnd n address size) :
    ∃ v, InRange address size v ∧ partKey n v = k := by
  have hloc : LocAt ⟨⟨0#64, d⟩, address, address + size⟩ n _ _ _ := h.locAt hd hc hend
  obtain ⟨h₁, h₂, h₃, h₄, h₅⟩ := hc.toNat
  simp only at h₁ h₂ h₃ h₄ h₅
  have hstart := partBase_add n (rfl : address.toNat / (4096 * span 512 n) = _)
  have hlt := (address + size).isLt
  have hv : (BitVec.ofNat 64 (partBase n address + 4096 * k)).toNat =
      partBase n address + 4096 * k := by
    rw [BitVec.toNat_ofNat, Nat.mod_eq_of_lt]
    unfold partEnd at hhi
    omega
  refine ⟨BitVec.ofNat 64 (partBase n address + 4096 * k), ⟨?_, ?_, ?_⟩, ?_⟩
  · rw [canonical_iff, hv]
    unfold partEnd at hhi
    omega
  · rw [BitVec.le_def, hv]
    omega
  · rw [BitVec.lt_def, hv]
    unfold partEnd at hhi
    omega
  · have hbase : partBase n address = 4096 * (span 512 n *
        (address.toNat / (4096 * span 512 n))) := by
      unfold partBase
      ring
    rw [partKey, hv, hbase, ← Nat.mul_add, Nat.mul_div_cancel_left _ (by decide),
      Nat.mul_add_mod, Nat.mod_eq_of_lt (Nat.lt_of_lt_of_le hhi hloc.le)]

end Ranges

section LeafTables

-- Below the last depth there are no more tables. There the pass takes a page for each leaf entry
-- that is not there, and the entry that names the page is overwritten by the second pass.
variable {s s₁ : Machine} {t : Physical} {loc loc₀ : NodeCommandLoc} {B a b k : Nat}

theorem TreeOk.of_leaves (hfree : t ∉ freePages s) (hctrl : t ∉ s.pmm.controlPages) :
    TreeOk s t (pageTree s 0 t) := by
  have hnone : ∀ p ∈ insert t (tables (pageTree s 0 t)), p = t := by
    intro p hp
    rw [tables, pages_zero] at hp
    simpa using hp
  refine ⟨rfl, trivial, ?_, ?_, ?_⟩
  · rw [tables, pages_zero]
    exact Finset.notMem_empty t
  · intro p hp
    rwa [hnone p hp]
  · intro p hp
    rwa [hnone p hp]

/-- The machine when the pass is at entry `k` of the leaf table at `t`. -/
structure PagesTaken (s s' : Machine) (t : Physical) (a k : Nat) : Prop where
  tree : TreeOk s' t (pageTree s' 0 t)
  pmm : PmmOk s'
  managed_eq : s'.pmm.managedPages = s.pmm.managedPages
  cr3_eq : s'.cr3 = s.cr3
  free_subset : freePages s' ⊆ freePages s
  ahead : ∀ i : Fin 512, k ≤ i.val → s'.mem t i = s.mem t i
  taken : ∀ i : Fin 512, a ≤ i.val → i.val < k → entryCoding.present (s.mem t i) = false →
    freePages s' ⊂ freePages s

theorem PagesTaken.refl (h : TreeOk s t (pageTree s 0 t)) (hp : PmmOk s) (hk : k ≤ a) :
    PagesTaken s s t a k := by
  refine ⟨h, hp, rfl, rfl, Finset.Subset.refl _, fun _ _ => rfl, ?_⟩
  intro i hlo hhi
  omega

theorem PagesTaken.used_lt (h : PagesTaken s s₁ t a k) (hp : PmmOk s) {i : Fin 512}
    (hlo : a ≤ i.val) (hhi : i.val < k) (hi : entryCoding.present (s.mem t i) = false) :
    (usedPages s).card < (usedPages s₁).card := by
  have hlt := Finset.card_lt_card (h.taken i hlo hhi hi)
  have hle := Finset.card_le_card hp.free_subset_managed
  have hsub := h.free_subset.trans hp.free_subset_managed
  unfold usedPages
  rw [h.managed_eq, Finset.card_sdiff_of_subset hp.free_subset_managed,
    Finset.card_sdiff_of_subset hsub]
  omega

theorem TreeStep.used_leaves {T T' : PageTree 0} (h : TreeStep s s₁ t T T') :
    usedPages s₁ = usedPages s := by
  have hpool := h.pool
  rw [tables, tables, pages_zero, pages_zero, Finset.union_empty, Finset.union_empty] at hpool
  rw [usedPages, usedPages, h.managed_eq, hpool]

theorem nodeCallbackReserve_bottom (fuel : Nat) (h : loc.page.depth = 4) (entry : EntryPtr)
    (s : Machine) :
    nodeCallbackReserve fuel loc entry s =
      if s.load entry &&& mmuRegPresent = 0#64 then
        allocate s >>= fun r => .ok (r.2.assign entry (r.1 ||| pmPerms))
      else .ok s := by
  have hdeep : ¬ loc.page.depth < pageMapDepthBottom := by
    rw [h]
    decide
  have hbelow : ∀ (page : Physical) (s : Machine),
      reserveBelow fuel { loc with page := { loc.page with page := page } } s = .ok s :=
    fun _ _ => if_neg hdeep
  rw [nodeCallbackReserve_eq, reserveEntry]
  split
  · rw [bind_assoc]
    simp only [pure_bind, hbelow]
  · exact hbelow loc.page.page s

theorem PagesTaken.visit (h : PagesTaken s s₁ t a k) {i : Fin 512} (hi : i.val = k) {fuel : Nat}
    (hdepth : loc.page.depth = 4) :
    Outcome (fun e => e = outOfTables) (fun s₂ => PagesTaken s s₂ t a (k + 1))
      (nodeCallbackReserve fuel loc ⟨t, i⟩ s₁) := by
  have hload : s₁.load ⟨t, i⟩ = s.mem t i := h.ahead i (Nat.le_of_eq hi.symm)
  rw [nodeCallbackReserve_bottom fuel hdepth, hload]
  by_cases hpresent : s.mem t i &&& mmuRegPresent = 0#64
  · rw [if_pos hpresent]
    apply (allocate_spec h.pmm).bind
    rintro ⟨p, u⟩ ⟨u₀, ha, hu⟩
    simp only at hu ha
    subst hu
    have hin := h.tree.entered h.pmm i ha
    have hless : freePages ((({ u₀ with mem := Function.update u₀.mem p zeroPage } : Machine).assign
        ⟨t, i⟩ (p ||| pmPerms))) ⊂ freePages s₁ := by
      rw [hin.free_eq]
      exact Finset.erase_ssubset hin.was_free
    have hroot := Finset.mem_insert_self t (tables (pageTree s₁ 0 t))
    refine ⟨TreeOk.of_leaves ?_ ?_, hin.pmm, hin.managed_eq.trans h.managed_eq,
      hin.cr3_eq.trans h.cr3_eq, hless.subset.trans h.free_subset, ?_, ?_⟩
    · exact fun hf => h.tree.not_free t hroot (hless.subset hf)
    · rw [hin.control_eq]
      exact h.tree.not_control t hroot
    · intro j hj
      have hne : j ≠ i := by
        rintro rfl
        omega
      rw [hin.table_eq, Function.update_of_ne hne]
      exact h.ahead j (by omega)
    · intro j _ _ _
      exact hless.trans_subset h.free_subset
  · rw [if_neg hpresent]
    refine ⟨h.tree, h.pmm, h.managed_eq, h.cr3_eq, h.free_subset,
      fun j hj => h.ahead j (by omega), ?_⟩
    intro j hlo hhi hj
    by_cases hji : j = i
    · subst hji
      exact absurd (not_present_iff.mp hj) hpresent
    · have hne : j.val ≠ i.val := fun he => hji (Fin.ext he)
      exact h.taken j hlo (by omega) hj

theorem reserve_leaf_table {fuel : Nat} {T : PageTree 0} (hloc : LocAt loc 0 B a b)
    (htree : TreeOk s loc.page.page T) (hp : PmmOk s) :
    Outcome (fun e => e = outOfTables) (fun s' => PagesTaken s s' loc.page.page a b)
      (applyNodes loc (nodeCallbackReserve fuel) s) := by
  have hrun : Outcome (fun e => e = outOfTables) _ (applyNodes loc (nodeCallbackReserve fuel) s) :=
    hloc.loop (fun k s' => PagesTaken s s' loc.page.page a k)
    (fun i hi _ s' hs' => hs'.visit rfl (hloc.child_bottom _ _))
    (by
      simp only [width, Nat.div_one]
      have hread := htree.read_eq
      subst hread
      exact PagesTaken.refl htree hp (Nat.le_refl a))
  simp only [width, Nat.div_one, Nat.add_sub_cancel] at hrun
  exact hrun

theorem reserve_leaf_table_eq {fuel : Nat} (hloc : LocAt loc 0 B a b)
    (hall : ∀ i : Fin 512, a ≤ i.val → i.val < b →
      entryCoding.present (s.mem loc.page.page i) = true) :
    applyNodes loc (nodeCallbackReserve fuel) s = .ok s := by
  have hrun : Outcome (fun _ => False) _ (applyNodes loc (nodeCallbackReserve fuel) s) :=
    hloc.loop (fun _ s' => s' = s)
    (by
      intro i hi hm s' hs'
      subst hs'
      unfold Meets at hm
      simp only [width] at hm
      have hlo : a ≤ i := by omega
      have hhi : i < b := by omega
      have hpresent := present_iff.mp (hall ⟨i, hi⟩ hlo hhi)
      rw [nodeCallbackReserve_bottom fuel (hloc.child_bottom _ _)]
      exact Outcome.of_eq (if_neg hpresent) rfl)
    rfl
  obtain ⟨s', hs', rfl⟩ := hrun.returns
  exact hs'

theorem assign_leaf_passes {T : PageTree 0} (htree : TreeOk s loc.page.page T) (hp : PmmOk s)
    (hloc : LocAt loc 0 B a b) (henter : Enters s loc₀ loc) {callback : LeafCallback}
    {value : Uintptr → BitVec 64} (hcb : StoresAt callback value) :
    Outcome (fun e => e = outOfTables)
      (fun s' => ∃ s₁, PagesTaken s s₁ loc.page.page a b ∧
        TreeStep s₁ s' loc.page.page (pageTree s₁ 0 loc.page.page)
          (setRange 0 (pageTree s₁ 0 loc.page.page) a b (keyValue value B)))
      (applyNodesEntry loc₀ (nodeCallbackReserve walkFuel) s >>=
        applyNodesEntry loc₀ (nodeCallbackLeaf callback walkFuel)) := by
  rw [henter _ s rfl]
  apply (reserve_leaf_table hloc htree hp).bind
  intro s₁ h₁
  rw [henter _ s₁ h₁.cr3_eq]
  have hleaf : Outcome (fun _ => False) _
      (applyNodes loc (nodeCallbackLeaf callback walkFuel) s₁) :=
    leaf_table_spec hcb hloc h₁.tree h₁.pmm
  obtain ⟨s₂, hrun, hstep⟩ := hleaf.returns
  exact Outcome.of_eq hrun ⟨s₁, h₁, hstep⟩

end LeafTables

section Calls

variable {s : Machine} {part : MmuPageMapPart} {p : Physical} {d n : Nat} {T : PageTree n}
  {address : Uintptr} {size : Size}

theorem mmuAssign_entries (hpart : resolve s part = ⟨p, d⟩) (hd : d + n = 3) (htree : TreeOk s p T)
    (hp : PmmOk s) (hlow : PmmLow s) (hspan : InSpan n address size)
    (hc : EntryChecks s ⟨part, address, address + size⟩) (hend : address + size ≤ lastEntryStart)
    (flags : BitVec 32) (page : Physical) :
    Outcome (fun e => e = outOfTables)
      (fun s' => ∀ v, InRange address size v → get entryCoding n (pageTree s' n p) (partKey n v) =
        some (assignEntry flags address page (pageOf v)))
      (mmuAssign s part flags address size page) := by
  have hloc : LocAt ⟨⟨p, d⟩, address, address + size⟩ n _ _ _ := hspan.locAt hd hc hend
  have henter := hc.enters hpart
  have hcb := assign_storesAt flags address page
  have hentry : ∀ {s' : Machine} {T₁ : PageTree n},
      pageTree s' n p = setRange n T₁ (partKey n address) (partEnd n address size)
        (keyValue (assignEntry flags address page) (partBase n address)) →
      (∀ k, partKey n address ≤ k → k < partEnd n address size → Covered n T₁ k) →
      ∀ v, InRange address size v → get entryCoding n (pageTree s' n p) (partKey n v) =
        some (assignEntry flags address page (pageOf v)) := by
    intro s' T₁ hread hcov v hv
    obtain ⟨hlo, hhi⟩ := hspan.partKey_mem hd hc hv
    rw [hread, get_setRange_of_mem entryCoding (by decide) (hcov _ hlo hhi) hlo hhi,
      hspan.keyValue_eq hd hc hv, if_pos (assignEntry_present flags address page _)]
  cases n with
  | zero =>
    apply (assign_leaf_passes htree hp hloc henter hcb).mono (fun e he => he)
    intro s' ⟨s₁, h₁, hstep⟩
    apply hentry hstep.tree.read_eq
    intro k _ hk
    exact Nat.lt_of_lt_of_le hk hloc.le
  | succ n =>
    have hdepth : d < pageMapDepthBottom := by
      unfold pageMapDepthBottom
      omega
    apply (assign_passes htree hp hlow hdepth hloc henter hcb).mono (fun e he => he)
    intro s' ⟨T₁, hr, hstep⟩
    apply hentry hstep.tree.read_eq
    intro k hlo hk
    exact hr.covered (by decide) hlo hk (Nat.lt_of_lt_of_le hk hloc.le)

end Calls

end Ukulele
