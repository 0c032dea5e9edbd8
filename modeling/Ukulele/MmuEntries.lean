import Ukulele.MmuTrees

/-! Single entries: the bits of an entry word, a table allocated behind an entry, an empty
table freed, and a leaf entry stored.
-/

set_option autoImplicit false

namespace Ukulele
open RadixTree

theorem getLsbD_physAddressMask {i : Nat} (hi : i < 64) :
    mmuRegPhysAddressMask.getLsbD i = decide (12 ≤ i ∧ i < 52) := by
  have h : ∀ i : Fin 64, mmuRegPhysAddressMask.getLsbD i.val = decide (12 ≤ i.val ∧ i.val < 52) := by
    decide
  exact h ⟨i, hi⟩

theorem getLsbD_of_aligned {p : BitVec 64} (h : Aligned p) {i : Nat} (hi : i < 12) :
    p.getLsbD i = false := by
  have hz := (and_mask_eq_zero_iff p).mpr h
  have hb : (p &&& 0xfff#64).getLsbD i = false := by rw [hz, BitVec.getLsbD_zero]
  have hm : ∀ i : Fin 12, (0xfff#64).getLsbD i.val = true := by decide
  rw [BitVec.getLsbD_and, hm ⟨i, hi⟩, Bool.and_true] at hb
  exact hb

theorem and_physAddressMask {p : BitVec 64} (ha : Aligned p) (hlow : p.toNat < 2 ^ 52) :
    p &&& mmuRegPhysAddressMask = p := by
  apply BitVec.eq_of_getLsbD_eq
  intro i hi
  rw [BitVec.getLsbD_and, getLsbD_physAddressMask hi]
  by_cases h₁ : i < 12
  · rw [getLsbD_of_aligned ha h₁, Bool.false_and]
  by_cases h₂ : i < 52
  · simp [Nat.le_of_not_lt h₁, h₂]
  · have hz : p.getLsbD i = false :=
      Nat.testBit_lt_two_pow (Nat.lt_of_lt_of_le hlow (Nat.pow_le_pow_right (by decide) (by omega)))
    rw [hz, Bool.false_and]

theorem aligned_and_physAddressMask (w : BitVec 64) : Aligned (w &&& mmuRegPhysAddressMask) := by
  rw [← and_mask_eq_zero_iff, BitVec.and_assoc,
    show mmuRegPhysAddressMask &&& 0xfff#64 = 0#64 by decide, BitVec.and_zero]

/-- An entry that names a table: no huge page, and not the page that stands for the current
top table. -/
def TableEntry (w : BitVec 64) : Prop :=
  w &&& mmuRegPageSize = 0#64 ∧ w &&& mmuRegPhysAddressMask ≠ 0#64

theorem low_and_pageMask {m : BitVec 64} (hm : m &&& ~~~0xfff#64 = 0#64) : m &&& 0xfff#64 = m := by
  have h : m &&& (0xfff#64 ||| ~~~0xfff#64) = m := by
    rw [show (0xfff#64 ||| ~~~0xfff#64 : BitVec 64) = BitVec.allOnes 64 by decide,
      BitVec.and_allOnes]
  rwa [BitVec.and_or_distrib_left, hm, BitVec.or_zero] at h

theorem aligned_and_eq_zero {p m : BitVec 64} (ha : Aligned p) (hm : m &&& ~~~0xfff#64 = 0#64) :
    p &&& m = 0#64 := by
  rw [← low_and_pageMask hm, BitVec.and_comm m, ← BitVec.and_assoc,
    (and_mask_eq_zero_iff p).mpr ha, BitVec.zero_and]

theorem present_iff {w : BitVec 64} :
    entryCoding.present w = true ↔ w &&& mmuRegPresent ≠ 0#64 := decide_eq_true_iff

theorem not_present_iff {w : BitVec 64} :
    entryCoding.present w = false ↔ w &&& mmuRegPresent = 0#64 := by
  rw [← Bool.not_eq_true, present_iff, not_not]

@[simp] theorem not_present_zero : entryCoding.present 0#64 = false := by decide

theorem newEntry {p : Physical} (ha : Aligned p) (hlow : p.toNat < 2 ^ 52) (hz : p ≠ 0#64) :
    entryCoding.present (p ||| pmPerms) = true ∧ entryCoding.addr (p ||| pmPerms) = p ∧
      TableEntry (p ||| pmPerms) := by
  have haddr : (p ||| pmPerms) &&& mmuRegPhysAddressMask = p := by
    rw [BitVec.and_or_distrib_right, and_physAddressMask ha hlow,
      show pmPerms &&& mmuRegPhysAddressMask = 0#64 by decide, BitVec.or_zero]
  refine ⟨?_, haddr, ?_, by rwa [haddr]⟩
  · rw [present_iff, BitVec.and_or_distrib_right, aligned_and_eq_zero ha (by decide),
      BitVec.zero_or]
    decide
  · rw [BitVec.and_or_distrib_right, aligned_and_eq_zero ha (by decide), BitVec.zero_or]
    decide

theorem addr_lt (w : BitVec 64) : (entryCoding.addr w).toNat < 2 ^ 52 := by
  have hmask : mmuRegPhysAddressMask.toNat < 2 ^ 52 := by decide
  exact Nat.lt_of_le_of_lt (by rw [entryCoding, BitVec.toNat_and]; exact Nat.and_le_right) hmask

/-- Every page that the allocator manages fits a page table entry. -/
def PmmLow (s : Machine) : Prop := ∀ p ∈ s.pmm.managedPages, p.toNat < 2 ^ 52

theorem PmmLow.congr {s s' : Machine} (h : PmmLow s)
    (he : s'.pmm.managedPages = s.pmm.managedPages) : PmmLow s' := by
  unfold PmmLow
  rw [he]
  exact h

theorem pmmFreePage_low {s : Machine} (h : PmmOk s) {p : Physical} (hlow : p.toNat < 2 ^ 52)
    (hp : p ∈ usedPages s) : ∃ s', pmmFreePage s p = .ok s' ∧ Freed s p s' := by
  obtain ⟨hm, hnf⟩ := Finset.mem_sdiff.mp hp
  obtain ⟨i, hi, k, hk, rfl⟩ := mem_managedPages.mp hm
  have hend : (s.pmm.entry i).blockEnd < 2 ^ 64 := by
    have hmax := (h.block i hi).max_le
    rw [(h.block i hi).toNat_pageAt hk] at hlow
    have hctrl : (s.pmm.entry i).ctrl.toNat < 2 ^ 52 := Nat.lt_of_le_of_lt (Nat.le_add_right _ _) hlow
    have hsize : 4096 * ((s.pmm.entry i).maxPages.toNat + 1) ≤ 4096 * 32768 := by omega
    rw [PmmCtrlPtr.blockEnd]
    exact Nat.lt_of_lt_of_le (Nat.add_lt_add_of_lt_of_le hctrl hsize) (by decide)
  exact pmmFreePage_owned h hi hk hnf (owningEntry_pageAt h hi hk hend)

section Steps

variable {s : Machine} {t : Physical} {n : Nat}

theorem assign_mem (s : Machine) (t : Physical) (i : Fin 512) (v : BitVec 64) :
    (s.assign ⟨t, i⟩ v).mem t = Function.update (s.mem t) i v := Function.update_self ..

theorem assign_mem_ne (s : Machine) {t q : Physical} (i : Fin 512) (v : BitVec 64) (h : q ≠ t) :
    (s.assign ⟨t, i⟩ v).mem q = s.mem q := Function.update_of_ne h ..

theorem assign_pmm (s : Machine) (e : EntryPtr) (v : BitVec 64) : (s.assign e v).pmm = s.pmm := rfl

theorem TreeOk.assign_ok {T : PageTree n} (h : TreeOk s t T) (hp : PmmOk s) (i : Fin 512)
    (v : BitVec 64) :
    PmmOk (s.assign ⟨t, i⟩ v) ∧ freePages (s.assign ⟨t, i⟩ v) = freePages s := by
  refine hp.congr (assign_pmm s _ v) ?_
  intro q hq
  apply assign_mem_ne
  rintro rfl
  exact h.not_control q (Finset.mem_insert_self _ _) hq

theorem assign_leaf {T : PageTree 0} (h : TreeOk s t T) (hp : PmmOk s) (i : Fin 512)
    (v : BitVec 64) :
    TreeStep s (s.assign ⟨t, i⟩ v) t T (Function.update (T : Fin 512 → BitVec 64) i v) := by
  obtain ⟨hok, hfree⟩ := h.assign_ok hp i v
  have hread : pageTree (s.assign ⟨t, i⟩ v) 0 t = Function.update (T : Fin 512 → BitVec 64) i v := by
    change (s.assign ⟨t, i⟩ v).mem t = _
    rw [assign_mem, ← h.read_eq]
    rfl
  refine ⟨⟨hread, trivial, ?_, ?_, ?_⟩, hok, rfl, rfl, ?_, ?_, rfl⟩
  · rw [tables, pages_zero]
    exact Finset.notMem_empty t
  · intro p hp
    rw [hfree]
    apply h.not_free
    rwa [tables, pages_zero] at hp ⊢
  · intro p hp
    apply h.not_control
    rwa [tables, pages_zero] at hp ⊢
  · rw [hfree, tables, tables, pages_zero, pages_zero]
  · intro q hq _ _ _
    exact assign_mem_ne s i v hq

def outOfTables : Fault := .assertFailed "Failed to allocate page table"

theorem allocate_spec (hp : PmmOk s) :
    Outcome (fun e => e = outOfTables)
      (fun r => ∃ u, Allocated s r.1 u ∧ r.2 = { u with mem := Function.update u.mem r.1 zeroPage })
      (allocate s) := by
  unfold allocate
  rcases pmmAllocatePage_spec hp with ⟨-, he⟩ | ⟨p, u, he, ha⟩
  · rw [he]
    exact rfl
  · rw [he]
    have hz : p ≠ 0#64 := hp.managed_ne_zero (hp.free_subset_managed ha.was_free)
    simp only [bind, Except.bind, hz, ne_eq, not_false_eq_true, decide_true, assert_true]
    exact ⟨u, ha, rfl⟩

/-- A page is taken and cleared, and an entry of the table at `t` names it. -/
structure Entered (s s' : Machine) (t : Physical) (i : Fin 512) (p : Physical) : Prop where
  pmm : PmmOk s'
  managed_eq : s'.pmm.managedPages = s.pmm.managedPages
  control_eq : s'.pmm.controlPages = s.pmm.controlPages
  cr3_eq : s'.cr3 = s.cr3
  was_free : p ∈ freePages s
  free_eq : freePages s' = (freePages s).erase p
  table_eq : s'.mem t = Function.update (s.mem t) i (p ||| pmPerms)
  page_eq : s'.mem p = zeroPage
  mem_eq : ∀ q, q ≠ t → q ≠ p → q ∉ s.pmm.controlPages → s'.mem q = s.mem q

theorem TreeOk.entered {T : PageTree n} (h : TreeOk s t T) (hp : PmmOk s) (i : Fin 512)
    {p : Physical} {u : Machine} (ha : Allocated s p u) :
    Entered s (({ u with mem := Function.update u.mem p zeroPage }).assign ⟨t, i⟩ (p ||| pmPerms))
      t i p := by
  have hman := hp.free_subset_managed ha.was_free
  have hpc : p ∉ s.pmm.controlPages := Finset.disjoint_left.mp hp.managed_disjoint_control hman
  have htc : t ∉ s.pmm.controlPages := h.not_control t (Finset.mem_insert_self _ _)
  have hpt : p ≠ t := by
    rintro rfl
    exact h.not_free p (Finset.mem_insert_self _ _) ha.was_free
  let cleared : Machine := { u with mem := Function.update u.mem p zeroPage }
  let s' := cleared.assign ⟨t, i⟩ (p ||| pmPerms)
  have hmem : ∀ q, q ≠ t → q ≠ p → s'.mem q = u.mem q := by
    intro q hqt hqp
    rw [assign_mem_ne cleared i _ hqt]
    exact Function.update_of_ne hqp ..
  obtain ⟨hok, hfree⟩ : PmmOk s' ∧ freePages s' = freePages u := by
    refine ha.ok.congr rfl ?_
    intro q hq
    rw [ha.control_eq] at hq
    apply hmem q
    · rintro rfl
      exact htc hq
    · rintro rfl
      exact hpc hq
  refine ⟨hok, ha.managed_eq, ha.control_eq, ha.cr3_eq, ha.was_free, ?_, ?_, ?_, ?_⟩
  · rw [hfree, ha.free_eq]
  · rw [assign_mem, ← ha.mem_eq t htc]
    congr 1
    exact Function.update_of_ne hpt.symm ..
  · rw [assign_mem_ne cleared i _ hpt]
    exact Function.update_self ..
  · intro q hqt hqp hqc
    rw [← ha.mem_eq q hqc]
    exact hmem q hqt hqp

theorem TreeStep.of_allocated {T : PageTree (n + 1)} (h : TreeOk s t T) (hp : PmmOk s)
    (hlow : PmmLow s) {i : Fin 512} {v : BitVec 64} (hi : T i = .absent v) {p : Physical}
    {u : Machine} (ha : Allocated s p u) :
    TreeStep s (({ u with mem := Function.update u.mem p zeroPage }).assign ⟨t, i⟩ (p ||| pmPerms))
      t T (T.set i (.table (p ||| pmPerms) (blank 0#64 n))) := by
  have hin := h.entered hp i ha
  have hman := hp.free_subset_managed ha.was_free
  have hpc : p ∉ s.pmm.controlPages := Finset.disjoint_left.mp hp.managed_disjoint_control hman
  obtain ⟨hpresent, haddr, -⟩ :=
    newEntry (hp.managed_aligned hman) (hlow p hman) (hp.managed_ne_zero hman)
  have hblank : tables (blank 0#64 n : PageTree n) = ∅ := pages_blank _ not_present_zero
  have hslot : slotTables (.table (p ||| pmPerms) (blank 0#64 n) : Slot _ (PageTree n)) = {p} := by
    rw [slotTables_table, hblank, haddr]
    rfl
  apply TreeStep.of_slot h hin.pmm hin.managed_eq hin.control_eq hin.cr3_eq
  · rw [hin.table_eq, Function.update_self]
    apply readSlot_table entryCoding hpresent
    rw [haddr]
    exact read_blank entryCoding not_present_zero hin.page_eq
  · intro j hj
    rw [hin.table_eq, Function.update_of_ne hj]
  · intro q hqt _ hqp hqc
    rw [hslot, Finset.mem_singleton] at hqp
    exact hin.mem_eq q hqt hqp hqc
  · intro w d hd
    rw [Slot.table.injEq] at hd
    obtain ⟨rfl, rfl⟩ := hd
    rw [hblank]
    exact ⟨Finset.notMem_empty _, separated_blank _⟩
  · rw [hslot, hi, slotTables_absent, hin.free_eq, Finset.union_empty, Finset.union_comm,
      ← Finset.insert_eq, Finset.insert_erase ha.was_free]
  · intro q hq
    obtain rfl : q = p := by rwa [hslot, Finset.mem_singleton] at hq
    rw [hin.free_eq]
    exact ⟨Finset.notMem_erase q _, hpc⟩

theorem TreeStep.of_freed {T : PageTree (n + 1)} (h : TreeOk s t T) (hp : PmmOk s)
    {i : Fin 512} {w : BitVec 64} {c : PageTree n} (hi : T i = .table w c)
    (hman : entryCoding.addr w ∈ s.pmm.managedPages) (he : Empty entryCoding n c) :
    ∃ s', pmmFreePage (s.assign ⟨t, i⟩ 0#64) (entryCoding.addr w) = .ok s' ∧
      TreeStep s s' t T (T.set i (.absent 0#64)) := by
  obtain ⟨hok, hfree⟩ := h.assign_ok hp i 0#64
  have hin : entryCoding.addr w ∈ tables T := slot_subset hi (Finset.mem_insert_self _ _)
  have hused : entryCoding.addr w ∈ usedPages (s.assign ⟨t, i⟩ 0#64) := by
    rw [usedPages, hfree, Finset.mem_sdiff]
    exact ⟨hman, h.not_free _ (Finset.mem_insert_of_mem hin)⟩
  obtain ⟨s', hrun, hf⟩ := pmmFreePage_low hok (addr_lt w) hused
  refine ⟨s', hrun, ?_⟩
  have hempty : tables c = ∅ := pages_empty _ he
  have htable : s'.mem t = Function.update (s.mem t) i 0#64 := by
    rw [hf.mem_eq t (h.not_control t (Finset.mem_insert_self _ _)), assign_mem]
  apply TreeStep.of_slot h hf.ok hf.managed_eq hf.control_eq hf.cr3_eq
  · rw [htable, Function.update_self]
    exact readSlot_absent entryCoding not_present_zero
  · intro j hj
    rw [htable, Function.update_of_ne hj]
  · intro q hqt _ _ hqc
    rw [hf.mem_eq q hqc, assign_mem_ne s i _ hqt]
  · intro v d hd
    contradiction
  · rw [hi, slotTables_table, hempty, slotTables_absent, hf.free_eq, hfree, Finset.union_empty,
      Finset.union_insert, Finset.union_empty]
  · intro q hq
    rw [slotTables_absent] at hq
    exact absurd hq (Finset.notMem_empty q)

end Steps

end Ukulele
