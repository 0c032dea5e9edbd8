import Ukulele.PmmBlocks

/-! Allocating and freeing one page, as changes of the set of free pages. -/

set_option autoImplicit false

namespace Ukulele

/-- Only counters and control blocks may differ. -/
structure PmmFrame (s s' : Machine) : Prop where
  ok : PmmOk s'
  entry_eq : ∀ i, s'.pmm.entry i =
    { s.pmm.entry i with freePages := (s'.pmm.entry i).freePages }
  mem_eq : ∀ q ∉ s.pmm.controlPages, s'.mem q = s.mem q
  cr3_eq : s'.cr3 = s.cr3

theorem PmmFrame.managed_eq {s s' : Machine} (h : PmmFrame s s') :
    s'.pmm.managedPages = s.pmm.managedPages := by
  ext p
  simp only [mem_managedPages]
  constructor
  · rintro ⟨i, hi, k, hk, he⟩
    rw [h.entry_eq i] at hi hk he
    exact ⟨i, hi, k, hk, he⟩
  · rintro ⟨i, hi, k, hk, he⟩
    exact ⟨i, by rw [h.entry_eq i]; exact hi, k, by rw [h.entry_eq i]; exact hk,
      by rw [h.entry_eq i]; exact he⟩

theorem PmmFrame.control_eq {s s' : Machine} (h : PmmFrame s s') :
    s'.pmm.controlPages = s.pmm.controlPages := by
  ext p
  simp only [mem_controlPages]
  constructor
  · rintro ⟨i, hi, he⟩
    rw [h.entry_eq i] at hi he
    exact ⟨i, hi, he⟩
  · rintro ⟨i, hi, he⟩
    exact ⟨i, by rw [h.entry_eq i]; exact hi, by rw [h.entry_eq i]; exact he⟩

theorem PmmOk.congr {s s' : Machine} (h : PmmOk s) (hpmm : s'.pmm = s.pmm)
    (hm : ∀ q ∈ s.pmm.controlPages, s'.mem q = s.mem q) :
    PmmOk s' ∧ freePages s' = freePages s := by
  have hctrl : ∀ j, (s.pmm.entry j).active = true →
      s'.mem (s.pmm.entry j).ctrl = s.mem (s.pmm.entry j).ctrl :=
    fun j hj => hm _ (mem_controlPages.mpr ⟨j, hj, rfl⟩)
  refine ⟨⟨?_, by rw [hpmm]; exact h.apart⟩, ?_⟩
  · intro j hj
    rw [hpmm] at hj ⊢
    rw [hctrl j hj]
    exact h.block j hj
  · ext q
    simp only [mem_freePages, hpmm]
    constructor
    · rintro ⟨j, hj, k, hk, he⟩
      rw [hctrl j hj] at hk
      exact ⟨j, hj, k, hk, he⟩
    · rintro ⟨j, hj, k, hk, he⟩
      exact ⟨j, hj, k, by rw [hctrl j hj]; exact hk, he⟩

theorem setBlock_frame {s : Machine} (h : PmmOk s) {i : Fin 168}
    (hi : (s.pmm.entry i).active = true) {blk : RawPage} {free : BitVec 16}
    (hlt : ∀ k ∈ Bitset.members blk, k < (s.pmm.entry i).maxPages.toNat)
    (hcount : (Bitset.members blk).card = free.toNat) : PmmFrame s (s.setBlock i blk free) where
  ok := setBlock_ok h hi hlt hcount
  entry_eq := by
    intro j
    obtain ⟨h₁, h₂, h₃, h₄⟩ := setBlock_entry s i j blk free
    dsimp only
    rw [← h₁, ← h₂, ← h₃, ← h₄]
  mem_eq := by
    intro q hq
    apply setBlock_mem_ne
    intro he
    exact hq (mem_controlPages.mpr ⟨i, hi, he.symm⟩)
  cr3_eq := by simp

theorem pageSize_mul_setWidth {k : Nat} (h : k < 65536) :
    pageSize * (BitVec.ofNat 16 k).setWidth 64 = BitVec.ofNat 64 (4096 * k) := by
  apply BitVec.eq_of_toNat_eq
  have hp : pageSize.toNat = 4096 := by decide
  rw [BitVec.toNat_mul, hp, BitVec.toNat_setWidth, BitVec.toNat_ofNat, BitVec.toNat_ofNat,
    Nat.mod_eq_of_lt (by omega : k < 2 ^ 16)]
  omega

theorem spaceEntry_none {s : Machine} (h : PmmOk s) (hn : spaceEntry s.pmm = none) :
    freePages s = ∅ := by
  rw [spaceEntry, List.find?_eq_none] at hn
  ext p
  simp only [Finset.notMem_empty, iff_false]
  intro hp
  obtain ⟨i, hi, k, hk, rfl⟩ := mem_freePages.mp hp
  have hz := hn i (List.mem_finRange i)
  simp only [hi, Bool.true_and, decide_eq_true_eq, not_not] at hz
  have hc := (h.block i hi).count
  rw [hz] at hc
  simp only [BitVec.toNat_ofNat, Nat.zero_mod, Finset.card_eq_zero] at hc
  simp [hc] at hk

theorem spaceEntry_some {pmm : Pmm} {i : Fin 168} (h : spaceEntry pmm = some i) :
    (pmm.entry i).active = true ∧ (pmm.entry i).freePages ≠ 0#16 := by
  have hf := List.find?_some h
  simpa using hf

theorem pmmCtrlAlloc_ok {p : PmmCtrlPtr} {blk : RawPage} (h : BlockOk p blk)
    (hp : p.freePages ≠ 0#16) :
    ∃ k ∈ Bitset.members blk, ∃ blk', pmmCtrlAlloc blk = .ok (BitVec.ofNat 16 k, blk') ∧
      Bitset.members blk' = (Bitset.members blk).erase k := by
  cases hw : Bitset.firstWord blk with
  | none =>
    have hc := h.count
    rw [Bitset.firstWord_none hw, Finset.card_empty] at hc
    have hz : p.freePages = 0#16 := BitVec.eq_of_toNat_eq (by rw [← hc]; rfl)
    exact absurd hz hp
  | some i =>
    obtain ⟨hb, hm⟩ := Bitset.first_mem hw
    refine ⟨_, hm, Bitset.clear blk i (blk i).ctz.toNat, ?_, Bitset.members_clear blk i hb⟩
    unfold pmmCtrlAlloc
    rw [hw]

structure Allocated (s : Machine) (p : Physical) (s' : Machine) : Prop extends PmmFrame s s' where
  was_free : p ∈ freePages s
  free_eq : freePages s' = (freePages s).erase p

theorem clear_allocated {s : Machine} (h : PmmOk s) {i : Fin 168}
    (hi : (s.pmm.entry i).active = true) {k : Nat} {blk : RawPage}
    (hk : k ∈ Bitset.members (s.mem (s.pmm.entry i).ctrl))
    (hblk : Bitset.members blk = (Bitset.members (s.mem (s.pmm.entry i).ctrl)).erase k) :
    Allocated s ((s.pmm.entry i).pageAt k)
      (s.setBlock i blk ((s.pmm.entry i).freePages - 1#16)) := by
  have hb := h.block i hi
  have hcard := Finset.card_erase_of_mem hk
  have hpos := Finset.card_pos.mpr ⟨k, hk⟩
  have hcount := hb.count
  refine { toPmmFrame := setBlock_frame h hi ?_ ?_, was_free := ?_, free_eq := ?_ }
  · intro l hl
    rw [hblk] at hl
    exact hb.bits_lt l (Finset.mem_of_mem_erase hl)
  · rw [hblk, hcard, BitVec.toNat_sub]
    have hf := (s.pmm.entry i).freePages.isLt
    simp only [BitVec.toNat_ofNat]
    omega
  · exact mem_freePages.mpr ⟨i, hi, k, hk, rfl⟩
  · ext p
    rw [setBlock_mem_freePages h hi, Finset.mem_erase, mem_freePages, hblk]
    constructor
    · rintro (⟨l, hl, rfl⟩ | ⟨j, hij, hj, l, hl, rfl⟩)
      · obtain ⟨hne, hl⟩ := Finset.mem_erase.mp hl
        refine ⟨fun he => hne ?_, i, hi, l, hl, rfl⟩
        exact (h.pageAt_unique hi hi (hb.bits_lt l hl) (hb.bits_lt k hk) he).2
      · refine ⟨fun he => hij ?_, j, hj, l, hl, rfl⟩
        exact (h.pageAt_unique hj hi ((h.block j hj).bits_lt l hl) (hb.bits_lt k hk) he).1
    · rintro ⟨hne, j, hj, l, hl, rfl⟩
      by_cases hij : j = i
      · subst j
        refine Or.inl ⟨l, Finset.mem_erase.mpr ⟨?_, hl⟩, rfl⟩
        rintro rfl
        exact hne rfl
      · exact Or.inr ⟨j, hij, hj, l, hl, rfl⟩

/-- `pmm_allocate_page` never panics. It takes a free page, or reports that there is none. -/
theorem pmmAllocatePage_spec {s : Machine} (h : PmmOk s) :
    (freePages s = ∅ ∧ pmmAllocatePage s = .ok (0#64, s)) ∨
    ∃ p s', pmmAllocatePage s = .ok (p, s') ∧ Allocated s p s' := by
  cases hs : spaceEntry s.pmm with
  | none => exact Or.inl ⟨spaceEntry_none h hs, by simp [pmmAllocatePage, hs]⟩
  | some i =>
    obtain ⟨hi, hf⟩ := spaceEntry_some hs
    have hb := h.block i hi
    obtain ⟨k, hk, blk, ha, hblk⟩ := pmmCtrlAlloc_ok hb hf
    refine Or.inr ⟨_, _, ?_, clear_allocated h hi hk hblk⟩
    have hlt := hb.bits_lt k hk
    have hmax := hb.max_le
    simp only [pmmAllocatePage, hs, ha, bind, Except.bind, pure, Except.pure,
      pageSize_mul_setWidth (by omega : k < 65536)]
    rfl

structure Freed (s : Machine) (p : Physical) (s' : Machine) : Prop extends PmmFrame s s' where
  free_eq : freePages s' = insert p (freePages s)

theorem insert_freed {s : Machine} (h : PmmOk s) {i : Fin 168}
    (hi : (s.pmm.entry i).active = true) {k : Nat} {blk : RawPage}
    (hlt : k < (s.pmm.entry i).maxPages.toNat)
    (hk : k ∉ Bitset.members (s.mem (s.pmm.entry i).ctrl))
    (hblk : Bitset.members blk = insert k (Bitset.members (s.mem (s.pmm.entry i).ctrl))) :
    Freed s ((s.pmm.entry i).pageAt k)
      (s.setBlock i blk ((s.pmm.entry i).freePages + 1#16)) := by
  have hb := h.block i hi
  have hsub : insert k (Bitset.members (s.mem (s.pmm.entry i).ctrl)) ⊆
      Finset.range (s.pmm.entry i).maxPages.toNat := by
    intro l hl
    rcases Finset.mem_insert.mp hl with rfl | hl
    · exact Finset.mem_range.mpr hlt
    · exact Finset.mem_range.mpr (hb.bits_lt l hl)
  have hcard := Finset.card_insert_of_notMem hk
  have hle := Finset.card_le_card hsub
  have hcount := hb.count
  have hmax := hb.max_le
  refine { toPmmFrame := setBlock_frame h hi ?_ ?_, free_eq := ?_ }
  · intro l hl
    rw [hblk] at hl
    exact Finset.mem_range.mp (hsub hl)
  · rw [hblk, hcard, BitVec.toNat_add]
    rw [Finset.card_range] at hle
    simp only [BitVec.toNat_ofNat]
    omega
  · ext p
    rw [setBlock_mem_freePages h hi, Finset.mem_insert, mem_freePages, hblk]
    constructor
    · rintro (⟨l, hl, rfl⟩ | ⟨j, hij, hj, l, hl, rfl⟩)
      · rcases Finset.mem_insert.mp hl with rfl | hl
        · exact Or.inl rfl
        · exact Or.inr ⟨i, hi, l, hl, rfl⟩
      · exact Or.inr ⟨j, hj, l, hl, rfl⟩
    · rintro (rfl | ⟨j, hj, l, hl, rfl⟩)
      · exact Or.inl ⟨k, Finset.mem_insert_self _ _, rfl⟩
      · by_cases hij : j = i
        · subst j
          exact Or.inl ⟨l, Finset.mem_insert_of_mem hl, rfl⟩
        · exact Or.inr ⟨j, hij, hj, l, hl, rfl⟩

/-- The upper bound test of `pmm_free_page` on a block, without wrap-around. -/
def InEntry (p : PmmCtrlPtr) (physical : Physical) : Prop :=
  p.active = true ∧ p.physicalStart ≤ physical ∧
    physical < p.physicalStart + pageSize * p.maxPages.setWidth 64

theorem owningEntry_some {pmm : Pmm} {physical : Physical} {i : Fin 168}
    (h : owningEntry pmm physical = some i) : InEntry (pmm.entry i) physical := by
  have hf := List.find?_some h
  simpa [InEntry, and_assoc] using hf

theorem owningEntry_none {pmm : Pmm} {physical : Physical}
    (h : owningEntry pmm physical = none) (i : Fin 168) : ¬ InEntry (pmm.entry i) physical := by
  rw [owningEntry, List.find?_eq_none] at h
  have hi := h i (List.mem_finRange i)
  simpa [InEntry, and_assoc] using hi

theorem BlockOk.toNat_limit {p : PmmCtrlPtr} {blk : RawPage} (h : BlockOk p blk)
    (hp : 0 < p.maxPages.toNat) :
    (p.physicalStart + pageSize * p.maxPages.setWidth 64).toNat = p.blockEnd % 2 ^ 64 := by
  have hs : pageSize.toNat = 4096 := by decide
  have hf := h.fits
  have hm := h.max_le
  rw [BitVec.toNat_add, h.toNat_start hp, BitVec.toNat_mul, hs, BitVec.toNat_setWidth]
  simp only [PmmCtrlPtr.blockEnd]
  omega

theorem owningEntry_eq {s : Machine} (h : PmmOk s) {i j : Fin 168}
    (hi : (s.pmm.entry i).active = true) {k : Nat} (hk : k < (s.pmm.entry i).maxPages.toNat)
    (ho : owningEntry s.pmm ((s.pmm.entry i).pageAt k) = some j) : j = i := by
  by_contra hij
  obtain ⟨hj, hlo, hhi⟩ := owningEntry_some ho
  have hkn := (h.block i hi).toNat_pageAt hk
  have hap := h.apart j i hij hj hi
  have hbj := h.block j hj
  have hpos : 0 < (s.pmm.entry j).maxPages.toNat := by
    by_contra hz
    have hz : (s.pmm.entry j).maxPages = 0#16 := BitVec.eq_of_toNat_eq (by simpa using hz)
    simp only [hz, BitVec.setWidth_zero, BitVec.mul_zero, BitVec.add_zero] at hhi
    exact absurd hlo (BitVec.not_le.mpr hhi)
  rw [BitVec.le_def, hbj.toNat_start hpos, hkn] at hlo
  rw [BitVec.lt_def, hbj.toNat_limit hpos, hkn] at hhi
  have hmod := Nat.mod_le (s.pmm.entry j).blockEnd (2 ^ 64)
  simp only [Apart, PmmCtrlPtr.blockEnd] at hap hmod hhi
  omega

theorem owningEntry_pageAt {s : Machine} (h : PmmOk s) {i : Fin 168}
    (hi : (s.pmm.entry i).active = true) {k : Nat} (hk : k < (s.pmm.entry i).maxPages.toNat)
    (hend : (s.pmm.entry i).blockEnd < 2 ^ 64) :
    owningEntry s.pmm ((s.pmm.entry i).pageAt k) = some i := by
  have hb := h.block i hi
  have hkn := hb.toNat_pageAt hk
  cases ho : owningEntry s.pmm ((s.pmm.entry i).pageAt k) with
  | none =>
    refine absurd ⟨hi, ?_, ?_⟩ (owningEntry_none ho i)
    · rw [BitVec.le_def, hb.toNat_start (by omega), hkn]
      omega
    · rw [BitVec.lt_def, hb.toNat_limit (by omega), hkn, Nat.mod_eq_of_lt hend]
      simp only [PmmCtrlPtr.blockEnd]
      omega
  | some j => rw [owningEntry_eq h hi hk ho]

theorem and_shift_ne_zero_iff (x : BitVec 64) {b : Nat} (hb : b < 64) :
    x &&& (1#64 <<< b) ≠ 0#64 ↔ x.getLsbD b = true := by
  have hbit : ∀ c, c < 64 →
      (x &&& (1#64 <<< b)).getLsbD c = (x.getLsbD c && decide (c = b)) := by
    intro c hc
    by_cases hcb : c < b
    · have hne : c ≠ b := by omega
      simp [hc, hcb, hne]
    · by_cases he : c = b
      · subst c
        simp [hc]
      · have hz : c - b ≠ 0 := by omega
        simp [hc, hcb, he, hz]
  constructor
  · intro h
    by_contra hx
    apply h
    apply BitVec.eq_of_getLsbD_eq
    intro c hc
    rw [hbit c hc]
    by_cases he : c = b
    · subst c
      simpa using hx
    · simp [he]
  · intro hx hz
    have hc := hbit b hb
    simp [hz, hx] at hc

theorem pmmFreePage_bit {s : Machine} {physical : Physical} (hz : physical ≠ 0#64) {i : Fin 168}
    (ho : owningEntry s.pmm physical = some i) {k : Nat}
    (hk : ((physical - (s.pmm.entry i).physicalStart) / pageSize).toNat = k) {j : Fin 512}
    (hj : j.val = k / 64) :
    pmmFreePage s physical =
      if k ∈ Bitset.members (s.mem (s.pmm.entry i).ctrl) then .error (.doubleFree physical)
      else .ok (s.setBlock i (Bitset.insert (s.mem (s.pmm.entry i).ctrl) j (k % 64))
        ((s.pmm.entry i).freePages + 1#16)) := by
  have hword : entryIndex ((k / 64 : Nat) : Int) = .ok j := entryIndex_ok (by rw [hj])
  have hsplit : 64 * j.val + k % 64 = k := by omega
  have hbit : k % 64 < 64 := Nat.mod_lt k (by decide)
  have hmem : s.mem (s.pmm.entry i).ctrl j &&& (1#64 <<< (k % 64)) ≠ 0#64 ↔
      k ∈ Bitset.members (s.mem (s.pmm.entry i).ctrl) := by
    rw [and_shift_ne_zero_iff _ hbit, ← Bitset.test_word _ j hbit, hsplit, Bitset.mem_members]
  simp only [pmmFreePage, hz, if_false, ho, hk, hword, bind, Except.bind, hmem]
  split <;> rfl

theorem pmmFreePage_owned {s : Machine} (h : PmmOk s) {i : Fin 168}
    (hi : (s.pmm.entry i).active = true) {k : Nat} (hk : k < (s.pmm.entry i).maxPages.toNat)
    (hnf : (s.pmm.entry i).pageAt k ∉ freePages s)
    (ho : owningEntry s.pmm ((s.pmm.entry i).pageAt k) = some i) :
    ∃ s', pmmFreePage s ((s.pmm.entry i).pageAt k) = .ok s' ∧
      Freed s ((s.pmm.entry i).pageAt k) s' := by
  have hb := h.block i hi
  have hkn := hb.toNat_pageAt hk
  have hmax := hb.max_le
  have hidx : (((s.pmm.entry i).pageAt k - (s.pmm.entry i).physicalStart) / pageSize).toNat = k := by
    have hs : pageSize.toNat = 4096 := by decide
    rw [BitVec.toNat_udiv, hs, BitVec.toNat_sub_of_le, hkn, hb.toNat_start (by omega)]
    · omega
    · rw [BitVec.le_def, hkn, hb.toNat_start (by omega)]
      omega
  let j : Fin 512 := ⟨k / 64, by omega⟩
  have hnot : k ∉ Bitset.members (s.mem (s.pmm.entry i).ctrl) := by
    intro hin
    exact hnf (mem_freePages.mpr ⟨i, hi, k, hin, rfl⟩)
  have hins := Bitset.members_insert (s.mem (s.pmm.entry i).ctrl) j (Nat.mod_lt k (by decide))
  rw [show 64 * j.val + k % 64 = k from Nat.div_add_mod k 64] at hins
  refine ⟨_, ?_, insert_freed h hi hk hnot hins⟩
  rw [pmmFreePage_bit (hb.pageAt_ne_zero hk) ho hidx (rfl : j.val = k / 64), if_neg hnot]

theorem pmmFreePage_spec {s : Machine} (h : PmmOk s) {p : Physical} (hp : p ∈ usedPages s)
    (hend : ∀ i, (s.pmm.entry i).active = true → (s.pmm.entry i).blockEnd < 2 ^ 64) :
    ∃ s', pmmFreePage s p = .ok s' ∧ Freed s p s' := by
  obtain ⟨hm, hnf⟩ := Finset.mem_sdiff.mp hp
  obtain ⟨i, hi, k, hk, rfl⟩ := mem_managedPages.mp hm
  exact pmmFreePage_owned h hi hk hnf (owningEntry_pageAt h hi hk (hend i hi))

theorem pmmFreePage_freed {s s' : Machine} (h : PmmOk s) {p : Physical} (hp : p ∈ usedPages s)
    (hok : pmmFreePage s p = .ok s') : Freed s p s' := by
  obtain ⟨hm, hnf⟩ := Finset.mem_sdiff.mp hp
  obtain ⟨i, hi, k, hk, rfl⟩ := mem_managedPages.mp hm
  have hz := (h.block i hi).pageAt_ne_zero hk
  cases ho : owningEntry s.pmm ((s.pmm.entry i).pageAt k) with
  | none => simp [pmmFreePage, hz, ho] at hok
  | some j =>
    rw [owningEntry_eq h hi hk ho] at ho
    obtain ⟨t, ht, hf⟩ := pmmFreePage_owned h hi hk hnf ho
    rw [hok] at ht
    cases ht
    exact hf

end Ukulele
