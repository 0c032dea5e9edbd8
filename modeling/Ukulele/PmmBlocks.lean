import Ukulele.Pmm

/-! What a well-formed allocator state is, and what each operation does to the sets of
free pages, managed pages and control pages.
-/

set_option autoImplicit false

namespace Ukulele

def PmmCtrlPtr.pageAt (p : PmmCtrlPtr) (k : Nat) : Physical :=
  p.physicalStart + BitVec.ofNat 64 (4096 * k)

def PmmCtrlPtr.blockEnd (p : PmmCtrlPtr) : Nat :=
  p.ctrl.toNat + 4096 * (p.maxPages.toNat + 1)

/-- A descriptor in step with its control block. -/
structure BlockOk (p : PmmCtrlPtr) (blk : RawPage) : Prop where
  start_eq : p.physicalStart = p.ctrl + pageSize
  aligned : Aligned p.ctrl
  max_le : p.maxPages.toNat ≤ 32767
  fits : p.blockEnd ≤ 2 ^ 64
  bits_lt : ∀ k ∈ Bitset.members blk, k < p.maxPages.toNat
  count : (Bitset.members blk).card = p.freePages.toNat

def Apart (p q : PmmCtrlPtr) : Prop :=
  p.blockEnd ≤ q.ctrl.toNat ∨ q.blockEnd ≤ p.ctrl.toNat

structure PmmOk (s : Machine) : Prop where
  block : ∀ i, (s.pmm.entry i).active → BlockOk (s.pmm.entry i) (s.mem (s.pmm.entry i).ctrl)
  apart : ∀ i j, i ≠ j → (s.pmm.entry i).active → (s.pmm.entry j).active →
    Apart (s.pmm.entry i) (s.pmm.entry j)

def Pmm.activeEntries (pmm : Pmm) : Finset (Fin 168) :=
  Finset.univ.filter (fun i => (pmm.entry i).active = true)

def Pmm.managedPages (pmm : Pmm) : Finset Physical :=
  pmm.activeEntries.biUnion (fun i =>
    (Finset.range (pmm.entry i).maxPages.toNat).image (pmm.entry i).pageAt)

def Pmm.controlPages (pmm : Pmm) : Finset Physical :=
  pmm.activeEntries.image (fun i => (pmm.entry i).ctrl)

def freePages (s : Machine) : Finset Physical :=
  s.pmm.activeEntries.biUnion (fun i =>
    (Bitset.members (s.mem (s.pmm.entry i).ctrl)).image (s.pmm.entry i).pageAt)

/-- The pages handed out and not given back. -/
def usedPages (s : Machine) : Finset Physical := s.pmm.managedPages \ freePages s

@[simp] theorem mem_activeEntries {pmm : Pmm} {i : Fin 168} :
    i ∈ pmm.activeEntries ↔ (pmm.entry i).active = true := by
  simp [Pmm.activeEntries]

theorem mem_managedPages {pmm : Pmm} {p : Physical} :
    p ∈ pmm.managedPages ↔ ∃ i, (pmm.entry i).active = true ∧
      ∃ k < (pmm.entry i).maxPages.toNat, (pmm.entry i).pageAt k = p := by
  simp [Pmm.managedPages]

theorem mem_controlPages {pmm : Pmm} {p : Physical} :
    p ∈ pmm.controlPages ↔ ∃ i, (pmm.entry i).active = true ∧ (pmm.entry i).ctrl = p := by
  simp [Pmm.controlPages]

theorem mem_freePages {s : Machine} {p : Physical} :
    p ∈ freePages s ↔ ∃ i, (s.pmm.entry i).active = true ∧
      ∃ k ∈ Bitset.members (s.mem (s.pmm.entry i).ctrl), (s.pmm.entry i).pageAt k = p := by
  simp only [freePages, Finset.mem_biUnion, mem_activeEntries, Finset.mem_image]

section Block

variable {p q : PmmCtrlPtr} {blk blk' : RawPage}

theorem BlockOk.toNat_start (h : BlockOk p blk) (hp : 0 < p.maxPages.toNat) :
    p.physicalStart.toNat = p.ctrl.toNat + 4096 := by
  have hf := h.fits
  have hs : pageSize.toNat = 4096 := by decide
  simp only [PmmCtrlPtr.blockEnd] at hf
  rw [h.start_eq, BitVec.toNat_add, hs, Nat.mod_eq_of_lt (by omega)]

theorem BlockOk.toNat_pageAt (h : BlockOk p blk) {k : Nat} (hk : k < p.maxPages.toNat) :
    (p.pageAt k).toNat = p.ctrl.toNat + 4096 * (k + 1) := by
  have hf := h.fits
  have hm := h.max_le
  simp only [PmmCtrlPtr.blockEnd] at hf
  rw [PmmCtrlPtr.pageAt, BitVec.toNat_add, h.toNat_start (by omega), BitVec.toNat_ofNat]
  omega

theorem BlockOk.pageAt_aligned (h : BlockOk p blk) {k : Nat} (hk : k < p.maxPages.toNat) :
    Aligned (p.pageAt k) := by
  have ha := h.aligned
  simp only [Aligned] at ha ⊢
  rw [h.toNat_pageAt hk]
  omega

theorem BlockOk.pageAt_ne_zero (h : BlockOk p blk) {k : Nat} (hk : k < p.maxPages.toNat) :
    p.pageAt k ≠ 0#64 := by
  intro hz
  have hn := h.toNat_pageAt hk
  rw [hz] at hn
  simp only [BitVec.toNat_ofNat] at hn
  omega

theorem BlockOk.pageAt_inj (h : BlockOk p blk) {k l : Nat} (hk : k < p.maxPages.toNat)
    (hl : l < p.maxPages.toNat) (he : p.pageAt k = p.pageAt l) : k = l := by
  have hkn := h.toNat_pageAt hk
  have hln := h.toNat_pageAt hl
  rw [he] at hkn
  omega

theorem BlockOk.pageAt_ne_ctrl (h : BlockOk p blk) {k : Nat} (hk : k < p.maxPages.toNat) :
    p.pageAt k ≠ p.ctrl := by
  intro he
  have hn := h.toNat_pageAt hk
  rw [he] at hn
  omega

theorem pageAt_ne_of_apart (hp : BlockOk p blk) (hq : BlockOk q blk') (h : Apart p q)
    {k l : Nat} (hk : k < p.maxPages.toNat) (hl : l < q.maxPages.toNat) :
    p.pageAt k ≠ q.pageAt l := by
  intro he
  have hkn := hp.toNat_pageAt hk
  have hln := hq.toNat_pageAt hl
  rw [he] at hkn
  simp only [Apart, PmmCtrlPtr.blockEnd] at h
  omega

theorem pageAt_ne_ctrl_of_apart (hp : BlockOk p blk) (h : Apart p q) {k : Nat}
    (hk : k < p.maxPages.toNat) : p.pageAt k ≠ q.ctrl := by
  intro he
  have hkn := hp.toNat_pageAt hk
  rw [he] at hkn
  simp only [Apart, PmmCtrlPtr.blockEnd] at h
  omega

theorem ctrl_ne_of_apart (h : Apart p q) : p.ctrl ≠ q.ctrl := by
  intro he
  simp only [Apart, PmmCtrlPtr.blockEnd, he] at h
  omega

end Block

section State

variable {s : Machine}

theorem PmmOk.pageAt_unique (h : PmmOk s) {i j : Fin 168} {k l : Nat}
    (hi : (s.pmm.entry i).active = true) (hj : (s.pmm.entry j).active = true)
    (hk : k < (s.pmm.entry i).maxPages.toNat) (hl : l < (s.pmm.entry j).maxPages.toNat)
    (he : (s.pmm.entry i).pageAt k = (s.pmm.entry j).pageAt l) : i = j ∧ k = l := by
  by_cases hij : i = j
  · subst j
    exact ⟨rfl, (h.block i hi).pageAt_inj hk hl he⟩
  · exact absurd he
      (pageAt_ne_of_apart (h.block i hi) (h.block j hj) (h.apart i j hij hi hj) hk hl)

theorem PmmOk.free_subset_managed (h : PmmOk s) : freePages s ⊆ s.pmm.managedPages := by
  intro p hp
  obtain ⟨i, hi, k, hk, rfl⟩ := mem_freePages.mp hp
  exact mem_managedPages.mpr ⟨i, hi, k, (h.block i hi).bits_lt k hk, rfl⟩

theorem PmmOk.managed_aligned (h : PmmOk s) {p : Physical} (hp : p ∈ s.pmm.managedPages) :
    Aligned p := by
  obtain ⟨i, hi, k, hk, rfl⟩ := mem_managedPages.mp hp
  exact (h.block i hi).pageAt_aligned hk

theorem PmmOk.managed_ne_zero (h : PmmOk s) {p : Physical} (hp : p ∈ s.pmm.managedPages) :
    p ≠ 0#64 := by
  obtain ⟨i, hi, k, hk, rfl⟩ := mem_managedPages.mp hp
  exact (h.block i hi).pageAt_ne_zero hk

theorem PmmOk.managed_disjoint_control (h : PmmOk s) :
    Disjoint s.pmm.managedPages s.pmm.controlPages := by
  rw [Finset.disjoint_left]
  intro p hp hc
  obtain ⟨i, hi, k, hk, rfl⟩ := mem_managedPages.mp hp
  obtain ⟨j, hj, he⟩ := mem_controlPages.mp hc
  by_cases hij : i = j
  · subst j
    exact (h.block i hi).pageAt_ne_ctrl hk he.symm
  · exact pageAt_ne_ctrl_of_apart (h.block i hi) (h.apart i j hij hi hj) hk he.symm

theorem PmmOk.ctrl_inj (h : PmmOk s) {i j : Fin 168}
    (hi : (s.pmm.entry i).active = true) (hj : (s.pmm.entry j).active = true)
    (he : (s.pmm.entry i).ctrl = (s.pmm.entry j).ctrl) : i = j := by
  by_contra hij
  exact ctrl_ne_of_apart (h.apart i j hij hi hj) he

/-- Allocating and freeing both replace one control block and one counter. -/
def Machine.setBlock (s : Machine) (i : Fin 168) (blk : RawPage) (free : BitVec 16) : Machine :=
  { s with
    mem := Function.update s.mem (s.pmm.entry i).ctrl blk
    pmm := ⟨Function.update s.pmm.entry i { s.pmm.entry i with freePages := free }⟩ }

theorem setBlock_entry (s : Machine) (i j : Fin 168) (blk : RawPage) (free : BitVec 16) :
    ((s.setBlock i blk free).pmm.entry j).physicalStart = (s.pmm.entry j).physicalStart ∧
    ((s.setBlock i blk free).pmm.entry j).ctrl = (s.pmm.entry j).ctrl ∧
    ((s.setBlock i blk free).pmm.entry j).maxPages = (s.pmm.entry j).maxPages ∧
    ((s.setBlock i blk free).pmm.entry j).active = (s.pmm.entry j).active := by
  by_cases hij : j = i
  · subst j
    simp [Machine.setBlock]
  · simp [Machine.setBlock, Function.update_of_ne hij]

@[simp] theorem setBlock_physicalStart (s : Machine) (i j : Fin 168) (blk : RawPage)
    (free : BitVec 16) : ((s.setBlock i blk free).pmm.entry j).physicalStart =
      (s.pmm.entry j).physicalStart := (setBlock_entry s i j blk free).1

@[simp] theorem setBlock_ctrl (s : Machine) (i j : Fin 168) (blk : RawPage)
    (free : BitVec 16) : ((s.setBlock i blk free).pmm.entry j).ctrl =
      (s.pmm.entry j).ctrl := (setBlock_entry s i j blk free).2.1

@[simp] theorem setBlock_maxPages (s : Machine) (i j : Fin 168) (blk : RawPage)
    (free : BitVec 16) : ((s.setBlock i blk free).pmm.entry j).maxPages =
      (s.pmm.entry j).maxPages := (setBlock_entry s i j blk free).2.2.1

@[simp] theorem setBlock_active (s : Machine) (i j : Fin 168) (blk : RawPage)
    (free : BitVec 16) : ((s.setBlock i blk free).pmm.entry j).active =
      (s.pmm.entry j).active := (setBlock_entry s i j blk free).2.2.2

@[simp] theorem setBlock_pageAt (s : Machine) (i j : Fin 168) (blk : RawPage)
    (free : BitVec 16) (k : Nat) : ((s.setBlock i blk free).pmm.entry j).pageAt k =
      (s.pmm.entry j).pageAt k := by
  simp [PmmCtrlPtr.pageAt]

@[simp] theorem setBlock_blockEnd (s : Machine) (i j : Fin 168) (blk : RawPage)
    (free : BitVec 16) : ((s.setBlock i blk free).pmm.entry j).blockEnd =
      (s.pmm.entry j).blockEnd := by
  simp [PmmCtrlPtr.blockEnd]

@[simp] theorem setBlock_freePages_self (s : Machine) (i : Fin 168) (blk : RawPage)
    (free : BitVec 16) : ((s.setBlock i blk free).pmm.entry i).freePages = free := by
  simp [Machine.setBlock]

theorem setBlock_freePages_ne (s : Machine) {i j : Fin 168} (blk : RawPage)
    (free : BitVec 16) (h : j ≠ i) : ((s.setBlock i blk free).pmm.entry j).freePages =
      (s.pmm.entry j).freePages := by
  simp [Machine.setBlock, Function.update_of_ne h]

theorem setBlock_mem_self (s : Machine) (i : Fin 168) (blk : RawPage) (free : BitVec 16) :
    (s.setBlock i blk free).mem (s.pmm.entry i).ctrl = blk := by
  simp [Machine.setBlock]

theorem setBlock_mem_ne (s : Machine) (i : Fin 168) (blk : RawPage) (free : BitVec 16)
    {q : Physical} (h : q ≠ (s.pmm.entry i).ctrl) :
    (s.setBlock i blk free).mem q = s.mem q := by
  simp [Machine.setBlock, Function.update_of_ne h]

@[simp] theorem setBlock_cr3 (s : Machine) (i : Fin 168) (blk : RawPage) (free : BitVec 16) :
    (s.setBlock i blk free).cr3 = s.cr3 := rfl

theorem setBlock_ok (h : PmmOk s) {i : Fin 168} (hi : (s.pmm.entry i).active = true)
    {blk : RawPage} {free : BitVec 16}
    (hlt : ∀ k ∈ Bitset.members blk, k < (s.pmm.entry i).maxPages.toNat)
    (hcount : (Bitset.members blk).card = free.toNat) : PmmOk (s.setBlock i blk free) := by
  constructor
  · intro j hj
    rw [setBlock_active] at hj
    have hb := h.block j hj
    by_cases hij : j = i
    · subst j
      refine ⟨by simpa using hb.start_eq, by simpa using hb.aligned, by simpa using hb.max_le,
        by simpa using hb.fits, ?_, ?_⟩
      · simpa [setBlock_mem_self] using hlt
      · simpa [setBlock_mem_self] using hcount
    · have hne : (s.pmm.entry j).ctrl ≠ (s.pmm.entry i).ctrl := fun he => hij (h.ctrl_inj hj hi he)
      refine ⟨by simpa using hb.start_eq, by simpa using hb.aligned, by simpa using hb.max_le,
        by simpa using hb.fits, ?_, ?_⟩
      · simpa [setBlock_mem_ne _ _ _ _ hne] using hb.bits_lt
      · simpa [setBlock_mem_ne _ _ _ _ hne, setBlock_freePages_ne _ _ _ hij] using hb.count
  · intro j l hjl hj hl
    rw [setBlock_active] at hj hl
    simpa [Apart] using h.apart j l hjl hj hl

theorem setBlock_mem_freePages (h : PmmOk s) {i : Fin 168}
    (hi : (s.pmm.entry i).active = true) (blk : RawPage) (free : BitVec 16) (p : Physical) :
    p ∈ freePages (s.setBlock i blk free) ↔
      (∃ k ∈ Bitset.members blk, (s.pmm.entry i).pageAt k = p) ∨
      ∃ j ≠ i, (s.pmm.entry j).active = true ∧
        ∃ k ∈ Bitset.members (s.mem (s.pmm.entry j).ctrl), (s.pmm.entry j).pageAt k = p := by
  simp only [mem_freePages, setBlock_active, setBlock_ctrl, setBlock_pageAt]
  constructor
  · rintro ⟨j, hj, k, hk, he⟩
    by_cases hij : j = i
    · subst j
      rw [setBlock_mem_self] at hk
      exact Or.inl ⟨k, hk, he⟩
    · have hne : (s.pmm.entry j).ctrl ≠ (s.pmm.entry i).ctrl := fun hc => hij (h.ctrl_inj hj hi hc)
      rw [setBlock_mem_ne _ _ _ _ hne] at hk
      exact Or.inr ⟨j, hij, hj, k, hk, he⟩
  · rintro (⟨k, hk, he⟩ | ⟨j, hij, hj, k, hk, he⟩)
    · exact ⟨i, hi, k, by rwa [setBlock_mem_self], he⟩
    · have hne : (s.pmm.entry j).ctrl ≠ (s.pmm.entry i).ctrl := fun hc => hij (h.ctrl_inj hj hi hc)
      exact ⟨j, hj, k, by rwa [setBlock_mem_ne _ _ _ _ hne], he⟩

end State

end Ukulele
