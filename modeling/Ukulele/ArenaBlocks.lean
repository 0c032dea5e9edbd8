import Ukulele.ArenaRuns

/-! The blocks that an arena hands out: where they lie in its pages, and how long they are. -/

set_option autoImplicit false

namespace Ukulele

theorem toNat_alignP2 (val : BitVec 32) {p2 : Nat} (hp : p2 ≤ 12) :
    (alignP2 val p2).toNat = (val.toNat + (2 ^ p2 - 1)) % 2 ^ 32 / 2 ^ p2 * 2 ^ p2 := by
  have hone : 1 ≤ 2 ^ p2 := Nat.one_le_two_pow
  have hle : 2 ^ p2 ≤ 2 ^ 12 := Nat.pow_le_pow_right (by decide) hp
  have hshift : (1#32 <<< p2).toNat = 2 ^ p2 := by
    rw [BitVec.toNat_shiftLeft, Nat.shiftLeft_eq]
    simp only [BitVec.toNat_ofNat]
    omega
  have hsum : (val + (1#32 <<< p2) - 1#32).toNat = (val.toNat + (2 ^ p2 - 1)) % 2 ^ 32 := by
    rw [BitVec.toNat_sub, BitVec.toNat_add, hshift]
    simp only [BitVec.toNat_ofNat]
    have hv := val.isLt
    omega
  unfold alignP2
  rw [BitVec.toNat_shiftLeft, BitVec.toNat_ushiftRight, Nat.shiftLeft_eq, Nat.shiftRight_eq_div_pow,
    hsum]
  apply Nat.mod_eq_of_lt
  exact lt_of_le_of_lt (Nat.div_mul_le_self _ _) (Nat.mod_lt _ (by decide))

/-- The size that a request is rounded to: only its lower half takes part. -/
def roundedSize (p2align : BitVec 32) (size : Size) : Nat :=
  (size.toNat % 2 ^ 32 + (2 ^ p2align.toNat - 1)) % 2 ^ 32 / 2 ^ p2align.toNat * 2 ^ p2align.toNat

def headerEnd (p2align : BitVec 32) : Nat := (alignP2 sizeofArenaPmmPageHeader p2align.toNat).toNat

section Rounding

variable {p2align : BitVec 32} (hp : p2align.toNat ≤ 12)
include hp

theorem two_pow_le : 1 ≤ 2 ^ p2align.toNat ∧ 2 ^ p2align.toNat ≤ 4096 :=
  ⟨Nat.one_le_two_pow, Nat.pow_le_pow_right (by decide) hp⟩

theorem toNat_roundedSize (size : Size) :
    ((alignP2 (size.setWidth 32) p2align.toNat).setWidth 64).toNat = roundedSize p2align size := by
  have hlt := (alignP2 (size.setWidth 32) p2align.toNat).isLt
  rw [BitVec.toNat_setWidth, Nat.mod_eq_of_lt (by omega), toNat_alignP2 _ hp,
    BitVec.toNat_setWidth, roundedSize]

theorem headerEnd_eq : headerEnd p2align =
    (8 + (2 ^ p2align.toNat - 1)) / 2 ^ p2align.toNat * 2 ^ p2align.toNat := by
  obtain ⟨hone, hle⟩ := two_pow_le hp
  rw [headerEnd, toNat_alignP2 _ hp]
  have h8 : sizeofArenaPmmPageHeader.toNat = 8 := rfl
  rw [h8, Nat.mod_eq_of_lt (a := 8 + _) (by omega)]

end Rounding

theorem roundUp_le {x n : Nat} (hn : 1 ≤ n) :
    x ≤ (x + (n - 1)) / n * n ∧ (x + (n - 1)) / n * n ≤ x + (n - 1) := by
  have hdiv := Nat.div_add_mod (x + (n - 1)) n
  have hmod := Nat.mod_lt (x + (n - 1)) (by omega : 0 < n)
  rw [Nat.mul_comm] at hdiv
  omega

theorem roundUp_le_iff {x n m : Nat} (hn : 1 ≤ n) (hm : n ∣ m) :
    (x + (n - 1)) / n * n ≤ m ↔ x ≤ m := by
  obtain ⟨k, rfl⟩ := hm
  obtain ⟨hlo, -⟩ := roundUp_le (x := x) hn
  constructor
  · exact fun h => hlo.trans h
  · intro h
    have hlt : (x + (n - 1)) / n < k + 1 := by
      rw [Nat.div_lt_iff_lt_mul (by omega), Nat.add_mul, Nat.mul_comm k n]
      omega
    rw [Nat.mul_comm n k]
    exact Nat.mul_le_mul_right n (by omega)

theorem dvd_roundedSize (p2align : BitVec 32) (size : Size) :
    2 ^ p2align.toNat ∣ roundedSize p2align size :=
  Nat.dvd_mul_left _ _

section Rounded

variable {p2align : BitVec 32} (hp : p2align.toNat ≤ 12)
include hp

theorem roundedSize_of_le {size : Size} (h : size.toNat % 2 ^ 32 + 2 ^ p2align.toNat ≤ 2 ^ 32) :
    roundedSize p2align size =
      (size.toNat % 2 ^ 32 + (2 ^ p2align.toNat - 1)) / 2 ^ p2align.toNat * 2 ^ p2align.toNat := by
  have hone := (two_pow_le hp).1
  rw [roundedSize, Nat.mod_eq_of_lt (a := size.toNat % 2 ^ 32 + _) (by omega)]

theorem roundedSize_of_lt {size : Size} (h : 2 ^ 32 < size.toNat % 2 ^ 32 + 2 ^ p2align.toNat) :
    roundedSize p2align size = 0 := by
  obtain ⟨hone, hle⟩ := two_pow_le hp
  have hwrap : (size.toNat % 2 ^ 32 + (2 ^ p2align.toNat - 1)) % 2 ^ 32 < 2 ^ p2align.toNat := by
    omega
  rw [roundedSize, Nat.div_eq_of_lt hwrap, Nat.zero_mul]

theorem two_pow_dvd_page : 2 ^ p2align.toNat ∣ 4096 := Nat.pow_dvd_pow 2 hp

theorem roundedSize_lt_iff (size : Size) : roundedSize p2align size < 4096 ↔
    size.toNat % 2 ^ 32 + 2 ^ p2align.toNat ≤ 4096 ∨
      2 ^ 32 < size.toNat % 2 ^ 32 + 2 ^ p2align.toNat := by
  obtain ⟨hone, hle⟩ := two_pow_le hp
  by_cases hwrap : 2 ^ 32 < size.toNat % 2 ^ 32 + 2 ^ p2align.toNat
  · rw [roundedSize_of_lt hp hwrap]
    exact iff_of_true (by decide) (Or.inr hwrap)
  · have hdvd : 2 ^ p2align.toNat ∣ 4096 - 2 ^ p2align.toNat :=
      Nat.dvd_sub (two_pow_dvd_page hp) (dvd_refl _)
    have hmult := dvd_roundedSize p2align size
    have hiff := roundUp_le_iff (x := size.toNat % 2 ^ 32) hone hdvd
    rw [← roundedSize_of_le hp (by omega)] at hiff
    have hstep : roundedSize p2align size < 4096 ↔
        roundedSize p2align size ≤ 4096 - 2 ^ p2align.toNat := by
      obtain ⟨k, hk⟩ := two_pow_dvd_page hp
      obtain ⟨l, hl⟩ := hmult
      rw [hl, hk]
      constructor
      · intro hlt
        have hkl : l + 1 ≤ k := Nat.lt_of_mul_lt_mul_left hlt
        have hmul := Nat.mul_le_mul_left (2 ^ p2align.toNat) hkl
        rw [Nat.mul_add] at hmul
        omega
      · intro hle
        omega
    rw [hstep, hiff]
    omega

theorem headerEnd_bounds : 8 ≤ headerEnd p2align ∧ headerEnd p2align ≤ 4096 ∧
    2 ^ p2align.toNat ∣ headerEnd p2align := by
  obtain ⟨hone, hle⟩ := two_pow_le hp
  rw [headerEnd_eq hp]
  refine ⟨(roundUp_le hone).1, ?_, Nat.dvd_mul_left _ _⟩
  exact (roundUp_le_iff hone (two_pow_dvd_page hp)).mpr (by decide)

theorem headerEnd_add_le {size : Size} (hlt : size.toNat < 2 ^ 31)
    (h : ¬ (4088 < size.toNat ∧ size.toNat + 2 ^ p2align.toNat ≤ 4096))
    (hsize : roundedSize p2align size < 4096) :
    headerEnd p2align + roundedSize p2align size ≤ 4096 := by
  obtain ⟨hone, hle⟩ := two_pow_le hp
  have hmod : size.toNat % 2 ^ 32 = size.toNat := Nat.mod_eq_of_lt (by omega)
  have hshort := (roundedSize_lt_iff hp size).mp hsize
  rw [hmod] at hshort
  by_cases h3 : p2align.toNat ≤ 3
  · have hdvd : 2 ^ p2align.toNat ∣ 8 := Nat.pow_dvd_pow 2 h3
    have hheader : headerEnd p2align = 8 := by
      rw [headerEnd_eq hp]
      exact le_antisymm ((roundUp_le_iff hone hdvd).mpr le_rfl) (roundUp_le hone).1
    have hdvd' : 2 ^ p2align.toNat ∣ 4088 := dvd_trans hdvd (by decide)
    have hrounded : roundedSize p2align size ≤ 4088 := by
      rw [roundedSize_of_le hp (by omega), hmod]
      exact (roundUp_le_iff hone hdvd').mpr (by omega)
    omega
  · have h8 : 2 ^ 3 ≤ 2 ^ p2align.toNat := Nat.pow_le_pow_right Nat.two_pos (by omega)
    have hheader : headerEnd p2align ≤ 2 ^ p2align.toNat := by
      rw [headerEnd_eq hp]
      exact (roundUp_le_iff hone (dvd_refl _)).mpr h8
    have hdvd : 2 ^ p2align.toNat ∣ 4096 - 2 ^ p2align.toNat :=
      Nat.dvd_sub (two_pow_dvd_page hp) (dvd_refl _)
    have hrounded : roundedSize p2align size ≤ 4096 - 2 ^ p2align.toNat := by
      rw [roundedSize_of_le hp (by omega), hmod]
      exact (roundUp_le_iff hone hdvd).mpr (by omega)
    omega

end Rounded

theorem toNat_append_word (x y : BitVec 32) :
    (x ++ y : BitVec 64).toNat = x.toNat * 2 ^ 32 + y.toNat := by
  have happend : (x ++ y : BitVec 64).toNat = x.toNat <<< 32 ||| y.toNat := BitVec.toNat_append x y
  rw [happend, ← Nat.shiftLeft_add_eq_or_of_lt y.isLt, Nat.shiftLeft_eq]

theorem readArena_storeOffset (s : Machine) (home : Physical) (p2align offset : BitVec 32) :
    readArena ((s.storeOffset home p2align offset).mem home) =
      { readArena (s.mem home) with currentOffset := offset, p2align := p2align } := by
  have hword := toNat_append_word p2align offset
  have hoffset := offset.isLt
  have hp := p2align.isLt
  have h2 : (s.storeOffset home p2align offset).mem home 2 = p2align ++ offset := by
    simp [Machine.storeOffset, store_apply]
  have hj : ∀ j, j ≠ 2 → (s.storeOffset home p2align offset).mem home j = s.mem home j := by
    intro j hj
    simp [Machine.storeOffset, store_apply, hj]
  simp only [readArena, h2, hj 0 (by decide), hj 1 (by decide), hj 3 (by decide)]
  congr 1
  · apply BitVec.eq_of_toNat_eq
    rw [BitVec.toNat_setWidth, hword]
    omega
  · apply BitVec.eq_of_toNat_eq
    rw [BitVec.toNat_setWidth, BitVec.toNat_ushiftRight, hword, Nat.shiftRight_eq_div_pow]
    omega

/-- The alignment that an arena was made with, and the offset of its next block. -/
structure ArenaFields (s : Machine) (home : Physical) (p2align : BitVec 32) (offset : Nat) :
    Prop where
  p2align_eq : (readArena (s.mem home)).p2align = p2align
  offset_eq : (readArena (s.mem home)).currentOffset.toNat = offset
  offset_lt : offset < 2 ^ 14

theorem ArenaFields.storeOffset {s : Machine} {home : Physical} {p2align : BitVec 32}
    {offset : Nat} (h : offset < 2 ^ 14) :
    ArenaFields (s.storeOffset home p2align (BitVec.ofNat 32 offset)) home p2align offset := by
  refine ⟨by rw [readArena_storeOffset], ?_, h⟩
  rw [readArena_storeOffset]
  simp only [BitVec.toNat_ofNat]
  omega

theorem ArenaFields.congr {s t : Machine} {home : Physical} {p2align : BitVec 32} {offset : Nat}
    (h : ArenaFields s home p2align offset) (hword : t.mem home 2 = s.mem home 2) :
    ArenaFields t home p2align offset := by
  obtain ⟨hp, ho, hlt⟩ := h
  refine ⟨?_, ?_, hlt⟩
  · rw [← hp, readArena, readArena, hword]
  · rw [← ho, readArena, readArena, hword]

section Call

variable {globalHhdmOffset : BitVec 64}

/-- What a call for a block in the arena at `ptr` can do. -/
inductive ArenaCall (globalHhdmOffset : BitVec 64) (ptr : Uintptr) (p2align : BitVec 32)
    (offset : Nat) (s : Machine) (last : Physical) (size : Size) : Blk → Machine → Prop where
  | refused (h : 4096 ≤ roundedSize p2align size ∨
      (freePages s = ∅ ∧ 4096 < offset + roundedSize p2align size)) :
      ArenaCall globalHhdmOffset ptr p2align offset s last size nullBlk s
  | fits (hsize : roundedSize p2align size < 4096)
      (h : offset + roundedSize p2align size ≤ 4096) :
      ArenaCall globalHhdmOffset ptr p2align offset s last size
        ⟨hhdmPointer globalHhdmOffset last + BitVec.ofNat 64 offset,
          BitVec.ofNat 64 (roundedSize p2align size)⟩
        (s.storeOffset (hhdmPhysical globalHhdmOffset ptr) p2align
          (BitVec.ofNat 32 (offset + roundedSize p2align size)))
  | switches {q : Physical} {t : Machine} (hsize : roundedSize p2align size < 4096)
      (h : 4096 < offset + roundedSize p2align size) (ha : Allocated s q t) :
      ArenaCall globalHhdmOffset ptr p2align offset s last size
        ⟨hhdmPointer globalHhdmOffset q + BitVec.ofNat 64 (headerEnd p2align),
          BitVec.ofNat 64 (roundedSize p2align size)⟩
        ((arenaAddPage globalHhdmOffset (hhdmPhysical globalHhdmOffset ptr) q t).storeOffset
          (hhdmPhysical globalHhdmOffset ptr) p2align
          (BitVec.ofNat 32 (headerEnd p2align + roundedSize p2align size)))

theorem ArenaFields.signExtend {s : Machine} {home : Physical} {p2align : BitVec 32}
    {offset : Nat} (h : ArenaFields s home p2align offset) :
    (readArena (s.mem home)).currentOffset.signExtend 64 = BitVec.ofNat 64 offset := by
  obtain ⟨-, ho, hlt⟩ := h
  have hmsb : (readArena (s.mem home)).currentOffset.msb = false := by
    rw [BitVec.msb_eq_false_iff_two_mul_lt]
    omega
  apply BitVec.eq_of_toNat_eq
  rw [BitVec.signExtend_eq_setWidth_of_msb_false hmsb, BitVec.toNat_setWidth, ho, BitVec.toNat_ofNat]

theorem arenaTakeBlk_eq {s : Machine} {home : Physical} {p2align : BitVec 32} {offset : Nat}
    (h : ArenaFields s home p2align offset) (size : Nat) :
    arenaTakeBlk home (BitVec.ofNat 64 size) s =
      (⟨s.mem home 1 + BitVec.ofNat 64 offset, BitVec.ofNat 64 size⟩,
        s.storeOffset home p2align (BitVec.ofNat 32 (offset + size))) := by
  have hsum : (BitVec.ofNat 64 offset + BitVec.ofNat 64 size).setWidth 32 =
      BitVec.ofNat 32 (offset + size) := by
    apply BitVec.eq_of_toNat_eq
    rw [BitVec.toNat_setWidth, BitVec.toNat_add, BitVec.toNat_ofNat, BitVec.toNat_ofNat,
      BitVec.toNat_ofNat]
    omega
  simp only [arenaTakeBlk, h.signExtend, hsum, h.p2align_eq]
  rfl

section

variable {s₀ s t : Machine} {R : List PmmRange} {ptr : Uintptr} {front : List Physical}
  {last q : Physical} {p2align : BitVec 32} {offset : Nat}

theorem ArenaOk.switch_fields (h : ArenaOk globalHhdmOffset s₀ R ptr s front last)
    (hp : p2align.toNat ≤ 12) (hf : ArenaFields s (hhdmPhysical globalHhdmOffset ptr) p2align offset)
    (ha : Allocated s q t) :
    ArenaFields (arenaAddPage globalHhdmOffset (hhdmPhysical globalHhdmOffset ptr) q t)
      (hhdmPhysical globalHhdmOffset ptr) p2align (headerEnd p2align) ∧
    (arenaAddPage globalHhdmOffset (hhdmPhysical globalHhdmOffset ptr) q t).mem
      (hhdmPhysical globalHhdmOffset ptr) 1 = hhdmPointer globalHhdmOffset q := by
  have hkeep : t.mem (hhdmPhysical globalHhdmOffset ptr) = s.mem (hhdmPhysical globalHhdmOffset ptr) :=
    ha.mem_managed h.run.ok (h.page_managed h.home_mem)
  have hle := (headerEnd_bounds hp).2.1
  constructor
  · have halign : (readArena (t.mem (hhdmPhysical globalHhdmOffset ptr))).p2align = p2align := by
      rw [hkeep, hf.p2align_eq]
    have hheader : alignP2 sizeofArenaPmmPageHeader p2align.toNat =
        BitVec.ofNat 32 (headerEnd p2align) := by
      rw [headerEnd, BitVec.ofNat_toNat, BitVec.setWidth_eq]
    unfold arenaAddPage
    simp only [halign, hheader]
    exact ArenaFields.storeOffset (by omega)
  · rw [arenaAddPage_apply (h.switch_current ha) (fun _ => by decide)]
    simp

theorem ArenaOk.call (h : ArenaOk globalHhdmOffset s₀ R ptr s front last) (hp : p2align.toNat ≤ 12)
    (hf : ArenaFields s (hhdmPhysical globalHhdmOffset ptr) p2align offset) (size : Size) :
    ∃ blk s', arenaPmmAlloc globalHhdmOffset ptr size s = .ok (blk, s') ∧
      ArenaCall globalHhdmOffset ptr p2align offset s last size blk s' := by
  have hofNat : (alignP2 (size.setWidth 32) p2align.toNat).setWidth 64 =
      BitVec.ofNat 64 (roundedSize p2align size) := by
    rw [← toNat_roundedSize hp size, BitVec.ofNat_toNat, BitVec.setWidth_eq]
  have hlt := hf.offset_lt
  have hrounded := (BitVec.ofNat 64 (roundedSize p2align size)).isLt
  have hsize : (BitVec.ofNat 64 (roundedSize p2align size)).toNat = roundedSize p2align size := by
    rw [← hofNat, toNat_roundedSize hp size]
  have hpage : pageSize.toNat = 4096 := rfl
  unfold arenaPmmAlloc
  simp only [hf.p2align_eq, hofNat, hf.signExtend, BitVec.le_def, hsize, hpage]
  by_cases hlong : 4096 ≤ roundedSize p2align size
  · rw [if_pos hlong]
    exact ⟨_, _, rfl, .refused (Or.inl hlong)⟩
  rw [if_neg hlong]
  have hsum : pageSize < BitVec.ofNat 64 offset + BitVec.ofNat 64 (roundedSize p2align size) ↔
      4096 < offset + roundedSize p2align size := by
    rw [BitVec.lt_def, BitVec.toNat_add, hsize, BitVec.toNat_ofNat, hpage]
    omega
  rw [if_congr hsum rfl rfl]
  by_cases hfull : 4096 < offset + roundedSize p2align size
  · rw [if_pos hfull]
    rcases pmmAllocatePage_spec h.run.ok with ⟨hnone, he⟩ | ⟨q, t, he, ha⟩
    · rw [he]
      exact ⟨_, _, rfl, .refused (Or.inr ⟨hnone, hfull⟩)⟩
    · have hne := h.run.ok.managed_ne_zero (h.run.ok.free_subset_managed ha.was_free)
      obtain ⟨hfields, hcur⟩ := h.switch_fields hp hf ha
      rw [he]
      simp only [hne, if_false, arenaTakeBlk_eq hfields, hcur]
      exact ⟨_, _, rfl, .switches (Nat.not_le.mp hlong) hfull ha⟩
  · rw [if_neg hfull, arenaTakeBlk_eq hf, h.current]
    exact ⟨_, _, rfl, .fits (Nat.not_le.mp hlong) (Nat.not_lt.mp hfull)⟩

end

def Blk.span (b : Blk) : Set Nat := Set.Ico b.ptr.toNat (b.ptr.toNat + b.size.toNat)

def addBlk (b : Blk) (blocks : List Blk) : List Blk :=
  if b.ptr = 0#64 then blocks else b :: blocks

/-- The states of an arena with its pages and the blocks that it returned. The calls meet the
condition on the state before and on the size. -/
inductive ArenaBlocks (globalHhdmOffset : BitVec 64) (cond : Machine → Size → Prop) (s₀ : Machine)
    (arena : Allocator Machine) (p2align : BitVec 32) :
    Machine → List Physical → List Blk → Prop where
  | make {s : Machine} {p : Physical} {pmm : Uintptr}
      (h : makeArenaPmmAllocator globalHhdmOffset pmm p2align s₀ = .ok (arena, s))
      (hp : Took s₀ p s) : ArenaBlocks globalHhdmOffset cond s₀ arena p2align s [p] []
  | alloc {s s' : Machine} {pages : List Physical} {blocks : List Blk} {size : Size} {blk : Blk}
      (prior : ArenaBlocks globalHhdmOffset cond s₀ arena p2align s pages blocks)
      (hc : cond s size) (h : kalloc arena size s = .ok (blk, s'))
      (hu : usedPages s' = usedPages s) :
      ArenaBlocks globalHhdmOffset cond s₀ arena p2align s' pages (addBlk blk blocks)
  | allocPage {s s' : Machine} {pages : List Physical} {blocks : List Blk} {size : Size}
      {blk : Blk} {p : Physical}
      (prior : ArenaBlocks globalHhdmOffset cond s₀ arena p2align s pages blocks)
      (hc : cond s size) (h : kalloc arena size s = .ok (blk, s')) (hp : Took s p s') :
      ArenaBlocks globalHhdmOffset cond s₀ arena p2align s' (pages ++ [p]) (addBlk blk blocks)
  | write {s : Machine} {pages : List Physical} {blocks : List Blk} {p : Physical} {i : Fin 512}
      (prior : ArenaBlocks globalHhdmOffset cond s₀ arena p2align s pages blocks)
      (hp : p ∈ usedPages s) (hk : ¬ ArenaKeeps globalHhdmOffset arena.self pages p i)
      (value : BitVec 64) :
      ArenaBlocks globalHhdmOffset cond s₀ arena p2align (s.store p i value) pages blocks

def reservedBytes (home page : Physical) : Nat :=
  (if page = home then sizeofArenaPmm else sizeofArenaPmmPageHeader).toNat

structure Blk.InPage (globalHhdmOffset : BitVec 64) (home page : Physical) (b : Blk) : Prop where
  start : (hhdmPointer globalHhdmOffset page).toNat + reservedBytes home page ≤ b.ptr.toNat
  stop : b.ptr.toNat + b.size.toNat ≤ (hhdmPointer globalHhdmOffset page).toNat + 4096

structure ArenaBlocksOk (globalHhdmOffset : BitVec 64) (p2align : BitVec 32) (home : Physical)
    (pages : List Physical) (blocks : List Blk) : Prop where
  aligned : ∀ b ∈ blocks, 2 ^ p2align.toNat ∣ b.ptr.toNat
  inside : ∀ b ∈ blocks, ∃ page ∈ pages, b.InPage globalHhdmOffset home page
  apart : blocks.Pairwise (fun b c => Disjoint b.span c.span)

section

variable {cond : Machine → Size → Prop} {s₀ s s' : Machine} {R : List PmmRange}
  {arena : Allocator Machine} {p2align : BitVec 32} {pages : List Physical} {blocks : List Blk}
  {ptr : Uintptr} {front : List Physical} {last q : Physical} {offset : Nat} {size : Size}
  {blk : Blk}

theorem ArenaBlocks.run (h : ArenaBlocks globalHhdmOffset cond s₀ arena p2align s pages blocks) :
    ArenaRun globalHhdmOffset s₀ arena s pages := by
  induction h with
  | make h hp => exact .make h hp
  | alloc _ _ h hu ih => exact .alloc ih h hu
  | allocPage _ _ h hp ih => exact .allocPage ih h hp
  | write _ hp hk value ih => exact .write ih hp hk value

theorem ArenaOk.kalloc_call (h : ArenaOk globalHhdmOffset s₀ R ptr s front last)
    (hp : p2align.toNat ≤ 12)
    (hf : ArenaFields s (hhdmPhysical globalHhdmOffset ptr) p2align offset)
    (hk : Ukulele.kalloc ⟨ptr, some (arenaPmmVtbl globalHhdmOffset)⟩ size s = .ok (blk, s')) :
    (size = 0#64 ∧ blk = nullBlk ∧ s' = s) ∨
      ArenaCall globalHhdmOffset ptr p2align offset s last size blk s' := by
  unfold Ukulele.kalloc at hk
  by_cases hz : size = 0#64
  · rw [if_pos hz] at hk
    cases hk
    exact Or.inl ⟨hz, rfl, rfl⟩
  · rw [if_neg hz] at hk
    obtain ⟨b, t, hcall, hout⟩ := h.call hp hf size
    have halloc : arenaPmmAlloc globalHhdmOffset ptr size s = .ok (blk, s') := hk
    rw [hcall] at halloc
    cases halloc
    exact Or.inr hout

theorem ArenaOk.switch_took (h : ArenaOk globalHhdmOffset s₀ R ptr s front last)
    (hmap : ∀ r ∈ R, DirectMapped globalHhdmOffset r) {t : Machine} (ha : Allocated s q t)
    (x y : BitVec 32) :
    Took s q ((arenaAddPage globalHhdmOffset (hhdmPhysical globalHhdmOffset ptr) q t).storeOffset
      (hhdmPhysical globalHhdmOffset ptr) x y) := by
  refine ⟨(h.switch_fresh ha).1, ?_⟩
  rw [((h.addPage ha hmap).storeOffset x y).run.live, union_append_singleton, ← h.run.live]

theorem ArenaOk.storeOffset_used (h : ArenaOk globalHhdmOffset s₀ R ptr s front last)
    (x y : BitVec 32) :
    usedPages (s.storeOffset (hhdmPhysical globalHhdmOffset ptr) x y) = usedPages s := by
  rw [(h.storeOffset x y).run.live, h.run.live]

theorem ArenaOk.call_same (h : ArenaOk globalHhdmOffset s₀ R ptr s front last)
    (hmap : ∀ r ∈ R, DirectMapped globalHhdmOffset r) (hp : p2align.toNat ≤ 12)
    (hf : ArenaFields s (hhdmPhysical globalHhdmOffset ptr) p2align offset)
    (hk : Ukulele.kalloc ⟨ptr, some (arenaPmmVtbl globalHhdmOffset)⟩ size s = .ok (blk, s'))
    (hu : usedPages s' = usedPages s) :
    (blk = nullBlk ∧ s' = s) ∨ (offset + roundedSize p2align size ≤ 4096 ∧
      blk = ⟨hhdmPointer globalHhdmOffset last + BitVec.ofNat 64 offset,
        BitVec.ofNat 64 (roundedSize p2align size)⟩ ∧
      s' = s.storeOffset (hhdmPhysical globalHhdmOffset ptr) p2align
        (BitVec.ofNat 32 (offset + roundedSize p2align size))) := by
  rcases h.kalloc_call hp hf hk with ⟨-, hb, hs⟩ | hcall
  · exact Or.inl ⟨hb, hs⟩
  · cases hcall with
    | refused _ => exact Or.inl ⟨rfl, rfl⟩
    | fits _ hle => exact Or.inr ⟨hle, rfl, rfl⟩
    | switches _ _ ha => exact absurd hu (h.switch_took hmap ha _ _).used_ne

theorem ArenaOk.call_took (h : ArenaOk globalHhdmOffset s₀ R ptr s front last)
    (hmap : ∀ r ∈ R, DirectMapped globalHhdmOffset r) (hp : p2align.toNat ≤ 12)
    (hf : ArenaFields s (hhdmPhysical globalHhdmOffset ptr) p2align offset)
    (hk : Ukulele.kalloc ⟨ptr, some (arenaPmmVtbl globalHhdmOffset)⟩ size s = .ok (blk, s'))
    (hq : Took s q s') : ∃ t, Allocated s q t ∧ roundedSize p2align size < 4096 ∧
      blk = ⟨hhdmPointer globalHhdmOffset q + BitVec.ofNat 64 (headerEnd p2align),
        BitVec.ofNat 64 (roundedSize p2align size)⟩ ∧
      s' = (arenaAddPage globalHhdmOffset (hhdmPhysical globalHhdmOffset ptr) q t).storeOffset
        (hhdmPhysical globalHhdmOffset ptr) p2align
        (BitVec.ofNat 32 (headerEnd p2align + roundedSize p2align size)) := by
  rcases h.kalloc_call hp hf hk with ⟨-, -, rfl⟩ | hcall
  · exact absurd rfl hq.used_ne
  · cases hcall with
    | refused _ => exact absurd rfl hq.used_ne
    | fits _ _ => exact absurd (h.storeOffset_used _ _) hq.used_ne
    | @switches r t hsize _ ha =>
      obtain rfl := hq.unique (h.switch_took hmap ha _ _)
      exact ⟨t, ha, hsize, rfl, rfl⟩

theorem makeArena_fields {pmm : Uintptr} (h₀ : PmmOk s₀) (hp : p2align.toNat ≤ 12)
    (h : makeArenaPmmAllocator globalHhdmOffset pmm p2align s₀ = .ok (arena, s))
    (hne : usedPages s ≠ usedPages s₀) :
    ArenaFields s (hhdmPhysical globalHhdmOffset arena.self) p2align
      (alignP2 sizeofArenaPmm p2align.toNat).toNat := by
  have hbound : (alignP2 sizeofArenaPmm p2align.toNat).toNat < 2 ^ 14 := by
    obtain ⟨hone, hle⟩ := two_pow_le hp
    have h32 : sizeofArenaPmm.toNat = 32 := rfl
    rw [toNat_alignP2 _ hp, h32, Nat.mod_eq_of_lt (a := 32 + _) (by omega)]
    have := (roundUp_le (x := 32) hone).2
    omega
  unfold makeArenaPmmAllocator at h
  rcases pmmAllocatePage_spec h₀ with ⟨-, he⟩ | ⟨q, t, he, ha⟩
  · simp only [he, if_true] at h
    cases h
    exact absurd rfl hne
  · have hz := h₀.managed_ne_zero (h₀.free_subset_managed ha.was_free)
    simp only [he, hz, if_false] at h
    cases h
    rw [hhdmPhysical_pointer]
    have hstored : ArenaFields (((t.store q 0 0#64).store q 1
        (hhdmPointer globalHhdmOffset q)).storeOffset q p2align
          (BitVec.ofNat 32 (alignP2 sizeofArenaPmm p2align.toNat).toNat)) q p2align _ :=
      ArenaFields.storeOffset hbound
    rw [BitVec.ofNat_toNat, BitVec.setWidth_eq] at hstored
    apply hstored.congr
    unfold Machine.storeArena
    rw [store_apply, if_neg (fun he => absurd he.2 (by decide))]

theorem ArenaBlocks.fields (h₀ : PmmRunOk s₀ R (usedPages s₀))
    (hmap : ∀ r ∈ R, DirectMapped globalHhdmOffset r) (hp : p2align.toNat ≤ 12)
    (h : ArenaBlocks globalHhdmOffset cond s₀ arena p2align s pages blocks) :
    ∃ offset, ArenaFields s (hhdmPhysical globalHhdmOffset arena.self) p2align offset := by
  induction h with
  | make h hq => exact ⟨_, makeArena_fields h₀.ok hp h hq.used_ne⟩
  | @alloc s s' pages blocks size blk prior hc h hu ih =>
    obtain ⟨offset, hf⟩ := ih
    obtain ⟨hv, front, last, rfl, hok⟩ := prior.run.invariant h₀ hmap
    have hk : Ukulele.kalloc ⟨arena.self, arena.vtbl⟩ size s = .ok (blk, s') := h
    rw [hv] at hk
    rcases hok.call_same hmap hp hf hk hu with ⟨-, rfl⟩ | ⟨hle, -, rfl⟩
    · exact ⟨offset, hf⟩
    · exact ⟨_, ArenaFields.storeOffset (by omega)⟩
  | @allocPage s s' pages blocks size blk q prior hc h hq ih =>
    obtain ⟨offset, hf⟩ := ih
    obtain ⟨hv, front, last, rfl, hok⟩ := prior.run.invariant h₀ hmap
    have hk : Ukulele.kalloc ⟨arena.self, arena.vtbl⟩ size s = .ok (blk, s') := h
    rw [hv] at hk
    obtain ⟨t, ha, hsize, -, rfl⟩ := hok.call_took hmap hp hf hk hq
    have hle := (headerEnd_bounds hp).2.1
    exact ⟨_, ArenaFields.storeOffset (by omega)⟩
  | @write s pages blocks p i prior hin hkeep value ih =>
    obtain ⟨offset, hf⟩ := ih
    obtain ⟨-, front, last, rfl, hok⟩ := prior.run.invariant h₀ hmap
    refine ⟨offset, hf.congr ?_⟩
    rw [store_apply, if_neg]
    rintro ⟨rfl, rfl⟩
    exact hkeep ⟨hok.home_mem, Or.inr ⟨rfl, by decide⟩⟩

/-- The blocks so far, all below the current offset in the last page. -/
structure BlocksOk (globalHhdmOffset : BitVec 64) (home : Physical) (p2align : BitVec 32)
    (s : Machine) (front : List Physical) (last : Physical) (offset : Nat) (blocks : List Blk) :
    Prop where
  fields : ArenaFields s home p2align offset
  dvd : 2 ^ p2align.toNat ∣ offset
  reserved : reservedBytes home last ≤ offset
  aligned : ∀ b ∈ blocks, 2 ^ p2align.toNat ∣ b.ptr.toNat
  inside : ∀ b ∈ blocks, ∃ page ∈ front ++ [last], b.InPage globalHhdmOffset home page ∧
    (page = last → b.ptr.toNat + b.size.toNat ≤ (hhdmPointer globalHhdmOffset last).toNat + offset)
  apart : blocks.Pairwise (fun b c => Disjoint b.span c.span)

theorem span_disjoint {b c : Blk} (h : b.ptr.toNat + b.size.toNat ≤ c.ptr.toNat ∨
    c.ptr.toNat + c.size.toNat ≤ b.ptr.toNat) : Disjoint b.span c.span := by
  rw [Set.disjoint_left]
  intro x hb hc
  simp only [Blk.span, Set.mem_Ico] at hb hc
  omega

theorem mem_addBlk {b c : Blk} (h : c ∈ addBlk b blocks) :
    c ∈ blocks ∨ (c = b ∧ b.ptr ≠ 0#64) := by
  unfold addBlk at h
  split at h
  · exact Or.inl h
  · rename_i hne
    exact (List.mem_cons.mp h).symm.imp id (fun he => ⟨he, hne⟩)

theorem ArenaOk.toNat_blk (h : ArenaOk globalHhdmOffset s₀ R ptr s front last)
    (hmap : ∀ r ∈ R, DirectMapped globalHhdmOffset r) (hle : offset ≤ 4096)
    (hne : hhdmPointer globalHhdmOffset last + BitVec.ofNat 64 offset ≠ 0#64) :
    (hhdmPointer globalHhdmOffset last + BitVec.ofNat 64 offset).toNat =
      (hhdmPointer globalHhdmOffset last).toNat + offset := by
  obtain ⟨hptr, htop⟩ := h.run.toNat_pointer hmap (h.page_managed (by simp : last ∈ front ++ [last]))
  have hsum : (hhdmPointer globalHhdmOffset last).toNat + offset ≠ 2 ^ 64 := by
    intro he
    apply hne
    apply BitVec.eq_of_toNat_eq
    rw [BitVec.toNat_add, BitVec.toNat_ofNat, Nat.mod_eq_of_lt (a := offset) (by omega), he]
    rfl
  rw [BitVec.toNat_add, BitVec.toNat_ofNat, Nat.mod_eq_of_lt (a := offset) (by omega),
    Nat.mod_eq_of_lt (by omega)]

theorem ArenaOk.pages_apart (h : ArenaOk globalHhdmOffset s₀ R ptr s front last)
    (hmap : ∀ r ∈ R, DirectMapped globalHhdmOffset r) {p : Physical} (hp : p ∈ front ++ [last])
    (hne : p ≠ last) :
    (hhdmPointer globalHhdmOffset p).toNat + 4096 ≤ (hhdmPointer globalHhdmOffset last).toNat ∨
    (hhdmPointer globalHhdmOffset last).toNat + 4096 ≤ (hhdmPointer globalHhdmOffset p).toNat := by
  have hl : last ∈ front ++ [last] := by simp
  have hpa : Aligned p := h.run.ok.managed_aligned (h.page_managed hp)
  have hla : Aligned last := h.run.ok.managed_aligned (h.page_managed hl)
  have hdiff : p.toNat ≠ last.toNat := fun he => hne (BitVec.eq_of_toNat_eq he)
  rw [(h.run.toNat_pointer hmap (h.page_managed hp)).1,
    (h.run.toNat_pointer hmap (h.page_managed hl)).1]
  unfold Aligned at hpa hla
  omega

theorem BlocksOk.push (h : BlocksOk globalHhdmOffset (hhdmPhysical globalHhdmOffset ptr) p2align s
      front last offset blocks) (hok : ArenaOk globalHhdmOffset s₀ R ptr s front last)
    (hmap : ∀ r ∈ R, DirectMapped globalHhdmOffset r) (hhhdm : Aligned globalHhdmOffset)
    (hp : p2align.toNat ≤ 12) {n : Nat} (hn : 2 ^ p2align.toNat ∣ n) (hle : offset + n ≤ 4096) :
    BlocksOk globalHhdmOffset (hhdmPhysical globalHhdmOffset ptr) p2align
      (s.storeOffset (hhdmPhysical globalHhdmOffset ptr) p2align (BitVec.ofNat 32 (offset + n)))
      front last (offset + n)
      (addBlk ⟨hhdmPointer globalHhdmOffset last + BitVec.ofNat 64 offset, BitVec.ofNat 64 n⟩
        blocks) := by
  have hl : last ∈ front ++ [last] := by simp
  have hsize : (BitVec.ofNat 64 n).toNat = n := by
    rw [BitVec.toNat_ofNat]
    omega
  have hreserved := h.reserved
  refine ⟨ArenaFields.storeOffset (by omega), Nat.dvd_add h.dvd hn, by omega, ?_, ?_, ?_⟩
  · intro b hb
    rcases mem_addBlk hb with hb | ⟨rfl, hne⟩
    · exact h.aligned b hb
    · have hpage := hok.run.ok.managed_aligned (hok.page_managed hl)
      have hdvd := two_pow_dvd_page hp
      simp only at hne ⊢
      rw [hok.toNat_blk hmap (by omega) hne, (hok.run.toNat_pointer hmap (hok.page_managed hl)).1]
      exact Nat.dvd_add (Nat.dvd_add (hdvd.trans (Nat.dvd_of_mod_eq_zero hhhdm))
        (hdvd.trans (Nat.dvd_of_mod_eq_zero hpage))) h.dvd
  · intro b hb
    rcases mem_addBlk hb with hb | ⟨rfl, hne⟩
    · obtain ⟨page, hpage, hin, hend⟩ := h.inside b hb
      exact ⟨page, hpage, hin, fun he => (hend he).trans (by omega)⟩
    · have hptr := hok.toNat_blk hmap (by omega) hne
      refine ⟨last, hl, ⟨?_, ?_⟩, ?_⟩
      · simp only [hptr]
        omega
      · simp only [hptr, hsize]
        omega
      · intro _
        simp only [hptr, hsize]
        omega
  · unfold addBlk
    split
    · exact h.apart
    · rename_i hne
      have hptr := hok.toNat_blk hmap (by omega) hne
      apply List.Pairwise.cons _ h.apart
      intro b hb
      apply span_disjoint
      obtain ⟨page, hpage, ⟨hstart, hstop⟩, hend⟩ := h.inside b hb
      simp only [hptr, hsize]
      by_cases he : page = last
      · right
        exact hend he
      · have hpages := hok.pages_apart hmap hpage he
        omega

theorem BlocksOk.switch {home : Physical} {s' : Machine}
    (h : BlocksOk globalHhdmOffset home p2align s front last offset blocks)
    (hp : p2align.toNat ≤ 12) (hq : q ∉ front ++ [last]) (hhome : home ∈ front ++ [last])
    (hf : ArenaFields s' home p2align (headerEnd p2align)) :
    BlocksOk globalHhdmOffset home p2align s' (front ++ [last]) q (headerEnd p2align) blocks := by
  obtain ⟨hlo, -, hdvd⟩ := headerEnd_bounds hp
  have hne : q ≠ home := fun he => hq (he ▸ hhome)
  refine ⟨hf, hdvd, ?_, h.aligned, ?_, h.apart⟩
  · rw [reservedBytes, if_neg hne]
    exact hlo
  · intro b hb
    obtain ⟨page, hpage, hin, -⟩ := h.inside b hb
    exact ⟨page, List.mem_append_left _ hpage, hin, fun he => absurd (he ▸ hpage) hq⟩

/-- No request between what fits behind a page header and what fits a page, unless the allocator
has no page for it anyway. -/
def KeepsInPage (p2align : BitVec 32) (s : Machine) (size : Size) : Prop :=
  size.toNat < 2 ^ 31 ∧
    (4088 < size.toNat → size.toNat + 2 ^ p2align.toNat ≤ 4096 → freePages s = ∅)

theorem ArenaBlocks.blocksOk (h₀ : PmmRunOk s₀ R (usedPages s₀))
    (hmap : ∀ r ∈ R, DirectMapped globalHhdmOffset r) (hhhdm : Aligned globalHhdmOffset)
    (hp : p2align.toNat ≤ 12)
    (h : ArenaBlocks globalHhdmOffset (KeepsInPage p2align) s₀ arena p2align s pages blocks) :
    ∃ front last offset, pages = front ++ [last] ∧ BlocksOk globalHhdmOffset
      (hhdmPhysical globalHhdmOffset arena.self) p2align s front last offset blocks := by
  induction h with
  | @make s p pmm h hq =>
    obtain ⟨hone, hle⟩ := two_pow_le hp
    have hfields := makeArena_fields h₀.ok hp h hq.used_ne
    have h32 : sizeofArenaPmm.toNat = 32 := rfl
    have hoffset := toNat_alignP2 sizeofArenaPmm hp
    rw [h32, Nat.mod_eq_of_lt (a := 32 + _) (by omega)] at hoffset
    refine ⟨[], p, _, rfl, hfields, ?_, ?_, by simp, by simp, List.Pairwise.nil⟩
    · rw [hoffset]
      exact Nat.dvd_mul_left _ _
    · have hround := (roundUp_le (x := 32) hone).1
      have hreserved : reservedBytes (hhdmPhysical globalHhdmOffset arena.self) p ≤ 32 := by
        unfold reservedBytes
        split <;> decide
      omega
  | @alloc s s' pages blocks size blk prior hc h hu ih =>
    obtain ⟨front, last, offset, rfl, hblocks⟩ := ih
    obtain ⟨hv, front', last', hpages, hok⟩ := prior.run.invariant h₀ hmap
    obtain ⟨rfl, rfl⟩ := List.concat_inj.mp (by simpa using hpages)
    have hk : Ukulele.kalloc ⟨arena.self, arena.vtbl⟩ size s = .ok (blk, s') := h
    rw [hv] at hk
    rcases hok.call_same hmap hp hblocks.fields hk hu with ⟨rfl, rfl⟩ | ⟨hle, rfl, rfl⟩
    · exact ⟨front, last, offset, rfl, hblocks⟩
    · exact ⟨front, last, _, rfl,
        hblocks.push hok hmap hhhdm hp (dvd_roundedSize p2align size) hle⟩
  | @allocPage s s' pages blocks size blk q prior hc h hq ih =>
    obtain ⟨front, last, offset, rfl, hblocks⟩ := ih
    obtain ⟨hv, front', last', hpages, hok⟩ := prior.run.invariant h₀ hmap
    obtain ⟨rfl, rfl⟩ := List.concat_inj.mp (by simpa using hpages)
    have hk : Ukulele.kalloc ⟨arena.self, arena.vtbl⟩ size s = .ok (blk, s') := h
    rw [hv] at hk
    obtain ⟨t, ha, hsize, rfl, rfl⟩ := hok.call_took hmap hp hblocks.fields hk hq
    have hfree : freePages s ≠ ∅ := Finset.ne_empty_of_mem ha.was_free
    have hfit := headerEnd_add_le hp hc.1 (fun hr => hfree (hc.2 hr.1 hr.2)) hsize
    have hswitched := hblocks.switch hp (hok.switch_fresh ha).2 hok.home_mem
      (hok.switch_fields hp hblocks.fields ha).1
    exact ⟨front ++ [last], q, _, rfl, hswitched.push (hok.addPage ha hmap) hmap hhhdm hp
      (dvd_roundedSize p2align size) hfit⟩
  | @write s pages blocks p i prior hin hkeep value ih =>
    obtain ⟨front, last, offset, rfl, hblocks⟩ := ih
    obtain ⟨-, front', last', hpages, hok⟩ := prior.run.invariant h₀ hmap
    refine ⟨front, last, offset, rfl, hblocks.fields.congr ?_, hblocks.dvd, hblocks.reserved,
      hblocks.aligned, hblocks.inside, hblocks.apart⟩
    rw [store_apply, if_neg]
    rintro ⟨rfl, rfl⟩
    exact hkeep ⟨hpages ▸ hok.home_mem, Or.inr ⟨rfl, by decide⟩⟩

/-- The blocks of an arena lie in its pages, apart from each other, as long as no request takes a
new page that is too short for it. -/
theorem arena_blocks_in_pages {L : Finset Physical} (h₀ : PmmRun s₀ R L)
    (hmap : ∀ r ∈ R, DirectMapped globalHhdmOffset r) (hhhdm : Aligned globalHhdmOffset)
    (hp : p2align.toNat ≤ 12)
    (h : ArenaBlocks globalHhdmOffset (KeepsInPage p2align) s₀ arena p2align s pages blocks) :
    ArenaBlocksOk globalHhdmOffset p2align (hhdmPhysical globalHhdmOffset arena.self) pages
      blocks := by
  obtain ⟨front, last, offset, rfl, hok⟩ := h.blocksOk h₀.invariant.used hmap hhhdm hp
  refine ⟨hok.aligned, ?_, hok.apart⟩
  intro b hb
  obtain ⟨page, hpage, hin, -⟩ := hok.inside b hb
  exact ⟨page, hpage, hin⟩

theorem ArenaBlocks.call {L : Finset Physical} (h₀ : PmmRun s₀ R L)
    (hmap : ∀ r ∈ R, DirectMapped globalHhdmOffset r)
    (h : ArenaBlocks globalHhdmOffset cond s₀ arena p2align s pages blocks) (hc : cond s size)
    (hk : kalloc arena size s = .ok (blk, s')) :
    ∃ pages', ArenaBlocks globalHhdmOffset cond s₀ arena p2align s' pages' (addBlk blk blocks) := by
  obtain ⟨hv, front, last, rfl, hok⟩ := h.run.invariant h₀.invariant.used hmap
  obtain ⟨b, t, ht, hpages⟩ := hok.kalloc hmap size
  rw [← hv, hk] at ht
  cases ht
  rcases hpages with ⟨hu, -⟩ | ⟨q, hq, -⟩
  · exact ⟨_, .alloc h hc hk hu⟩
  · exact ⟨_, .allocPage h hc hk hq⟩

def MappedBelowTop (globalHhdmOffset : BitVec 64) (r : PmmRange) : Prop :=
  globalHhdmOffset.toNat + r.stop < 2 ^ 64

instance (r : PmmRange) : Decidable (MappedBelowTop globalHhdmOffset r) :=
  inferInstanceAs (Decidable (_ < _))

theorem MappedBelowTop.directMapped {r : PmmRange} (h : MappedBelowTop globalHhdmOffset r) :
    DirectMapped globalHhdmOffset r := by
  unfold MappedBelowTop at h
  constructor <;> omega

/-- The size is not cut to its lower half and not wrapped in rounding, or it is refused. -/
def SizeKept (p2align : BitVec 32) (home : Physical) (s : Machine) (size : Size) : Prop :=
  size.toNat + 2 ^ p2align.toNat ≤ 2 ^ 32 ∨
  (4096 < size.toNat % 2 ^ 32 + 2 ^ p2align.toNat ∧
    size.toNat % 2 ^ 32 + 2 ^ p2align.toNat ≤ 2 ^ 32) ∨
  (freePages s = ∅ ∧
    4096 < (readArena (s.mem home)).currentOffset.toNat + roundedSize p2align size)

theorem le_roundedSize_iff (hp : p2align.toNat ≤ 12) (hlt : roundedSize p2align size < 4096) :
    size ≤ BitVec.ofNat 64 (roundedSize p2align size) ↔
      size.toNat + 2 ^ p2align.toNat ≤ 2 ^ 32 := by
  obtain ⟨hone, hle⟩ := two_pow_le hp
  have hshort := (roundedSize_lt_iff hp size).mp hlt
  rw [BitVec.le_def, BitVec.toNat_ofNat, Nat.mod_eq_of_lt (by omega)]
  constructor
  · intro h
    rw [Nat.mod_eq_of_lt (a := size.toNat) (by omega)] at hshort
    omega
  · intro h
    have hmod : size.toNat % 2 ^ 32 = size.toNat := Nat.mod_eq_of_lt (by omega)
    rw [roundedSize_of_le hp (by omega), hmod]
    exact (roundUp_le hone).1

theorem PmmRunOk.blk_ne_zero {L : Finset Physical} (h : PmmRunOk s R L)
    (hmap : ∀ r ∈ R, MappedBelowTop globalHhdmOffset r) {p : Physical}
    (hp : p ∈ s.pmm.managedPages) (hle : offset ≤ 4096) :
    hhdmPointer globalHhdmOffset p + BitVec.ofNat 64 offset ≠ 0#64 := by
  obtain ⟨r, hr, hpos, hend⟩ := h.page_in_range hp
  have hptr := (h.toNat_pointer (fun r hr => (hmap r hr).directMapped) hp).1
  have htop := hmap r hr
  unfold MappedBelowTop at htop
  intro hz
  have hsum := congrArg BitVec.toNat hz
  rw [BitVec.toNat_add, BitVec.toNat_ofNat, hptr] at hsum
  simp only [BitVec.toNat_ofNat] at hsum
  omega

/-- A block is at least as long as was asked for, whatever is asked for, exactly if the size is
kept. -/
theorem kalloc_block_long_enough {L : Finset Physical} (h₀ : PmmRun s₀ R L)
    (hmap : ∀ r ∈ R, MappedBelowTop globalHhdmOffset r) (hp : p2align.toNat ≤ 12)
    (h : ArenaBlocks globalHhdmOffset (fun _ _ => True) s₀ arena p2align s pages blocks)
    (hsize : size ≠ 0#64) :
    (∃ blk s', kalloc arena size s = .ok (blk, s') ∧ (blk.ptr ≠ 0#64 → size ≤ blk.size)) ↔
      SizeKept p2align (hhdmPhysical globalHhdmOffset arena.self) s size := by
  have hdirect : ∀ r ∈ R, DirectMapped globalHhdmOffset r := fun r hr => (hmap r hr).directMapped
  have hused := h₀.invariant.used
  obtain ⟨offset, hf⟩ := h.fields hused hdirect hp
  obtain ⟨hv, front, last, rfl, hok⟩ := h.run.invariant hused hdirect
  obtain ⟨blk, s', hcall, hout⟩ := hok.call hp hf size
  have hk : kalloc arena size s = .ok (blk, s') := by
    unfold kalloc doalloc
    rw [if_neg hsize, hv]
    exact hcall
  have hiff : (∃ b t, kalloc arena size s = .ok (b, t) ∧ (b.ptr ≠ 0#64 → size ≤ b.size)) ↔
      (blk.ptr ≠ 0#64 → size ≤ blk.size) := by
    rw [hk]
    simp
  rw [hiff, SizeKept, hf.offset_eq]
  cases hout with
  | refused hr =>
    have hshort := roundedSize_lt_iff hp size
    apply iff_of_true (fun hne => absurd rfl hne)
    rcases hr with hlong | hfull
    · exact Or.inr (Or.inl (by omega))
    · exact Or.inr (Or.inr hfull)
  | fits hlt hle =>
    have hshort := (roundedSize_lt_iff hp size).mp hlt
    have hne := hok.run.blk_ne_zero hmap (hok.page_managed (by simp : last ∈ front ++ [last]))
      (by omega : offset ≤ 4096)
    simp only [ne_eq, hne, not_false_eq_true, true_implies, le_roundedSize_iff hp hlt]
    omega
  | @switches q t hlt hfull ha =>
    have hshort := (roundedSize_lt_iff hp size).mp hlt
    have hfree : freePages s ≠ ∅ := Finset.ne_empty_of_mem ha.was_free
    have hne := hok.run.blk_ne_zero hmap (hok.run.ok.free_subset_managed ha.was_free)
      (headerEnd_bounds hp).2.1
    simp only [ne_eq, hne, not_false_eq_true, true_implies, le_roundedSize_iff hp hlt, hfree,
      false_and, or_false]
    omega

end

end Call

section Example

def oneBlockArena (p2align : BitVec 32) (size : Size) :
    Except Fault (Machine × Allocator Machine × Machine × Blk × Machine) := do
  let s₀ ← pmmAdd bareMachine exampleRange.start exampleRange.size
  let (arena, s) ← makeArenaPmmAllocator exampleHhdmOffset 0x1000#64 p2align s₀
  let (blk, s') ← kalloc arena size s
  return (s₀, arena, s, blk, s')

theorem exampleRange_mapped : ∀ r ∈ [exampleRange], MappedBelowTop exampleHhdmOffset r := by decide

theorem oneBlockArena_run {p2align : BitVec 32} {size : Size} {s₀ s s' : Machine}
    {arena : Allocator Machine} {blk : Blk}
    (h : oneBlockArena p2align size = .ok (s₀, arena, s, blk, s')) (hv : arena.self ≠ 0#64)
    (cond : Machine → Size → Prop) (hc : cond s size) :
    PmmRun s₀ [exampleRange] ∅ ∧ kalloc arena size s = .ok (blk, s') ∧
    (∃ pages, ArenaBlocks exampleHhdmOffset cond s₀ arena p2align s pages []) ∧
    ∃ pages, ArenaBlocks exampleHhdmOffset cond s₀ arena p2align s' pages (addBlk blk []) := by
  have hmap : ∀ r ∈ [exampleRange], DirectMapped exampleHhdmOffset r :=
    fun r hr => (exampleRange_mapped r hr).directMapped
  unfold oneBlockArena at h
  cases hadd : pmmAdd bareMachine exampleRange.start exampleRange.size with
  | error e => simp [hadd, bind, Except.bind] at h
  | ok t₀ =>
    have hrun := PmmRun.add exampleRange bareMachine_run (by decide) (by simp) hadd
    simp only [hadd, bind, Except.bind] at h
    cases hmake : makeArenaPmmAllocator exampleHhdmOffset 0x1000#64 p2align t₀ with
    | error e => simp [hmake] at h
    | ok r₁ =>
      obtain ⟨a, t₁⟩ := r₁
      simp only [hmake] at h
      cases hcall : kalloc a size t₁ with
      | error e => simp [hcall] at h
      | ok r₂ =>
        obtain ⟨b, t₂⟩ := r₂
        simp only [hcall, pure, Except.pure, Except.ok.injEq, Prod.mk.injEq] at h
        obtain ⟨rfl, rfl, rfl, rfl, rfl⟩ := h
        obtain ⟨p, hp⟩ := makeArena_took hrun hmap hmake hv
        have hmade : ArenaBlocks exampleHhdmOffset cond t₀ a p2align t₁ [p] [] := .make hmake hp
        exact ⟨hrun, hcall, ⟨_, hmade⟩, hmade.call hrun hmap hc hcall⟩

def firstBlk (p2align : BitVec 32) (size : Size) : Except Fault (Bool × Bool × Size) :=
  (oneBlockArena p2align size).map
    (fun r => (decide (r.2.1.self = 0#64), decide (r.2.2.2.1.ptr = 0#64), r.2.2.2.1.size))

theorem firstBlk_run {p2align : BitVec 32} {size n : Size}
    (h : firstBlk p2align size = .ok (false, false, n)) : ∃ s₀ arena s blk s',
      oneBlockArena p2align size = .ok (s₀, arena, s, blk, s') ∧ arena.self ≠ 0#64 ∧
      addBlk blk [] = [blk] ∧ blk.ptr ≠ 0#64 ∧ blk.size = n := by
  unfold firstBlk at h
  cases hr : oneBlockArena p2align size with
  | error e => simp [hr, Except.map] at h
  | ok r =>
    obtain ⟨s₀, arena, s, blk, s'⟩ := r
    simp only [hr, Except.map, Except.ok.injEq, Prod.mk.injEq, decide_eq_false_iff_not] at h
    obtain ⟨hself, hptr, hsize⟩ := h
    exact ⟨s₀, arena, s, blk, s', rfl, hself, if_neg hptr, hptr, hsize⟩

def firstBlks (p2align : BitVec 32) (size size' : Size) : Except Fault (Bool × Blk × Blk) :=
  (oneBlockArena p2align size).bind fun (_, arena, _, blk, s) =>
    (kalloc arena size' s).map fun r => (decide (arena.self = 0#64), blk, r.1)

/-- The second block does not fit behind the first, and takes a page of its own. -/
theorem arena_blocks_in_pages_example : ∃ s₀ arena s pages,
    ArenaBlocks exampleHhdmOffset (KeepsInPage 4#32) s₀ arena 4#32 s pages
      [⟨0xffff800000102010#64, 3008#64⟩, ⟨0xffff800000101020#64, 3008#64⟩] ∧
    ArenaBlocksOk exampleHhdmOffset 4#32 (hhdmPhysical exampleHhdmOffset arena.self) pages
      [⟨0xffff800000102010#64, 3008#64⟩, ⟨0xffff800000101020#64, 3008#64⟩] := by
  have hcompute : firstBlks 4#32 3000#64 3000#64 =
      .ok (false, ⟨0xffff800000101020#64, 3008#64⟩, ⟨0xffff800000102010#64, 3008#64⟩) := by
    unfold firstBlks oneBlockArena
    rw [pmmAdd]
    decide +kernel
  obtain ⟨⟨s₀, arena, s, blk, s'⟩, h, hrest⟩ := exists_of_bind_ok hcompute
  cases hnext : kalloc arena 3000#64 s' with
  | error e => simp [hnext, Except.map] at hrest
  | ok r =>
    obtain ⟨blk', t⟩ := r
    simp only [hnext, Except.map, Except.ok.injEq, Prod.mk.injEq, decide_eq_false_iff_not] at hrest
    obtain ⟨hself, rfl, rfl⟩ := hrest
    have hmap : ∀ r ∈ [exampleRange], DirectMapped exampleHhdmOffset r :=
      fun r hr => (exampleRange_mapped r hr).directMapped
    have hc : ∀ s, KeepsInPage 4#32 s 3000#64 :=
      fun _ => ⟨by decide, fun hlong => absurd hlong (by decide)⟩
    obtain ⟨hrun, -, -, before, hfirst⟩ := oneBlockArena_run h hself (KeepsInPage 4#32) (hc s)
    obtain ⟨pages, hblocks⟩ := hfirst.call hrun hmap (hc s') hnext
    exact ⟨s₀, arena, t, pages, hblocks,
      arena_blocks_in_pages hrun hmap (by decide) (by decide) hblocks⟩

/-- The first request of 4095 bytes takes a page with room for 4088. -/
theorem arena_block_leaves_page : ∃ s₀ arena s pages blk, PmmRun s₀ [exampleRange] ∅ ∧
    ArenaBlocks exampleHhdmOffset (fun _ size => size.toNat < 2 ^ 31) s₀ arena 0#32 s pages
      [blk] ∧ blk.size = 4095#64 ∧
    ¬ ArenaBlocksOk exampleHhdmOffset 0#32 (hhdmPhysical exampleHhdmOffset arena.self) pages
      [blk] := by
  have hcompute : firstBlk 0#32 4095#64 = .ok (false, false, 4095#64) := by
    unfold firstBlk oneBlockArena
    rw [pmmAdd]
    decide +kernel
  obtain ⟨s₀, arena, s, blk, s', h, hself, hadd, -, hsize⟩ := firstBlk_run hcompute
  obtain ⟨hrun, -, -, pages, hblocks⟩ :=
    oneBlockArena_run h hself (fun _ size => size.toNat < 2 ^ 31) (by decide)
  rw [hadd] at hblocks
  refine ⟨s₀, arena, s', pages, blk, hrun, hblocks, hsize, ?_⟩
  intro hok
  obtain ⟨page, -, hstart, hstop⟩ := hok.inside blk List.mem_cons_self
  have h8 : 8 ≤ reservedBytes (hhdmPhysical exampleHhdmOffset arena.self) page := by
    unfold reservedBytes
    split <;> decide
  have hlong : blk.size.toNat = 4095 := by
    rw [hsize]
    rfl
  omega

theorem kalloc_block_long_enough_example : ∃ s₀ arena s pages blk s',
    ArenaBlocks exampleHhdmOffset (fun _ _ => True) s₀ arena 4#32 s pages [] ∧
    kalloc arena 50#64 s = .ok (blk, s') ∧ (blk.ptr ≠ 0#64 → 50#64 ≤ blk.size) := by
  have hcompute : firstBlk 4#32 50#64 = .ok (false, false, 64#64) := by
    unfold firstBlk oneBlockArena
    rw [pmmAdd]
    decide +kernel
  obtain ⟨s₀, arena, s, blk, s', h, hself, -⟩ := firstBlk_run hcompute
  obtain ⟨hrun, -, ⟨pages, hblocks⟩, -⟩ := oneBlockArena_run h hself (fun _ _ => True) trivial
  have hkept : SizeKept 4#32 (hhdmPhysical exampleHhdmOffset arena.self) s 50#64 :=
    Or.inl (by decide)
  obtain ⟨b, t, hk, hb⟩ := (kalloc_block_long_enough hrun exampleRange_mapped (by decide) hblocks
    (by decide)).mpr hkept
  exact ⟨s₀, arena, s, pages, b, t, hblocks, hk, hb⟩

/-- Of a size of 33 bits only the lower 32 are kept. -/
theorem kalloc_block_too_short : ∃ s₀ arena s pages blk s', PmmRun s₀ [exampleRange] ∅ ∧
    ArenaBlocks exampleHhdmOffset (fun _ _ => True) s₀ arena 4#32 s pages [] ∧
    kalloc arena 0x100000001#64 s = .ok (blk, s') ∧ blk.ptr ≠ 0#64 ∧ blk.size = 16#64 ∧
    ¬ (blk.ptr ≠ 0#64 → 0x100000001#64 ≤ blk.size) := by
  have hcompute : firstBlk 4#32 0x100000001#64 = .ok (false, false, 16#64) := by
    unfold firstBlk oneBlockArena
    rw [pmmAdd]
    decide +kernel
  obtain ⟨s₀, arena, s, blk, s', h, hself, -, hptr, hsize⟩ := firstBlk_run hcompute
  obtain ⟨hrun, hk, ⟨pages, hblocks⟩, -⟩ := oneBlockArena_run h hself (fun _ _ => True) trivial
  refine ⟨s₀, arena, s, pages, blk, s', hrun, hblocks, hk, hptr, hsize, ?_⟩
  intro hle
  have hshort := hle hptr
  rw [hsize] at hshort
  exact absurd hshort (by decide)

end Example

end Ukulele
