import Ukulele.Mmu
import Ukulele.RadixTree
import Ukulele.Outcome

/-! Where a walk goes. The wrapping arithmetic of `apply_nodes` on addresses, as ranges of
keys below a table: the entries visited and the part of the range behind each of them.
-/

set_option autoImplicit false

namespace Ukulele
open RadixTree

theorem one_shiftLeft_sub_one {k : Nat} (hk : k < 64) :
    (1#64 <<< k) - 1#64 = BitVec.ofNat 64 (2 ^ k - 1) := by
  have hlt : 2 ^ k < 2 ^ 64 := Nat.pow_lt_pow_right (by decide) hk
  have hpos : 0 < 2 ^ k := Nat.two_pow_pos k
  apply BitVec.eq_of_toNat_eq
  rw [BitVec.toNat_sub, BitVec.toNat_shiftLeft, BitVec.toNat_ofNat, BitVec.toNat_ofNat,
    Nat.shiftLeft_eq, Nat.mod_eq_of_lt (by omega : 2 ^ k - 1 < 2 ^ 64)]
  simp only [Nat.reducePow, Nat.reduceMod, Nat.one_mul] at hlt ⊢
  omega

theorem roundDownP2_eq (x : BitVec 64) {k : Nat} (hk : k < 64) :
    roundDownP2 x (1#64 <<< k) = (x >>> k) <<< k := by
  rw [roundDownP2, one_shiftLeft_sub_one hk]
  apply BitVec.eq_of_getLsbD_eq
  intro i hi
  simp only [BitVec.getLsbD_and, BitVec.getLsbD_not, BitVec.getLsbD_ofNat,
    Nat.testBit_two_pow_sub_one, BitVec.getLsbD_shiftLeft, BitVec.getLsbD_ushiftRight, hi]
  by_cases h : i < k
  · simp [h]
  · simp [h, Nat.add_sub_cancel' (Nat.le_of_not_lt h)]

theorem toNat_roundDownP2 (x : BitVec 64) {k : Nat} (hk : k < 64) :
    (roundDownP2 x (1#64 <<< k)).toNat = x.toNat / 2 ^ k * 2 ^ k := by
  have hx := x.isLt
  have hle : x.toNat / 2 ^ k * 2 ^ k ≤ x.toNat := Nat.div_mul_le_self _ _
  rw [roundDownP2_eq x hk, BitVec.toNat_shiftLeft, BitVec.toNat_ushiftRight,
    Nat.shiftRight_eq_div_pow, Nat.shiftLeft_eq, Nat.mod_eq_of_lt (by omega)]

theorem toNat_roundUpP2 (x : BitVec 64) {k : Nat} (hk : k < 64) :
    (roundUpP2 x (1#64 <<< k)).toNat =
      (x.toNat + (2 ^ k - 1)) % 2 ^ 64 / 2 ^ k * 2 ^ k := by
  have h : roundUpP2 x (1#64 <<< k) =
      roundDownP2 (x + BitVec.ofNat 64 (2 ^ k - 1)) (1#64 <<< k) := by
    rw [roundUpP2, roundDownP2, add_sub_assoc, one_shiftLeft_sub_one hk]
  have hlt : 2 ^ k < 2 ^ 64 := Nat.pow_lt_pow_right (by decide) hk
  have hpos : 0 < 2 ^ k := Nat.two_pow_pos k
  rw [h, toNat_roundDownP2 _ hk, BitVec.toNat_add, BitVec.toNat_ofNat,
    Nat.mod_eq_of_lt (by omega : 2 ^ k - 1 < 2 ^ 64)]

theorem toInt_eq {x : BitVec 64} (h : x.toNat < 2 ^ 31) : toInt x = (x.toNat : Int) := by
  rw [toInt, BitVec.toInt_eq_toNat_of_lt]
  · rw [BitVec.toNat_setWidth, Nat.mod_eq_of_lt (by omega)]
  · rw [BitVec.toNat_setWidth, Nat.mod_eq_of_lt (by omega)]
    omega

theorem toNat_shiftl (k i : Nat) : (shiftl k (i : Int)).toNat = i * 2 ^ k % 2 ^ 64 := by
  rw [shiftl, BitVec.ofInt_natCast, BitVec.toNat_shiftLeft, BitVec.toNat_ofNat, Nat.shiftLeft_eq,
    Nat.mod_mul_mod]

theorem toNat_minMacro (x y : BitVec 64) : (minMacro x y).toNat = min x.toNat y.toNat := by
  simp only [minMacro, BitVec.lt_def]
  split <;> omega

theorem toNat_maxMacro (x y : BitVec 64) : (maxMacro x y).toNat = max x.toNat y.toNat := by
  simp only [maxMacro, BitVec.lt_def]
  split <;> omega

theorem tableIndex_ok {i : Nat} (h : i < 512) : tableIndex (i : Int) = .ok ⟨i, h⟩ := by
  have hb : (0 : Int) ≤ i ∧ (i : Int) < 512 := by omega
  simp only [tableIndex, hb, and_self, dite_true, Int.toNat_natCast]

/-- A location is the key range from `a` up to `b`, counted from the start of a table of level
`n` whose first key is the address `B`. It starts in the table and may run past it. An end at
the end of the address space is 0. -/
structure LocIn (loc : NodeCommandLoc) (n B a b : Nat) : Prop where
  depth : loc.page.depth + n = 3
  base : B % (4096 * span 512 n) = 0
  start : loc.start.toNat = B + 4096 * a
  endAt : loc.endAt.toNat = (B + 4096 * b) % 2 ^ 64
  lt : a < b
  inside : a < span 512 n
  fits : B + 4096 * span 512 n ≤ 2 ^ 64
  total : B + 4096 * b ≤ 2 ^ 64
  small : b ≤ 2 ^ 36

/-- A location in its table. No end of an entry that the range meets wraps, or the range is in
the last leaf table. -/
structure LocAt (loc : NodeCommandLoc) (n B a b : Nat) : Prop extends LocIn loc n B a b where
  le : b ≤ span 512 n
  safe : B + 4096 * b + 4096 * width 512 n ≤ 2 ^ 64 ∨
    B + 4096 * b = 2 ^ 64 ∧ 2 ^ 64 ≤ B + 4096 * a + 2 ^ 21

section Indices

variable {loc : NodeCommandLoc} {n B a b : Nat}

theorem LocIn.level (h : LocIn loc n B a b) : n = 0 ∨ n = 1 ∨ n = 2 ∨ n = 3 := by
  have := h.depth
  omega

theorem LocIn.shift_eq (h : LocIn loc n B a b) :
    loc.shift < 55 ∧ 2 ^ loc.shift = 4096 * width 512 n ∧
      span 512 n = 512 * width 512 n ∧ 4096 * width 512 n ∣ 2 ^ 39 := by
  have hd := h.depth
  unfold NodeCommandLoc.shift
  rcases h.level with rfl | rfl | rfl | rfl
  · rw [show loc.page.depth = 3 by omega]
    decide
  · rw [show loc.page.depth = 2 by omega]
    decide
  · rw [show loc.page.depth = 1 by omega]
    decide
  · rw [show loc.page.depth = 0 by omega]
    decide

theorem LocIn.base_eq (h : LocIn loc n B a b) : loc.base.toNat = B := by
  obtain ⟨hs, hp, hspan, -⟩ := h.shift_eq
  have hcount : mmuRegPageMapEntryCount <<< loc.shift = 1#64 <<< (loc.shift + 9) := by
    rw [show mmuRegPageMapEntryCount = 1#64 <<< 9 by decide, ← BitVec.shiftLeft_add,
      Nat.add_comm]
  have hpow : 2 ^ (loc.shift + 9) = 4096 * span 512 n := by
    rw [Nat.pow_add, hp, hspan]
    omega
  have hin := h.inside
  obtain ⟨c, hc⟩ := Nat.dvd_of_mod_eq_zero h.base
  rw [NodeCommandLoc.base, hcount, toNat_roundDownP2 _ (by omega), hpow, h.start, hc,
    Nat.mul_add_div (by omega), Nat.div_eq_of_lt (by omega), Nat.add_zero, Nat.mul_comm]

theorem LocIn.width_pos (h : LocIn loc n B a b) : 0 < width 512 n := by
  have hp := h.shift_eq.2.1
  have := Nat.two_pow_pos loc.shift
  omega

theorem LocIn.startIdx_lt (h : LocIn loc n B a b) : a / width 512 n < 512 := by
  have hin := h.inside
  rw [span_eq_mul_width] at hin
  exact Nat.div_lt_of_lt_mul (by rwa [Nat.mul_comm])

theorem LocIn.startIdx_eq (h : LocIn loc n B a b) :
    loc.startIdx = ((a / width 512 n : Nat) : Int) := by
  obtain ⟨hs, hp, hspan, -⟩ := h.shift_eq
  have hw := h.width_pos
  have hdiv := h.startIdx_lt
  obtain ⟨c, hc⟩ := Nat.dvd_of_mod_eq_zero h.base
  have hdown : (roundDownP2 loc.start (1#64 <<< loc.shift)).toNat =
      B + a / width 512 n * 2 ^ loc.shift := by
    have hB : B = 2 ^ loc.shift * (512 * c) := by
      rw [hc, hspan, hp]
      ring
    rw [toNat_roundDownP2 _ (by omega), h.start, hB, hp, Nat.mul_add_div (by omega),
      Nat.mul_div_mul_left _ _ (by decide)]
    ring
  have hidx : ((roundDownP2 loc.start (1#64 <<< loc.shift) - loc.base) >>> loc.shift).toNat =
      a / width 512 n := by
    have hle' : loc.base.toNat ≤ (roundDownP2 loc.start (1#64 <<< loc.shift)).toNat := by
      rw [hdown, h.base_eq]
      omega
    rw [BitVec.toNat_ushiftRight, BitVec.toNat_sub_of_le (BitVec.le_def.mpr hle'), hdown,
      h.base_eq, Nat.add_sub_cancel_left, Nat.shiftRight_eq_div_pow,
      Nat.mul_div_cancel _ (Nat.two_pow_pos _)]
  rw [NodeCommandLoc.startIdx, toInt_eq (by rw [hidx]; omega), hidx]

theorem LocIn.endCount_eq (h : LocIn loc n B a b) :
    ((roundUpP2 loc.endAt (1#64 <<< loc.shift) - loc.base) >>> loc.shift).toNat =
      (b + width 512 n - 1) / width 512 n := by
  obtain ⟨hs, hp, hspan, hdvd⟩ := h.shift_eq
  have hw := h.width_pos
  have hsmall := h.small
  have hwidth : 4096 * width 512 n ≤ 2 ^ 39 := Nat.le_of_dvd (by decide) hdvd
  obtain ⟨c, hc⟩ := Nat.dvd_of_mod_eq_zero h.base
  have hB : B = 2 ^ loc.shift * (512 * c) := by
    rw [hc, hspan, hp]
    ring
  have hup : (B + 4096 * b + (2 ^ loc.shift - 1)) / 2 ^ loc.shift =
      512 * c + (b + width 512 n - 1) / width 512 n := by
    have hsum : (4096 * b + (4096 * width 512 n - 1)) / 4096 = b + width 512 n - 1 := by omega
    rw [hB, Nat.add_assoc, Nat.mul_add_div (Nat.two_pow_pos _), hp, ← Nat.div_div_eq_div_mul,
      hsum]
  obtain ⟨r, hr⟩ : 2 ^ loc.shift ∣ 2 ^ 64 := by
    rw [hp]
    exact hdvd.trans (Nat.pow_dvd_pow 2 (by decide))
  have hround : (roundUpP2 loc.endAt (1#64 <<< loc.shift)).toNat =
      (B + (b + width 512 n - 1) / width 512 n * 2 ^ loc.shift) % 2 ^ 64 := by
    rw [toNat_roundUpP2 _ (by omega), h.endAt, Nat.mod_add_mod, hr, Nat.mod_mul_right_div_self,
      hup, Nat.mul_comm _ r, ← Nat.mul_mod_mul_right, hB]
    ring_nf
  have hbytes : (b + width 512 n - 1) / width 512 n * 2 ^ loc.shift < 2 ^ 64 := by
    have hle : (b + width 512 n - 1) / width 512 n * width 512 n ≤ b + width 512 n - 1 :=
      Nat.div_mul_le_self _ _
    have hmul : (b + width 512 n - 1) / width 512 n * 2 ^ loc.shift =
        4096 * ((b + width 512 n - 1) / width 512 n * width 512 n) := by
      rw [hp]
      ring
    omega
  have hbase := loc.base.isLt
  rw [h.base_eq] at hbase
  rw [BitVec.toNat_ushiftRight, BitVec.toNat_sub, hround, h.base_eq, Nat.shiftRight_eq_div_pow,
    Nat.add_mod_mod, show 2 ^ 64 - B + (B + (b + width 512 n - 1) / width 512 n * 2 ^ loc.shift) =
      (b + width 512 n - 1) / width 512 n * 2 ^ loc.shift + 2 ^ 64 by omega,
    Nat.add_mod_right, Nat.mod_eq_of_lt hbytes, Nat.mul_div_cancel _ (Nat.two_pow_pos _)]

theorem LocIn.endIdx_eq (h : LocIn loc n B a b) (hu : (b + width 512 n - 1) / width 512 n < 2 ^ 31) :
    loc.endIdx = (((b + width 512 n - 1) / width 512 n : Nat) : Int) := by
  have hc := h.endCount_eq
  rw [NodeCommandLoc.endIdx, toInt_eq (by rw [hc]; exact hu), hc]

theorem LocAt.endIdx_le (h : LocAt loc n B a b) : (b + width 512 n - 1) / width 512 n ≤ 512 := by
  have hw := h.width_pos
  have hle := h.le
  rw [span_eq_mul_width] at hle
  apply Nat.le_of_lt_succ
  apply Nat.div_lt_of_lt_mul
  rw [Nat.mul_comm, Nat.add_one_mul]
  omega

theorem LocAt.endIdx_eq (h : LocAt loc n B a b) :
    loc.endIdx = (((b + width 512 n - 1) / width 512 n : Nat) : Int) := by
  have hle := h.endIdx_le
  exact h.toLocIn.endIdx_eq (by omega)

theorem LocIn.child_start (h : LocIn loc n B a b) {i : Nat}
    (hi : i < 512) (e : BitVec 64) :
    (loc.child i e).start.toNat =
      B + 4096 * (i * width 512 n) + 4096 * lower a (width 512 n) i := by
  obtain ⟨hs, hp, hspan, -⟩ := h.shift_eq
  have hfits := h.fits
  have hw := h.width_pos
  have hmul : i * 2 ^ loc.shift = 4096 * (i * width 512 n) := by
    rw [hp]
    ring
  have hile : i * width 512 n ≤ 511 * width 512 n := Nat.mul_le_mul_right _ (by omega)
  have hblk : (shiftl loc.shift (i : Int) + loc.base).toNat = B + 4096 * (i * width 512 n) := by
    rw [BitVec.toNat_add, toNat_shiftl, h.base_eq, hmul]
    omega
  simp only [NodeCommandLoc.child, toNat_maxMacro, h.start, hblk, lower]
  omega

theorem LocIn.child_end (h : LocIn loc (n + 1) B a b) (i : Nat) (e : BitVec 64) :
    (loc.child i e).endAt.toNat =
      min loc.endAt.toNat ((B + 4096 * ((i + 1) * span 512 n)) % 2 ^ 64) := by
  obtain ⟨hs, hp, hspan, hdvd⟩ := h.shift_eq
  have hmul : (i + 1) * 2 ^ loc.shift = 4096 * ((i + 1) * span 512 n) := by
    rw [hp, show width 512 (n + 1) = span 512 n from rfl]
    ring
  have hcast : ((i : Int) + 1) = ((i + 1 : Nat) : Int) := by omega
  have hblk : (shiftl loc.shift ((i : Int) + 1) + loc.base).toNat =
      (B + 4096 * ((i + 1) * span 512 n)) % 2 ^ 64 := by
    rw [hcast, BitVec.toNat_add, toNat_shiftl, h.base_eq, hmul, Nat.mod_add_mod, Nat.add_comm]
  simp only [NodeCommandLoc.child, toNat_minMacro, hblk]

theorem LocIn.child (h : LocIn loc (n + 1) B a b) {i b' : Nat} (hi : i < 512)
    (hma : a < (i + 1) * span 512 n) (e : BitVec 64)
    (hend : (loc.child i e).endAt.toNat = (B + 4096 * (i * span 512 n) + 4096 * b') % 2 ^ 64)
    (hlt : lower a (span 512 n) i < b')
    (htotal : B + 4096 * (i * span 512 n) + 4096 * b' ≤ 2 ^ 64) (hsmall : b' ≤ 2 ^ 36) :
    LocIn (loc.child i e) n (B + 4096 * (i * span 512 n)) (lower a (span 512 n) i) b' := by
  obtain ⟨hs, hp, hspan, hdvd⟩ := h.shift_eq
  have hwidth : width 512 (n + 1) = span 512 n := rfl
  have hd := h.depth
  have hfits := h.fits
  have hbase := h.base
  rw [hspan, hwidth] at hbase hfits
  have hstart := h.child_start hi e
  rw [hwidth] at hstart
  have hile : i * span 512 n ≤ 511 * span 512 n := Nat.mul_le_mul_right _ (by omega)
  have hnext := Nat.add_one_mul i (span 512 n)
  refine ⟨?_, ?_, hstart, hend, hlt, ?_, ?_, htotal, hsmall⟩
  · simp only [NodeCommandLoc.child]
    omega
  · obtain ⟨c, rfl⟩ := Nat.dvd_of_mod_eq_zero hbase
    have hdiv : 4096 * (512 * span 512 n) * c + 4096 * (i * span 512 n) =
        4096 * span 512 n * (512 * c + i) := by ring
    rw [hdiv, Nat.mul_mod_right]
  · unfold lower
    omega
  · omega

theorem LocIn.child_inner (h : LocIn loc (n + 1) B a b) (hb : B + 4096 * b < 2 ^ 64) {i : Nat}
    (hi : i < 512) (hm : Meets a b (span 512 n) i)
    (hlast : B + 4096 * ((i + 1) * span 512 n) < 2 ^ 64) (e : BitVec 64) :
    LocIn (loc.child i e) n (B + 4096 * (i * span 512 n)) (lower a (span 512 n) i)
      (upper b (span 512 n) i) := by
  have hw : 0 < span 512 n := h.width_pos
  have hnext := Nat.add_one_mul i (span 512 n)
  have hsmall := h.small
  obtain ⟨hmb, hma⟩ := hm
  apply h.child hi hma e
  · rw [h.child_end, h.endAt]
    unfold upper
    omega
  · exact Meets.lower_lt_upper ⟨hmb, hma⟩ hw h.lt
  · unfold upper
    omega
  · unfold upper
    omega

theorem LocIn.child_zero (h : LocIn loc (n + 1) B a b) (hB : 2 ^ 64 ≤ B + 2 ^ 48) {i : Nat}
    (hi : i < 512) (hma : a < (i + 1) * span 512 n) (e : BitVec 64)
    (hend : (loc.child i e).endAt = 0#64) {b' : Nat}
    (hb' : B + 4096 * (i * span 512 n) + 4096 * b' = 2 ^ 64) :
    LocIn (loc.child i e) n (B + 4096 * (i * span 512 n)) (lower a (span 512 n) i) b' := by
  obtain ⟨hs, hp, hspan, -⟩ := h.shift_eq
  have hfits := h.fits
  have hnext := Nat.add_one_mul i (span 512 n)
  have hwidth : width 512 (n + 1) = span 512 n := rfl
  have hile : (i + 1) * span 512 n ≤ 512 * span 512 n := Nat.mul_le_mul_right _ (by omega)
  rw [hspan, hwidth] at hfits
  have hlow : lower a (span 512 n) i < span 512 n := by
    unfold lower
    omega
  apply h.child hi hma e
  · rw [hend, hb']
    decide
  · omega
  · omega
  · omega

theorem LocIn.small_span (h : LocIn loc n B a b) : span 512 n ≤ 2 ^ 36 := by
  rcases h.level with rfl | rfl | rfl | rfl <;> decide

theorem LocIn.big_span (h : LocIn loc n B a b) : 512 ≤ span 512 n := by
  rcases h.level with rfl | rfl | rfl | rfl <;> decide

theorem LocIn.child_last (h : LocIn loc (n + 1) B a b) (hB : B + 4096 * span 512 (n + 1) = 2 ^ 64)
    (e : BitVec 64) :
    LocIn (loc.child (511 : Nat) e) n (B + 4096 * (511 * span 512 n))
      (lower a (span 512 n) 511) (span 512 n) := by
  obtain ⟨hs, hp, hspan, -⟩ := h.shift_eq
  have hwidth : width 512 (n + 1) = span 512 n := rfl
  have hin := h.inside
  rw [hspan, hwidth] at hB hin
  have hspan36 := h.small_span
  rw [hspan, hwidth] at hspan36
  apply h.child_zero (by omega) (by omega) (by omega)
  · apply BitVec.eq_of_toNat_eq
    rw [h.child_end, show B + 4096 * ((511 + 1) * span 512 n) = 2 ^ 64 by omega]
    exact Nat.min_zero _
  · omega

theorem LocAt.child (h : LocAt loc (n + 1) B a b) {i : Nat} (hm : Meets a b (span 512 n) i)
    (e : BitVec 64) :
    LocAt (loc.child i e) n (B + 4096 * (i * span 512 n)) (lower a (span 512 n) i)
      (upper b (span 512 n) i) := by
  obtain ⟨hs, hp, hspan, -⟩ := h.shift_eq
  have hwidth : width 512 (n + 1) = span 512 n := rfl
  have hw : 0 < span 512 n := h.width_pos
  have hi : i < 512 := Meets.lt_fanout (n := n + 1) hm h.le
  have hle := h.le
  have hfits := h.fits
  have hsafe := h.safe
  have hnext := Nat.add_one_mul i (span 512 n)
  rw [hspan, hwidth] at hle hfits
  rw [hwidth] at hsafe
  have hlow : width 512 n ≤ span 512 n := by
    rw [span_eq_mul_width 512 n]
    omega
  obtain ⟨hmb, hma⟩ := hm
  rcases hsafe with hsafe | ⟨h₁, h₂⟩
  · have hin := h.toLocIn.child_inner (by omega) hi ⟨hmb, hma⟩ (by omega) e
    refine ⟨hin, upper_le _ _ _, ?_⟩
    left
    unfold upper
    omega
  · -- only the last entry is visited
    have hbig := h.big_span
    rw [hspan, hwidth] at hbig
    have hbytes : 2 ^ 21 ≤ 4096 * span 512 n := by
      have hspan' := span_eq_mul_width 512 n
      have hwpos : 0 < width 512 n := by omega
      omega
    have hi' : i = 511 := by
      by_contra hne
      have hlt : (i + 1) * span 512 n ≤ 511 * span 512 n := Nat.mul_le_mul_right _ (by omega)
      omega
    subst hi'
    have hB : B + 4096 * span 512 (n + 1) = 2 ^ 64 := by
      rw [hspan, hwidth]
      omega
    have hin := h.toLocIn.child_last hB e
    have hup : upper b (span 512 n) 511 = span 512 n := by
      unfold upper
      omega
    rw [hup]
    refine ⟨hin, Nat.le_refl _, ?_⟩
    right
    unfold lower
    omega

/-- A loop over the entries that the range meets, with an invariant of what has been visited. -/
theorem LocAt.loop (h : LocAt loc n B a b) {visit : NodeCallback} {bad : Fault → Prop}
    (I : Nat → Machine → Prop)
    (hstep : ∀ (i : Nat) (hi : i < 512), Meets a b (width 512 n) i → ∀ s, I i s →
      Outcome bad (I (i + 1))
        (visit (loc.child i (s.load ⟨loc.page.page, ⟨i, hi⟩⟩)) ⟨loc.page.page, ⟨i, hi⟩⟩ s))
    {s : Machine} (h₀ : I (a / width 512 n) s) :
    Outcome bad (I ((b + width 512 n - 1) / width 512 n)) (applyNodes loc visit s) := by
  have hw := h.width_pos
  have hloop : ∀ (m i : Nat) (s : Machine), a / width 512 n ≤ i →
      i + m = (b + width 512 n - 1) / width 512 n → I i s →
      Outcome bad (I (i + m)) (applyNodesLoop loc visit m i s) := by
    intro m
    induction m with
    | zero => exact fun i s _ _ hI => hI
    | succ m ih =>
      intro i s hlo hhi hI
      have hm : Meets a b (width 512 n) i := (meets_iff hw).mpr ⟨hlo, by omega⟩
      have hi := hm.lt_fanout h.le
      simp only [applyNodesLoop, tableIndex_ok hi]
      apply (hstep i hi hm s hI).bind
      intro t ht
      have := ih (i + 1) t (by omega) (by omega) ht
      rw [show i + 1 + m = i + (m + 1) by omega] at this
      simpa using this
  have hle : a / width 512 n ≤ (b + width 512 n - 1) / width 512 n := by
    apply Nat.div_le_div_right
    have := h.lt
    omega
  have hcount : (loc.endIdx - loc.startIdx).toNat =
      (b + width 512 n - 1) / width 512 n - a / width 512 n := by
    rw [h.startIdx_eq, h.endIdx_eq]
    omega
  have hrun := hloop _ _ s (Nat.le_refl _) (Nat.add_sub_cancel' hle) h₀
  rw [Nat.add_sub_cancel' hle] at hrun
  rw [applyNodes, hcount, h.startIdx_eq]
  exact hrun

end Indices

end Ukulele
