import Mathlib

/-! A straight line on a grid: `m` steps along one axis and no more than that along the other. -/

set_option autoImplicit false

namespace DigitalLine

variable {m n k : Nat}

/-- The steps along the minor axis after `k` along the major one: `k * n / m`, rounded to the
nearest number, halves up. -/
def minorAt (m n k : Nat) : Nat := (2 * (k * n) + m) / (2 * m)

def balance (m n k : Nat) : Int := (minorAt m n k : Int) * m - k * n

theorem balance_bounds (hm : 0 < m) : -(m : Int) < 2 * balance m n k ∧ 2 * balance m n k ≤ m := by
  have hle := Nat.div_mul_le_self (2 * (k * n) + m) (2 * m)
  have hlt := Nat.lt_div_mul_add (a := 2 * (k * n) + m) (b := 2 * m) (by omega)
  rw [← minorAt] at hle hlt
  unfold balance
  constructor <;> zify at hle hlt <;> linarith

/-- No other number of steps is as near. -/
theorem minorAt_eq {j : Nat} (hlt : -(m : Int) < 2 * ((j : Int) * m - k * n))
    (hle : 2 * ((j : Int) * m - k * n) ≤ m) : minorAt m n k = j := by
  apply Nat.div_eq_of_lt_le
  · zify
    linarith
  · zify
    linarith

theorem minorAt_zero (m n : Nat) : minorAt m n 0 = 0 := by
  rcases Nat.eq_zero_or_pos m with rfl | hm
  · simp [minorAt]
  · apply minorAt_eq <;> simp [hm]

theorem minorAt_self (h : n ≤ m) : minorAt m n m = n := by
  rcases Nat.eq_zero_or_pos m with rfl | hm
  · simp [minorAt, Nat.le_zero.mp h]
  · have hzero : 2 * ((n : Int) * m - m * n) = 0 := by ring
    apply minorAt_eq <;> rw [hzero] <;> omega

theorem minorAt_succ (hm : 0 < m) (h : n ≤ m) : minorAt m n (k + 1) =
    if 2 * (balance m n k - n) ≤ -(m : Int) then minorAt m n k + 1 else minorAt m n k := by
  obtain ⟨hlt, hle⟩ := balance_bounds (n := n) (k := k) hm
  have hbalance : balance m n k = (minorAt m n k : Int) * m - k * n := rfl
  split
  · apply minorAt_eq
    · push_cast
      linarith
    · push_cast
      linarith
  · apply minorAt_eq
    · push_cast
      linarith
    · push_cast
      linarith

theorem minorAt_mono {i : Nat} (h : i ≤ k) : minorAt m n i ≤ minorAt m n k := by
  have hmul := Nat.mul_le_mul_right n h
  exact Nat.div_le_div_right (by omega)

theorem minorAt_le (h : n ≤ m) (hk : k ≤ m) : minorAt m n k ≤ n := by
  have hmono := @minorAt_mono m n m k hk
  rwa [minorAt_self h] at hmono

theorem minorAt_succ_le (hm : 0 < m) (h : n ≤ m) :
    minorAt m n k ≤ minorAt m n (k + 1) ∧ minorAt m n (k + 1) ≤ minorAt m n k + 1 := by
  rw [minorAt_succ hm h]
  split <;> omega

theorem abs_minorAt_sub_le (hm : 0 < m) (n k : Nat) :
    |(minorAt m n k : ℚ) - k * (n / m)| ≤ 1 / 2 := by
  obtain ⟨hlt, hle⟩ := balance_bounds (n := n) (k := k) hm
  have hpos : (0 : ℚ) < m := by exact_mod_cast hm
  have hdiv : (k : ℚ) * (n / m) = k * n / m := by ring
  have hcast : ((balance m n k : Int) : ℚ) = minorAt m n k * m - k * n := by
    rw [balance]
    push_cast
    ring
  have hlt' : -(m : ℚ) < 2 * (balance m n k : Int) := by exact_mod_cast hlt
  have hle' : 2 * ((balance m n k : Int) : ℚ) ≤ m := by exact_mod_cast hle
  rw [hcast] at hlt' hle'
  rw [hdiv, abs_le]
  constructor
  · rw [le_sub_iff_add_le, ← le_sub_iff_add_le', div_le_iff₀ hpos]
    linarith
  · rw [sub_le_iff_le_add, ← sub_le_iff_le_add', le_div_iff₀ hpos]
    linarith

end DigitalLine
