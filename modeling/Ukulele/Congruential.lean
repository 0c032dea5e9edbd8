import Mathlib.Algebra.BigOperators.Intervals
import Mathlib.Algebra.BigOperators.Ring.Finset
import Mathlib.Data.Nat.ModEq
import Mathlib.Data.Nat.Prime.Basic
import Mathlib.Tactic.Ring

/-! Linear congruential sequences modulo a power of two, from the sums of the powers of their factor.
-/

set_option autoImplicit false

namespace Congruential
open Finset

def powers (a n : Nat) : Nat := ∑ i ∈ range n, a ^ i

@[simp] theorem powers_zero (a : Nat) : powers a 0 = 0 := rfl

theorem powers_succ (a n : Nat) : powers a (n + 1) = a * powers a n + 1 := by
  rw [powers, sum_range_succ', powers, mul_sum]
  simp [pow_succ, Nat.mul_comm]

theorem powers_add (a m n : Nat) : powers a (m + n) = powers a m + a ^ m * powers a n := by
  rw [powers, sum_range_add, powers, powers, mul_sum]
  simp [pow_add]

theorem pow_eq (a n : Nat) : (a + 1) ^ n = a * powers (a + 1) n + 1 := by
  induction n with
  | zero => rfl
  | succ n ih =>
    rw [powers_succ, pow_succ, ih]
    ring

section Odd

variable {a : Nat}

theorem powers_mod_two (ha : a % 2 = 1) (n : Nat) : powers a n % 2 = n % 2 := by
  induction n with
  | zero => rfl
  | succ n ih =>
    rw [powers_succ, Nat.add_mod, Nat.mul_mod, ha, ih]
    omega

theorem pow_mod_four (ha : a % 4 = 1) (n : Nat) : a ^ n % 4 = 1 := by
  rw [Nat.pow_mod, ha]
  simp

theorem two_pow_dvd_powers (ha : a % 4 = 1) (k n : Nat) : 2 ^ k ∣ powers a n ↔ 2 ^ k ∣ n := by
  induction k generalizing n with
  | zero => simp
  | succ k ih =>
    have hodd : a % 2 = 1 := by omega
    have hpar := powers_mod_two hodd n
    by_cases hn : n % 2 = 0
    · obtain ⟨m, rfl⟩ : ∃ m, n = m + m := ⟨n / 2, by omega⟩
      have hfour := pow_mod_four ha m
      obtain ⟨q, hq⟩ : ∃ q, 1 + a ^ m = 2 * (2 * q + 1) := ⟨a ^ m / 4, by omega⟩
      have hcop : Nat.Coprime (2 ^ k) (2 * q + 1) :=
        Nat.Coprime.pow_left k (by simp)
      have hsum : powers a (m + m) = 2 * (powers a m * (2 * q + 1)) := by
        calc
          powers a (m + m) = powers a m * (1 + a ^ m) := by
            rw [powers_add]
            ring
          _ = 2 * (powers a m * (2 * q + 1)) := by
            rw [hq]
            ring
      rw [hsum, ← Nat.two_mul, pow_succ', Nat.mul_dvd_mul_iff_left (by decide),
        Nat.mul_dvd_mul_iff_left (by decide), hcop.dvd_mul_right, ih]
    · have hne : ∀ x, x % 2 ≠ 0 → ¬ 2 ^ (k + 1) ∣ x := by
        intro x hx hdvd
        exact hx (Nat.mod_eq_zero_of_dvd ((Dvd.intro_left (2 ^ k) rfl).trans hdvd))
      exact iff_of_false (hne _ (by omega)) (hne _ hn)

end Odd

variable {a c : Nat}

theorem iterate_eq (a c x n : Nat) :
    (fun x => a * x + c)^[n] x = a ^ n * x + c * powers a n := by
  induction n with
  | zero => simp
  | succ n ih =>
    rw [Function.iterate_succ_apply', ih, powers_succ, pow_succ]
    ring

theorem iterate_eq_add (c x n : Nat) :
    (fun x => (a + 1) * x + c)^[n] x = x + (a * x + c) * powers (a + 1) n := by
  rw [iterate_eq, pow_eq]
  ring

theorem iterate_modEq_iff (ha : a % 4 = 1) (hc : c % 2 = 1) (k x n : Nat) :
    (fun x => a * x + c)^[n] x ≡ x [MOD 2 ^ k] ↔ 2 ^ k ∣ n := by
  obtain ⟨b, rfl⟩ : ∃ b, a = b + 1 := ⟨a - 1, by omega⟩
  have hcop : Nat.Coprime (2 ^ k) (b * x + c) := by
    apply Nat.Coprime.pow_left
    have hb : b * x % 2 = 0 := by
      rw [Nat.mul_mod]
      have hz : b % 2 = 0 := by omega
      simp [hz]
    exact Nat.coprime_two_left.mpr (Nat.odd_iff.mpr (by omega))
  rw [iterate_eq_add, ← two_pow_dvd_powers ha k n, ← hcop.dvd_mul_left, Nat.ModEq.comm]
  rw [Nat.modEq_iff_dvd' (Nat.le_add_right _ _), Nat.add_sub_cancel_left]

theorem iterate_mod_injOn (ha : a % 4 = 1) (hc : c % 2 = 1) (k x : Nat) :
    Set.InjOn (fun n => (fun x => a * x + c)^[n] x % 2 ^ k) (range (2 ^ k)) := by
  have hle : ∀ m n, m ≤ n → n < 2 ^ k →
      (fun x => a * x + c)^[m] x ≡ (fun x => a * x + c)^[n] x [MOD 2 ^ k] → m = n := by
    intro m n hmn hn he
    obtain ⟨d, rfl⟩ := Nat.exists_eq_add_of_le' hmn
    rw [Function.iterate_add_apply] at he
    have hd := (iterate_modEq_iff ha hc k _ d).mp he.symm
    have hz := Nat.eq_zero_of_dvd_of_lt hd (by omega)
    omega
  intro m hm n hn he
  rw [coe_range, Set.mem_Iio] at hm hn
  rcases Nat.le_total m n with hmn | hmn
  · exact hle m n hmn hn he
  · exact (hle n m hmn hm he.symm).symm

theorem image_iterate_mod (ha : a % 4 = 1) (hc : c % 2 = 1) (k x : Nat) :
    (range (2 ^ k)).image (fun n => (fun x => a * x + c)^[n] x % 2 ^ k) = range (2 ^ k) := by
  apply eq_of_subset_of_card_le
  · intro y hy
    obtain ⟨n, -, rfl⟩ := mem_image.mp hy
    exact mem_range.mpr (Nat.mod_lt _ (Nat.two_pow_pos k))
  · rw [card_image_of_injOn (iterate_mod_injOn ha hc k x)]

theorem card_iterate_mod (ha : a % 4 = 1) (hc : c % 2 = 1) (k x : Nat) (p : Nat → Prop)
    [DecidablePred p] :
    ((range (2 ^ k)).filter fun n => p ((fun x => a * x + c)^[n] x % 2 ^ k)).card =
      ((range (2 ^ k)).filter p).card := by
  have himage := image_iterate_mod ha hc k x
  have hinj := iterate_mod_injOn ha hc k x
  calc
    ((range (2 ^ k)).filter fun n => p ((fun x => a * x + c)^[n] x % 2 ^ k)).card =
        (((range (2 ^ k)).filter fun n => p ((fun x => a * x + c)^[n] x % 2 ^ k)).image
          fun n => (fun x => a * x + c)^[n] x % 2 ^ k).card := by
      rw [card_image_of_injOn (hinj.mono (filter_subset _ _))]
    _ = ((range (2 ^ k)).filter p).card := by
      rw [← filter_image, himage]

section Words

variable {w : Nat}

def step (w a c : Nat) (r : BitVec w) : BitVec w := r * BitVec.ofNat w a + BitVec.ofNat w c

theorem toNat_iterate_step (a c : Nat) (r : BitVec w) (n : Nat) :
    ((step w a c)^[n] r).toNat = (fun x => a * x + c)^[n] r.toNat % 2 ^ w := by
  induction n with
  | zero => simp [Nat.mod_eq_of_lt r.isLt]
  | succ n ih =>
    rw [Function.iterate_succ_apply', Function.iterate_succ_apply', step, BitVec.toNat_add,
      BitVec.toNat_mul, ih, BitVec.toNat_ofNat, BitVec.toNat_ofNat]
    simp [Nat.mul_comm]

theorem iterate_step_inj (ha : a % 4 = 1) (hc : c % 2 = 1) {r : BitVec w} {m n : Nat}
    (hm : m < 2 ^ w) (hn : n < 2 ^ w) (he : (step w a c)^[m] r = (step w a c)^[n] r) : m = n := by
  have hinj := iterate_mod_injOn ha hc w r.toNat
  apply hinj (by simpa using hm) (by simpa using hn)
  simp only
  rw [← toNat_iterate_step, ← toNat_iterate_step, he]

theorem card_iterate_step (ha : a % 4 = 1) (hc : c % 2 = 1) (r : BitVec w) (p : Nat → Prop)
    [DecidablePred p] :
    ((range (2 ^ w)).filter fun n => p ((step w a c)^[n] r).toNat).card =
      ((range (2 ^ w)).filter p).card := by
  simp only [toNat_iterate_step]
  exact card_iterate_mod ha hc w r.toNat p

theorem card_filter_div {b : Nat} (hb : 0 < b) (n : Nat) (p : Nat → Prop) [DecidablePred p] :
    ((range (b * n)).filter fun u => p (u / b)).card = b * ((range n).filter p).card := by
  have hdiv : ∀ q r, r < b → (b * q + r) / b = q := by
    intro q r hr
    rw [Nat.mul_add_div hb, Nat.div_eq_of_lt hr, Nat.add_zero]
  have himage : (range (b * n)).filter (fun u => p (u / b)) =
      ((range n).filter p ×ˢ range b).image fun q => b * q.1 + q.2 := by
    ext u
    simp only [mem_filter, mem_range, mem_image, mem_product, Prod.exists]
    constructor
    · intro hu
      exact ⟨u / b, u % b, ⟨⟨Nat.div_lt_of_lt_mul hu.1, hu.2⟩, Nat.mod_lt u hb⟩,
        Nat.div_add_mod u b⟩
    · rintro ⟨q, r, ⟨⟨hq, hp⟩, hr⟩, rfl⟩
      rw [hdiv q r hr]
      refine ⟨?_, hp⟩
      rw [Nat.mul_comm b n]
      exact Nat.mul_add_lt_mul_of_lt_of_lt hq hr
  rw [himage, card_image_of_injOn, card_product, card_range, Nat.mul_comm]
  intro q hq r hr he
  simp only [coe_product, Set.mem_prod, mem_coe, mem_range] at hq hr he
  have hfst : q.1 = r.1 := by rw [← hdiv q.1 q.2 hq.2, he, hdiv r.1 r.2 hr.2]
  rw [hfst, Nat.add_left_cancel_iff] at he
  exact Prod.ext hfst he

end Words

end Congruential
