import Mathlib

/-! Ranges of a memory whose addresses wrap around: copying a range one cell at a time, and
looking for a cell in a range.
-/

set_option autoImplicit false

namespace ByteRange

variable {w : Nat} {α : Type}

def offset (d a : BitVec w) : Nat := (a - d).toNat

theorem offset_lt (d a : BitVec w) : offset d a < 2 ^ w := (a - d).isLt

theorem offset_add (d : BitVec w) {i : Nat} (hi : i < 2 ^ w) :
    offset d (d + BitVec.ofNat w i) = i := by
  rw [offset, BitVec.add_comm, BitVec.add_sub_cancel, BitVec.toNat_ofNat, Nat.mod_eq_of_lt hi]

@[simp] theorem add_offset (d a : BitVec w) : d + BitVec.ofNat w (offset d a) = a := by
  rw [offset, BitVec.ofNat_toNat, BitVec.setWidth_eq, BitVec.add_comm, BitVec.sub_add_cancel]

theorem offset_eq_iff {d a : BitVec w} {i : Nat} (hi : i < 2 ^ w) :
    offset d a = i ↔ a = d + BitVec.ofNat w i := by
  constructor
  · intro h
    rw [← h, add_offset]
  · intro h
    rw [h, offset_add d hi]

theorem offset_self (d : BitVec w) : offset d d = 0 := by
  simp [offset]

theorem offset_shift {s d : BitVec w} {n : Nat} (hn : n < 2 ^ w) :
    offset d (s + BitVec.ofNat w n) =
      if offset s d ≤ n then n - offset s d else 2 ^ w + n - offset s d := by
  have hd := offset_lt s d
  have he : s + BitVec.ofNat w n - d = BitVec.ofNat w n - (d - s) := by ring
  unfold offset at hd ⊢
  rw [he, BitVec.toNat_sub, BitVec.toNat_ofNat, Nat.mod_eq_of_lt hn]
  split
  · rw [show 2 ^ w - (d - s).toNat + n = 2 ^ w + (n - (d - s).toNat) by omega,
      Nat.add_mod_left, Nat.mod_eq_of_lt (by omega)]
  · rw [Nat.mod_eq_of_lt (by omega)]
    omega

def copy : Nat → BitVec w → BitVec w → (BitVec w → α) → BitVec w → α
  | 0, _, _, m => m
  | n + 1, d, s, m => copy n (d + 1#w) (s + 1#w) (Function.update m d (m s))

theorem copy_succ (n : Nat) (d s : BitVec w) (m : BitVec w → α) :
    copy (n + 1) d s m = Function.update (copy n d s m) (d + BitVec.ofNat w n)
      (copy n d s m (s + BitVec.ofNat w n)) := by
  induction n generalizing d s m with
  | zero => simp [copy]
  | succ n ih =>
    have hnext : ∀ a : BitVec w, a + 1#w + BitVec.ofNat w n = a + BitVec.ofNat w (n + 1) := by
      intro a
      rw [BitVec.ofNat_add]
      ring
    rw [copy, ih, hnext, hnext]
    rfl

theorem copy_apply (n : Nat) (hn : n ≤ 2 ^ w) (d s : BitVec w) (m : BitVec w → α)
    (a : BitVec w) : copy n d s m a =
      if offset d a < n then m (s + BitVec.ofNat w (offset d a % offset s d)) else m a := by
  induction n generalizing a with
  | zero => simp [copy]
  | succ n ih =>
    have ih := ih (by omega)
    have hd := offset_lt s d
    rw [copy_succ]
    by_cases ha : a = d + BitVec.ofNat w n
    · have hoff : offset d a = n := (offset_eq_iff (by omega)).mpr ha
      have hread : copy n d s m (s + BitVec.ofNat w n) =
          m (s + BitVec.ofNat w (n % offset s d)) := by
        rw [ih, offset_shift (by omega)]
        by_cases hδ : offset s d ≤ n
        · rw [if_pos hδ, ← Nat.mod_eq_sub_mod hδ]
          by_cases hz : offset s d = 0
          · simp [hz]
          · rw [if_pos (by omega)]
        · rw [if_neg hδ, if_neg (by omega), Nat.mod_eq_of_lt (by omega)]
      rw [hoff, if_pos (Nat.lt_succ_self n), ha, Function.update_self, hread]
    · have hoff : offset d a ≠ n := fun he => ha ((offset_eq_iff (by omega)).mp he)
      rw [Function.update_of_ne ha, ih]
      by_cases hlt : offset d a < n
      · rw [if_pos hlt, if_pos (by omega)]
      · rw [if_neg hlt, if_neg (by omega)]

theorem copy_apart {n : Nat} (hn : n ≤ 2 ^ w) {d s : BitVec w} (m : BitVec w → α)
    (h : offset s d = 0 ∨ n ≤ offset s d) (a : BitVec w) : copy n d s m a =
      if offset d a < n then m (s + BitVec.ofNat w (offset d a)) else m a := by
  rw [copy_apply n hn]
  by_cases hlt : offset d a < n
  · rw [if_pos hlt, if_pos hlt]
    rcases h with h | h
    · rw [h, Nat.mod_zero]
    · rw [Nat.mod_eq_of_lt (by omega)]
  · rw [if_neg hlt, if_neg hlt]

def fill : Nat → BitVec w → α → (BitVec w → α) → BitVec w → α
  | 0, _, _, m => m
  | n + 1, d, x, m => fill n (d + 1#w) x (Function.update m d x)

theorem offset_next {d a : BitVec w} (h : a ≠ d) : offset d a = offset (d + 1#w) a + 1 := by
  have hlt := offset_lt (d + 1#w) a
  have hplace := add_offset (d + 1#w) a
  have hnext : a = d + BitVec.ofNat w (offset (d + 1#w) a + 1) := by
    rw [BitVec.ofNat_add, BitVec.add_comm (BitVec.ofNat w _), ← BitVec.add_assoc]
    exact hplace.symm
  apply (offset_eq_iff _).mpr hnext
  by_contra hlast
  have hwrap : BitVec.ofNat w (offset (d + 1#w) a + 1) = 0#w := by
    rw [show offset (d + 1#w) a + 1 = 2 ^ w by omega]
    apply BitVec.eq_of_toNat_eq
    rw [BitVec.toNat_ofNat, BitVec.toNat_ofNat, Nat.mod_self, Nat.zero_mod]
  rw [hwrap, BitVec.add_zero] at hnext
  exact h hnext

theorem fill_apply (n : Nat) (hn : n ≤ 2 ^ w) (d : BitVec w) (x : α) (m : BitVec w → α)
    (a : BitVec w) : fill n d x m a = if offset d a < n then x else m a := by
  induction n generalizing d m with
  | zero => simp [fill]
  | succ n ih =>
    rw [fill, ih (by omega)]
    by_cases ha : a = d
    · subst ha
      simp [offset_self]
    · rw [Function.update_of_ne ha, offset_next ha]
      simp only [Nat.add_lt_add_iff_right]

/-- The cells from `a` on, at most `n`, before the first one that is looked for. -/
def before (p : α → Bool) (m : BitVec w → α) : Nat → BitVec w → Nat
  | 0, _ => 0
  | n + 1, a => if p (m a) then 0 else before p m n (a + 1#w) + 1

variable {p : α → Bool} {m : BitVec w → α}

theorem before_le (n : Nat) (a : BitVec w) : before p m n a ≤ n := by
  induction n generalizing a with
  | zero => simp [before]
  | succ n ih =>
    unfold before
    split
    · omega
    · have := ih (a + 1#w)
      omega

theorem add_one_ofNat (a : BitVec w) (i : Nat) :
    a + 1#w + BitVec.ofNat w i = a + BitVec.ofNat w (i + 1) := by
  rw [BitVec.ofNat_add]
  ring

theorem not_of_lt_before {n i : Nat} {a : BitVec w} (h : i < before p m n a) :
    p (m (a + BitVec.ofNat w i)) = false := by
  induction n generalizing a i with
  | zero => simp [before] at h
  | succ n ih =>
    unfold before at h
    split at h
    · omega
    · cases i with
      | zero => simpa using ‹¬ p (m a) = true›
      | succ i =>
        rw [← add_one_ofNat]
        exact ih (by omega)

theorem of_before_lt {n : Nat} {a : BitVec w} (h : before p m n a < n) :
    p (m (a + BitVec.ofNat w (before p m n a))) = true := by
  induction n generalizing a with
  | zero => simp at h
  | succ n ih =>
    unfold before at h ⊢
    split
    · simpa using ‹p (m a) = true›
    · rename_i hp
      rw [if_neg hp] at h
      rw [← add_one_ofNat]
      exact ih (by omega)

theorem before_eq {k : Nat} {a : BitVec w} (hbefore : ∀ i < k, p (m (a + BitVec.ofNat w i)) = false)
    (hat : p (m (a + BitVec.ofNat w k)) = true) (n : Nat) : before p m n a = min n k := by
  have hle := before_le (p := p) (m := m) n a
  rcases Nat.lt_trichotomy (before p m n a) k with hlt | he | hgt
  · by_cases hn : before p m n a < n
    · have hp := of_before_lt hn
      rw [hbefore _ hlt] at hp
      contradiction
    · omega
  · omega
  · have hp := not_of_lt_before hgt
    rw [hat] at hp
    contradiction

theorem before_eq_bound_iff {n : Nat} {a : BitVec w} :
    before p m n a = n ↔ ∀ i < n, p (m (a + BitVec.ofNat w i)) = false := by
  constructor
  · intro h i hi
    rw [← h] at hi
    exact not_of_lt_before hi
  · intro h
    have hle := before_le (p := p) (m := m) n a
    by_contra hne
    have hp := of_before_lt (p := p) (m := m) (a := a) (by omega : before p m n a < n)
    rw [h _ (by omega)] at hp
    contradiction

end ByteRange
