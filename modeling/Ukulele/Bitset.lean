import Mathlib

/-! A block of `n` words of `w` bits as the finite set of the positions of its set bits.
Position `k` is bit `k % w` of word `k / w`.
-/

set_option autoImplicit false

namespace Bitset

variable {n w : Nat}

def test (blk : Fin n → BitVec w) (k : Nat) : Bool :=
  if h : k / w < n then (blk ⟨k / w, h⟩).getLsbD (k % w) else false

def members (blk : Fin n → BitVec w) : Finset Nat :=
  (Finset.range (n * w)).filter (fun k => test blk k = true)

def clear (blk : Fin n → BitVec w) (i : Fin n) (b : Nat) : Fin n → BitVec w :=
  Function.update blk i (blk i &&& ~~~(1#w <<< b))

def insert (blk : Fin n → BitVec w) (i : Fin n) (b : Nat) : Fin n → BitVec w :=
  Function.update blk i (blk i ||| (1#w <<< b))

/-- The first word with a set bit, scanning from word zero. -/
def firstWord (blk : Fin n → BitVec w) : Option (Fin n) :=
  (List.finRange n).find? (fun i => blk i ≠ 0#w)

theorem test_word (blk : Fin n → BitVec w) (i : Fin n) {b : Nat} (hb : b < w) :
    test blk (w * i.val + b) = (blk i).getLsbD b := by
  have hw : 0 < w := by omega
  have hd : (w * i.val + b) / w = i.val := by
    rw [Nat.mul_add_div hw, Nat.div_eq_of_lt hb, Nat.add_zero]
  have hm : (w * i.val + b) % w = b := by
    rw [Nat.mul_add_mod, Nat.mod_eq_of_lt hb]
  simp [test, hd, hm]

theorem test_lt {blk : Fin n → BitVec w} {k : Nat} (h : test blk k = true) : k < n * w := by
  unfold test at h
  split at h
  · rename_i hk
    have hw : 0 < w := by
      by_contra hz
      have hz : w = 0 := by omega
      subst hz
      simp at h
    exact (Nat.div_lt_iff_lt_mul hw).mp hk
  · contradiction

@[simp] theorem mem_members {blk : Fin n → BitVec w} {k : Nat} :
    k ∈ members blk ↔ test blk k = true := by
  simp only [members, Finset.mem_filter, Finset.mem_range, and_iff_right_iff_imp]
  exact test_lt

theorem exists_word {k : Nat} (h : k < n * w) :
    ∃ (i : Fin n) (b : Nat), b < w ∧ k = w * i.val + b := by
  have hw : 0 < w := by
    by_contra hz
    have hz : w = 0 := by omega
    subst hz
    simp at h
  refine ⟨⟨k / w, (Nat.div_lt_iff_lt_mul hw).mpr h⟩, k % w, Nat.mod_lt k hw, ?_⟩
  exact (Nat.div_add_mod k w).symm

theorem word_position_inj {i j : Fin n} {b c : Nat} (hb : b < w) (hc : c < w)
    (h : w * i.val + b = w * j.val + c) : i = j ∧ b = c := by
  have hw : 0 < w := by omega
  have hi := congrArg (· / w) h
  have hm := congrArg (· % w) h
  simp only [Nat.mul_add_div hw, Nat.div_eq_of_lt hb, Nat.div_eq_of_lt hc, Nat.add_zero] at hi
  simp only [Nat.mul_add_mod, Nat.mod_eq_of_lt hb, Nat.mod_eq_of_lt hc] at hm
  exact ⟨Fin.ext hi, hm⟩

theorem getLsbD_clear (x : BitVec w) (b : Nat) {c : Nat} (hc : c < w) :
    (x &&& ~~~(1#w <<< b)).getLsbD c = (x.getLsbD c && decide (c ≠ b)) := by
  by_cases hcb : c < b
  · have hne : c ≠ b := by omega
    simp [hc, hcb, hne]
  · by_cases he : c = b
    · subst c
      simp [hc]
    · have hz : c - b ≠ 0 := by omega
      simp [hc, hcb, he, hz]

theorem getLsbD_insert (x : BitVec w) (b : Nat) {c : Nat} (hc : c < w) :
    (x ||| (1#w <<< b)).getLsbD c = (x.getLsbD c || decide (c = b)) := by
  by_cases hcb : c < b
  · have hne : c ≠ b := by omega
    simp [hc, hcb, hne]
  · by_cases he : c = b
    · subst c
      simp [hc]
    · have hz : c - b ≠ 0 := by omega
      simp [hc, hcb, he, hz]

theorem members_clear (blk : Fin n → BitVec w) (i : Fin n) {b : Nat} (hb : b < w) :
    members (clear blk i b) = (members blk).erase (w * i.val + b) := by
  ext k
  by_cases hk : k < n * w
  · obtain ⟨j, c, hc, rfl⟩ := exists_word hk
    simp only [mem_members, Finset.mem_erase, test_word _ j hc, clear]
    by_cases hij : j = i
    · subst j
      have hpos : w * i.val + c ≠ w * i.val + b ↔ c ≠ b := by omega
      simp only [Function.update_self, getLsbD_clear _ b hc, Bool.and_eq_true,
        decide_eq_true_eq, hpos]
      exact and_comm
    · have hne : w * j.val + c ≠ w * i.val + b :=
        fun h => hij (word_position_inj hc hb h).1
      simp [Function.update_of_ne hij, hne]
  · have h₁ : ¬ test (clear blk i b) k = true := fun h => hk (test_lt h)
    have h₂ : ¬ test blk k = true := fun h => hk (test_lt h)
    simp [h₁, h₂]

theorem members_insert (blk : Fin n → BitVec w) (i : Fin n) {b : Nat} (hb : b < w) :
    members (insert blk i b) = Insert.insert (w * i.val + b) (members blk) := by
  ext k
  by_cases hk : k < n * w
  · obtain ⟨j, c, hc, rfl⟩ := exists_word hk
    simp only [mem_members, Finset.mem_insert, test_word _ j hc, insert]
    by_cases hij : j = i
    · subst j
      have hpos : w * i.val + c = w * i.val + b ↔ c = b := by omega
      simp only [Function.update_self, getLsbD_insert _ b hc, Bool.or_eq_true,
        decide_eq_true_eq, hpos]
      exact or_comm
    · have hne : w * j.val + c ≠ w * i.val + b :=
        fun h => hij (word_position_inj hc hb h).1
      simp [Function.update_of_ne hij, hne]
  · have h₁ : ¬ test (insert blk i b) k = true := fun h => hk (test_lt h)
    have h₂ : ¬ test blk k = true := fun h => hk (test_lt h)
    have h₃ : k ≠ w * i.val + b := by
      intro h
      apply hk
      rw [h]
      calc
        w * i.val + b < w * i.val + w := by omega
        _ = (i.val + 1) * w := by rw [Nat.add_mul, Nat.mul_comm, Nat.one_mul]
        _ ≤ n * w := Nat.mul_le_mul_right w i.isLt
    simp [h₁, h₂, h₃]

theorem firstWord_none {blk : Fin n → BitVec w} (h : firstWord blk = none) :
    members blk = ∅ := by
  rw [firstWord, List.find?_eq_none] at h
  ext k
  simp only [Finset.notMem_empty, iff_false]
  intro hk
  obtain ⟨i, b, hb, rfl⟩ := exists_word (test_lt (mem_members.mp hk))
  have hz := h i (List.mem_finRange i)
  simp only [decide_eq_true_eq, not_not] at hz
  simp [test_word blk i hb, hz] at hk

theorem firstWord_ne_zero {blk : Fin n → BitVec w} {i : Fin n}
    (h : firstWord blk = some i) : blk i ≠ 0#w := by
  simpa using List.find?_some h

theorem first_mem {blk : Fin n → BitVec w} {i : Fin n} (h : firstWord blk = some i) :
    (blk i).ctz.toNat < w ∧ w * i.val + (blk i).ctz.toNat ∈ members blk := by
  have hne := firstWord_ne_zero h
  have hlt : (blk i).ctz.toNat < w := by
    have hc := BitVec.ctz_lt_iff_ne_zero.mpr hne
    have ht := BitVec.lt_def.mp hc
    exact Nat.lt_of_lt_of_le ht (by simp)
  refine ⟨hlt, ?_⟩
  rw [mem_members, test_word blk i hlt]
  exact BitVec.getLsbD_true_ctz_of_ne_zero hne

theorem first_le {blk : Fin n → BitVec w} {i : Fin n} (h : firstWord blk = some i) {k : Nat}
    (hk : k ∈ members blk) : w * i.val + (blk i).ctz.toNat ≤ k := by
  rw [mem_members] at hk
  obtain ⟨j, b, hb, rfl⟩ := exists_word (test_lt hk)
  rw [test_word blk j hb] at hk
  have hij : i ≤ j := by
    by_contra hlt
    have hzero : blk j = 0#w := by
      by_contra hne
      rw [firstWord] at h
      have hfirst := (List.find?_eq_some_iff_getElem.mp h).2
      obtain ⟨m, hm, hget, hbefore⟩ := hfirst
      simp only [List.getElem_finRange, Fin.cast_mk] at hget
      have hjm : j.val < m := by
        rw [← hget] at hlt
        exact Nat.lt_of_not_le hlt
      simpa [hne] using hbefore j.val hjm
    simp [hzero] at hk
  by_cases he : i = j
  · subst j
    have hle : (blk i).ctz.toNat ≤ b := by
      by_contra hlt
      have hfalse := BitVec.getLsbD_false_of_lt_ctz (Nat.lt_of_not_le hlt)
      simp [hfalse] at hk
    omega
  · have hctz := (first_mem h).1
    have hlt : i.val + 1 ≤ j.val := by omega
    have hmul := Nat.mul_le_mul_left w hlt
    rw [Nat.mul_succ] at hmul
    omega

theorem members_prefix (blk : Fin n → BitVec w) (m : Nat) (hm : m ≤ n * w)
    (h : ∀ (i : Fin n) (b : Nat), b < w → ((blk i).getLsbD b = true ↔ w * i.val + b < m)) :
    members blk = Finset.range m := by
  ext k
  rw [mem_members, Finset.mem_range]
  constructor
  · intro hk
    obtain ⟨i, b, hb, rfl⟩ := exists_word (test_lt hk)
    rw [test_word blk i hb] at hk
    exact (h i b hb).mp hk
  · intro hk
    obtain ⟨i, b, hb, rfl⟩ := exists_word (Nat.lt_of_lt_of_le hk hm)
    rw [test_word blk i hb]
    exact (h i b hb).mpr hk

end Bitset
