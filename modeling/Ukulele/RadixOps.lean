import Ukulele.RadixTree

/-! Three operations on a key range of a radix tree: reserving its tables, setting its leaf
entries and pruning the tables that became empty.
-/

set_option autoImplicit false

namespace RadixTree

variable {F n : Nat} {W P : Type} (c : Coding W P)

theorem lower_le {a w i r : Nat} : lower a w i ≤ r ↔ a ≤ i * w + r := by
  unfold lower
  omega

theorem lt_upper {b w i r : Nat} (hr : r < w) : r < upper b w i ↔ i * w + r < b := by
  unfold upper
  omega

def Covered : (n : Nat) → Tree F W n → Nat → Prop
  | 0, _, k => k < F
  | n + 1, T, k => ∃ (h : k / span F n < F) (w : W) (t : Tree F W n),
      T ⟨k / span F n, h⟩ = .table w t ∧ Covered n t (k % span F n)

/-- The leaf entries of the keys from `a` up to `b` are set, where they are there. -/
def setRange : (n : Nat) → Tree F W n → Nat → Nat → (Nat → W) → Tree F W n
  | 0, T, a, b, f => fun i => if a ≤ i.val ∧ i.val < b then f i.val else T i
  | n + 1, T, a, b, f => fun i =>
    match T i with
    | .absent w => .absent w
    | .table w t => .table w (setRange n t (lower a (span F n) i) (upper b (span F n) i)
        (fun k => f (i.val * span F n + k)))

theorem setRange_absent {T : Tree F W (n + 1)} {i : Fin F} {w : W} (h : T i = .absent w)
    (a b : Nat) (f : Nat → W) : (setRange (n + 1) T a b f) i = .absent w := by
  simp only [setRange, h]

theorem setRange_table {T : Tree F W (n + 1)} {i : Fin F} {w : W} {t : Tree F W n}
    (h : T i = .table w t) (a b : Nat) (f : Nat → W) :
    (setRange (n + 1) T a b f) i =
      .table w (setRange n t (lower a (span F n) i) (upper b (span F n) i)
        (fun k => f (i.val * span F n + k))) := by
  simp only [setRange, h]

section Get

theorem get_of_absent {T : Tree F W (n + 1)} {k : Nat} (hk : k / span F n < F) {w : W}
    (h : T ⟨k / span F n, hk⟩ = .absent w) : get c (n + 1) T k = none := by
  simp only [get, hk, dite_true, h]

theorem get_of_table {T : Tree F W (n + 1)} {k : Nat} (hk : k / span F n < F) {w : W}
    {t : Tree F W n} (h : T ⟨k / span F n, hk⟩ = .table w t) :
    get c (n + 1) T k = get c n t (k % span F n) := by
  simp only [get, hk, dite_true, h]

theorem get_of_ge {T : Tree F W (n + 1)} {k : Nat} (hk : ¬ k / span F n < F) :
    get c (n + 1) T k = none := by
  simp only [get, hk, dite_false]

theorem get_setRange_of_notMem (hF : 0 < F) {T : Tree F W n} {a b k : Nat} {f : Nat → W}
    (h : ¬ (a ≤ k ∧ k < b)) : get c n (setRange n T a b f) k = get c n T k := by
  induction n generalizing a b k f with
  | zero =>
    simp only [get, setRange, h, if_false]
  | succ n ih =>
    have hw := span_pos hF n
    by_cases hk : k / span F n < F
    · cases hT : T ⟨k / span F n, hk⟩ with
      | absent w => rw [get_of_absent c hk hT, get_of_absent c hk (setRange_absent hT a b f)]
      | table w t =>
        rw [get_of_table c hk hT, get_of_table c hk (setRange_table hT a b f)]
        apply ih
        rw [lower_le_mod hw, mod_lt_upper hw]
        exact h
    · rw [get_of_ge c hk, get_of_ge c hk]

theorem get_setRange_of_mem (hF : 0 < F) {T : Tree F W n} {a b k : Nat} {f : Nat → W}
    (hc : Covered n T k) (ha : a ≤ k) (hb : k < b) :
    get c n (setRange n T a b f) k = if c.present (f k) then some (f k) else none := by
  induction n generalizing a b k f with
  | zero =>
    have hk : k < F := hc
    simp only [get, setRange, hk, dite_true, ha, hb, and_self, if_true]
  | succ n ih =>
    have hw := span_pos hF n
    obtain ⟨hk, w, t, hT, ht⟩ := hc
    rw [get_of_table c hk (setRange_table hT a b f),
      ih ht ((lower_le_mod hw).mpr ha) ((mod_lt_upper hw).mpr hb)]
    simp only [Nat.div_add_mod' k (span F n)]

theorem covered_of_get {T : Tree F W n} {k : Nat} {w : W} (h : get c n T k = some w) :
    Covered n T k := by
  induction n generalizing k with
  | zero =>
    unfold get at h
    split at h
    · rename_i hk
      exact hk
    · contradiction
  | succ n ih =>
    by_cases hk : k / span F n < F
    · cases hT : T ⟨k / span F n, hk⟩ with
      | absent v =>
        rw [get_of_absent c hk hT] at h
        contradiction
      | table v t =>
        rw [get_of_table c hk hT] at h
        exact ⟨hk, v, t, hT, ih h⟩
    · rw [get_of_ge c hk] at h
      contradiction

end Get

theorem covered_setRange {T : Tree F W n} {a b k : Nat} {f : Nat → W} :
    Covered n (setRange n T a b f) k ↔ Covered n T k := by
  induction n generalizing a b k f with
  | zero => rfl
  | succ n ih =>
    simp only [Covered]
    constructor
    · intro ⟨hk, w, t, hT, ht⟩
      cases hS : T ⟨k / span F n, hk⟩ with
      | absent v =>
        rw [setRange_absent hS] at hT
        contradiction
      | table v s =>
        rw [setRange_table hS, Slot.table.injEq] at hT
        obtain ⟨rfl, rfl⟩ := hT
        exact ⟨hk, v, s, hS, ih.mp ht⟩
    · intro ⟨hk, w, t, hT, ht⟩
      exact ⟨hk, w, _, setRange_table hT a b f, ih.mpr ht⟩

theorem setRange_eq_self {T : Tree F W n} {a b : Nat} {f : Nat → W}
    (h : ∀ k < span F n, ¬ (a ≤ k ∧ k < b)) : setRange n T a b f = T := by
  induction n generalizing a b f with
  | zero =>
    funext i
    exact if_neg (h i.val i.isLt)
  | succ n ih =>
    funext i
    cases hT : T i with
    | absent w => exact setRange_absent hT a b f
    | table w t =>
      rw [setRange_table hT, ih]
      intro r hr
      rw [lower_le, lt_upper hr]
      apply h
      have hle : (i.val + 1) * span F n ≤ F * span F n := Nat.mul_le_mul_right _ i.isLt
      rw [Nat.add_one_mul] at hle
      change _ < F * span F n
      omega

theorem setRange_of_not_meets {T : Tree F W (n + 1)} {a b : Nat} {f : Nat → W} {i : Fin F}
    (h : ¬ Meets a b (span F n) i) : (setRange (n + 1) T a b f) i = T i := by
  cases hT : T i with
  | absent w => exact setRange_absent hT a b f
  | table w t =>
    rw [setRange_table hT, setRange_eq_self]
    intro r hr
    exact not_meets h hr

theorem setRange_setRange {T : Tree F W n} {a b : Nat} {f g : Nat → W} :
    setRange n (setRange n T a b f) a b g = setRange n T a b g := by
  induction n generalizing a b f g with
  | zero =>
    funext i
    simp only [setRange]
    split <;> rfl
  | succ n ih =>
    funext i
    cases hT : T i with
    | absent w => rw [setRange_absent hT, setRange_absent (setRange_absent hT a b f)]
    | table w t => rw [setRange_table hT, setRange_table (setRange_table hT a b f), ih]

theorem pages_setRange [DecidableEq P] {T : Tree F W n} {a b : Nat} {f : Nat → W} :
    pages c n (setRange n T a b f) = pages c n T := by
  induction n generalizing a b f with
  | zero => rw [pages_zero, pages_zero]
  | succ n ih =>
    ext p
    rw [mem_pages, mem_pages]
    apply exists_congr
    intro i
    cases hT : T i with
    | absent w => rw [setRange_absent hT]
    | table w t => rw [setRange_table hT, slotPages_of_table, slotPages_of_table, ih]

theorem table_of_covered (hF : 0 < F) {T : Tree F W (n + 1)} {a b : Nat} (hab : a < b)
    (h : ∀ k, a ≤ k → k < b → Covered (n + 1) T k) {i : Fin F} (hm : Meets a b (span F n) i) :
    ∃ w t, T i = .table w t ∧
      ∀ k, lower a (span F n) i ≤ k → k < upper b (span F n) i → Covered n t k := by
  have hw := span_pos hF n
  have hcov : ∀ k, lower a (span F n) i ≤ k → k < upper b (span F n) i →
      ∃ w t, T i = .table w t ∧ Covered n t k := by
    intro k hl hu
    have hk : k < span F n := Nat.lt_of_lt_of_le hu (upper_le _ _ _)
    have hdiv : (i.val * span F n + k) / span F n = i.val := by
      rw [Nat.mul_comm, Nat.mul_add_div hw, Nat.div_eq_of_lt hk, Nat.add_zero]
    have hmod : (i.val * span F n + k) % span F n = k := by
      rw [Nat.mul_comm, Nat.mul_add_mod, Nat.mod_eq_of_lt hk]
    obtain ⟨hlt, w, t, hT, ht⟩ := h (i.val * span F n + k) (lower_le.mp hl) ((lt_upper hk).mp hu)
    have hi : (⟨_, hlt⟩ : Fin F) = i := Fin.ext hdiv
    rw [hi] at hT
    rw [hmod] at ht
    exact ⟨w, t, hT, ht⟩
  obtain ⟨w, t, hT, -⟩ := hcov _ (Nat.le_refl _) (hm.lower_lt_upper hw hab)
  refine ⟨w, t, hT, ?_⟩
  intro k hl hu
  obtain ⟨w', t', hT', ht⟩ := hcov k hl hu
  rw [hT, Slot.table.injEq] at hT'
  obtain ⟨-, rfl⟩ := hT'
  exact ht

def AllTables (q : W → Prop) : (n : Nat) → Tree F W n → Prop
  | 0, _ => True
  | n + 1, T => ∀ i w t, T i = .table w t → q w ∧ AllTables q n t

theorem AllTables.setRange {q : W → Prop} {T : Tree F W n} (h : AllTables q n T) (a b : Nat)
    (f : Nat → W) : AllTables q n (setRange n T a b f) := by
  induction n generalizing a b f with
  | zero => trivial
  | succ n ih =>
    intro i w t ht
    cases hT : T i with
    | absent v =>
      rw [setRange_absent hT] at ht
      contradiction
    | table v s =>
      rw [setRange_table hT, Slot.table.injEq] at ht
      obtain ⟨rfl, rfl⟩ := ht
      obtain ⟨hv, hs⟩ := h i v s hT
      exact ⟨hv, ih hs _ _ _⟩

def Empty : (n : Nat) → Tree F W n → Prop
  | 0, T => ∀ i, c.present (T i) = false
  | _ + 1, T => ∀ i, ∃ w, T i = .absent w

/-- Every table below the first one has an entry. -/
def NoEmpty : (n : Nat) → Tree F W n → Prop
  | 0, _ => True
  | n + 1, T => ∀ i w t, T i = .table w t → ¬ Empty c n t ∧ NoEmpty n t

theorem get_empty {T : Tree F W n} (h : Empty c n T) (k : Nat) : get c n T k = none := by
  cases n with
  | zero =>
    unfold get
    split
    · rw [h, if_neg Bool.false_ne_true]
    · rfl
  | succ n =>
    by_cases hk : k / span F n < F
    · obtain ⟨w, hw⟩ := h ⟨k / span F n, hk⟩
      exact get_of_absent c hk hw
    · exact get_of_ge c hk

theorem not_empty_of_get {T : Tree F W n} {k : Nat} {w : W} (h : get c n T k = some w) :
    ¬ Empty c n T := by
  intro he
  rw [get_empty c he k] at h
  contradiction

def blank (zero : W) : (n : Nat) → Tree F W n
  | 0 => fun _ => zero
  | _ + 1 => fun _ => .absent zero

section Blank

variable {zero : W}

theorem empty_blank (hz : c.present zero = false) : Empty c n (blank zero n : Tree F W n) := by
  cases n with
  | zero => exact fun _ => hz
  | succ n => exact fun _ => ⟨zero, rfl⟩

theorem not_covered_blank (k : Nat) :
    ¬ Covered (n + 1) (blank zero (n + 1) : Tree F W (n + 1)) k := by
  intro ⟨_, w, t, ht, _⟩
  contradiction

theorem noEmpty_blank : NoEmpty c n (blank zero n : Tree F W n) := by
  cases n with
  | zero => trivial
  | succ n =>
    intro i w t ht
    contradiction

theorem allTables_blank {q : W → Prop} : AllTables q n (blank zero n : Tree F W n) := by
  cases n with
  | zero => trivial
  | succ n =>
    intro i w t ht
    contradiction

theorem pages_empty [DecidableEq P] {T : Tree F W n} (h : Empty c n T) : pages c n T = ∅ := by
  cases n with
  | zero => exact pages_zero c T
  | succ n =>
    apply Finset.eq_empty_of_forall_notMem
    intro p hp
    obtain ⟨i, hi⟩ := (mem_pages c).mp hp
    obtain ⟨w, hw⟩ := h i
    rw [hw] at hi
    exact absurd hi (Finset.notMem_empty p)

theorem pages_blank [DecidableEq P] (hz : c.present zero = false) :
    pages c n (blank zero n : Tree F W n) = ∅ := pages_empty c (empty_blank c hz)

theorem separated_blank [DecidableEq P] : Separated c n (blank zero n : Tree F W n) := by
  cases n with
  | zero => trivial
  | succ n =>
    refine ⟨?_, fun i j _ => Finset.disjoint_empty_left _⟩
    intro i w t ht
    contradiction

theorem read_blank (hz : c.present zero = false) {mem : P → Fin F → W} {t : P}
    (h : mem t = fun _ => zero) : read c mem n t = blank zero n := by
  cases n with
  | zero => exact h
  | succ n =>
    funext i
    rw [read_succ, h]
    exact readSlot_absent c hz

end Blank

end RadixTree
