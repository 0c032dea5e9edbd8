import Mathlib

/-! Radix trees of tables in a paged memory. A table of level 0 holds leaf entries; an entry
of a higher table is absent or names a table one level down. Keys count the leaves below a
table from its start.
-/

set_option autoImplicit false

namespace RadixTree

/-- How an entry word says that a table is there, and where. -/
structure Coding (W P : Type) where
  present : W → Bool
  addr : W → P

inductive Slot (W T : Type) where
  | absent : W → Slot W T
  | table : W → T → Slot W T

@[reducible] def Tree (F : Nat) (W : Type) : Nat → Type
  | 0 => Fin F → W
  | n + 1 => Fin F → Slot W (Tree F W n)

/-- How many keys lie below a table of a level. -/
def span (F : Nat) : Nat → Nat
  | 0 => F
  | n + 1 => F * span F n

/-- How many keys lie behind one entry. -/
def width (F : Nat) : Nat → Nat
  | 0 => 1
  | n + 1 => span F n

theorem span_pos {F : Nat} (hF : 0 < F) (n : Nat) : 0 < span F n := by
  induction n with
  | zero => exact hF
  | succ n ih => exact Nat.mul_pos hF ih

def Meets (a b w i : Nat) : Prop := i * w < b ∧ a < (i + 1) * w

instance (a b w i : Nat) : Decidable (Meets a b w i) := inferInstanceAs (Decidable (_ ∧ _))

def lower (a w i : Nat) : Nat := a - i * w
def upper (b w i : Nat) : Nat := min (b - i * w) w

theorem lower_le_mod {a k w : Nat} (hw : 0 < w) : lower a w (k / w) ≤ k % w ↔ a ≤ k := by
  have hk := Nat.div_add_mod' k w
  have hm := Nat.mod_lt k hw
  unfold lower
  omega

theorem mod_lt_upper {b k w : Nat} (hw : 0 < w) : k % w < upper b w (k / w) ↔ k < b := by
  have hk := Nat.div_add_mod' k w
  have hm := Nat.mod_lt k hw
  unfold upper
  omega

theorem meets_div {a b k w : Nat} (hw : 0 < w) (ha : a ≤ k) (hb : k < b) :
    Meets a b w (k / w) := by
  have hk := Nat.div_add_mod' k w
  have hm := Nat.mod_lt k hw
  have hs := Nat.add_one_mul (k / w) w
  unfold Meets
  omega

theorem Meets.lower_lt_upper {a b w i : Nat} (h : Meets a b w i) (hw : 0 < w) (hab : a < b) :
    lower a w i < upper b w i := by
  have hs := Nat.add_one_mul i w
  unfold Meets at h
  unfold lower upper
  omega

theorem upper_le (b w i : Nat) : upper b w i ≤ w := Nat.min_le_right _ _

theorem not_meets {a b w i r : Nat} (h : ¬ Meets a b w i) (hr : r < w) :
    ¬ (lower a w i ≤ r ∧ r < upper b w i) := by
  have hs := Nat.add_one_mul i w
  unfold Meets at h
  unfold lower upper
  omega

theorem meets_iff {a b w i : Nat} (hw : 0 < w) :
    Meets a b w i ↔ a / w ≤ i ∧ i < (b + w - 1) / w := by
  have hs := Nat.add_one_mul i w
  have hlo : a / w < i + 1 ↔ a < (i + 1) * w := Nat.div_lt_iff_lt_mul hw
  have hhi : i + 1 ≤ (b + w - 1) / w ↔ (i + 1) * w ≤ b + w - 1 := Nat.le_div_iff_mul_le hw
  unfold Meets
  omega

theorem span_eq_mul_width (F n : Nat) : span F n = F * width F n := by
  cases n with
  | zero => exact (Nat.mul_one F).symm
  | succ n => rfl

theorem Meets.lt_fanout {F n a b i : Nat} (h : Meets a b (width F n) i) (hb : b ≤ span F n) :
    i < F := by
  rw [span_eq_mul_width] at hb
  exact Nat.lt_of_mul_lt_mul_right (Nat.lt_of_lt_of_le h.1 hb)

theorem div_lt_of_lt_span {F n k : Nat} (h : k < span F (n + 1)) : k / span F n < F := by
  apply Nat.div_lt_of_lt_mul
  rw [Nat.mul_comm]
  exact h

variable {F : Nat} {W P : Type} {n : Nat}

section Reading

variable (c : Coding W P)

def read (mem : P → Fin F → W) : (n : Nat) → P → Tree F W n
  | 0, t => mem t
  | n + 1, t => fun i =>
    if c.present (mem t i) then .table (mem t i) (read mem n (c.addr (mem t i)))
    else .absent (mem t i)

def readSlot (mem : P → Fin F → W) (n : Nat) (w : W) : Slot W (Tree F W n) :=
  if c.present w then .table w (read c mem n (c.addr w)) else .absent w

theorem read_succ (mem : P → Fin F → W) (t : P) (i : Fin F) :
    (read c mem (n + 1) t) i = readSlot c mem n (mem t i) := rfl

theorem read_table {mem : P → Fin F → W} {t : P} {i : Fin F} {w : W} {T : Tree F W n}
    (h : (read c mem (n + 1) t) i = .table w T) :
    mem t i = w ∧ c.present w = true ∧ read c mem n (c.addr w) = T := by
  rw [read_succ, readSlot] at h
  split at h
  · rename_i hp
    rw [Slot.table.injEq] at h
    obtain ⟨rfl, rfl⟩ := h
    exact ⟨rfl, hp, rfl⟩
  · contradiction

theorem read_absent {mem : P → Fin F → W} {t : P} {i : Fin F} {w : W}
    (h : (read c mem (n + 1) t) i = .absent w) : mem t i = w ∧ c.present w = false := by
  rw [read_succ, readSlot] at h
  split at h
  · contradiction
  · rename_i hp
    rw [Slot.absent.injEq] at h
    subst h
    exact ⟨rfl, by simpa using hp⟩

theorem readSlot_table {mem : P → Fin F → W} {w : W} {T : Tree F W n}
    (hp : c.present w = true) (h : read c mem n (c.addr w) = T) :
    readSlot c mem n w = .table w T := by
  rw [readSlot, if_pos hp, h]

theorem readSlot_absent {mem : P → Fin F → W} {w : W} (hp : c.present w = false) :
    readSlot c mem n w = .absent w := by
  rw [readSlot, hp, if_neg Bool.false_ne_true]

def get : (n : Nat) → Tree F W n → Nat → Option W
  | 0, T, k => if h : k < F then (if c.present (T ⟨k, h⟩) then some (T ⟨k, h⟩) else none) else none
  | n + 1, T, k =>
    if h : k / span F n < F then
      match T ⟨k / span F n, h⟩ with
      | .absent _ => none
      | .table _ t => get n t (k % span F n)
    else none

variable [DecidableEq P]

def slotPages {T : Type} (f : T → Finset P) : Slot W T → Finset P
  | .absent _ => ∅
  | .table w t => insert (c.addr w) (f t)

@[simp] theorem slotPages_absent {T : Type} (f : T → Finset P) (w : W) :
    slotPages c f (.absent w) = ∅ := rfl

@[simp] theorem slotPages_of_table {T : Type} (f : T → Finset P) (w : W) (t : T) :
    slotPages c f (.table w t) = insert (c.addr w) (f t) := rfl

def pages : (n : Nat) → Tree F W n → Finset P
  | 0, _ => ∅
  | n + 1, T => Finset.univ.biUnion (fun i => slotPages c (pages n) (T i))

def Separated : (n : Nat) → Tree F W n → Prop
  | 0, _ => True
  | n + 1, T =>
    (∀ i w t, T i = .table w t → c.addr w ∉ pages c n t ∧ Separated n t) ∧
    ∀ i j, i ≠ j → Disjoint (slotPages c (pages c n) (T i)) (slotPages c (pages c n) (T j))

theorem mem_pages {T : Tree F W (n + 1)} {p : P} :
    p ∈ pages c (n + 1) T ↔ ∃ i, p ∈ slotPages c (pages c n) (T i) := by
  simp [pages]

@[simp] theorem pages_zero (T : Tree F W 0) : pages c 0 T = ∅ := rfl

-- a large table makes the union expensive to unfold
attribute [irreducible] pages

theorem slotPages_subset (T : Tree F W (n + 1)) (i : Fin F) :
    slotPages c (pages c n) (T i) ⊆ pages c (n + 1) T :=
  fun _ hp => (mem_pages c).mpr ⟨i, hp⟩

theorem read_congr {mem mem' : P → Fin F → W} {t : P}
    (h : ∀ p ∈ insert t (pages c n (read c mem n t)), mem' p = mem p) :
    read c mem' n t = read c mem n t := by
  induction n generalizing t with
  | zero => exact h t (Finset.mem_insert_self _ _)
  | succ n ih =>
    have ht : mem' t = mem t := h t (Finset.mem_insert_self _ _)
    funext i
    rw [read_succ, read_succ, ht]
    unfold readSlot
    split
    · rename_i hp
      rw [ih]
      intro p hin
      apply h p
      apply Finset.mem_insert_of_mem
      apply slotPages_subset c _ i
      rw [read_succ, readSlot, if_pos hp]
      exact hin
    · rfl

theorem mem_eq_of_read_eq {mem mem' : P → Fin F → W} {t : P} {T : Tree F W n}
    (h : read c mem n t = T) (h' : read c mem' n t = T) :
    ∀ p ∈ insert t (pages c n T), mem' p = mem p := by
  induction n generalizing t with
  | zero =>
    intro p hp
    rw [pages_zero] at hp
    obtain rfl : p = t := by simpa using hp
    exact Eq.trans h' h.symm
  | succ n ih =>
    intro p hp
    cases Finset.mem_insert.mp hp with
    | inl he =>
      subst he
      funext i
      cases hT : T i with
      | absent w =>
        rw [← h] at hT
        have hw := (read_absent c hT).1
        rw [h, ← h'] at hT
        exact (read_absent c hT).1.trans hw.symm
      | table w u =>
        rw [← h] at hT
        have hw := (read_table c hT).1
        rw [h, ← h'] at hT
        exact (read_table c hT).1.trans hw.symm
    | inr hin =>
      obtain ⟨i, hi⟩ := (mem_pages c).mp hin
      cases hT : T i with
      | absent w =>
        rw [hT] at hi
        exact absurd hi (Finset.notMem_empty p)
      | table w u =>
        rw [hT, slotPages_of_table] at hi
        rw [← h] at hT
        have hu := (read_table c hT).2.2
        rw [h, ← h'] at hT
        exact ih hu (read_table c hT).2.2 p hi

theorem readSlot_congr {mem mem' : P → Fin F → W} {w : W}
    (h : ∀ p ∈ slotPages c (pages c n) (readSlot c mem n w), mem' p = mem p) :
    readSlot c mem' n w = readSlot c mem n w := by
  unfold readSlot at h ⊢
  split
  · rename_i hp
    rw [if_pos hp] at h
    rw [read_congr c h]
  · rfl

end Reading

def Tree.set (T : Tree F W (n + 1)) (i : Fin F) (x : Slot W (Tree F W n)) : Tree F W (n + 1) :=
  fun j => if j = i then x else T j

@[simp] theorem Tree.set_self (T : Tree F W (n + 1)) (i : Fin F) (x : Slot W (Tree F W n)) :
    (T.set i x) i = x := if_pos rfl

theorem Tree.set_ne (T : Tree F W (n + 1)) {i j : Fin F} (h : j ≠ i)
    (x : Slot W (Tree F W n)) : (T.set i x) j = T j := if_neg h

@[simp] theorem Tree.set_set (T : Tree F W (n + 1)) (i : Fin F) (x y : Slot W (Tree F W n)) :
    (T.set i x).set i y = T.set i y := by
  funext j
  by_cases h : j = i
  · subst j
    simp
  · rw [Tree.set_ne _ h, Tree.set_ne _ h, Tree.set_ne _ h]

theorem Tree.set_eq (T : Tree F W (n + 1)) (i : Fin F) : T.set i (T i) = T := by
  funext j
  by_cases h : j = i
  · subst j
    simp
  · rw [Tree.set_ne _ h]

section Set

variable (c : Coding W P) [DecidableEq P]

theorem mem_pages_set {T : Tree F W (n + 1)} {i : Fin F} {x : Slot W (Tree F W n)} {p : P} :
    p ∈ pages c (n + 1) (T.set i x) ↔
      p ∈ slotPages c (pages c n) x ∨ ∃ j, j ≠ i ∧ p ∈ slotPages c (pages c n) (T j) := by
  rw [mem_pages]
  constructor
  · intro ⟨j, hj⟩
    by_cases h : j = i
    · subst j
      rw [Tree.set_self] at hj
      exact Or.inl hj
    · rw [Tree.set_ne _ h] at hj
      exact Or.inr ⟨j, h, hj⟩
  · intro h
    rcases h with hx | ⟨j, hj, hp⟩
    · exact ⟨i, by rwa [Tree.set_self]⟩
    · exact ⟨j, by rwa [Tree.set_ne _ hj]⟩

theorem Separated.slot_notMem {T : Tree F W (n + 1)} (h : Separated c (n + 1) T) {i j : Fin F}
    (hij : j ≠ i) {p : P} (hp : p ∈ slotPages c (pages c n) (T i)) :
    p ∉ slotPages c (pages c n) (T j) :=
  Finset.disjoint_left.mp (h.2 i j hij.symm) hp

theorem Separated.set {T : Tree F W (n + 1)} (h : Separated c (n + 1) T) {i : Fin F}
    {x : Slot W (Tree F W n)}
    (hx : ∀ w t, x = .table w t → c.addr w ∉ pages c n t ∧ Separated c n t)
    (hd : ∀ j, j ≠ i → Disjoint (slotPages c (pages c n) x) (slotPages c (pages c n) (T j))) :
    Separated c (n + 1) (T.set i x) := by
  constructor
  · intro j w t hj
    by_cases hji : j = i
    · subst j
      rw [Tree.set_self] at hj
      exact hx w t hj
    · rw [Tree.set_ne _ hji] at hj
      exact h.1 j w t hj
  · intro j k hjk
    by_cases hji : j = i
    · subst j
      rw [Tree.set_self, Tree.set_ne _ hjk.symm]
      exact hd k hjk.symm
    · rw [Tree.set_ne _ hji]
      by_cases hki : k = i
      · subst k
        rw [Tree.set_self]
        exact (hd j hji).symm
      · rw [Tree.set_ne _ hki]
        exact h.2 j k hjk

theorem read_set {mem mem' : P → Fin F → W} {t : P} {i : Fin F} {x : Slot W (Tree F W n)}
    (hx : readSlot c mem' n (mem' t i) = x) (hentry : ∀ j, j ≠ i → mem' t j = mem t j)
    (hother : ∀ j, j ≠ i → ∀ p ∈ slotPages c (pages c n) ((read c mem (n + 1) t) j),
      mem' p = mem p) :
    read c mem' (n + 1) t = (read c mem (n + 1) t).set i x := by
  funext j
  rw [read_succ]
  by_cases h : j = i
  · subst j
    rw [Tree.set_self, hx]
  · rw [Tree.set_ne _ h, hentry j h, read_succ]
    apply readSlot_congr
    intro p hp
    exact hother j h p hp

end Set

end RadixTree
