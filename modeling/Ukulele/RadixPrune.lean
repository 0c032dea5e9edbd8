import Ukulele.RadixOps

/-! Reserving the tables of a key range and pruning the empty ones again. -/

set_option autoImplicit false

namespace RadixTree

variable {F n : Nat} {W P : Type} (c : Coding W P) {zero : W} {fresh : W → Prop}

/-- The tables for the keys from `a` up to `b` are there in the second tree: those of the first
tree, and blank ones behind new entries. -/
def Reserved (zero : W) (fresh : W → Prop) :
    (n : Nat) → Nat → Nat → Tree F W n → Tree F W n → Prop
  | 0, _, _, T, T' => T' = T
  | n + 1, a, b, T, T' => ∀ i : Fin F,
    if Meets a b (span F n) i then
      ∃ w t t', T' i = .table w t' ∧
        Reserved zero fresh n (lower a (span F n) i) (upper b (span F n) i) t t' ∧
        (T i = .table w t ∨ (∃ v, T i = .absent v) ∧ fresh w ∧ t = blank zero n)
    else T' i = T i

section Reserved

variable {a b : Nat}

theorem Reserved.slot {T T' : Tree F W (n + 1)} (h : Reserved zero fresh (n + 1) a b T T')
    {i : Fin F} (hm : Meets a b (span F n) i) :
    ∃ w t t', T' i = .table w t' ∧
      Reserved zero fresh n (lower a (span F n) i) (upper b (span F n) i) t t' ∧
      (T i = .table w t ∨ (∃ v, T i = .absent v) ∧ fresh w ∧ t = blank zero n) := by
  have hi := h i
  rwa [if_pos hm] at hi

theorem Reserved.slot_eq {T T' : Tree F W (n + 1)} (h : Reserved zero fresh (n + 1) a b T T')
    {i : Fin F} (hm : ¬ Meets a b (span F n) i) : T' i = T i := by
  have hi := h i
  rwa [if_neg hm] at hi

theorem Reserved.get_eq (hz : c.present zero = false) {T T' : Tree F W n}
    (h : Reserved zero fresh n a b T T') (k : Nat) : get c n T' k = get c n T k := by
  induction n generalizing a b k with
  | zero => rw [show T' = T from h]
  | succ n ih =>
    by_cases hk : k / span F n < F
    · by_cases hm : Meets a b (span F n) (k / span F n)
      · obtain ⟨w, t, t', hT', hr, hT⟩ := h.slot (i := ⟨_, hk⟩) hm
        rw [get_of_table c hk hT', ih hr]
        rcases hT with hT | ⟨⟨v, hT⟩, -, rfl⟩
        · rw [get_of_table c hk hT]
        · rw [get_of_absent c hk hT, get_empty c (empty_blank c hz)]
      · have hT := h.slot_eq (i := ⟨_, hk⟩) hm
        cases hs : T ⟨_, hk⟩ with
        | absent w => rw [get_of_absent c hk hs, get_of_absent c hk (hT.trans hs)]
        | table w t => rw [get_of_table c hk hs, get_of_table c hk (hT.trans hs)]
    · rw [get_of_ge c hk, get_of_ge c hk]

theorem Reserved.covered (hF : 0 < F) {T T' : Tree F W n} (h : Reserved zero fresh n a b T T')
    {k : Nat} (ha : a ≤ k) (hb : k < b) (hk : k < span F n) : Covered n T' k := by
  induction n generalizing a b k with
  | zero => exact hk
  | succ n ih =>
    have hw := span_pos hF n
    have hi := div_lt_of_lt_span hk
    obtain ⟨w, t, t', hT', hr, -⟩ := h.slot (i := ⟨_, hi⟩) (meets_div hw ha hb)
    exact ⟨hi, w, t', hT', ih hr ((lower_le_mod hw).mpr ha) ((mod_lt_upper hw).mpr hb)
      (Nat.mod_lt k hw)⟩

theorem Reserved.allTables {q : W → Prop} (hq : ∀ w, fresh w → q w) {T T' : Tree F W n}
    (h : Reserved zero fresh n a b T T') (hT : AllTables q n T) : AllTables q n T' := by
  induction n generalizing a b with
  | zero => trivial
  | succ n ih =>
    intro i w t ht
    by_cases hm : Meets a b (span F n) i
    · obtain ⟨v, s, s', hT', hr, hs⟩ := h.slot hm
      rw [hT', Slot.table.injEq] at ht
      obtain ⟨rfl, rfl⟩ := ht
      rcases hs with hs | ⟨-, hf, rfl⟩
      · obtain ⟨h₁, h₂⟩ := hT i v s hs
        exact ⟨h₁, ih hr h₂⟩
      · exact ⟨hq v hf, ih hr allTables_blank⟩
    · rw [h.slot_eq hm] at ht
      exact hT i w t ht

theorem Reserved.pages_subset [DecidableEq P] {T T' : Tree F W n}
    (h : Reserved zero fresh n a b T T') : pages c n T ⊆ pages c n T' := by
  induction n generalizing a b with
  | zero =>
    rw [pages_zero]
    exact Finset.empty_subset _
  | succ n ih =>
    intro p hp
    obtain ⟨i, hi⟩ := (mem_pages c).mp hp
    apply (mem_pages c).mpr
    refine ⟨i, ?_⟩
    by_cases hm : Meets a b (span F n) i
    · obtain ⟨w, t, t', hT', hr, hT | ⟨⟨v, hT⟩, -⟩⟩ := h.slot hm
      · rw [hT] at hi
        rw [hT']
        exact Finset.insert_subset_insert _ (ih hr) hi
      · rw [hT] at hi
        exact absurd hi (Finset.notMem_empty p)
    · rwa [h.slot_eq hm]

theorem Reserved.noEmpty (hF : 0 < F) {T T' : Tree F W n} (h : Reserved zero fresh n a b T T')
    (hT : NoEmpty c n T) (hab : a < b) {f : Nat → W} (hf : ∀ k, c.present (f k) = true) :
    NoEmpty c n (setRange n T' a b f) := by
  induction n generalizing a b f with
  | zero => trivial
  | succ n ih =>
    have hw := span_pos hF n
    intro i w t ht
    by_cases hm : Meets a b (span F n) i
    · obtain ⟨v, s, s', hT', hr, hs⟩ := h.slot hm
      rw [setRange_table hT', Slot.table.injEq] at ht
      obtain ⟨rfl, rfl⟩ := ht
      have hlt := hm.lower_lt_upper hw hab
      have hold : NoEmpty c n s := by
        rcases hs with hs | ⟨-, -, rfl⟩
        · exact (hT i v s hs).2
        · exact noEmpty_blank c
      refine ⟨?_, ih hr hold hlt (fun k => hf _)⟩
      have hcov := hr.covered hF (Nat.le_refl _) hlt
        (Nat.lt_of_lt_of_le hlt (upper_le b (span F n) i))
      have hget := get_setRange_of_mem c hF hcov (Nat.le_refl _) hlt
        (f := fun k => f (i.val * span F n + k))
      rw [if_pos (hf _)] at hget
      exact not_empty_of_get c hget
    · rw [setRange_of_not_meets hm, h.slot_eq hm] at ht
      exact hT i w t ht

end Reserved

instance : (n : Nat) → (T : Tree F W n) → Decidable (Empty c n T)
  | 0, _ => inferInstanceAs (Decidable (∀ _, _))
  | n + 1, T =>
    have : DecidablePred (fun i : Fin F => ∃ w, T i = .absent w) := fun i =>
      match h : T i with
      | .absent w => .isTrue ⟨w, h⟩
      | .table _ _ => .isFalse (by simp [h])
    inferInstanceAs (Decidable (∀ i, ∃ w, T i = .absent w))

/-- The tables that a key of the range passes through and that are empty are removed, from
the lowest ones up. -/
def prune (zero : W) : (n : Nat) → Tree F W n → Nat → Nat → Tree F W n
  | 0, T, _, _ => T
  | n + 1, T, a, b => fun i =>
    if Meets a b (span F n) i then
      match T i with
      | .absent w => .absent w
      | .table w t =>
        let t' := prune zero n t (lower a (span F n) i) (upper b (span F n) i)
        if Empty c n t' then .absent zero else .table w t'
    else T i

section Prune

variable {a b : Nat}

theorem prune_not_meets {T : Tree F W (n + 1)} {i : Fin F} (hm : ¬ Meets a b (span F n) i) :
    (prune c zero (n + 1) T a b) i = T i := if_neg hm

theorem prune_absent {T : Tree F W (n + 1)} {i : Fin F} {w : W} (h : T i = .absent w) :
    (prune c zero (n + 1) T a b) i = .absent w := by
  simp only [prune, h, ite_self]

theorem prune_table {T : Tree F W (n + 1)} {i : Fin F} (hm : Meets a b (span F n) i) {w : W}
    {t : Tree F W n} (h : T i = .table w t) :
    (prune c zero (n + 1) T a b) i =
      if Empty c n (prune c zero n t (lower a (span F n) i) (upper b (span F n) i)) then
        .absent zero
      else .table w (prune c zero n t (lower a (span F n) i) (upper b (span F n) i)) := by
  simp only [prune, hm, if_true, h]

theorem get_prune {T : Tree F W n} (k : Nat) :
    get c n (prune c zero n T a b) k = get c n T k := by
  induction n generalizing a b k with
  | zero => rfl
  | succ n ih =>
    by_cases hk : k / span F n < F
    · cases hT : T ⟨_, hk⟩ with
      | absent w => rw [get_of_absent c hk hT, get_of_absent c hk (prune_absent c hT)]
      | table w t =>
        rw [get_of_table c hk hT]
        by_cases hm : Meets a b (span F n) (k / span F n)
        · have hp : (prune c zero (n + 1) T a b) ⟨_, hk⟩ = _ := prune_table c hm hT
          split at hp
          · rename_i he
            rw [get_of_absent c hk hp, ← ih, get_empty c he]
          · rw [get_of_table c hk hp, ih]
        · have hp : (prune c zero (n + 1) T a b) ⟨_, hk⟩ = T ⟨_, hk⟩ := prune_not_meets c hm
          rw [get_of_table c hk (hp.trans hT)]
    · rw [get_of_ge c hk, get_of_ge c hk]

theorem pages_prune [DecidableEq P] {T : Tree F W n} :
    pages c n (prune c zero n T a b) ⊆ pages c n T := by
  induction n generalizing a b with
  | zero => exact Finset.Subset.refl _
  | succ n ih =>
    intro p hp
    obtain ⟨i, hi⟩ := (mem_pages c).mp hp
    apply (mem_pages c).mpr
    refine ⟨i, ?_⟩
    cases hT : T i with
    | absent w =>
      rw [prune_absent c hT] at hi
      exact hi
    | table w t =>
      by_cases hm : Meets a b (span F n) i
      · rw [prune_table c hm hT] at hi
        split at hi
        · exact absurd hi (Finset.notMem_empty p)
        · exact Finset.insert_subset_insert _ ih hi
      · rwa [prune_not_meets c hm, hT] at hi

theorem slotPages_prune [DecidableEq P] {T : Tree F W (n + 1)} (i : Fin F) :
    slotPages c (pages c n) ((prune c zero (n + 1) T a b) i) ⊆ slotPages c (pages c n) (T i) := by
  cases hT : T i with
  | absent w => rw [prune_absent c hT]
  | table w t =>
    by_cases hm : Meets a b (span F n) i
    · rw [prune_table c hm hT]
      split
      · exact Finset.empty_subset _
      · exact Finset.insert_subset_insert _ (pages_prune c)
    · rw [prune_not_meets c hm, hT]

theorem Separated.notMem_prune [DecidableEq P] {T : Tree F W (n + 1)}
    (h : Separated c (n + 1) T) {i : Fin F} {p : P} (hp : p ∈ slotPages c (pages c n) (T i))
    (hgone : p ∉ slotPages c (pages c n) ((prune c zero (n + 1) T a b) i)) :
    p ∉ pages c (n + 1) (prune c zero (n + 1) T a b) := by
  intro hin
  obtain ⟨j, hj⟩ := (mem_pages c).mp hin
  by_cases hji : j = i
  · subst j
    exact hgone hj
  · exact h.slot_notMem c hji hp (slotPages_prune c j hj)

theorem AllTables.prune {q : W → Prop} {T : Tree F W n} (h : AllTables q n T) :
    AllTables q n (prune c zero n T a b) := by
  induction n generalizing a b with
  | zero => trivial
  | succ n ih =>
    intro i w t ht
    cases hT : T i with
    | absent v =>
      rw [prune_absent c hT] at ht
      contradiction
    | table v s =>
      by_cases hm : Meets a b (span F n) i
      · rw [prune_table c hm hT] at ht
        split at ht
        · contradiction
        · rw [Slot.table.injEq] at ht
          obtain ⟨rfl, rfl⟩ := ht
          exact ⟨(h i v s hT).1, ih (h i v s hT).2⟩
      · rw [prune_not_meets c hm] at ht
        exact h i w t ht

theorem NoEmpty.prune_setRange {T : Tree F W n} (h : NoEmpty c n T) (f : Nat → W) :
    NoEmpty c n (prune c zero n (setRange n T a b f) a b) := by
  induction n generalizing a b f with
  | zero => trivial
  | succ n ih =>
    intro i w t ht
    by_cases hm : Meets a b (span F n) i
    · cases hT : T i with
      | absent v =>
        rw [prune_absent c (setRange_absent hT a b f)] at ht
        contradiction
      | table v s =>
        rw [prune_table c hm (setRange_table hT a b f)] at ht
        split at ht
        · contradiction
        · rename_i he
          rw [Slot.table.injEq] at ht
          obtain ⟨rfl, rfl⟩ := ht
          exact ⟨he, ih (h i v s hT).2 _⟩
    · rw [prune_not_meets c hm, setRange_of_not_meets hm] at ht
      exact h i w t ht

end Prune

def Clean (zero : W) : (n : Nat) → Tree F W n → Prop
  | 0, T => ∀ i, c.present (T i) = false → T i = zero
  | n + 1, T => ∀ i, T i = .absent zero ∨ ∃ w t, T i = .table w t ∧ Clean zero n t

theorem clean_blank : Clean c zero n (blank zero n : Tree F W n) := by
  cases n with
  | zero => exact fun _ _ => rfl
  | succ n => exact fun _ => Or.inl rfl

theorem Clean.entry {mem : P → Fin F → W} {t : P}
    (h : Clean c zero (n + 1) (read c mem (n + 1) t)) (i : Fin F) :
    (c.present (mem t i) = false → mem t i = zero) ∧
      (c.present (mem t i) = true → Clean c zero n (read c mem n (c.addr (mem t i)))) := by
  rcases h i with ha | ⟨w, u, hu, hbelow⟩
  · obtain ⟨hw, hp⟩ := read_absent c ha
    refine ⟨fun _ => hw, fun ht => ?_⟩
    rw [hw, hp] at ht
    contradiction
  · obtain ⟨hw, hp, rfl⟩ := read_table c hu
    rw [hw]
    refine ⟨fun hf => ?_, fun _ => hbelow⟩
    rw [hp] at hf
    contradiction

/-- Reserving an unmapped range, clearing its leaf entries and pruning it gives the first tree
back. -/
theorem Reserved.prune_clear (hF : 0 < F) (hz : c.present zero = false) {T T' : Tree F W n}
    {a b : Nat} (h : Reserved zero fresh n a b T T') (hc : Clean c zero n T)
    (hn : NoEmpty c n T) (hu : ∀ k, a ≤ k → k < b → get c n T k = none) :
    prune c zero n (setRange n T' a b (fun _ => zero)) a b = T := by
  induction n generalizing a b with
  | zero =>
    obtain rfl : T' = T := h
    funext i
    change (if a ≤ i.val ∧ i.val < b then zero else T' i) = T' i
    split
    · rename_i hi
      have hg := hu i.val hi.1 hi.2
      simp only [get, i.isLt, dite_true] at hg
      split at hg
      · contradiction
      · rename_i hp
        exact (hc i (by simpa using hp)).symm
    · rfl
  | succ n ih =>
    have hw := span_pos hF n
    funext i
    by_cases hm : Meets a b (span F n) i
    · obtain ⟨w, t, t', hT', hr, hs⟩ := h.slot hm
      rw [prune_table c hm (setRange_table hT' a b _)]
      rcases hs with hs | ⟨⟨v, hv⟩, -, rfl⟩
      · obtain ⟨hne, hnt⟩ := hn i w t hs
        have hct : Clean c zero n t := by
          rcases hc i with ha | ⟨w', s, hs', hcs⟩
          · rw [hs] at ha
            contradiction
          · rw [hs, Slot.table.injEq] at hs'
            obtain ⟨rfl, rfl⟩ := hs'
            exact hcs
        have hut : ∀ k, lower a (span F n) i ≤ k → k < upper b (span F n) i →
            get c n t k = none := by
          intro k hl hup
          have hk : k < span F n := Nat.lt_of_lt_of_le hup (upper_le _ _ _)
          have hdiv : (i.val * span F n + k) / span F n = i.val := by
            rw [Nat.mul_comm, Nat.mul_add_div hw, Nat.div_eq_of_lt hk, Nat.add_zero]
          have hmod : (i.val * span F n + k) % span F n = k := by
            rw [Nat.mul_comm, Nat.mul_add_mod, Nat.mod_eq_of_lt hk]
          have hg := hu (i.val * span F n + k) (lower_le.mp hl) ((lt_upper hk).mp hup)
          have hlt : (i.val * span F n + k) / span F n < F := by
            rw [hdiv]
            exact i.isLt
          have hi : (⟨_, hlt⟩ : Fin F) = i := Fin.ext hdiv
          have hti : T ⟨_, hlt⟩ = .table w t := by rw [hi, hs]
          rw [get_of_table c hlt hti, hmod] at hg
          exact hg
        rw [ih hr hct hnt hut, if_neg hne, hs]
      · rw [ih hr (clean_blank c) (noEmpty_blank c) (fun k _ _ => get_empty c (empty_blank c hz) k),
          if_pos (empty_blank c hz)]
        rcases hc i with ha | ⟨w', s, hs', -⟩
        · exact ha.symm
        · rw [hv] at hs'
          contradiction
    · rw [prune_not_meets c hm, setRange_of_not_meets hm, h.slot_eq hm]

end RadixTree
