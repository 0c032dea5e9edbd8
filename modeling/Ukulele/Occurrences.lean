import Mathlib

/-! Where a pattern is found in a text. -/

set_option autoImplicit false

namespace Occurrences

variable {α : Type} {pattern text : List α} {a : α} {p : Nat}

def OccursAt (pattern text : List α) (p : Nat) : Prop :=
  p ≤ text.length ∧ pattern <+: text.drop p

def IsFirst (pattern text : List α) : Option Nat → Prop
  | none => ∀ p, ¬ OccursAt pattern text p
  | some p => OccursAt pattern text p ∧ ∀ q < p, ¬ OccursAt pattern text q

@[simp] theorem occursAt_zero : OccursAt pattern text 0 ↔ pattern <+: text := by
  simp [OccursAt]

@[simp] theorem occursAt_succ : OccursAt pattern (a :: text) (p + 1) ↔ OccursAt pattern text p := by
  simp [OccursAt]

theorem occursAt_nil (h : OccursAt pattern [] p) : pattern = [] := by
  simpa [OccursAt] using h.2

theorem exists_occursAt : (∃ p, OccursAt pattern text p) ↔ pattern <:+: text := by
  constructor
  · intro h
    obtain ⟨p, -, hp⟩ := h
    exact hp.isInfix.trans (List.drop_suffix p text).isInfix
  · intro h
    obtain ⟨before, after, rfl⟩ := h
    exact ⟨before.length, by simp, by simp⟩

theorem isSome_iff_infix {r : Option Nat} (h : IsFirst pattern text r) :
    r.isSome = true ↔ pattern <:+: text := by
  rw [← exists_occursAt]
  cases r with
  | none => simpa [IsFirst] using h
  | some p => exact ⟨fun _ => ⟨p, h.1⟩, fun _ => rfl⟩

theorem isFirst_of_prefix (h : pattern <+: text) : IsFirst pattern text (some 0) :=
  ⟨occursAt_zero.mpr h, fun q hq => absurd hq (Nat.not_lt_zero q)⟩

theorem isFirst_cons (h : ¬ pattern <+: a :: text) {r : Option Nat} :
    IsFirst pattern (a :: text) (r.map (· + 1)) ↔ IsFirst pattern text r := by
  cases r with
  | none =>
    constructor
    · intro hnone p hp
      exact hnone (p + 1) (occursAt_succ.mpr hp)
    · intro hnone p hp
      cases p with
      | zero => exact h (occursAt_zero.mp hp)
      | succ p => exact hnone p (occursAt_succ.mp hp)
  | some p =>
    constructor
    · intro hfirst
      refine ⟨occursAt_succ.mp hfirst.1, ?_⟩
      intro q hq hoccurs
      exact hfirst.2 (q + 1) (Nat.succ_lt_succ hq) (occursAt_succ.mpr hoccurs)
    · intro hfirst
      refine ⟨occursAt_succ.mpr hfirst.1, ?_⟩
      intro q hq hoccurs
      cases q with
      | zero => exact h (occursAt_zero.mp hoccurs)
      | succ q => exact hfirst.2 q (Nat.lt_of_succ_lt_succ hq) (occursAt_succ.mp hoccurs)

end Occurrences
