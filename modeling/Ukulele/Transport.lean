import Mathlib

/-! Computations that may fail, and changes of the state that they do not notice: what is computed
from the changed state is what is computed from the state, changed.
-/

set_option autoImplicit false

namespace Transport

variable {ε σ α β : Type} {φ : σ → σ} {ψ : α → α} {χ : β → β}

/-- The change `φ` of the state `s` comes out as the change `ψ` of the result. -/
def Carries (φ : σ → σ) (ψ : α → α) (f : σ → Except ε α) (s : σ) : Prop :=
  f (φ s) = (f s).map ψ

theorem Carries.of_ok {f : σ → Except ε α} {s : σ} {a : α} (h : f s = .ok a)
    (h' : f (φ s) = .ok (ψ a)) : Carries φ ψ f s := by
  rw [Carries, h, h']
  rfl

theorem Carries.of_error {f : σ → Except ε α} {s : σ} {e : ε} (h : f s = .error e)
    (h' : f (φ s) = .error e) : Carries φ ψ f s := by
  rw [Carries, h, h']
  rfl

theorem Carries.ok {f : σ → Except ε α} {s : σ} {a : α} (h : Carries φ ψ f s) (ha : f s = .ok a) :
    f (φ s) = .ok (ψ a) := by
  rw [Carries, ha] at h
  exact h

theorem Carries.error {f : σ → Except ε α} {s : σ} {e : ε} (h : Carries φ ψ f s)
    (he : f s = .error e) : f (φ s) = .error e := by
  rw [Carries, he] at h
  exact h

theorem Carries.bind {f : σ → Except ε α} {g : α → Except ε β} {s : σ} (h : Carries φ ψ f s)
    (hg : ∀ a, f s = .ok a → Carries ψ χ g a) : Carries φ χ (fun s => f s >>= g) s := by
  cases ha : f s with
  | error e =>
    apply Carries.of_error (e := e)
    · rw [ha]
      rfl
    · rw [h.error ha]
      rfl
  | ok a =>
    have hrun : (f (φ s) >>= g) = g (ψ a) := by
      rw [h.ok ha]
      rfl
    have hrun' : (f s >>= g) = g a := by
      rw [ha]
      rfl
    change (f (φ s) >>= g) = (f s >>= g).map χ
    rw [hrun, hrun']
    exact hg a ha

theorem Carries.exists_ok {f : σ → Except ε α} {s : σ} {b : α} (h : Carries φ ψ f s)
    (hb : f (φ s) = .ok b) : ∃ a, f s = .ok a ∧ b = ψ a := by
  cases ha : f s with
  | error e =>
    rw [h.error ha] at hb
    cases hb
  | ok a =>
    rw [h.ok ha] at hb
    cases hb
    exact ⟨a, rfl, rfl⟩

end Transport
