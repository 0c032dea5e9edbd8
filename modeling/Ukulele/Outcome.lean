import Mathlib

/-! Postconditions of computations that may fail: what holds of a result, and which failures
are admitted.
-/

set_option autoImplicit false

variable {ε α β : Type}

def Outcome (bad : ε → Prop) (post : α → Prop) : Except ε α → Prop
  | .ok a => post a
  | .error e => bad e

namespace Outcome

variable {bad : ε → Prop} {post : α → Prop}

theorem bind {r : Except ε α} {f : α → Except ε β} {post' : β → Prop} (h : Outcome bad post r)
    (hf : ∀ a, post a → Outcome bad post' (f a)) : Outcome bad post' (r >>= f) := by
  cases r with
  | ok a => exact hf a h
  | error e => exact h

theorem mono {r : Except ε α} {bad' : ε → Prop} {post' : α → Prop} (h : Outcome bad post r)
    (hb : ∀ e, bad e → bad' e) (hp : ∀ a, post a → post' a) : Outcome bad' post' r := by
  cases r with
  | ok a => exact hp a h
  | error e => exact hb e h

theorem of_eq {r : Except ε α} {a : α} (h : r = .ok a) (hp : post a) : Outcome bad post r := by
  subst h
  exact hp

theorem returns {r : Except ε α} (h : Outcome (fun _ => False) post r) :
    ∃ a, r = .ok a ∧ post a := by
  cases r with
  | ok a => exact ⟨a, rfl, h⟩
  | error e => exact absurd h id

theorem of_ok {r : Except ε α} {a : α} (h : Outcome bad post r) (hr : r = .ok a) : post a := by
  subst hr
  exact h

end Outcome
