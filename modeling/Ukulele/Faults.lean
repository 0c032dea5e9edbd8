import Mathlib

/-! Computations with a state that may fail: the errors that they raise, and two runs of the same
computation of which the first may be stopped by its environment.
-/

set_option autoImplicit false

namespace Faults

variable {ε σ α β : Type}

def finalState : EStateM.Result ε σ α → σ
  | .ok _ s => s
  | .error _ s => s

theorem bind_ok {m : EStateM ε σ α} {f : α → EStateM ε σ β} {s s' : σ} {a : α}
    (h : m s = .ok a s') : (m >>= f) s = f a s' := by
  change EStateM.bind m f s = _
  simp [EStateM.bind, h]

theorem bind_error {m : EStateM ε σ α} {f : α → EStateM ε σ β} {s s' : σ} {e : ε}
    (h : m s = .error e s') : (m >>= f) s = .error e s' := by
  change EStateM.bind m f s = _
  simp [EStateM.bind, h]

def Raises (errors : ε → Prop) (m : EStateM ε σ α) : Prop :=
  ∀ s e s', m s = .error e s' → errors e

def Fails (m : EStateM ε σ α) : Prop := ∀ s, ∃ e s', m s = .error e s'

variable {errors : ε → Prop} {m : EStateM ε σ α} {f : α → EStateM ε σ β}

theorem raises_pure (a : α) : Raises errors (pure a : EStateM ε σ α) := by
  intro s e s' h
  cases h

theorem raises_throw {e : ε} (h : errors e) : Raises errors (throw e : EStateM ε σ α) := by
  intro s e' s' he
  cases he
  exact h

theorem Raises.bind_of (hm : Raises errors m)
    (hf : ∀ s a s', m s = .ok a s' → Raises errors (f a)) : Raises errors (m >>= f) := by
  intro s e s' h
  cases hrun : m s with
  | ok a t =>
    rw [bind_ok hrun] at h
    exact hf s a t hrun t e s' h
  | error e' t =>
    rw [bind_error hrun] at h
    cases h
    exact hm s _ _ hrun

theorem Raises.bind (hm : Raises errors m) (hf : ∀ a, Raises errors (f a)) :
    Raises errors (m >>= f) :=
  hm.bind_of fun _ a _ _ => hf a

theorem Raises.bind_of_fails (hm : Raises errors m) (h : Fails m) : Raises errors (m >>= f) := by
  apply hm.bind_of
  intro s a s' hrun
  obtain ⟨e, t, hfail⟩ := h s
  rw [hfail] at hrun
  cases hrun

/-- The condition is kept, also when the computation fails. -/
def Preserves (P : σ → Prop) (m : EStateM ε σ α) : Prop := ∀ s, P s → P (finalState (m s))

section Preserves

variable {P : σ → Prop} {m : EStateM ε σ α} {f : α → EStateM ε σ β}

theorem preserves_pure (a : α) : Preserves P (pure a : EStateM ε σ α) := fun _ h => h

theorem preserves_throw (e : ε) : Preserves P (throw e : EStateM ε σ α) := fun _ h => h

theorem Preserves.bind (hm : Preserves P m) (hf : ∀ a, Preserves P (f a)) :
    Preserves P (m >>= f) := by
  intro s hs
  have hfirst := hm s hs
  cases hrun : m s with
  | ok a s' =>
    rw [hrun] at hfirst
    rw [bind_ok hrun]
    exact hf a s' hfirst
  | error e s' =>
    rw [hrun] at hfirst
    rw [bind_error hrun]
    exact hfirst

theorem Preserves.ite {p : Prop} [Decidable p] {m' : EStateM ε σ α} (hm : Preserves P m)
    (hm' : Preserves P m') : Preserves P (if p then m else m') := by
  split
  · exact hm
  · exact hm'

end Preserves

section Tracks

variable (R S : σ → σ → Prop) (stop : ε → Prop)

/-- Both runs do the same, or the first has been stopped while the second has gone on. -/
inductive InStep : EStateM.Result ε σ α → EStateM.Result ε σ α → Prop where
  | ok {a : α} {s t : σ} : R s t → InStep (.ok a s) (.ok a t)
  | error {e : ε} {s t : σ} : R s t → InStep (.error e s) (.error e t)
  | stopped {e : ε} {s : σ} {r : EStateM.Result ε σ α} : stop e → S s (finalState r) →
      InStep (.error e s) r

/-- Runs from states related by `R` are in step; states related by `S` stay so when the second run
goes on. -/
structure Tracks (m : EStateM ε σ α) : Prop where
  inStep : ∀ s t, R s t → InStep R S stop (m s) (m t)
  ahead : ∀ s t, S s t → S s (finalState (m t))

variable {R S stop}

theorem tracks_pure (a : α) : Tracks R S stop (pure a : EStateM ε σ α) :=
  ⟨fun _ _ h => .ok h, fun _ _ h => h⟩

theorem tracks_throw (e : ε) : Tracks R S stop (throw e : EStateM ε σ α) :=
  ⟨fun _ _ h => .error h, fun _ _ h => h⟩

theorem Tracks.bind_of (hm : Tracks R S stop m)
    (hf : ∀ s a s', m s = .ok a s' → Tracks R S stop (f a)) : Tracks R S stop (m >>= f) := by
  have hahead : ∀ s t, S s (finalState (m t)) → S s (finalState ((m >>= f) t)) := by
    intro s t h
    cases ht : m t with
    | ok a t' =>
      rw [ht] at h
      rw [bind_ok ht]
      exact (hf t a t' ht).ahead s t' h
    | error e t' =>
      rw [ht] at h
      rw [bind_error ht]
      exact h
  refine ⟨?_, fun s t h => hahead s t (hm.ahead s t h)⟩
  intro s t h
  have hstep := hm.inStep s t h
  generalize hs : m s = r, ht : m t = q at hstep
  cases hstep with
  | @ok a s' t' hR =>
    rw [bind_ok hs, bind_ok ht]
    exact (hf s a s' hs).inStep s' t' hR
  | error hR =>
    rw [bind_error hs, bind_error ht]
    exact .error hR
  | stopped he hS =>
    rw [bind_error hs]
    exact .stopped he (hahead _ t (by rwa [ht]))

theorem Tracks.bind (hm : Tracks R S stop m) (hf : ∀ a, Tracks R S stop (f a)) :
    Tracks R S stop (m >>= f) :=
  hm.bind_of fun _ a _ _ => hf a

theorem Tracks.bind_of_fails (hm : Tracks R S stop m) (h : Fails m) :
    Tracks R S stop (m >>= f) := by
  apply hm.bind_of
  intro s a s' hrun
  obtain ⟨e, t, hfail⟩ := h s
  rw [hfail] at hrun
  cases hrun

end Tracks

end Faults
