import Mathlib

/-! Programs on a state that is seen through views. Where the views are the parts of the state and
each program works on one of them alone, a run of such programs is, part by part, the run of those
that work on the part.
-/

set_option autoImplicit false

namespace Isolation

variable {ι σ α β : Type} {δ : ι → Type} {view : (i : ι) → σ → δ i} {i j : ι}

theorem run_bind (m : StateM σ α) (f : α → StateM σ β) (s : σ) :
    (m >>= f).run s = (f (m.run s).1).run (m.run s).2 := rfl

section View

variable {υ : Type} {see : σ → υ} {u u' u'' : υ}

/-- From any state seen as `u`, the program returns `a` and leaves a state seen as `u'`. -/
def Takes (see : σ → υ) (m : StateM σ α) (u : υ) (a : α) (u' : υ) : Prop :=
  ∀ s, see s = u → (m.run s).1 = a ∧ see (m.run s).2 = u'

theorem takes_pure (a : α) : Takes see (pure a) u a u := fun _ h => ⟨rfl, h⟩

theorem Takes.bind {m : StateM σ α} {f : α → StateM σ β} {a : α} {b : β}
    (hm : Takes see m u a u') (hf : Takes see (f a) u' b u'') : Takes see (m >>= f) u b u'' := by
  intro s hs
  obtain ⟨ha, hu⟩ := hm s hs
  simp only [run_bind, ha]
  exact hf (m.run s).2 hu

theorem Takes.congr {m : StateM σ α} {a : α} (h : Takes see m u a u') (hu : u' = u'') :
    Takes see m u a u'' := hu ▸ h

end View

/-- What the program returns and leaves in part `i` depends on that part alone, and the other parts
stay as they are. -/
structure WorksOn (view : (i : ι) → σ → δ i) (i : ι) (m : StateM σ α) : Prop where
  same : ∀ s t, view i s = view i t →
    (m.run s).1 = (m.run t).1 ∧ view i (m.run s).2 = view i (m.run t).2
  rest : ∀ s j, j ≠ i → view j (m.run s).2 = view j s

theorem worksOn_pure (a : α) : WorksOn view i (pure a : StateM σ α) := by
  constructor
  · intro s t h
    exact ⟨rfl, h⟩
  · intro s j hj
    rfl

theorem WorksOn.bind {m : StateM σ α} {f : α → StateM σ β} (hm : WorksOn view i m)
    (hf : ∀ a, WorksOn view i (f a)) : WorksOn view i (m >>= f) := by
  constructor
  · intro s t h
    have hfirst := hm.same s t h
    have hnext := (hf (m.run s).1).same (m.run s).2 (m.run t).2 hfirst.2
    simp only [run_bind, ← hfirst.1]
    exact hnext
  · intro s j hj
    simp only [run_bind]
    exact ((hf (m.run s).1).rest (m.run s).2 j hj).trans (hm.rest s j hj)

theorem WorksOn.map {m : StateM σ α} (hm : WorksOn view i m) (f : α → β) :
    WorksOn view i (f <$> m) := by
  have h : f <$> m = m >>= fun a => pure (f a) := by simp
  rw [h]
  exact hm.bind fun a => worksOn_pure (f a)

theorem WorksOn.ite {p : Prop} [Decidable p] {m m' : StateM σ α} (hm : WorksOn view i m)
    (hm' : WorksOn view i m') : WorksOn view i (if p then m else m') := by
  split
  · exact hm
  · exact hm'

def runAll : List (ι × StateM σ α) → StateM σ (List (ι × α))
  | [] => pure []
  | (i, m) :: ms => do
    let a ← m
    let rest ← runAll ms
    return (i, a) :: rest

variable {ms : List (ι × StateM σ α)}

@[simp] theorem runAll_nil (s : σ) : (runAll ([] : List (ι × StateM σ α))).run s = ([], s) := rfl

@[simp] theorem runAll_cons (m : StateM σ α) (s : σ) : (runAll ((i, m) :: ms)).run s =
    ((i, (m.run s).1) :: ((runAll ms).run (m.run s).2).1, ((runAll ms).run (m.run s).2).2) := rfl

theorem runAll_part [DecidableEq ι] (h : ∀ p ∈ ms, WorksOn view p.1 p.2) (i : ι) {s t : σ}
    (hst : view i s = view i t) :
    ((runAll ms).run s).1.filter (·.1 = i) = ((runAll (ms.filter (·.1 = i))).run t).1 ∧
      view i ((runAll ms).run s).2 = view i ((runAll (ms.filter (·.1 = i))).run t).2 := by
  induction ms generalizing s t with
  | nil => simp [hst]
  | cons p ms ih =>
    obtain ⟨j, m⟩ := p
    have hm := h (j, m) (by simp)
    have hrest := fun q hq => h q (List.mem_cons_of_mem (j, m) hq)
    by_cases hj : j = i
    · subst hj
      have hsame := hm.same s t hst
      have hnext := ih hrest hsame.2
      simp [hsame.1, hnext.1, hnext.2]
    · have hkeep := (hm.rest s i (Ne.symm hj)).trans hst
      have hnext := ih hrest hkeep
      simp [hj, hnext.1, hnext.2]

end Isolation
