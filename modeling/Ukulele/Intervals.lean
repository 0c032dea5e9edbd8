import Mathlib

/-! Sorted lists of half-open intervals and the points they cover. -/

set_option autoImplicit false

namespace Intervals

variable {α : Type} [LinearOrder α]

/-- The intervals lie between `lo` and `hi`, each after the one before it. -/
def Sorted (hi : α) : α → List (α × α) → Prop
  | lo, [] => lo ≤ hi
  | lo, r :: l => lo ≤ r.1 ∧ r.1 ≤ r.2 ∧ Sorted hi r.2 l

def cover (l : List (α × α)) : Set α := {x | ∃ r ∈ l, r.1 ≤ x ∧ x < r.2}

@[simp] theorem cover_nil : cover ([] : List (α × α)) = ∅ := by
  ext x
  simp [cover]

theorem cover_cons (r : α × α) (l : List (α × α)) :
    cover (r :: l) = Set.Ico r.1 r.2 ∪ cover l := by
  ext x
  simp [cover]

instance (hi : α) : (lo : α) → (l : List (α × α)) → Decidable (Sorted hi lo l)
  | lo, [] => inferInstanceAs (Decidable (lo ≤ hi))
  | lo, r :: l =>
    have : Decidable (Sorted hi r.2 l) := instDecidableSorted hi r.2 l
    inferInstanceAs (Decidable (lo ≤ r.1 ∧ r.1 ≤ r.2 ∧ Sorted hi r.2 l))

theorem Sorted.le {hi lo : α} {l : List (α × α)} (h : Sorted hi lo l) : lo ≤ hi := by
  induction l generalizing lo with
  | nil => exact h
  | cons r l ih => exact h.1.trans (h.2.1.trans (ih h.2.2))

theorem Sorted.mono {hi lo lo' : α} {l : List (α × α)} (h : Sorted hi lo l) (hle : lo' ≤ lo) :
    Sorted hi lo' l := by
  cases l with
  | nil => exact hle.trans h
  | cons r l => exact ⟨hle.trans h.1, h.2⟩

theorem Sorted.lo_le {hi lo : α} {l : List (α × α)} (h : Sorted hi lo l) {r : α × α}
    (hr : r ∈ l) : lo ≤ r.1 ∧ r.1 ≤ r.2 ∧ r.2 ≤ hi := by
  induction l generalizing lo with
  | nil => contradiction
  | cons q l ih =>
    rcases List.mem_cons.mp hr with rfl | hr
    · exact ⟨h.1, h.2.1, h.2.2.le⟩
    · obtain ⟨h₁, h₂, h₃⟩ := ih h.2.2 hr
      exact ⟨h.1.trans (h.2.1.trans h₁), h₂, h₃⟩

theorem Sorted.cover_subset {hi lo : α} {l : List (α × α)} (h : Sorted hi lo l) {x : α}
    (hx : x ∈ cover l) : lo ≤ x ∧ x < hi := by
  obtain ⟨r, hr, hlo, hhi⟩ := hx
  obtain ⟨h₁, -, h₃⟩ := h.lo_le hr
  exact ⟨h₁.trans hlo, lt_of_lt_of_le hhi h₃⟩

end Intervals
