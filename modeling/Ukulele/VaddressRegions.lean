import Ukulele.Intervals

/-! The two list edits of the address space manager on plain intervals: what freeing and
allocating do to the list of used regions and to the addresses it covers.
-/

set_option autoImplicit false

namespace Ukulele
open Intervals

/-- One pass over the regions for the freed interval from `a` up to `e`. -/
def freeRegions (a e : Nat) : List (Nat × Nat) → List (Nat × Nat)
  | [] => []
  | r :: l =>
    if e < r.1 then r :: l
    else if r.2 < a then r :: freeRegions a e l
    else if a ≤ r.1 ∧ r.2 ≤ e then freeRegions a e l
    else if a ≤ r.1 then (r.1, e) :: freeRegions a e l
    else if r.2 ≤ e then (r.1, a) :: freeRegions a e l
    else (r.1, a) :: (e, r.2) :: freeRegions a e l

def freeRegion (a e : Nat) (r : Nat × Nat) : List (Nat × Nat) :=
  if r.2 < a then [r]
  else if a ≤ r.1 ∧ r.2 ≤ e then []
  else if a ≤ r.1 then [(r.1, e)]
  else if r.2 ≤ e then [(r.1, a)]
  else [(r.1, a), (e, r.2)]

theorem freeRegions_cons (a e : Nat) (r : Nat × Nat) (l : List (Nat × Nat)) :
    freeRegions a e (r :: l) =
      if e < r.1 then r :: l else freeRegion a e r ++ freeRegions a e l := by
  simp only [freeRegions, freeRegion]
  split_ifs <;> rfl

/-- The branch that shifts the start of a region is taken for this region. -/
def ShiftsStart (a e : Nat) (r : Nat × Nat) : Prop := a ≤ r.1 ∧ r.1 ≤ e ∧ e < r.2

instance (a e : Nat) (r : Nat × Nat) : Decidable (ShiftsStart a e r) :=
  inferInstanceAs (Decidable (_ ∧ _))

theorem freeRegions_sorted {a e : Nat} (hae : a ≤ e) {lo hi : Nat} {l : List (Nat × Nat)}
    (h : Sorted hi lo l) : Sorted hi lo (freeRegions a e l) := by
  induction l generalizing lo with
  | nil => exact h
  | cons r l ih =>
    obtain ⟨h₁, h₂, h₃⟩ := h
    have ht := ih h₃
    simp only [freeRegions]
    split
    · exact ⟨h₁, h₂, h₃⟩
    split
    · exact ⟨h₁, h₂, ht⟩
    split
    · exact ht.mono (by omega)
    split
    · exact ⟨h₁, by simp only; omega, ht.mono (by simp only; omega)⟩
    split
    · exact ⟨h₁, by simp only; omega, ht.mono (by simp only; omega)⟩
    · exact ⟨h₁, by simp only; omega, by simp only; omega, by simp only; omega, ht⟩

theorem cover_freeRegions_subset {a e : Nat} {lo hi : Nat} {l : List (Nat × Nat)}
    (h : Sorted hi lo l) : cover (freeRegions a e l) ⊆ cover l := by
  induction l generalizing lo with
  | nil => exact subset_rfl
  | cons r l ih =>
    have hpiece : ∀ A : Set Nat, A ⊆ Set.Ico r.1 r.2 →
        A ∪ cover (freeRegions a e l) ⊆ cover (r :: l) := by
      intro A hA
      rw [cover_cons]
      exact Set.union_subset_union hA (ih h.2.2)
    simp only [freeRegions]
    split
    · exact subset_rfl
    split
    · rw [cover_cons]
      exact hpiece _ subset_rfl
    split
    · rw [← Set.empty_union (cover _)]
      exact hpiece _ (Set.empty_subset _)
    split
    · rw [cover_cons]
      apply hpiece
      intro x hx
      simp only [Set.mem_Ico] at hx ⊢
      omega
    split
    · rw [cover_cons]
      apply hpiece
      intro x hx
      simp only [Set.mem_Ico] at hx ⊢
      omega
    · rw [cover_cons, cover_cons, ← Set.union_assoc]
      apply hpiece
      intro x hx
      simp only [Set.mem_union, Set.mem_Ico] at hx ⊢
      omega

theorem cover_freeRegions {a e : Nat} (hae : a ≤ e) {lo hi : Nat} {l : List (Nat × Nat)}
    (h : Sorted hi lo l) (hs : ∀ r ∈ l, ¬ ShiftsStart a e r) :
    cover (freeRegions a e l) = cover l \ Set.Ico a e := by
  induction l generalizing lo with
  | nil => simp [freeRegions]
  | cons r l ih =>
    have hno : ¬ ShiftsStart a e r := hs r List.mem_cons_self
    have ht := ih h.2.2 (fun q hq => hs q (List.mem_cons_of_mem _ hq))
    have hle := h.2.1
    have hpiece : ∀ A : Set Nat, A = Set.Ico r.1 r.2 \ Set.Ico a e →
        A ∪ cover (freeRegions a e l) = cover (r :: l) \ Set.Ico a e := by
      intro A hA
      rw [hA, ht, cover_cons, Set.union_sdiff_distrib]
    simp only [ShiftsStart] at hno
    simp only [freeRegions]
    split
    · -- the regions from here on lie behind the freed interval
      symm
      rw [sdiff_eq_left, Set.disjoint_left, cover_cons]
      intro x hx hfreed
      simp only [Set.mem_union, Set.mem_Ico] at hx hfreed
      rcases hx with hx | hx
      · omega
      · have hlater := (h.2.2.cover_subset hx).1
        omega
    split
    · rw [cover_cons]
      apply hpiece
      ext x
      simp only [Set.mem_sdiff, Set.mem_Ico]
      omega
    split
    · rename_i hin
      rw [← Set.empty_union (cover _)]
      apply hpiece
      exact (Set.sdiff_eq_empty.mpr (Set.Ico_subset_Ico hin.1 hin.2)).symm
    split
    · omega
    split
    · rw [cover_cons]
      apply hpiece
      ext x
      simp only [Set.mem_sdiff, Set.mem_Ico]
      omega
    · rw [cover_cons, cover_cons, ← Set.union_assoc]
      apply hpiece
      ext x
      simp only [Set.mem_union, Set.mem_sdiff, Set.mem_Ico]
      omega

/-- A region whose start is shifted keeps the wrong half: the address just after the freed
interval is lost. -/
theorem shiftsStart_loses {a e : Nat} {lo hi : Nat} {l : List (Nat × Nat)}
    (h : Sorted hi lo l) {r : Nat × Nat} (hr : r ∈ l) (hs : ShiftsStart a e r) :
    e ∈ cover l ∧ e ∉ cover (freeRegions a e l) := by
  refine ⟨⟨r, hr, hs.2.1, hs.2.2⟩, ?_⟩
  induction l generalizing lo with
  | nil => contradiction
  | cons q l ih =>
    have hsub : cover (freeRegions a e l) ⊆ cover l := cover_freeRegions_subset h.2.2
    obtain ⟨hs₁, hs₂, hs₃⟩ := hs
    simp only [freeRegions]
    rcases List.mem_cons.mp hr with rfl | hr
    · have hnot : e ∉ cover (freeRegions a e l) := by
        intro he
        have := (h.2.2.cover_subset (hsub he)).1
        omega
      rw [if_neg (by omega), if_neg (by omega), if_neg (by omega), if_pos hs₁, cover_cons]
      simp [hnot]
    · have hq := (h.2.2.lo_le hr).1
      have hle := h.2.1
      have hnot := ih h.2.2 hr
      rw [if_neg (by omega)]
      split
      · rw [cover_cons]
        simp only [Set.mem_union, hnot, or_false, Set.mem_Ico]
        omega
      split
      · exact hnot
      · rw [if_neg (by omega), if_pos (by omega), cover_cons]
        simp only [Set.mem_union, hnot, or_false, Set.mem_Ico]
        omega

theorem cover_freeRegions_iff {a e : Nat} (hae : a ≤ e) {lo hi : Nat} {l : List (Nat × Nat)}
    (h : Sorted hi lo l) :
    cover (freeRegions a e l) = cover l \ Set.Ico a e ↔ ∀ r ∈ l, ¬ ShiftsStart a e r := by
  constructor
  · intro heq r hr hs
    obtain ⟨hin, hout⟩ := shiftsStart_loses h hr hs
    rw [heq] at hout
    exact hout ⟨hin, by simp⟩
  · exact cover_freeRegions hae h

def nextStart (hi : Nat) : List (Nat × Nat) → Nat
  | [] => hi
  | r :: _ => r.1

def extendRegions (hi size : Nat) : List (Nat × Nat) → Option (Nat × List (Nat × Nat))
  | [] => none
  | r :: l =>
    if size ≤ nextStart hi l - r.2 then some (r.2, (r.1, r.2 + size) :: l)
    else (extendRegions hi size l).map (fun q => (q.1, r :: q.2))

/-- First fit over the gap before the first region and the gap after each region. -/
def allocateRegions (lo hi size : Nat) (l : List (Nat × Nat)) :
    Option (Nat × List (Nat × Nat)) :=
  if size ≤ nextStart hi l - lo then some (lo, (lo, lo + size) :: l)
  else extendRegions hi size l

theorem Sorted.le_nextStart {hi lo : Nat} {l : List (Nat × Nat)} (h : Sorted hi lo l) :
    lo ≤ nextStart hi l := by
  cases l with
  | nil => exact h
  | cons r l => exact h.1

theorem Sorted.after {hi lo lo' : Nat} {l : List (Nat × Nat)} (h : Sorted hi lo l)
    (hle : lo' ≤ nextStart hi l) : Sorted hi lo' l := by
  cases l with
  | nil => exact hle
  | cons r l => exact ⟨hle, h.2⟩

theorem Sorted.nextStart_le {hi lo : Nat} {l : List (Nat × Nat)} (h : Sorted hi lo l) {x : Nat}
    (hx : x ∈ cover l) : nextStart hi l ≤ x := by
  cases l with
  | nil => simp at hx
  | cons r l =>
    rw [cover_cons] at hx
    rcases hx with hx | hx
    · exact hx.1
    · exact h.2.1.trans (h.2.2.cover_subset hx).1

/-- What an allocation that succeeds with `p` does to the list. -/
structure Fits (lo hi size : Nat) (l : List (Nat × Nat)) (p : Nat) (l' : List (Nat × Nat)) :
    Prop where
  sorted : Sorted hi lo l'
  lower : lo ≤ p
  upper : p + size ≤ hi
  cover_eq : cover l' = cover l ∪ Set.Ico p (p + size)
  disjoint : Disjoint (Set.Ico p (p + size)) (cover l)

theorem extendRegions_fits {lo hi size : Nat} {l : List (Nat × Nat)} (h : Sorted hi lo l)
    {p : Nat} {l' : List (Nat × Nat)} (he : extendRegions hi size l = some (p, l')) :
    Fits lo hi size l p l' := by
  induction l generalizing lo l' with
  | nil => contradiction
  | cons r l ih =>
    obtain ⟨h₁, h₂, h₃⟩ := h
    have hn := Sorted.le_nextStart h₃
    simp only [extendRegions] at he
    split at he
    · rename_i hs
      cases he
      have hup : nextStart hi l ≤ hi := by
        cases l with
        | nil => exact Nat.le_refl _
        | cons q l => exact h₃.2.1.trans h₃.2.2.le
      refine ⟨⟨h₁, by simp only; omega, Sorted.after h₃ (by simp only; omega)⟩, by omega,
        by omega, ?_, ?_⟩
      · rw [cover_cons, cover_cons, ← Set.Ico_union_Ico_eq_Ico h₂ (Nat.le_add_right _ _),
          Set.union_right_comm]
      · rw [Set.disjoint_left]
        intro x hx hc
        rw [cover_cons] at hc
        rcases hc with hc | hc
        · simp only [Set.mem_Ico] at hx hc
          omega
        · have := Sorted.nextStart_le h₃ hc
          simp only [Set.mem_Ico] at hx
          omega
    · obtain ⟨q, hq, heq⟩ := Option.map_eq_some_iff.mp he
      cases heq
      have hf := ih h₃ hq
      refine ⟨⟨h₁, h₂, hf.sorted⟩, by have := hf.lower; omega, hf.upper, ?_, ?_⟩
      · rw [cover_cons, cover_cons, hf.cover_eq, Set.union_assoc]
      · rw [cover_cons, Set.disjoint_union_right]
        refine ⟨?_, hf.disjoint⟩
        rw [Set.disjoint_left]
        intro x hx hc
        have := hf.lower
        simp only [Set.mem_Ico] at hx hc
        omega

theorem allocateRegions_fits {lo hi size : Nat} {l : List (Nat × Nat)} (h : Sorted hi lo l)
    {p : Nat} {l' : List (Nat × Nat)} (he : allocateRegions lo hi size l = some (p, l')) :
    Fits lo hi size l p l' := by
  have hn := Sorted.le_nextStart h
  unfold allocateRegions at he
  split at he
  · cases he
    have hup : nextStart hi l ≤ hi := by
      cases l with
      | nil => exact Nat.le_refl _
      | cons q l => exact h.2.1.trans h.2.2.le
    refine ⟨⟨Nat.le_refl _, by simp only; omega, Sorted.after h (by simp only; omega)⟩,
      Nat.le_refl _, by omega, ?_, ?_⟩
    · rw [cover_cons, Set.union_comm]
    · rw [Set.disjoint_left]
      intro x hx hc
      have := Sorted.nextStart_le h hc
      simp only [Set.mem_Ico] at hx
      omega
  · exact extendRegions_fits h he

end Ukulele
