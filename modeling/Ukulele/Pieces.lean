import Mathlib

/-! Two lists made of pieces, one for each member of a third list. If no piece of the first is
smaller than that of the second, the lists can only be equal piece by piece.
-/

set_option autoImplicit false

namespace Pieces

variable {ι α : Type} {f g : ι → List α} {l : List ι}

/-- A size of lists that is the sum of the sizes of the parts. -/
structure Additive (size : List α → Nat) : Prop where
  nil : size [] = 0
  append : ∀ x y, size (x ++ y) = size x + size y

variable {size : List α → Nat}

theorem Additive.length : Additive (List.length : List α → Nat) :=
  ⟨rfl, fun _ _ => List.length_append⟩

theorem Additive.count [DecidableEq α] (a : α) : Additive (List.count a) :=
  ⟨rfl, fun _ _ => List.count_append⟩

theorem Additive.le (hsize : Additive size) (h : ∀ i ∈ l, size (g i) ≤ size (f i)) :
    size (l.flatMap g) ≤ size (l.flatMap f) := by
  induction l with
  | nil => simp
  | cons i l ih =>
    have hhead := h i (by simp)
    have hrest := ih fun j hj => h j (List.mem_cons_of_mem i hj)
    simp only [List.flatMap_cons, hsize.append]
    omega

theorem Additive.le_flatMap (hsize : Additive size) {i : ι} (hi : i ∈ l) :
    size (f i) ≤ size (l.flatMap f) := by
  induction l with
  | nil => simp at hi
  | cons j l ih =>
    simp only [List.flatMap_cons, hsize.append]
    rcases List.mem_cons.mp hi with rfl | hi
    · omega
    · have hrest := ih hi
      omega

theorem Additive.eq_of_le (hsize : Additive size) (h : ∀ i ∈ l, size (g i) ≤ size (f i))
    (he : size (l.flatMap f) = size (l.flatMap g)) : ∀ i ∈ l, size (f i) = size (g i) := by
  induction l with
  | nil => simp
  | cons i l ih =>
    have hhead := h i (by simp)
    have hrest : ∀ j ∈ l, size (g j) ≤ size (f j) := fun j hj => h j (List.mem_cons_of_mem i hj)
    have hle := hsize.le hrest
    simp only [List.flatMap_cons, hsize.append] at he
    intro j hj
    rcases List.mem_cons.mp hj with rfl | hj
    · omega
    · exact ih hrest (by omega) j hj

theorem eq_of_lengths (hlen : ∀ i ∈ l, (f i).length = (g i).length)
    (he : l.flatMap f = l.flatMap g) : ∀ i ∈ l, f i = g i := by
  induction l with
  | nil => simp
  | cons i l ih =>
    simp only [List.flatMap_cons] at he
    obtain ⟨hhead, hrest⟩ := List.append_inj he (hlen i (by simp))
    intro j hj
    rcases List.mem_cons.mp hj with rfl | hj
    · exact hhead
    · exact ih (fun k hk => hlen k (List.mem_cons_of_mem i hk)) hrest j hj

end Pieces
