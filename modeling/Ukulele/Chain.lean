import Mathlib

/-! Singly linked lists in a heap: the nodes on the way from one pointer to another. -/

set_option autoImplicit false

namespace Chain

variable {α : Type}

/-- Following `next` from `head` visits the nodes of the list and arrives at `tail`. -/
def Seg (next : α → Option α) : Option α → List α → Option α → Prop
  | head, [], tail => head = tail
  | head, a :: l, tail => head = some a ∧ Seg next (next a) l tail

def headOr (l : List α) (tail : Option α) : Option α :=
  match l with
  | [] => tail
  | a :: _ => some a

@[simp] theorem headOr_cons (a : α) (l : List α) (tail : Option α) :
    headOr (a :: l) tail = some a := rfl

variable {next next' : α → Option α}

theorem Seg.head_eq {head tail : Option α} {l : List α} (h : Seg next head l tail) :
    head = headOr l tail := by
  cases l with
  | nil => exact h
  | cons a l => exact h.1

theorem seg_append {head tail : Option α} {l₁ l₂ : List α} :
    Seg next head (l₁ ++ l₂) tail ↔
      Seg next head l₁ (headOr l₂ tail) ∧ Seg next (headOr l₂ tail) l₂ tail := by
  induction l₁ generalizing head with
  | nil =>
    constructor
    · intro h
      have he := h.head_eq
      exact ⟨he, he ▸ h⟩
    · intro h
      simp only [Seg] at h
      rw [h.1]
      exact h.2
  | cons a l ih => simp only [List.cons_append, Seg, ih, and_assoc]

theorem Seg.congr {head tail : Option α} {l : List α} (h : Seg next head l tail)
    (he : ∀ a ∈ l, next' a = next a) : Seg next' head l tail := by
  induction l generalizing head with
  | nil => exact h
  | cons a l ih =>
    refine ⟨h.1, ?_⟩
    rw [he a List.mem_cons_self]
    exact ih h.2 (fun b hb => he b (List.mem_cons_of_mem _ hb))

theorem Seg.redirect {head tail tail' : Option α} {l : List α} {a : α}
    (h : Seg next head (l ++ [a]) tail) (hn : next' a = tail')
    (he : ∀ b ∈ l, next' b = next b) : Seg next' head (l ++ [a]) tail' := by
  rw [seg_append] at h ⊢
  refine ⟨?_, rfl, hn⟩
  simp only [headOr] at h ⊢
  exact h.1.congr he

/-- The nodes met in at most `fuel` steps from `head`. -/
def walk (next : α → Option α) : Nat → Option α → List α
  | 0, _ => []
  | _, none => []
  | fuel + 1, some a => a :: walk next fuel (next a)

theorem walk_eq {head : Option α} {l : List α} (h : Seg next head l none) {fuel : Nat}
    (hf : l.length ≤ fuel) : walk next fuel head = l := by
  induction l generalizing head fuel with
  | nil =>
    simp only [Seg] at h
    subst h
    cases fuel <;> rfl
  | cons a l ih =>
    obtain ⟨rfl, ht⟩ := h
    cases fuel with
    | zero => simp at hf
    | succ fuel =>
      rw [walk, ih ht (by simpa using hf)]

/-- A loop along the links that updates a value at each node; `none` when the fuel runs out. -/
def loop {β : Type} (next : α → Option α) (f : β → α → β) : Nat → Option α → β → Option β
  | 0, _, _ => none
  | _ + 1, none, b => some b
  | fuel + 1, some a, b => loop next f fuel (next a) (f b a)

theorem loop_eq {β : Type} {f : β → α → β} {head : Option α} {l : List α}
    (h : Seg next head l none) {fuel : Nat} (hf : l.length < fuel) (b : β) :
    loop next f fuel head b = some (l.foldl f b) := by
  induction l generalizing head fuel b with
  | nil =>
    simp only [Seg] at h
    subst h
    cases fuel with
    | zero => simp at hf
    | succ fuel => rfl
  | cons a l ih =>
    obtain ⟨rfl, ht⟩ := h
    cases fuel with
    | zero => simp at hf
    | succ fuel => exact ih ht (by simpa using hf) (f b a)

end Chain
