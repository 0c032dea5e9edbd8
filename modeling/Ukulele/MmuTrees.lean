import Ukulele.MmuLocs
import Ukulele.RadixPrune
import Ukulele.PmmPages

/-! The page tables in memory as a radix tree, and what one step of a walk keeps: the tree is
the only reader of its tables, and tables move between the tree and the free pages.
-/

set_option autoImplicit false

namespace Ukulele
open RadixTree

def entryCoding : Coding (BitVec 64) Physical :=
  ⟨fun w => decide (w &&& mmuRegPresent ≠ 0#64), fun w => w &&& mmuRegPhysAddressMask⟩

abbrev PageTree (n : Nat) := Tree 512 (BitVec 64) n

def pageTree (s : Machine) (n : Nat) (t : Physical) : PageTree n := read entryCoding s.mem n t

abbrev tables {n : Nat} (T : PageTree n) : Finset Physical := pages entryCoding n T

abbrev slotTables {n : Nat} (x : Slot (BitVec 64) (PageTree n)) : Finset Physical :=
  slotPages entryCoding (pages entryCoding n) x

/-- The table at `t` heads the tree `T`. No table is reached twice, and none is free or a control
block. -/
structure TreeOk (s : Machine) (t : Physical) {n : Nat} (T : PageTree n) : Prop where
  read_eq : pageTree s n t = T
  separated : Separated entryCoding n T
  root : t ∉ tables T
  not_free : ∀ p ∈ insert t (tables T), p ∉ freePages s
  not_control : ∀ p ∈ insert t (tables T), p ∉ s.pmm.controlPages

/-- A step from the tree `T` to the tree `T'` below the same table. -/
structure TreeStep (s s' : Machine) (t : Physical) {n : Nat} (T T' : PageTree n) : Prop where
  tree : TreeOk s' t T'
  pmm : PmmOk s'
  managed_eq : s'.pmm.managedPages = s.pmm.managedPages
  control_eq : s'.pmm.controlPages = s.pmm.controlPages
  pool : freePages s' ∪ tables T' = freePages s ∪ tables T
  mem_eq : ∀ q, q ≠ t → q ∉ tables T → q ∉ tables T' → q ∉ s.pmm.controlPages →
    s'.mem q = s.mem q
  cr3_eq : s'.cr3 = s.cr3

theorem TreeStep.refl {s : Machine} {t : Physical} {n : Nat} {T : PageTree n}
    (h : TreeOk s t T) (hp : PmmOk s) : TreeStep s s t T T :=
  ⟨h, hp, rfl, rfl, rfl, fun _ _ _ _ _ => rfl, rfl⟩

theorem TreeStep.trans {s s₁ s₂ : Machine} {t : Physical} {n : Nat} {T T₁ T₂ : PageTree n}
    (h₁ : TreeStep s s₁ t T T₁) (h₂ : TreeStep s₁ s₂ t T₁ T₂)
    (hsub : tables T₁ ⊆ tables T ∪ tables T₂) : TreeStep s s₂ t T T₂ where
  tree := h₂.tree
  pmm := h₂.pmm
  managed_eq := h₂.managed_eq.trans h₁.managed_eq
  control_eq := h₂.control_eq.trans h₁.control_eq
  pool := h₂.pool.trans h₁.pool
  mem_eq := by
    intro q ht hT hT₂ hc
    have hT₁ : q ∉ tables T₁ := by
      intro hq
      rcases Finset.mem_union.mp (hsub hq) with hq | hq
      · exact hT hq
      · exact hT₂ hq
    rw [h₂.mem_eq q ht hT₁ hT₂ (by rw [h₁.control_eq]; exact hc), h₁.mem_eq q ht hT hT₁ hc]
  cr3_eq := h₂.cr3_eq.trans h₁.cr3_eq

theorem TreeStep.table_origin {s s' : Machine} {t : Physical} {n : Nat} {T T' : PageTree n}
    (h : TreeStep s s' t T T') {p : Physical} (hp : p ∈ tables T') :
    p ∈ freePages s ∨ p ∈ tables T := by
  have hin : p ∈ freePages s' ∪ tables T' := Finset.mem_union_right _ hp
  rw [h.pool] at hin
  exact Finset.mem_union.mp hin

section Child

variable {s : Machine} {t : Physical} {n : Nat} {T : PageTree (n + 1)} {i : Fin 512}
  {w : BitVec 64} {c : PageTree n}

theorem TreeOk.entry (h : TreeOk s t T) (hi : T i = .table w c) :
    s.mem t i = w ∧ entryCoding.present w = true ∧ pageTree s n (entryCoding.addr w) = c := by
  rw [← h.read_eq] at hi
  exact read_table entryCoding hi

theorem TreeOk.absent_entry (h : TreeOk s t T) (hi : T i = .absent w) :
    s.mem t i = w ∧ entryCoding.present w = false := by
  rw [← h.read_eq] at hi
  exact read_absent entryCoding hi

theorem slotTables_absent (v : BitVec 64) :
    slotTables (.absent v : Slot (BitVec 64) (PageTree n)) = ∅ := rfl

theorem slotTables_table (w : BitVec 64) (c : PageTree n) :
    slotTables (.table w c) = insert (entryCoding.addr w) (tables c) := rfl

theorem slotTables_subset (T : PageTree (n + 1)) (i : Fin 512) : slotTables (T i) ⊆ tables T :=
  slotPages_subset entryCoding T i

theorem slot_subset (hi : T i = .table w c) :
    insert (entryCoding.addr w) (tables c) ⊆ tables T := by
  rw [← slotTables_table, ← hi]
  exact slotTables_subset T i

theorem mem_tables_set {x : Slot (BitVec 64) (PageTree n)} {p : Physical} :
    p ∈ tables (T.set i x) ↔ p ∈ slotTables x ∨ ∃ j, j ≠ i ∧ p ∈ slotTables (T j) :=
  mem_pages_set entryCoding

theorem mem_tables_slot {p : Physical} :
    p ∈ tables T ↔ p ∈ slotTables (T i) ∨ ∃ j, j ≠ i ∧ p ∈ slotTables (T j) := by
  rw [← mem_tables_set, Tree.set_eq]

theorem TreeOk.child (h : TreeOk s t T) (hi : T i = .table w c) :
    TreeOk s (entryCoding.addr w) c where
  read_eq := (h.entry hi).2.2
  separated := (h.separated.1 i w c hi).2
  root := (h.separated.1 i w c hi).1
  not_free := fun p hp => h.not_free p (Finset.mem_insert_of_mem (slot_subset hi hp))
  not_control := fun p hp => h.not_control p (Finset.mem_insert_of_mem (slot_subset hi hp))

theorem TreeOk.outside (h : TreeOk s t T) {p : Physical}
    (hp : p = t ∨ ∃ j, j ≠ i ∧ p ∈ slotTables (T j)) :
    p ∉ freePages s ∪ slotTables (T i) ∧ p ∉ s.pmm.controlPages := by
  have hin : p ∈ insert t (tables T) := by
    rcases hp with rfl | ⟨j, -, hj⟩
    · exact Finset.mem_insert_self _ _
    · exact Finset.mem_insert_of_mem (slotTables_subset T j hj)
  refine ⟨?_, h.not_control p hin⟩
  rw [Finset.mem_union, not_or]
  refine ⟨h.not_free p hin, ?_⟩
  intro hi
  rcases hp with rfl | ⟨j, hj, hpj⟩
  · exact h.root (slotTables_subset T i hi)
  · exact h.separated.slot_notMem entryCoding hj hi hpj

theorem TreeStep.of_slot {s' : Machine} {x : Slot (BitVec 64) (PageTree n)} (h : TreeOk s t T)
    (hok : PmmOk s') (hman : s'.pmm.managedPages = s.pmm.managedPages)
    (hctrl : s'.pmm.controlPages = s.pmm.controlPages) (hcr3 : s'.cr3 = s.cr3)
    (hread : readSlot entryCoding s'.mem n (s'.mem t i) = x)
    (hrow : ∀ j, j ≠ i → s'.mem t j = s.mem t j)
    (hkeep : ∀ q, q ≠ t → q ∉ slotTables (T i) → q ∉ slotTables x → q ∉ s.pmm.controlPages →
      s'.mem q = s.mem q)
    (hsep : ∀ v d, x = .table v d → entryCoding.addr v ∉ tables d ∧ Separated entryCoding n d)
    (hpool : freePages s' ∪ slotTables x = freePages s ∪ slotTables (T i))
    (hnew : ∀ p ∈ slotTables x, p ∉ freePages s' ∧ p ∉ s.pmm.controlPages) :
    TreeStep s s' t T (T.set i x) := by
  -- nothing outside the entry has become free or got behind it
  have hout : ∀ p, (p = t ∨ ∃ j, j ≠ i ∧ p ∈ slotTables (T j)) →
      p ∉ freePages s' ∧ p ∉ slotTables x := by
    intro p hp
    have hold := (h.outside hp).1
    rwa [← hpool, Finset.mem_union, not_or] at hold
  have hcase : ∀ p ∈ insert t (tables (T.set i x)),
      p ∈ slotTables x ∨ p = t ∨ ∃ j, j ≠ i ∧ p ∈ slotTables (T j) := by
    intro p hp
    rcases Finset.mem_insert.mp hp with ht | hp
    · exact Or.inr (Or.inl ht)
    · exact (mem_tables_set.mp hp).imp_right Or.inr
  refine ⟨⟨?_, ?_, ?_, ?_, ?_⟩, hok, hman, hctrl, ?_, ?_, hcr3⟩
  · rw [← h.read_eq]
    apply read_set entryCoding hread hrow
    intro j hj p hp
    have hp' : p ∈ slotTables (T j) := by
      rw [← h.read_eq]
      exact hp
    have hold := h.outside (Or.inr ⟨j, hj, hp'⟩)
    apply hkeep p
    · rintro rfl
      exact h.root (slotTables_subset T j hp')
    · exact fun hi => hold.1 (Finset.mem_union_right _ hi)
    · exact (hout p (Or.inr ⟨j, hj, hp'⟩)).2
    · exact hold.2
  · apply h.separated.set entryCoding hsep
    intro j hj
    rw [Finset.disjoint_right]
    exact fun p hp => (hout p (Or.inr ⟨j, hj, hp⟩)).2
  · intro hp
    rcases mem_tables_set.mp hp with hp | ⟨j, -, hp⟩
    · exact (hout t (Or.inl rfl)).2 hp
    · exact h.root (slotTables_subset T j hp)
  · intro p hp
    rcases hcase p hp with hx | hp
    · exact (hnew p hx).1
    · exact (hout p hp).1
  · intro p hp
    rw [hctrl]
    rcases hcase p hp with hx | hp
    · exact (hnew p hx).2
    · exact (h.outside hp).2
  · ext p
    have hp := Finset.ext_iff.mp hpool p
    rw [Finset.mem_union, Finset.mem_union] at hp
    rw [Finset.mem_union, Finset.mem_union, mem_tables_set, mem_tables_slot (i := i),
      ← or_assoc, ← or_assoc]
    exact or_congr_left hp
  · intro q ht hT hT' hc
    apply hkeep q ht
    · exact fun hi => hT (slotTables_subset T i hi)
    · exact fun hx => hT' (mem_tables_set.mpr (Or.inl hx))
    · exact hc

theorem TreeStep.lift {s' : Machine} {c' : PageTree n} (h : TreeOk s t T)
    (hi : T i = .table w c) (hs : TreeStep s s' (entryCoding.addr w) c c') :
    TreeStep s s' t T (T.set i (.table w c')) := by
  obtain ⟨hentry, hpresent, -⟩ := h.entry hi
  have hsub := slot_subset hi
  have hmem : s'.mem t = s.mem t := by
    apply hs.mem_eq t
    · exact fun he => h.root (hsub (Finset.mem_insert.mpr (Or.inl he)))
    · exact fun hc => h.root (hsub (Finset.mem_insert_of_mem hc))
    · intro hc'
      rcases hs.table_origin hc' with hf | hc
      · exact h.not_free t (Finset.mem_insert_self _ _) hf
      · exact h.root (hsub (Finset.mem_insert_of_mem hc))
    · exact h.not_control t (Finset.mem_insert_self _ _)
  apply TreeStep.of_slot h hs.pmm hs.managed_eq hs.control_eq hs.cr3_eq
  · rw [hmem, hentry]
    exact readSlot_table entryCoding hpresent hs.tree.read_eq
  · intro j _
    rw [hmem]
  · intro q _ hc hc' hctrl
    rw [hi, slotTables_table, Finset.mem_insert, not_or] at hc
    rw [slotTables_table, Finset.mem_insert, not_or] at hc'
    exact hs.mem_eq q hc.1 hc.2 hc'.2 hctrl
  · intro v d hd
    rw [Slot.table.injEq] at hd
    obtain ⟨rfl, rfl⟩ := hd
    exact ⟨hs.tree.root, hs.tree.separated⟩
  · rw [hi, slotTables_table, slotTables_table, Finset.union_insert, Finset.union_insert, hs.pool]
  · intro p hp
    rw [← hs.control_eq]
    exact ⟨hs.tree.not_free p hp, hs.tree.not_control p hp⟩

end Child

end Ukulele
