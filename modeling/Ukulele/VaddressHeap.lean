import Ukulele.Vaddress
import Ukulele.VaddressRegions

/-! The node lists in memory, and the pointer code as edits of the lists they spell. -/

set_option autoImplicit false

namespace Ukulele
open Chain

abbrev VaddressSpace.nexts (s : VaddressSpace) : Node → Option Node := fun a => (s.region a).next

/-- The storage blocks and the slots of them that are in use. -/
structure StoreOk (s : VaddressSpace) (ns : List Node) (bs : List Nat) : Prop where
  storage : Seg (fun b => (s.block b).next) s.storage bs none
  nodup : ns.Nodup
  blocks_nodup : bs.Nodup
  issued : ∀ a ∈ ns, a.page ∈ bs ∧ a.slot < (s.block a.page).entries
  entries_le : ∀ b ∈ bs, (s.block b).entries ≤ regionsPerBlock
  pages_lt : ∀ b ∈ bs, b < s.pages

/-- The allocated list spells `l` and the unused list spells `u`. -/
structure HeapOk (s : VaddressSpace) (l u : List Node) (bs : List Nat) : Prop where
  store : StoreOk s (l ++ u) bs
  allocated : Seg s.nexts s.allocated l none
  unused : Seg s.nexts s.unused u none

theorem StoreOk.length_le {s : VaddressSpace} {ns : List Node} {bs : List Nat}
    (h : StoreOk s ns bs) : ns.length ≤ s.slots := by
  have hmap : (ns.map (fun a => (a.page, a.slot))).Nodup := by
    apply h.nodup.map
    rintro ⟨p, i⟩ ⟨q, j⟩ he
    cases he
    rfl
  have hsub : (ns.map (fun a => (a.page, a.slot))).toFinset ⊆
      Finset.range s.pages ×ˢ Finset.range regionsPerBlock := by
    intro q hq
    simp only [List.mem_toFinset, List.mem_map] at hq
    obtain ⟨a, ha, rfl⟩ := hq
    obtain ⟨hb, hlt⟩ := h.issued a ha
    have hle := h.entries_le a.page hb
    have hp := h.pages_lt a.page hb
    simp only [Finset.mem_product, Finset.mem_range]
    exact ⟨hp, Nat.lt_of_lt_of_le hlt hle⟩
  have hc := Finset.card_le_card hsub
  rw [List.toFinset_card_of_nodup hmap, List.length_map, Finset.card_product, Finset.card_range,
    Finset.card_range] at hc
  rw [VaddressSpace.slots, Nat.mul_comm]
  exact hc

theorem HeapOk.length_le {s : VaddressSpace} {l u : List Node} {bs : List Nat}
    (h : HeapOk s l u bs) : l.length ≤ s.slots := by
  have hl := h.store.length_le
  rw [List.length_append] at hl
  omega

theorem HeapOk.allocatedNodes_eq {s : VaddressSpace} {l u : List Node} {bs : List Nat}
    (h : HeapOk s l u bs) : allocatedNodes s = l := walk_eq h.allocated h.length_le

theorem StoreOk.congr {s t : VaddressSpace} {ns ns' : List Node} {bs : List Nat}
    (h : StoreOk s ns bs) (hp : ns'.Perm ns) (hb : t.block = s.block)
    (hs : t.storage = s.storage) (hpg : t.pages = s.pages) : StoreOk t ns' bs where
  storage := by rw [hb, hs]; exact h.storage
  nodup := hp.nodup_iff.mpr h.nodup
  blocks_nodup := h.blocks_nodup
  issued := by
    intro a ha
    rw [hb]
    exact h.issued a (hp.mem_iff.mp ha)
  entries_le := by rw [hb]; exact h.entries_le
  pages_lt := by rw [hpg]; exact h.pages_lt

section Links

variable {s : VaddressSpace}

@[simp] theorem setRegion_self (s : VaddressSpace) (a : Node) (r : AddressRegion) :
    (s.setRegion a r).region a = r := Function.update_self ..

theorem setRegion_ne (s : VaddressSpace) {a b : Node} (r : AddressRegion) (h : b ≠ a) :
    (s.setRegion a r).region b = s.region b := Function.update_of_ne h ..

def linkAt (l : List Node) : Link :=
  match l.getLast? with
  | none => .head
  | some a => .next a

@[simp] theorem linkAt_concat (l : List Node) (a : Node) : linkAt (l ++ [a]) = .next a := by
  simp [linkAt]

theorem setLink_rest (s : VaddressSpace) (p : Link) (v : Option Node) :
    (s.setLink p v).unused = s.unused ∧ (s.setLink p v).block = s.block ∧
    (s.setLink p v).storage = s.storage ∧ (s.setLink p v).pages = s.pages ∧
    (s.setLink p v).spaceBegin = s.spaceBegin ∧ (s.setLink p v).spaceEnd = s.spaceEnd := by
  cases p <;> exact ⟨rfl, rfl, rfl, rfl, rfl, rfl⟩

theorem setLink_bounds (s : VaddressSpace) (p : Link) (v : Option Node) (a : Node) :
    bounds (s.setLink p v) a = bounds s a := by
  cases p with
  | head => rfl
  | next b =>
    by_cases h : a = b
    · subst a
      simp [bounds, VaddressSpace.setLink]
    · simp [bounds, VaddressSpace.setLink, setRegion_ne _ _ h]

theorem setLink_region {l : List Node} {a : Node} (h : a ∉ l) (v : Option Node) :
    (s.setLink (linkAt l) v).region a = s.region a := by
  rcases List.eq_nil_or_concat l with rfl | ⟨m, b, rfl⟩
  · rfl
  · rw [List.concat_eq_append] at h ⊢
    rw [linkAt_concat]
    apply setRegion_ne
    rintro rfl
    exact h (by simp)

theorem setLink_seg {l : List Node} {t : Option Node} (h : Seg s.nexts s.allocated l t)
    (hn : l.Nodup) (v : Option Node) :
    Seg (s.setLink (linkAt l) v).nexts (s.setLink (linkAt l) v).allocated l v := by
  rcases List.eq_nil_or_concat l with rfl | ⟨m, b, rfl⟩
  · rfl
  · rw [List.concat_eq_append] at h hn ⊢
    rw [linkAt_concat]
    apply Seg.redirect h
    · simp [VaddressSpace.nexts, VaddressSpace.setLink]
    · intro c hc
      have hne : c ≠ b := by
        rintro rfl
        rw [List.nodup_append] at hn
        exact hn.2.2 c hc c (by simp) rfl
      simp only [VaddressSpace.nexts, VaddressSpace.setLink, setRegion_ne _ _ hne]

end Links

theorem findBlock_spec {block : Nat → StorageBlock} {head : Option Nat} {bs : List Nat}
    (h : Seg (fun b => (block b).next) head bs none) {fuel : Nat} (hf : bs.length < fuel) :
    (findBlock block fuel head = some none ∧ ∀ b ∈ bs, regionsPerBlock ≤ (block b).entries) ∨
    ∃ b ∈ bs, (block b).entries < regionsPerBlock ∧
      findBlock block fuel head = some (some b) := by
  induction bs generalizing head fuel with
  | nil =>
    simp only [Seg] at h
    subst h
    cases fuel with
    | zero => simp at hf
    | succ fuel => exact Or.inl ⟨rfl, by simp⟩
  | cons b bs ih =>
    obtain ⟨rfl, ht⟩ := h
    cases fuel with
    | zero => simp at hf
    | succ fuel =>
      rw [findBlock]
      split
      · rename_i hlt
        exact Or.inr ⟨b, List.mem_cons_self, hlt, rfl⟩
      · rename_i hfull
        rcases ih ht (by simpa using hf) with ⟨he, hall⟩ | ⟨c, hc, hlt, he⟩
        · refine Or.inl ⟨he, ?_⟩
          simpa using ⟨Nat.not_lt.mp hfull, hall⟩
        · exact Or.inr ⟨c, List.mem_cons_of_mem _ hc, hlt, he⟩

/-- What taking a node from the pool keeps; the node is in neither list. -/
structure Popped (s : VaddressSpace) (l : List Node) (n : Node) (t : VaddressSpace)
    (u : List Node) (bs : List Nat) : Prop where
  store : StoreOk t (n :: (l ++ u)) bs
  unused : Seg t.nexts t.unused u none
  allocated_eq : t.allocated = s.allocated
  region_eq : ∀ a ∈ l, t.region a = s.region a
  begin_eq : t.spaceBegin = s.spaceBegin
  end_eq : t.spaceEnd = s.spaceEnd

theorem StoreOk.blocks_length_le {s : VaddressSpace} {ns : List Node} {bs : List Nat}
    (h : StoreOk s ns bs) : bs.length ≤ s.pages := by
  have hsub : bs.toFinset ⊆ Finset.range s.pages := by
    intro b hb
    exact Finset.mem_range.mpr (h.pages_lt b (List.mem_toFinset.mp hb))
  have hc := Finset.card_le_card hsub
  rwa [List.toFinset_card_of_nodup h.blocks_nodup, Finset.card_range] at hc

theorem pop_unused {s : VaddressSpace} {l u : List Node} {n : Node} {bs : List Nat}
    (h : HeapOk s l (n :: u) bs) :
    Popped s l n ({ s with unused := (s.region n).next }.setRegion n zeroRegion) u bs := by
  have hn := h.store.nodup
  rw [List.nodup_append] at hn
  obtain ⟨hl, hu, hlu⟩ := hn
  have hnu := (List.nodup_cons.mp hu).1
  have hnl : n ∉ l := fun hin => hlu n hin n List.mem_cons_self rfl
  have hkeep : ∀ a, a ≠ n →
      ({ s with unused := (s.region n).next }.setRegion n zeroRegion).region a = s.region a :=
    fun a ha => setRegion_ne _ _ ha
  refine ⟨h.store.congr (List.perm_middle.symm) rfl rfl rfl, ?_, rfl, ?_, rfl, rfl⟩
  · apply h.unused.2.congr
    intro a ha
    have hne : a ≠ n := by
      rintro rfl
      exact hnu ha
    simp only [VaddressSpace.nexts, hkeep a hne]
  · intro a ha
    apply hkeep
    rintro rfl
    exact hnl ha

theorem takeEntry_block (s : VaddressSpace) (b c : Nat) :
    ((s.takeEntry b).block c).next = (s.block c).next ∧
    (s.block c).entries ≤ ((s.takeEntry b).block c).entries := by
  by_cases hc : c = b
  · subst c
    simp [VaddressSpace.takeEntry]
  · simp [VaddressSpace.takeEntry, Function.update_of_ne hc]

theorem pop_entry {s : VaddressSpace} {l : List Node} {bs : List Nat} (h : HeapOk s l [] bs)
    {b : Nat} (hb : b ∈ bs) (hlt : (s.block b).entries < regionsPerBlock) :
    Popped s l ⟨b, (s.block b).entries⟩
      ((s.takeEntry b).setRegion ⟨b, (s.block b).entries⟩ zeroRegion) [] bs := by
  have hst := h.store
  rw [List.append_nil] at hst
  have hself : ((s.takeEntry b).block b).entries = (s.block b).entries + 1 := by
    simp [VaddressSpace.takeEntry]
  have hnl : (⟨b, (s.block b).entries⟩ : Node) ∉ l := by
    intro hin
    have := (hst.issued _ hin).2
    simp at this
  refine ⟨⟨?_, ?_, hst.blocks_nodup, ?_, ?_, hst.pages_lt⟩, h.unused, rfl, ?_, rfl, rfl⟩
  · apply hst.storage.congr
    intro c _
    exact (takeEntry_block s b c).1
  · rw [List.append_nil]
    exact List.nodup_cons.mpr ⟨hnl, hst.nodup⟩
  · intro a ha
    rw [List.append_nil] at ha
    rcases List.mem_cons.mp ha with rfl | ha
    · exact ⟨hb, Nat.lt_of_lt_of_eq (Nat.lt_succ_self _) hself.symm⟩
    · obtain ⟨h₁, h₂⟩ := hst.issued a ha
      exact ⟨h₁, Nat.lt_of_lt_of_le h₂ (takeEntry_block s b a.page).2⟩
  · intro c hc
    by_cases hcb : c = b
    · subst c
      exact hself.le.trans hlt
    · have he := hst.entries_le c hc
      simpa [VaddressSpace.setRegion, VaddressSpace.takeEntry, Function.update_of_ne hcb] using he
  · intro a ha
    apply setRegion_ne
    rintro rfl
    exact hnl ha

theorem pop_page {s : VaddressSpace} {l : List Node} {bs : List Nat} (h : HeapOk s l [] bs) :
    Popped s l ⟨s.pages, 0⟩ (s.takePage.setRegion ⟨s.pages, 0⟩ zeroRegion) []
      (s.pages :: bs) := by
  have hst := h.store
  rw [List.append_nil] at hst
  have hfresh : s.pages ∉ bs := fun hin => Nat.lt_irrefl _ (hst.pages_lt _ hin)
  have hself : s.takePage.block s.pages = ⟨s.storage, 1⟩ := Function.update_self ..
  have hother : ∀ c ∈ bs, s.takePage.block c = s.block c := by
    intro c hc
    apply Function.update_of_ne
    rintro rfl
    exact hfresh hc
  have hnl : (⟨s.pages, 0⟩ : Node) ∉ l := fun hin => hfresh (hst.issued _ hin).1
  refine ⟨⟨⟨rfl, ?_⟩, ?_, List.nodup_cons.mpr ⟨hfresh, hst.blocks_nodup⟩, ?_, ?_, ?_⟩,
    h.unused, rfl, ?_, rfl, rfl⟩
  · change Seg (fun b => (s.takePage.block b).next) (s.takePage.block s.pages).next bs none
    rw [hself]
    apply hst.storage.congr
    intro c hc
    rw [hother c hc]
  · rw [List.append_nil]
    exact List.nodup_cons.mpr ⟨hnl, hst.nodup⟩
  · intro a ha
    change a.page ∈ _ ∧ a.slot < (s.takePage.block a.page).entries
    rw [List.append_nil] at ha
    rcases List.mem_cons.mp ha with rfl | ha
    · rw [hself]
      exact ⟨List.mem_cons_self, Nat.zero_lt_one⟩
    · obtain ⟨h₁, h₂⟩ := hst.issued a ha
      rw [hother a.page h₁]
      exact ⟨List.mem_cons_of_mem _ h₁, h₂⟩
  · intro c hc
    change (s.takePage.block c).entries ≤ _
    rcases List.mem_cons.mp hc with rfl | hc
    · rw [hself]
      exact (by decide : 1 ≤ regionsPerBlock)
    · rw [hother c hc]
      exact hst.entries_le c hc
  · intro c hc
    change c < s.pages + 1
    rcases List.mem_cons.mp hc with rfl | hc
    · exact Nat.lt_succ_self _
    · exact Nat.lt_succ_of_lt (hst.pages_lt c hc)
  · intro a ha
    apply setRegion_ne
    rintro rfl
    exact hnl ha

/-- All storage blocks but the first are full, and `n` entries are in use. -/
structure StoreCount (s : VaddressSpace) (bs : List Nat) (n : Nat) : Prop where
  full : ∀ b ∈ bs.tail, (s.block b).entries = regionsPerBlock
  started : ∀ b ∈ bs.head?, 0 < (s.block b).entries
  issued : (bs.map (fun b => (s.block b).entries)).sum = n
  pages : s.pages = bs.length + 1

theorem StoreCount.congr {s t : VaddressSpace} {bs : List Nat} {n : Nat} (h : StoreCount s bs n)
    (hb : t.block = s.block) (hp : t.pages = s.pages) : StoreCount t bs n where
  full := by rw [hb]; exact h.full
  started := by rw [hb]; exact h.started
  issued := by rw [hb]; exact h.issued
  pages := by rw [hp]; exact h.pages

def PoolCount (s t : VaddressSpace) (u u' : List Node) (bs bs' : List Nat) : Prop :=
  ∀ n, StoreCount s bs n →
    (u'.length + 1 = u.length ∧ StoreCount t bs' n) ∨
    (u = [] ∧ u' = [] ∧ StoreCount t bs' (n + 1))

theorem pop_entry_count {s : VaddressSpace} {ns : List Node} {bs : List Nat}
    (h : StoreOk s ns bs) {b : Nat} (hb : b ∈ bs) (hlt : (s.block b).entries < regionsPerBlock)
    (a : Node) : PoolCount s ((s.takeEntry b).setRegion a zeroRegion) [] [] bs bs := by
  intro n hn
  obtain ⟨hfull, hstarted, hissued, hpages⟩ := hn
  cases bs with
  | nil => contradiction
  | cons c bs =>
    have hc : c ∉ bs := (List.nodup_cons.mp h.blocks_nodup).1
    have hbc : b = c := by
      rcases List.mem_cons.mp hb with hbc | hb
      · exact hbc
      · have := hfull b hb
        omega
    subst b
    have hself : ((s.takeEntry c).block c).entries = (s.block c).entries + 1 := by
      simp [VaddressSpace.takeEntry]
    have hother : ∀ d ∈ bs, ((s.takeEntry c).block d).entries = (s.block d).entries := by
      intro d hd
      have hne : d ≠ c := by
        rintro rfl
        exact hc hd
      simp [VaddressSpace.takeEntry, Function.update_of_ne hne]
    refine Or.inr ⟨rfl, rfl, ⟨?_, ?_, ?_, hpages⟩⟩
    · intro d hd
      exact (hother d hd).trans (hfull d hd)
    · intro d hd
      cases hd
      exact Nat.lt_of_lt_of_eq (Nat.succ_pos _) hself.symm
    · have hsum : bs.map (fun d => ((s.takeEntry c).block d).entries) =
          bs.map (fun d => (s.block d).entries) := List.map_congr_left hother
      simp only [VaddressSpace.setRegion, List.map_cons, List.sum_cons] at hissued ⊢
      rw [hsum, hself]
      omega

theorem pop_page_count {s : VaddressSpace} {ns : List Node} {bs : List Nat}
    (h : StoreOk s ns bs) (hall : ∀ b ∈ bs, regionsPerBlock ≤ (s.block b).entries) (a : Node) :
    PoolCount s (s.takePage.setRegion a zeroRegion) [] [] bs (s.pages :: bs) := by
  intro n hn
  have hself : s.takePage.block s.pages = ⟨s.storage, 1⟩ := Function.update_self ..
  have hother : ∀ c ∈ bs, s.takePage.block c = s.block c := by
    intro c hc
    apply Function.update_of_ne
    rintro rfl
    exact Nat.lt_irrefl _ (h.pages_lt _ hc)
  refine Or.inr ⟨rfl, rfl, ⟨?_, ?_, ?_, ?_⟩⟩
  · intro c hc
    have hle := h.entries_le c hc
    have hge := hall c hc
    change (s.takePage.block c).entries = _
    rw [hother c hc]
    omega
  · intro c hc
    cases hc
    change 0 < (s.takePage.block s.pages).entries
    simp [hself]
  · have hsum : bs.map (fun c => (s.takePage.block c).entries) =
        bs.map (fun c => (s.block c).entries) :=
      List.map_congr_left (fun c hc => by rw [hother c hc])
    change (((s.pages :: bs).map (fun c => (s.takePage.block c).entries)).sum) = _
    rw [List.map_cons, List.sum_cons, hsum, hn.issued, hself]
    exact Nat.add_comm 1 n
  · change s.pages + 1 = _
    rw [hn.pages]
    rfl

theorem findFreeNode_spec {s : VaddressSpace} {l u : List Node} {bs : List Nat}
    (h : HeapOk s l u bs) :
    ∃ n t u' bs', findFreeNode s = some (n, t) ∧ Popped s l n t u' bs' ∧
      PoolCount s t u u' bs bs' := by
  cases u with
  | cons n u =>
    have he : s.unused = some n := h.unused.1
    refine ⟨n, _, u, bs, by rw [findFreeNode, he], pop_unused h, ?_⟩
    intro k hk
    exact Or.inl ⟨rfl, hk.congr rfl rfl⟩
  | nil =>
    have he : s.unused = none := h.unused
    have hf : bs.length < s.pages + 1 := Nat.lt_succ_of_le h.store.blocks_length_le
    rcases findBlock_spec h.store.storage hf with ⟨hb, hall⟩ | ⟨b, hb, hlt, hfind⟩
    · refine ⟨_, _, [], s.pages :: bs, ?_, pop_page h, pop_page_count h.store hall _⟩
      simp only [findFreeNode, he, hb]
    · refine ⟨_, _, [], bs, ?_, pop_entry h hb hlt, pop_entry_count h.store hb hlt _⟩
      simp only [findFreeNode, he, hfind]

end Ukulele
