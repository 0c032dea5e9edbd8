import Ukulele.VaddressHeap

/-! The pointer code of the two operations refines the list edits on intervals. -/

set_option autoImplicit false

namespace Ukulele
open Chain

section Edits

variable {s : VaddressSpace} {l u : List Node} {bs : List Nat}

theorem HeapOk.notMem_unused (h : HeapOk s l u bs) {a : Node} (ha : a ∈ l) : a ∉ u := by
  intro hu
  have hn := h.store.nodup
  rw [List.nodup_append] at hn
  exact hn.2.2 a ha a hu rfl

theorem HeapOk.nodup_left (h : HeapOk s l u bs) : l.Nodup :=
  (List.nodup_append.mp h.store.nodup).1

theorem HeapOk.setEnd (h : HeapOk s l u bs) (a : Node) (x : Uintptr) :
    HeapOk (s.setRegion a { s.region a with endAt := x }) l u bs := by
  have hnext : (s.setRegion a { s.region a with endAt := x }).nexts = s.nexts := by
    funext b
    by_cases hb : b = a
    · subst b
      simp [VaddressSpace.nexts]
    · simp only [VaddressSpace.nexts, setRegion_ne _ _ hb]
  refine ⟨h.store.congr (List.Perm.refl _) rfl rfl rfl, ?_, ?_⟩
  · rw [hnext]
    exact h.allocated
  · rw [hnext]
    exact h.unused

theorem bounds_setEnd (s : VaddressSpace) (a : Node) (x : Uintptr) :
    bounds (s.setRegion a { s.region a with endAt := x }) a =
      ((s.region a).beginAt.toNat, x.toNat) := by
  simp [bounds]

theorem bounds_setRegion_ne (s : VaddressSpace) {a b : Node} (r : AddressRegion) (h : b ≠ a) :
    bounds (s.setRegion a r) b = bounds s b := by
  simp only [bounds, setRegion_ne _ _ h]

def VaddressSpace.release (s : VaddressSpace) (prev : Link) (a : Node) : VaddressSpace :=
  let t := s.setLink prev (s.region a).next
  { t.setRegion a { t.region a with next := t.unused } with unused := some a }

theorem release_bounds (s : VaddressSpace) (prev : Link) (a b : Node) :
    bounds (s.release prev a) b = bounds s b := by
  have ht := setLink_bounds s prev (s.region a).next b
  by_cases hb : b = a
  · subst b
    rw [← ht]
    simp [bounds, VaddressSpace.release, VaddressSpace.setRegion]
  · rw [← ht]
    simp [bounds, VaddressSpace.release, VaddressSpace.setRegion, Function.update_of_ne hb]

theorem HeapOk.release {done rest : List Node} {a : Node}
    (h : HeapOk s (done ++ a :: rest) u bs) :
    HeapOk (s.release (linkAt done) a) (done ++ rest) (a :: u) bs := by
  have hn := h.nodup_left
  rw [List.nodup_append] at hn
  obtain ⟨hd, har, hdr⟩ := hn
  have hnd : a ∉ done := fun hin => hdr a hin a List.mem_cons_self rfl
  have hnr : a ∉ rest := (List.nodup_cons.mp har).1
  have hnu : a ∉ u := h.notMem_unused (by simp)
  obtain ⟨hchain, -, hrest⟩ := seg_append.mp h.allocated
  have hhead : (s.region a).next = headOr rest none := hrest.head_eq
  obtain ⟨h₁, h₂, h₃, h₄, -, -⟩ := setLink_rest s (linkAt done) (s.region a).next
  let t := s.setLink (linkAt done) (s.region a).next
  have hkeep : ∀ b, b ≠ a → (s.release (linkAt done) a).nexts b = t.nexts b := by
    intro b hb
    simp only [VaddressSpace.nexts, VaddressSpace.release, VaddressSpace.setRegion,
      Function.update_of_ne hb]
    rfl
  have hout : ∀ b, b ∉ done → t.region b = s.region b := fun b hb => setLink_region hb _
  refine ⟨h.store.congr ?_ h₂ h₃ h₄, ?_, ?_⟩
  · simp only [List.append_assoc, List.cons_append]
    exact (List.Perm.append_left done List.perm_middle)
  · rw [seg_append]
    constructor
    · rw [← hhead]
      have hseg : Seg t.nexts t.allocated done (s.region a).next := setLink_seg hchain hd _
      apply hseg.congr
      intro b hb
      apply hkeep
      rintro rfl
      exact hnd hb
    · rw [← hhead]
      apply hrest.congr
      intro b hb
      have hba : b ≠ a := by
        rintro rfl
        exact hnr hb
      have hbd : b ∉ done := fun hin => hdr b hin b (List.mem_cons_of_mem _ hb) rfl
      rw [hkeep b hba]
      simp only [VaddressSpace.nexts, hout b hbd]
  · refine ⟨rfl, ?_⟩
    have hself : (s.release (linkAt done) a).nexts a = s.unused := by
      simp only [VaddressSpace.nexts, VaddressSpace.release, VaddressSpace.setRegion,
        Function.update_self]
      exact h₁
    rw [hself]
    apply h.unused.congr
    intro b hb
    have hba : b ≠ a := by
      rintro rfl
      exact hnu hb
    have hbd : b ∉ done := fun hin => h.notMem_unused (by simp [hin]) hb
    rw [hkeep b hba]
    simp only [VaddressSpace.nexts, hout b hbd]

/-- A node from the pool goes behind `a` and takes the upper part of its region. -/
def VaddressSpace.splitAt (t : VaddressSpace) (a n : Node) (next : Option Node)
    (address addressEnd : Uintptr) : VaddressSpace :=
  let u := t.setRegion n ⟨next, addressEnd, (t.region a).endAt⟩
  u.setRegion a { u.region a with endAt := address, next := some n }

theorem Popped.splitAt {done rest u' : List Node} {bs' : List Nat} {a n : Node}
    {t : VaddressSpace} (h : HeapOk s (done ++ a :: rest) u bs)
    (hp : Popped s (done ++ a :: rest) n t u' bs') (x y : Uintptr) :
    HeapOk (t.splitAt a n (s.region a).next x y) (done ++ a :: n :: rest) u' bs' := by
  have hn := List.nodup_cons.mp hp.store.nodup
  have hnl : n ∉ done ++ a :: rest := fun hin => hn.1 (by simp at hin ⊢; tauto)
  have hnu : n ∉ u' := fun hin => hn.1 (by simp [hin])
  have hnotin : a ∉ done ++ rest := (List.nodup_middle.mp h.nodup_left).notMem
  have hna : n ≠ a := by
    rintro rfl
    exact hnl (by simp)
  have hau : a ∉ u' := by
    intro hin
    have hnod := hn.2
    rw [List.nodup_append] at hnod
    exact hnod.2.2 a (by simp) a hin rfl
  obtain ⟨hchain, -, hrest⟩ := seg_append.mp h.allocated
  have hkeep : ∀ b, b ≠ a → b ≠ n →
      (t.splitAt a n (s.region a).next x y).nexts b = t.nexts b := by
    intro b hba hbn
    simp only [VaddressSpace.nexts, VaddressSpace.splitAt, setRegion_ne _ _ hba,
      setRegion_ne _ _ hbn]
  have hother : ∀ b ∈ done ++ rest,
      (t.splitAt a n (s.region a).next x y).nexts b = s.nexts b := by
    intro b hb
    have hin : b ∈ done ++ a :: rest := by
      simp at hb ⊢
      tauto
    rw [hkeep b (ne_of_mem_of_not_mem hb hnotin) (ne_of_mem_of_not_mem hin hnl)]
    simp only [VaddressSpace.nexts, hp.region_eq b hin]
  have hat : (t.splitAt a n (s.region a).next x y).nexts a = some n := by
    simp [VaddressSpace.nexts, VaddressSpace.splitAt]
  have hnt : (t.splitAt a n (s.region a).next x y).nexts n = (s.region a).next := by
    simp [VaddressSpace.nexts, VaddressSpace.splitAt, setRegion_ne _ _ hna]
  refine ⟨hp.store.congr ?_ rfl rfl rfl, ?_, ?_⟩
  · have hperm : (done ++ a :: n :: rest).Perm (n :: (done ++ a :: rest)) :=
      (List.Perm.append_left done (List.Perm.swap n a rest)).trans List.perm_middle
    exact hperm.append_right u'
  · have hhead : (t.splitAt a n (s.region a).next x y).allocated = s.allocated := hp.allocated_eq
    rw [seg_append, hhead]
    refine ⟨hchain.congr fun b hb => hother b (List.mem_append_left _ hb), rfl, hat, ?_⟩
    rw [hnt]
    exact hrest.congr fun b hb => hother b (List.mem_append_right _ hb)
  · apply hp.unused.congr
    intro b hb
    exact hkeep b (ne_of_mem_of_not_mem hb hau) (ne_of_mem_of_not_mem hb hnu)

end Edits

/-- The result of an operation: the lists are `l` and `u`, and the space is the same. -/
structure ListStep (s s' : VaddressSpace) (l u : List Node) (bs : List Nat) : Prop where
  heap : HeapOk s' l u bs
  begin_eq : s'.spaceBegin = s.spaceBegin
  end_eq : s'.spaceEnd = s.spaceEnd

theorem map_bounds_congr {s t : VaddressSpace} {l : List Node}
    (h : ∀ b ∈ l, bounds t b = bounds s b) : l.map (bounds t) = l.map (bounds s) :=
  List.map_congr_left h

/-- One turn of the pass, at the node `a`: `mid` are the nodes that its region is left to. -/
structure FreeTurn (address addressEnd : Uintptr) (s s' : VaddressSpace) (done : List Node)
    (a : Node) (rest mid u u' : List Node) (bs bs' : List Nat) : Prop where
  step : ListStep s s' (done ++ mid ++ rest) u' bs'
  others : ∀ b ∈ done ++ rest, bounds s' b = bounds s b
  region : mid.map (bounds s') = freeRegion address.toNat addressEnd.toNat (bounds s a)
  pool : ∀ n, StoreCount s bs n →
    (mid.length + u'.length = u.length + 1 ∧ StoreCount s' bs' n) ∨
    (mid.length = 2 ∧ u = [] ∧ u' = [] ∧ StoreCount s' bs' (n + 1))

section Turns

variable {address addressEnd : Uintptr} {s : VaddressSpace} {done rest u : List Node}
  {bs : List Nat} {a : Node}

theorem HeapOk.apart (h : HeapOk s (done ++ a :: rest) u bs) {b : Node} (hb : b ∈ done ++ rest) :
    b ≠ a := by
  have hn := h.nodup_left
  rw [List.nodup_append] at hn
  rintro rfl
  rcases List.mem_append.mp hb with hb | hb
  · exact hn.2.2 b hb b List.mem_cons_self rfl
  · exact (List.nodup_cons.mp hn.2.1).1 hb

theorem FreeTurn.move (h : HeapOk s (done ++ a :: rest) u bs) {x : Uintptr}
    (hx : freeRegion address.toNat addressEnd.toNat (bounds s a) =
      [((s.region a).beginAt.toNat, x.toNat)]) :
    FreeTurn address addressEnd s (s.setRegion a { s.region a with endAt := x }) done a rest [a]
      u u bs bs where
  step := ⟨by simpa using h.setEnd a x, rfl, rfl⟩
  others := fun b hb => bounds_setRegion_ne _ _ (h.apart hb)
  region := by rw [hx, List.map_singleton, bounds_setEnd]
  pool := by
    intro n hn
    exact Or.inl ⟨Nat.add_comm _ _, hn.congr rfl rfl⟩

theorem FreeTurn.delete (h : HeapOk s (done ++ a :: rest) u bs)
    (hx : freeRegion address.toNat addressEnd.toNat (bounds s a) = []) :
    FreeTurn address addressEnd s (s.release (linkAt done) a) done a rest [] u (a :: u) bs bs := by
  obtain ⟨-, hblock, -, hpages, hbegin, hend⟩ := setLink_rest s (linkAt done) (s.region a).next
  refine ⟨⟨by simpa using h.release, hbegin, hend⟩, fun b _ => release_bounds s _ a b, hx.symm, ?_⟩
  intro n hn
  exact Or.inl ⟨Nat.zero_add _, hn.congr hblock hpages⟩

theorem FreeTurn.split (h : HeapOk s (done ++ a :: rest) u bs) {n : Node} {t : VaddressSpace}
    {u' : List Node} {bs' : List Nat} (hp : Popped s (done ++ a :: rest) n t u' bs')
    (hc : PoolCount s t u u' bs bs')
    (hx : freeRegion address.toNat addressEnd.toNat (bounds s a) =
      [((s.region a).beginAt.toNat, address.toNat), (addressEnd.toNat, (s.region a).endAt.toNat)]) :
    FreeTurn address addressEnd s (t.splitAt a n (s.region a).next address addressEnd) done a rest
      [a, n] u u' bs bs' := by
  have hnl : n ∉ done ++ a :: rest :=
    fun hin => (List.nodup_cons.mp hp.store.nodup).1 (List.mem_append_left _ hin)
  have hin : a ∈ done ++ a :: rest := by simp
  have hna : n ≠ a := by
    rintro rfl
    exact hnl hin
  refine ⟨⟨by simpa using hp.splitAt h address addressEnd, hp.begin_eq, hp.end_eq⟩, ?_, ?_, ?_⟩
  · intro b hb
    have hall : b ∈ done ++ a :: rest := by
      rcases List.mem_append.mp hb with hb | hb <;> simp [hb]
    have hbn : b ≠ n := by
      rintro rfl
      exact hnl hall
    rw [VaddressSpace.splitAt, bounds_setRegion_ne _ _ (h.apart hb), bounds_setRegion_ne _ _ hbn,
      bounds, bounds, hp.region_eq b hall]
  · rw [hx]
    simp [bounds, VaddressSpace.splitAt, setRegion_ne _ _ hna, setRegion_ne _ _ hna.symm,
      hp.region_eq a hin]
  · intro k hk
    rcases hc k hk with ⟨hlen, hcount⟩ | ⟨rfl, rfl, hcount⟩
    · exact Or.inl ⟨by simp only [List.length_cons, List.length_nil]; omega,
        hcount.congr rfl rfl⟩
    · exact Or.inr ⟨rfl, rfl, rfl, hcount.congr rfl rfl⟩

theorem vaddressFreeLoop_turn (h : HeapOk s (done ++ a :: rest) u bs) (fuel : Nat) :
    (addressEnd < (s.region a).beginAt ∧
      vaddressFreeLoop address addressEnd (fuel + 1) (linkAt done) (some a) s = some s) ∨
    ∃ s' mid u' bs', ¬ addressEnd < (s.region a).beginAt ∧
      vaddressFreeLoop address addressEnd (fuel + 1) (linkAt done) (some a) s =
        vaddressFreeLoop address addressEnd fuel (linkAt (done ++ mid)) (headOr rest none) s' ∧
      FreeTurn address addressEnd s s' done a rest mid u u' bs bs' := by
  have hnext : (s.region a).next = headOr rest none := (seg_append.mp h.allocated).2.2.head_eq
  have hba : bounds s a = ((s.region a).beginAt.toNat, (s.region a).endAt.toNat) := rfl
  rw [vaddressFreeLoop, ← hnext]
  simp only [BitVec.lt_def, BitVec.le_def]
  by_cases h₁ : addressEnd.toNat < (s.region a).beginAt.toNat
  · exact Or.inl ⟨h₁, if_pos h₁⟩
  right
  rw [if_neg h₁]
  by_cases h₂ : (s.region a).endAt.toNat < address.toNat
  · have hmove : freeRegion address.toNat addressEnd.toNat (bounds s a) =
        [((s.region a).beginAt.toNat, (s.region a).endAt.toNat)] := by
      rw [freeRegion, hba, if_pos h₂]
    refine ⟨_, [a], u, bs, h₁, ?_, FreeTurn.move h hmove⟩
    rw [if_pos h₂, linkAt_concat]
    simp [VaddressSpace.setRegion]
  rw [if_neg h₂]
  by_cases h₃ : address.toNat ≤ (s.region a).beginAt.toNat ∧
      (s.region a).endAt.toNat ≤ addressEnd.toNat
  · have hdelete : freeRegion address.toNat addressEnd.toNat (bounds s a) = [] := by
      rw [freeRegion, hba, if_neg h₂, if_pos h₃]
    refine ⟨_, [], a :: u, bs, h₁, ?_, FreeTurn.delete h hdelete⟩
    rw [if_pos h₃, List.append_nil, VaddressSpace.release]
  rw [if_neg h₃]
  by_cases h₄ : address.toNat ≤ (s.region a).beginAt.toNat
  · have hmove : freeRegion address.toNat addressEnd.toNat (bounds s a) =
        [((s.region a).beginAt.toNat, addressEnd.toNat)] := by
      rw [freeRegion, hba, if_neg h₂, if_neg h₃, if_pos h₄]
    refine ⟨_, [a], u, bs, h₁, ?_, FreeTurn.move h hmove⟩
    rw [if_pos h₄, linkAt_concat]
  rw [if_neg h₄]
  by_cases h₅ : (s.region a).endAt.toNat ≤ addressEnd.toNat
  · have hmove : freeRegion address.toNat addressEnd.toNat (bounds s a) =
        [((s.region a).beginAt.toNat, address.toNat)] := by
      rw [freeRegion, hba, if_neg h₂, if_neg h₃, if_neg h₄, if_pos h₅]
    refine ⟨_, [a], u, bs, h₁, ?_, FreeTurn.move h hmove⟩
    rw [if_pos h₅, linkAt_concat]
  rw [if_neg h₅]
  have hsplit : freeRegion address.toNat addressEnd.toNat (bounds s a) =
      [((s.region a).beginAt.toNat, address.toNat),
        (addressEnd.toNat, (s.region a).endAt.toNat)] := by
    rw [freeRegion, hba, if_neg h₂, if_neg h₃, if_neg h₄, if_neg h₅]
  obtain ⟨n, t, u', bs', hfind, hpop, hcount⟩ := findFreeNode_spec h
  refine ⟨_, [a, n], u', bs', h₁, ?_, FreeTurn.split h hpop hcount hsplit⟩
  have hlink : linkAt (done ++ [a, n]) = .next n := by
    simpa using linkAt_concat (done ++ [a]) n
  rw [hfind, hlink, VaddressSpace.splitAt]

end Turns

/-- A pass with the nodes `done` behind it and `rest` before it, and the lists it ends with. -/
inductive FreePass (address addressEnd : Uintptr) :
    List Node → List Node → VaddressSpace → List Node → List Nat →
    VaddressSpace → List Node → List Node → List Nat → Prop where
  | finish {done u : List Node} {s : VaddressSpace} {bs : List Nat} (h : HeapOk s done u bs) :
      FreePass address addressEnd done [] s u bs s done u bs
  | stop {done rest u : List Node} {s : VaddressSpace} {bs : List Nat} {a : Node}
      (h : HeapOk s (done ++ a :: rest) u bs) (hstop : addressEnd < (s.region a).beginAt) :
      FreePass address addressEnd done (a :: rest) s u bs s (done ++ a :: rest) u bs
  | turn {done rest mid u u' v l : List Node} {s s' t : VaddressSpace} {bs bs' cs : List Nat}
      {a : Node} (hgo : ¬ addressEnd < (s.region a).beginAt)
      (h : FreeTurn address addressEnd s s' done a rest mid u u' bs bs')
      (hpass : FreePass address addressEnd (done ++ mid) rest s' u' bs' t l v cs) :
      FreePass address addressEnd done (a :: rest) s u bs t l v cs

theorem vaddressFreeLoop_pass (address addressEnd : Uintptr) {done rest u : List Node}
    {bs : List Nat} {s : VaddressSpace} {fuel : Nat} (h : HeapOk s (done ++ rest) u bs)
    (hf : rest.length < fuel) :
    ∃ s' l' u' bs', vaddressFreeLoop address addressEnd fuel (linkAt done) (headOr rest none) s =
        some s' ∧ FreePass address addressEnd done rest s u bs s' l' u' bs' := by
  induction rest generalizing done u bs s fuel with
  | nil =>
    cases fuel with
    | zero => simp at hf
    | succ fuel => exact ⟨s, done, u, bs, rfl, .finish (by simpa using h)⟩
  | cons a rest ih =>
    cases fuel with
    | zero => simp at hf
    | succ fuel =>
      have hlen : rest.length < fuel := by simpa using hf
      rcases vaddressFreeLoop_turn h fuel with ⟨hstop, hloop⟩ | ⟨t, mid, v, cs, hgo, hloop, hturn⟩
      · exact ⟨s, _, u, bs, hloop, .stop h hstop⟩
      · obtain ⟨s', l', u', bs', hrest, hpass⟩ := ih hturn.step.heap hlen
        exact ⟨s', l', u', bs', hloop.trans hrest, .turn hgo hturn hpass⟩

/-- The nodes behind the pass keep their regions, the others are edited as `freeRegions` edits
their intervals. -/
theorem FreePass.regions {address addressEnd : Uintptr} {done rest u l' u' : List Node}
    {s s' : VaddressSpace} {bs bs' : List Nat}
    (h : FreePass address addressEnd done rest s u bs s' l' u' bs') :
    ListStep s s' l' u' bs' ∧ l'.map (bounds s') = done.map (bounds s) ++
      freeRegions address.toNat addressEnd.toNat (rest.map (bounds s)) := by
  induction h with
  | finish h => exact ⟨⟨h, rfl, rfl⟩, by simp [freeRegions]⟩
  | @stop done rest u s bs a h hstop =>
    have hlt : addressEnd.toNat < (bounds s a).1 := hstop
    refine ⟨⟨h, rfl, rfl⟩, ?_⟩
    rw [List.map_append, List.map_cons, freeRegions_cons, if_pos hlt]
  | @turn done rest mid u u' v l s s' t bs bs' cs a hgo h hpass ih =>
    obtain ⟨hstep, hmap⟩ := ih
    have hle : ¬ addressEnd.toNat < (bounds s a).1 := hgo
    have hdone : done.map (bounds s') = done.map (bounds s) :=
      map_bounds_congr (fun b hb => h.others b (List.mem_append_left _ hb))
    have hrest : rest.map (bounds s') = rest.map (bounds s) :=
      map_bounds_congr (fun b hb => h.others b (List.mem_append_right _ hb))
    refine ⟨⟨hstep.heap, hstep.begin_eq.trans h.step.begin_eq,
      hstep.end_eq.trans h.step.end_eq⟩, ?_⟩
    rw [hmap, List.map_append, hdone, hrest, h.region, List.map_cons, freeRegions_cons, if_neg hle,
      List.append_assoc]

theorem vaddressFree_pass {s : VaddressSpace} {l u : List Node} {bs : List Nat}
    (h : HeapOk s l u bs) (address : Uintptr) (size : Size) :
    ∃ s' l' u' bs', vaddressFree s address size = some s' ∧
      FreePass address (address + size) [] l s u bs s' l' u' bs' := by
  have hf : l.length < s.slots + 1 := Nat.lt_succ_of_le h.length_le
  have hall : HeapOk s ([] ++ l) u bs := h
  rw [vaddressFree, h.allocated.head_eq]
  exact vaddressFreeLoop_pass address (address + size) hall hf

theorem vaddressFree_spec {s : VaddressSpace} {l u : List Node} {bs : List Nat}
    (h : HeapOk s l u bs) (address : Uintptr) (size : Size) :
    ∃ s' l' u' bs', vaddressFree s address size = some s' ∧ ListStep s s' l' u' bs' ∧
      l'.map (bounds s') =
        freeRegions address.toNat (address + size).toNat (l.map (bounds s)) := by
  obtain ⟨s', l', u', bs', hfree, hpass⟩ := vaddressFree_pass h address size
  obtain ⟨hstep, hmap⟩ := hpass.regions
  exact ⟨s', l', u', bs', hfree, hstep, hmap⟩

end Ukulele
