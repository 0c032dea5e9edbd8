import Ukulele.PmmRuns

/-! The allocator keeps no trace of an order: with the same ranges, the pages that are out
determine every descriptor and every control block.
-/

set_option autoImplicit false

namespace Bitset

variable {n w : Nat}

theorem members_inj {blk blk' : Fin n → BitVec w} (h : members blk = members blk') :
    blk = blk' := by
  have htest : ∀ k, test blk k = true ↔ test blk' k = true := by
    intro k
    rw [← mem_members, ← mem_members, h]
  funext i
  apply BitVec.eq_of_getLsbD_eq
  intro b hb
  have hword := htest (w * i.val + b)
  rw [test_word _ i hb, test_word _ i hb] at hword
  exact Bool.eq_iff_iff.mpr hword

end Bitset

namespace Ukulele

/-- Allocations, failed allocations and frees of pages that are out, from `s` with `L` out to
`t` with `M` out. -/
inductive PmmCalls (s : Machine) (L : Finset Physical) : Machine → Finset Physical → Prop where
  | nil : PmmCalls s L s L
  | take {t t' : Machine} {M : Finset Physical} {p : Physical} (prior : PmmCalls s L t M)
      (hp : p ≠ 0#64) (h : pmmAllocatePage t = .ok (p, t')) : PmmCalls s L t' (insert p M)
  | fail {t t' : Machine} {M : Finset Physical} (prior : PmmCalls s L t M)
      (h : pmmAllocatePage t = .ok (0#64, t')) : PmmCalls s L t' M
  | free {t t' : Machine} {M : Finset Physical} {p : Physical} (prior : PmmCalls s L t M)
      (hp : p ∈ M) (h : pmmFreePage t p = .ok t') : PmmCalls s L t' (M.erase p)

theorem pmmAllocatePage_cases {s t : Machine} {p : Physical} (h : pmmAllocatePage s = .ok (p, t)) :
    t = s ∨ ∃ i blk free, (s.pmm.entry i).active = true ∧ t = s.setBlock i blk free := by
  unfold pmmAllocatePage at h
  split at h
  · rename_i i hi
    right
    cases ha : pmmCtrlAlloc (s.mem (s.pmm.entry i).ctrl) with
    | error e => simp [ha, bind, Except.bind] at h
    | ok r =>
      simp only [ha, bind, Except.bind, pure, Except.pure, Except.ok.injEq, Prod.mk.injEq] at h
      exact ⟨i, _, _, (spaceEntry_some hi).1, h.2.symm⟩
  · left
    cases h
    rfl

theorem pmmFreePage_cases {s t : Machine} {p : Physical} (h : pmmFreePage s p = .ok t) :
    t = s ∨ ∃ i blk free, (s.pmm.entry i).active = true ∧ t = s.setBlock i blk free := by
  unfold pmmFreePage at h
  split at h
  · left
    cases h
    rfl
  · split at h
    · rename_i i hi
      right
      dsimp only at h
      generalize ((p - (s.pmm.entry i).physicalStart) / pageSize).toNat = k at h
      cases he : entryIndex (k / 64 : Nat) with
      | error e =>
        simp only [he, bind, Except.bind] at h
        cases h
      | ok j =>
        simp only [he, bind, Except.bind, pure, Except.pure] at h
        split at h
        · cases h
        · simp only [Except.ok.injEq] at h
          exact ⟨i, _, _, (owningEntry_some hi).1, h.symm⟩
    · contradiction

theorem PmmFrame.refl {s : Machine} (h : PmmOk s) : PmmFrame s s where
  ok := h
  entry_eq := fun _ => rfl
  mem_eq := fun _ _ => rfl
  cr3_eq := rfl

theorem PmmFrame.trans {s t u : Machine} (h : PmmFrame s t) (h' : PmmFrame t u) :
    PmmFrame s u where
  ok := h'.ok
  entry_eq := by
    intro i
    rw [h'.entry_eq i, h.entry_eq i]
  mem_eq := by
    intro q hq
    rw [h'.mem_eq q (h.control_eq ▸ hq), h.mem_eq q hq]
  cr3_eq := h'.cr3_eq.trans h.cr3_eq

theorem PmmFrame.active_eq {s t : Machine} (h : PmmFrame s t) (i : Fin 168) :
    (t.pmm.entry i).active = (s.pmm.entry i).active := by
  rw [h.entry_eq i]

theorem PmmFrame.owningEntry_eq {s t : Machine} (h : PmmFrame s t) (p : Physical) :
    owningEntry t.pmm p = owningEntry s.pmm p := by
  unfold owningEntry
  congr 1
  funext i
  rw [h.entry_eq i]

/-- A state that differs from `s` in counters and control blocks of active entries only. -/
structure PmmMoved (s t : Machine) : Prop extends PmmFrame s t where
  inactive_eq : ∀ i, (s.pmm.entry i).active = false → t.pmm.entry i = s.pmm.entry i

theorem PmmMoved.trans {s t u : Machine} (h : PmmMoved s t) (h' : PmmMoved t u) :
    PmmMoved s u where
  toPmmFrame := h.toPmmFrame.trans h'.toPmmFrame
  inactive_eq := by
    intro i hi
    rw [h'.inactive_eq i ((h.active_eq i).trans hi), h.inactive_eq i hi]

theorem PmmOk.mem_members_iff {s : Machine} (h : PmmOk s) {i : Fin 168}
    (hi : (s.pmm.entry i).active = true) {k : Nat} :
    k ∈ Bitset.members (s.mem (s.pmm.entry i).ctrl) ↔
      k < (s.pmm.entry i).maxPages.toNat ∧ (s.pmm.entry i).pageAt k ∉ usedPages s := by
  constructor
  · intro hk
    have hlt := (h.block i hi).bits_lt k hk
    refine ⟨hlt, ?_⟩
    intro hused
    obtain ⟨j, hj, l, hl, hn, he⟩ := (mem_usedPages h).mp hused
    obtain ⟨rfl, rfl⟩ := h.pageAt_unique hj hi hl hlt he
    exact hn hk
  · rintro ⟨hlt, hused⟩
    by_contra hk
    exact hused ((mem_usedPages h).mpr ⟨i, hi, k, hlt, hk, rfl⟩)

theorem PmmMoved.eq_of_used {s t u : Machine} (ht : PmmMoved s t) (hu : PmmMoved s u)
    (hused : usedPages t = usedPages u) : t = u := by
  have hblock : ∀ i, (s.pmm.entry i).active = true →
      t.mem (s.pmm.entry i).ctrl = u.mem (s.pmm.entry i).ctrl := by
    intro i hi
    have htm := @PmmOk.mem_members_iff t ht.ok i ((ht.active_eq i).trans hi)
    have hum := @PmmOk.mem_members_iff u hu.ok i ((hu.active_eq i).trans hi)
    rw [ht.entry_eq i] at htm
    rw [hu.entry_eq i, ← hused] at hum
    apply Bitset.members_inj
    ext k
    exact htm.trans hum.symm
  have hmem : t.mem = u.mem := by
    funext q
    by_cases hq : q ∈ s.pmm.controlPages
    · obtain ⟨i, hi, rfl⟩ := mem_controlPages.mp hq
      exact hblock i hi
    · rw [ht.mem_eq q hq, hu.mem_eq q hq]
  have hentry : t.pmm.entry = u.pmm.entry := by
    funext i
    cases hi : (s.pmm.entry i).active with
    | false => exact (ht.inactive_eq i hi).trans (hu.inactive_eq i hi).symm
    | true =>
      have htc := (ht.ok.block i ((ht.active_eq i).trans hi)).count
      have huc := (hu.ok.block i ((hu.active_eq i).trans hi)).count
      rw [ht.entry_eq i] at htc
      rw [hu.entry_eq i] at huc
      have hcount : (t.pmm.entry i).freePages = (u.pmm.entry i).freePages := by
        apply BitVec.eq_of_toNat_eq
        rw [← htc, ← huc, hblock i hi]
      rw [ht.entry_eq i, hu.entry_eq i, hcount]
  have hcr3 : t.cr3 = u.cr3 := ht.cr3_eq.trans hu.cr3_eq.symm
  cases t with
  | mk tm tp tc =>
    cases u with
    | mk um up uc =>
      cases tp
      cases up
      simp_all

theorem setBlock_inactive (s : Machine) {i j : Fin 168} (hj : (s.pmm.entry j).active = true)
    (hi : (s.pmm.entry i).active = false) (blk : RawPage) (free : BitVec 16) :
    (s.setBlock j blk free).pmm.entry i = s.pmm.entry i := by
  have hne : i ≠ j := by
    rintro rfl
    rw [hi] at hj
    contradiction
  exact Function.update_of_ne hne ..

theorem Allocated.moved {s t : Machine} {p : Physical} (ha : Allocated s p t)
    (h : pmmAllocatePage s = .ok (p, t)) : PmmMoved s t where
  toPmmFrame := ha.toPmmFrame
  inactive_eq := by
    intro i hi
    rcases pmmAllocatePage_cases h with rfl | ⟨j, blk, free, hj, rfl⟩
    · rfl
    · exact setBlock_inactive s hj hi blk free

theorem Freed.moved {s t : Machine} {p : Physical} (hf : Freed s p t)
    (h : pmmFreePage s p = .ok t) : PmmMoved s t where
  toPmmFrame := hf.toPmmFrame
  inactive_eq := by
    intro i hi
    rcases pmmFreePage_cases h with rfl | ⟨j, blk, free, hj, rfl⟩
    · rfl
    · exact setBlock_inactive s hj hi blk free

theorem pmmAllocatePage_moved {s t : Machine} {p : Physical} (h : PmmOk s) (hp : p ≠ 0#64)
    (hok : pmmAllocatePage s = .ok (p, t)) :
    PmmMoved s t ∧ usedPages t = insert p (usedPages s) ∧ p ∉ usedPages s := by
  rcases pmmAllocatePage_spec h with ⟨-, he⟩ | ⟨q, t', he, ha⟩
  · rw [hok] at he
    cases he
    exact absurd rfl hp
  · rw [hok] at he
    cases he
    exact ⟨ha.moved hok, ha.used_eq h, fun hu => (Finset.mem_sdiff.mp hu).2 ha.was_free⟩

theorem pmmAllocatePage_failed {s t : Machine} (h : PmmOk s)
    (hok : pmmAllocatePage s = .ok (0#64, t)) : t = s := by
  rcases pmmAllocatePage_spec h with ⟨-, he⟩ | ⟨q, t', he, ha⟩
  · rw [hok] at he
    cases he
    rfl
  · rw [hok] at he
    cases he
    exact absurd rfl (h.managed_ne_zero (h.free_subset_managed ha.was_free))

theorem pmmFreePage_moved {s t : Machine} {p : Physical} (h : PmmOk s) (hp : p ∈ usedPages s)
    (hok : pmmFreePage s p = .ok t) : PmmMoved s t ∧ usedPages t = (usedPages s).erase p := by
  have hf := pmmFreePage_freed h hp hok
  exact ⟨hf.moved hok, hf.used_eq⟩

theorem PmmCalls.moved {s t : Machine} {L M : Finset Physical} (h : PmmCalls s L t M)
    (hs : PmmOk s) (hL : usedPages s = L) : PmmMoved s t ∧ usedPages t = M := by
  induction h with
  | nil => exact ⟨⟨PmmFrame.refl hs, fun _ _ => rfl⟩, hL⟩
  | take prior hp h ih =>
    obtain ⟨hmoved, rfl⟩ := ih
    obtain ⟨hstep, hused, -⟩ := pmmAllocatePage_moved hmoved.ok hp h
    exact ⟨hmoved.trans hstep, hused⟩
  | fail prior h ih =>
    obtain ⟨hmoved, hused⟩ := ih
    rw [pmmAllocatePage_failed hmoved.ok h]
    exact ⟨hmoved, hused⟩
  | free prior hp h ih =>
    obtain ⟨hmoved, rfl⟩ := ih
    obtain ⟨hstep, hused⟩ := pmmFreePage_moved hmoved.ok hp h
    exact ⟨hmoved.trans hstep, hused⟩

def freeAll (s : Machine) (l : List Physical) : Except Fault Machine := l.foldlM pmmFreePage s

theorem freeAll_cons (s : Machine) (p : Physical) (l : List Physical) :
    freeAll s (p :: l) = (pmmFreePage s p).bind fun t => freeAll t l := rfl

theorem pmmFreePage_returns_iff {s : Machine} {p : Physical} (h : PmmOk s)
    (hp : p ∈ usedPages s) :
    (∃ t, pmmFreePage s p = .ok t) ↔ owningEntry s.pmm p ≠ none := by
  obtain ⟨hm, hnf⟩ := Finset.mem_sdiff.mp hp
  obtain ⟨i, hi, k, hk, rfl⟩ := mem_managedPages.mp hm
  cases ho : owningEntry s.pmm ((s.pmm.entry i).pageAt k) with
  | none => simp [pmmFreePage, (h.block i hi).pageAt_ne_zero hk, ho]
  | some j =>
    rw [owningEntry_eq h hi hk ho] at ho
    obtain ⟨t, ht, -⟩ := pmmFreePage_owned h hi hk hnf ho
    simp [ht]

theorem freeAll_moved {s t : Machine} {L : Finset Physical} {l : List Physical} (h : PmmOk s)
    (hL : usedPages s = L) (hnodup : l.Nodup) (hl : ∀ p ∈ l, p ∈ L) (hok : freeAll s l = .ok t) :
    PmmMoved s t ∧ usedPages t = L \ l.toFinset := by
  induction l generalizing s L with
  | nil =>
    cases hok
    exact ⟨⟨PmmFrame.refl h, fun _ _ => rfl⟩, by simp [hL]⟩
  | cons p l ih =>
    subst hL
    obtain ⟨hp, hnodup⟩ := List.nodup_cons.mp hnodup
    cases hf : pmmFreePage s p with
    | error e => simp [freeAll_cons, hf, Except.bind] at hok
    | ok s' =>
      rw [freeAll_cons, hf] at hok
      obtain ⟨hstep, hused⟩ := pmmFreePage_moved h (hl p (by simp)) hf
      have hrest : ∀ q ∈ l, q ∈ (usedPages s).erase p := by
        intro q hq
        refine Finset.mem_erase.mpr ⟨?_, hl q (by simp [hq])⟩
        rintro rfl
        exact hp hq
      obtain ⟨hmoved, hlast⟩ := ih hstep.ok hused hnodup hrest hok
      refine ⟨hstep.trans hmoved, ?_⟩
      rw [hlast, List.toFinset_cons, Finset.sdiff_insert, Finset.erase_sdiff_comm]

theorem freeAll_returns_iff {s : Machine} {l : List Physical} (h : PmmOk s) (hnodup : l.Nodup)
    (hl : ∀ p ∈ l, p ∈ usedPages s) :
    (∃ t, freeAll s l = .ok t) ↔ ∀ p ∈ l, owningEntry s.pmm p ≠ none := by
  induction l generalizing s with
  | nil => simp [freeAll, pure, Except.pure]
  | cons p l ih =>
    obtain ⟨hp, hnodup⟩ := List.nodup_cons.mp hnodup
    have hhead := pmmFreePage_returns_iff h (hl p (by simp))
    rw [List.forall_mem_cons, ← hhead]
    cases hf : pmmFreePage s p with
    | error e => simp [freeAll_cons, hf, Except.bind]
    | ok s' =>
      obtain ⟨hstep, hused⟩ := pmmFreePage_moved h (hl p (by simp)) hf
      have hrest : ∀ q ∈ l, q ∈ usedPages s' := by
        intro q hq
        rw [hused]
        refine Finset.mem_erase.mpr ⟨?_, hl q (by simp [hq])⟩
        rintro rfl
        exact hp hq
      have htail := ih hstep.ok hnodup hrest
      simp only [hstep.owningEntry_eq] at htail
      simpa [freeAll_cons, hf, Except.bind] using htail

theorem freeAll_perm {s t : Machine} {l l' : List Physical} (h : PmmOk s) (hnodup : l.Nodup)
    (hl : ∀ p ∈ l, p ∈ usedPages s) (hperm : l.Perm l') (hok : freeAll s l = .ok t) :
    freeAll s l' = .ok t := by
  have hl' : ∀ p ∈ l', p ∈ usedPages s := fun p hp => hl p (hperm.mem_iff.mpr hp)
  have hown := (freeAll_returns_iff h hnodup hl).mp ⟨t, hok⟩
  obtain ⟨u, hu⟩ := (freeAll_returns_iff h (hperm.nodup_iff.mp hnodup) hl').mpr
    (fun p hp => hown p (hperm.mem_iff.mpr hp))
  obtain ⟨ht, htused⟩ := freeAll_moved h rfl hnodup hl hok
  obtain ⟨hmoved, huused⟩ := freeAll_moved h rfl (hperm.nodup_iff.mp hnodup) hl' hu
  rw [ht.eq_of_used hmoved (by rw [htused, huused, List.toFinset_eq_of_perm l l' hperm]), hu]

theorem pmmFreePage_pmmAllocatePage {s s' t : Machine} {p : Physical} (h : PmmOk s)
    (hp : p ≠ 0#64) (ha : pmmAllocatePage s = .ok (p, s')) (hf : pmmFreePage s' p = .ok t) :
    t = s := by
  obtain ⟨htake, hused, hnot⟩ := pmmAllocatePage_moved h hp ha
  obtain ⟨hfree, hused'⟩ := pmmFreePage_moved htake.ok (by simp [hused]) hf
  have hrefl : PmmMoved s s := ⟨PmmFrame.refl h, fun _ _ => rfl⟩
  refine (htake.trans hfree).eq_of_used hrefl ?_
  rw [hused', hused, Finset.erase_insert hnot]

/-- Runs of allocations and frees that end with the same pages out end in the same state:
frees of a set of pages in any order do, and freeing a page just allocated goes back to the
state before. Every such free returns, if no range ends the address space. -/
theorem pmm_pages_out_determine_state {s : Machine} {R : List PmmRange} {L : Finset Physical}
    (h : PmmRun s R L) :
    (∀ t u M, PmmCalls s L t M → PmmCalls s L u M → t = u) ∧
    (∀ l l' t, l.Nodup → (∀ p ∈ l, p ∈ L) → l.Perm l' → freeAll s l = .ok t →
      freeAll s l' = .ok t) ∧
    (∀ p s' t, p ≠ 0#64 → pmmAllocatePage s = .ok (p, s') → pmmFreePage s' p = .ok t → t = s) ∧
    ((∀ r ∈ R, r.stop < 2 ^ 64) →
      ∀ t M p, PmmCalls s L t M → p ∈ M → ∃ t', pmmFreePage t p = .ok t') := by
  have hi := h.invariant
  refine ⟨?_, ?_, ?_, ?_⟩
  · intro t u M ht hu
    obtain ⟨htm, htused⟩ := ht.moved hi.ok hi.live
    obtain ⟨hum, huused⟩ := hu.moved hi.ok hi.live
    exact htm.eq_of_used hum (htused.trans huused.symm)
  · intro l l' t hnodup hl hperm hok
    rw [← hi.live] at hl
    exact freeAll_perm hi.ok hnodup hl hperm hok
  · intro p s' t hp ha hf
    exact pmmFreePage_pmmAllocatePage hi.ok hp ha hf
  · intro hstop t M p ht hp
    obtain ⟨hmoved, rfl⟩ := ht.moved hi.ok hi.live
    obtain ⟨t', ht', -⟩ := pmmFreePage_spec hmoved.ok hp (by
      intro i hact
      obtain ⟨r, hr, -, hle⟩ := (hi.frame hmoved.toPmmFrame).inside i hact
      have := hstop r hr
      omega)
    exact ⟨t', ht'⟩

theorem pmm_pages_out_determine_state_example : ∃ s s', PmmRun s [exampleRange] ∅ ∧
    pmmAllocatePage s = .ok (0x101000#64, s') ∧ pmmFreePage s' 0x101000#64 = .ok s := by
  obtain ⟨s, hrun, hfirst⟩ := exampleRange_run
  cases h : pmmAllocatePage s with
  | error e => simp [h, Except.map] at hfirst
  | ok r =>
    obtain ⟨p, s'⟩ := r
    have hp : p = 0x101000#64 := by simpa [h, Except.map] using hfirst
    subst hp
    obtain ⟨-, -, hback, hreturns⟩ := pmm_pages_out_determine_state hrun
    obtain ⟨t, ht⟩ := hreturns (by decide) s' _ 0x101000#64
      (PmmCalls.nil.take (by decide) h) (by simp)
    refine ⟨s, s', hrun, h, ?_⟩
    rw [ht, hback 0x101000#64 s' t (by decide) h ht]

end Ukulele
