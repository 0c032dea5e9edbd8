import Ukulele.MmuEffects

/-! `mmu_remove`. It does its work where the tables of the range are there. Where one is
missing, the pass over the leaf entries goes on with page 0 in its place.
-/

set_option autoImplicit false

namespace Ukulele
open RadixTree

/-- The call unmaps the addresses of the range and no others, and stores in no pages but the
tables and the control blocks. -/
def RemovesExactly (s : Machine) (top : MmuPageMapPart) (t : Physical) (T : PageTree 3)
    (address : Uintptr) (size : Size) : Prop :=
  ∃ s', mmuRemove s top address size = .ok s' ∧
    (∀ v, mmuIsCanonicalAddress v = true → translate s' top v =
      if InRange address size v then .ok ⟨0#64, pageMapDepthInvalid⟩ else translate s top v) ∧
    ∀ q ∉ insert t (tables T), q ∉ s.pmm.controlPages → s'.mem q = s.mem q

structure Cleared (s s' : Machine) : Prop where
  pmm_eq : s'.pmm = s.pmm
  cr3_eq : s'.cr3 = s.cr3
  word : ∀ q i, s'.mem q i = s.mem q i ∨ s'.mem q i = 0#64

theorem Cleared.refl (s : Machine) : Cleared s s := ⟨rfl, rfl, fun _ _ => Or.inl rfl⟩

theorem Cleared.trans {s s₁ s₂ : Machine} (h₁ : Cleared s s₁) (h₂ : Cleared s₁ s₂) :
    Cleared s s₂ := by
  refine ⟨h₂.pmm_eq.trans h₁.pmm_eq, h₂.cr3_eq.trans h₁.cr3_eq, ?_⟩
  intro q i
  rcases h₂.word q i with h | h
  · rw [h]
    exact h₁.word q i
  · exact Or.inr h

theorem Cleared.zero {s s' : Machine} (h : Cleared s s') {q : Physical} {i : Fin 512}
    (hz : s.mem q i = 0#64) : s'.mem q i = 0#64 := by
  rcases h.word q i with he | he
  · rw [he, hz]
  · exact he

theorem Cleared.assign {s₀ s : Machine} (h : Cleared s₀ s) (entry : EntryPtr) :
    Cleared s₀ (s.assign entry 0#64) := by
  apply h.trans
  refine ⟨rfl, rfl, ?_⟩
  intro q i
  by_cases hq : q = entry.table
  · subst hq
    by_cases hi : i = entry.index
    · subst hi
      right
      rw [show (entry : EntryPtr) = ⟨entry.table, entry.index⟩ from rfl, assign_mem,
        Function.update_self]
    · left
      rw [show (entry : EntryPtr) = ⟨entry.table, entry.index⟩ from rfl, assign_mem,
        Function.update_of_ne hi]
  · left
    rw [show (entry : EntryPtr) = ⟨entry.table, entry.index⟩ from rfl, assign_mem_ne _ _ _ hq]

/-- Page 0, read as a table, leads nowhere but to page 0. -/
def SinkPage (s : Machine) : Prop := ∀ i, s.mem 0#64 i &&& mmuRegPhysAddressMask = 0#64

theorem SinkPage.cleared {s s' : Machine} (h : SinkPage s) (hc : Cleared s s') : SinkPage s' := by
  intro i
  rcases hc.word 0#64 i with he | he
  · rw [he]
    exact h i
  · rw [he, BitVec.zero_and]

def SinkHit (s s' : Machine) : Prop := Cleared s s' ∧ ∃ i, s'.mem 0#64 i = 0#64

theorem SinkHit.step {s s₁ s₂ : Machine} (h : Cleared s s₁) (h₂ : SinkHit s₁ s₂) :
    SinkHit s s₂ := ⟨h.trans h₂.1, h₂.2⟩

theorem SinkHit.stays {s s₁ s₂ : Machine} (h : SinkHit s s₁) (h₂ : Cleared s₁ s₂) :
    SinkHit s s₂ := by
  obtain ⟨hc, i, hi⟩ := h
  exact ⟨hc.trans h₂, i, h₂.zero hi⟩

section Sink

variable {loc : NodeCommandLoc} {n B a b : Nat} {s : Machine}

theorem leaf_cleared {fuel : Nat} (hfuel : n ≤ fuel) (h : LocAt loc n B a b) :
    Outcome (fun _ => False) (Cleared s)
      (applyNodes loc (nodeCallbackLeaf leafCallbackClear fuel) s) :=
  leaf_inTables clear_storesAt (fun _ entry _ hc => hc.assign entry) h.depth hfuel (h.inTables n)
    (Cleared.refl s)

theorem LocAt.hit (h : LocAt loc n B a b) {visit : NodeCallback} (j : Nat)
    (hj : Meets a b (width 512 n) j)
    (hvisit : ∀ (i : Nat) (hi : i < 512), Meets a b (width 512 n) i → ∀ s₁, Cleared s s₁ →
      Outcome (fun _ => False) (fun s₂ => Cleared s₁ s₂ ∧ (i = j → SinkHit s₁ s₂))
        (visit (loc.child i (s₁.load ⟨loc.page.page, ⟨i, hi⟩⟩)) ⟨loc.page.page, ⟨i, hi⟩⟩ s₁)) :
    Outcome (fun _ => False) (SinkHit s) (applyNodes loc visit s) := by
  have hw := h.width_pos
  have hrange := (meets_iff hw).mp hj
  have hrun : Outcome (fun _ => False) _ (applyNodes loc visit s) := h.loop
    (fun k s₁ => Cleared s s₁ ∧ (j < k → SinkHit s s₁))
    (by
      intro i hi hm s₁ ⟨hc, hhit⟩
      apply (hvisit i hi hm s₁ hc).mono (fun e he => he)
      intro s₂ ⟨hc₂, hhit₂⟩
      refine ⟨hc.trans hc₂, ?_⟩
      intro hlt
      by_cases hij : i = j
      · exact SinkHit.step hc (hhit₂ hij)
      · exact (hhit (by omega)).stays hc₂)
    ⟨Cleared.refl s, fun hlt => absurd hlt (by omega)⟩
  apply hrun.mono (fun e he => he)
  intro s' ⟨_, hhit⟩
  exact hhit hrange.2

theorem leaf_hits_sink (n : Nat) : ∀ {fuel : Nat} {loc : NodeCommandLoc} {B a b : Nat}
    {s : Machine}, n ≤ fuel → LocAt loc n B a b → loc.page.page = 0#64 → SinkPage s →
    Outcome (fun _ => False) (SinkHit s)
      (applyNodes loc (nodeCallbackLeaf leafCallbackClear fuel) s) := by
  induction n with
  | zero =>
    intro fuel loc B a b s _ hloc hpage _
    have hfirst : Meets a b (width 512 0) a := by
      have hone : width 512 0 = 1 := rfl
      have := hloc.lt
      rw [Meets, hone]
      omega
    apply hloc.hit a hfirst
    intro i hi _ s₁ _
    rw [nodeCallbackLeaf_bottom _ _ (hloc.child_bottom _ _)]
    have hc : Cleared s₁ (s₁.assign ⟨loc.page.page, ⟨i, hi⟩⟩ 0#64) := (Cleared.refl s₁).assign _
    refine ⟨hc, fun _ => ⟨hc, ⟨i, hi⟩, ?_⟩⟩
    rw [← hpage, assign_mem, Function.update_self]
  | succ n ih =>
    intro fuel loc B a b s hfuel hloc hpage hsink
    cases fuel with
    | zero => omega
    | succ fuel =>
      have hw := hloc.width_pos
      apply hloc.hit _ (meets_div hw (Nat.le_refl a) hloc.lt)
      intro i hi hm s₁ hc
      have hchild := hloc.child hm (s₁.load ⟨loc.page.page, ⟨i, hi⟩⟩)
      have hsink₁ := hsink.cleared hc
      have hzero : (loc.child i (s₁.load ⟨loc.page.page, ⟨i, hi⟩⟩)).page.page = 0#64 := by
        rw [hpage]
        exact hsink₁ ⟨i, hi⟩
      rw [nodeCallbackLeaf_below _ _ hchild.depth_le]
      apply (ih (by omega) hchild hzero hsink₁).mono (fun e he => he)
      exact fun s₂ h => ⟨h.1, fun _ => h⟩

theorem not_covered_read {mem : Memory} {p : Physical} {k : Nat} (hk : k / span 512 n < 512) :
    ¬ Covered (n + 1) (read entryCoding mem (n + 1) p) k ↔
      (entryCoding.present (mem p ⟨k / span 512 n, hk⟩) = true →
        ¬ Covered n (read entryCoding mem n (entryCoding.addr (mem p ⟨k / span 512 n, hk⟩)))
          (k % span 512 n)) := by
  have hread : (read entryCoding mem (n + 1) p) ⟨k / span 512 n, hk⟩ =
      readSlot entryCoding mem n (mem p ⟨k / span 512 n, hk⟩) := rfl
  cases hp : entryCoding.present (mem p ⟨k / span 512 n, hk⟩) with
  | false =>
    rw [readSlot_absent entryCoding hp] at hread
    simp only [Covered, hread, Bool.false_eq_true, false_implies, iff_true]
    rintro ⟨_, w, t, ht, _⟩
    contradiction
  | true =>
    rw [readSlot_table entryCoding hp rfl] at hread
    simp only [Covered, hread, Slot.table.injEq, true_implies]
    constructor
    · intro h hc
      exact h ⟨hk, _, _, ⟨rfl, rfl⟩, hc⟩
    · rintro h ⟨_, w, t, ⟨rfl, rfl⟩, hc⟩
      exact h hc

theorem Cleared.not_covered {s' : Machine} (h : Cleared s s') (n : Nat) :
    ∀ {p : Physical} {k : Nat}, k < span 512 n → ¬ Covered n (pageTree s n p) k →
    ¬ Covered n (pageTree s' n p) k := by
  induction n with
  | zero =>
    intro p k _ hk
    exact hk
  | succ n ih =>
    intro p k hlt hk
    have hi := div_lt_of_lt_span hlt
    have hmod : k % span 512 n < span 512 n := key_lt_span k n
    unfold pageTree at hk ⊢
    rw [not_covered_read hi] at hk ⊢
    intro hp
    rcases h.word p ⟨k / span 512 n, hi⟩ with he | he
    · rw [he] at hp ⊢
      exact ih hmod (hk hp)
    · rw [he] at hp
      contradiction

theorem Cleared.clean {s' : Machine} (h : Cleared s s') (n : Nat) :
    ∀ {p : Physical}, Clean entryCoding 0#64 n (pageTree s n p) →
    Clean entryCoding 0#64 n (pageTree s' n p) := by
  induction n with
  | zero =>
    intro p hclean i hi
    have hmem : ∀ s : Machine, (pageTree s 0 p) i = s.mem p i := fun _ => rfl
    rw [hmem] at hi ⊢
    rcases h.word p i with he | he
    · rw [he] at hi ⊢
      exact hclean i hi
    · exact he
  | succ n ih =>
    intro p hclean i
    have hread : ∀ s : Machine, (pageTree s (n + 1) p) i =
        readSlot entryCoding s.mem n (s.mem p i) := fun _ => rfl
    rcases h.word p i with he | he
    · rcases hclean i with ha | ⟨w, t, ht, hbelow⟩
      · obtain ⟨hw, hp⟩ := read_absent entryCoding ha
        left
        rw [hread, he, hw]
        exact readSlot_absent entryCoding not_present_zero
      · obtain ⟨hw, hp, rfl⟩ := read_table entryCoding ht
        right
        refine ⟨w, _, ?_, ih hbelow⟩
        rw [hread, he, hw]
        exact readSlot_table entryCoding hp rfl
    · left
      rw [hread, he]
      exact readSlot_absent entryCoding not_present_zero

theorem leaf_hits_missing (n : Nat) : ∀ {fuel : Nat} {loc : NodeCommandLoc} {B a b k : Nat}
    {s : Machine}, n ≤ fuel → LocAt loc n B a b → SinkPage s →
    Clean entryCoding 0#64 n (pageTree s n loc.page.page) → a ≤ k → k < b →
    ¬ Covered n (pageTree s n loc.page.page) k →
    Outcome (fun _ => False) (SinkHit s)
      (applyNodes loc (nodeCallbackLeaf leafCallbackClear fuel) s) := by
  induction n with
  | zero =>
    intro fuel loc B a b k s _ hloc _ _ _ hb hk
    exact absurd (Nat.lt_of_lt_of_le hb hloc.le) hk
  | succ n ih =>
    intro fuel loc B a b k s hfuel hloc hsink hclean ha hb hk
    cases fuel with
    | zero => omega
    | succ fuel =>
      have hw : 0 < span 512 n := hloc.width_pos
      have hlt : k < span 512 (n + 1) := Nat.lt_of_lt_of_le hb hloc.le
      have hi := div_lt_of_lt_span hlt
      apply hloc.hit _ (meets_div hw ha hb)
      intro i hi' hm s₁ hc
      have hchild := hloc.child hm (s₁.load ⟨loc.page.page, ⟨i, hi'⟩⟩)
      rw [nodeCallbackLeaf_below _ _ hchild.depth_le]
      cases Classical.em (i = k / span 512 n) with
      | inr hne =>
        apply (leaf_cleared (by omega) hchild).mono (fun e he => he)
        exact fun s₂ hc₂ => ⟨hc₂, fun he => absurd he hne⟩
      | inl he =>
        subst he
        have hsink₁ := hsink.cleared hc
        have hk₁ := hc.not_covered (n + 1) hlt hk
        have hclean₁ := hc.clean (n + 1) hclean
        have hentry := hclean₁.entry entryCoding ⟨k / span 512 n, hi⟩
        have hpage : (loc.child ((k / span 512 n : Nat) : Int)
            (s₁.load ⟨loc.page.page, ⟨k / span 512 n, hi⟩⟩)).page.page =
            entryCoding.addr (s₁.mem loc.page.page ⟨k / span 512 n, hi⟩) := rfl
        have hhit : Outcome (fun _ => False) (SinkHit s₁)
            (applyNodes (loc.child ((k / span 512 n : Nat) : Int)
              (s₁.load ⟨loc.page.page, ⟨k / span 512 n, hi⟩⟩))
              (nodeCallbackLeaf leafCallbackClear fuel) s₁) := by
          cases hp : entryCoding.present (s₁.mem loc.page.page ⟨k / span 512 n, hi⟩) with
          | true =>
            have hbelow := (not_covered_read hi).mp hk₁ hp
            have hclean₂ := hentry.2 hp
            rw [← hpage] at hbelow hclean₂
            exact ih (by omega) hchild hsink₁ hclean₂ ((lower_le_mod hw).mpr ha)
              ((mod_lt_upper hw).mpr hb) hbelow
          | false =>
            have hzero : entryCoding.addr (s₁.mem loc.page.page ⟨k / span 512 n, hi⟩) = 0#64 := by
              rw [hentry.1 hp]
              rfl
            exact leaf_hits_sink n (by omega) hchild (hpage.trans hzero) hsink₁
        exact hhit.mono (fun e he => he) (fun s₂ h => ⟨h.1, fun _ => h⟩)

end Sink

/-- A word of page 0 is clear, and the allocator has no control block there. -/
def SinkClear (i : Fin 512) (s : Machine) : Prop :=
  s.mem 0#64 i = 0#64 ∧ ∀ j, (s.pmm.entry j).active = true → (s.pmm.entry j).ctrl ≠ 0#64

theorem SinkClear.assign {i : Fin 512} {s : Machine} (h : SinkClear i s) (entry : EntryPtr) :
    SinkClear i (s.assign entry 0#64) :=
  ⟨((Cleared.refl s).assign entry).zero h.1, h.2⟩

theorem SinkClear.pmmFreePage {i : Fin 512} {s : Machine} (h : SinkClear i s) (p : Physical) :
    Outcome (fun _ => True) (SinkClear i) (Ukulele.pmmFreePage s p) := by
  unfold Ukulele.pmmFreePage
  split
  · exact h
  cases ho : owningEntry s.pmm p with
  | none => trivial
  | some j =>
    have hj := (owningEntry_some ho).1
    simp only
    cases hidx : entryIndex (((p - (s.pmm.entry j).physicalStart) / pageSize).toNat / 64 : Nat) with
    | error e => trivial
    | ok k =>
      simp only [bind, Except.bind, pure, Except.pure]
      split
      · trivial
      refine ⟨?_, ?_⟩
      · change Function.update s.mem _ _ 0#64 i = 0#64
        rw [Function.update_of_ne (h.2 j hj).symm]
        exact h.1
      · intro l hl
        simp only at hl ⊢
        by_cases hlj : l = j
        · subst hlj
          rw [Function.update_self]
          exact h.2 l hj
        · rw [Function.update_of_ne hlj] at hl ⊢
          exact h.2 l hl

theorem nodeCallbackGc_keeps {i : Fin 512} (fuel : Nat) : ∀ {loc : NodeCommandLoc}
    {entry : EntryPtr} {s : Machine}, SinkClear i s →
    Outcome (fun _ => True) (SinkClear i) (nodeCallbackGc fuel loc entry s) := by
  induction fuel with
  | zero =>
    intro loc entry s h
    apply nodeCallbackGc_of_below (fun _ entry h => h.assign entry)
      (fun _ p h => h.pmmFreePage p) entry h
    unfold gcBelow
    split
    · trivial
    · exact h
  | succ fuel ih =>
    intro loc entry s h
    apply nodeCallbackGc_of_below (fun _ entry h => h.assign entry)
      (fun _ p h => h.pmmFreePage p) entry h
    unfold gcBelow
    split
    · exact applyNodesLoop_keeps (fun _ _ _ hs => ih hs) _ h
    · exact h

def Machine.withPage (s : Machine) (p : Physical) (contents : RawPage) : Machine :=
  { s with mem := Function.update s.mem p contents }

@[simp] theorem withPage_mem (s : Machine) (p : Physical) (contents : RawPage) :
    (s.withPage p contents).mem p = contents := by
  simp [Machine.withPage]

section Calls

variable {s : Machine} {top : MmuPageMapPart} {t : Physical} {T : PageTree 3}
  {address : Uintptr} {size : Size}

theorem withPage_mem_ne (s : Machine) {p q : Physical} (h : q ≠ p) (contents : RawPage) :
    (s.withPage p contents).mem q = s.mem q := Function.update_of_ne h ..

theorem PmmOk.withPage (h : PmmOk s) {p : Physical} (hc : p ∉ s.pmm.controlPages)
    (contents : RawPage) :
    PmmOk (s.withPage p contents) ∧ freePages (s.withPage p contents) = freePages s := by
  have hpmm : (s.withPage p contents).pmm = s.pmm := rfl
  refine h.congr hpmm ?_
  intro q hq
  apply withPage_mem_ne
  rintro rfl
  exact hc hq

theorem TopOk.withPage (h : TopOk s top t T) {p : Physical} (hp : p ∉ insert t (tables T))
    (hc : p ∉ s.pmm.controlPages) (contents : RawPage) :
    TopOk (s.withPage p contents) top t T := by
  obtain ⟨hok, hfree⟩ := h.pmm.withPage hc contents
  have hread : pageTree (s.withPage p contents) 3 t = T := by
    rw [← h.tree.read_eq]
    apply read_congr
    intro q hq
    apply withPage_mem_ne
    rintro rfl
    apply hp
    rw [← h.tree.read_eq]
    exact hq
  refine ⟨h.resolved, h.aligned, ⟨hread, h.tree.separated, h.tree.root, ?_, h.tree.not_control⟩,
    h.entries, hok⟩
  rw [hfree]
  exact h.tree.not_free

theorem zero_notMem_tables {n : Nat} {T : PageTree n} (h : AllTables TableEntry n T) :
    0#64 ∉ tables T := by
  induction n with
  | zero =>
    rw [tables, pages_zero]
    exact Finset.notMem_empty _
  | succ n ih =>
    intro hz
    obtain ⟨i, hi⟩ := (mem_pages entryCoding).mp hz
    cases hT : T i with
    | absent w =>
      rw [hT] at hi
      exact Finset.notMem_empty _ hi
    | table w c =>
      obtain ⟨hw, hc⟩ := h i w c hT
      rw [hT, slotPages_of_table] at hi
      rcases Finset.mem_insert.mp hi with he | hin
      · exact hw.2 he.symm
      · exact ih hc hin

def sinkContents : RawPage := fun _ => mmuRegWrite

/-- Where a table of the range is missing, page 0 may lose a word. -/
theorem not_removes_missing (h : TopOk s top t T) (hclean : Clean entryCoding 0#64 3 T)
    (hc : EntryChecks s ⟨top, address, address + size⟩) (hend : address + size ≤ lastEntryStart)
    (hout : 0#64 ∉ insert t (tables T)) (hctrl : 0#64 ∉ s.pmm.controlPages) {v : Uintptr}
    (hv : InRange address size v) (hmiss : ¬ Covered 3 T (pageKey v)) :
    ¬ RemovesExactly (s.withPage 0#64 sinkContents) top t T address size := by
  intro ⟨s', hrun, _, hframe⟩
  have h₀ := h.withPage hout hctrl sinkContents
  have hc₀ : EntryChecks (s.withPage 0#64 sinkContents) ⟨top, address, address + size⟩ :=
    hc.congr rfl
  have hpage := withPage_mem s 0#64 sinkContents
  have hsink : SinkPage (s.withPage 0#64 sinkContents) := by
    intro i
    rw [hpage]
    exact (by decide : mmuRegWrite &&& mmuRegPhysAddressMask = 0#64)
  have hkey := (hc.key_iff hv.1).mp hv
  have henter := hc₀.enters h₀.resolved
  have hhit : Outcome (fun _ => False) (SinkHit (s.withPage 0#64 sinkContents))
      (applyNodesEntry ⟨top, address, address + size⟩
        (nodeCallbackLeaf leafCallbackClear walkFuel) (s.withPage 0#64 sinkContents)) := by
    rw [henter _ _ rfl]
    apply leaf_hits_missing 3 (by decide) (hc₀.locAt t (below_lastEntry hend)) hsink _
      hkey.1 hkey.2
    · rw [h₀.tree.read_eq]
      exact hmiss
    · rw [h₀.tree.read_eq]
      exact hclean
  obtain ⟨s₁, hrun₁, hcl, i, hi⟩ := hhit.returns
  have hclear : SinkClear i s₁ := by
    refine ⟨hi, ?_⟩
    rw [hcl.pmm_eq]
    intro j hj hz
    exact hctrl (mem_controlPages.mpr ⟨j, hj, hz⟩)
  have hgc : Outcome (fun _ => True) (SinkClear i)
      (mmuRemove (s.withPage 0#64 sinkContents) top address size) := by
    have hsplit : mmuRemove (s.withPage 0#64 sinkContents) top address size =
        (applyNodesEntry ⟨top, address, address + size⟩
          (nodeCallbackLeaf leafCallbackClear walkFuel) (s.withPage 0#64 sinkContents) >>=
          applyNodesEntry ⟨top, address, address + size⟩ (nodeCallbackGc walkFuel)) := rfl
    rw [hsplit, hrun₁]
    change Outcome _ _ (applyNodesEntry _ _ s₁)
    rw [henter _ _ hcl.cr3_eq]
    exact applyNodesLoop_keeps (fun _ _ _ hs => nodeCallbackGc_keeps _ hs) _ hclear
  have hz := (hgc.of_ok hrun).1
  rw [hframe _ hout hctrl, hpage] at hz
  exact absurd hz (by decide : mmuRegWrite ≠ 0#64)

theorem removesExactly_of_covered (h : TopOk s top t T) (hused : tables T ⊆ usedPages s)
    (hc : EntryChecks s ⟨top, address, address + size⟩) (hend : address + size ≤ lastEntryStart)
    (hthere : ∀ v, InRange address size v → Covered 3 T (pageKey v)) :
    RemovesExactly s top t T address size := by
  have hcov : ∀ k, pageKey address ≤ k → k < pageKey (address + size) → Covered 3 T k := by
    intro k hlo hhi
    obtain ⟨v, hv, rfl⟩ := hc.exists_address hlo hhi
    exact hthere v hv
  have hman : ∀ p ∈ tables T,
      p ∉ tables (removed T (pageKey address) (pageKey (address + size))) →
      p ∈ s.pmm.managedPages := fun p hp _ => (Finset.mem_sdiff.mp (hused hp)).1
  obtain ⟨s', hrun, hr⟩ := mmuRemove_removed h hc hend hcov hman
  refine ⟨s', hrun, hr.translate_eq, ?_⟩
  intro q hq hctrl
  rw [Finset.mem_insert, not_or] at hq
  exact hr.step.mem_eq q hq.1 hq.2 (fun hin => hq.2 (hr.tables_subset hin)) hctrl

/-- With the tables of the range there, `mmu_remove` unmaps the range, leaves the other
translations alone and stores in nothing but tables and control blocks. In a tree whose absent
entries are zero there is no other case in which it does so whatever page 0 holds. -/
theorem mmu_remove_unmaps (h : TopOk s top t T) (hused : tables T ⊆ usedPages s)
    (hc : EntryChecks s ⟨top, address, address + size⟩)
    (hend : address + size ≤ lastEntryStart) :
    ((∀ v, InRange address size v → Covered 3 T (pageKey v)) →
      RemovesExactly s top t T address size) ∧
    (Clean entryCoding 0#64 3 T → t ≠ 0#64 → 0#64 ∉ s.pmm.controlPages →
      ((∀ contents, RemovesExactly (s.withPage 0#64 contents) top t T address size) ↔
        ∀ v, InRange address size v → Covered 3 T (pageKey v))) := by
  refine ⟨removesExactly_of_covered h hused hc hend, ?_⟩
  intro hclean ht hctrl
  have hout : 0#64 ∉ insert t (tables T) := by
    rw [Finset.mem_insert, not_or]
    exact ⟨ht.symm, zero_notMem_tables h.entries⟩
  constructor
  · intro hall v hv
    by_contra hmiss
    exact not_removes_missing h hclean hc hend hout hctrl hv hmiss (hall sinkContents)
  · intro hthere contents
    apply removesExactly_of_covered (h.withPage hout hctrl contents) _ (hc.congr rfl) hend hthere
    rwa [usedPages, (h.pmm.withPage hctrl contents).2]

theorem mmu_remove_unmaps_example :
    (∃ s T, TopOk s exampleTop 0x5000#64 T ∧
      translate s exampleTop 0x200000#64 = .ok ⟨0x7000#64, pageMapDepthMemory⟩ ∧
      RemovesExactly s exampleTop 0x5000#64 T 0x200000#64 0x1000#64) ∧
    ∃ s, TopOk s exampleTop 0x5000#64 (blank 0#64 3) ∧
      ∃ contents, ¬ RemovesExactly (s.withPage 0#64 contents) exampleTop 0x5000#64
        (blank 0#64 3) 0x200000#64 0x1000#64 := by
  obtain ⟨s, s', T₁, f, htop, hok, _, hr, ha⟩ := exampleTop_mapped
  have hused : tables (blank 0#64 3 : PageTree 3) ⊆ usedPages s := by
    rw [tables, pages_blank entryCoding not_present_zero]
    exact Finset.empty_subset _
  have hkey : ∀ v, InRange 0x200000#64 0x1000#64 v → pageKey v = 512 := by
    intro v hv
    have hk := ((exampleTop_checks htop).key_iff hv.1).mp hv
    have h₁ : pageKey 0x200000#64 = 512 := by decide
    have h₂ : pageKey (0x200000#64 + 0x1000#64) = 513 := by decide
    omega
  have hin : InRange 0x200000#64 0x1000#64 0x200000#64 := by decide
  constructor
  · refine ⟨s', _, ha.topOk, ?_, ?_⟩
    · rw [ha.translate_eq _ (by decide), if_pos hin]
      decide
    · apply (mmu_remove_unmaps ha.topOk (ha.step.tables_used htop.pmm hused)
        (exampleTop_checks ha.topOk) (by decide)).1
      intro v hv
      rw [hkey v hv]
      exact covered_setRange.mpr (hr.covered (by decide) (by decide) (by decide) (by decide))
  · have hctrl : 0#64 ∉ s.pmm.controlPages := (hok.below (by decide)).2
    have hiff := (mmu_remove_unmaps htop hused (exampleTop_checks htop) (by decide)).2
      (clean_blank entryCoding) (by decide) hctrl
    refine ⟨s, htop, ?_⟩
    by_contra hall
    rw [not_exists_not] at hall
    exact not_covered_blank _ (hiff.mp hall _ hin)

def sinkMachine : Machine := bareMachine.withPage 0#64 sinkContents

/-- The range of a table that is missing: a word of page 0 is cleared. -/
theorem mmu_remove_stores_in_page_zero : TopOk sinkMachine exampleTop 0x5000#64 (blank 0#64 3) ∧
    EntryChecks sinkMachine ⟨exampleTop, 0x202000#64, 0x202000#64 + 0x1000#64⟩ ∧
    0x202000#64 + 0x1000#64 ≤ lastEntryStart ∧ sinkMachine.mem 0#64 2 = mmuRegWrite ∧
    (mmuRemove sinkMachine exampleTop 0x202000#64 0x1000#64).map (fun s' => s'.mem 0#64 2) =
      .ok 0#64 ∧
    ¬ RemovesExactly sinkMachine exampleTop 0x5000#64 (blank 0#64 3) 0x202000#64 0x1000#64 := by
  have hnone : ∀ i, (sinkMachine.pmm.entry i).active = false := fun _ => rfl
  have hpmm : PmmOk sinkMachine := by
    refine ⟨?_, ?_⟩
    · intro i hi
      exact absurd ((hnone i).symm.trans hi) Bool.false_ne_true
    · intro i j _ hi
      exact absurd ((hnone i).symm.trans hi) Bool.false_ne_true
  have hmanaged : ∀ p, p ∉ sinkMachine.pmm.managedPages := by
    intro p hp
    obtain ⟨i, hi, _⟩ := mem_managedPages.mp hp
    exact absurd ((hnone i).symm.trans hi) Bool.false_ne_true
  have hcontrol : ∀ p, p ∉ sinkMachine.pmm.controlPages := by
    intro p hp
    obtain ⟨i, hi, _⟩ := mem_controlPages.mp hp
    exact absurd ((hnone i).symm.trans hi) Bool.false_ne_true
  have htop : TopOk sinkMachine exampleTop 0x5000#64 (blank 0#64 3) :=
    TopOk.of_zeroPage hpmm (by decide) (by decide) (hmanaged _)
       (hcontrol _) (withPage_mem_ne bareMachine (by decide) sinkContents)
  have hword : (mmuRemove sinkMachine exampleTop 0x202000#64 0x1000#64).map
      (fun s' => s'.mem 0#64 2) = .ok 0#64 := by
    decide +kernel
  refine ⟨htop, htop.checks (by decide) (by decide) (by decide) (by decide) (by decide),
    by decide, by decide, hword, ?_⟩
  intro ⟨s', hrun, _, hframe⟩
  have hkept : s'.mem 0#64 = sinkContents := by
    rw [hframe _ _ (hcontrol _)]
    · exact withPage_mem bareMachine 0#64 sinkContents
    · rw [tables, pages_blank entryCoding not_present_zero]
      decide
  rw [hrun] at hword
  have hz : s'.mem 0#64 2 = 0#64 := by simpa [Except.map] using hword
  rw [hkept] at hz
  exact absurd hz (by decide : mmuRegWrite ≠ 0#64)

end Calls

end Ukulele
