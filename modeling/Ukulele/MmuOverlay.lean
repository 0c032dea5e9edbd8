import Ukulele.MmuRuns
import Ukulele.MmuRemove
import Ukulele.Transport

/-! The driver on ranges of the lower half does not see what the upper half of the top table holds,
be it huge pages. With other words there it does the same, and leaves them.
-/

set_option autoImplicit false

namespace Ukulele
open RadixTree Transport

/-- Other words in the upper half of the page. -/
def Machine.overlay (t : Physical) (u : RawPage) (s : Machine) : Machine :=
  s.withPage t fun i => if i.val < 256 then s.mem t i else u i

def Below (t : Physical) (e : EntryPtr) : Prop := e.table = t → e.index.val < 256

section Words

variable {s : Machine} {t q : Physical} {u : RawPage} {e : EntryPtr}

@[simp] theorem overlay_pmm : (s.overlay t u).pmm = s.pmm := rfl
@[simp] theorem overlay_cr3 : (s.overlay t u).cr3 = s.cr3 := rfl

theorem overlay_mem_ne (hq : q ≠ t) : (s.overlay t u).mem q = s.mem q :=
  withPage_mem_ne s hq _

theorem overlay_mem_top (i : Fin 512) :
    (s.overlay t u).mem t i = if i.val < 256 then s.mem t i else u i :=
  congrFun (withPage_mem s t _) i

theorem overlay_withPage (hq : q ≠ t) (x : RawPage) :
    (s.overlay t u).withPage q x = (s.withPage q x).overlay t u := by
  have htop : (s.withPage q x).mem t = s.mem t := withPage_mem_ne s hq.symm x
  have hmem : ∀ y, Function.update (Function.update s.mem t y) q x =
      Function.update (Function.update s.mem q x) t y :=
    fun y => (Function.update_comm hq x y s.mem).symm
  unfold Machine.overlay
  rw [htop]
  exact congrArg (fun mem => ({ s with mem := mem } : Machine)) (hmem _)

theorem overlay_withBlock (hq : q ≠ t) (x : RawPage) (pmm : Pmm) :
    ({ s.withPage q x with pmm := pmm } : Machine).overlay t u =
      { (s.overlay t u).withPage q x with pmm := pmm } :=
  congrArg (fun s => ({ s with pmm := pmm } : Machine)) (overlay_withPage hq x).symm

theorem Below.load (h : Below t e) : (s.overlay t u).load e = s.load e := by
  by_cases he : e.table = t
  · rw [Machine.load, he, overlay_mem_top, if_pos (h he), ← he]
    rfl
  · rw [Machine.load, overlay_mem_ne he]
    rfl

theorem Below.assign (h : Below t e) (v : BitVec 64) :
    (s.overlay t u).assign e v = (s.assign e v).overlay t u := by
  by_cases he : e.table = t
  · have hlt := h he
    obtain ⟨p, i⟩ := e
    simp only at he hlt
    subst he
    unfold Machine.overlay Machine.assign Machine.store Machine.withPage
    simp only [Function.update_self, Function.update_idem]
    congr 2
    funext j
    by_cases hj : j = i
    · subst hj
      simp [hlt]
    · simp [Function.update_of_ne hj]
  · have hmem := overlay_mem_ne (s := s) (u := u) he
    unfold Machine.assign Machine.store
    rw [hmem]
    exact overlay_withPage he _

end Words

section Pages

variable {s : Machine} {t : Physical} {u : RawPage}

theorem not_control (ht : t ∉ s.pmm.controlPages) {i : Fin 168}
    (hi : (s.pmm.entry i).active = true) : (s.pmm.entry i).ctrl ≠ t := by
  rintro rfl
  exact ht (mem_controlPages.mpr ⟨i, hi, rfl⟩)

theorem pmmAllocatePage_carries (ht : t ∉ s.pmm.controlPages) :
    Carries (Machine.overlay t u) (Prod.map id (Machine.overlay t u)) pmmAllocatePage s := by
  unfold Carries pmmAllocatePage
  rw [overlay_pmm]
  cases hs : spaceEntry s.pmm with
  | none => rfl
  | some i =>
    have hne := not_control ht (spaceEntry_some hs).1
    simp only [overlay_mem_ne hne]
    cases pmmCtrlAlloc (s.mem (s.pmm.entry i).ctrl) with
    | error e => rfl
    | ok r =>
      have hpage := overlay_withBlock (s := s) (u := u) hne r.2
      exact congrArg (fun s => Except.ok (_, s)) (hpage _).symm

theorem pmmFreePage_carries (ht : t ∉ s.pmm.controlPages) (p : Physical) :
    Carries (Machine.overlay t u) (Machine.overlay t u) (fun s => pmmFreePage s p) s := by
  simp only [Carries, pmmFreePage, overlay_pmm]
  by_cases hp : p = 0#64
  · rw [if_pos hp, if_pos hp]
    rfl
  rw [if_neg hp, if_neg hp]
  cases ho : owningEntry s.pmm p with
  | none => rfl
  | some i =>
    have hne := not_control ht (owningEntry_some ho).1
    simp only [overlay_mem_ne hne]
    cases entryIndex (((p - (s.pmm.entry i).physicalStart) / pageSize).toNat / 64 : Nat) with
    | error e => rfl
    | ok j =>
      simp only [bind, Except.bind]
      split
      · rfl
      · exact congrArg Except.ok (overlay_withBlock hne _ _).symm

theorem allocate_carries (hp : PmmOk s) (ht : t ∉ s.pmm.controlPages) (hf : t ∉ freePages s) :
    Carries (Machine.overlay t u) (Prod.map id (Machine.overlay t u)) allocate s := by
  apply (pmmAllocatePage_carries ht).bind
  rintro ⟨p, s₁⟩ hrun
  by_cases hz : p = 0#64
  · subst hz
    rfl
  have hne : p ≠ t := by
    rintro rfl
    rcases pmmAllocatePage_spec hp with ⟨-, he⟩ | ⟨q, s', he, ha⟩
    · rw [hrun] at he
      cases he
      exact hz rfl
    · rw [hrun] at he
      cases he
      exact hf ha.was_free
  have hclear := overlay_withPage (s := s₁) (u := u) hne zeroPage
  have hassert : assert (decide (p ≠ 0#64)) "Failed to allocate page table" = .ok () := by
    rw [decide_eq_true hz, assert_true]
  unfold Carries
  simp only [Prod.map, id_eq, hassert, bind, Except.bind]
  exact congrArg (fun s => Except.ok (p, s)) hclear

end Pages

/-- The page is no table below the tree's own one, and no page of the allocator's pool. -/
structure Elsewhere (t : Physical) (s : Machine) {n : Nat} (T : PageTree n) : Prop where
  not_table : t ∉ tables T
  not_free : t ∉ freePages s
  not_control : t ∉ s.pmm.controlPages

section Entries

variable {s s' : Machine} {t p : Physical} {u : RawPage} {n : Nat}

theorem Elsewhere.step {T T' : PageTree n} (h : Elsewhere t s T) (hs : TreeStep s s' p T T') :
    Elsewhere t s' T' := by
  have hpool : t ∉ freePages s' ∪ tables T' := by
    rw [hs.pool, Finset.mem_union, not_or]
    exact ⟨h.not_free, h.not_table⟩
  rw [Finset.mem_union, not_or] at hpool
  refine ⟨hpool.2, hpool.1, ?_⟩
  rw [hs.control_eq]
  exact h.not_control

theorem Elsewhere.child {T : PageTree (n + 1)} (h : Elsewhere t s T) {i : Fin 512} {w : BitVec 64}
    {c : PageTree n} (hi : T i = .table w c) : Elsewhere t s c ∧ entryCoding.addr w ≠ t := by
  have hsub := slot_subset hi
  refine ⟨⟨fun hc => h.not_table (hsub (Finset.mem_insert_of_mem hc)), h.not_free,
    h.not_control⟩, ?_⟩
  rintro rfl
  exact h.not_table (hsub (Finset.mem_insert_self _ _))

theorem reserveEntry_carries (hp : PmmOk s) {T : PageTree n} (h : Elsewhere t s T)
    {entry : EntryPtr} (he : Below t entry) (loc : NodeCommandLoc) :
    Carries (Machine.overlay t u) (Prod.map id (Machine.overlay t u)) (reserveEntry loc entry)
      s := by
  by_cases hload : s.load entry &&& mmuRegPresent = 0#64
  · have hrun : reserveEntry loc entry s = allocate s >>= fun r =>
        .ok ({ loc with page := { loc.page with page := r.1 } },
          r.2.assign entry (r.1 ||| pmPerms)) := if_pos hload
    have hrun' : reserveEntry loc entry (s.overlay t u) = allocate (s.overlay t u) >>= fun r =>
        .ok ({ loc with page := { loc.page with page := r.1 } },
          r.2.assign entry (r.1 ||| pmPerms)) := if_pos (by rw [he.load]; exact hload)
    have hboth := (allocate_carries hp h.not_control h.not_free (u := u)).bind
      (χ := Prod.map id (Machine.overlay t u))
      (g := fun r => .ok ({ loc with page := { loc.page with page := r.1 } },
        r.2.assign entry (r.1 ||| pmPerms)))
      (by
        intro r _
        exact congrArg (fun s => Except.ok (_, s)) (he.assign (s := r.2) (r.1 ||| pmPerms)))
    unfold Carries
    rw [hrun, hrun']
    exact hboth
  · apply Carries.of_ok (a := (loc, s))
    · exact if_neg hload
    · exact if_neg (by rw [he.load]; exact hload)

end Entries

section Loops

variable {loc : NodeCommandLoc} {n B a b : Nat} {s : Machine} {t : Physical} {u : RawPage}

/-- A loop whose visits carry the other words, from every state that its invariant allows. -/
theorem LocAt.carries (h : LocAt loc n B a b) {visit : NodeCallback}
    (I : Nat → Machine → Prop)
    (hstep : ∀ (i : Nat) (hi : i < 512), Meets a b (width 512 n) i → ∀ s, I i s →
      Below t ⟨loc.page.page, ⟨i, hi⟩⟩ ∧
      Carries (Machine.overlay t u) (Machine.overlay t u)
        (visit (loc.child i (s.load ⟨loc.page.page, ⟨i, hi⟩⟩)) ⟨loc.page.page, ⟨i, hi⟩⟩) s ∧
      Outcome (fun _ => True) (I (i + 1))
        (visit (loc.child i (s.load ⟨loc.page.page, ⟨i, hi⟩⟩)) ⟨loc.page.page, ⟨i, hi⟩⟩ s))
    (h₀ : I (a / width 512 n) s) :
    Carries (Machine.overlay t u) (Machine.overlay t u) (applyNodes loc visit) s := by
  have hw := h.width_pos
  have hloop : ∀ (m i : Nat) (s : Machine), a / width 512 n ≤ i →
      i + m = (b + width 512 n - 1) / width 512 n → I i s →
      Carries (Machine.overlay t u) (Machine.overlay t u) (applyNodesLoop loc visit m i) s := by
    intro m
    induction m with
    | zero => exact fun i s _ _ _ => rfl
    | succ m ih =>
      intro i s hlo hhi hI
      have hm : Meets a b (width 512 n) i := (meets_iff hw).mpr ⟨hlo, by omega⟩
      have hi := hm.lt_fanout h.le
      obtain ⟨hbelow, hvisit, hout⟩ := hstep i hi hm s hI
      have hnext := hvisit.bind (χ := Machine.overlay t u)
        (g := applyNodesLoop loc visit m ((i : Int) + 1))
        (by
          intro s₁ hs₁
          exact ih (i + 1) s₁ (by omega) (by omega) (hout.of_ok hs₁))
      unfold Carries at hnext ⊢
      simp only [applyNodesLoop, tableIndex_ok hi, bind, Except.bind, hbelow.load] at hnext ⊢
      exact hnext
  have hle : a / width 512 n ≤ (b + width 512 n - 1) / width 512 n := by
    apply Nat.div_le_div_right
    have := h.lt
    omega
  have hcount : (loc.endIdx - loc.startIdx).toNat =
      (b + width 512 n - 1) / width 512 n - a / width 512 n := by
    rw [h.startIdx_eq, h.endIdx_eq]
    omega
  unfold Carries applyNodes
  rw [hcount, h.startIdx_eq]
  exact hloop _ _ s (Nat.le_refl _) (Nat.add_sub_cancel' hle) h₀

def InLower (t : Physical) (loc : NodeCommandLoc) (n b : Nat) : Prop :=
  loc.page.page = t → b ≤ 256 * width 512 n

theorem InLower.below (h : InLower t loc n b) {i : Fin 512} (hm : Meets a b (width 512 n) i) :
    Below t ⟨loc.page.page, i⟩ := by
  intro he
  exact Nat.lt_of_mul_lt_mul_right (Nat.lt_of_lt_of_le hm.1 (h he))

theorem inLower_of_ne (h : loc.page.page ≠ t) : InLower t loc n b := fun he => absurd he h

theorem LocAt.slots_carry (h : LocAt loc (n + 1) B a b) {visit : NodeCallback}
    {T : PageTree (n + 1)} (htree : TreeOk s loc.page.page T) (hp : PmmOk s)
    (hout : Elsewhere t s T) (hlower : InLower t loc (n + 1) b)
    (hvisit : ∀ i : Fin 512, Meets a b (span 512 n) i → ∀ (s₁ : Machine) (T₁ : PageTree (n + 1)),
      TreeOk s₁ loc.page.page T₁ → PmmOk s₁ → s₁.pmm.managedPages = s.pmm.managedPages →
      Elsewhere t s₁ T₁ → T₁ i = T i →
      Carries (Machine.overlay t u) (Machine.overlay t u)
        (visit (loc.child i.val (s₁.load ⟨loc.page.page, i⟩)) ⟨loc.page.page, i⟩) s₁ ∧
      Outcome (fun _ => True) (fun s₂ => ∃ x, TreeStep s₁ s₂ loc.page.page T₁ (T₁.set i x))
        (visit (loc.child i.val (s₁.load ⟨loc.page.page, i⟩)) ⟨loc.page.page, i⟩ s₁)) :
    Carries (Machine.overlay t u) (Machine.overlay t u) (applyNodes loc visit) s := by
  apply h.carries (fun k s₁ => ∃ T₁ : PageTree (n + 1),
    TreeOk s₁ loc.page.page T₁ ∧ PmmOk s₁ ∧ s₁.pmm.managedPages = s.pmm.managedPages ∧
      Elsewhere t s₁ T₁ ∧ ∀ j : Fin 512, k ≤ j.val → T₁ j = T j)
  · intro i hi hm s₁ ⟨T₁, htree₁, hp₁, hman, hout₁, hrest⟩
    obtain ⟨hcarries, hrun⟩ := hvisit ⟨i, hi⟩ hm s₁ T₁ htree₁ hp₁ hman hout₁
      (hrest ⟨i, hi⟩ (Nat.le_refl i))
    refine ⟨hlower.below (i := ⟨i, hi⟩) hm, hcarries, hrun.mono (fun _ _ => trivial) ?_⟩
    intro s₂ ⟨x, hstep⟩
    refine ⟨_, hstep.tree, hstep.pmm, hstep.managed_eq.trans hman, hout₁.step hstep, ?_⟩
    intro j hj
    have hne : j ≠ ⟨i, hi⟩ := by
      rintro rfl
      exact Nat.not_succ_le_self i hj
    rw [Tree.set_ne _ hne]
    exact hrest j (Nat.le_of_succ_le hj)
  · exact ⟨T, htree, hp, rfl, hout, fun _ _ => rfl⟩

end Loops

section Passes

variable {loc : NodeCommandLoc} {s : Machine} {t : Physical} {u : RawPage}

theorem reserveBelow_succ (h : loc.page.depth < pageMapDepthBottom) (fuel : Nat) :
    reserveBelow (fuel + 1) loc = applyNodes loc (nodeCallbackReserve fuel) := by
  funext s
  exact if_pos h

theorem gcBelow_succ (h : loc.page.depth < pageMapDepthBottom) (fuel : Nat) :
    gcBelow (fuel + 1) loc = applyNodes loc (nodeCallbackGc fuel) := by
  funext s
  exact if_pos h

theorem LocAt.depth_lt {n B a b : Nat} (h : LocAt loc (n + 1) B a b) :
    loc.page.depth < pageMapDepthBottom := by
  have hdepth := h.depth
  unfold pageMapDepthBottom
  omega

theorem reserveBelow_carries (n : Nat) : ∀ {fuel : Nat} {loc : NodeCommandLoc} {B a b : Nat}
    {s : Machine} {T : PageTree n}, n ≤ fuel → LocAt loc n B a b → TreeOk s loc.page.page T →
    PmmOk s → PmmLow s → Elsewhere t s T → InLower t loc n b →
    Carries (Machine.overlay t u) (Machine.overlay t u) (reserveBelow fuel loc) s := by
  induction n with
  | zero =>
    intro fuel loc B a b s T _ hloc _ _ _ _ _
    have hdepth := hloc.depth
    unfold Carries reserveBelow
    rw [if_neg (by unfold pageMapDepthBottom; omega), if_neg (by unfold pageMapDepthBottom; omega)]
    rfl
  | succ n ih =>
    intro fuel loc B a b s T hfuel hloc htree hp hlow hout hlower
    cases fuel with
    | zero => omega
    | succ fuel =>
      rw [reserveBelow_succ hloc.depth_lt]
      apply hloc.slots_carry htree hp hout hlower
      intro i hm s₁ T₁ htree₁ hp₁ hman hout₁ _
      have hlow₁ := hlow.congr hman
      have hspec := reserve_visit (reserveBelow_spec n (Nat.le_of_succ_le_succ hfuel)) hloc hm
        htree₁ hp₁ hlow₁
      refine ⟨?_, hspec.mono (fun _ _ => trivial) (fun s₂ h => ?_)⟩
      · have hbind := (reserveEntry_carries hp₁ hout₁ (hlower.below hm)
          (loc.child i.val (s₁.load ⟨loc.page.page, i⟩)) (u := u)).bind
          (χ := Machine.overlay t u) (g := fun r => reserveBelow fuel r.1 r.2)
          (by
            rintro ⟨loc', s₂⟩ hrun
            obtain ⟨w, c, hloc', hstep, -⟩ := (reserveEntry_spec htree₁ hp₁ hlow₁
              (loc.child i.val (s₁.load ⟨loc.page.page, i⟩)) i).of_ok hrun
            simp only at hloc' hstep
            have hself : (T₁.set i (.table w c)) i = .table w c := Tree.set_self ..
            obtain ⟨hchild, hne⟩ := (hout₁.step hstep).child hself
            have hat := (hloc.child hm (s₁.load ⟨loc.page.page, i⟩)).withPage (entryCoding.addr w)
            rw [← hloc'] at hat
            have hpage : loc'.page.page = entryCoding.addr w := by rw [hloc']
            have htree₂ := hstep.tree.child hself
            rw [← hpage] at htree₂ hne
            exact ih (Nat.le_of_succ_le_succ hfuel) hat htree₂ hstep.pmm
              (hlow₁.congr hstep.managed_eq) hchild (inLower_of_ne hne))
        unfold Carries at hbind ⊢
        rw [nodeCallbackReserve_eq, nodeCallbackReserve_eq]
        exact hbind
      · obtain ⟨x, -, hstep⟩ := h
        exact ⟨x, hstep⟩

theorem leaf_carries {callback : LeafCallback} {value : Uintptr → BitVec 64}
    (hcb : StoresAt callback value) (n : Nat) : ∀ {fuel : Nat} {loc : NodeCommandLoc}
    {B a b : Nat} {s : Machine} {T : PageTree n}, n ≤ fuel → LocAt loc n B a b →
    TreeOk s loc.page.page T → PmmOk s → (∀ k, a ≤ k → k < b → Covered n T k) →
    Elsewhere t s T → InLower t loc n b →
    Carries (Machine.overlay t u) (Machine.overlay t u)
      (applyNodes loc (nodeCallbackLeaf callback fuel)) s := by
  induction n with
  | zero =>
    intro fuel loc B a b s T _ hloc _ _ _ _ hlower
    apply hloc.carries (fun _ _ => True)
    · intro i hi hm s₁ _
      have hbelow : Below t ⟨loc.page.page, ⟨i, hi⟩⟩ := hlower.below (i := ⟨i, hi⟩) hm
      have hentry : ∀ s, nodeCallbackLeaf callback fuel
          (loc.child i (s₁.load ⟨loc.page.page, ⟨i, hi⟩⟩)) ⟨loc.page.page, ⟨i, hi⟩⟩ s =
            .ok (s.assign ⟨loc.page.page, ⟨i, hi⟩⟩ (keyValue value B i)) :=
        leaf_entry hcb hloc hi hm _ _
      refine ⟨hbelow, Carries.of_ok (hentry s₁) ?_, Outcome.of_eq (hentry s₁) trivial⟩
      rw [hentry, hbelow.assign]
    · trivial
  | succ n ih =>
    intro fuel loc B a b s T hfuel hloc htree hp hcov hout hlower
    cases fuel with
    | zero => omega
    | succ fuel =>
      apply hloc.slots_carry htree hp hout hlower
      intro i hm s₁ T₁ htree₁ hp₁ _ hout₁ hold
      obtain ⟨w, c, hT, hbelow⟩ := table_of_covered (by decide) hloc.lt hcov hm
      have hT₁ := hold.trans hT
      refine ⟨?_, (leaf_visit (leaf_spec hcb n (Nat.le_of_succ_le_succ hfuel)) hloc hm htree₁ hp₁
        hT₁ hbelow).mono (fun _ _ => trivial) (fun s₂ hstep => ⟨_, hstep⟩)⟩
      have hchild := hloc.child hm (s₁.load ⟨loc.page.page, i⟩)
      have hpage := htree₁.child_page hT₁
      have htree₂ := htree₁.child hT₁
      obtain ⟨hout₂, hne⟩ := hout₁.child hT₁
      rw [← hpage] at htree₂ hne
      have hrun : nodeCallbackLeaf callback (fuel + 1)
          (loc.child i.val (s₁.load ⟨loc.page.page, i⟩)) ⟨loc.page.page, i⟩ =
          applyNodes (loc.child i.val (s₁.load ⟨loc.page.page, i⟩))
            (nodeCallbackLeaf callback fuel) := by
        funext s
        exact nodeCallbackLeaf_below _ _ hchild.depth_le ..
      rw [hrun]
      exact ih (Nat.le_of_succ_le_succ hfuel) hchild htree₂ hp₁ hbelow hout₂ (inLower_of_ne hne)

theorem gcEntry_carries {entry : EntryPtr} {p : Physical} (ht : t ∉ s.pmm.controlPages)
    (he : Below t entry) (hp : p ≠ t) :
    Carries (Machine.overlay t u) (Machine.overlay t u) (fun s =>
      if emptyTable (s.mem p) then pmmFreePage (s.assign entry 0#64) p else .ok s) s := by
  unfold Carries
  simp only [overlay_mem_ne hp]
  cases emptyTable (s.mem p) with
  | false => rfl
  | true =>
    simp only [if_true]
    rw [he.assign]
    exact pmmFreePage_carries (s := s.assign entry 0#64) ht p

theorem gcBelow_carries (n : Nat) : ∀ {fuel : Nat} {loc : NodeCommandLoc} {B a b : Nat}
    {s : Machine} {T : PageTree n}, n ≤ fuel → LocAt loc n B a b → TreeOk s loc.page.page T →
    PmmOk s →
    (∀ p ∈ tables T, p ∉ tables (prune entryCoding 0#64 n T a b) → p ∈ s.pmm.managedPages) →
    Elsewhere t s T → InLower t loc n b →
    Carries (Machine.overlay t u) (Machine.overlay t u) (gcBelow fuel loc) s := by
  induction n with
  | zero =>
    intro fuel loc B a b s T _ hloc _ _ _ _ _
    have hdepth := hloc.depth
    unfold Carries gcBelow
    rw [if_neg (by unfold pageMapDepthBottom; omega), if_neg (by unfold pageMapDepthBottom; omega)]
    rfl
  | succ n ih =>
    intro fuel loc B a b s T hfuel hloc htree hp hman hout hlower
    cases fuel with
    | zero => omega
    | succ fuel =>
      have hfuel' := Nat.le_of_succ_le_succ hfuel
      rw [gcBelow_succ hloc.depth_lt]
      apply hloc.slots_carry htree hp hout hlower
      intro i hm s₁ T₁ htree₁ hp₁ hman₁ hout₁ hold
      have hgone : ∀ p ∈ slotTables (T₁ i),
          p ∉ slotTables ((prune entryCoding 0#64 (n + 1) T₁ a b) i) →
          p ∈ s₁.pmm.managedPages := by
        intro p hin hgo
        rw [hold] at hin
        rw [prune_congr hold] at hgo
        rw [hman₁]
        exact hman p (slotTables_subset T i hin) (htree.separated.notMem_prune entryCoding hin hgo)
      refine ⟨?_, (gc_visit (gcBelow_spec n hfuel') hloc hm htree₁ hp₁ hgone).mono
        (fun _ _ => trivial) (fun s₂ hstep => ⟨_, hstep⟩)⟩
      have he : Below t ⟨loc.page.page, i⟩ := hlower.below hm
      cases hT : T₁ i with
      | absent v =>
        obtain ⟨hentry, hpresent⟩ := htree₁.absent_entry hT
        have hload : s₁.load ⟨loc.page.page, i⟩ &&& mmuRegPresent = 0#64 := by
          rw [Machine.load, hentry]
          exact not_present_iff.mp hpresent
        apply Carries.of_ok (a := s₁)
        · rw [nodeCallbackGc_eq, if_pos hload]
        · rw [nodeCallbackGc_eq, he.load, if_pos hload]
      | table w c =>
        obtain ⟨hentry, hpresent, -⟩ := htree₁.entry hT
        have hload : ¬ s₁.load ⟨loc.page.page, i⟩ &&& mmuRegPresent = 0#64 := by
          rw [Machine.load, hentry]
          exact present_iff.mp hpresent
        have hchild := hloc.child hm (s₁.load ⟨loc.page.page, i⟩)
        have hpage := htree₁.child_page hT
        have htree₂ := htree₁.child hT
        obtain ⟨hout₂, hne⟩ := hout₁.child hT
        rw [← hpage] at htree₂ hne
        rw [hT, slotTables_table] at hgone
        have hman₂ : ∀ p ∈ tables c, p ∉ tables (prune entryCoding 0#64 n c
            (lower a (span 512 n) i) (upper b (span 512 n) i)) → p ∈ s₁.pmm.managedPages :=
          fun p hin hgo => hgone p (Finset.mem_insert_of_mem hin) (gone_below htree₁ hm hT hin hgo)
        have hwalk := ih hfuel' hchild htree₂ hp₁ hman₂ hout₂ (inLower_of_ne hne)
        have hbind := hwalk.bind (χ := Machine.overlay t u) (g := fun s =>
          if emptyTable (s.mem (loc.child i.val (s₁.load ⟨loc.page.page, i⟩)).page.page) then
            pmmFreePage (s.assign ⟨loc.page.page, i⟩ 0#64)
              (loc.child i.val (s₁.load ⟨loc.page.page, i⟩)).page.page
          else .ok s)
          (by
            intro s₂ hrun
            have hstep := (gcBelow_spec n hfuel' hchild htree₂ hp₁ hman₂).of_ok hrun
            exact gcEntry_carries (hout₂.step hstep).not_control he hne)
        unfold Carries at hbind ⊢
        rw [nodeCallbackGc_eq, nodeCallbackGc_eq, he.load, if_neg hload, if_neg hload]
        exact hbind

end Passes

section Calls

variable {s : Machine} {top : MmuPageMapPart} {t : Physical} {T : PageTree 3} {u : RawPage}
  {address : Uintptr} {size : Size} {m : FrameMap}

theorem TopOk.elsewhere (h : TopOk s top t T) : Elsewhere t s T :=
  ⟨h.tree.root, h.tree.not_free t (Finset.mem_insert_self t _),
    h.tree.not_control t (Finset.mem_insert_self t _)⟩

theorem Enters.carries {loc₀ loc : NodeCommandLoc} (h : Enters s loc₀ loc) {s₁ : Machine}
    (hc : s₁.cr3 = s.cr3) {visit : NodeCallback}
    (hv : Carries (Machine.overlay t u) (Machine.overlay t u) (applyNodes loc visit) s₁) :
    Carries (Machine.overlay t u) (Machine.overlay t u) (applyNodesEntry loc₀ visit) s₁ := by
  have hover : (s₁.overlay t u).cr3 = s.cr3 := hc
  unfold Carries at hv ⊢
  rw [h visit s₁ hc, h visit _ hover]
  exact hv

section Walks

variable {loc₀ loc : NodeCommandLoc} {B a b : Nat}

theorem assign_passes_carry (h : TopOk s top t T) (hpool : PmmLow s) (hpage : loc.page = ⟨t, 0⟩)
    (hloc : LocAt loc 3 B a b) (henter : Enters s loc₀ loc) (hlower : InLower t loc 3 b)
    {callback : LeafCallback} {value : Uintptr → BitVec 64} (hcb : StoresAt callback value) :
    Carries (Machine.overlay t u) (Machine.overlay t u) (fun s =>
      applyNodesEntry loc₀ (nodeCallbackReserve walkFuel) s >>=
        applyNodesEntry loc₀ (nodeCallbackLeaf callback walkFuel)) s := by
  have htree : TreeOk s loc.page.page T := by
    rw [hpage]
    exact h.tree
  have hfuel : 3 ≤ walkFuel + 1 := by decide
  have hwalk := reserveBelow_carries 3 hfuel hloc htree h.pmm hpool h.elsewhere hlower (u := u)
  have hspec := reserveBelow_spec 3 hfuel hloc htree h.pmm hpool
  rw [reserveBelow_succ hloc.depth_lt] at hwalk hspec
  apply (henter.carries rfl hwalk).bind
  intro s₁ hrun
  rw [henter _ s rfl] at hrun
  obtain ⟨T₁, hstep, hres⟩ := hspec.of_ok hrun
  have hcov : ∀ k, a ≤ k → k < b → Covered 3 T₁ k :=
    fun k ha hb => hres.covered (by decide) ha hb (Nat.lt_of_lt_of_le hb hloc.le)
  exact henter.carries hstep.cr3_eq (leaf_carries hcb 3 (by decide) hloc hstep.tree hstep.pmm hcov
    (h.elsewhere.step hstep) hlower)

theorem remove_passes_carry (h : TopOk s top t T) (hpage : loc.page = ⟨t, 0⟩)
    (hloc : LocAt loc 3 B a b) (henter : Enters s loc₀ loc) (hlower : InLower t loc 3 b)
    (hcov : ∀ k, a ≤ k → k < b → Covered 3 T k) (hman : tables T ⊆ s.pmm.managedPages) :
    Carries (Machine.overlay t u) (Machine.overlay t u) (fun s =>
      applyNodesEntry loc₀ (nodeCallbackLeaf leafCallbackClear walkFuel) s >>=
        applyNodesEntry loc₀ (nodeCallbackGc walkFuel)) s := by
  have htree : TreeOk s loc.page.page T := by
    rw [hpage]
    exact h.tree
  have hfuel : 3 ≤ walkFuel := by decide
  have hwalk := leaf_carries clear_storesAt 3 hfuel hloc htree h.pmm hcov h.elsewhere hlower
    (u := u)
  have hspec := leaf_spec clear_storesAt 3 hfuel hloc htree h.pmm hcov
  apply (henter.carries rfl hwalk).bind
  intro s₁ hrun
  rw [henter _ s rfl] at hrun
  have hstep := hspec.of_ok hrun
  have hsame : tables (setRange 3 T a b (keyValue (fun _ => 0#64) B)) = tables T :=
    pages_setRange entryCoding
  have hman₁ : ∀ p ∈ tables (setRange 3 T a b (keyValue (fun _ => 0#64) B)),
      p ∉ tables (prune entryCoding 0#64 3 (setRange 3 T a b (keyValue (fun _ => 0#64) B)) a b) →
      p ∈ s₁.pmm.managedPages := by
    intro p hin _
    rw [hsame] at hin
    rw [hstep.managed_eq]
    exact hman hin
  have hgc := gcBelow_carries 3 (Nat.le_succ_of_le hfuel) hloc hstep.tree hstep.pmm hman₁
    (h.elsewhere.step hstep) hlower (u := u)
  rw [gcBelow_succ hloc.depth_lt] at hgc
  exact henter.carries hstep.cr3_eq hgc

end Walks

theorem EntryChecks.end_lower (hc : EntryChecks s ⟨top, address, address + size⟩)
    (hlow : address.toNat < 2 ^ 47) : (address + size).toNat < 2 ^ 47 := by
  obtain ⟨-, -, -, -, h₅⟩ := hc.toNat
  simp only at h₅
  omega

theorem EntryChecks.inLower (hc : EntryChecks s ⟨top, address, address + size⟩)
    (hlow : address.toNat < 2 ^ 47) (loc : NodeCommandLoc) :
    InLower t loc 3 (pageKey (address + size)) := by
  intro _
  have hend := hc.end_lower hlow
  have hw : width 512 3 = 2 ^ 27 := by decide
  unfold pageKey
  rw [hw, span_three]
  omega

theorem EntryChecks.locAt_lower (hc : EntryChecks s ⟨top, address, address + size⟩)
    (hlow : address.toNat < 2 ^ 47) (t : Physical) :
    LocAt ⟨⟨t, 0⟩, address, address + size⟩ 3 (addressBase address) (pageKey address)
      (pageKey (address + size)) := by
  have hend := hc.end_lower hlow
  exact hc.locAt t (by simp only; omega)

theorem mmuCall_carries (h : TablesOk s top t T) (hf : Follows s top m) {c : MmuCall}
    (ha : Admitted s top m c) (hlow : c.range.1.toNat < 2 ^ 47) :
    Carries (Machine.overlay t u) (Machine.overlay t u) (fun s => mmuCall s top c) s := by
  cases c with
  | assign flags address size page =>
    have hc := ha.1
    exact assign_passes_carry h.topOk h.low rfl (hc.locAt_lower hlow t)
      (hc.enters h.topOk.resolved) (hc.inLower hlow _) (assign_storesAt flags address page)
  | remove address size =>
    obtain ⟨hc, -, hmapped⟩ := ha
    have hcov : ∀ k, pageKey address ≤ k → k < pageKey (address + size) → Covered 3 T k := by
      intro k hlo hhi
      obtain ⟨v, hv, rfl⟩ := hc.exists_address hlo hhi
      exact covered_of_follows h.topOk hf hv.1 (hmapped v hv)
    exact remove_passes_carry h.topOk rfl (hc.locAt_lower hlow t) (hc.enters h.topOk.resolved)
      (hc.inLower hlow _) hcov (fun p hp => (Finset.mem_sdiff.mp (h.used hp)).1)

end Calls

end Ukulele
