import Ukulele.MmuEntries
import Ukulele.MmuIndices

/-! The three passes of the driver over a key range, as operations on the tree of tables: the
reserving pass, the pass over the leaf entries and the collecting pass.
-/

set_option autoImplicit false

namespace Ukulele
open RadixTree

variable {loc : NodeCommandLoc} {n B a b : Nat} {s : Machine}

theorem LocAt.withPage (h : LocAt loc n B a b) (p : Physical) :
    LocAt { loc with page := { loc.page with page := p } } n B a b :=
  ⟨⟨h.depth, h.base, h.start, h.endAt, h.lt, h.inside, h.fits, h.total, h.small⟩, h.le, h.safe⟩

def SlotsUpTo (a b : Nat) (R : Fin 512 → Slot (BitVec 64) (PageTree n) → Prop)
    (T T₁ : PageTree (n + 1)) (k : Nat) : Prop :=
  ∀ j : Fin 512, (j.val < k ∧ Meets a b (span 512 n) j → R j (T₁ j)) ∧
    (¬ (j.val < k ∧ Meets a b (span 512 n) j) → T₁ j = T j)

theorem LocAt.slotsUpTo (h : LocAt loc (n + 1) B a b) {visit : NodeCallback}
    {bad : Fault → Prop} {T : PageTree (n + 1)} (htree : TreeOk s loc.page.page T) (hp : PmmOk s)
    (R : Fin 512 → Slot (BitVec 64) (PageTree n) → Prop)
    (hvisit : ∀ i : Fin 512, Meets a b (span 512 n) i → ∀ s₁ T₁,
      TreeStep s s₁ loc.page.page T T₁ → SlotsUpTo a b R T T₁ i → T₁ i = T i →
      Outcome bad (fun s₂ => ∃ x, R i x ∧ TreeStep s₁ s₂ loc.page.page T₁ (T₁.set i x))
        (visit (loc.child i.val (s₁.load ⟨loc.page.page, i⟩)) ⟨loc.page.page, i⟩ s₁)) :
    Outcome bad (fun s' => ∃ T', TreeStep s s' loc.page.page T T' ∧
      ∀ i : Fin 512, (Meets a b (span 512 n) i → R i (T' i)) ∧
        (¬ Meets a b (span 512 n) i → T' i = T i)) (applyNodes loc visit s) := by
  have hw : 0 < span 512 n := h.width_pos
  have hrun : Outcome bad _ (applyNodes loc visit s) := h.loop
    (fun k s₁ => ∃ T₁, TreeStep s s₁ loc.page.page T T₁ ∧ SlotsUpTo a b R T T₁ k)
    (by
      intro i hi hm s₁ ⟨T₁, hstep, hslots⟩
      have hold : T₁ ⟨i, hi⟩ = T ⟨i, hi⟩ := (hslots ⟨i, hi⟩).2 (fun hlt => Nat.lt_irrefl i hlt.1)
      apply (hvisit ⟨i, hi⟩ hm s₁ T₁ hstep hslots hold).mono (fun e he => he)
      intro s₂ ⟨x, hx, hstep₂⟩
      refine ⟨T₁.set ⟨i, hi⟩ x, hstep.trans hstep₂ ?_, ?_⟩
      · intro p hin
        rw [Finset.mem_union]
        rcases mem_tables_slot.mp hin with hj | hj
        · left
          rw [hold] at hj
          exact slotTables_subset T _ hj
        · right
          exact mem_tables_set.mpr (Or.inr hj)
      · intro j
        by_cases hji : j = ⟨i, hi⟩
        · subst hji
          rw [Tree.set_self]
          exact ⟨fun _ => hx, fun hn => absurd ⟨Nat.lt_succ_self i, hm⟩ hn⟩
        · have hne : j.val ≠ i := fun he => hji (Fin.ext he)
          have hlt : j.val < i + 1 ↔ j.val < i := by omega
          rw [Tree.set_ne _ hji, hlt]
          exact hslots j)
    ⟨T, TreeStep.refl htree hp, fun j => ⟨?_, fun _ => rfl⟩⟩
  · apply hrun.mono (fun e he => he)
    intro s' ⟨T', hstep, hslots⟩
    refine ⟨T', hstep, ?_⟩
    intro i
    obtain ⟨h₁, h₂⟩ := hslots i
    constructor
    · intro hm
      exact h₁ ⟨((meets_iff hw).mp hm).2, hm⟩
    · exact fun hm => h₂ (fun hn => hm hn.2)
  · intro ⟨hlt, hm⟩
    have hlo := ((meets_iff hw).mp hm).1
    have hwidth : width 512 (n + 1) = span 512 n := rfl
    rw [hwidth] at hlt
    omega

theorem LocAt.slots (h : LocAt loc (n + 1) B a b) {visit : NodeCallback}
    {bad : Fault → Prop} {T : PageTree (n + 1)} (htree : TreeOk s loc.page.page T) (hp : PmmOk s)
    (R : Fin 512 → Slot (BitVec 64) (PageTree n) → Prop)
    (hvisit : ∀ i : Fin 512, Meets a b (span 512 n) i → ∀ s₁ T₁,
      TreeStep s s₁ loc.page.page T T₁ → T₁ i = T i →
      Outcome bad (fun s₂ => ∃ x, R i x ∧ TreeStep s₁ s₂ loc.page.page T₁ (T₁.set i x))
        (visit (loc.child i.val (s₁.load ⟨loc.page.page, i⟩)) ⟨loc.page.page, i⟩ s₁)) :
    Outcome bad (fun s' => ∃ T', TreeStep s s' loc.page.page T T' ∧
      ∀ i : Fin 512, (Meets a b (span 512 n) i → R i (T' i)) ∧
        (¬ Meets a b (span 512 n) i → T' i = T i)) (applyNodes loc visit s) :=
  h.slotsUpTo htree hp R (fun i hm s₁ T₁ hstep _ hold => hvisit i hm s₁ T₁ hstep hold)

theorem applyNodesLoop_keeps {I : Machine → Prop} {loc : NodeCommandLoc} {visit : NodeCallback}
    (h : ∀ loc entry s, I s → Outcome (fun _ => True) I (visit loc entry s)) (n : Nat) :
    ∀ {i : Int} {s : Machine}, I s →
    Outcome (fun _ => True) I (applyNodesLoop loc visit n i s) := by
  induction n with
  | zero => exact fun hs => hs
  | succ n ih =>
    intro i s hs
    rw [applyNodesLoop]
    cases tableIndex i with
    | error e => trivial
    | ok j => exact (h _ _ _ hs).bind (fun s' hs' => ih hs')

theorem reserveEntry_spec {t : Physical} {T : PageTree (n + 1)} (h : TreeOk s t T) (hp : PmmOk s)
    (hlow : PmmLow s) (loc : NodeCommandLoc) (i : Fin 512) :
    Outcome (fun e => e = outOfTables)
      (fun r => ∃ w c, r.1 = { loc with page := { loc.page with page := entryCoding.addr w } } ∧
        TreeStep s r.2 t T (T.set i (.table w c)) ∧
        (T i = .table w c ∨ (∃ v, T i = .absent v) ∧ TableEntry w ∧ c = blank 0#64 n))
      (reserveEntry { loc with page := { loc.page with page := entryCoding.addr (s.mem t i) } }
        ⟨t, i⟩ s) := by
  unfold reserveEntry
  cases hi : T i with
  | absent v =>
    obtain ⟨hentry, hpresent⟩ := h.absent_entry hi
    have hload : s.load ⟨t, i⟩ &&& mmuRegPresent = 0#64 := by
      rw [Machine.load, hentry]
      exact not_present_iff.mp hpresent
    rw [if_pos hload]
    apply (allocate_spec hp).bind
    rintro ⟨p, u⟩ ⟨u₀, ha, hu⟩
    have hman := hp.free_subset_managed ha.was_free
    obtain ⟨-, haddr, htable⟩ :=
      newEntry (hp.managed_aligned hman) (hlow p hman) (hp.managed_ne_zero hman)
    simp only at hu ha
    subst hu
    refine ⟨p ||| pmPerms, blank 0#64 n, ?_, TreeStep.of_allocated h hp hlow hi ha,
      Or.inr ⟨⟨v, rfl⟩, htable, rfl⟩⟩
    rw [haddr]
  | table w c =>
    obtain ⟨hentry, hpresent, -⟩ := h.entry hi
    have hload : ¬ s.load ⟨t, i⟩ &&& mmuRegPresent = 0#64 := by
      rw [Machine.load, hentry]
      exact present_iff.mp hpresent
    rw [if_neg hload]
    refine ⟨w, c, by rw [hentry], ?_, Or.inl rfl⟩
    rw [← hi, Tree.set_eq]
    exact TreeStep.refl h hp

def reserveBelow (fuel : Nat) (loc : NodeCommandLoc) (s : Machine) : Except Fault Machine :=
  if loc.page.depth < pageMapDepthBottom then
    match fuel with
    | 0 => .error .outOfFuel
    | fuel + 1 => applyNodes loc (nodeCallbackReserve fuel) s
  else .ok s

theorem nodeCallbackReserve_eq (fuel : Nat) (loc : NodeCommandLoc) (entry : EntryPtr)
    (s : Machine) :
    nodeCallbackReserve fuel loc entry s =
      (reserveEntry loc entry s >>= fun r => reserveBelow fuel r.1 r.2) := by
  cases fuel <;> rfl

/-- What the pass does below a table of height `n`. -/
def ReservesBelow (n fuel : Nat) : Prop :=
  ∀ {loc : NodeCommandLoc} {B a b : Nat} {s : Machine} {T : PageTree n}, LocAt loc n B a b →
    TreeOk s loc.page.page T → PmmOk s → PmmLow s →
    Outcome (fun e => e = outOfTables)
      (fun s' => ∃ T', TreeStep s s' loc.page.page T T' ∧ Reserved 0#64 TableEntry n a b T T')
      (reserveBelow fuel loc s)

def ReservedSlot (a b : Nat) (i : Fin 512) (y x : Slot (BitVec 64) (PageTree n)) : Prop :=
  ∃ w t t', x = .table w t' ∧
    Reserved 0#64 TableEntry n (lower a (span 512 n) i) (upper b (span 512 n) i) t t' ∧
    (y = .table w t ∨ (∃ v, y = .absent v) ∧ TableEntry w ∧ t = blank 0#64 n)

theorem reserve_visit {fuel : Nat} (hbelow : ReservesBelow n fuel)
    (hloc : LocAt loc (n + 1) B a b) {i : Fin 512} (hm : Meets a b (span 512 n) i)
    {T : PageTree (n + 1)} (htree : TreeOk s loc.page.page T) (hp : PmmOk s) (hlow : PmmLow s) :
    Outcome (fun e => e = outOfTables)
      (fun s' => ∃ x, ReservedSlot a b i (T i) x ∧
        TreeStep s s' loc.page.page T (T.set i x))
      (nodeCallbackReserve fuel (loc.child i.val (s.load ⟨loc.page.page, i⟩))
        ⟨loc.page.page, i⟩ s) := by
  rw [nodeCallbackReserve_eq]
  apply (reserveEntry_spec htree hp hlow (loc.child i.val (s.load ⟨loc.page.page, i⟩)) i).bind
  rintro ⟨loc', s₁⟩ ⟨w, c, hloc', hstep, hslot⟩
  simp only at hloc' hstep ⊢
  have hchild := (hloc.child hm (s.load ⟨loc.page.page, i⟩)).withPage (entryCoding.addr w)
  rw [← hloc'] at hchild
  have hpage : loc'.page.page = entryCoding.addr w := by rw [hloc']
  have hself : (T.set i (.table w c)) i = .table w c := Tree.set_self ..
  have htree₁ := hstep.tree.child hself
  rw [← hpage] at htree₁
  apply (hbelow hchild htree₁ hstep.pmm (hlow.congr hstep.managed_eq)).mono (fun e he => he)
  intro s₂ h
  obtain ⟨c', hstep₁, hres⟩ := h
  rw [hpage] at hstep₁
  have hlift := TreeStep.lift hstep.tree hself hstep₁
  rw [Tree.set_set] at hlift
  refine ⟨.table w c', ⟨w, c, c', rfl, hres, hslot⟩, hstep.trans hlift ?_⟩
  -- the pass below the entry lets no table go
  intro p hin
  rw [Finset.mem_union]
  rcases mem_tables_set.mp hin with hin | ⟨j, hj, hin⟩
  · right
    apply mem_tables_set.mpr
    left
    rw [slotTables_table] at hin ⊢
    exact Finset.insert_subset_insert _ (hres.pages_subset entryCoding) hin
  · left
    exact slotTables_subset T j hin

theorem reserveBelow_spec (n : Nat) : ∀ {fuel : Nat}, n ≤ fuel → ReservesBelow n fuel := by
  induction n with
  | zero =>
    intro fuel _ loc B a b s T hloc htree hp _
    have hdepth := hloc.depth
    unfold reserveBelow
    rw [if_neg (by unfold pageMapDepthBottom; omega)]
    exact ⟨T, TreeStep.refl htree hp, rfl⟩
  | succ n ih =>
    intro fuel hfuel loc B a b s T hloc htree hp hlow
    cases fuel with
    | zero => omega
    | succ fuel =>
      have hdepth := hloc.depth
      unfold reserveBelow
      rw [if_pos (by unfold pageMapDepthBottom; omega)]
      have hrun := hloc.slots htree hp (fun i x => ReservedSlot a b i (T i) x)
        (fun i hm s₁ T₁ hstep hold => hold ▸
          reserve_visit (ih (Nat.le_of_succ_le_succ hfuel)) hloc hm hstep.tree hstep.pmm
            (hlow.congr hstep.managed_eq))
      apply hrun.mono (fun e he => he)
      intro s' h
      obtain ⟨T', hstep, hslots⟩ := h
      refine ⟨T', hstep, ?_⟩
      intro i
      split
      · rename_i hm
        exact (hslots i).1 hm
      · rename_i hm
        exact (hslots i).2 hm

def keyValue (value : Uintptr → BitVec 64) (B : Nat) : Nat → BitVec 64 :=
  fun k => value (BitVec.ofNat 64 (B + 4096 * k))

theorem LocAt.depth_le (h : LocAt loc n B a b) : loc.page.depth ≤ pageMapDepthBottom := by
  have := h.depth
  unfold pageMapDepthBottom
  omega

theorem LocIn.child_bottom (h : LocIn loc 0 B a b) (i : Int) (e : BitVec 64) :
    (loc.child i e).page.depth = 4 := by
  have := h.depth
  simp only [NodeCommandLoc.child]
  omega

theorem leaf_entry {callback : LeafCallback} {value : Uintptr → BitVec 64}
    (hcb : StoresAt callback value) {fuel : Nat} (hloc : LocAt loc 0 B a b) {i : Nat} (hi : i < 512)
    (hm : Meets a b (width 512 0) i) (e : BitVec 64) (entry : EntryPtr) (s : Machine) :
    nodeCallbackLeaf callback fuel (loc.child i e) entry s =
      .ok (s.assign entry (keyValue value B i)) := by
  have hstart : (loc.child i e).start = BitVec.ofNat 64 (B + 4096 * i) := by
    apply BitVec.eq_of_toNat_eq
    unfold Meets at hm
    rw [hloc.child_start hi, BitVec.toNat_ofNat]
    have hfits := hloc.fits
    simp only [width, span, lower] at hm hfits ⊢
    omega
  rw [nodeCallbackLeaf_bottom _ _ (hloc.child_bottom _ _), hcb, hstart]
  rfl

theorem setRange_update {T : PageTree 0} {f : Nat → BitVec 64} {i : Fin 512}
    (hm : Meets a b (width 512 0) i) :
    Function.update (setRange 0 T a (min b i) f : Fin 512 → BitVec 64) i (f i) =
      setRange 0 T a (min b (i.val + 1)) f := by
  funext j
  unfold Meets at hm
  simp only [width] at hm
  by_cases hj : j = i
  · subst hj
    rw [Function.update_self]
    simp only [setRange]
    rw [if_pos (by omega)]
  · have hne : j.val ≠ i.val := fun he => hj (Fin.ext he)
    have hiff : (a ≤ j.val ∧ j.val < min b i) ↔ (a ≤ j.val ∧ j.val < min b (i.val + 1)) := by
      omega
    rw [Function.update_of_ne hj]
    simp only [setRange, hiff]

theorem leaf_table_spec {callback : LeafCallback} {value : Uintptr → BitVec 64}
    (hcb : StoresAt callback value) {fuel : Nat} {T : PageTree 0} (hloc : LocAt loc 0 B a b)
    (htree : TreeOk s loc.page.page T) (hp : PmmOk s) :
    Outcome (fun _ => False)
      (fun s' => TreeStep s s' loc.page.page T (setRange 0 T a b (keyValue value B)))
      (applyNodes loc (nodeCallbackLeaf callback fuel) s) := by
  have hrun : Outcome (fun _ => False) _ (applyNodes loc (nodeCallbackLeaf callback fuel) s) :=
    hloc.loop
    (fun k s₁ => TreeStep s s₁ loc.page.page T (setRange 0 T a (min b k) (keyValue value B)))
    (by
      intro i hi hm s₁ hstep
      apply Outcome.of_eq (leaf_entry hcb hloc hi hm _ _ s₁)
      have hassign := assign_leaf hstep.tree hstep.pmm ⟨i, hi⟩ (keyValue value B i)
      rw [setRange_update (i := ⟨i, hi⟩) hm] at hassign
      apply hstep.trans hassign
      rw [tables, pages_zero]
      exact Finset.empty_subset _)
    (by
      have hnone : setRange 0 T a (min b (a / width 512 0)) (keyValue value B) = T := by
        apply setRange_eq_self
        intro k _
        simp only [width, Nat.div_one]
        omega
      rw [hnone]
      exact TreeStep.refl htree hp)
  have hend : min b ((b + width 512 0 - 1) / width 512 0) = b := by
    simp only [width, Nat.div_one]
    omega
  rw [hend] at hrun
  exact hrun

/-- What the pass does below a table of height `n` whose keys in the range are all mapped. -/
def StoresBelow (callback : LeafCallback) (value : Uintptr → BitVec 64) (n fuel : Nat) : Prop :=
  ∀ {loc : NodeCommandLoc} {B a b : Nat} {s : Machine} {T : PageTree n}, LocAt loc n B a b →
    TreeOk s loc.page.page T → PmmOk s → (∀ k, a ≤ k → k < b → Covered n T k) →
    Outcome (fun _ => False)
      (fun s' => TreeStep s s' loc.page.page T (setRange n T a b (keyValue value B)))
      (applyNodes loc (nodeCallbackLeaf callback fuel) s)

theorem TreeOk.child_page {T : PageTree (n + 1)} (h : TreeOk s loc.page.page T) {i : Fin 512}
    {w : BitVec 64} {c : PageTree n} (hT : T i = .table w c) :
    (loc.child i.val (s.load ⟨loc.page.page, i⟩)).page.page = entryCoding.addr w := by
  rw [← (h.entry hT).1]
  rfl

theorem leaf_visit {callback : LeafCallback} {value : Uintptr → BitVec 64} {fuel : Nat}
    (hbelow : StoresBelow callback value n fuel) (hloc : LocAt loc (n + 1) B a b) {i : Fin 512}
    (hm : Meets a b (span 512 n) i) {T : PageTree (n + 1)} (htree : TreeOk s loc.page.page T)
    (hp : PmmOk s) {w : BitVec 64} {c : PageTree n} (hT : T i = .table w c)
    (hcov : ∀ k, lower a (span 512 n) i ≤ k → k < upper b (span 512 n) i → Covered n c k) :
    Outcome (fun _ => False)
      (fun s' => TreeStep s s' loc.page.page T
        (T.set i ((setRange (n + 1) T a b (keyValue value B)) i)))
      (nodeCallbackLeaf callback (fuel + 1) (loc.child i.val (s.load ⟨loc.page.page, i⟩))
        ⟨loc.page.page, i⟩ s) := by
  have hchild := hloc.child hm (s.load ⟨loc.page.page, i⟩)
  have hpage := htree.child_page hT
  have htree₁ := htree.child hT
  rw [← hpage] at htree₁
  rw [nodeCallbackLeaf_below _ _ hchild.depth_le, setRange_table hT]
  apply (hbelow hchild htree₁ hp hcov).mono (fun e he => he)
  intro s₁ hstep
  rw [hpage] at hstep
  have hvalue : keyValue value (B + 4096 * (i.val * span 512 n)) =
      fun k => keyValue value B (i.val * span 512 n + k) := by
    funext k
    unfold keyValue
    congr 2
    ring
  rw [← hvalue]
  exact TreeStep.lift htree hT hstep

theorem eq_of_slots {T T' T₁ : PageTree (n + 1)}
    (h : ∀ i : Fin 512, (Meets a b (span 512 n) i → T' i = T₁ i) ∧
      (¬ Meets a b (span 512 n) i → T' i = T i))
    (hT₁ : ∀ i : Fin 512, ¬ Meets a b (span 512 n) i → T₁ i = T i) : T' = T₁ := by
  funext i
  by_cases hm : Meets a b (span 512 n) i
  · exact (h i).1 hm
  · rw [(h i).2 hm, hT₁ i hm]

theorem setRange_congr {T T₁ : PageTree (n + 1)} {i : Fin 512} (h : T₁ i = T i)
    (f : Nat → BitVec 64) : (setRange (n + 1) T₁ a b f) i = (setRange (n + 1) T a b f) i := by
  simp only [setRange, h]

theorem leaf_spec {callback : LeafCallback} {value : Uintptr → BitVec 64}
    (hcb : StoresAt callback value) (n : Nat) : ∀ {fuel : Nat}, n ≤ fuel →
    StoresBelow callback value n fuel := by
  induction n with
  | zero =>
    intro fuel _ loc B a b s T hloc htree hp _
    exact leaf_table_spec hcb hloc htree hp
  | succ n ih =>
    intro fuel hfuel loc B a b s T hloc htree hp hcov
    cases fuel with
    | zero => omega
    | succ fuel =>
      have hrun : Outcome (fun _ => False) _
          (applyNodes loc (nodeCallbackLeaf callback (fuel + 1)) s) := hloc.slots htree hp
        (fun i x => x = (setRange (n + 1) T a b (keyValue value B)) i)
        (by
          intro i hm s₁ T₁ hstep hold
          obtain ⟨w, c, hT, hbelow⟩ := table_of_covered (by decide) hloc.lt hcov hm
          apply (leaf_visit (ih (Nat.le_of_succ_le_succ hfuel)) hloc hm hstep.tree hstep.pmm
            (hold.trans hT) hbelow).mono (fun e he => he)
          intro s₂ hstep₂
          exact ⟨_, setRange_congr hold _, hstep₂⟩)
      apply hrun.mono (fun e he => he)
      intro s' h
      obtain ⟨T', hstep, hslots⟩ := h
      rwa [eq_of_slots hslots fun i hm => setRange_of_not_meets hm] at hstep

/-- What the callback does before it looks at the table behind the entry. -/
def gcBelow (fuel : Nat) (loc : NodeCommandLoc) (s : Machine) : Except Fault Machine :=
  if loc.page.depth < pageMapDepthBottom then
    match fuel with
    | 0 => .error .outOfFuel
    | fuel + 1 => applyNodes loc (nodeCallbackGc fuel) s
  else .ok s

theorem nodeCallbackGc_eq (fuel : Nat) (loc : NodeCommandLoc) (entry : EntryPtr) (s : Machine) :
    nodeCallbackGc fuel loc entry s =
      if s.load entry &&& mmuRegPresent = 0#64 then .ok s
      else gcBelow fuel loc s >>= fun s =>
        if emptyTable (s.mem loc.page.page) then pmmFreePage (s.assign entry 0#64) loc.page.page
        else .ok s := by
  cases fuel <;> rfl

/-- What holds below an entry, and through the clearing of the entry and the freeing of its table,
holds of the whole visit. -/
theorem nodeCallbackGc_of_below {bad : Fault → Prop} {I : Machine → Prop}
    (hassign : ∀ s entry, I s → I (s.assign entry 0#64))
    (hfree : ∀ s p, I s → Outcome bad I (pmmFreePage s p)) {fuel : Nat} (entry : EntryPtr)
    (hs : I s) (hbelow : Outcome bad I (gcBelow fuel loc s)) :
    Outcome bad I (nodeCallbackGc fuel loc entry s) := by
  rw [nodeCallbackGc_eq]
  by_cases hp : s.load entry &&& mmuRegPresent = 0#64
  · rw [if_pos hp]
    exact hs
  rw [if_neg hp]
  apply hbelow.bind
  intro s' hs'
  generalize emptyTable (s'.mem loc.page.page) = e
  cases e with
  | true => exact hfree _ _ (hassign _ _ hs')
  | false => exact hs'

theorem emptyTable_iff {t : Physical} {T : PageTree n} (h : pageTree s n t = T) :
    emptyTable (s.mem t) = true ↔ Empty entryCoding n T := by
  have hall : emptyTable (s.mem t) = true ↔
      ∀ i, entryCoding.present (s.mem t i) = false := by
    simp [emptyTable, not_present_iff]
  rw [hall]
  subst h
  cases n with
  | zero => rfl
  | succ n =>
    constructor
    · intro h i
      exact ⟨_, readSlot_absent entryCoding (h i)⟩
    · intro h i
      obtain ⟨w, hw⟩ := h i
      obtain ⟨hentry, hpresent⟩ := read_absent entryCoding hw
      rw [hentry]
      exact hpresent

theorem prune_slot_subset {T₁ : PageTree (n + 1)} {i : Fin 512} {w : BitVec 64} {c : PageTree n}
    (hT : T₁ i = .table w c) {c' : PageTree n} (hsub : tables c' ⊆ tables c)
    (x : Slot (BitVec 64) (PageTree n)) :
    tables (T₁.set i (.table w c')) ⊆ tables T₁ ∪ tables (T₁.set i x) := by
  intro p hp
  rw [Finset.mem_union]
  left
  rcases mem_tables_set.mp hp with hp | ⟨j, -, hp⟩
  · apply slot_subset hT
    rw [slotTables_table] at hp
    exact Finset.insert_subset_insert _ hsub hp
  · exact slotTables_subset T₁ j hp

theorem prune_congr {T T₁ : PageTree (n + 1)} {i : Fin 512} (h : T₁ i = T i) :
    (prune entryCoding 0#64 (n + 1) T₁ a b) i = (prune entryCoding 0#64 (n + 1) T a b) i := by
  simp only [prune, h]

/-- What the pass does below a table of height `n`, if all tables that go are pages of the
allocator. -/
def CollectsBelow (n fuel : Nat) : Prop :=
  ∀ {loc : NodeCommandLoc} {B a b : Nat} {s : Machine} {T : PageTree n}, LocAt loc n B a b →
    TreeOk s loc.page.page T → PmmOk s →
    (∀ p ∈ tables T, p ∉ tables (prune entryCoding 0#64 n T a b) → p ∈ s.pmm.managedPages) →
    Outcome (fun _ => False)
      (fun s' => TreeStep s s' loc.page.page T (prune entryCoding 0#64 n T a b))
      (gcBelow fuel loc s)

theorem gone_below {T : PageTree (n + 1)} (htree : TreeOk s loc.page.page T) {i : Fin 512}
    (hm : Meets a b (span 512 n) i) {w : BitVec 64} {c : PageTree n} (hT : T i = .table w c)
    {p : Physical} (hin : p ∈ tables c)
    (hout : p ∉ tables (prune entryCoding 0#64 n c (lower a (span 512 n) i)
      (upper b (span 512 n) i))) :
    p ∉ slotTables ((prune entryCoding 0#64 (n + 1) T a b) i) := by
  have hprune : (prune entryCoding 0#64 (n + 1) T a b) i = _ := prune_table entryCoding hm hT
  rw [hprune]
  split
  · exact Finset.notMem_empty p
  · rw [slotTables_table, Finset.mem_insert, not_or]
    refine ⟨?_, hout⟩
    rintro rfl
    exact (htree.child hT).root hin

theorem gc_visit {fuel : Nat} (hbelow : CollectsBelow n fuel) (hloc : LocAt loc (n + 1) B a b)
    {i : Fin 512} (hm : Meets a b (span 512 n) i) {T : PageTree (n + 1)}
    (htree : TreeOk s loc.page.page T) (hp : PmmOk s)
    (hgone : ∀ p ∈ slotTables (T i), p ∉ slotTables ((prune entryCoding 0#64 (n + 1) T a b) i) →
      p ∈ s.pmm.managedPages) :
    Outcome (fun _ => False)
      (fun s' => TreeStep s s' loc.page.page T
        (T.set i ((prune entryCoding 0#64 (n + 1) T a b) i)))
      (nodeCallbackGc fuel (loc.child i.val (s.load ⟨loc.page.page, i⟩))
        ⟨loc.page.page, i⟩ s) := by
  rw [nodeCallbackGc_eq]
  cases hT : T i with
  | absent v =>
    obtain ⟨hentry, hpresent⟩ := htree.absent_entry hT
    rw [if_pos (by rw [Machine.load, hentry]; exact not_present_iff.mp hpresent),
      prune_absent entryCoding hT, ← hT, Tree.set_eq]
    exact TreeStep.refl htree hp
  | table w c =>
    obtain ⟨hentry, hpresent, -⟩ := htree.entry hT
    have hchild := hloc.child hm (s.load ⟨loc.page.page, i⟩)
    have hpage := htree.child_page hT
    have htree₁ := htree.child hT
    rw [hT, slotTables_table] at hgone
    have hman : ∀ p ∈ tables c, p ∉ tables (prune entryCoding 0#64 n c
        (lower a (span 512 n) i) (upper b (span 512 n) i)) → p ∈ s.pmm.managedPages :=
      fun p hin hout => hgone p (Finset.mem_insert_of_mem hin) (gone_below htree hm hT hin hout)
    have hprune : (prune entryCoding 0#64 (n + 1) T a b) i = _ := prune_table entryCoding hm hT
    rw [← hpage] at htree₁
    rw [if_neg (by rw [Machine.load, hentry]; exact present_iff.mp hpresent)]
    apply (hbelow hchild htree₁ hp hman).bind
    intro s₁ hstep
    rw [hpage] at hstep ⊢
    have hlift := TreeStep.lift htree hT hstep
    have hcases := Classical.em (Empty entryCoding n (prune entryCoding 0#64 n c
        (lower a (span 512 n) i) (upper b (span 512 n) i)))
    cases hcases with
    | inl hempty =>
      rw [if_pos ((emptyTable_iff hstep.tree.read_eq).mpr hempty)]
      rw [if_pos hempty] at hprune
      have hman₁ : entryCoding.addr w ∈ s₁.pmm.managedPages := by
        rw [hlift.managed_eq]
        apply hgone _ (Finset.mem_insert_self _ _)
        rw [hprune]
        exact Finset.notMem_empty _
      obtain ⟨s₂, hfree, hstep₂⟩ := TreeStep.of_freed hlift.tree hlift.pmm
        (Tree.set_self ..) hman₁ hempty
      rw [Tree.set_set] at hstep₂
      rw [hprune]
      apply Outcome.of_eq hfree
      exact hlift.trans hstep₂ (prune_slot_subset hT (pages_prune entryCoding) _)
    | inr hempty =>
      rw [if_neg (fun h => hempty ((emptyTable_iff hstep.tree.read_eq).mp h))]
      rw [if_neg hempty] at hprune
      rw [hprune]
      exact hlift

theorem gcBelow_spec (n : Nat) : ∀ {fuel : Nat}, n ≤ fuel → CollectsBelow n fuel := by
  induction n with
  | zero =>
    intro fuel _ loc B a b s T hloc htree hp _
    have hdepth := hloc.depth
    unfold gcBelow
    rw [if_neg (by unfold pageMapDepthBottom; omega)]
    exact TreeStep.refl htree hp
  | succ n ih =>
    intro fuel hfuel loc B a b s T hloc htree hp hman
    cases fuel with
    | zero => omega
    | succ fuel =>
      have hdepth := hloc.depth
      unfold gcBelow
      rw [if_pos (by unfold pageMapDepthBottom; omega)]
      have hrun : Outcome (fun _ => False) _ (applyNodes loc (nodeCallbackGc fuel) s) :=
        hloc.slots htree hp (fun i x => x = (prune entryCoding 0#64 (n + 1) T a b) i)
        (by
          intro i hm s₁ T₁ hstep hold
          have hgone : ∀ p ∈ slotTables (T₁ i),
              p ∉ slotTables ((prune entryCoding 0#64 (n + 1) T₁ a b) i) →
              p ∈ s₁.pmm.managedPages := by
            intro p hin hout
            rw [hold] at hin
            rw [prune_congr hold] at hout
            rw [hstep.managed_eq]
            exact hman p (slotTables_subset T i hin)
              (htree.separated.notMem_prune entryCoding hin hout)
          apply (gc_visit (ih (Nat.le_of_succ_le_succ hfuel)) hloc hm hstep.tree hstep.pmm
            hgone).mono (fun e he => he)
          intro s₂ hstep₂
          exact ⟨_, prune_congr hold, hstep₂⟩)
      apply hrun.mono (fun e he => he)
      intro s' h
      obtain ⟨T', hstep, hslots⟩ := h
      rwa [eq_of_slots hslots fun i hm => prune_not_meets entryCoding hm] at hstep

end Ukulele
