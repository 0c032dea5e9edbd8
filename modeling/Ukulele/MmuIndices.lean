import Ukulele.MmuLocs

/-! The entries that a walk visits, whatever the memory holds: walks that stay inside their
tables, and walks that do not.
-/

set_option autoImplicit false

namespace Ukulele
open RadixTree

/-- Down to the leaf entries, `m` levels below, the walk over the location visits entries that
its tables have. -/
def InTables : Nat → NodeCommandLoc → Prop
  | 0, _ => True
  | m + 1, loc => loc.endIdx ≤ 512 ∧ ∀ i : Nat, loc.startIdx ≤ i → (i : Int) < loc.endIdx →
      ∀ entry, InTables m (loc.child i entry)

theorem NodeCommandLoc.shift_lt (loc : NodeCommandLoc) : loc.shift + 9 < 64 := by
  unfold NodeCommandLoc.shift depthShiftSize
  split <;> decide

theorem NodeCommandLoc.startIdx_eq (loc : NodeCommandLoc) :
    loc.startIdx = ((loc.start.toNat / 2 ^ loc.shift % 512 : Nat) : Int) := by
  have hs := loc.shift_lt
  have hcount : mmuRegPageMapEntryCount <<< loc.shift = 1#64 <<< (loc.shift + 9) := by
    rw [show mmuRegPageMapEntryCount = 1#64 <<< 9 by decide, ← BitVec.shiftLeft_add, Nat.add_comm]
  have hbase : loc.base.toNat =
      loc.start.toNat / 2 ^ loc.shift / 512 * 512 * 2 ^ loc.shift := by
    rw [NodeCommandLoc.base, hcount, toNat_roundDownP2 _ (by omega), Nat.pow_add,
      Nat.div_div_eq_div_mul]
    ring
  have hdown : (roundDownP2 loc.start (1#64 <<< loc.shift)).toNat =
      loc.start.toNat / 2 ^ loc.shift * 2 ^ loc.shift := toNat_roundDownP2 _ (by omega)
  have hle : loc.base.toNat ≤ (roundDownP2 loc.start (1#64 <<< loc.shift)).toNat := by
    rw [hbase, hdown]
    exact Nat.mul_le_mul_right _ (Nat.div_mul_le_self _ _)
  have hidx : ((roundDownP2 loc.start (1#64 <<< loc.shift) - loc.base) >>> loc.shift).toNat =
      loc.start.toNat / 2 ^ loc.shift % 512 := by
    rw [BitVec.toNat_ushiftRight, BitVec.toNat_sub_of_le (BitVec.le_def.mpr hle), hdown, hbase,
      ← Nat.sub_mul, Nat.shiftRight_eq_div_pow, Nat.mul_div_cancel _ (Nat.two_pow_pos _)]
    omega
  rw [NodeCommandLoc.startIdx, toInt_eq (by rw [hidx]; omega), hidx]

theorem NodeCommandLoc.child_depth (loc : NodeCommandLoc) (i : Int) (e : BitVec 64) :
    (loc.child i e).page.depth = loc.page.depth + 1 := rfl

theorem inTables_page {loc loc' : NodeCommandLoc} (hs : loc'.start = loc.start)
    (he : loc'.endAt = loc.endAt) (hd : loc'.page.depth = loc.page.depth) (m : Nat) :
    InTables m loc' ↔ InTables m loc := by
  obtain ⟨⟨p, d⟩, start, endAt⟩ := loc
  obtain ⟨⟨p', d'⟩, start', endAt'⟩ := loc'
  simp only at hs he hd
  subst hs he hd
  cases m with
  | zero => rfl
  | succ m => rfl

section Inside

variable {bad : Fault → Prop} {I : Machine → Prop}

theorem applyNodes_inTables {m : Nat} {loc : NodeCommandLoc} {visit : NodeCallback}
    (h : InTables (m + 1) loc)
    (hvisit : ∀ i e entry s, InTables m (loc.child i e) → I s →
      Outcome bad I (visit (loc.child i e) entry s)) {s : Machine} (hs : I s) :
    Outcome bad I (applyNodes loc visit s) := by
  obtain ⟨hend, hchild⟩ := h
  have hloop : ∀ (n i : Nat) (s : Machine), loc.startIdx ≤ i → (i : Int) + n ≤ loc.endIdx → I s →
      Outcome bad I (applyNodesLoop loc visit n i s) := by
    intro n
    induction n with
    | zero => exact fun _ _ _ _ hI => hI
    | succ n ih =>
      intro i s hlo hhi hI
      have hi : i < 512 := by omega
      simp only [applyNodesLoop, tableIndex_ok hi]
      apply (hvisit _ _ _ _ (hchild i hlo (by omega) _) hI).bind
      intro s' hI'
      have := ih (i + 1) s' (by omega) (by omega) hI'
      simpa using this
  have hstart := loc.startIdx_eq
  rw [applyNodes]
  by_cases hlt : loc.startIdx ≤ loc.endIdx
  · rw [hstart]
    apply hloop _ _ s (by omega) _ hs
    omega
  · rw [show (loc.endIdx - loc.startIdx).toNat = 0 by omega]
    exact hs

def StoresAt (callback : LeafCallback) (value : Uintptr → BitVec 64) : Prop :=
  ∀ virtAddr entry s, callback virtAddr entry s = .ok (s.assign entry (value virtAddr))

theorem nodeCallbackLeaf_bottom (callback : LeafCallback) (fuel : Nat) {loc : NodeCommandLoc}
    (h : loc.page.depth = 4) (entry : EntryPtr) (s : Machine) :
    nodeCallbackLeaf callback fuel loc entry s = callback loc.start entry s := by
  unfold nodeCallbackLeaf
  rw [if_neg (by rw [h]; decide)]

theorem nodeCallbackLeaf_below (callback : LeafCallback) (fuel : Nat) {loc : NodeCommandLoc}
    (h : loc.page.depth ≤ pageMapDepthBottom) (entry : EntryPtr) (s : Machine) :
    nodeCallbackLeaf callback (fuel + 1) loc entry s =
      applyNodes loc (nodeCallbackLeaf callback fuel) s := by
  unfold nodeCallbackLeaf
  rw [if_pos h]

variable {callback : LeafCallback} {value : Uintptr → BitVec 64}

theorem nodeCallbackLeaf_inTables (hcb : StoresAt callback value)
    (hI : ∀ s entry v, I s → I (s.assign entry (value v))) (m : Nat) :
    ∀ {fuel : Nat} {loc : NodeCommandLoc} {entry : EntryPtr} {s : Machine},
    loc.page.depth + m = 4 → m ≤ fuel → InTables m loc → I s →
    Outcome (fun _ => False) I (nodeCallbackLeaf callback fuel loc entry s) := by
  induction m with
  | zero =>
    intro fuel loc entry s hd _ _ hs
    rw [nodeCallbackLeaf_bottom _ _ hd, hcb]
    exact hI _ _ _ hs
  | succ m ih =>
    intro fuel loc entry s hd hfuel h hs
    cases fuel with
    | zero => omega
    | succ fuel =>
      rw [nodeCallbackLeaf_below _ _ (by unfold pageMapDepthBottom; omega)]
      apply applyNodes_inTables h _ hs
      intro i e entry s hin hs
      exact ih (by rw [loc.child_depth]; omega) (by omega) hin hs

theorem leaf_inTables (hcb : StoresAt callback value)
    (hI : ∀ s entry v, I s → I (s.assign entry (value v))) {m fuel : Nat} {loc : NodeCommandLoc}
    {s : Machine} (hd : loc.page.depth + m = 3) (hfuel : m ≤ fuel) (h : InTables (m + 1) loc)
    (hs : I s) :
    Outcome (fun _ => False) I (applyNodes loc (nodeCallbackLeaf callback fuel) s) := by
  apply applyNodes_inTables h _ hs
  intro i e entry s hin hs
  exact nodeCallbackLeaf_inTables hcb hI m (by rw [loc.child_depth]; omega) hfuel hin hs

end Inside

section Past

variable {callback : LeafCallback} {value : Uintptr → BitVec 64}

/-- A fault of the walk itself: an entry that its table does not have. -/
def IndexFault (e : Fault) : Prop := ∃ i, e = .tableIndexOutOfBounds i

theorem tableIndex_past {i : Nat} (h : ¬ i < 512) :
    tableIndex (i : Int) = .error (.tableIndexOutOfBounds i) := by
  have hb : ¬ ((0 : Int) ≤ i ∧ (i : Int) < 512) := by omega
  simp only [tableIndex, hb, dite_false]

theorem applyNodesLoop_past {loc : NodeCommandLoc} {visit : NodeCallback} {j : Nat}
    (hvisit : ∀ i e entry s, Outcome IndexFault (fun _ => True) (visit (loc.child i e) entry s))
    (hj : ¬ j < 512 ∨ ∀ e entry s, ∃ k,
      visit (loc.child j e) entry s = .error (.tableIndexOutOfBounds k)) (n : Nat) :
    ∀ {i : Nat} {s : Machine}, i ≤ j → j < i + n →
    ∃ k, applyNodesLoop loc visit n i s = .error (.tableIndexOutOfBounds k) := by
  induction n with
  | zero =>
    intro i s hlo hhi
    omega
  | succ n ih =>
    intro i s hlo hhi
    by_cases hi : i < 512
    · simp only [applyNodesLoop, tableIndex_ok hi, bind, Except.bind]
      by_cases hij : i = j
      · subst hij
        cases hj with
        | inl hn => exact absurd hi hn
        | inr he =>
          obtain ⟨k, hk⟩ := he (s.load ⟨loc.page.page, ⟨i, hi⟩⟩) ⟨loc.page.page, ⟨i, hi⟩⟩ s
          exact ⟨k, by rw [hk]⟩
      · have hout := hvisit i (s.load ⟨loc.page.page, ⟨i, hi⟩⟩) ⟨loc.page.page, ⟨i, hi⟩⟩ s
        cases hrun : visit (loc.child i (s.load ⟨loc.page.page, ⟨i, hi⟩⟩))
            ⟨loc.page.page, ⟨i, hi⟩⟩ s with
        | error e =>
          rw [hrun] at hout
          obtain ⟨k, rfl⟩ := hout
          exact ⟨k, rfl⟩
        | ok s' =>
          obtain ⟨k, hk⟩ := ih (i := i + 1) (s := s') (by omega) (by omega)
          refine ⟨k, ?_⟩
          rw [← hk]
          rfl
    · refine ⟨i, ?_⟩
      rw [applyNodesLoop, tableIndex_past hi]
      rfl

theorem leaf_past (hcb : StoresAt callback value) (m : Nat) :
    ∀ {fuel : Nat} {loc : NodeCommandLoc} {s : Machine}, loc.page.depth + m = 3 → m ≤ fuel →
    ¬ InTables (m + 1) loc →
    ∃ k, applyNodes loc (nodeCallbackLeaf callback fuel) s = .error (.tableIndexOutOfBounds k) := by
  induction m with
  | zero =>
    intro fuel loc s hd _ h
    have hend : ¬ loc.endIdx ≤ 512 := fun hle => h ⟨hle, fun _ _ _ _ => trivial⟩
    have hstart := loc.startIdx_eq
    rw [applyNodes, hstart]
    apply applyNodesLoop_past (j := 512) _ (Or.inl (by omega)) _ (by omega) (by omega)
    intro i e entry s
    have hbottom : (loc.child i e).page.depth = 4 := by
      rw [loc.child_depth]
      omega
    rw [nodeCallbackLeaf_bottom _ _ hbottom, hcb]
    trivial
  | succ m ih =>
    intro fuel loc s hd hfuel h
    cases fuel with
    | zero => omega
    | succ fuel =>
      have hstart := loc.startIdx_eq
      have hdepth : ∀ i e, (loc.child i e).page.depth + m = 3 := by
        intro i e
        rw [loc.child_depth]
        omega
      have hbelow : ∀ i e entry s, nodeCallbackLeaf callback (fuel + 1) (loc.child i e) entry s =
          applyNodes (loc.child i e) (nodeCallbackLeaf callback fuel) s := by
        intro i e entry s
        have := hdepth i e
        exact nodeCallbackLeaf_below _ _ (by unfold pageMapDepthBottom; omega) _ _
      have hvisit : ∀ i e entry s, Outcome IndexFault (fun _ => True)
          (nodeCallbackLeaf callback (fuel + 1) (loc.child i e) entry s) := by
        intro i e entry s
        rw [hbelow]
        cases Classical.em (InTables (m + 1) (loc.child i e)) with
        | inl hin =>
          exact (leaf_inTables hcb (fun _ _ _ h => h) (hdepth i e) (by omega) hin trivial).mono
            (fun e he => he.elim) (fun _ h => h)
        | inr hout =>
          obtain ⟨k, hk⟩ := ih (s := s) (hdepth i e) (by omega : m ≤ fuel) hout
          rw [hk]
          exact ⟨k, rfl⟩
      rw [applyNodes, hstart]
      by_cases hend : loc.endIdx ≤ 512
      · have hex : ∃ j : Nat, loc.startIdx ≤ j ∧ (j : Int) < loc.endIdx ∧
            ∃ e, ¬ InTables (m + 1) (loc.child j e) := by
          by_contra hall
          apply h
          refine ⟨hend, ?_⟩
          intro i hlo hhi e
          by_contra hn
          exact hall ⟨i, hlo, hhi, e, hn⟩
        obtain ⟨j, hlo, hhi, e, hout⟩ := hex
        apply applyNodesLoop_past (j := j) hvisit (Or.inr _) _ (by omega) (by omega)
        intro e' entry s
        rw [hbelow]
        apply ih (hdepth j e') (by omega)
        exact fun hin => hout ((inTables_page rfl rfl rfl (m + 1)).mp hin)
      · exact applyNodesLoop_past (j := 512) hvisit (Or.inl (by omega)) _ (by omega) (by omega)

end Past

theorem LocAt.inTables (n : Nat) : ∀ {loc : NodeCommandLoc} {B a b : Nat}, LocAt loc n B a b →
    InTables (n + 1) loc := by
  induction n with
  | zero =>
    intro loc B a b h
    refine ⟨?_, fun _ _ _ _ => trivial⟩
    rw [h.endIdx_eq]
    have := h.endIdx_le
    omega
  | succ n ih =>
    intro loc B a b h
    refine ⟨?_, ?_⟩
    · rw [h.endIdx_eq]
      have := h.endIdx_le
      omega
    · intro i hlo hhi e
      rw [h.startIdx_eq] at hlo
      rw [h.endIdx_eq] at hhi
      exact ih (h.child ((meets_iff h.width_pos).mpr ⟨by omega, by omega⟩) e)

end Ukulele
