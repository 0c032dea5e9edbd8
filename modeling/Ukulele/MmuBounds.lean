import Ukulele.MmuEffects

/-! Where the calls index past a table. The walk over a range stays inside its tables exactly if
the range ends in the table it starts from and no entry is visited whose end wraps to 0.
-/

set_option autoImplicit false

namespace Ukulele
open RadixTree

section Locations

variable {loc : NodeCommandLoc} {n B a b : Nat}

theorem LocIn.width_le (h : LocIn loc n B a b) : 4096 * width 512 n ≤ 2 ^ 39 :=
  Nat.le_of_dvd (by decide) h.shift_eq.2.2.2

theorem LocIn.endIdx_le_iff (h : LocIn loc n B a b) (hn : 0 < n) :
    loc.endIdx ≤ 512 ↔ b ≤ span 512 n := by
  have hw := h.width_pos
  have hsmall := h.small
  have hbig : 512 ≤ width 512 n := by
    rcases h.level with rfl | rfl | rfl | rfl
    · contradiction
    all_goals decide
  have hcount : (b + width 512 n - 1) / width 512 n < 2 ^ 31 := by
    apply Nat.div_lt_of_lt_mul
    have hmul : 512 * 2 ^ 31 ≤ width 512 n * 2 ^ 31 := Nat.mul_le_mul_right _ hbig
    have hle := h.width_le
    omega
  have hiff : (b + width 512 n - 1) / width 512 n ≤ 512 ↔ b ≤ 512 * width 512 n := by
    rw [← Nat.lt_succ_iff, Nat.div_lt_iff_lt_mul hw, Nat.succ_mul]
    omega
  rw [h.endIdx_eq hcount, span_eq_mul_width, ← hiff]
  omega

theorem toInt_le_iff (x : BitVec 64) :
    toInt x ≤ 512 ↔ x.toNat % 2 ^ 32 ≤ 512 ∨ 2 ^ 31 ≤ x.toNat % 2 ^ 32 := by
  have hlt := Nat.mod_lt x.toNat (by decide : 0 < 2 ^ 32)
  rw [toInt, BitVec.toInt_eq_toNat_cond, BitVec.toNat_setWidth]
  split <;> omega

theorem LocIn.inTables_bottom (h : LocIn loc 0 B a b) :
    InTables 1 loc ↔ b % 2 ^ 32 ≤ 512 ∨ 2 ^ 31 ≤ b % 2 ^ 32 := by
  have hcount := h.endCount_eq
  have hone : width 512 0 = 1 := rfl
  rw [hone, Nat.add_sub_cancel, Nat.div_one] at hcount
  rw [← hcount, ← toInt_le_iff]
  exact ⟨fun hin => hin.1, fun hle => ⟨hle, fun _ _ _ _ => trivial⟩⟩

theorem LocIn.past (h : LocIn loc n B a b) (hb : span 512 n < b) (hs : n = 0 → b < 2 ^ 31) :
    ¬ InTables (n + 1) loc := by
  cases n with
  | zero =>
    have h512 : span 512 0 = 512 := rfl
    have := hs rfl
    rw [h.inTables_bottom]
    omega
  | succ n =>
    intro hin
    have := (h.endIdx_le_iff (Nat.succ_pos n)).mp hin.1
    omega

theorem LocIn.visits (h : LocIn loc n B a b) (hb : b ≤ span 512 n) {i : Nat} :
    Meets a b (width 512 n) i ↔ loc.startIdx ≤ i ∧ (i : Int) < loc.endIdx := by
  have hw := h.width_pos
  have hle : (b + width 512 n - 1) / width 512 n ≤ 512 := by
    rw [span_eq_mul_width] at hb
    rw [← Nat.lt_succ_iff, Nat.div_lt_iff_lt_mul hw, Nat.succ_mul]
    omega
  rw [meets_iff hw, h.startIdx_eq, h.endIdx_eq (by omega)]
  omega

theorem LocIn.past_zero_of_lt (h : LocIn loc (n + 1) B a (span 512 (n + 1)))
    (hB : B + 4096 * span 512 (n + 1) = 2 ^ 64) (hfirst : a / span 512 n < 511) :
    ¬ InTables (n + 2) loc := by
  intro hin
  have hspan : span 512 (n + 1) = 512 * span 512 n := rfl
  have hw : 0 < span 512 n := h.width_pos
  have hsmall := h.small_span
  have hm : Meets a (span 512 (n + 1)) (width 512 (n + 1)) (a / span 512 n) :=
    meets_div hw (Nat.le_refl a) h.inside
  have hidx := (h.visits (Nat.le_refl _)).mp hm
  have hile : a / span 512 n * span 512 n ≤ 510 * span 512 n := Nat.mul_le_mul_right _ (by omega)
  have hzero : (loc.child (a / span 512 n : Nat) 0#64).endAt = 0#64 := by
    apply BitVec.eq_of_toNat_eq
    rw [h.child_end, h.endAt, hB]
    exact Nat.zero_min _
  have hrest : B + 4096 * (a / span 512 n * span 512 n) +
      4096 * (span 512 (n + 1) - a / span 512 n * span 512 n) = 2 ^ 64 := by omega
  have hchild := h.child_zero (by omega) (by omega) hm.2 0#64 hzero hrest
  apply hchild.past _ _ (hin.2 _ hidx.1 hidx.2 0#64)
  · omega
  · rintro rfl
    have h₁ : span 512 (0 + 1) = 512 * 512 := rfl
    omega

theorem LocIn.past_zero (n : Nat) : ∀ {loc : NodeCommandLoc} {B a : Nat},
    LocIn loc (n + 1) B a (span 512 (n + 1)) → B + 4096 * span 512 (n + 1) = 2 ^ 64 →
    B + 4096 * a + 2 ^ 21 < 2 ^ 64 → ¬ InTables (n + 2) loc := by
  induction n with
  | zero =>
    intro loc B a h hB ha hin
    have h₁ : span 512 1 = 512 * 512 := rfl
    have h₀ : span 512 0 = 512 := rfl
    have hw : 0 < span 512 0 := by decide
    have hfirst : a / 512 < 511 := by
      rw [zero_add, h₁] at hB
      omega
    exact h.past_zero_of_lt hB hfirst hin
  | succ n ih =>
    intro loc B a h hB ha hin
    have hspan : span 512 (n + 1 + 1) = 512 * span 512 (n + 1) := rfl
    have hw : 0 < span 512 (n + 1) := h.width_pos
    by_cases hfirst : a / span 512 (n + 1) < 511
    · exact h.past_zero_of_lt hB hfirst hin
    · have hle : 511 * span 512 (n + 1) ≤ a :=
        (Nat.le_div_iff_mul_le hw).mp (Nat.le_of_not_lt hfirst)
      have hlt := h.inside
      have hm : Meets a (span 512 (n + 1 + 1)) (width 512 (n + 1 + 1)) 511 := by
        have hwidth : width 512 (n + 1 + 1) = span 512 (n + 1) := rfl
        rw [hwidth]
        unfold Meets
        omega
      have hidx := (h.visits (Nat.le_refl _)).mp hm
      have hlast := h.child_last hB 0#64
      apply ih hlast _ _ (hin.2 511 hidx.1 hidx.2 0#64)
      · omega
      · unfold lower
        omega

theorem LocIn.top_of_lt (h : LocIn loc n B a b) (hb : b ≤ span 512 n)
    (hover : 2 ^ 64 < B + 4096 * b + 4096 * width 512 n) : B + 4096 * span 512 n = 2 ^ 64 := by
  have hbase := h.base
  have hfits := h.fits
  rcases h.level with rfl | rfl | rfl | rfl
  all_goals
    simp only [span, width] at *
    omega

theorem LocIn.inTables_of_last (h : LocIn loc (n + 1) B a b) (hb : b ≤ span 512 (n + 1))
    (hB : B + 4096 * span 512 (n + 1) = 2 ^ 64) (ha : 2 ^ 64 ≤ B + 4096 * a + 2 ^ 21) :
    InTables (n + 2) loc := by
  have hspan : span 512 (n + 1) = 512 * span 512 n := rfl
  have hbig : 512 ≤ span 512 n := by
    rcases h.level with hn | hn | hn | hn
    · omega
    all_goals
      rw [show n = _ from Nat.succ.inj hn]
      decide
  refine ⟨(h.endIdx_le_iff (Nat.succ_pos n)).mpr hb, ?_⟩
  intro i hlo hhi e
  obtain ⟨hmb, hma⟩ : Meets a b (span 512 n) i := (h.visits hb).mpr ⟨hlo, hhi⟩
  -- the range starts behind the last entry
  have hi : i = 511 := by
    have hlt : i < 512 := by
      by_contra hge
      have hmul : 512 * span 512 n ≤ i * span 512 n := Nat.mul_le_mul_right _ (by omega)
      omega
    by_contra hne
    have hmul : (i + 1) * span 512 n ≤ 511 * span 512 n := Nat.mul_le_mul_right _ (by omega)
    omega
  subst hi
  have hlast := h.child_last hB e
  apply LocAt.inTables n ⟨hlast, Nat.le_refl _, _⟩
  right
  unfold lower
  omega

theorem LocIn.inTables_one (h : LocIn loc 1 B a b) (hE : B + 4096 * b < 2 ^ 64)
    (hb : b ≤ span 512 1) : InTables 2 loc := by
  have hspan : span 512 1 = 512 * 512 := rfl
  have hbottom : span 512 0 = 512 := rfl
  have hfits := h.fits
  refine ⟨(h.endIdx_le_iff (by decide)).mpr hb, ?_⟩
  intro i hlo hhi e
  have hm : Meets a b (span 512 0) i := (h.visits hb).mpr ⟨hlo, hhi⟩
  have hi : i < 512 := Meets.lt_fanout (n := 1) hm hb
  by_cases hlast : B + 4096 * ((i + 1) * span 512 0) < 2 ^ 64
  · rw [(h.child_inner hE hi hm hlast e).inTables_bottom]
    have := upper_le b (span 512 0) i
    omega
  · rw [hspan] at hfits
    rw [hbottom] at hlast
    obtain rfl : i = 511 := by omega
    have hB : B + 4096 * span 512 1 = 2 ^ 64 := by omega
    rw [(h.child_last hB e).inTables_bottom]
    decide

theorem LocIn.inTables_iff (h : LocIn loc (n + 1) B a b) (hE : B + 4096 * b < 2 ^ 64) :
    InTables (n + 2) loc ↔ b ≤ span 512 (n + 1) ∧
      (n = 0 ∨ B + 4096 * b + 4096 * span 512 n ≤ 2 ^ 64 ∨ 2 ^ 64 ≤ B + 4096 * a + 2 ^ 21) := by
  have hspan : span 512 (n + 1) = 512 * span 512 n := rfl
  constructor
  · intro hin
    have hb := (h.endIdx_le_iff (Nat.succ_pos n)).mp hin.1
    refine ⟨hb, ?_⟩
    by_contra hnot
    rw [not_or, not_or, Nat.not_le, Nat.not_le] at hnot
    obtain ⟨hn, hover, ha⟩ := hnot
    have hB := h.top_of_lt hb hover
    cases n with
    | zero => exact hn rfl
    | succ k =>
      have hw : 512 * 512 ≤ span 512 (k + 1) := by
        rcases h.level with hk | hk | hk | hk
        · omega
        · omega
        all_goals
          rw [show k + 1 = _ from Nat.succ.inj hk]
          decide
      have hlt := h.inside
      have hm : Meets a b (width 512 (k + 1 + 1)) 511 := by
        have hwidth : width 512 (k + 1 + 1) = span 512 (k + 1) := rfl
        rw [hwidth]
        unfold Meets
        omega
      have hidx := (h.visits hb).mp hm
      have hlast := h.child_last hB 0#64
      apply LocIn.past_zero k hlast _ _ (hin.2 511 hidx.1 hidx.2 0#64)
      · omega
      · unfold lower
        omega
  · rintro ⟨hb, hsafe⟩
    by_cases hover : B + 4096 * b + 4096 * span 512 n ≤ 2 ^ 64
    · exact LocAt.inTables (n + 1) ⟨h, hb, Or.inl hover⟩
    · have hB := h.top_of_lt hb (by
        have hwidth : width 512 (n + 1) = span 512 n := rfl
        rw [hwidth]
        omega)
      rcases hsafe with rfl | hsafe | ha
      · exact h.inTables_one hE hb
      · exact absurd hsafe hover
      · exact h.inTables_of_last hb hB ha

end Locations

section Passes

/-- The faults of a walk, as opposed to those of the allocator. -/
def walkFault : Fault → Bool
  | .tableIndexOutOfBounds _ => true
  | .outOfFuel => true
  | _ => false

theorem pmmFreePage_walks (s : Machine) (p : Physical) :
    Outcome (fun e => walkFault e = false) (fun _ => True) (pmmFreePage s p) := by
  unfold pmmFreePage
  split
  · trivial
  cases owningEntry s.pmm p with
  | none => rfl
  | some j =>
    simp only [bind, Except.bind, pure, Except.pure, entryIndex]
    split
    · rename_i he
      split at he
      · contradiction
      · cases he
        rfl
    · split
      · rfl
      · trivial

theorem assert_walks (cond : Bool) (msg : String) :
    Outcome (fun e => walkFault e = false) (fun _ => True) (assert cond msg) := by
  cases cond with
  | true => trivial
  | false => rfl

theorem pmmAllocatePage_walks (s : Machine) :
    Outcome (fun e => walkFault e = false) (fun r => r.2.cr3 = s.cr3) (pmmAllocatePage s) := by
  unfold pmmAllocatePage
  cases spaceEntry s.pmm with
  | none => rfl
  | some i =>
    unfold pmmCtrlAlloc
    cases hw : Bitset.firstWord (s.mem (s.pmm.entry i).ctrl) with
    | none =>
      simp only [hw]
      rfl
    | some j =>
      simp only [hw]
      rfl

theorem allocate_walks (s : Machine) :
    Outcome (fun e => walkFault e = false) (fun r => r.2.cr3 = s.cr3) (allocate s) := by
  apply (pmmAllocatePage_walks s).bind
  intro r hr
  apply (assert_walks _ _).bind
  intro _ _
  exact hr

theorem reserveEntry_walks (loc : NodeCommandLoc) (entry : EntryPtr) (s : Machine) :
    Outcome (fun e => walkFault e = false)
      (fun r => r.2.cr3 = s.cr3 ∧ ∃ p, r.1 = { loc with page := { loc.page with page := p } })
      (reserveEntry loc entry s) := by
  unfold reserveEntry
  split
  · apply (allocate_walks s).bind
    intro r hr
    exact ⟨hr, r.1, rfl⟩
  · exact ⟨rfl, loc.page.page, rfl⟩

theorem nodeCallbackReserve_walks {c : Physical} (m : Nat) : ∀ {fuel : Nat}
    {loc : NodeCommandLoc} {entry : EntryPtr} {s : Machine}, loc.page.depth + m = 4 →
    m ≤ fuel + 1 → InTables m loc → s.cr3 = c →
    Outcome (fun e => walkFault e = false) (fun s' => s'.cr3 = c)
      (nodeCallbackReserve fuel loc entry s) := by
  induction m with
  | zero =>
    intro fuel loc entry s hd _ _ hc
    rw [nodeCallbackReserve_eq]
    apply (reserveEntry_walks loc entry s).bind
    intro r ⟨hr, p, hloc⟩
    unfold reserveBelow
    rw [hloc, if_neg (by unfold pageMapDepthBottom; simp only; omega)]
    exact hr.trans hc
  | succ m ih =>
    intro fuel loc entry s hd hfuel h hc
    rw [nodeCallbackReserve_eq]
    apply (reserveEntry_walks loc entry s).bind
    intro r ⟨hr, p, hloc⟩
    unfold reserveBelow
    split
    · rename_i hlt
      cases fuel with
      | zero =>
        rw [hloc] at hlt
        unfold pageMapDepthBottom at hlt
        simp only at hlt
        omega
      | succ fuel =>
        have hin : InTables (m + 1) r.1 := by
          rw [hloc]
          exact (inTables_page rfl rfl rfl (m + 1)).mpr h
        apply applyNodes_inTables hin _ (hr.trans hc)
        intro i e entry s' hchild hc'
        apply ih _ (by omega) hchild hc'
        rw [NodeCommandLoc.child_depth, hloc]
        simp only
        omega
    · exact hr.trans hc

theorem nodeCallbackGc_walks (m : Nat) : ∀ {fuel : Nat} {loc : NodeCommandLoc}
    {entry : EntryPtr} {s : Machine}, loc.page.depth + m = 4 → m ≤ fuel + 1 → InTables m loc →
    Outcome (fun e => walkFault e = false) (fun _ => True) (nodeCallbackGc fuel loc entry s) := by
  have hvisit : ∀ (fuel : Nat) (loc : NodeCommandLoc) (entry : EntryPtr) (s : Machine),
      Outcome (fun e => walkFault e = false) (fun _ => True) (gcBelow fuel loc s) →
      Outcome (fun e => walkFault e = false) (fun _ => True) (nodeCallbackGc fuel loc entry s) :=
    fun _ _ entry _ h =>
      nodeCallbackGc_of_below (fun _ _ h => h) (fun s p _ => pmmFreePage_walks s p) entry trivial h
  induction m with
  | zero =>
    intro fuel loc entry s hd _ _
    apply hvisit
    unfold gcBelow
    rw [if_neg (by unfold pageMapDepthBottom; omega)]
    trivial
  | succ m ih =>
    intro fuel loc entry s hd hfuel h
    apply hvisit
    unfold gcBelow
    split
    · rename_i hlt
      cases fuel with
      | zero =>
        unfold pageMapDepthBottom at hlt
        omega
      | succ fuel =>
        apply applyNodes_inTables h _ trivial
        intro i e entry s' hchild _
        exact ih (by rw [NodeCommandLoc.child_depth]; omega) (by omega) hchild
    · trivial

end Passes

def entryBytes (depth : Nat) : Nat := 2 ^ depthShiftSize depth
def tableBytes (depth : Nat) : Nat := 512 * entryBytes depth

def tableStart (depth : Nat) (start : Uintptr) : Nat :=
  start.toNat / tableBytes depth * tableBytes depth

/-- The range ends in the table that it starts in. If the table is one of the first two levels,
the range also stays clear of the last entry of the address space, or it starts in the last leaf
table. In a leaf table the number of entries is an `int`. -/
def WalkFits (depth : Nat) (start endAt : Uintptr) : Prop :=
  if depth = pageMapDepthBottom then
    (endAt.toNat - tableStart depth start) / 4096 % 2 ^ 32 ≤ 512 ∨
      2 ^ 31 ≤ (endAt.toNat - tableStart depth start) / 4096 % 2 ^ 32
  else
    endAt.toNat ≤ tableStart depth start + tableBytes depth ∧ (depth = 2 ∨
      endAt.toNat + entryBytes depth ≤ 2 ^ 64 ∨ 2 ^ 64 ≤ start.toNat + 2 ^ 21)

instance (depth : Nat) (start endAt : Uintptr) : Decidable (WalkFits depth start endAt) := by
  unfold WalkFits
  infer_instance

theorem EntryChecks.locIn {s : Machine} {loc : NodeCommandLoc} (h : EntryChecks s loc)
    (part : MmuPageMapPart) {n : Nat} (hd : part.depth + n = 3) :
    LocIn { loc with page := part } n
      (loc.start.toNat / (4096 * span 512 n) * (4096 * span 512 n))
      (loc.start.toNat % (4096 * span 512 n) / 4096)
      ((loc.endAt.toNat - loc.start.toNat / (4096 * span 512 n) * (4096 * span 512 n)) / 4096) := by
  obtain ⟨h₁, h₂, h₃, h₄, h₅⟩ := h.toNat
  have hs := loc.start.isLt
  have he := loc.endAt.isLt
  have hlevel : n = 0 ∨ n = 1 ∨ n = 2 ∨ n = 3 := by omega
  rcases hlevel with rfl | rfl | rfl | rfl
  all_goals
    simp only [span] at *
    refine ⟨hd, ?_, ?_, ?_, ?_, ?_, ?_, ?_, ?_⟩
    any_goals simp only [span]
    all_goals omega

theorem EntryChecks.inTables_iff {s : Machine} {loc : NodeCommandLoc} (h : EntryChecks s loc)
    {part : MmuPageMapPart} {m : Nat} (hd : part.depth + m = 3) :
    InTables (m + 1) { loc with page := part } ↔ WalkFits part.depth loc.start loc.endAt := by
  obtain ⟨h₁, h₂, h₃, -, -⟩ := h.toNat
  have he := loc.endAt.isLt
  have hin := h.locIn part hd
  have hlevel : m = 0 ∨ m = 1 ∨ m = 2 ∨ m = 3 := by omega
  unfold WalkFits tableStart tableBytes entryBytes pageMapDepthBottom
  rcases hlevel with rfl | rfl | rfl | rfl
  · rw [hin.inTables_bottom, if_pos (by omega), show part.depth = 3 by omega]
    simp only [span, depthShiftSize]
    omega
  all_goals
    rw [hin.inTables_iff (by simp only [span]; omega), if_neg (by omega)]
    simp only [span]
  · rw [show part.depth = 2 by omega]
    simp only [depthShiftSize, true_or, and_true]
    omega
  · rw [show part.depth = 1 by omega]
    simp only [depthShiftSize]
    omega
  · rw [show part.depth = 0 by omega]
    simp only [depthShiftSize]
    omega

section Calls

variable {s : Machine} {top : MmuPageMapPart} {address : Uintptr} {size : Size}

/-- The call indexes past a table. -/
def Strays (r : Except Fault Machine) : Prop := ∃ i, r = .error (.tableIndexOutOfBounds i)

theorem not_strays {r : Except Fault Machine} {post : Machine → Prop}
    (h : Outcome (fun e => walkFault e = false) post r) : ¬ Strays r := by
  rintro ⟨i, rfl⟩
  exact Bool.noConfusion h

theorem EntryChecks.level (h : EntryChecks s ⟨top, address, address + size⟩) :
    ∃ m, (resolve s top).depth + m = 3 :=
  ⟨3 - (resolve s top).depth, Nat.add_sub_cancel' h.depth⟩

theorem EntryChecks.enter (h : EntryChecks s ⟨top, address, address + size⟩)
    (visit : NodeCallback) {s' : Machine} (hc : s'.cr3 = s.cr3) :
    applyNodesEntry ⟨top, address, address + size⟩ visit s' =
      applyNodes ⟨resolve s top, address, address + size⟩ visit s' := by
  have hr : resolve s' top = resolve s top := by
    unfold resolve getCurrentPageMapTop
    rw [hc]
  rw [(h.congr hc).entry_eq visit]
  simp only [hr]

theorem mmuAssign_walks (hc : EntryChecks s ⟨top, address, address + size⟩)
    (hfit : WalkFits (resolve s top).depth address (address + size)) (flags : BitVec 32)
    (page : Physical) :
    Outcome (fun e => walkFault e = false) (fun _ => True)
      (mmuAssign s top flags address size page) := by
  obtain ⟨m, hd⟩ := hc.level
  have hin := (hc.inTables_iff hd).mpr hfit
  have hreserve : Outcome (fun e => walkFault e = false) (fun s' => s'.cr3 = s.cr3)
      (applyNodesEntry ⟨top, address, address + size⟩ (nodeCallbackReserve walkFuel) s) := by
    have hs : (fun s' : Machine => s'.cr3 = s.cr3) s := rfl
    rw [hc.enter _ rfl]
    apply applyNodes_inTables hin _ hs
    intro i e entry s' hchild hs'
    exact nodeCallbackReserve_walks m (by rw [NodeCommandLoc.child_depth]; simp only; omega)
      (by unfold walkFuel; omega) hchild hs'
  apply hreserve.bind
  intro s₁ hs₁
  rw [hc.enter _ hs₁]
  exact (leaf_inTables (assign_storesAt flags address page) (fun _ _ _ h => h) hd
    (by unfold walkFuel; omega) hin trivial).mono (fun e he => he.elim) (fun _ h => h)

theorem mmuRemove_walks (hc : EntryChecks s ⟨top, address, address + size⟩)
    (hfit : WalkFits (resolve s top).depth address (address + size)) :
    Outcome (fun e => walkFault e = false) (fun _ => True) (mmuRemove s top address size) := by
  obtain ⟨m, hd⟩ := hc.level
  have hin := (hc.inTables_iff hd).mpr hfit
  have hleaf : Outcome (fun e => walkFault e = false) (fun s' => s'.cr3 = s.cr3)
      (applyNodesEntry ⟨top, address, address + size⟩
        (nodeCallbackLeaf leafCallbackClear walkFuel) s) := by
    have hs : (fun s' : Machine => s'.cr3 = s.cr3) s := rfl
    rw [hc.enter _ rfl]
    exact (leaf_inTables clear_storesAt (fun _ _ _ h => h) hd (by unfold walkFuel; omega) hin
      hs).mono (fun e he => he.elim) (fun _ h => h)
  apply hleaf.bind
  intro s₁ hs₁
  rw [hc.enter _ hs₁]
  apply applyNodes_inTables hin _ trivial
  intro i e entry s' hchild _
  exact nodeCallbackGc_walks m (by rw [NodeCommandLoc.child_depth]; simp only; omega)
    (by unfold walkFuel; omega) hchild

/-- The pass over the leaf entries goes astray whenever the range does not fit. -/
theorem EntryChecks.leaf_strays (hc : EntryChecks s ⟨top, address, address + size⟩)
    (hfit : ¬ WalkFits (resolve s top).depth address (address + size)) {s' : Machine}
    (hs' : s'.cr3 = s.cr3) {callback : LeafCallback} {value : Uintptr → BitVec 64}
    (hcb : StoresAt callback value) :
    Strays (applyNodesEntry ⟨top, address, address + size⟩
      (nodeCallbackLeaf callback walkFuel) s') := by
  obtain ⟨m, hd⟩ := hc.level
  have hout := fun hin => hfit ((hc.inTables_iff hd).mp hin)
  rw [hc.enter _ hs']
  exact leaf_past hcb m hd (by unfold walkFuel; omega) hout

theorem Strays.bind {r : Except Fault Machine} (h : Strays r)
    (f : Machine → Except Fault Machine) : Strays (r >>= f) := by
  obtain ⟨i, rfl⟩ := h
  exact ⟨i, rfl⟩

theorem mmuRemove_strays (hc : EntryChecks s ⟨top, address, address + size⟩)
    (hfit : ¬ WalkFits (resolve s top).depth address (address + size)) :
    Strays (mmuRemove s top address size) :=
  (hc.leaf_strays hfit rfl clear_storesAt).bind _

/-- A range that passes the checks is walked inside the tables by both calls exactly if it fits
the part that it is for. -/
theorem mmu_walks_stay_in_tables (hc : EntryChecks s ⟨top, address, address + size⟩) :
    ((∀ flags page, ¬ Strays (mmuAssign s top flags address size page)) ∧
      ¬ Strays (mmuRemove s top address size)) ↔
    WalkFits (resolve s top).depth address (address + size) := by
  constructor
  · intro ⟨_, hremove⟩
    by_contra hfit
    exact hremove (mmuRemove_strays hc hfit)
  · intro hfit
    exact ⟨fun flags page => not_strays (mmuAssign_walks hc hfit flags page),
      not_strays (mmuRemove_walks hc hfit)⟩

theorem bareMachine_checks {part : MmuPageMapPart} {start endAt : Uintptr}
    (h : part.page ≠ 0#64 ∧ Aligned part.page ∧ part.depth ≤ pageMapDepthBottom ∧ Aligned start ∧
      Aligned endAt ∧ start < endAt ∧ mmuIsCanonicalAddress start = true ∧
      start &&& mmuHigherHalfMin = endAt &&& mmuHigherHalfMin) :
    EntryChecks bareMachine ⟨part, start, endAt⟩ := by
  obtain ⟨hne, hpage, hdepth, hs, he, ho, hc, hh⟩ := h
  have hr : resolve bareMachine part = part := if_neg hne
  exact ⟨by rw [hr]; exact hpage, hs, he, by rw [hr]; exact hdepth, ho, hc, hh⟩

theorem mmu_walks_stay_in_tables_example :
    ¬ Strays (mmuRemove bareMachine ⟨0x5000#64, 2⟩ 0x3fffe000#64 0x2000#64) ∧
    ¬ ((∀ flags page, ¬ Strays (mmuAssign bareMachine ⟨0x5000#64, 2⟩ flags 0x3fffe000#64 0x3000#64
        page)) ∧ ¬ Strays (mmuRemove bareMachine ⟨0x5000#64, 2⟩ 0x3fffe000#64 0x3000#64)) := by
  have hinside : EntryChecks bareMachine ⟨⟨0x5000#64, 2⟩, 0x3fffe000#64, 0x3fffe000#64 + 0x2000#64⟩ :=
    bareMachine_checks (by decide)
  have hpast : EntryChecks bareMachine ⟨⟨0x5000#64, 2⟩, 0x3fffe000#64, 0x3fffe000#64 + 0x3000#64⟩ :=
    bareMachine_checks (by decide)
  constructor
  · exact ((mmu_walks_stay_in_tables hinside).mpr (by decide)).2
  · intro h
    exact absurd ((mmu_walks_stay_in_tables hpast).mp h) (by decide)

/-- A range in the last GiB of the address space, below the last leaf table: the walk of the table
behind the last entry of the top table ends at 512. -/
theorem mmu_walk_past_table_end :
    EntryChecks bareMachine ⟨exampleTop, 0xffffffffffdff000#64, 0xffffffffffdff000#64 + 0x1000#64⟩ ∧
    mmuRemove bareMachine exampleTop 0xffffffffffdff000#64 0x1000#64 =
      .error (.tableIndexOutOfBounds 512) := by
  refine ⟨bareMachine_checks (by decide), ?_⟩
  have hrun : (mmuRemove bareMachine exampleTop 0xffffffffffdff000#64 0x1000#64).map
      (fun _ => ()) = .error (.tableIndexOutOfBounds 512) := by
    decide +kernel
  cases h : mmuRemove bareMachine exampleTop 0xffffffffffdff000#64 0x1000#64 with
  | ok s' => simp [h, Except.map] at hrun
  | error e => simpa [h, Except.map] using hrun

end Calls

end Ukulele
