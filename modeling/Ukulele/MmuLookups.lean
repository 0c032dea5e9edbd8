import Ukulele.MmuPasses

/-! The checks on a range, the keys of its addresses and what a lookup finds for a key. -/

set_option autoImplicit false

namespace Ukulele
open RadixTree

/-- The part that a call works on: page 0 stands for the current top table. -/
def resolve (s : Machine) (part : MmuPageMapPart) : MmuPageMapPart :=
  if part.page = 0#64 then getCurrentPageMapTop s else part

structure EntryChecks (s : Machine) (loc : NodeCommandLoc) : Prop where
  page : Aligned (resolve s loc.page).page
  start : Aligned loc.start
  endAt : Aligned loc.endAt
  depth : (resolve s loc.page).depth ≤ pageMapDepthBottom
  order : loc.start < loc.endAt
  canonical : mmuIsCanonicalAddress loc.start = true
  half : loc.start &&& mmuHigherHalfMin = loc.endAt &&& mmuHigherHalfMin

theorem EntryChecks.entry_eq {s : Machine} {loc : NodeCommandLoc} (h : EntryChecks s loc)
    (visit : NodeCallback) :
    applyNodesEntry loc visit s = applyNodes { loc with page := resolve s loc.page } visit s := by
  have hloc : (if loc.page.page = 0#64 then { loc with page := getCurrentPageMapTop s } else loc) =
      { loc with page := resolve s loc.page } := by
    unfold resolve
    split <;> rfl
  have hdepth : (decide (pageMapDepthTop ≤ (resolve s loc.page).depth) &&
      decide ((resolve s loc.page).depth ≤ pageMapDepthBottom)) = true := by
    simp [h.depth, pageMapDepthTop]
  simp only [applyNodesEntry, hloc, bind, Except.bind, requirePageAligned_ok h.page,
    requirePageAligned_ok h.start, requirePageAligned_ok h.endAt, hdepth, assert_true, h.order,
    decide_true, h.canonical, h.half]

theorem EntryChecks.congr {s s' : Machine} {loc : NodeCommandLoc} (h : EntryChecks s loc)
    (hc : s'.cr3 = s.cr3) : EntryChecks s' loc := by
  have hr : resolve s' loc.page = resolve s loc.page := by
    unfold resolve getCurrentPageMapTop
    rw [hc]
  exact ⟨by rw [hr]; exact h.page, h.start, h.endAt, by rw [hr]; exact h.depth, h.order,
    h.canonical, h.half⟩

theorem toNat_and_higherHalf (x : BitVec 64) :
    (x &&& mmuHigherHalfMin).toNat = x.toNat / 2 ^ 47 * 2 ^ 47 := by
  rw [← toNat_roundDownP2 x (by decide : 47 < 64), roundDownP2,
    show ~~~((1#64 <<< 47) - 1#64) = mmuHigherHalfMin by decide]

theorem canonical_iff (x : Uintptr) :
    mmuIsCanonicalAddress x = true ↔ x.toNat / 2 ^ 47 = 0 ∨ x.toNat / 2 ^ 47 = 2 ^ 17 - 1 := by
  have hx := toNat_and_higherHalf x
  have hm : mmuHigherHalfMin.toNat = (2 ^ 17 - 1) * 2 ^ 47 := by decide
  simp only [mmuIsCanonicalAddress, Bool.or_eq_true, decide_eq_true_eq, ← BitVec.toNat_inj, hx, hm,
    BitVec.toNat_ofNat]
  omega

theorem same_half_iff (x y : Uintptr) :
    x &&& mmuHigherHalfMin = y &&& mmuHigherHalfMin ↔ x.toNat / 2 ^ 47 = y.toNat / 2 ^ 47 := by
  rw [← BitVec.toNat_inj, toNat_and_higherHalf, toNat_and_higherHalf]
  omega

def pageKey (v : Uintptr) : Nat := v.toNat / 4096 % span 512 3

def addressBase (v : Uintptr) : Nat := v.toNat / 2 ^ 48 * 2 ^ 48

def pageOf (v : Uintptr) : Uintptr := roundDownP2 v pageSize

theorem span_three : span 512 3 = 2 ^ 36 := by decide

theorem toNat_pageOf (v : Uintptr) : (pageOf v).toNat = v.toNat / 4096 * 4096 := by
  have h := toNat_roundDownP2 v (by decide : 12 < 64)
  exact h

theorem EntryChecks.toNat {s : Machine} {loc : NodeCommandLoc} (h : EntryChecks s loc) :
    loc.start.toNat % 4096 = 0 ∧ loc.endAt.toNat % 4096 = 0 ∧
    loc.start.toNat < loc.endAt.toNat ∧
    (loc.start.toNat / 2 ^ 47 = 0 ∨ loc.start.toNat / 2 ^ 47 = 2 ^ 17 - 1) ∧
    loc.start.toNat / 2 ^ 47 = loc.endAt.toNat / 2 ^ 47 :=
  ⟨h.start, h.endAt, BitVec.lt_def.mp h.order, (canonical_iff _).mp h.canonical,
    (same_half_iff _ _).mp h.half⟩

theorem EntryChecks.locAt {s : Machine} {loc : NodeCommandLoc} (h : EntryChecks s loc)
    (t : Physical) (hend : loc.endAt.toNat + 2 ^ 39 ≤ 2 ^ 64) :
    LocAt { loc with page := ⟨t, 0⟩ } 3 (addressBase loc.start) (pageKey loc.start)
      (pageKey loc.endAt) := by
  obtain ⟨h₁, h₂, h₃, h₄, h₅⟩ := h.toNat
  have hw : width 512 3 = 2 ^ 27 := by decide
  unfold addressBase pageKey
  rw [span_three]
  refine ⟨⟨rfl, ?_, ?_, ?_, ?_, ?_, ?_, ?_, ?_⟩, ?_, ?_⟩
  · rw [span_three]
    omega
  · change loc.start.toNat = _
    omega
  · change loc.endAt.toNat = _
    omega
  · omega
  · rw [span_three]
    omega
  · rw [span_three]
    omega
  · omega
  · omega
  · rw [span_three]
    omega
  · left
    rw [hw]
    omega

theorem EntryChecks.mem_range_iff {s : Machine} {loc : NodeCommandLoc} (h : EntryChecks s loc)
    {v : Uintptr} (hv : mmuIsCanonicalAddress v = true) :
    (pageKey loc.start ≤ pageKey v ∧ pageKey v < pageKey loc.endAt) ↔
      loc.start ≤ v ∧ v < loc.endAt := by
  obtain ⟨h₁, h₂, h₃, h₄, h₅⟩ := h.toNat
  have hv' := (canonical_iff v).mp hv
  have hlt := v.isLt
  have hlt' := loc.endAt.isLt
  rw [BitVec.le_def, BitVec.lt_def]
  unfold pageKey
  rw [span_three]
  omega

theorem keyAddress {u v : Uintptr} (hu : mmuIsCanonicalAddress u = true)
    (h : u.toNat / 2 ^ 47 = v.toNat / 2 ^ 47) :
    BitVec.ofNat 64 (addressBase u + 4096 * pageKey v) = pageOf v := by
  apply BitVec.eq_of_toNat_eq
  have hlt := v.isLt
  have hu' := (canonical_iff u).mp hu
  rw [toNat_pageOf, BitVec.toNat_ofNat]
  unfold addressBase pageKey
  rw [span_three]
  omega

def lookupResult (entry : Option (BitVec 64)) : MmuPageMapPart :=
  match entry with
  | some w => ⟨w &&& mmuRegPhysAddressMask, pageMapDepthMemory⟩
  | none => ⟨0#64, pageMapDepthInvalid⟩

theorem toNat_extractPageMapIndex {n d : Nat} (h : d + n = 3) (page : Physical) (v : Uintptr) :
    (extractPageMapIndex ⟨page, d⟩ v).toNat =
      v.toNat / 4096 % span 512 n / width 512 n := by
  have hmask : ∀ x : Nat, x &&& 511 = x % 512 := fun x => Nat.and_two_pow_sub_one_eq_mod x 9
  have hm : mmuRegVirtMask.toNat = 511 := by decide
  have hlevel : n = 0 ∨ n = 1 ∨ n = 2 ∨ n = 3 := by omega
  rw [extractPageMapIndex, BitVec.toNat_and, BitVec.toNat_ushiftRight, Nat.shiftRight_eq_div_pow,
    hm, hmask, span_eq_mul_width, Nat.mul_comm, Nat.mod_mul_right_div_self]
  rcases hlevel with rfl | rfl | rfl | rfl
  · obtain rfl : d = 3 := by omega
    simp only [depthShiftSize, width]
    omega
  · obtain rfl : d = 2 := by omega
    simp only [depthShiftSize, width, span]
    omega
  · obtain rfl : d = 1 := by omega
    simp only [depthShiftSize, width, span]
    omega
  · obtain rfl : d = 0 := by omega
    simp only [depthShiftSize, width, span]
    omega

def stepResult (w : BitVec 64) (d : Nat) : MmuPageMapPart :=
  if w &&& mmuRegPresent = 0#64 then ⟨0#64, pageMapDepthInvalid⟩
  else if w &&& mmuRegPageSize ≠ 0#64 then ⟨w &&& mmuRegPhysAddressMask, pageMapDepthMemory⟩
  else ⟨w &&& mmuRegPhysAddressMask, d + 1⟩

theorem mmuLookupStep_eq {s : Machine} {part : MmuPageMapPart} {p : Physical} {d n : Nat}
    (hr : resolve s part = ⟨p, d⟩) (hd : d + n = 3) (ha : Aligned p) (v : Uintptr) {i : Fin 512}
    (hi : v.toNat / 4096 % span 512 n / width 512 n = i.val) :
    mmuLookupStep s part v = .ok (stepResult (s.mem p i) d) := by
  have hidx : toInt (extractPageMapIndex ⟨p, d⟩ v) = (i.val : Int) := by
    have hn := toNat_extractPageMapIndex hd p v
    rw [hi] at hn
    have hlt := i.isLt
    rw [toInt_eq (by rw [hn]; omega), hn]
  have hdepth : d < pageMapDepthMemory := by
    unfold pageMapDepthMemory
    omega
  have hpart : (if part.page = 0#64 then getCurrentPageMapTop s else part) = ⟨p, d⟩ := hr
  simp only [mmuLookupStep, hpart, bind, Except.bind, requirePageAligned_ok ha, hdepth,
    decide_true, assert_true, hidx, tableIndex_ok i.isLt, Machine.load, pure, Except.pure]
  unfold stepResult
  split
  · rfl
  split <;> rfl

theorem key_lt_span (k n : Nat) : k % span 512 n < span 512 n :=
  Nat.mod_lt _ (span_pos (by decide) n)

theorem stepResult_absent {w : BitVec 64} (h : entryCoding.present w = false) (d : Nat) :
    stepResult w d = ⟨0#64, pageMapDepthInvalid⟩ := if_pos (not_present_iff.mp h)

theorem stepResult_table {w : BitVec 64} (h : entryCoding.present w = true)
    (hsize : w &&& mmuRegPageSize = 0#64) (d : Nat) :
    stepResult w d = ⟨w &&& mmuRegPhysAddressMask, d + 1⟩ := by
  unfold stepResult
  rw [if_neg (present_iff.mp h), hsize]
  rfl

theorem stepResult_leaf {w : BitVec 64} (h : entryCoding.present w = true) :
    stepResult w 3 = ⟨w &&& mmuRegPhysAddressMask, pageMapDepthMemory⟩ := by
  unfold stepResult
  rw [if_neg (present_iff.mp h)]
  split <;> rfl

def partKey (n : Nat) (v : Uintptr) : Nat := v.toNat / 4096 % span 512 n

theorem partKey_mod (n : Nat) (v : Uintptr) : partKey (n + 1) v % span 512 n = partKey n v :=
  Nat.mod_mul_left_mod _ 512 (span 512 n)

def slotOf (n : Nat) (v : Uintptr) : Fin 512 :=
  ⟨partKey (n + 1) v / span 512 n, div_lt_of_lt_span (key_lt_span _ (n + 1))⟩

section Steps

variable {s : Machine} {part : MmuPageMapPart} {p : Physical} {d n : Nat} {v : Uintptr}
  {w : BitVec 64}

theorem lookupStep_absent {T : PageTree (n + 1)} (hr : resolve s part = ⟨p, d⟩)
    (hd : d + (n + 1) = 3) (ha : Aligned p) (hT : pageTree s (n + 1) p = T)
    (hi : T (slotOf n v) = .absent w) :
    mmuLookupStep s part v = .ok ⟨0#64, pageMapDepthInvalid⟩ := by
  subst hT
  obtain ⟨hentry, hpresent⟩ := read_absent entryCoding hi
  rw [mmuLookupStep_eq hr hd ha v
    (show partKey (n + 1) v / width 512 (n + 1) = (slotOf n v).val from rfl), hentry,
    stepResult_absent hpresent]

theorem lookupStep_table {T : PageTree (n + 1)} {c : PageTree n} (hr : resolve s part = ⟨p, d⟩)
    (hd : d + (n + 1) = 3) (ha : Aligned p) (hT : pageTree s (n + 1) p = T)
    (hi : T (slotOf n v) = .table w c) (hw : TableEntry w) :
    mmuLookupStep s part v = .ok ⟨entryCoding.addr w, d + 1⟩ := by
  subst hT
  obtain ⟨hentry, hpresent, -⟩ := read_table entryCoding hi
  rw [mmuLookupStep_eq hr hd ha v
    (show partKey (n + 1) v / width 512 (n + 1) = (slotOf n v).val from rfl), hentry,
    stepResult_table hpresent hw.1]
  rfl

theorem lookupStep_leaf {T : PageTree 0} (hr : resolve s part = ⟨p, d⟩) (hd : d + 0 = 3)
    (ha : Aligned p) (hT : pageTree s 0 p = T) :
    mmuLookupStep s part v = .ok (lookupResult (get entryCoding 0 T (partKey 0 v))) := by
  have hk : partKey 0 v < 512 := key_lt_span _ 0
  have hget : get entryCoding 0 T (partKey 0 v) = _ := dif_pos hk
  have hTi : T ⟨partKey 0 v, hk⟩ = s.mem p ⟨partKey 0 v, hk⟩ := by
    rw [← hT]
    rfl
  obtain rfl : d = 3 := by omega
  rw [mmuLookupStep_eq hr hd ha v
    (show partKey 0 v / width 512 0 = (⟨partKey 0 v, hk⟩ : Fin 512).val from Nat.div_one _),
    hget, hTi]
  cases hpresent : entryCoding.present (s.mem p ⟨partKey 0 v, hk⟩) with
  | false =>
    rw [stepResult_absent hpresent]
    rfl
  | true =>
    rw [stepResult_leaf hpresent]
    rfl

end Steps

theorem lookup_spec (n : Nat) : ∀ {s : Machine} {part : MmuPageMapPart} {p : Physical}
    {d fuel : Nat} {T : PageTree n} (v : Uintptr), n < fuel → resolve s part = ⟨p, d⟩ →
    d + n = 3 → Aligned p → pageTree s n p = T → AllTables TableEntry n T →
    mmuLookup s v fuel part = .ok (lookupResult (get entryCoding n T (partKey n v))) := by
  induction n with
  | zero =>
    intro s part p d fuel T v hfuel hr hd ha hT _
    cases fuel with
    | zero => omega
    | succ fuel =>
      rw [mmuLookup, lookupStep_leaf hr hd ha hT]
      cases get entryCoding 0 T (partKey 0 v) with
      | none => rfl
      | some w => rfl
  | succ n ih =>
    intro s part p d fuel T v hfuel hr hd ha hT hall
    cases fuel with
    | zero => omega
    | succ fuel =>
      cases hi : T (slotOf n v) with
      | absent w =>
        rw [mmuLookup, lookupStep_absent hr hd ha hT hi,
          get_of_absent entryCoding (slotOf n v).isLt hi]
        rfl
      | table w c =>
        obtain ⟨hw, hbelow⟩ := hall _ w c hi
        have hchild : resolve s ⟨entryCoding.addr w, d + 1⟩ = ⟨entryCoding.addr w, d + 1⟩ :=
          if_neg hw.2
        have hdeep : d + 1 < pageMapDepthMemory := by
          unfold pageMapDepthMemory
          omega
        have hc : pageTree s n (entryCoding.addr w) = c := by
          rw [← hT] at hi
          exact (read_table entryCoding hi).2.2
        rw [mmuLookup, lookupStep_table hr hd ha hT hi hw,
          get_of_table entryCoding (slotOf n v).isLt hi, partKey_mod]
        simp only [hdeep, if_true]
        exact ih v (by omega) hchild (by omega) (aligned_and_physAddressMask w) hc hbelow

/-- The tree of tables of a part: a depth-0 table without huge pages. -/
structure TopOk (s : Machine) (top : MmuPageMapPart) (t : Physical) (T : PageTree 3) : Prop where
  resolved : resolve s top = ⟨t, 0⟩
  aligned : Aligned t
  tree : TreeOk s t T
  entries : AllTables TableEntry 3 T
  pmm : PmmOk s

theorem TopOk.checks {s : Machine} {top : MmuPageMapPart} {t : Physical} {T : PageTree 3}
    (h : TopOk s top t T) {start endAt : Uintptr} (hs : Aligned start) (he : Aligned endAt)
    (ho : start < endAt) (hc : mmuIsCanonicalAddress start = true)
    (hh : start &&& mmuHigherHalfMin = endAt &&& mmuHigherHalfMin) :
    EntryChecks s ⟨top, start, endAt⟩ := by
  refine ⟨?_, hs, he, ?_, ho, hc, hh⟩
  · rw [h.resolved]
    exact h.aligned
  · rw [h.resolved]
    exact Nat.zero_le _

def translate (s : Machine) (top : MmuPageMapPart) (v : Uintptr) :
    Except Fault MmuPageMapPart := mmuLookup s v 4 top

theorem TopOk.translate_eq {s : Machine} {top : MmuPageMapPart} {t : Physical} {T : PageTree 3}
    (h : TopOk s top t T) (v : Uintptr) :
    translate s top v = .ok (lookupResult (get entryCoding 3 T (pageKey v))) :=
  lookup_spec 3 v (by decide) h.resolved rfl h.aligned h.tree.read_eq h.entries

theorem TopOk.step {s s' : Machine} {top : MmuPageMapPart} {t : Physical} {T T' : PageTree 3}
    (h : TopOk s top t T) (hs : TreeStep s s' t T T') (hT' : AllTables TableEntry 3 T') :
    TopOk s' top t T' := by
  refine ⟨?_, h.aligned, hs.tree, hT', hs.pmm⟩
  have hr := h.resolved
  unfold resolve getCurrentPageMapTop at hr ⊢
  rwa [hs.cr3_eq]

end Ukulele
