import Ukulele.MmuParts
import Ukulele.MmuChecks
import Ukulele.MmuBounds

/-! `mmu_assign` called with a part of the page map that a lookup passes, beside the call with
the top table.
-/

set_option autoImplicit false

namespace Ukulele
open RadixTree

section Fuel

-- how much fuel a walk gets makes no difference, if it is enough for the tables below
variable {callback : LeafCallback}

theorem applyNodes_congr {loc : NodeCommandLoc} {visit visit' : NodeCallback}
    (h : ∀ i e entry s, visit (loc.child i e) entry s = visit' (loc.child i e) entry s)
    (s : Machine) : applyNodes loc visit s = applyNodes loc visit' s := by
  have hloop : ∀ (m : Nat) (i : Int) (s : Machine),
      applyNodesLoop loc visit m i s = applyNodesLoop loc visit' m i s := by
    intro m
    induction m with
    | zero => exact fun _ _ => rfl
    | succ m ih =>
      intro i s
      simp only [applyNodesLoop, h, ih]
  exact hloop _ _ s

theorem reserveBelow_fuel (n : Nat) : ∀ {fuel fuel' : Nat} {loc : NodeCommandLoc} (s : Machine),
    loc.page.depth + n = 3 → n ≤ fuel → n ≤ fuel' →
    reserveBelow fuel loc s = reserveBelow fuel' loc s := by
  have hbottom : ∀ (fuel : Nat) {loc : NodeCommandLoc} (s : Machine), 3 ≤ loc.page.depth →
      reserveBelow fuel loc s = .ok s := by
    intro fuel loc s hd
    exact if_neg (by unfold pageMapDepthBottom; omega)
  induction n with
  | zero =>
    intro fuel fuel' loc s hd _ _
    rw [hbottom fuel s (by omega), hbottom fuel' s (by omega)]
  | succ n ih =>
    intro fuel fuel' loc s hd hfuel hfuel'
    cases fuel with
    | zero => omega
    | succ fuel =>
      cases fuel' with
      | zero => omega
      | succ fuel' =>
        unfold reserveBelow
        split
        · apply applyNodes_congr
          intro i e entry s
          rw [nodeCallbackReserve_eq, nodeCallbackReserve_eq]
          have hentry := reserveEntry_walks (loc.child i e) entry s
          cases hrun : reserveEntry (loc.child i e) entry s with
          | error e => rfl
          | ok r =>
            rw [hrun] at hentry
            obtain ⟨-, p, hp⟩ := hentry
            apply ih r.2 _ (by omega) (by omega)
            rw [hp]
            simp only [NodeCommandLoc.child_depth]
            omega
        · rfl

theorem nodeCallbackLeaf_fuel (m : Nat) : ∀ {fuel fuel' : Nat} {loc : NodeCommandLoc}
    (entry : EntryPtr) (s : Machine), loc.page.depth + m = 4 → m ≤ fuel → m ≤ fuel' →
    nodeCallbackLeaf callback fuel loc entry s = nodeCallbackLeaf callback fuel' loc entry s := by
  induction m with
  | zero =>
    intro fuel fuel' loc entry s hd _ _
    rw [nodeCallbackLeaf_bottom callback fuel hd, nodeCallbackLeaf_bottom callback fuel' hd]
  | succ m ih =>
    intro fuel fuel' loc entry s hd hfuel hfuel'
    have hdepth : loc.page.depth ≤ pageMapDepthBottom := by
      unfold pageMapDepthBottom
      omega
    cases fuel with
    | zero => omega
    | succ fuel =>
      cases fuel' with
      | zero => omega
      | succ fuel' =>
        rw [nodeCallbackLeaf_below callback fuel hdepth,
          nodeCallbackLeaf_below callback fuel' hdepth]
        apply applyNodes_congr
        intro i e entry s
        apply ih entry s _ (by omega) (by omega)
        rw [NodeCommandLoc.child_depth]
        omega

end Fuel

section Single

variable {loc : NodeCommandLoc} {n B a b : Nat}

structure BehindEntry (n a b i : Nat) : Prop where
  first : a / span 512 n = i
  last : b ≤ (i + 1) * span 512 n

theorem BehindEntry.meets {i : Nat} (h : BehindEntry n a b i) (hlt : a < b) :
    Meets a b (span 512 n) i := by
  have hw : 0 < span 512 n := span_pos (by decide) n
  have hm := meets_div hw (Nat.le_refl a) hlt
  rwa [h.first] at hm

theorem LocAt.applyNodes_single (h : LocAt loc (n + 1) B a b) {i : Fin 512}
    (hi : BehindEntry n a b i) (visit : NodeCallback) (s : Machine) :
    applyNodes loc visit s =
      visit (loc.child i.val (s.load ⟨loc.page.page, i⟩)) ⟨loc.page.page, i⟩ s := by
  have hw : 0 < span 512 n := h.width_pos
  have hwidth : width 512 (n + 1) = span 512 n := rfl
  have hm := hi.meets h.lt
  have hlast : (b + span 512 n - 1) / span 512 n = i.val + 1 := by
    apply Nat.div_eq_of_lt_le
    · have := hm.1
      rw [Nat.add_one_mul]
      omega
    · have := hi.last
      rw [Nat.add_one_mul]
      omega
  have hcount : (loc.endIdx - loc.startIdx).toNat = 1 := by
    rw [h.startIdx_eq, h.endIdx_eq, hwidth, hi.first, hlast]
    omega
  rw [applyNodes, hcount, h.startIdx_eq, hwidth, hi.first]
  simp only [applyNodesLoop, tableIndex_ok i.isLt, bind, Except.bind]
  cases visit (loc.child i.val (s.load ⟨loc.page.page, i⟩)) ⟨loc.page.page, i⟩ s with
  | ok s' => rfl
  | error e => rfl

theorem LocAt.child_single (h : LocAt loc (n + 1) B a b) {i : Fin 512}
    (hi : BehindEntry n a b i) (e : BitVec 64) :
    loc.child i.val e = ⟨⟨entryCoding.addr e, loc.page.depth + 1⟩, loc.start, loc.endAt⟩ := by
  have hw : 0 < span 512 n := h.width_pos
  have hm := hi.meets h.lt
  have hchild := h.child hm e
  have hlow := Nat.div_mul_le_self a (span 512 n)
  rw [hi.first] at hlow
  have hlast := hi.last
  rw [Nat.add_one_mul] at hlast
  have hstart : (loc.child i.val e).start = loc.start := by
    apply BitVec.eq_of_toNat_eq
    rw [hchild.start, h.start]
    unfold lower
    omega
  have hend : (loc.child i.val e).endAt = loc.endAt := by
    apply BitVec.eq_of_toNat_eq
    have := hm.1
    rw [hchild.endAt, h.endAt]
    unfold upper
    congr 1
    omega
  calc loc.child i.val e
      = ⟨(loc.child i.val e).page, (loc.child i.val e).start, (loc.child i.val e).endAt⟩ := rfl
    _ = _ := by rw [hstart, hend]; rfl

end Single

section Descents

variable {s : Machine} {loc : NodeCommandLoc} {n B a b : Nat} {callback : LeafCallback}

/-- Both passes of `mmu_assign` below the table of a location. In a leaf table the first one is
left out. -/
def assignBelow (callback : LeafCallback) (fuel : Nat) (loc : NodeCommandLoc) (s : Machine) :
    Except Fault Machine :=
  reserveBelow (fuel + 1) loc s >>= applyNodes loc (nodeCallbackLeaf callback fuel)

theorem assignBelow_fuel {fuel fuel' : Nat} (hd : loc.page.depth + n = 3) (h : n ≤ fuel)
    (h' : n ≤ fuel') (s : Machine) :
    assignBelow callback fuel loc s = assignBelow callback fuel' loc s := by
  have hleaf : applyNodes loc (nodeCallbackLeaf callback fuel) =
      applyNodes loc (nodeCallbackLeaf callback fuel') := by
    funext s
    apply applyNodes_congr
    intro i e entry s
    apply nodeCallbackLeaf_fuel n entry s _ h h'
    rw [NodeCommandLoc.child_depth]
    omega
  have hreserve : reserveBelow (fuel + 1) loc s = reserveBelow (fuel' + 1) loc s :=
    reserveBelow_fuel n s hd (by omega) (by omega)
  rw [assignBelow, assignBelow, hreserve, hleaf]

theorem nodeCallbackReserve_present (fuel : Nat) (loc : NodeCommandLoc) {entry : EntryPtr}
    {s : Machine} (h : entryCoding.present (s.load entry) = true) :
    nodeCallbackReserve fuel loc entry s = reserveBelow fuel loc s := by
  rw [nodeCallbackReserve_eq, reserveEntry, if_neg (present_iff.mp h)]
  rfl

theorem reserveBelow_above (fuel : Nat) (h : loc.page.depth < pageMapDepthBottom) (s : Machine) :
    reserveBelow (fuel + 1) loc s = applyNodes loc (nodeCallbackReserve fuel) s := if_pos h

theorem assignBelow_descend {T : PageTree (n + 1)} {fuel : Nat} (hloc : LocAt loc (n + 1) B a b)
    {i : Fin 512} (hi : BehindEntry n a b i) (htree : TreeOk s loc.page.page T) (hp : PmmOk s)
    (hlow : PmmLow s) {w : BitVec 64} {c : PageTree n} (hT : T i = .table w c) (hfuel : n ≤ fuel) :
    assignBelow callback (fuel + 1) loc s =
      assignBelow callback fuel
        ⟨⟨entryCoding.addr w, loc.page.depth + 1⟩, loc.start, loc.endAt⟩ s := by
  have hdepth := hloc.depth
  have habove : loc.page.depth < pageMapDepthBottom := by
    unfold pageMapDepthBottom
    omega
  have hchild := hloc.child (hi.meets hloc.lt) w
  rw [hloc.child_single hi] at hchild
  obtain ⟨hentry, hpresent, -⟩ := htree.entry hT
  have hload : s.load ⟨loc.page.page, i⟩ = w := hentry
  have hreserve : reserveBelow (fuel + 1 + 1) loc s = reserveBelow (fuel + 1)
      ⟨⟨entryCoding.addr w, loc.page.depth + 1⟩, loc.start, loc.endAt⟩ s := by
    rw [← hload] at hpresent
    rw [reserveBelow_above _ habove, hloc.applyNodes_single hi,
      nodeCallbackReserve_present _ _ hpresent, hload, hloc.child_single hi]
  have hbelow := reserveBelow_spec n (Nat.le_succ_of_le hfuel) hchild (htree.child hT) hp hlow
  unfold assignBelow
  rw [hreserve]
  cases hrun : reserveBelow (fuel + 1)
      ⟨⟨entryCoding.addr w, loc.page.depth + 1⟩, loc.start, loc.endAt⟩ s with
  | error e => simp only [bind, Except.bind]
  | ok s₁ =>
    obtain ⟨c₁, hstep, -⟩ := hbelow.of_ok hrun
    have hlift := (TreeStep.lift htree hT hstep).tree.entry (Tree.set_self ..)
    have hload₁ : s₁.load ⟨loc.page.page, i⟩ = w := hlift.1
    have hle : loc.page.depth + 1 ≤ pageMapDepthBottom := habove
    simp only [bind, Except.bind]
    rw [hloc.applyNodes_single hi, hload₁, hloc.child_single hi,
      nodeCallbackLeaf_below callback fuel hle]

end Descents

/-- The tables that a lookup of the address goes through below the top table. -/
inductive Reaches (s : Machine) (v : Uintptr) (top : MmuPageMapPart) : MmuPageMapPart → Prop where
  | first {part : MmuPageMapPart} : mmuLookupStep s top v = .ok part →
      part.depth ≤ pageMapDepthBottom → Reaches s v top part
  | next {part below : MmuPageMapPart} : Reaches s v top part →
      mmuLookupStep s part v = .ok below → below.depth ≤ pageMapDepthBottom →
      Reaches s v top below

section Keys

variable {n : Nat} {u v : Uintptr}

theorem SameTable.up (h : SameTable n u v) : SameTable (n + 1) u v := by
  have hspan : span 512 (n + 1) = span 512 n * 512 := Nat.mul_comm 512 (span 512 n)
  unfold SameTable at h ⊢
  rw [hspan, ← Nat.div_div_eq_div_mul, ← Nat.div_div_eq_div_mul, h]

theorem SameTable.slot (h : SameTable n u v) (hn : n < 3) :
    partKey (n + 1) v / span 512 n = partKey (n + 1) u / span 512 n := by
  have hlevel : n = 0 ∨ n = 1 ∨ n = 2 := by omega
  unfold SameTable pageKey at h
  unfold partKey
  rcases hlevel with rfl | rfl | rfl <;> simp only [span] at h ⊢ <;> omega

end Keys

section Parts

variable {s : Machine} {top part below : MmuPageMapPart} {t p : Physical} {d n : Nat} {v : Uintptr}
  {T : PageTree 3} {address : Uintptr} {size : Size}

def RangeBelow (n : Nat) (v address : Uintptr) (size : Size) : Prop :=
  ∀ u, InRange address size u → SameTable n v u

theorem RangeBelow.inSpan (h : RangeBelow n v address size)
    (hc : EntryChecks s ⟨top, address, address + size⟩) : InSpan n address size :=
  fun u hu => (h address hc.first_inRange).symm.trans (h u hu)

theorem RangeBelow.up (h : RangeBelow n v address size) : RangeBelow (n + 1) v address size :=
  fun u hu => (h u hu).up

theorem RangeBelow.behindEntry (h : RangeBelow n v address size) (hn : n < 3)
    (hc : EntryChecks s ⟨top, address, address + size⟩) :
    BehindEntry n (partKey (n + 1) address) (partEnd (n + 1) address size) (slotOf n v).val := by
  have hd : 2 - n + (n + 1) = 3 := by omega
  have hkey := partBase_add (n + 1) ((h.up.inSpan hc).quotient hd hc hc.last_inRange)
  rw [hc.toNat_last] at hkey
  obtain ⟨h₁, h₂, h₃, h₄, h₅⟩ := hc.toNat
  simp only at h₁ h₂ h₃ h₄ h₅
  have hlast := (h _ hc.last_inRange).slot hn
  have hend : partEnd (n + 1) address size =
      partKey (n + 1) (address + size - pageSize) + 1 := by
    unfold partEnd
    omega
  refine ⟨(h address hc.first_inRange).slot hn, ?_⟩
  rw [hend]
  change _ ≤ (partKey (n + 1) v / span 512 n + 1) * span 512 n
  rw [← hlast]
  exact Nat.lt_mul_of_div_lt (Nat.lt_succ_self _) (span_pos (by decide) n)

/-- The tree of tables of a part, and how the part is reached: what the top table's tree has for
an address is found here, and the calls on a range that is below the part come here. -/
structure Descent (s : Machine) (v : Uintptr) (top : MmuPageMapPart) (t : Physical)
    (T : PageTree 3) (part : MmuPageMapPart) (p : Physical) (d n : Nat) (c : PageTree n) : Prop where
  resolved : resolve s part = ⟨p, d⟩
  depth : d + n = 3
  aligned : Aligned p
  tree : TreeOk s p c
  entries : AllTables TableEntry n c
  get_eq : ∀ u, SameTable n v u → get entryCoding 3 T (pageKey u) = get entryCoding n c (partKey n u)
  call_eq : ∀ (callback : LeafCallback) (address : Uintptr) (size : Size),
    RangeBelow n v address size → EntryChecks s ⟨top, address, address + size⟩ →
    address + size ≤ lastEntryStart →
    assignBelow callback walkFuel ⟨⟨t, 0⟩, address, address + size⟩ s =
      assignBelow callback walkFuel ⟨⟨p, d⟩, address, address + size⟩ s

theorem TopOk.descent (h : TopOk s top t T) (v : Uintptr) : Descent s v top t T top t 0 3 T :=
  ⟨h.resolved, rfl, h.aligned, h.tree, h.entries, fun _ _ => rfl, fun _ _ _ _ _ _ => rfl⟩

theorem Descent.not_step {c : PageTree 0} (h : Descent s v top t T part p d 0 c)
    (hstep : mmuLookupStep s part v = .ok below) : ¬ below.depth ≤ pageMapDepthBottom := by
  rw [lookupStep_leaf h.resolved h.depth h.aligned h.tree.read_eq, Except.ok.injEq] at hstep
  subst hstep
  cases get entryCoding 0 c (partKey 0 v) with
  | none => decide
  | some w => simp [lookupResult, pageMapDepthMemory, pageMapDepthBottom]

theorem Descent.table {c : PageTree (n + 1)} (h : Descent s v top t T part p d (n + 1) c)
    (hp : PmmOk s) (hlow : PmmLow s) {w : BitVec 64} {c' : PageTree n}
    (hc : c (slotOf n v) = .table w c') :
    mmuLookupStep s part v = .ok ⟨entryCoding.addr w, d + 1⟩ ∧
      Descent s v top t T ⟨entryCoding.addr w, d + 1⟩ (entryCoding.addr w) (d + 1) n c' := by
  have hd := h.depth
  obtain ⟨hw, hbelow⟩ := h.entries _ w c' hc
  refine ⟨lookupStep_table h.resolved hd h.aligned h.tree.read_eq hc hw, if_neg hw.2, by omega,
    aligned_and_physAddressMask w, h.tree.child hc, hbelow, ?_, ?_⟩
  · intro u hu
    have hslot : slotOf n u = slotOf n v := Fin.ext (hu.slot (by omega))
    rw [← hslot] at hc
    rw [h.get_eq u hu.up, get_of_table entryCoding (slotOf n u).isLt hc, partKey_mod]
  · intro callback address size hrange hchecks hend
    have hloc : LocAt ⟨⟨p, d⟩, address, address + size⟩ (n + 1) _ _ _ :=
      (hrange.up.inSpan hchecks).locAt h.depth hchecks hend
    have hbehind := hrange.behindEntry (by omega) hchecks
    rw [h.call_eq callback address size hrange.up hchecks hend]
    calc assignBelow callback walkFuel ⟨⟨p, d⟩, address, address + size⟩ s
        = assignBelow callback 3 ⟨⟨entryCoding.addr w, d + 1⟩, address, address + size⟩ s :=
          assignBelow_descend hloc hbehind h.tree hp hlow hc (by omega)
      _ = _ := assignBelow_fuel (show d + 1 + n = 3 by omega) (by omega)
          (by unfold walkFuel; omega) s

theorem Descent.step {c : PageTree (n + 1)} (h : Descent s v top t T part p d (n + 1) c)
    (hp : PmmOk s) (hlow : PmmLow s) (hstep : mmuLookupStep s part v = .ok below)
    (hdepth : below.depth ≤ pageMapDepthBottom) :
    ∃ w c', below = ⟨entryCoding.addr w, d + 1⟩ ∧
      Descent s v top t T below (entryCoding.addr w) (d + 1) n c' := by
  cases hc : c (slotOf n v) with
  | absent w =>
    rw [lookupStep_absent h.resolved h.depth h.aligned h.tree.read_eq hc, Except.ok.injEq] at hstep
    subst hstep
    exact absurd hdepth (by decide)
  | table w c' =>
    obtain ⟨hrun, hbelow⟩ := h.table hp hlow hc
    rw [hrun, Except.ok.injEq] at hstep
    subst hstep
    exact ⟨w, c', rfl, hbelow⟩

theorem Descent.next {c : PageTree (n + 1)} (h : Descent s v top t T part p d (n + 1) c)
    (hp : PmmOk s) (hlow : PmmLow s) (hget : get entryCoding 3 T (pageKey v) ≠ none) :
    ∃ w c', mmuLookupStep s part v = .ok ⟨entryCoding.addr w, d + 1⟩ ∧
      Descent s v top t T ⟨entryCoding.addr w, d + 1⟩ (entryCoding.addr w) (d + 1) n c' := by
  rw [h.get_eq v rfl] at hget
  cases hc : c (slotOf n v) with
  | absent w => exact absurd (get_of_absent entryCoding (slotOf n v).isLt hc) hget
  | table w c' => exact ⟨w, c', h.table hp hlow hc⟩

theorem Reaches.descent (hr : Reaches s v top part) (h : TopOk s top t T) (hlow : PmmLow s) :
    ∃ n c, part.depth + n = 3 ∧ n < 3 ∧ Descent s v top t T part part.page part.depth n c := by
  induction hr with
  | first hstep hdepth =>
    obtain ⟨w, c', rfl, hd⟩ := (h.descent v).step h.pmm hlow hstep hdepth
    exact ⟨2, c', rfl, by decide, hd⟩
  | next _ hstep hdepth ih =>
    obtain ⟨n, c, hd, hn, hdescent⟩ := ih
    cases n with
    | zero => exact absurd hdepth (hdescent.not_step hstep)
    | succ n =>
      obtain ⟨w, c', rfl, hd'⟩ := hdescent.step h.pmm hlow hstep hdepth
      exact ⟨n, c', hd'.depth, by omega, hd'⟩

end Parts

def rangeChecks (start endAt : Uintptr) : Except Fault Unit := do
  requirePageAligned start
  requirePageAligned endAt
  assert (start < endAt) "Negative MMU allocation"
  assert (mmuIsCanonicalAddress start) "Non-canonical address"
  assert (start &&& mmuHigherHalfMin = endAt &&& mmuHigherHalfMin)
    "Start and end not in same half"

section Calls

variable {s : Machine} {top part : MmuPageMapPart} {t p : Physical} {d n : Nat} {v : Uintptr}
  {T : PageTree 3} {address : Uintptr} {size : Size} {flags : BitVec 32} {page : Physical}

theorem applyNodesChecks_resolved {loc : NodeCommandLoc} (hpage : Aligned (resolve s loc.page).page)
    (hdepth : (resolve s loc.page).depth ≤ pageMapDepthBottom) :
    applyNodesChecks s.cr3 loc = rangeChecks loc.start loc.endAt >>= fun _ =>
      .ok { loc with page := resolve s loc.page } := by
  have hloc : (if loc.page.page = 0#64 then { loc with page := ⟨s.cr3, pageMapDepthTop⟩ } else loc) =
      { loc with page := resolve s loc.page } := by
    unfold resolve getCurrentPageMapTop
    split <;> rfl
  have hdepth' : (decide (pageMapDepthTop ≤ (resolve s loc.page).depth) &&
      decide ((resolve s loc.page).depth ≤ pageMapDepthBottom)) = true := by
    simp [hdepth, pageMapDepthTop]
  have hok : ∀ f : Unit → Except Fault NodeCommandLoc, (Except.ok () >>= f) = f () := fun _ => rfl
  simp only [applyNodesChecks, rangeChecks, hloc, requirePageAligned_ok hpage, hdepth', assert_true,
    hok, bind_assoc]
  rfl

theorem mmuAssign_refused (hpage : Aligned (resolve s part).page)
    (hdepth : (resolve s part).depth ≤ pageMapDepthBottom) {e : Fault}
    (h : rangeChecks address (address + size) = .error e) :
    mmuAssign s part flags address size page = .error e := by
  have hchecks : applyNodesChecks s.cr3 ⟨part, address, address + size⟩ = .error e := by
    rw [applyNodesChecks_resolved hpage hdepth, h]
    rfl
  simp [mmuAssign, applyNodesEntry_checks, hchecks, bind, Except.bind]

theorem rangeChecks_of_not (hpage : Aligned (resolve s part).page)
    (hdepth : (resolve s part).depth ≤ pageMapDepthBottom)
    (h : ¬ EntryChecks s ⟨part, address, address + size⟩) :
    ∃ e, rangeChecks address (address + size) = .error e := by
  cases hrun : rangeChecks address (address + size) with
  | error e => exact ⟨e, rfl⟩
  | ok u =>
    have hchecks : applyNodesChecks s.cr3 ⟨part, address, address + size⟩ =
        .ok ⟨resolve s part, address, address + size⟩ := by
      rw [applyNodesChecks_resolved hpage hdepth, hrun]
      rfl
    exact absurd (applyNodesChecks_iff.mp hchecks).1 h

abbrev assignLeaves (flags : BitVec 32) (address : Uintptr) (page : Physical) : LeafCallback :=
  leafCallbackAssignLinear page address (convertFlags flags)

theorem LocAt.reserve_cr3 {loc : NodeCommandLoc} {B a b : Nat} (h : LocAt loc n B a b)
    (s : Machine) : Outcome (fun _ => True) (fun s' => s'.cr3 = s.cr3)
      (applyNodes loc (nodeCallbackReserve walkFuel) s) := by
  have hd := h.depth
  have hrun : Outcome (fun e => walkFault e = false) (fun s' => s'.cr3 = s.cr3)
      (applyNodes loc (nodeCallbackReserve walkFuel) s) := by
    apply applyNodes_inTables (I := fun s' => s'.cr3 = s.cr3) (h.inTables n) _ rfl
    intro i e entry s' hin hc
    apply nodeCallbackReserve_walks n _ (by unfold walkFuel; omega) hin hc
    rw [NodeCommandLoc.child_depth]
    omega
  exact hrun.mono (fun _ _ => trivial) (fun _ h => h)

theorem EntryChecks.assign_eq (hc : EntryChecks s ⟨part, address, address + size⟩)
    (hpart : resolve s part = ⟨p, d⟩) {B a b : Nat}
    (hloc : LocAt ⟨⟨p, d⟩, address, address + size⟩ n B a b) :
    mmuAssign s part flags address size page =
      applyNodes ⟨⟨p, d⟩, address, address + size⟩ (nodeCallbackReserve walkFuel) s >>=
        applyNodes ⟨⟨p, d⟩, address, address + size⟩
          (nodeCallbackLeaf (assignLeaves flags address page) walkFuel) := by
  have henter := hc.enters hpart
  have hcr3 := hloc.reserve_cr3 s
  simp only [mmuAssign, bind, Except.bind]
  rw [henter _ s rfl]
  cases hrun : applyNodes ⟨⟨p, d⟩, address, address + size⟩ (nodeCallbackReserve walkFuel) s with
  | error e => rfl
  | ok s₁ => exact henter _ s₁ (hcr3.of_ok hrun)

theorem EntryChecks.assign_below (hc : EntryChecks s ⟨part, address, address + size⟩)
    (hpart : resolve s part = ⟨p, d⟩) {B a b : Nat}
    (hloc : LocAt ⟨⟨p, d⟩, address, address + size⟩ n B a b) (hd : d < pageMapDepthBottom) :
    mmuAssign s part flags address size page =
      assignBelow (assignLeaves flags address page) walkFuel
        ⟨⟨p, d⟩, address, address + size⟩ s := by
  have habove : reserveBelow (walkFuel + 1) ⟨⟨p, d⟩, address, address + size⟩ s =
      applyNodes ⟨⟨p, d⟩, address, address + size⟩ (nodeCallbackReserve walkFuel) s := if_pos hd
  rw [hc.assign_eq hpart hloc, assignBelow, habove]

def Mapped (s : Machine) (top : MmuPageMapPart) (v : Uintptr) : Prop :=
  ∃ frame, translate s top v = .ok ⟨frame, pageMapDepthMemory⟩

/-- Two calls with the same effect: they fail alike, or every address leads to the same place
below the top table and as many pages of the allocator are in use. -/
def SameEffect (top : MmuPageMapPart) : Except Fault Machine → Except Fault Machine → Prop
  | .ok s, .ok s' => (∀ v, translate s top v = translate s' top v) ∧
      (usedPages s).card = (usedPages s').card
  | .error e, .error e' => e = e'
  | _, _ => False

theorem SameEffect.refl (top : MmuPageMapPart) (r : Except Fault Machine) : SameEffect top r r := by
  cases r with
  | ok s => exact ⟨fun _ => rfl, rfl⟩
  | error e => rfl

theorem Descent.checks {m : Nat} {c : PageTree m} (h : Descent s v top t T part p d m c)
    (hc : EntryChecks s ⟨top, address, address + size⟩) :
    EntryChecks s ⟨part, address, address + size⟩ := by
  have hd := h.depth
  have hle : d ≤ pageMapDepthBottom := by
    unfold pageMapDepthBottom
    omega
  refine ⟨?_, hc.start, hc.endAt, ?_, hc.order, hc.canonical, hc.half⟩
  · rw [h.resolved]
    exact h.aligned
  · rw [h.resolved]
    exact hle

section Leaves

variable {c : PageTree 0}

theorem Descent.mapped_iff (h : Descent s v top t T part p d 0 c) (htop : TopOk s top t T)
    {u : Uintptr} (hu : SameTable 0 v u) :
    Mapped s top u ↔
      entryCoding.present (s.mem p ⟨partKey 0 u, key_lt_span _ 0⟩) = true := by
  have hentry : c ⟨partKey 0 u, key_lt_span _ 0⟩ = s.mem p ⟨partKey 0 u, key_lt_span _ 0⟩ := by
    rw [← h.tree.read_eq]
    rfl
  have hget : get entryCoding 0 c (partKey 0 u) = _ := dif_pos (key_lt_span _ 0)
  rw [Mapped, htop.translate_eq, h.get_eq u hu, hget]
  rw [hentry]
  cases entryCoding.present (s.mem p ⟨partKey 0 u, key_lt_span _ 0⟩) with
  | true => simp [lookupResult]
  | false => simp [lookupResult, pageMapDepthInvalid, pageMapDepthMemory]

theorem Descent.top_call (h : Descent s v top t T part p d 0 c) (htop : TopOk s top t T)
    (hrange : RangeBelow 0 v address size) (hc : EntryChecks s ⟨top, address, address + size⟩)
    (hend : address + size ≤ lastEntryStart) :
    mmuAssign s top flags address size page =
      applyNodes ⟨⟨p, d⟩, address, address + size⟩
        (nodeCallbackLeaf (assignLeaves flags address page) walkFuel) s := by
  have hd := h.depth
  have hdeep : ¬ d < pageMapDepthBottom := by
    unfold pageMapDepthBottom
    omega
  have hnone : reserveBelow (walkFuel + 1) ⟨⟨p, d⟩, address, address + size⟩ s = .ok s :=
    if_neg hdeep
  rw [hc.assign_below htop.resolved (hc.locAt t (below_lastEntry hend)) (by decide),
    h.call_eq _ _ _ hrange hc hend, assignBelow, hnone]
  rfl

theorem leaf_pass_used (flags : BitVec 32) (address : Uintptr) (page : Physical)
    {loc : NodeCommandLoc} {B a b : Nat} {c : PageTree 0} (hloc : LocAt loc 0 B a b)
    (htree : TreeOk s loc.page.page c) (hp : PmmOk s) :
    ∃ s', applyNodes loc (nodeCallbackLeaf (assignLeaves flags address page) walkFuel) s = .ok s' ∧
      usedPages s' = usedPages s := by
  have hrun : Outcome (fun _ => False) _
      (applyNodes loc (nodeCallbackLeaf (assignLeaves flags address page) walkFuel) s) :=
    leaf_table_spec (assign_storesAt flags address page) hloc htree hp
  obtain ⟨s', hs', hstep⟩ := hrun.returns
  exact ⟨s', hs', hstep.used_leaves⟩

theorem not_sameEffect_of_absent {loc : NodeCommandLoc} {B a b : Nat} {c : PageTree 0}
    (hloc : LocAt loc 0 B a b) (htree : TreeOk s loc.page.page c) (hp : PmmOk s) {i : Fin 512}
    (hlo : a ≤ i.val) (hhi : i.val < b)
    (hi : entryCoding.present (s.mem loc.page.page i) = false) :
    ¬ SameEffect top
      (applyNodes loc (nodeCallbackReserve walkFuel) s >>=
        applyNodes loc (nodeCallbackLeaf (assignLeaves flags address page) walkFuel))
      (applyNodes loc (nodeCallbackLeaf (assignLeaves flags address page) walkFuel) s) := by
  intro hsame
  obtain ⟨s₂, hrun₂, hused₂⟩ := leaf_pass_used flags address page hloc htree hp
  have hreserve : Outcome _ _ (applyNodes loc (nodeCallbackReserve walkFuel) s) :=
    reserve_leaf_table hloc htree hp
  rw [hrun₂] at hsame
  cases hrun : applyNodes loc (nodeCallbackReserve walkFuel) s with
  | error e =>
    rw [hrun] at hsame
    exact hsame
  | ok s₁ =>
    have htaken := hreserve.of_ok hrun
    obtain ⟨s₃, hrun₃, hused₃⟩ := leaf_pass_used flags address page hloc
      htaken.tree htaken.pmm
    have hsame₃ : SameEffect top (.ok s₃) (.ok s₂) := by
      rw [← hrun₃]
      rw [hrun] at hsame
      exact hsame
    have hlt := htaken.used_lt hp hlo hhi hi
    have hcard := hsame₃.2
    rw [hused₃, hused₂] at hcard
    omega

theorem Descent.leaf_agrees (h : Descent s v top t T part p d 0 c) (htop : TopOk s top t T)
    (hrange : RangeBelow 0 v address size) (hc : EntryChecks s ⟨top, address, address + size⟩)
    (hend : address + size ≤ lastEntryStart) :
    SameEffect top (mmuAssign s part flags address size page)
        (mmuAssign s top flags address size page) ↔
      ∀ u, InRange address size u → Mapped s top u := by
  have hspan := hrange.inSpan hc
  have hloc : LocAt ⟨⟨p, d⟩, address, address + size⟩ 0 _ _ _ := hspan.locAt h.depth hc hend
  rw [h.top_call htop hrange hc hend, (h.checks hc).assign_eq h.resolved hloc]
  constructor
  · intro hsame u hu
    by_contra hno
    rw [h.mapped_iff htop (hrange u hu), Bool.not_eq_true] at hno
    obtain ⟨hlo, hhi⟩ := hspan.partKey_mem h.depth hc hu
    exact not_sameEffect_of_absent hloc h.tree htop.pmm hlo hhi hno hsame
  · intro hall
    have hpresent : ∀ i : Fin 512, partKey 0 address ≤ i.val →
        i.val < partEnd 0 address size → entryCoding.present (s.mem p i) = true := by
      intro i hlo hhi
      obtain ⟨u, hu, hk⟩ := hspan.exists_address h.depth hc hend hlo hhi
      have hi : i = ⟨partKey 0 u, key_lt_span _ 0⟩ := Fin.ext hk.symm
      rw [hi]
      exact (h.mapped_iff htop (hrange u hu)).mp (hall u hu)
    have hnone : applyNodes ⟨⟨p, d⟩, address, address + size⟩ (nodeCallbackReserve walkFuel) s =
        .ok s := reserve_leaf_table_eq hloc hpresent
    rw [hnone]
    exact SameEffect.refl top _

end Leaves

theorem Mapped.leaf_table (hm : Mapped s top v) (h : TopOk s top t T) (hlow : PmmLow s) :
    ∃ part, Reaches s v top part ∧ part.depth = 3 := by
  have hget : get entryCoding 3 T (pageKey v) ≠ none := by
    intro hnone
    obtain ⟨frame, hf⟩ := hm
    rw [h.translate_eq, hnone] at hf
    simp [lookupResult, pageMapDepthInvalid, pageMapDepthMemory] at hf
  obtain ⟨w₁, _, hs₁, h₁⟩ := (h.descent v).next h.pmm hlow hget
  obtain ⟨w₂, _, hs₂, h₂⟩ := h₁.next h.pmm hlow hget
  obtain ⟨w₃, _, hs₃, -⟩ := h₂.next h.pmm hlow hget
  exact ⟨_, ((Reaches.first hs₁ (by simp [pageMapDepthBottom])).next hs₂
    (by simp [pageMapDepthBottom])).next hs₃ (by simp [pageMapDepthBottom]), rfl⟩

/-- The call with a part and the call with the top table have the same effect, unless the part is
a leaf table and some page of the range is not mapped yet. -/
theorem mmu_assign_part_agrees (h : TopOk s top t T) (hlow : PmmLow s) (hr : Reaches s v top part)
    (hrange : RangeBelow (3 - part.depth) v address size)
    (hend : address + size ≤ lastEntryStart) (flags : BitVec 32) (page : Physical) :
    SameEffect top (mmuAssign s part flags address size page)
        (mmuAssign s top flags address size page) ↔
      (part.depth = pageMapDepthBottom → EntryChecks s ⟨top, address, address + size⟩ →
        ∀ u, InRange address size u → Mapped s top u) := by
  obtain ⟨n, c, hd, hn, hdescent⟩ := hr.descent h hlow
  rw [show 3 - part.depth = n by omega] at hrange
  have hbottom : part.depth = pageMapDepthBottom ↔ n = 0 := by
    unfold pageMapDepthBottom
    omega
  rw [hbottom]
  cases Classical.em (EntryChecks s ⟨top, address, address + size⟩) with
  | inr hno =>
    have haligned : Aligned (resolve s top).page := by
      rw [h.resolved]
      exact h.aligned
    have hshallow : (resolve s top).depth ≤ pageMapDepthBottom := by
      rw [h.resolved]
      exact Nat.zero_le _
    have haligned' : Aligned (resolve s part).page := by
      rw [hdescent.resolved]
      exact hdescent.aligned
    have hshallow' : (resolve s part).depth ≤ pageMapDepthBottom := by
      rw [hdescent.resolved]
      unfold pageMapDepthBottom
      simp only
      omega
    obtain ⟨e, he⟩ := rangeChecks_of_not haligned hshallow hno
    rw [mmuAssign_refused haligned hshallow he, mmuAssign_refused haligned' hshallow' he]
    exact ⟨fun _ _ hc => absurd hc hno, fun _ => rfl⟩
  | inl hc =>
    cases n with
    | zero =>
      rw [hdescent.leaf_agrees h hrange hc hend]
      exact ⟨fun hall _ _ => hall, fun hall => hall rfl hc⟩
    | succ n =>
      have hloc : LocAt ⟨⟨part.page, part.depth⟩, address, address + size⟩ (n + 1) _ _ _ :=
        (hrange.inSpan hc).locAt hdescent.depth hc hend
      have habove : part.depth < pageMapDepthBottom := by
        unfold pageMapDepthBottom
        omega
      rw [(hdescent.checks hc).assign_below hdescent.resolved hloc habove,
        hc.assign_below h.resolved (hc.locAt t (below_lastEntry hend)) (by decide),
        hdescent.call_eq _ _ _ hrange hc hend]
      exact ⟨fun _ hz => absurd hz (Nat.succ_ne_zero n), fun _ => SameEffect.refl top _⟩

end Calls

section Example

theorem exampleTop_leaf : ∃ s T part, TopOk s exampleTop 0x5000#64 T ∧ PmmLow s ∧
    Reaches s 0x200000#64 exampleTop part ∧ part.depth = 3 ∧
    ∀ u, mmuIsCanonicalAddress u = true →
      (Mapped s exampleTop u ↔ InRange 0x200000#64 0x1000#64 u) := by
  obtain ⟨s, s', T₁, f, htop, hok, -, -, ha⟩ := exampleTop_mapped
  have hlow : PmmLow s' := (hok.low (by decide)).congr ha.step.managed_eq
  have hmapped : ∀ u, mmuIsCanonicalAddress u = true →
      (Mapped s' exampleTop u ↔ InRange 0x200000#64 0x1000#64 u) := by
    intro u hu
    have hblank : translate s exampleTop u = .ok ⟨0#64, pageMapDepthInvalid⟩ := by
      rw [htop.translate_eq, get_empty entryCoding (empty_blank entryCoding not_present_zero)]
      rfl
    rw [Mapped, ha.translate_eq u hu, hblank]
    split
    · rename_i hin
      exact ⟨fun _ => hin, fun _ => ⟨_, rfl⟩⟩
    · rename_i hin
      simp [hin, pageMapDepthInvalid, pageMapDepthMemory]
  have hfirst := (exampleTop_checks htop).first_inRange
  obtain ⟨part, hr, hd⟩ := ((hmapped _ hfirst.1).mpr hfirst).leaf_table ha.topOk hlow
  exact ⟨s', _, part, ha.topOk, hlow, hr, hd, hmapped⟩

theorem rangeBelow_leaf {address : Uintptr} {size : Size} (hlo : 0x200000 ≤ address.toNat)
    (hhi : (address + size).toNat ≤ 0x400000) : RangeBelow 0 0x200000#64 address size := by
  intro u hu
  have h₁ := BitVec.le_def.mp hu.2.1
  have h₂ := BitVec.lt_def.mp hu.2.2
  unfold SameTable pageKey
  rw [span_three]
  simp only [span, BitVec.toNat_ofNat]
  omega

theorem mmu_assign_part_agrees_example : ∃ s part, part.depth = 3 ∧
    Reaches s 0x200000#64 exampleTop part ∧
    SameEffect exampleTop (mmuAssign s part 0#32 0x200000#64 0x1000#64 0x8000#64)
      (mmuAssign s exampleTop 0#32 0x200000#64 0x1000#64 0x8000#64) := by
  obtain ⟨s, T, part, htop, hlow, hr, hd, hmapped⟩ := exampleTop_leaf
  have hrange : RangeBelow (3 - part.depth) 0x200000#64 0x200000#64 0x1000#64 := by
    rw [hd]
    exact rangeBelow_leaf (by decide) (by decide)
  exact ⟨s, part, hd, hr, (mmu_assign_part_agrees htop hlow hr hrange (by decide) 0#32
    0x8000#64).mpr (fun _ _ u hu => (hmapped u hu.1).mpr hu)⟩

/-- Mapping the second page through the leaf table takes a page that nothing names. -/
theorem mmu_assign_leaf_part_leaks : ∃ s T part, TopOk s exampleTop 0x5000#64 T ∧
    Reaches s 0x200000#64 exampleTop part ∧
    RangeBelow (3 - part.depth) 0x200000#64 0x201000#64 0x1000#64 ∧
    ¬ SameEffect exampleTop (mmuAssign s part 0#32 0x201000#64 0x1000#64 0x8000#64)
      (mmuAssign s exampleTop 0#32 0x201000#64 0x1000#64 0x8000#64) := by
  obtain ⟨s, T, part, htop, hlow, hr, hd, hmapped⟩ := exampleTop_leaf
  have hrange : RangeBelow 0 0x200000#64 0x201000#64 0x1000#64 :=
    rangeBelow_leaf (by decide) (by decide)
  have hc : EntryChecks s ⟨exampleTop, 0x201000#64, 0x201000#64 + 0x1000#64⟩ :=
    htop.checks (by decide) (by decide) (by decide) (by decide) (by decide)
  refine ⟨s, T, part, htop, hr, by rwa [hd], ?_⟩
  intro hsame
  obtain ⟨n, c, hn, -, hdescent⟩ := hr.descent htop hlow
  obtain rfl : n = 0 := by omega
  have hall := (hdescent.leaf_agrees htop hrange hc (by decide)).mp hsame
  have hin := (hmapped _ hc.first_inRange.1).mp (hall _ hc.first_inRange)
  exact absurd hin (by decide)

end Example

end Ukulele
