import Ukulele.MmuEffects

/-! What the checks of `apply_nodes_entry` let through: the ranges of one half of the address
space, except those that reach the end of their half.
-/

set_option autoImplicit false

namespace Ukulele

/-- The checks alone. They know the current top table and the location, and no memory. -/
def applyNodesChecks (cr3 : Physical) (loc : NodeCommandLoc) : Except Fault NodeCommandLoc := do
  let loc := if loc.page.page = 0#64 then { loc with page := ⟨cr3, pageMapDepthTop⟩ } else loc
  requirePageAligned loc.page.page
  requirePageAligned loc.start
  requirePageAligned loc.endAt
  assert (pageMapDepthTop ≤ loc.page.depth && loc.page.depth ≤ pageMapDepthBottom)
    "Invalid page_map_depth"
  assert (loc.start < loc.endAt) "Negative MMU allocation"
  assert (mmuIsCanonicalAddress loc.start) "Non-canonical address"
  assert (loc.start &&& mmuHigherHalfMin = loc.endAt &&& mmuHigherHalfMin)
    "Start and end not in same half"
  return loc

theorem applyNodesEntry_checks (loc : NodeCommandLoc) (visit : NodeCallback) (s : Machine) :
    applyNodesEntry loc visit s =
      applyNodesChecks s.cr3 loc >>= fun loc => applyNodes loc visit s := by
  simp only [applyNodesEntry, applyNodesChecks, getCurrentPageMapTop, bind_assoc, pure_bind]
  rfl

section Checks

variable {s : Machine} {loc loc' : NodeCommandLoc}

theorem requirePageAligned_bind {p : BitVec 64} {f : Unit → Except Fault NodeCommandLoc} :
    (requirePageAligned p >>= f) = .ok loc ↔ Aligned p ∧ f () = .ok loc := by
  by_cases h : Aligned p
  · simp [h, bind, Except.bind]
  · simp [h, requirePageAligned_error h, bind, Except.bind]

theorem assert_bind {cond : Bool} {msg : String} {f : Unit → Except Fault NodeCommandLoc} :
    (assert cond msg >>= f) = .ok loc ↔ cond = true ∧ f () = .ok loc := by
  cases cond <;> simp [assert, bind, Except.bind]

theorem applyNodesChecks_iff : applyNodesChecks s.cr3 loc = .ok loc' ↔
    EntryChecks s loc ∧ loc' = { loc with page := resolve s loc.page } := by
  have hloc : (if loc.page.page = 0#64 then { loc with page := ⟨s.cr3, pageMapDepthTop⟩ } else loc) =
      { loc with page := resolve s loc.page } := by
    unfold resolve getCurrentPageMapTop
    split <;> rfl
  have htop : pageMapDepthTop = 0 := rfl
  unfold applyNodesChecks
  simp only [hloc, requirePageAligned_bind, assert_bind, pure, Except.pure, Except.ok.injEq]
  simp only [htop, Nat.zero_le, decide_true, Bool.true_and, decide_eq_true_eq]
  constructor
  · intro h
    obtain ⟨h₁, h₂, h₃, h₄, h₅, h₆, h₇, h₈⟩ := h
    exact ⟨⟨h₁, h₂, h₃, h₄, h₅, h₆, h₇⟩, h₈.symm⟩
  · intro h
    obtain ⟨⟨h₁, h₂, h₃, h₄, h₅, h₆, h₇⟩, h₈⟩ := h
    exact ⟨h₁, h₂, h₃, h₄, h₅, h₆, h₇, h₈.symm⟩

theorem enters_checked (h : applyNodesChecks s.cr3 loc = .ok loc') :
    Enters s loc loc' := by
  intro visit s' hc
  rw [applyNodesEntry_checks, hc, h]
  rfl

end Checks

def lowerHalf : Set Nat := Set.Iio (2 ^ 47)
def higherHalf : Set Nat := Set.Ico (2 ^ 64 - 2 ^ 47) (2 ^ 64)

/-- Whole pages, at least one, and every byte of them in the same half. -/
structure InOneHalf (address : Uintptr) (size : Size) : Prop where
  aligned : Aligned address
  whole : Aligned size
  pos : 0#64 < size
  half : Set.Ico address.toNat (address.toNat + size.toNat) ⊆ lowerHalf ∨
    Set.Ico address.toNat (address.toNat + size.toNat) ⊆ higherHalf

def EndsHalf (address : Uintptr) (size : Size) : Prop :=
  address.toNat + size.toNat = 2 ^ 47 ∨ address.toNat + size.toNat = 2 ^ 64

theorem inOneHalf_iff (address : Uintptr) (size : Size) : InOneHalf address size ↔
    address.toNat % 4096 = 0 ∧ size.toNat % 4096 = 0 ∧ 0 < size.toNat ∧
    (address.toNat + size.toNat ≤ 2 ^ 47 ∨
      2 ^ 64 - 2 ^ 47 ≤ address.toNat ∧ address.toNat + size.toNat ≤ 2 ^ 64) := by
  have hpos : 0#64 < size ↔ 0 < size.toNat := BitVec.lt_def
  have hlower : 0 < size.toNat → (Set.Ico address.toNat (address.toNat + size.toNat) ⊆ lowerHalf ↔
      address.toNat + size.toNat ≤ 2 ^ 47) := by
    intro h
    constructor
    · intro hsub
      have hlast : address.toNat + size.toNat - 1 < 2 ^ 47 := hsub ⟨by omega, by omega⟩
      omega
    · intro hle x hx
      exact Nat.lt_of_lt_of_le hx.2 hle
  have hhigher : 0 < size.toNat → (Set.Ico address.toNat (address.toNat + size.toNat) ⊆ higherHalf ↔
      2 ^ 64 - 2 ^ 47 ≤ address.toNat ∧ address.toNat + size.toNat ≤ 2 ^ 64) := by
    intro h
    rw [higherHalf, Set.Ico_subset_Ico_iff (by omega)]
  constructor
  · intro h
    have hs := hpos.mp h.pos
    refine ⟨h.aligned, h.whole, hs, ?_⟩
    rw [← hlower hs, ← hhigher hs]
    exact h.half
  · intro h
    obtain ⟨ha, hz, hs, hhalf⟩ := h
    refine ⟨ha, hz, hpos.mpr hs, ?_⟩
    rw [hlower hs, hhigher hs]
    exact hhalf

section Calls

variable {s : Machine} {top : MmuPageMapPart} {address : Uintptr} {size : Size}

def Accepts (s : Machine) (top : MmuPageMapPart) (address : Uintptr) (size : Size) : Prop :=
  ∃ loc, applyNodesChecks s.cr3 ⟨top, address, address + size⟩ = .ok loc ∧
    Enters s ⟨top, address, address + size⟩ loc

def Rejects (s : Machine) (top : MmuPageMapPart) (address : Uintptr) (size : Size) : Prop :=
  ∃ e, applyNodesChecks s.cr3 ⟨top, address, address + size⟩ = .error e ∧
    ∀ flags page, mmuAssign s top flags address size page = .error e ∧
      mmuRemove s top address size = .error e

theorem accepts_iff : Accepts s top address size ↔
    EntryChecks s ⟨top, address, address + size⟩ := by
  constructor
  · intro h
    obtain ⟨loc, h, -⟩ := h
    exact (applyNodesChecks_iff.mp h).1
  · intro h
    have hok := applyNodesChecks_iff.mpr ⟨h, rfl⟩
    exact ⟨_, hok, enters_checked hok⟩

theorem rejects_iff : Rejects s top address size ↔
    ¬ EntryChecks s ⟨top, address, address + size⟩ := by
  constructor
  · intro h hchecks
    obtain ⟨e, h, -⟩ := h
    rw [applyNodesChecks_iff.mpr ⟨hchecks, rfl⟩] at h
    contradiction
  · intro h
    cases hrun : applyNodesChecks s.cr3 ⟨top, address, address + size⟩ with
    | ok loc => exact absurd (applyNodesChecks_iff.mp hrun).1 h
    | error e =>
      refine ⟨e, hrun, fun flags page => ⟨?_, ?_⟩⟩
      · simp [mmuAssign, applyNodesEntry_checks, hrun, bind, Except.bind]
      · simp [mmuRemove, applyNodesEntry_checks, hrun, bind, Except.bind]

theorem entryChecks_iff (hpage : Aligned (resolve s top).page)
    (hdepth : (resolve s top).depth = 0) :
    EntryChecks s ⟨top, address, address + size⟩ ↔
      InOneHalf address size ∧ ¬ EndsHalf address size := by
  have ha := address.isLt
  have hs := size.isLt
  have hadd := BitVec.toNat_add address size
  have hchecks : EntryChecks s ⟨top, address, address + size⟩ ↔
      address.toNat % 4096 = 0 ∧ (address + size).toNat % 4096 = 0 ∧
      address.toNat < (address + size).toNat ∧
      (address.toNat / 2 ^ 47 = 0 ∨ address.toNat / 2 ^ 47 = 2 ^ 17 - 1) ∧
      address.toNat / 2 ^ 47 = (address + size).toNat / 2 ^ 47 := by
    constructor
    · exact fun h => h.toNat
    · intro h
      obtain ⟨h₁, h₂, h₃, h₄, h₅⟩ := h
      exact ⟨hpage, h₁, h₂, by rw [hdepth]; decide, BitVec.lt_def.mpr h₃,
        (canonical_iff address).mpr h₄, (same_half_iff address (address + size)).mpr h₅⟩
  rw [hchecks, inOneHalf_iff]
  unfold EndsHalf
  omega

/-- The checks let a range through exactly if it is in one half. -/
def ChecksHalf (s : Machine) (top : MmuPageMapPart) (address : Uintptr) (size : Size) : Prop :=
  (InOneHalf address size → Accepts s top address size) ∧
    (¬ InOneHalf address size → Rejects s top address size)

/-- They do, unless the range is in one half and ends with it. -/
theorem mmu_checks_accept_half (hpage : Aligned (resolve s top).page)
    (hdepth : (resolve s top).depth = 0) (address : Uintptr) (size : Size) :
    ChecksHalf s top address size ↔ ¬ (InOneHalf address size ∧ EndsHalf address size) := by
  have hchecks : EntryChecks s ⟨top, address, address + size⟩ ↔ _ := entryChecks_iff hpage hdepth
  unfold ChecksHalf
  rw [accepts_iff, rejects_iff, hchecks]
  tauto

theorem mmu_checks_accept_half_example :
    ChecksHalf bareMachine exampleTop 0x200000#64 0x1000#64 :=
  (mmu_checks_accept_half (by decide) rfl 0x200000#64 0x1000#64).mpr
    (fun h => h.2.elim (by decide) (by decide))

/-- The last page of the lower half and the last page of the address space are refused. -/
theorem mmu_checks_refuse_last_pages :
    ¬ ChecksHalf bareMachine exampleTop 0x7ffffffff000#64 0x1000#64 ∧
      ¬ ChecksHalf bareMachine exampleTop 0xfffffffffffff000#64 0x1000#64 := by
  have hrefuse : ∀ address : Uintptr, InOneHalf address 0x1000#64 →
      ¬ EntryChecks bareMachine ⟨exampleTop, address, address + 0x1000#64⟩ →
      ¬ ChecksHalf bareMachine exampleTop address 0x1000#64 :=
    fun _ hin hno h => hno (accepts_iff.mp (h.1 hin))
  constructor
  · apply hrefuse
    · rw [inOneHalf_iff]
      decide
    · exact fun h => absurd h.half (by decide)
  · apply hrefuse
    · rw [inOneHalf_iff]
      decide
    · exact fun h => absurd h.order (by decide)

end Calls

end Ukulele
