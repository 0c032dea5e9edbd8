import Ukulele.MmuParts
import Ukulele.MmuChecks

/-! The rights in the leaf entries that `mmu_assign` stores. An entry is the address of its page
with the flags added by a bare OR, and the address comes from an argument that nothing checks.
-/

set_option autoImplicit false

namespace Ukulele
open RadixTree

/-- The low bits of an entry that stand for no right that a call can ask for. -/
def otherLowBits : BitVec 64 := 0xff0#64

/-- The entry carries the rights that the flags ask for, and no others. -/
structure HasRights (flags : BitVec 32) (entry : BitVec 64) : Prop where
  present : entry &&& mmuRegPresent ≠ 0#64
  write : entry &&& mmuRegWrite ≠ 0#64 ↔ flags &&& memoryWrite ≠ 0#32
  user : entry &&& mmuRegUser ≠ 0#64 ↔ flags &&& memoryUser ≠ 0#32
  writeThrough : entry &&& mmuRegWriteThrough ≠ 0#64 ↔ flags &&& memoryCacheWriteThrough ≠ 0#32
  noExecute : entry &&& mmuRegNoExecute ≠ 0#64 ↔ flags &&& memoryExec = 0#32
  other : entry &&& otherLowBits = 0#64

theorem convertFlags_rights (flags : BitVec 32) : HasRights flags (convertFlags flags) := by
  unfold convertFlags
  simp only
  constructor <;> split <;> split <;> split <;> split <;> simp_all <;> decide

section Bits

variable {x p m : BitVec 64}

theorem add_and_low (hx : Aligned x) (hm : m &&& ~~~0xfff#64 = 0#64) :
    (x + p) &&& m = p &&& m := by
  have hmask : ∀ y : BitVec 64, (y &&& 0xfff#64).toNat = y.toNat % 4096 :=
    fun y => (BitVec.toNat_and ..).trans (Nat.and_two_pow_sub_one_eq_mod y.toNat 12)
  have hlow : (x + p) &&& 0xfff#64 = p &&& 0xfff#64 := by
    apply BitVec.eq_of_toNat_eq
    unfold Aligned at hx
    rw [hmask, hmask, BitVec.toNat_add]
    omega
  rw [← low_and_pageMask hm, BitVec.and_comm m, ← BitVec.and_assoc, hlow, BitVec.and_assoc]

theorem toNat_and_noExecute (x : BitVec 64) :
    (x &&& mmuRegNoExecute).toNat = x.toNat / 2 ^ 63 * 2 ^ 63 := by
  rw [← toNat_roundDownP2 x (by decide : 63 < 64), roundDownP2,
    show ~~~((1#64 <<< 63) - 1#64) = mmuRegNoExecute by decide]

theorem and_noExecute_iff : x &&& mmuRegNoExecute = 0#64 ↔ x.toNat < 2 ^ 63 := by
  have h := toNat_and_noExecute x
  rw [← BitVec.toNat_inj, h, BitVec.toNat_ofNat]
  omega

theorem or_and_ne_zero_iff {y : BitVec 64} :
    (x ||| y) &&& m ≠ 0#64 ↔ x &&& m ≠ 0#64 ∨ y &&& m ≠ 0#64 := by
  rw [BitVec.and_or_distrib_right, Ne, BitVec.or_eq_zero_iff]
  tauto

end Bits

/-- The physical base brings no bit into an entry that the flags do not ask for. -/
structure PageFits (flags : BitVec 32) (size : Size) (page : Physical) : Prop where
  write : page &&& mmuRegWrite ≠ 0#64 → flags &&& memoryWrite ≠ 0#32
  user : page &&& mmuRegUser ≠ 0#64 → flags &&& memoryUser ≠ 0#32
  writeThrough : page &&& mmuRegWriteThrough ≠ 0#64 → flags &&& memoryCacheWriteThrough ≠ 0#32
  noExecute : flags &&& memoryExec ≠ 0#32 → page.toNat + size.toNat < 2 ^ 63 + 4096
  other : page &&& otherLowBits = 0#64

section Entries

variable {flags : BitVec 32} {address : Uintptr} {size : Size} {page : Physical} {v : Uintptr}

/-- An entry in terms of the base: its low bits are those of the base, bit 63 is that of the sum. -/
theorem assignEntry_rights_iff (ha : Aligned address) (hv : Aligned v) :
    HasRights flags (assignEntry flags address page v) ↔
      (page &&& mmuRegWrite ≠ 0#64 → flags &&& memoryWrite ≠ 0#32) ∧
      (page &&& mmuRegUser ≠ 0#64 → flags &&& memoryUser ≠ 0#32) ∧
      (page &&& mmuRegWriteThrough ≠ 0#64 → flags &&& memoryCacheWriteThrough ≠ 0#32) ∧
      (flags &&& memoryExec ≠ 0#32 → (v - address + page).toNat < 2 ^ 63) ∧
      page &&& otherLowBits = 0#64 := by
  have hoff : Aligned (v - address) := by
    unfold Aligned at ha hv ⊢
    rw [BitVec.toNat_sub]
    omega
  have hf := convertFlags_rights flags
  have hbit : ∀ {m : BitVec 64}, m &&& ~~~0xfff#64 = 0#64 →
      (assignEntry flags address page v &&& m ≠ 0#64 ↔
        page &&& m ≠ 0#64 ∨ convertFlags flags &&& m ≠ 0#64) := by
    intro m hm
    rw [assignEntry, or_and_ne_zero_iff, add_and_low hoff hm]
  have hother : assignEntry flags address page v &&& otherLowBits = 0#64 ↔
      page &&& otherLowBits = 0#64 := by
    rw [assignEntry, BitVec.and_or_distrib_right, hf.other, BitVec.or_zero,
      add_and_low hoff (by decide)]
  have hexec : assignEntry flags address page v &&& mmuRegNoExecute ≠ 0#64 ↔
      ¬ (v - address + page).toNat < 2 ^ 63 ∨ flags &&& memoryExec = 0#32 := by
    rw [assignEntry, or_and_ne_zero_iff, hf.noExecute, Ne, and_noExecute_iff]
  have hwrite := hbit (show mmuRegWrite &&& ~~~0xfff#64 = 0#64 by decide)
  have huser := hbit (show mmuRegUser &&& ~~~0xfff#64 = 0#64 by decide)
  have hthrough := hbit (show mmuRegWriteThrough &&& ~~~0xfff#64 = 0#64 by decide)
  rw [hf.write] at hwrite
  rw [hf.user] at huser
  rw [hf.writeThrough] at hthrough
  constructor
  · intro h
    exact ⟨or_iff_right_iff_imp.mp (hwrite.symm.trans h.write),
      or_iff_right_iff_imp.mp (huser.symm.trans h.user),
      or_iff_right_iff_imp.mp (hthrough.symm.trans h.writeThrough),
      not_imp_comm.mp (or_iff_right_iff_imp.mp (hexec.symm.trans h.noExecute)),
      hother.mp h.other⟩
  · intro h
    obtain ⟨h₁, h₂, h₃, h₄, h₅⟩ := h
    exact ⟨present_iff.mp (assignEntry_present flags address page v),
      hwrite.trans (or_iff_right_iff_imp.mpr h₁), huser.trans (or_iff_right_iff_imp.mpr h₂),
      hthrough.trans (or_iff_right_iff_imp.mpr h₃),
      hexec.trans (or_iff_right_iff_imp.mpr (not_imp_comm.mp h₄)), hother.mpr h₅⟩

theorem aligned_pageOf (v : Uintptr) : Aligned (pageOf v) := by
  unfold Aligned
  rw [toNat_pageOf]
  omega

theorem EntryChecks.rights_iff {s : Machine} {part : MmuPageMapPart}
    (hc : EntryChecks s ⟨part, address, address + size⟩) :
    (∀ v, InRange address size v → HasRights flags (assignEntry flags address page (pageOf v))) ↔
      PageFits flags size page := by
  obtain ⟨h₁, h₂, h₃, h₄, h₅⟩ := hc.toNat
  simp only at h₁ h₂ h₃ h₄ h₅
  have hsum : (address + size).toNat = (address.toNat + size.toNat) % 2 ^ 64 :=
    BitVec.toNat_add address size
  have hend := (address + size).isLt
  have hsize := size.isLt
  have hbase := page.isLt
  have haddr := address.isLt
  have hentry : ∀ v, HasRights flags (assignEntry flags address page (pageOf v)) ↔ _ :=
    fun v => assignEntry_rights_iff hc.start (aligned_pageOf v)
  constructor
  · intro h
    obtain ⟨hw, hu, ht, hx, ho⟩ := (hentry address).mp (h _ hc.first_inRange)
    obtain ⟨-, -, -, hx', -⟩ := (hentry _).mp (h _ hc.last_inRange)
    refine ⟨hw, hu, ht, ?_, ho⟩
    intro he
    have hfirst := hx he
    have hlast := hx' he
    rw [BitVec.toNat_add, hc.first_inRange.toNat_offset hc.start] at hfirst
    rw [BitVec.toNat_add, hc.last_inRange.toNat_offset hc.start, hc.toNat_last] at hlast
    omega
  · intro h v hv
    refine (hentry v).mpr ⟨h.write, h.user, h.writeThrough, ?_, h.other⟩
    intro he
    have hfit := h.noExecute he
    have hhi := BitVec.lt_def.mp hv.2.2
    rw [BitVec.toNat_add, hv.toNat_offset hc.start]
    omega

end Entries

def leafEntry (s : Machine) (n : Nat) (p : Physical) (v : Uintptr) : Option (BitVec 64) :=
  get entryCoding n (pageTree s n p) (partKey n v)

def RangeHasRights (s : Machine) (n : Nat) (p : Physical) (flags : BitVec 32) (address : Uintptr)
    (size : Size) : Prop :=
  ∀ v, InRange address size v → ∃ entry, leafEntry s n p v = some entry ∧ HasRights flags entry

section Calls

variable {s s' : Machine} {part : MmuPageMapPart} {p : Physical} {d n : Nat} {T : PageTree n}
  {flags : BitVec 32} {address : Uintptr} {size : Size} {page : Physical}

theorem checks_of_returns (h : mmuAssign s part flags address size page = .ok s') :
    EntryChecks s ⟨part, address, address + size⟩ := by
  by_contra hno
  obtain ⟨e, -, hrun⟩ := rejects_iff.mpr hno
  rw [(hrun flags page).1] at h
  contradiction

/-- A call that returns stores exactly the rights asked for if and only if the physical base
brings none of its own. -/
theorem mmu_assign_gives_rights (hpart : resolve s part = ⟨p, d⟩) (hd : d + n = 3)
    (htree : TreeOk s p T) (hp : PmmOk s) (hlow : PmmLow s) (hspan : InSpan n address size)
    (hend : address + size ≤ lastEntryStart)
    (h : mmuAssign s part flags address size page = .ok s') :
    RangeHasRights s' n p flags address size ↔ PageFits flags size page := by
  have hc := checks_of_returns h
  have hentries := (mmuAssign_entries hpart hd htree hp hlow hspan hc hend flags page).of_ok h
  rw [← hc.rights_iff]
  constructor
  · intro hall v hv
    obtain ⟨entry, he, hrights⟩ := hall v hv
    rw [leafEntry, hentries v hv, Option.some.injEq] at he
    rwa [he]
  · intro hall v hv
    exact ⟨_, hentries v hv, hall v hv⟩

theorem mmu_assign_gives_rights_example : ∃ s s',
    mmuAssign s exampleTop memoryWrite 0x200000#64 0x1000#64 0x7000#64 = .ok s' ∧
      RangeHasRights s' 3 0x5000#64 memoryWrite 0x200000#64 0x1000#64 := by
  obtain ⟨s, s', -, -, htop, hok, h, -, -⟩ := exampleTop_mapped
  exact ⟨s, s', h, (mmu_assign_gives_rights htop.resolved rfl htop.tree htop.pmm
    (hok.low (by decide)) (inSpan_three _ _) (by decide) h).mpr
    ⟨by decide, by decide, by decide, by decide, by decide⟩⟩

/-- A base that is not page aligned makes a page writable that nobody asked to write. -/
theorem mmu_assign_takes_rights_from_base : ∃ s s',
    TopOk s exampleTop 0x5000#64 (blank 0#64 3) ∧
      mmuAssign s exampleTop 0#32 0x200000#64 0x1000#64 0x7002#64 = .ok s' ∧
      ¬ RangeHasRights s' 3 0x5000#64 0#32 0x200000#64 0x1000#64 := by
  obtain ⟨s, s', htop, hok, h⟩ := @exampleTop_returns 0#32 0x200000#64 0x1000#64 0x7002#64 (by
    rw [pmmAdd]
    decide +kernel)
  have hc := exampleTop_checks htop
  refine ⟨s, s', htop, h, ?_⟩
  intro hall
  obtain ⟨entry, he, hrights⟩ := hall _ hc.first_inRange
  have hentry := (mmuAssign_entries htop.resolved rfl htop.tree htop.pmm (hok.low (by decide))
    (inSpan_three _ _) hc (by decide) 0#32 0x7002#64).of_ok h _ hc.first_inRange
  rw [leafEntry, hentry, Option.some.injEq] at he
  subst he
  exact absurd (hrights.write.mp (by decide)) (by decide)

end Calls

end Ukulele
