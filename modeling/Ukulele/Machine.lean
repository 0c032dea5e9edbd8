import Mathlib

/-! Machine words, the page and macro headers, panics and physical memory.
A fixed-width C integer is a `BitVec`; an `int` that the code keeps small is an `Int` or a `Nat`.
-/

set_option autoImplicit false

namespace Ukulele

abbrev Physical := BitVec 64
abbrev Uintptr := BitVec 64
abbrev Size := BitVec 64
abbrev Byte := BitVec 8

def pageSize : BitVec 64 := 4096#64

/-- Why a call does not return. An array access out of bounds is undefined in C and
is kept apart from the panics, which the source raises itself; an entry of a page table has
a fault of its own. Fuel bounds the recursions of the model. -/
inductive Fault where
  | notAligned : BitVec 64 → Fault
  | assertFailed : String → Fault
  | shouldHaveSpace : Fault
  | doubleFree : Physical → Fault
  | badFree : Physical → Fault
  | indexOutOfBounds : Int → Fault
  | tableIndexOutOfBounds : Int → Fault
  | nullPointer : Fault
  | outOfFuel : Fault
  deriving DecidableEq, Repr

def roundDown (val mult : BitVec 64) : BitVec 64 := val / mult * mult
def roundUpP2 (val mult : BitVec 64) : BitVec 64 := (val + mult - 1#64) &&& ~~~(mult - 1#64)
def roundDownP2 (val mult : BitVec 64) : BitVec 64 := val &&& ~~~(mult - 1#64)
def minMacro (x y : BitVec 64) : BitVec 64 := if x < y then x else y
def maxMacro (x y : BitVec 64) : BitVec 64 := if x < y then y else x

def requirePageAligned (p : BitVec 64) : Except Fault Unit :=
  if p &&& 0xfff#64 ≠ 0#64 then .error (.notAligned p) else .ok ()

def assert (cond : Bool) (msg : String) : Except Fault Unit :=
  if cond then .ok () else .error (.assertFailed msg)

/-- One page as its 512 machine words. -/
abbrev RawPage := Fin 512 → BitVec 64

/-- Physical memory, page by page. `HHDM_POINTER page` maps physical memory at a fixed
offset, so a dereference through it is a read of `mem page`. -/
abbrev Memory := Physical → RawPage

def zeroPage : RawPage := fun _ => 0#64

instance neZero_512 : NeZero 512 := ⟨by decide⟩

theorem toNat_lt_512 {i : Int} (h : 0 ≤ i ∧ i < 512) : i.toNat < 512 := by omega

def entryIndex (i : Int) : Except Fault (Fin 512) :=
  if h : 0 ≤ i ∧ i < 512 then .ok ⟨i.toNat, toNat_lt_512 h⟩ else .error (.indexOutOfBounds i)

theorem entryIndex_ok {i : Int} {j : Fin 512} (h : (j.val : Int) = i) :
    entryIndex i = .ok j := by
  have hj := j.isLt
  have hb : 0 ≤ i ∧ i < 512 := by omega
  simp only [entryIndex, hb, and_self, dite_true]
  congr 1
  apply Fin.ext
  simp only
  omega

def Aligned (p : BitVec 64) : Prop := p.toNat % 4096 = 0

instance (p : BitVec 64) : Decidable (Aligned p) := inferInstanceAs (Decidable (_ = _))

theorem and_mask_eq_zero_iff (p : BitVec 64) : p &&& 0xfff#64 = 0#64 ↔ Aligned p := by
  have h := Nat.and_two_pow_sub_one_eq_mod p.toNat 12
  rw [← BitVec.toNat_inj]
  simpa [Aligned, BitVec.toNat_and] using (by rw [← h] : _ ↔ _)

@[simp] theorem requirePageAligned_ok {p : BitVec 64} (h : Aligned p) :
    requirePageAligned p = .ok () := by
  simp [requirePageAligned, (and_mask_eq_zero_iff p).mpr h]

theorem requirePageAligned_error {p : BitVec 64} (h : ¬ Aligned p) :
    requirePageAligned p = .error (.notAligned p) := by
  simp only [requirePageAligned, ne_eq, and_mask_eq_zero_iff, h, not_false_eq_true, if_true]

@[simp] theorem assert_true (msg : String) : assert true msg = .ok () := rfl

end Ukulele
