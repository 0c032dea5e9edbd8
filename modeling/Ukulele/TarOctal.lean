import Ukulele.Tar

/-! The numbers in the headers of an archive, which are written in octal digits. -/

set_option autoImplicit false

namespace Ukulele
open ByteRange

variable {mem : ByteMemory} {str : Uintptr} {len : Size} {digits : List (Fin 8)}

def octalDigit (digit : Fin 8) : Byte := 0x30#8 + BitVec.ofNat 8 digit.val

def octalFrom (n : Nat) (digits : List (Fin 8)) : Nat :=
  digits.foldl (fun n digit => n * 8 + digit.val) n

def octalValue (digits : List (Fin 8)) : Nat := octalFrom 0 digits

/-- A field of `len` bytes with the digits, up to its end or up to a null byte. -/
structure OctalField (mem : ByteMemory) (str : Uintptr) (len : Size) (digits : List (Fin 8)) :
    Prop where
  length_le : digits.length ≤ len.toNat
  digit_eq : ∀ i (h : i < digits.length), mem (str + BitVec.ofNat 64 i) = octalDigit digits[i]
  nul : digits.length < len.toNat → mem (str + BitVec.ofNat 64 digits.length) = 0#8

/-- The last digits of a number, zeros in front included. -/
def paddedOctal : Nat → Nat → List (Fin 8)
  | 0, _ => []
  | k + 1, n => paddedOctal k (n / 8) ++ [Fin.ofNat 8 n]

theorem octalFrom_eq (n : Nat) (digits : List (Fin 8)) :
    octalFrom n digits = n * 8 ^ digits.length + octalValue digits := by
  induction digits generalizing n with
  | nil => simp [octalFrom, octalValue]
  | cons digit digits ih =>
    have hn : octalFrom n (digit :: digits) = octalFrom (n * 8 + digit.val) digits := rfl
    have hzero : octalValue (digit :: digits) = octalFrom (0 * 8 + digit.val) digits := rfl
    rw [hn, hzero, ih, ih (0 * 8 + digit.val), List.length_cons]
    ring

theorem octalValue_concat (digits : List (Fin 8)) (digit : Fin 8) :
    octalValue (digits ++ [digit]) = octalValue digits * 8 + digit.val := by
  simp [octalValue, octalFrom, List.foldl_append]

theorem octalValue_eq_ofDigits (digits : List (Fin 8)) :
    octalValue digits = Nat.ofDigits 8 (digits.map Fin.val).reverse := by
  induction digits using List.reverseRecOn with
  | nil => rfl
  | append_singleton digits digit ih =>
    rw [octalValue_concat, ih, List.map_append, List.map_singleton, List.reverse_append,
      List.reverse_singleton, List.singleton_append, Nat.ofDigits_cons]
    ring

theorem octalValue_inj {digits' : List (Fin 8)} (hlen : digits.length = digits'.length)
    (h : octalValue digits = octalValue digits') : digits = digits' := by
  have hlt : ∀ {digits : List (Fin 8)}, ∀ n ∈ (digits.map Fin.val).reverse, n < 8 := by
    intro digits n hn
    obtain ⟨digit, -, rfl⟩ := List.mem_map.mp (List.mem_reverse.mp hn)
    exact digit.isLt
  rw [octalValue_eq_ofDigits, octalValue_eq_ofDigits] at h
  have he := Nat.ofDigits_inj_of_len_eq (by omega) (by simpa using hlen) hlt hlt h
  exact List.map_injective_iff.mpr Fin.val_injective (List.reverse_injective he)

theorem octalFrom_replicate (n k : Nat) (digit : Fin 8) :
    7 * octalFrom n (List.replicate k digit) + digit.val = (7 * n + digit.val) * 8 ^ k := by
  induction k generalizing n with
  | zero => simp [octalFrom]
  | succ k ih =>
    have hnext : octalFrom n (List.replicate (k + 1) digit) =
        octalFrom (n * 8 + digit.val) (List.replicate k digit) := rfl
    rw [hnext, ih, pow_succ]
    ring

theorem octalValue_replicate_lt {digit : Fin 8} (h : octalValue (digit :: digits) < 2 ^ 31) :
    octalValue (List.replicate (digits.length + 1) digit) < 2 ^ 31 := by
  have hvalue : octalValue (digit :: digits) = octalFrom (0 * 8 + digit.val) digits := rfl
  rw [hvalue, octalFrom_eq] at h
  have hsum := octalFrom_replicate 0 (digits.length + 1) digit
  rw [← octalValue] at hsum
  generalize digits.length = k at *
  generalize octalValue (List.replicate (k + 1) digit) = value at *
  by_cases hz : digit.val = 0
  · rw [hz] at hsum
    omega
  · have hk : k < 11 := by
      rw [← Nat.pow_lt_pow_iff_right (by omega : 1 < 8)]
      have hpos : 8 ^ k ≤ (0 * 8 + digit.val) * 8 ^ k := Nat.le_mul_of_pos_left _ (by omega)
      omega
    interval_cases k <;> omega

theorem paddedOctal_length (k n : Nat) : (paddedOctal k n).length = k := by
  induction k generalizing n with
  | zero => rfl
  | succ k ih => simp [paddedOctal, ih]

theorem octalValue_paddedOctal (k n : Nat) : octalValue (paddedOctal k n) = n % 8 ^ k := by
  induction k generalizing n with
  | zero => simp [paddedOctal, octalValue, octalFrom, Nat.mod_one]
  | succ k ih =>
    rw [paddedOctal, octalValue_concat, ih, Fin.val_ofNat, pow_succ', Nat.mod_mul]
    ring

theorem OctalField.count_eq (h : OctalField mem str len digits) :
    (strnlen mem str len).toNat = digits.length := by
  have hle := h.length_le
  have hdigit : ∀ digit : Fin 8, octalDigit digit ≠ 0#8 := by decide
  have hbytes : ∀ i < digits.length, mem (str + BitVec.ofNat 64 i) ≠ 0#8 := by
    intro i hi
    rw [h.digit_eq i hi]
    exact hdigit _
  rw [toNat_strnlen]
  rcases Nat.lt_or_eq_of_le hle with hlt | he
  · have hat : StringAt mem str digits.length := ⟨hbytes, h.nul hlt⟩
    rw [hat.before_eq, Nat.min_eq_right hle]
  · rw [← he]
    apply before_eq_bound_iff.mpr
    intro i hi
    simpa [isNul] using hbytes i hi

theorem tarReadOctalLoop_eq (digit : Fin 8) (k n : Nat) :
    tarReadOctalLoop (octalDigit digit) k (BitVec.ofNat 32 n) =
      BitVec.ofNat 32 (octalFrom n (List.replicate k digit)) := by
  have hdigit : ∀ digit : Fin 8,
      (octalDigit digit).signExtend 32 - 0x30#32 = BitVec.ofNat 32 digit.val := by decide
  induction k generalizing n with
  | zero => rfl
  | succ k ih =>
    have hnext : octalFrom n (List.replicate (k + 1) digit) =
        octalFrom (n * 8 + digit.val) (List.replicate k digit) := rfl
    rw [tarReadOctalLoop, hdigit, hnext, ← ih, BitVec.ofNat_add, BitVec.ofNat_mul]

/-- What is read is the first digit as often as there are digits. -/
theorem toInt_tarReadOctal {digit : Fin 8} (h : OctalField mem str len (digit :: digits))
    (hvalue : octalValue (digit :: digits) < 2 ^ 31) : (tarReadOctal mem str len).toInt =
      octalValue (List.replicate (digits.length + 1) digit) := by
  have hfirst : mem str = octalDigit digit := by
    simpa using h.digit_eq 0 (Nat.succ_pos _)
  have hlt := octalValue_replicate_lt hvalue
  rw [tarReadOctal, h.count_eq, hfirst, List.length_cons, tarReadOctalLoop_eq, ← octalValue,
    BitVec.toInt_eq_toNat_of_lt] <;> rw [BitVec.toNat_ofNat, Nat.mod_eq_of_lt] <;> omega

def EqualDigits (digits : List (Fin 8)) : Prop := ∀ a ∈ digits, ∀ b ∈ digits, a = b

theorem equalDigits_iff (digit : Fin 8) (digits : List (Fin 8)) : EqualDigits (digit :: digits) ↔
    digit :: digits = List.replicate (digits.length + 1) digit := by
  constructor
  · intro h
    rw [List.eq_replicate_iff]
    exact ⟨rfl, fun a ha => h a ha digit List.mem_cons_self⟩
  · intro h a ha b hb
    rw [h] at ha hb
    rw [List.eq_of_mem_replicate ha, List.eq_of_mem_replicate hb]

theorem tarReadOctal_eq_iff (h : OctalField mem str len digits)
    (hvalue : octalValue digits < 2 ^ 31) :
    (tarReadOctal mem str len).toInt = octalValue digits ↔ EqualDigits digits := by
  cases digits with
  | nil =>
    have hcount := h.count_eq
    rw [List.length_nil] at hcount
    rw [tarReadOctal, hcount]
    exact iff_of_true rfl (fun a ha => absurd ha List.not_mem_nil)
  | cons digit digits =>
    rw [toInt_tarReadOctal h hvalue, equalDigits_iff, Int.natCast_inj]
    constructor
    · intro he
      exact octalValue_inj (by simp) he.symm
    · intro he
      rw [← he]

theorem paddedOctal_equalDigits {n : Nat} (h : n < 2 ^ 31) :
    EqualDigits (paddedOctal 11 n) ↔ n = 0 ∨ n = 0o11111111111 := by
  have hvalue : octalValue (paddedOctal 11 n) = n := by
    rw [octalValue_paddedOctal, Nat.mod_eq_of_lt (by omega)]
  have hlen := paddedOctal_length 11 n
  have hsum := fun digit => octalFrom_replicate 0 11 digit
  constructor
  · intro hequal
    obtain ⟨digit, digits, he⟩ := List.exists_cons_of_length_eq_add_one hlen
    rw [he, equalDigits_iff, ← he] at hequal
    rw [he, List.length_cons] at hlen
    rw [hlen] at hequal
    have hdigit := hsum digit
    rw [← octalValue, ← hequal, hvalue] at hdigit
    omega
  · intro hn
    have hreplicate : ∃ digit, paddedOctal 11 n = List.replicate 11 digit := by
      rcases hn with rfl | rfl
      · exact ⟨0, octalValue_inj (by simp [hlen]) (by rw [hvalue]; decide)⟩
      · exact ⟨1, octalValue_inj (by simp [hlen]) (by rw [hvalue]; decide)⟩
    obtain ⟨digit, he⟩ := hreplicate
    intro a ha b hb
    rw [he] at ha hb
    rw [List.eq_of_mem_replicate ha, List.eq_of_mem_replicate hb]

/-- Only fields of equal digits are read right. -/
theorem tar_read_octal_equal_digits (mem : ByteMemory) (str : Uintptr) (len : Size) :
    (∀ digits, OctalField mem str len digits → octalValue digits < 2 ^ 31 →
      ((tarReadOctal mem str len).toInt = octalValue digits ↔ EqualDigits digits)) ∧
    ∀ n, OctalField mem str len (paddedOctal 11 n) → n < 2 ^ 31 →
      ((tarReadOctal mem str len).toInt = n ↔ n = 0 ∨ n = 0o11111111111) := by
  constructor
  · intro digits h hvalue
    exact tarReadOctal_eq_iff h hvalue
  · intro n h hn
    have hvalue : octalValue (paddedOctal 11 n) = n := by
      rw [octalValue_paddedOctal, Nat.mod_eq_of_lt (by omega)]
    have hread := tarReadOctal_eq_iff h (by omega)
    rw [hvalue] at hread
    rw [hread, paddedOctal_equalDigits hn]

def octalTwelve : ByteMemory := fun a =>
  if a = 0x1000#64 then 0x31#8 else if a = 0x1001#64 then 0x32#8 else 0#8

theorem octalTwelve_field : OctalField octalTwelve 0x1000#64 sizeofFileSize [1, 2] := by
  refine ⟨by decide, ?_, fun _ => by decide⟩
  intro i hi
  have hlt : i < 2 := hi
  interval_cases i <;> rfl

def oneDigits : ByteMemory := fun _ => 0x31#8

theorem oneDigits_field : OctalField oneDigits 0x1000#64 11#64 (List.replicate 11 1) := by
  refine ⟨by decide, ?_, fun hlt => absurd hlt (by decide)⟩
  intro i hi
  rw [List.getElem_replicate]
  rfl

theorem tar_read_octal_equal_digits_example :
    (tarReadOctal oneDigits 0x1000#64 11#64).toInt = octalValue (List.replicate 11 1) :=
  ((tar_read_octal_equal_digits _ _ _).1 _ oneDigits_field (by decide)).mpr (by
    intro a ha b hb
    rw [List.eq_of_mem_replicate ha, List.eq_of_mem_replicate hb])

/-- The digits 1 and 2 are read as 1 and 1. -/
theorem tar_read_octal_reads_first_digit :
    OctalField octalTwelve 0x1000#64 sizeofFileSize [1, 2] ∧ octalValue [1, 2] = 10 ∧
      (tarReadOctal octalTwelve 0x1000#64 sizeofFileSize).toInt = 9 :=
  ⟨octalTwelve_field, by decide, by decide⟩

end Ukulele
