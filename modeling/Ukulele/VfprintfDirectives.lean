import Ukulele.Pieces
import Ukulele.StringX86
import Ukulele.VfprintfNumbers

/-! The conversions that are supported, what they expand to, and what is printed for them. The
arguments are part of the directives, each a word of which the type takes the low bits.
-/

set_option autoImplicit false

namespace Ukulele
open ByteRange

inductive LengthModifier where
  | none | hh | h | l | ll | z | j | t
  deriving DecidableEq, Repr

def LengthModifier.text : LengthModifier → List Byte
  | .none => []
  | .hh => [ch 'h', ch 'h']
  | .h => [ch 'h']
  | .l => [ch 'l']
  | .ll => [ch 'l', ch 'l']
  | .z => [ch 'z']
  | .j => [ch 'j']
  | .t => [ch 't']

def LengthModifier.bits : LengthModifier → Nat
  | .hh => 8
  | .h => 16
  | .none => 32
  | .l | .ll | .z | .j | .t => 64

inductive NumberConversion where
  | d | i | u | x
  deriving DecidableEq, Repr

def NumberConversion.letter : NumberConversion → Byte
  | .d => ch 'd'
  | .i => ch 'i'
  | .u => ch 'u'
  | .x => ch 'x'

instance neZero_10 : NeZero 10 := ⟨by decide⟩

/-- The flag and the digits of the width. -/
structure NumberSpec where
  zero : Bool
  width : List (Fin 10)
  length : LengthModifier
  deriving DecidableEq, Repr

/-- A precision is for strings only, as it is in the specifier. -/
inductive Directive where
  | ordinary : Byte → Directive
  | percent : Directive
  | number : NumberSpec → NumberConversion → BitVec 64 → Directive
  | char : List (Fin 10) → BitVec 64 → Directive
  | string : List (Fin 10) → BitVec 64 → Directive
  | stringPrecision : List (Fin 10) → BitVec 64 → Directive
  | pointer : List (Fin 10) → BitVec 64 → Directive
  deriving DecidableEq, Repr

def decimalFrom (n : Nat) (digits : List (Fin 10)) : Nat :=
  digits.foldl (fun n digit => n * 10 + digit.val) n

def decimal (digits : List (Fin 10)) : Nat := decimalFrom 0 digits

def decimalText (digits : List (Fin 10)) : List Byte :=
  digits.map fun digit => ch '0' + BitVec.ofNat 8 digit.val

def NumberSpec.text (spec : NumberSpec) : List Byte :=
  (if spec.zero then [ch '0'] else []) ++ (decimalText spec.width ++ spec.length.text)

def Directive.text : Directive → List Byte
  | .ordinary c => [c]
  | .percent => [ch '%', ch '%']
  | .number spec conversion _ => ch '%' :: (spec.text ++ [conversion.letter])
  | .char width _ => ch '%' :: (decimalText width ++ [ch 'c'])
  | .string width _ => ch '%' :: (decimalText width ++ [ch 's'])
  | .stringPrecision precision _ => ch '%' :: ch '.' :: (decimalText precision ++ [ch 's'])
  | .pointer width _ => ch '%' :: (decimalText width ++ [ch 'p'])

def Directive.args : Directive → List (BitVec 64)
  | .ordinary _ | .percent => []
  | .number _ _ arg | .char _ arg | .string _ arg | .stringPrecision _ arg | .pointer _ arg =>
    [arg]

/-- An argument of a short type is promoted to an `int` of the same value. -/
def Promoted (length : LengthModifier) (conversion : NumberConversion) (arg : BitVec 64) : Prop :=
  length.bits < 32 →
    match conversion with
    | .d | .i => (arg.setWidth 32).toInt = (arg.setWidth length.bits).toInt
    | .u | .x => (arg.setWidth 32).toNat = (arg.setWidth length.bits).toNat

/-- A first zero is the flag, and a precision is an `int`. -/
def Directive.WellFormed : Directive → Prop
  | .ordinary c => c ≠ 0#8 ∧ c ≠ ch '%'
  | .number spec conversion arg =>
    (spec.zero = false → spec.width.head? ≠ some 0) ∧ Promoted spec.length conversion arg
  | .char width _ | .string width _ | .pointer width _ => width.head? ≠ some 0
  | .stringPrecision precision _ => decimal precision < 2 ^ 31
  | .percent => True

def numberSign (length : LengthModifier) : NumberConversion → BitVec 64 → List Byte
  | .d, arg | .i, arg => if (arg.setWidth length.bits).toInt < 0 then [ch '-'] else []
  | .u, _ | .x, _ => []

def numberDigits (length : LengthModifier) : NumberConversion → BitVec 64 → List Byte
  | .d, arg | .i, arg => numeral 10 (arg.setWidth length.bits).toInt.natAbs
  | .u, arg => numeral 10 (arg.setWidth length.bits).toNat
  | .x, arg => numeral 16 (arg.setWidth length.bits).toNat

/-- Zeros stand behind the sign, and spaces before it. -/
def field (zero : Bool) (width : Nat) (sign digits : List Byte) : List Byte :=
  let missing := width - (sign.length + digits.length)
  if zero then sign ++ (List.replicate missing (ch '0') ++ digits)
  else List.replicate missing (ch ' ') ++ (sign ++ digits)

def stringBytes (mem : ByteMemory) (str : Uintptr) (n : Nat) : List Byte :=
  (List.range n).map fun i => mem (str + BitVec.ofNat 64 i)

def stringLength (mem : ByteMemory) (str : Uintptr) : Nat := before isNul mem (2 ^ 64) str

def Directive.expansion (mem : ByteMemory) : Directive → List Byte
  | .ordinary c => [c]
  | .percent => [ch '%']
  | .number spec conversion arg =>
    field spec.zero (decimal spec.width) (numberSign spec.length conversion arg)
      (numberDigits spec.length conversion arg)
  | .char width arg => field false (decimal width) [] [arg.setWidth 8]
  | .string width str => field false (decimal width) []
      (stringBytes mem str (stringLength mem str))
  | .stringPrecision precision str =>
    stringBytes mem str (before isNul mem (decimal precision) str)
  | .pointer width arg => field false (decimal width) [] (field true 16 [] (numeral 16 arg.toNat))

/-- What is printed for a number: the sign comes first in any case. -/
def printedField (zero : Bool) (width : Nat) (sign digits : List Byte) : List Byte :=
  sign ++ (List.replicate (fieldColumns (BitVec.ofNat 8 width) - (sign.length + digits.length))
    (if zero then ch '0' else ch ' ') ++ digits)

section Output

variable (strnlen : ByteMemory → Uintptr → Size → Size) (mem : ByteMemory)

def countedBytes (str : Uintptr) (max : Nat) : List Byte :=
  stringBytes mem str (strnlen mem str (BitVec.ofNat 64 max)).toNat

def Directive.output : Directive → List Byte
  | .ordinary c => [c]
  | .percent => [ch '%']
  | .number spec conversion arg =>
    printedField spec.zero (decimal spec.width) (numberSign spec.length conversion arg)
      (numberDigits spec.length conversion arg)
  | .char _ arg => [arg.setWidth 8]
  | .string width str =>
    printedField false (decimal width) [] (countedBytes strnlen mem str intMax.toNat)
  | .stringPrecision precision str => countedBytes strnlen mem str (decimal precision)
  | .pointer _ arg => printedField true 16 [] (numeral 16 arg.toNat)

def Directive.NotEof : Directive → Prop
  | .ordinary c => c ≠ 0xff#8
  | .char _ arg => arg.setWidth 8 ≠ 0xff#8
  | .percent | .number _ _ _ | .string _ _ | .stringPrecision _ _ | .pointer _ _ => True

/-- The width fits the `signed char` that it is kept in, or asks for no padding. -/
def WidthFits (width length : Nat) : Prop := width ≤ 127 ∨ width ≤ length

def CountsRight (str : Uintptr) (max : Nat) : Prop :=
  (strnlen mem str (BitVec.ofNat 64 max)).toNat = before isNul mem max str

/-- When the output of a directive is its expansion. -/
def Directive.PrintsRight : Directive → Prop
  | .ordinary c => c ≠ 0xff#8
  | .percent => True
  | .number spec conversion arg =>
    let length := (numberSign spec.length conversion arg).length +
      (numberDigits spec.length conversion arg).length
    WidthFits (decimal spec.width) length ∧
      (numberSign spec.length conversion arg = [] ∨ spec.zero ∨ decimal spec.width ≤ length)
  | .char width arg => arg.setWidth 8 ≠ 0xff#8 ∧ decimal width ≤ 1
  | .string width str => CountsRight strnlen mem str intMax.toNat ∧
      WidthFits (decimal width) (stringLength mem str)
  | .stringPrecision precision str => CountsRight strnlen mem str (decimal precision)
  | .pointer width _ => decimal width ≤ 16

end Output

theorem fieldColumns_ofNat (n : Nat) :
    fieldColumns (BitVec.ofNat 8 n) = if n % 256 < 128 then n % 256 else 0 := by
  unfold fieldColumns
  rw [BitVec.toInt_eq_toNat_cond, BitVec.toNat_ofNat]
  split <;> split <;> omega

theorem missing_le (width length : Nat) :
    fieldColumns (BitVec.ofNat 8 width) - length ≤ width - length := by
  rw [fieldColumns_ofNat]
  split <;> omega

theorem missing_eq_iff (width length : Nat) :
    fieldColumns (BitVec.ofNat 8 width) - length = width - length ↔ WidthFits width length := by
  unfold WidthFits
  rw [fieldColumns_ofNat]
  split <;> omega

section Fields

variable (zero : Bool) (width : Nat) (sign digits : List Byte)

theorem field_length : (field zero width sign digits).length =
    width - (sign.length + digits.length) + (sign.length + digits.length) := by
  unfold field
  cases zero with
  | false => simp
  | true =>
    simp
    omega

theorem printedField_length : (printedField zero width sign digits).length =
    fieldColumns (BitVec.ofNat 8 width) - (sign.length + digits.length) +
      (sign.length + digits.length) := by
  unfold printedField
  simp
  omega

theorem count_field : (field zero width sign digits).count 0#8 =
    sign.count 0#8 + digits.count 0#8 := by
  unfold field
  cases zero <;> simp [List.count_replicate, ch]

theorem count_printedField : (printedField zero width sign digits).count 0#8 =
    sign.count 0#8 + digits.count 0#8 := by
  unfold printedField
  cases zero <;> simp [List.count_replicate, ch]

end Fields

theorem printedField_length_le (zero : Bool) (width : Nat) (sign digits : List Byte) :
    (printedField zero width sign digits).length ≤ (field zero width sign digits).length := by
  rw [printedField_length, field_length]
  exact Nat.add_le_add_right (missing_le width _) _

theorem printedField_eq_iff {zero : Bool} {width : Nat} {sign digits : List Byte}
    (hsign : sign = [] ∨ sign = [ch '-']) :
    printedField zero width sign digits = field zero width sign digits ↔
      WidthFits width (sign.length + digits.length) ∧
        (sign = [] ∨ zero ∨ width ≤ sign.length + digits.length) := by
  constructor
  · intro h
    have hlen := congrArg List.length h
    rw [printedField_length, field_length, Nat.add_right_cancel_iff, missing_eq_iff] at hlen
    refine ⟨hlen, ?_⟩
    rcases hsign with rfl | rfl
    · simp
    · cases zero with
      | true => simp
      | false =>
        right
        right
        by_contra hlt
        -- the first byte is the sign in one and a space in the other
        obtain ⟨n, hn⟩ : ∃ n, width - ([ch '-'].length + digits.length) = n + 1 :=
          ⟨width - ([ch '-'].length + digits.length) - 1, by omega⟩
        simp only [printedField, field, hn, List.replicate_succ] at h
        simp [ch] at h
  · intro h
    obtain ⟨hfits, hsigned⟩ := h
    rw [← missing_eq_iff] at hfits
    unfold printedField field
    rw [hfits]
    cases zero with
    | true => simp
    | false =>
      rcases hsigned with rfl | hsigned | hle
      · simp
      · contradiction
      · have hnone : width - (sign.length + digits.length) = 0 := by omega
        simp [hnone]

theorem eq_field_iff {width : Nat} {text : List Byte} :
    text = field false width [] text ↔ width ≤ text.length := by
  constructor
  · intro h
    have hlen := congrArg List.length h
    rw [field_length, List.length_nil] at hlen
    omega
  · intro h
    have hnone : width - text.length = 0 := by omega
    simp [field, hnone]

theorem length_le_field (width : Nat) (text : List Byte) :
    text.length ≤ (field false width [] text).length := by
  rw [field_length, List.length_nil]
  omega

theorem pointer_eq (arg : BitVec 64) :
    printedField true 16 [] (numeral 16 arg.toNat) = field true 16 [] (numeral 16 arg.toNat) ∧
      (field true 16 [] (numeral 16 arg.toNat)).length = 16 := by
  have hle : (numeral 16 arg.toNat).length ≤ 16 :=
    numeral_length_le_of_lt (by decide) (by decide) arg.isLt
  constructor
  · rw [printedField_eq_iff (Or.inl rfl)]
    simp [WidthFits]
  · rw [field_length, List.length_nil]
    omega

theorem numberSign_cases (length : LengthModifier) (conversion : NumberConversion)
    (arg : BitVec 64) : numberSign length conversion arg = [] ∨
      numberSign length conversion arg = [ch '-'] := by
  cases conversion <;> simp [numberSign] <;> omega

section Strings

variable {strnlen : ByteMemory → Uintptr → Size → Size} {mem : ByteMemory} {str : Uintptr}

theorem stringBytes_length (n : Nat) : (stringBytes mem str n).length = n := by
  simp [stringBytes]

theorem count_stringBytes_before (n : Nat) :
    (stringBytes mem str (before isNul mem n str)).count 0#8 = 0 := by
  rw [List.count_eq_zero]
  intro h
  simp only [stringBytes, List.mem_map, List.mem_range] at h
  obtain ⟨i, hi, hz⟩ := h
  have hp := not_of_lt_before hi
  rw [hz] at hp
  contradiction

theorem count_stringBytes_pos {n k : Nat} (hlt : before isNul mem n str < k) (hk : k ≤ n) :
    0 < (stringBytes mem str k).count 0#8 := by
  have hp := of_before_lt (Nat.lt_of_lt_of_le hlt hk)
  rw [List.count_pos_iff]
  simp only [stringBytes, List.mem_map, List.mem_range]
  exact ⟨_, hlt, by simpa [isNul] using hp⟩

theorem before_of_stringLength_le {n : Nat} (hn : n < 2 ^ 64) (h : stringLength mem str ≤ n) :
    before isNul mem n str = stringLength mem str := by
  unfold stringLength at h ⊢
  obtain ⟨k, hk, hat⟩ := exists_stringAt (Nat.lt_of_le_of_lt h hn)
  rw [hat.before_eq] at h ⊢
  rw [hat.before_eq]
  omega

/-- What `strnlen` counts in C and in assembly: no byte too few, and none behind the bound. -/
def CountsString (strnlen : ByteMemory → Uintptr → Size → Size) : Prop :=
  ∀ mem str n, before isNul mem n.toNat str ≤ (strnlen mem str n).toNat ∧
    (strnlen mem str n).toNat ≤ n.toNat

theorem countsString_strnlen : CountsString Ukulele.strnlen := by
  intro mem str n
  rw [toNat_strnlen]
  exact ⟨Nat.le_refl _, before_le _ _⟩

theorem countsString_strnlenX86 (regs : Reg → BitVec 64) (rdx : BitVec 64) :
    CountsString fun mem str n => (callX86 strnlenX86 ⟨regs, mem⟩ str n rdx).regs .rax := by
  intro mem str n
  have hle := before_le (p := isNul) (m := mem) n.toNat str
  have heq := strnlenX86_eq ⟨regs, mem⟩ str n rdx
  dsimp only at heq ⊢
  rw [heq, BitVec.toNat_ofNat, Nat.mod_eq_of_lt (by omega)]
  omega

theorem countsRight_iff (hcounts : CountsString strnlen) {max : Nat} (hmax : max < 2 ^ 31) :
    CountsRight strnlen mem str max ↔ (countedBytes strnlen mem str max).count 0#8 = 0 := by
  have hnat : (BitVec.ofNat 64 max).toNat = max := by
    rw [BitVec.toNat_ofNat, Nat.mod_eq_of_lt (by omega)]
  have hbounds := hcounts mem str (BitVec.ofNat 64 max)
  rw [hnat] at hbounds
  unfold CountsRight countedBytes
  constructor
  · intro h
    rw [h, count_stringBytes_before]
  · intro h
    by_contra hne
    have hlt : before isNul mem max str < (strnlen mem str (BitVec.ofNat 64 max)).toNat := by omega
    have hpos := count_stringBytes_pos hlt hbounds.2
    omega

variable {d : Directive}

theorem count_expansion_le (d : Directive) :
    (d.expansion mem).count 0#8 ≤ (d.output strnlen mem).count 0#8 := by
  cases d with
  | ordinary c => exact Nat.le_refl _
  | percent => exact Nat.le_refl _
  | number spec conversion arg =>
    rw [Directive.expansion, Directive.output, count_field, count_printedField]
  | char width arg =>
    rw [Directive.expansion, Directive.output, count_field, List.count_nil, Nat.zero_add]
  | string width str =>
    rw [Directive.expansion, stringLength, count_field, count_stringBytes_before]
    exact Nat.zero_le _
  | stringPrecision precision str =>
    rw [Directive.expansion, count_stringBytes_before]
    exact Nat.zero_le _
  | pointer width arg =>
    rw [Directive.expansion, Directive.output, (pointer_eq arg).1, count_field, List.count_nil,
      Nat.zero_add]

theorem stringLength_lt {width : List (Fin 10)}
    (hlen : ((Directive.string width str).expansion mem).length < 2 ^ 31) :
    stringLength mem str < 2 ^ 31 := by
  rw [Directive.expansion, field_length, stringBytes_length] at hlen
  omega

theorem CountsRight.countedBytes_eq {max : Nat} (h : CountsRight strnlen mem str max) :
    countedBytes strnlen mem str max = stringBytes mem str (before isNul mem max str) := by
  rw [countedBytes, h]

theorem CountsRight.output_string {width : List (Fin 10)}
    (hlen : ((Directive.string width str).expansion mem).length < 2 ^ 31)
    (h : CountsRight strnlen mem str intMax.toNat) :
    (Directive.string width str).output strnlen mem =
      printedField false (decimal width) [] (stringBytes mem str (stringLength mem str)) := by
  have hmax : intMax.toNat = 2 ^ 31 - 1 := rfl
  have hlt := stringLength_lt hlen
  rw [Directive.output, h.countedBytes_eq,
    before_of_stringLength_le (by omega) (by omega)]

theorem output_length_le (hcounts : CountsString strnlen) (hwf : d.WellFormed)
    (hlen : (d.expansion mem).length < 2 ^ 31)
    (he : (d.output strnlen mem).count 0#8 = (d.expansion mem).count 0#8) :
    (d.output strnlen mem).length ≤ (d.expansion mem).length := by
  cases d with
  | ordinary c => exact Nat.le_refl _
  | percent => exact Nat.le_refl _
  | number spec conversion arg => exact printedField_length_le _ _ _ _
  | char width arg => exact length_le_field _ _
  | string width str =>
    rw [Directive.expansion, Directive.output, count_printedField, count_field, stringLength,
      count_stringBytes_before, Nat.add_left_cancel_iff] at he
    have hright := (countsRight_iff hcounts (by decide)).mpr he
    rw [hright.output_string hlen]
    exact printedField_length_le _ _ _ _
  | stringPrecision precision str =>
    rw [Directive.expansion, Directive.output, count_stringBytes_before] at he
    have hright := (countsRight_iff hcounts hwf).mpr he
    rw [Directive.expansion, Directive.output, hright.countedBytes_eq]
  | pointer width arg =>
    rw [Directive.output, (pointer_eq arg).1]
    exact length_le_field _ _

theorem output_eq_iff (hcounts : CountsString strnlen) (hwf : d.WellFormed)
    (hlen : (d.expansion mem).length < 2 ^ 31) :
    d.NotEof ∧ d.output strnlen mem = d.expansion mem ↔ d.PrintsRight strnlen mem := by
  cases d with
  | ordinary c => simp [Directive.NotEof, Directive.output, Directive.expansion,
      Directive.PrintsRight]
  | percent => simp [Directive.NotEof, Directive.output, Directive.expansion,
      Directive.PrintsRight]
  | number spec conversion arg =>
    simp only [Directive.NotEof, Directive.output, Directive.expansion, Directive.PrintsRight,
      true_and]
    exact printedField_eq_iff (numberSign_cases _ _ _)
  | char width arg =>
    rw [Directive.NotEof, Directive.output, Directive.expansion, Directive.PrintsRight,
      eq_field_iff, List.length_singleton]
  | string width str =>
    have hfield : printedField false (decimal width) []
        (stringBytes mem str (stringLength mem str)) = field false (decimal width) []
        (stringBytes mem str (stringLength mem str)) ↔ _ := printedField_eq_iff (Or.inl rfl)
    simp only [stringBytes_length, List.length_nil, Nat.zero_add, true_or, and_true] at hfield
    rw [Directive.PrintsRight, ← hfield]
    constructor
    · intro h
      have hcount := congrArg (List.count 0#8) h.2
      rw [Directive.expansion, Directive.output, count_printedField, count_field, stringLength,
        count_stringBytes_before, Nat.add_left_cancel_iff] at hcount
      have hright := (countsRight_iff hcounts (by decide)).mpr hcount
      rw [← hright.output_string hlen]
      exact ⟨hright, h.2⟩
    · intro h
      rw [h.1.output_string hlen]
      exact ⟨trivial, h.2⟩
  | stringPrecision precision str =>
    rw [Directive.PrintsRight, Directive.expansion, Directive.output]
    constructor
    · intro h
      rw [countsRight_iff hcounts hwf, h.2, count_stringBytes_before]
    · intro h
      exact ⟨trivial, h.countedBytes_eq⟩
  | pointer width arg =>
    obtain ⟨heq, hlength⟩ := pointer_eq arg
    rw [Directive.NotEof, Directive.output, Directive.expansion, Directive.PrintsRight, heq,
      eq_field_iff, hlength, true_and]

end Strings

end Ukulele
