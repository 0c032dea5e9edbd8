import Ukulele.VfprintfRuns

/-! One conversion of a number anywhere in a format: its field, as C describes it. -/

set_option autoImplicit false

namespace Ukulele
open Faults

variable {σ : Type} {strnlen : ByteMemory → Uintptr → Size → Size} {mem : ByteMemory}
  {io : Stdio σ} {spec : NumberSpec} {conversion : NumberConversion}

def EmitsField (strnlen : ByteMemory → Uintptr → Size → Size) (mem : ByteMemory) (io : Stdio σ)
    (spec : NumberSpec) (conversion : NumberConversion) (arg : BitVec 64)
    (args : List (BitVec 64)) (fmt : List Byte) : Prop :=
  ∃ n io', parseFormatStr strnlen mem emptySpecifier .flag
      (spec.text ++ [conversion.letter] ++ fmt) ⟨io, arg :: args⟩ = .ok (n, fmt) ⟨io', args⟩ ∧
    io'.delivered = io.delivered ++ field spec.zero (decimal spec.width)
      (numberSign spec.length conversion arg) (numberDigits spec.length conversion arg)

theorem promoted_of_le (h : 32 ≤ spec.length.bits) (arg : BitVec 64) :
    Promoted spec.length conversion arg := by
  intro hlt
  omega

theorem parse_number (hio : io.Accepts) (hflag : spec.zero = false → spec.width.head? ≠ some 0)
    (hlength : 32 ≤ spec.length.bits) (arg : BitVec 64) (args : List (BitVec 64))
    (fmt : List Byte) : ∃ io',
      parseFormatStr strnlen mem emptySpecifier .flag
        (spec.text ++ [conversion.letter] ++ fmt) ⟨io, arg :: args⟩ =
          .ok (((Directive.number spec conversion arg).output strnlen mem).length, fmt)
            ⟨io', args⟩ ∧
      io'.delivered = io.delivered ++ (Directive.number spec conversion arg).output strnlen mem := by
  have hprint : Prints (printNumber conversion _ : PrintM σ Int) (arg :: args) args _ _ :=
    @prints_printNumber σ strnlen mem spec conversion arg (promoted_of_le hlength arg) args
  obtain ⟨io', hrun, -, hout⟩ := hprint io hio
  refine ⟨io', ?_, hout⟩
  rw [calls_number hflag conversion, bind_ok hrun]
  rfl

theorem numberSign_nil_iff (length : LengthModifier) (arg : BitVec 64)
    (hconv : conversion = .d ∨ conversion = .i) :
    numberSign length conversion arg = [] ↔ 0 ≤ (arg.setWidth length.bits).toInt := by
  rcases hconv with rfl | rfl <;> simp [numberSign]

/-- A signed conversion is printed as in C unless a negative number is padded with spaces. -/
theorem printf_signed_field (hio : io.Accepts)
    (hflag : spec.zero = false → spec.width.head? ≠ some 0) (hwidth : decimal spec.width ≤ 127)
    (hlength : 32 ≤ spec.length.bits) (hconv : conversion = .d ∨ conversion = .i)
    (arg : BitVec 64) (args : List (BitVec 64)) (fmt : List Byte) :
    EmitsField strnlen mem io spec conversion arg args fmt ↔
      0 ≤ (arg.setWidth spec.length.bits).toInt ∨ spec.zero ∨
        decimal spec.width ≤ (numberSign spec.length conversion arg).length +
          (numberDigits spec.length conversion arg).length := by
  obtain ⟨io', hrun, hout⟩ := @parse_number σ strnlen mem io spec conversion hio hflag hlength
    arg args fmt
  rw [← numberSign_nil_iff spec.length arg hconv]
  have hfield := @printedField_eq_iff spec.zero (decimal spec.width) _
    (numberDigits spec.length conversion arg) (numberSign_cases spec.length conversion arg)
  constructor
  · intro h
    obtain ⟨n, io'', hrun', hout'⟩ := h
    rw [hrun] at hrun'
    cases hrun'
    rw [hout] at hout'
    exact (hfield.mp (List.append_cancel_left hout')).2
  · intro h
    refine ⟨_, io', hrun, ?_⟩
    rw [hout, Directive.output, hfield.mpr ⟨Or.inl hwidth, h⟩]

theorem printf_signed_field_example :
    EmitsField Ukulele.strnlen oneByteString.mem collector ⟨true, [5], .none⟩ .d 0xfffffffd#64 []
      [0#8] :=
  (printf_signed_field collector_accepts (by simp) (by decide) (by decide) (Or.inl rfl) _ _ _).mpr
    (Or.inr (Or.inl rfl))

/-- `%5d` with -3 is printed with the sign before the spaces. -/
theorem printf_sign_before_spaces :
    (∃ io', parseFormatStr Ukulele.strnlen oneByteString.mem emptySpecifier .flag
        [ch '5', ch 'd', 0#8] ⟨collector, [0xfffffffd#64]⟩ = .ok (5, [0#8]) ⟨io', []⟩ ∧
      io'.delivered = [ch '-', ch ' ', ch ' ', ch ' ', ch '3']) ∧
    ¬ EmitsField Ukulele.strnlen oneByteString.mem collector ⟨false, [5], .none⟩ .d
      0xfffffffd#64 [] [0#8] := by
  obtain ⟨io', hrun, hout⟩ : ∃ io', parseFormatStr Ukulele.strnlen oneByteString.mem
      emptySpecifier .flag [ch '5', ch 'd', 0#8] ⟨collector, [0xfffffffd#64]⟩ =
        .ok (5, [0#8]) ⟨io', []⟩ ∧ io'.delivered = [ch '-', ch ' ', ch ' ', ch ' ', ch '3'] :=
    ⟨_, rfl, rfl⟩
  refine ⟨⟨io', hrun, hout⟩, ?_⟩
  intro h
  obtain ⟨n, io'', hrun', hout'⟩ := h
  have htext : NumberSpec.text ⟨false, [5], .none⟩ ++ [NumberConversion.d.letter] ++ [0#8] =
      [ch '5', ch 'd', 0#8] := rfl
  rw [htext, hrun] at hrun'
  cases hrun'
  rw [hout] at hout'
  revert hout'
  decide

def NumberConversion.base : NumberConversion → Nat
  | .d | .i | .u => 10
  | .x => 16

def digitValue (c : Byte) : Nat := hexDigits.idxOf c

def numeralValue (base : Nat) (text : List Byte) : Nat :=
  text.foldl (fun n c => n * base + digitValue c) 0

structure Canonical (base n : Nat) (text : List Byte) : Prop where
  digits : ∀ c ∈ text, c ∈ hexDigits.take base
  value : numeralValue base text = n
  nonempty : text ≠ []
  leading : text.head? = some (ch '0') → text = [ch '0']

theorem digitByte_spec {digit : Nat} (h : digit < 16) :
    digitValue (digitByte digit) = digit ∧ (digitByte digit = ch '0' ↔ digit = 0) := by
  interval_cases digit <;> decide

theorem digitByte_mem {base digit : Nat} (hbase : base ≤ 16) (h : digit < base) :
    digitByte digit ∈ hexDigits.take base := by
  have hlen : hexDigits.length = 16 := rfl
  have hlt : digit < (hexDigits.take base).length := by
    rw [List.length_take]
    omega
  rw [List.mem_iff_getElem]
  refine ⟨digit, hlt, ?_⟩
  rw [List.getElem_take, digitByte, List.getD_eq_getElem]

theorem foldl_digits {base : Nat} (hbase : base ≤ 16) (digits : List Nat)
    (h : ∀ digit ∈ digits, digit < base) :
    numeralValue base (digits.reverse.map digitByte) = Nat.ofDigits base digits := by
  induction digits with
  | nil => rfl
  | cons digit digits ih =>
    have hrest := ih fun d hd => h d (List.mem_cons_of_mem digit hd)
    have hdigit := (digitByte_spec (Nat.lt_of_lt_of_le (h digit (by simp)) hbase)).1
    rw [numeralValue] at hrest ⊢
    simp only [List.reverse_cons, List.map_append, List.foldl_append, hrest]
    simp [hdigit, Nat.ofDigits_cons]
    ring

theorem numeral_canonical {base : Nat} (hbase : 2 ≤ base) (hle : base ≤ 16) (n : Nat) :
    Canonical base n (numeral base n) := by
  unfold numeral
  split
  · rename_i hz
    subst hz
    have hzero : digitByte 0 = ch '0' := rfl
    have hvalue : digitValue (ch '0') = 0 := rfl
    refine ⟨?_, by simp [numeralValue, hvalue], by simp, by simp⟩
    intro c hc
    rw [List.mem_singleton.mp hc, ← hzero]
    exact digitByte_mem hle (by omega)
  · rename_i hn
    have hlt : ∀ digit ∈ Nat.digits base n, digit < base :=
      fun digit hd => Nat.digits_lt_base hbase hd
    have hne : Nat.digits base n ≠ [] := Nat.digits_ne_nil_iff_ne_zero.mpr hn
    refine ⟨?_, ?_, by simpa using hne, ?_⟩
    · intro c hc
      obtain ⟨digit, hd, rfl⟩ := List.mem_map.mp hc
      exact digitByte_mem hle (hlt digit (List.mem_reverse.mp hd))
    · rw [foldl_digits hle _ hlt, Nat.ofDigits_digits]
    · intro hhead
      have hlast := Nat.getLast_digit_ne_zero base hn
      rw [List.head?_map, List.head?_reverse, List.getLast?_eq_some_getLast hne] at hhead
      simp only [Option.map_some, Option.some.injEq] at hhead
      have hlt' := hlt _ (List.getLast_mem hne)
      exact absurd ((digitByte_spec (by omega)).2.mp hhead) hlast

theorem numberDigits_unsigned (length : LengthModifier) (arg : BitVec 64)
    (hconv : conversion = .u ∨ conversion = .x) :
    numberDigits length conversion arg =
        numeral conversion.base (arg.setWidth length.bits).toNat ∧
      numberSign length conversion arg = [] := by
  rcases hconv with rfl | rfl <;> exact ⟨rfl, rfl⟩

/-- An unsigned conversion pads the numeral of the value to the width and returns the length of
both. It does not end in an access outside the buffer: there are at most 32 digits. -/
theorem printf_unsigned_field (hio : io.Accepts)
    (hflag : spec.zero = false → spec.width.head? ≠ some 0) (hwidth : decimal spec.width ≤ 127)
    (hlength : 32 ≤ spec.length.bits) (hconv : conversion = .u ∨ conversion = .x)
    (arg : BitVec 64) (args : List (BitVec 64)) (fmt : List Byte) : ∃ text io',
      Canonical conversion.base (arg.setWidth spec.length.bits).toNat text ∧ text.length ≤ 32 ∧
      parseFormatStr strnlen mem emptySpecifier .flag
        (spec.text ++ [conversion.letter] ++ fmt) ⟨io, arg :: args⟩ =
          .ok ((max (decimal spec.width) text.length : Nat), fmt) ⟨io', args⟩ ∧
      io'.delivered = io.delivered ++
        (List.replicate (decimal spec.width - text.length)
          (if spec.zero then ch '0' else ch ' ') ++ text) := by
  obtain ⟨io', hrun, hout⟩ := @parse_number σ strnlen mem io spec conversion hio hflag hlength
    arg args fmt
  obtain ⟨hdigits, hsign⟩ := numberDigits_unsigned spec.length arg hconv
  have hbase : 10 ≤ conversion.base ∧ conversion.base ≤ 16 := by
    cases conversion <;> decide
  have hlt := (arg.setWidth spec.length.bits).isLt
  have hbits : spec.length.bits ≤ 64 := by
    cases spec.length <;> decide
  have hlen : (numeral conversion.base (arg.setWidth spec.length.bits).toNat).length ≤ 32 := by
    apply numeral_length_le_of_lt (by omega) (by decide)
    calc (arg.setWidth spec.length.bits).toNat < 2 ^ 64 :=
          Nat.lt_of_lt_of_le hlt (Nat.pow_le_pow_right (by decide) hbits)
      _ ≤ 10 ^ 32 := by decide
      _ ≤ conversion.base ^ 32 := Nat.pow_le_pow_left hbase.1 32
  have hmissing := (missing_eq_iff (decimal spec.width)
    (numeral conversion.base (arg.setWidth spec.length.bits).toNat).length).mpr (Or.inl hwidth)
  refine ⟨_, io', numeral_canonical (by omega) hbase.2 _, hlen, ?_, ?_⟩
  · rw [hrun, Directive.output, printedField_length, hsign, hdigits, List.length_nil,
      Nat.zero_add, hmissing, Nat.sub_add_eq_max]
  · rw [hout, Directive.output, printedField, hsign, hdigits, List.length_nil, Nat.zero_add,
      hmissing, List.nil_append]

theorem printf_unsigned_field_example : ∃ text io',
    Canonical 16 255 text ∧
    parseFormatStr Ukulele.strnlen oneByteString.mem emptySpecifier .flag
      [ch '0', ch '4', ch 'x', 0#8] ⟨collector, [0xff#64]⟩ =
        .ok ((max 4 text.length : Nat), [0#8]) ⟨io', []⟩ := by
  obtain ⟨text, io', htext, -, hrun, -⟩ := @printf_unsigned_field _ Ukulele.strnlen
    oneByteString.mem collector ⟨true, [4], .none⟩ .x collector_accepts (by simp) (by decide)
    (by decide) (Or.inr rfl) 0xff#64 [] [0#8]
  exact ⟨text, io', htext, hrun⟩

end Ukulele
