import Ukulele.VfprintfStrings

/-! One specification with all of its parts: the specifier that the routine of the conversion is
called with.
-/

set_option autoImplicit false

namespace Ukulele

variable {σ : Type} {strnlen : ByteMemory → Uintptr → Size → Size} {mem : ByteMemory}

inductive FieldConversion where
  | number : NumberConversion → FieldConversion
  | s : FieldConversion
  deriving DecidableEq, Repr

def FieldConversion.letter : FieldConversion → Byte
  | .number conversion => conversion.letter
  | .s => ch 's'

def FieldConversion.routine (strnlen : ByteMemory → Uintptr → Size → Size) (mem : ByteMemory)
    (conversion : FieldConversion) (afmt : FmtSpecifier) : PrintM σ Int :=
  match conversion with
  | .number conversion => printNumber conversion afmt
  | .s => printString strnlen mem afmt

/-- The flag, the digits of the width and of the precision, the modifier and the conversion. -/
structure FieldSpec where
  zero : Bool
  width : List (Fin 10)
  precision : Option (List (Fin 10))
  length : LengthModifier
  conversion : FieldConversion
  deriving DecidableEq, Repr

def FieldSpec.text (spec : FieldSpec) : List Byte :=
  specText spec.zero spec.width spec.precision spec.length ++ [spec.conversion.letter]

/-- A first zero is the flag, and both numbers are `int`s. -/
structure FieldSpec.WellFormed (spec : FieldSpec) : Prop where
  flag : spec.zero = false → spec.width.head? ≠ some 0
  width : decimal spec.width < 2 ^ 31
  precision : decimal (spec.precision.getD []) < 2 ^ 31

structure FieldSpec.ReadAs (spec : FieldSpec) (afmt : FmtSpecifier) : Prop where
  width : afmt.width.toInt = decimal spec.width
  precision : afmt.precision.toInt = decimal (spec.precision.getD [])
  hasPrecision : afmt.hasPrecision = spec.precision.isSome
  zeroPad : afmt.zeroPad = spec.zero
  length : afmt.length = spec.length.code

/-- Wherever the specification stands, its routine is called with a specifier that has been read
from it, and what is left of the format is what stands behind it. -/
def CallsRoutine (σ : Type) (strnlen : ByteMemory → Uintptr → Size → Size) (mem : ByteMemory)
    (spec : FieldSpec) : Prop :=
  ∀ fmt, ∃ afmt,
    scan emptySpecifier .flag (spec.text ++ fmt) = .call afmt spec.conversion.letter fmt ∧
    (parseFormatStr strnlen mem emptySpecifier .flag (spec.text ++ fmt) : PrintM σ _) = (do
      let n ← spec.conversion.routine strnlen mem afmt
      return (n, fmt)) ∧
    spec.ReadAs afmt

theorem convert_routine (conversion : FieldConversion) (afmt : FmtSpecifier) :
    (convert strnlen mem afmt conversion.letter : Option (PrintM σ Int)) =
      some (conversion.routine strnlen mem afmt) := by
  cases conversion with
  | number conversion => exact convert_number conversion
  | s => rfl

theorem FieldConversion.letter_mem (conversion : FieldConversion) :
    conversion.letter ∈ conversions := by
  cases conversion with
  | number conversion => cases conversion <;> decide
  | s => decide

theorem scan_fieldSpec {spec : FieldSpec} (h : spec.WellFormed) (fmt : List Byte) :
    scan emptySpecifier .flag (spec.text ++ fmt) =
      .call (specifier spec.zero spec.width spec.precision spec.length) spec.conversion.letter
        fmt := by
  rw [FieldSpec.text, List.append_assoc]
  exact scan_spec h.flag spec.precision spec.length spec.conversion.letter_mem fmt

theorem readAs_specifier {spec : FieldSpec} (h : spec.WellFormed) :
    spec.ReadAs (specifier spec.zero spec.width spec.precision spec.length) ↔
      decimal spec.width ≤ 127 := by
  have hprecision : (BitVec.ofNat 32 (decimal (spec.precision.getD []))).toInt =
      decimal (spec.precision.getD []) := by
    have hlt := h.precision
    rw [BitVec.toInt_eq_toNat_cond, BitVec.toNat_ofNat]
    split <;> omega
  constructor
  · intro hread
    have hwidth := hread.width
    have hlt := (BitVec.ofNat 8 (decimal spec.width)).toInt_lt
    simp only [specifier] at hwidth
    omega
  · intro hle
    have hwidth : (BitVec.ofNat 8 (decimal spec.width)).toInt = decimal spec.width := by
      rw [BitVec.toInt_eq_toNat_cond, BitVec.toNat_ofNat]
      split <;> omega
    exact ⟨hwidth, hprecision, rfl, rfl, rfl⟩

/-- A specification is read as it is written exactly if its width fits a `signed char`. -/
theorem printf_reads_spec {spec : FieldSpec} (h : spec.WellFormed) :
    CallsRoutine σ strnlen mem spec ↔ decimal spec.width ≤ 127 := by
  rw [← readAs_specifier h]
  constructor
  · intro hcalls
    obtain ⟨afmt, hscan, -, hread⟩ := hcalls []
    rw [scan_fieldSpec h] at hscan
    cases hscan
    exact hread
  · intro hread fmt
    refine ⟨_, scan_fieldSpec h fmt, ?_, hread⟩
    rw [parseFormatStr_eq, scan_fieldSpec h]
    simp only [Scan.run, convert_routine]

/-- `%020.12lx` -/
theorem printf_reads_spec_example : CallsRoutine (List Byte) Ukulele.strnlen oneByteString.mem
    ⟨true, [2, 0], some [1, 2], .l, .number .x⟩ :=
  (printf_reads_spec ⟨by decide, by decide, by decide⟩).mpr (by decide)

/-- The width of `%128d` is read as -128. -/
theorem printf_width_wraps :
    scan emptySpecifier .flag [ch '1', ch '2', ch '8', ch 'd', 0#8] =
      .call { emptySpecifier with width := -128#8 } (ch 'd') [0#8] ∧
    FieldSpec.WellFormed ⟨false, [1, 2, 8], none, .none, .number .d⟩ ∧
    ¬ CallsRoutine (List Byte) Ukulele.strnlen oneByteString.mem
      ⟨false, [1, 2, 8], none, .none, .number .d⟩ := by
  have hspec : FieldSpec.WellFormed ⟨false, [1, 2, 8], none, .none, .number .d⟩ :=
    ⟨by decide, by decide, by decide⟩
  refine ⟨by decide, hspec, ?_⟩
  intro hcalls
  obtain ⟨afmt, hscan, -, hread⟩ := hcalls []
  rw [scan_fieldSpec hspec] at hscan
  cases hscan
  exact absurd ((readAs_specifier hspec).mp hread) (by decide)

end Ukulele
