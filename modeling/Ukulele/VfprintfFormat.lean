import Ukulele.VfprintfPrinters

/-! Reading a format: the specifications, each with the routine that it calls. -/

set_option autoImplicit false

namespace Ukulele
open Faults

variable {σ : Type} {strnlen : ByteMemory → Uintptr → Size → Size} {mem : ByteMemory}
  {afmt : FmtSpecifier} {state : ParseState}

def conversions : List Byte :=
  [ch 'd', ch 'i', ch 'u', ch 'x', ch 'c', ch 's', ch 'p', ch '%', ch 'f', ch 'e', ch 'g', ch 'a']

/-- What the loop of `parse_format_str` comes to: the conversion that is called, with the specifier
as it is then and the rest of the format, or none. -/
inductive Scan where
  | call : FmtSpecifier → Byte → List Byte → Scan
  | malformed : Scan
  | pastEnd : Scan
  deriving DecidableEq, Repr

def scan (afmt : FmtSpecifier) (state : ParseState) : List Byte → Scan
  | [] => .pastEnd
  | c :: fmt =>
    if c ∈ conversions then .call afmt c fmt
    else
      match modify afmt state c with
      | some (afmt, state) => scan afmt state fmt
      | none => .malformed

def Scan.run (strnlen : ByteMemory → Uintptr → Size → Size) (mem : ByteMemory) :
    Scan → PrintM σ (Int × List Byte)
  | .call afmt c fmt =>
    match convert strnlen mem afmt c with
    | some print => do
      let n ← print
      return (n, fmt)
    | none => throw (.error 2)
  | .malformed => throw (.error 2)
  | .pastEnd => throw .pastEnd

theorem convert_none {c : Byte} (h : c ∉ conversions) :
    (convert strnlen mem afmt c : Option (PrintM σ Int)) = none := by
  simp only [conversions, List.mem_cons, List.not_mem_nil, or_false, not_or] at h
  simp [convert, h]

theorem convert_isSome {c : Byte} (h : c ∈ conversions) :
    ∃ print : PrintM σ Int, convert strnlen mem afmt c = some print := by
  simp only [conversions, List.mem_cons, List.not_mem_nil, or_false] at h
  rcases h with rfl | rfl | rfl | rfl | rfl | rfl | rfl | rfl | rfl | rfl | rfl | rfl <;>
    exact ⟨_, rfl⟩

theorem parseFormatStr_eq (afmt : FmtSpecifier) (state : ParseState) (fmt : List Byte) :
    (parseFormatStr strnlen mem afmt state fmt : PrintM σ _) =
      (scan afmt state fmt).run strnlen mem := by
  induction fmt generalizing afmt state with
  | nil => rfl
  | cons c fmt ih =>
    unfold parseFormatStr scan
    by_cases hc : c ∈ conversions
    · obtain ⟨print, hprint⟩ := @convert_isSome σ strnlen mem afmt c hc
      simp only [hprint, if_pos hc, Scan.run]
    · rw [convert_none hc, if_neg hc]
      cases hm : modify afmt state c with
      | none => rfl
      | some r => exact ih r.1 r.2

theorem scan_call_mem {fmt rest : List Byte} {c : Byte} {afmt' : FmtSpecifier}
    (h : scan afmt state fmt = .call afmt' c rest) : c ∈ conversions := by
  induction fmt generalizing afmt state with
  | nil => cases h
  | cons d fmt ih =>
    unfold scan at h
    split at h
    · cases h
      assumption
    · split at h
      · exact ih h
      · cases h

theorem parse_call {fmt rest : List Byte} {c : Byte} {afmt' : FmtSpecifier}
    (h : scan afmt state fmt = .call afmt' c rest) : ∃ print : PrintM σ Int,
      convert strnlen mem afmt' c = some print ∧
      parseFormatStr strnlen mem afmt state fmt = (do
        let n ← print
        return (n, rest)) := by
  obtain ⟨print, hprint⟩ := @convert_isSome σ strnlen mem afmt' c (scan_call_mem h)
  refine ⟨print, hprint, ?_⟩
  rw [parseFormatStr_eq, h]
  simp only [Scan.run, hprint]

theorem parse_malformed {fmt : List Byte} (h : scan afmt state fmt = .malformed) :
    (parseFormatStr strnlen mem afmt state fmt : PrintM σ _) = throw (.error 2) := by
  rw [parseFormatStr_eq, h]
  rfl

theorem parse_pastEnd {fmt : List Byte} (h : scan afmt state fmt = .pastEnd) :
    (parseFormatStr strnlen mem afmt state fmt : PrintM σ _) = throw .pastEnd := by
  rw [parseFormatStr_eq, h]
  rfl

theorem scan_modify {c : Byte} {afmt' : FmtSpecifier} {state' : ParseState}
    (hc : c ∉ conversions) (h : modify afmt state c = some (afmt', state')) (fmt : List Byte) :
    scan afmt state (c :: fmt) = scan afmt' state' fmt := by
  rw [scan, if_neg hc, h]

theorem scan_digit (digit : Fin 10) (fmt : List Byte) :
    scan afmt state ((ch '0' + BitVec.ofNat 8 digit.val) :: fmt) =
      scan (takeDigit afmt state (ch '0' + BitVec.ofNat 8 digit.val)).1
        (takeDigit afmt state (ch '0' + BitVec.ofNat 8 digit.val)).2 fmt := by
  apply scan_modify
  · fin_cases digit <;> decide
  · fin_cases digit <;> rfl

theorem scan_width_digits (afmt : FmtSpecifier) (digits : List (Fin 10)) (n : Nat)
    (fmt : List Byte) :
    scan { afmt with width := BitVec.ofNat 8 n } .width (decimalText digits ++ fmt) =
      scan { afmt with width := BitVec.ofNat 8 (decimalFrom n digits) } .width fmt := by
  induction digits generalizing n with
  | nil => rfl
  | cons digit digits ih =>
    rw [decimalFrom, List.foldl_cons, ← decimalFrom, ← ih]
    simp only [decimalText, List.map_cons, List.cons_append]
    rw [scan_digit]
    simp only [takeDigit]
    congr 2
    rw [BitVec.ofNat_add, BitVec.ofNat_mul, BitVec.add_comm (ch '0'), BitVec.add_sub_cancel]

theorem scan_precision_digits (afmt : FmtSpecifier) (digits : List (Fin 10)) (n : Nat)
    (fmt : List Byte) :
    scan { afmt with precision := BitVec.ofNat 32 n } .precision (decimalText digits ++ fmt) =
      scan { afmt with precision := BitVec.ofNat 32 (decimalFrom n digits) } .precision fmt := by
  induction digits generalizing n with
  | nil => rfl
  | cons digit digits ih =>
    rw [decimalFrom, List.foldl_cons, ← decimalFrom, ← ih]
    simp only [decimalText, List.map_cons, List.cons_append]
    rw [scan_digit]
    simp only [takeDigit]
    congr 2
    rw [BitVec.ofNat_add, BitVec.ofNat_mul, BitVec.add_comm (ch '0'), BitVec.add_sub_cancel]
    congr 1
    apply BitVec.eq_of_toNat_eq
    simp
    omega

theorem scan_width {digits : List (Fin 10)} (h : digits.head? ≠ some 0) (fmt : List Byte) :
    ∃ state, scan emptySpecifier .flag (decimalText digits ++ fmt) =
      scan { emptySpecifier with width := BitVec.ofNat 8 (decimal digits) } state fmt := by
  cases digits with
  | nil => exact ⟨.flag, rfl⟩
  | cons digit digits =>
    refine ⟨.width, ?_⟩
    have hne : ch '0' + BitVec.ofNat 8 digit.val ≠ ch '0' := by
      rw [List.head?_cons, ne_eq, Option.some.injEq] at h
      fin_cases digit <;> first | contradiction | decide
    rw [decimal, decimalFrom, List.foldl_cons, ← decimalFrom, ← scan_width_digits]
    simp only [decimalText, List.map_cons, List.cons_append]
    rw [scan_digit]
    simp only [takeDigit, hne, if_false]
    congr 2
    rw [BitVec.ofNat_add, BitVec.ofNat_mul, BitVec.add_comm (ch '0'), BitVec.add_sub_cancel]
    rfl

theorem scan_flag_width {zero : Bool} {digits : List (Fin 10)}
    (h : zero = false → digits.head? ≠ some 0) (fmt : List Byte) :
    ∃ state, scan emptySpecifier .flag
        ((if zero then [ch '0'] else []) ++ (decimalText digits ++ fmt)) =
      scan ⟨0#32, BitVec.ofNat 8 (decimal digits), 0#8, zero, false⟩ state fmt := by
  cases zero with
  | true =>
    refine ⟨.width, ?_⟩
    simp only [if_true, List.cons_append, List.nil_append]
    rw [scan_modify (by decide) rfl]
    exact scan_width_digits { emptySpecifier with zeroPad := true } digits 0 fmt
  | false =>
    obtain ⟨state, hstate⟩ := scan_width (h rfl) fmt
    exact ⟨state, hstate⟩

def precisionText : Option (List (Fin 10)) → List Byte
  | none => []
  | some precision => ch '.' :: decimalText precision

theorem scan_precision (afmt : FmtSpecifier) (state : ParseState)
    (precision : Option (List (Fin 10))) (hprecision : afmt.precision = 0#32)
    (hhas : afmt.hasPrecision = false) (fmt : List Byte) :
    ∃ state', scan afmt state (precisionText precision ++ fmt) =
      scan { afmt with
        precision := BitVec.ofNat 32 (decimal (precision.getD []))
        hasPrecision := precision.isSome } state' fmt := by
  cases precision with
  | none =>
    refine ⟨state, ?_⟩
    simp [precisionText, decimal, decimalFrom, ← hprecision, ← hhas]
  | some precision =>
    refine ⟨.precision, ?_⟩
    simp only [precisionText, List.cons_append]
    rw [scan_modify (by decide) rfl]
    apply Eq.trans _ (scan_precision_digits { afmt with hasPrecision := true } precision 0 fmt)
    simp [← hprecision]

theorem scan_length (length : LengthModifier) (hlength : afmt.length = 0#8) (fmt : List Byte) :
    scan afmt state (length.text ++ fmt) = scan { afmt with length := length.code } state fmt := by
  cases length with
  | none => simp [LengthModifier.text, LengthModifier.code, ← hlength]
  | hh | ll =>
    simp only [LengthModifier.text, List.cons_append, List.nil_append]
    rw [scan_modify (by decide) rfl, scan_modify (by decide) rfl]
    simp [LengthModifier.code, hlength]
  | h | l | z | j | t =>
    simp only [LengthModifier.text, List.cons_append, List.nil_append]
    rw [scan_modify (by decide) rfl]
    simp [LengthModifier.code, hlength]

/-- What stands between the percent sign and the conversion. -/
def specText (zero : Bool) (width : List (Fin 10)) (precision : Option (List (Fin 10)))
    (length : LengthModifier) : List Byte :=
  (if zero then [ch '0'] else []) ++ (decimalText width ++ (precisionText precision ++ length.text))

/-- The numbers in their fields, as many bits of them as fit. -/
def specifier (zero : Bool) (width : List (Fin 10)) (precision : Option (List (Fin 10)))
    (length : LengthModifier) : FmtSpecifier :=
  ⟨BitVec.ofNat 32 (decimal (precision.getD [])), BitVec.ofNat 8 (decimal width), length.code, zero,
    precision.isSome⟩

theorem scan_spec {zero : Bool} {width : List (Fin 10)}
    (h : zero = false → width.head? ≠ some 0) (precision : Option (List (Fin 10)))
    (length : LengthModifier) {c : Byte} (hc : c ∈ conversions) (fmt : List Byte) :
    scan emptySpecifier .flag (specText zero width precision length ++ c :: fmt) =
      .call (specifier zero width precision length) c fmt := by
  obtain ⟨state, hwidth⟩ := scan_flag_width h (precisionText precision ++ (length.text ++ c :: fmt))
  obtain ⟨state', hprecision⟩ := scan_precision ⟨0#32, BitVec.ofNat 8 (decimal width), 0#8, zero, false⟩
    state precision rfl rfl (length.text ++ c :: fmt)
  unfold specText
  rw [List.append_assoc, List.append_assoc, List.append_assoc, hwidth, hprecision,
    scan_length length rfl, scan, if_pos hc]
  rfl

def Calls (strnlen : ByteMemory → Uintptr → Size → Size) (mem : ByteMemory) (body : List Byte)
    (print : PrintM σ Int) : Prop :=
  ∀ fmt, parseFormatStr strnlen mem emptySpecifier .flag (body ++ fmt) = (do
    let n ← print
    return (n, fmt))

theorem calls_of_scan {body : List Byte} {c : Byte} {print : PrintM σ Int}
    (hscan : ∀ fmt, scan emptySpecifier .flag (body ++ fmt) = .call afmt c fmt)
    (hprint : convert strnlen mem afmt c = some print) : Calls strnlen mem body print := by
  intro fmt
  obtain ⟨print', hprint', hparse⟩ := @parse_call σ strnlen mem _ _ _ _ _ _ (hscan fmt)
  rw [hprint] at hprint'
  cases hprint'
  exact hparse

theorem calls_spec {zero : Bool} {width : List (Fin 10)}
    (h : zero = false → width.head? ≠ some 0) (precision : Option (List (Fin 10)))
    (length : LengthModifier) {c : Byte} {print : PrintM σ Int}
    (hprint : convert strnlen mem (specifier zero width precision length) c = some print) :
    Calls strnlen mem (specText zero width precision length ++ [c]) print := by
  have hc : c ∈ conversions := by
    by_contra hc
    rw [convert_none hc] at hprint
    contradiction
  apply calls_of_scan _ hprint
  intro fmt
  rw [List.append_assoc]
  exact scan_spec h precision length hc fmt

theorem calls_percent : Calls strnlen mem [ch '%'] (fputcE (ch '%').toInt : PrintM σ Int) :=
  calls_of_scan (fun _ => rfl) rfl

theorem calls_width {width : List (Fin 10)} (h : width.head? ≠ some 0) {c : Byte}
    {print : PrintM σ Int} (hprint : convert strnlen mem
      { emptySpecifier with width := BitVec.ofNat 8 (decimal width) } c = some print) :
    Calls strnlen mem (decimalText width ++ [c]) print := by
  have hcalls : Calls strnlen mem (specText false width none .none ++ [c]) print :=
    calls_spec (fun _ => h) none .none hprint
  simpa [specText, precisionText, LengthModifier.text] using hcalls

theorem calls_stringPrecision (precision : List (Fin 10)) :
    Calls strnlen mem (ch '.' :: (decimalText precision ++ [ch 's'])) (printString strnlen mem
      { emptySpecifier with
        precision := BitVec.ofNat 32 (decimal precision), hasPrecision := true } :
          PrintM σ Int) := by
  have hcalls : Calls strnlen mem (specText false [] (some precision) .none ++ [ch 's'])
      (printString strnlen mem { emptySpecifier with
        precision := BitVec.ofNat 32 (decimal precision), hasPrecision := true } :
          PrintM σ Int) :=
    calls_spec (by simp) _ _ rfl
  simpa [specText, precisionText, decimalText, LengthModifier.text] using hcalls

def printNumber (conversion : NumberConversion) (afmt : FmtSpecifier) : PrintM σ Int :=
  match conversion with
  | .d | .i => printSigned afmt
  | .u => printUnsigned afmt
  | .x => printHex afmt

theorem convert_number (conversion : NumberConversion) :
    (convert strnlen mem afmt conversion.letter : Option (PrintM σ Int)) =
      some (printNumber conversion afmt) := by
  cases conversion <;> rfl

/-- What holds of the printers holds of every conversion. -/
theorem convert_elim {P : Byte → PrintM σ Int → Prop}
    (hnumber : ∀ conversion : NumberConversion, P conversion.letter (printNumber conversion afmt))
    (hchar : P (ch 'c') printChar) (hstring : P (ch 's') (printString strnlen mem afmt))
    (hpointer : P (ch 'p')
      (printNumber .x { afmt with width := 16#8, length := 2#8, zeroPad := true }))
    (hpercent : P (ch '%') (fputcE (ch '%').toInt)) (hfloat : ∀ c, P c (fputcE (ch '?').toInt))
    {c : Byte} {print : PrintM σ Int} (h : convert strnlen mem afmt c = some print) :
    P c print := by
  have hc : c ∈ conversions := by
    by_contra hc
    rw [convert_none hc] at h
    cases h
  simp only [conversions, List.mem_cons, List.not_mem_nil, or_false] at hc
  rcases hc with rfl | rfl | rfl | rfl | rfl | rfl | rfl | rfl | rfl | rfl | rfl | rfl <;> cases h
  · exact hnumber .d
  · exact hnumber .i
  · exact hnumber .u
  · exact hnumber .x
  · exact hchar
  · exact hstring
  · exact hpointer
  · exact hpercent
  · exact hfloat _
  · exact hfloat _
  · exact hfloat _
  · exact hfloat _

theorem calls_number {spec : NumberSpec} (h : spec.zero = false → spec.width.head? ≠ some 0)
    (conversion : NumberConversion) :
    Calls strnlen mem (spec.text ++ [conversion.letter]) (printNumber conversion
      ⟨0#32, BitVec.ofNat 8 (decimal spec.width), spec.length.code, spec.zero, false⟩ :
        PrintM σ Int) :=
  calls_spec h none spec.length (convert_number conversion)

/-- The length that the modifiers leave is none that the routines for numbers know. -/
def RejectsLength (afmt : FmtSpecifier) (c : Byte) : Prop :=
  (c = ch 'd' ∨ c = ch 'i' ∨ c = ch 'u' ∨ c = ch 'x') ∧
    ¬ (-2 ≤ afmt.length.toInt ∧ afmt.length.toInt ≤ 2)

section Calls

variable {c : Byte} {fmt rest : List Byte}

theorem length_known {conversion : NumberConversion} (h : ¬ RejectsLength afmt conversion.letter) :
    -2 ≤ afmt.length.toInt ∧ afmt.length.toInt ≤ 2 := by
  by_contra hnot
  apply h
  refine ⟨?_, hnot⟩
  cases conversion <;> decide

theorem convert_rejects (h : RejectsLength afmt c) {print : PrintM σ Int}
    (hprint : convert strnlen mem afmt c = some print) (s : PrintState σ) :
    print s = .error (.error 2) s := by
  obtain ⟨hc, hlength⟩ := h
  have harg : ∀ extend, (wordArg extend afmt : PrintM σ _) = throw (.error 2) := by
    intro extend
    unfold wordArg
    dsimp only
    rw [if_neg (by omega), if_neg (by omega)]
  have hrun : ∀ extend, wordArg extend afmt s = .error (.error 2) s := by
    intro extend
    rw [harg]
    rfl
  rcases hc with rfl | rfl | rfl | rfl <;> cases hprint <;> exact bind_error (hrun _)

theorem parse_ok {s s' : PrintState σ} {n : Int}
    (h : parseFormatStr strnlen mem emptySpecifier .flag fmt s = .ok (n, rest) s') :
    ∃ afmt c print, scan emptySpecifier .flag fmt = .call afmt c rest ∧
      convert strnlen mem afmt c = some print ∧ print s = .ok n s' ∧ ¬ RejectsLength afmt c := by
  cases hscan : scan emptySpecifier .flag fmt with
  | call afmt c fmt' =>
    obtain ⟨print, hprint, hparse⟩ := @parse_call σ strnlen mem _ _ _ _ _ _ hscan
    rw [hparse] at h
    cases hrun : print s with
    | error e t =>
      rw [bind_error hrun] at h
      cases h
    | ok a t =>
      rw [bind_ok hrun] at h
      cases h
      refine ⟨afmt, c, print, rfl, hprint, hrun, ?_⟩
      intro hrejects
      rw [convert_rejects hrejects hprint] at hrun
      cases hrun
  | malformed =>
    rw [parse_malformed hscan] at h
    cases h
  | pastEnd =>
    rw [parse_pastEnd hscan] at h
    cases h

theorem fails_fputcE_eof : Fails (fputcE (0xff#8).toInt : PrintM σ Int) := by
  intro s
  have heof : (0xff#8).toInt = eof := rfl
  refine ⟨.error 1, { s with io := (fputc eof s.io).2 }, ?_⟩
  rw [heof]
  simp [fputcE, fputc]

end Calls

end Ukulele
