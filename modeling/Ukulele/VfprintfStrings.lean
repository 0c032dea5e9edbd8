import Ukulele.VfprintfRuns

/-! One conversion of a string anywhere in a format: which bytes the writer is asked to take. -/

set_option autoImplicit false

namespace Ukulele
open ByteRange Faults

variable {σ : Type} {strnlen : ByteMemory → Uintptr → Size → Size} {mem : ByteMemory}
  {io : Stdio σ}

def Stdio.asked (io : Stdio σ) : List Byte := io.calls.flatMap fun call => call.1

theorem grows_asked : Grows (Stdio.asked : Stdio σ → List Byte) := by
  intro io h buffer count
  obtain ⟨io', hrun, h', hcalls⟩ := fwrite_calls h buffer count
  refine ⟨io', hrun, h', ?_⟩
  rw [Stdio.asked, hcalls, List.flatMap_append, ← Stdio.asked]
  by_cases hz : count = 0#64 <;> simp [hz]

def stringSpecifier (width : List (Fin 10)) (precision : Option (List (Fin 10))) : FmtSpecifier :=
  ⟨BitVec.ofNat 32 (decimal (precision.getD [])), BitVec.ofNat 8 (decimal width), 0#8, false,
    precision.isSome⟩

theorem calls_string {width : List (Fin 10)} (h : width.head? ≠ some 0)
    (precision : Option (List (Fin 10))) :
    Calls strnlen mem (decimalText width ++ (precisionText precision ++ [ch 's']))
      (printString strnlen mem (stringSpecifier width precision) : PrintM σ Int) := by
  have hcalls : Calls strnlen mem (specText false width precision .none ++ [ch 's'])
      (printString strnlen mem (stringSpecifier width precision) : PrintM σ Int) :=
    calls_spec (fun _ => h) precision .none rfl
  simpa [specText, LengthModifier.text] using hcalls

def stringCount (mem : ByteMemory) (precision : Option (List (Fin 10))) (str : Uintptr) : Nat :=
  match precision with
  | none => stringLength mem str
  | some precision => min (stringLength mem str) (decimal precision)

def stringField (mem : ByteMemory) (width : List (Fin 10)) (precision : Option (List (Fin 10)))
    (str : Uintptr) : List Byte :=
  List.replicate (decimal width - stringCount mem precision str) (ch ' ') ++
    stringBytes mem str (stringCount mem precision str)

theorem before_eq_min {n : Nat} (hn : n ≤ 2 ^ 64) (str : Uintptr) :
    before isNul mem n str = min (stringLength mem str) n := by
  unfold stringLength
  by_cases h : before isNul mem (2 ^ 64) str < 2 ^ 64
  · rw [before_eq (fun i hi => not_of_lt_before hi) (of_before_lt h), Nat.min_comm]
  · have hle := before_le (p := isNul) (m := mem) (2 ^ 64) str
    have hall := before_eq_bound_iff.mp (by omega : before isNul mem (2 ^ 64) str = 2 ^ 64)
    rw [before_eq_bound_iff.mpr fun i hi => hall i (by omega)]
    omega

/-- What the writer is asked to take for a string: `chars` are counted, and `last` is the length
that is left for the string itself. -/
theorem sends_printString {afmt : FmtSpecifier} {max chars : Nat} {str : Uintptr} {last : Int}
    (hmax : (if afmt.hasPrecision then afmt.precision else intMax).signExtend 64 =
      BitVec.ofNat 64 max) (hle : max < 2 ^ 31) (hchars : before isNul mem max str = chars)
    (hlast : (if afmt.hasPrecision ∧
        (afmt.precision - BitVec.ofNat 32 (fieldColumns afmt.width - chars)).toInt < chars then
          (afmt.precision - BitVec.ofNat 32 (fieldColumns afmt.width - chars)).toInt
        else chars) = last) (hmin : -2 ^ 31 ≤ last) (hlt : last < 2 ^ 31)
    (args : List (BitVec 64)) :
    Sends Stdio.asked (printString Ukulele.strnlen mem afmt : PrintM σ Int) (str :: args) args
      (List.replicate (fieldColumns afmt.width - chars) (ch ' ') ++
        stringBytes mem str (BitVec.ofInt 64 last).toNat)
      ((fieldColumns afmt.width - chars : Nat) + last) := by
  have hint : ((Ukulele.strnlen mem str (BitVec.ofNat 64 max)).setWidth 32).toInt = chars := by
    have hnat : (BitVec.ofNat 64 max).toNat = max := by
      rw [BitVec.toNat_ofNat, Nat.mod_eq_of_lt (by omega)]
    have hcount := toNat_strnlen mem str (BitVec.ofNat 64 max)
    rw [hnat, hchars] at hcount
    have hbound := before_le (p := isNul) (m := mem) max str
    rw [toInt_setWidth_of_le hle (by omega), hcount]
  have hbytes : Sends Stdio.asked (fwriteE (fun i => mem (str + BitVec.ofNat 64 i)) last :
      PrintM σ Int) args args _ last := sends_fwriteE grows_asked _ hmin hlt
  unfold printString
  apply ((sends_vaArg str args).bind _).congr (List.nil_append _) rfl
  simp only [hmax, hint]
  by_cases hw : 0 < afmt.width.toInt
  · have hwidth := afmt.width.toInt_lt
    have hfuel : fieldColumns afmt.width - chars ≤ 255 := by
      unfold fieldColumns
      omega
    rw [if_pos hw]
    apply ((sends_padString grows_asked chars 255 afmt.width afmt.precision 0 hfuel).bind _).congr
      rfl rfl
    simp only [hlast]
    exact (hbytes.add _).congr rfl (by simp)
  · have hn : fieldColumns afmt.width = 0 := by
      unfold fieldColumns
      omega
    simp only [hn, Nat.zero_sub, BitVec.sub_zero] at hlast ⊢
    rw [if_neg hw]
    apply ((sends_pure (0, afmt.precision)).bind _).congr rfl rfl
    simp only [hlast]
    exact (hbytes.add _).congr rfl (by simp)

def precisionBound : Option (List (Fin 10)) → Nat
  | none => intMax.toNat
  | some precision => decimal precision

def countedChars (mem : ByteMemory) (precision : Option (List (Fin 10))) (str : Uintptr) : Nat :=
  min (stringLength mem str) (precisionBound precision)

def lastLength (width : List (Fin 10)) (precision : Option (List (Fin 10))) (chars : Nat) : Int :=
  match precision with
  | none => chars
  | some precision => min ((decimal precision : Int) - (decimal width - chars : Nat)) chars

theorem toInt_precision_sub {precision k : Nat} (hp : precision < 2 ^ 31) (hk : k ≤ 127) :
    (BitVec.ofNat 32 precision - BitVec.ofNat 32 k).toInt = (precision : Int) - k := by
  rw [BitVec.toInt_eq_toNat_cond, BitVec.toNat_sub, BitVec.toNat_ofNat, BitVec.toNat_ofNat]
  split <;> omega

theorem lastLength_eq {width : List (Fin 10)} {precision : Option (List (Fin 10))} {chars : Nat}
    (hwidth : decimal width ≤ 127) (hprecision : precisionBound precision < 2 ^ 31) :
    (if (stringSpecifier width precision).hasPrecision ∧
        ((stringSpecifier width precision).precision -
          BitVec.ofNat 32 (decimal width - chars)).toInt < chars then
      ((stringSpecifier width precision).precision -
        BitVec.ofNat 32 (decimal width - chars)).toInt
      else chars) = lastLength width precision chars := by
  cases precision with
  | none => simp [stringSpecifier, lastLength]
  | some precision =>
    have hlt : decimal precision < 2 ^ 31 := hprecision
    simp only [stringSpecifier, Option.getD_some, Option.isSome_some, true_and, lastLength]
    rw [toInt_precision_sub hlt (by omega)]
    split <;> omega

theorem lastLength_bounds {width : List (Fin 10)} {precision : Option (List (Fin 10))}
    {chars : Nat} (hwidth : decimal width ≤ 127) (hchars : chars < 2 ^ 31) :
    -127 ≤ lastLength width precision chars ∧ lastLength width precision chars ≤ chars := by
  unfold lastLength
  cases precision <;> simp only <;> omega

theorem sends_string {width : List (Fin 10)} {precision : Option (List (Fin 10))}
    (hwidth : decimal width ≤ 127) (hprecision : precisionBound precision < 2 ^ 31)
    (str : Uintptr) (args : List (BitVec 64)) : ∃ n,
    Sends Stdio.asked (printString Ukulele.strnlen mem (stringSpecifier width precision) :
        PrintM σ Int) (str :: args) args
      (List.replicate (decimal width - countedChars mem precision str) (ch ' ') ++
        stringBytes mem str (BitVec.ofInt 64
          (lastLength width precision (countedChars mem precision str))).toNat) n := by
  have hcolumns : fieldColumns (stringSpecifier width precision).width = decimal width := by
    rw [stringSpecifier, fieldColumns_ofNat, if_pos] <;> omega
  have hmax : (if (stringSpecifier width precision).hasPrecision then
      (stringSpecifier width precision).precision else intMax).signExtend 64 =
        BitVec.ofNat 64 (precisionBound precision) := by
    cases precision with
    | none => rfl
    | some precision => exact signExtend_ofNat hprecision
  have hchars : before isNul mem (precisionBound precision) str = countedChars mem precision str :=
    before_eq_min (by omega) str
  have hlt : countedChars mem precision str < 2 ^ 31 :=
    Nat.lt_of_le_of_lt (Nat.min_le_right _ _) hprecision
  have hlast := @lastLength_eq width precision (countedChars mem precision str) hwidth hprecision
  have hbounds := @lastLength_bounds width precision (countedChars mem precision str) hwidth hlt
  rw [← hcolumns] at hlast ⊢
  exact ⟨_, sends_printString hmax hprecision hchars hlast (by omega) (by omega) args⟩

/-- The conversion asks for the padding and the bytes of the string, and for nothing else. -/
def EmitsString (mem : ByteMemory) (io : Stdio σ) (width : List (Fin 10))
    (precision : Option (List (Fin 10))) (str : Uintptr) (args : List (BitVec 64))
    (fmt : List Byte) : Prop :=
  ∃ n io', parseFormatStr Ukulele.strnlen mem emptySpecifier .flag
      (decimalText width ++ (precisionText precision ++ [ch 's']) ++ fmt) ⟨io, str :: args⟩ =
        .ok (n, fmt) ⟨io', args⟩ ∧
    io'.asked = io.asked ++ stringField mem width precision str

def StringFits (mem : ByteMemory) (width : List (Fin 10)) (precision : Option (List (Fin 10)))
    (str : Uintptr) : Prop :=
  match precision with
  | none => stringLength mem str ≤ intMax.toNat
  | some precision => decimal width ≤ decimal precision

theorem toNat_lastLength {width : List (Fin 10)} {precision : Option (List (Fin 10))}
    {chars : Nat} (hchars : chars < 2 ^ 31) (hwidth : decimal width ≤ 127) :
    (BitVec.ofInt 64 (lastLength width precision chars)).toNat = chars ↔
      lastLength width precision chars = chars := by
  have hbounds := @lastLength_bounds width precision chars hwidth hchars
  rw [BitVec.toNat_ofInt]
  omega

theorem stringOutput_eq_iff {width : List (Fin 10)} {precision : Option (List (Fin 10))}
    (hwidth : decimal width ≤ 127) (hprecision : precisionBound precision < 2 ^ 31)
    (str : Uintptr) :
    List.replicate (decimal width - countedChars mem precision str) (ch ' ') ++
        stringBytes mem str (BitVec.ofInt 64
          (lastLength width precision (countedChars mem precision str))).toNat =
      stringField mem width precision str ↔ StringFits mem width precision str := by
  have hlt : countedChars mem precision str < 2 ^ 31 :=
    Nat.lt_of_le_of_lt (Nat.min_le_right _ _) hprecision
  have hlast := @toNat_lastLength width precision _ hlt hwidth
  constructor
  · intro h
    have hlen := congrArg List.length h
    simp only [stringField, List.length_append, List.length_replicate, stringBytes_length] at hlen
    cases precision with
    | none =>
      have hmax : intMax.toNat = 2147483647 := by decide
      have hchars := hlast.mpr rfl
      simp only [countedChars, stringCount, precisionBound, StringFits] at hchars hlen ⊢
      omega
    | some precision =>
      have hchars := hlast.mp (by simpa [countedChars, stringCount, precisionBound] using hlen)
      simp only [lastLength, StringFits] at hchars ⊢
      omega
  · intro h
    have hcount : countedChars mem precision str = stringCount mem precision str := by
      cases precision with
      | none => exact Nat.min_eq_left h
      | some precision => rfl
    have hchars : lastLength width precision (countedChars mem precision str) =
        countedChars mem precision str := by
      cases precision with
      | none => rfl
      | some precision =>
        simp only [StringFits, lastLength, countedChars, precisionBound] at h ⊢
        omega
    rw [hlast.mpr hchars, hcount, stringField]

theorem precisionBound_lt {precision : Option (List (Fin 10))}
    (h : ∀ p ∈ precision, decimal p < 2 ^ 31) : precisionBound precision < 2 ^ 31 := by
  cases precision with
  | none => decide
  | some p => exact h p rfl

theorem emitsString_iff (hio : io.Accepts) {width : List (Fin 10)}
    (hflag : width.head? ≠ some 0) (hwidth : decimal width ≤ 127)
    {precision : Option (List (Fin 10))} (hprecision : precisionBound precision < 2 ^ 31)
    (str : Uintptr) (args : List (BitVec 64)) (fmt : List Byte) :
    EmitsString mem io width precision str args fmt ↔
      List.replicate (decimal width - countedChars mem precision str) (ch ' ') ++
        stringBytes mem str (BitVec.ofInt 64
          (lastLength width precision (countedChars mem precision str))).toNat =
      stringField mem width precision str := by
  obtain ⟨n, hsends⟩ := @sends_string σ mem width precision hwidth hprecision str args
  obtain ⟨io', hrun, -, hout⟩ := hsends io hio
  have hparse : parseFormatStr Ukulele.strnlen mem emptySpecifier .flag
      (decimalText width ++ (precisionText precision ++ [ch 's']) ++ fmt) ⟨io, str :: args⟩ =
        .ok (n, fmt) ⟨io', args⟩ := by
    rw [calls_string hflag precision, bind_ok hrun]
    rfl
  constructor
  · intro h
    obtain ⟨n', io'', hrun', hout'⟩ := h
    rw [hparse] at hrun'
    cases hrun'
    rw [hout] at hout'
    exact List.append_cancel_left hout'
  · intro h
    exact ⟨n, io', hparse, by rw [hout, h]⟩

/-- A string is printed with its padding and precision as C describes it exactly if the precision
is not below the width, or there is none and the length of the string is an `int`. -/
theorem printf_string_field (hio : io.Accepts) {width : List (Fin 10)}
    (hflag : width.head? ≠ some 0) (hwidth : decimal width ≤ 127)
    {precision : Option (List (Fin 10))} (hprecision : ∀ p ∈ precision, decimal p < 2 ^ 31)
    (str : Uintptr) (args : List (BitVec 64)) (fmt : List Byte) :
    EmitsString mem io width precision str args fmt ↔ StringFits mem width precision str := by
  have hbound := precisionBound_lt hprecision
  rw [emitsString_iff hio hflag hwidth hbound, stringOutput_eq_iff hwidth hbound]

theorem printf_string_field_example :
    EmitsString oneByteString.mem collector [3] (some [3]) 0x1000#64 [] [0#8] :=
  (printf_string_field collector_accepts (by decide) (by decide) (by simp; decide) _ _ _).mpr
    (by decide : (3 : Nat) ≤ 3)

/-- `%3.1s` of a string of one byte asks for two spaces and, with the length below zero, for
almost 2^64 bytes. -/
theorem printf_string_length_below_zero :
    lastLength [3] (some [1]) (countedChars oneByteString.mem (some [1]) 0x1000#64) = -1 ∧
      ¬ EmitsString oneByteString.mem collector [3] (some [1]) 0x1000#64 [] [0#8] := by
  refine ⟨by decide, ?_⟩
  rw [emitsString_iff collector_accepts (by decide) (by decide) (by decide),
    stringOutput_eq_iff (by decide) (by decide)]
  exact (by decide : ¬ (3 : Nat) ≤ 1)

end Ukulele
