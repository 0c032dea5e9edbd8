import Ukulele.VfprintfDirectives

/-! Each printer delivers the output of its directive and returns its length. -/

set_option autoImplicit false

namespace Ukulele
open ByteRange

variable {σ : Type} {afmt : FmtSpecifier} {length : LengthModifier} {arg : BitVec 64}
  {args : List (BitVec 64)}

def LengthModifier.code : LengthModifier → BitVec 8
  | .none => 0#8
  | .hh => -2#8
  | .h => -1#8
  | .l | .z | .j | .t => 1#8
  | .ll => 2#8

theorem LengthModifier.code_short (h : length.bits ≤ 32) : length.code.toInt = -2 ∨
    length.code.toInt = -1 ∨ length.code.toInt = 0 := by
  cases length <;> simp [bits] at h <;> decide

theorem LengthModifier.code_long (h : ¬ length.bits ≤ 32) :
    ¬ (length.code.toInt = -2 ∨ length.code.toInt = -1 ∨ length.code.toInt = 0) ∧
      (length.code.toInt = 1 ∨ length.code.toInt = 2) := by
  cases length <;> simp [bits] at h <;> decide

theorem LengthModifier.bits_long (h : ¬ length.bits ≤ 32) : length.bits = 64 := by
  cases length <;> simp [bits] at h ⊢

theorem prints_wordArg (extend : BitVec 32 → BitVec 64) (hlength : afmt.length = length.code)
    (arg : BitVec 64) (args : List (BitVec 64)) :
    Prints (wordArg extend afmt : PrintM σ _) (arg :: args) args []
      (if length.bits ≤ 32 then extend (arg.setWidth 32) else arg) := by
  unfold wordArg
  rw [hlength]
  by_cases hshort : length.bits ≤ 32
  · rw [if_pos (LengthModifier.code_short hshort), if_pos hshort]
    exact (prints_vaArg arg args).bind (prints_pure _)
  · obtain ⟨hno, hlong⟩ := LengthModifier.code_long hshort
    rw [if_neg hno, if_pos hlong, if_neg hshort]
    exact prints_vaArg arg args

theorem prints_unsignedArg (hlength : afmt.length = length.code) (args : List (BitVec 64))
    (hprom : length.bits < 32 → (arg.setWidth 32).toNat = (arg.setWidth length.bits).toNat) :
    ∃ value : BitVec 64, value.toNat = (arg.setWidth length.bits).toNat ∧
      Prints (unsignedArg afmt : PrintM σ _) (arg :: args) args [] value := by
  refine ⟨_, ?_, prints_wordArg _ hlength arg args⟩
  by_cases hshort : length.bits ≤ 32
  · rw [if_pos hshort, BitVec.toNat_setWidth_of_le (by decide)]
    rcases Nat.lt_or_eq_of_le hshort with hlt | he
    · exact hprom hlt
    · rw [he]
  · rw [if_neg hshort, LengthModifier.bits_long hshort, BitVec.setWidth_eq]

theorem prints_signedArg (hlength : afmt.length = length.code) (args : List (BitVec 64))
    (hprom : length.bits < 32 → (arg.setWidth 32).toInt = (arg.setWidth length.bits).toInt) :
    ∃ value : BitVec 64, value.toInt = (arg.setWidth length.bits).toInt ∧
      Prints (signedArg afmt : PrintM σ _) (arg :: args) args [] value := by
  refine ⟨_, ?_, prints_wordArg _ hlength arg args⟩
  by_cases hshort : length.bits ≤ 32
  · rw [if_pos hshort, BitVec.toInt_signExtend_of_le (by decide)]
    rcases Nat.lt_or_eq_of_le hshort with hlt | he
    · exact hprom hlt
    · rw [he]
  · rw [if_neg hshort, LengthModifier.bits_long hshort, BitVec.setWidth_eq]

theorem padChar_ne (afmt : FmtSpecifier) : padChar afmt ≠ 0xff#8 := by
  unfold padChar
  split <;> decide

theorem padChar_eq (afmt : FmtSpecifier) :
    padChar afmt = if afmt.zeroPad then ch '0' else ch ' ' := rfl

theorem prints_unsignedNumber {count : BitVec 64 → Nat} {print : BitVec 64 → PrintM σ Int}
    {base : Nat} (hcount : ∀ value, count value = (numeral base value.toNat).length)
    (hprint : ∀ value args, Prints (print value) args args (numeral base value.toNat)
      (numeral base value.toNat).length)
    {width : Nat} (hwidth : afmt.width = BitVec.ofNat 8 width) (hlength : afmt.length = length.code)
    (hprom : length.bits < 32 → (arg.setWidth 32).toNat = (arg.setWidth length.bits).toNat) :
    Prints (do
        let value ← unsignedArg afmt
        let printed ← padTo afmt (padChar afmt) (count value) 0
        let n ← print value
        return printed + n) (arg :: args) args
      (printedField afmt.zeroPad width [] (numeral base (arg.setWidth length.bits).toNat))
      (printedField afmt.zeroPad width []
        (numeral base (arg.setWidth length.bits).toNat)).length := by
  obtain ⟨value, hvalue, harg⟩ := prints_unsignedArg (σ := σ) hlength args hprom
  have hpad : Prints (padTo afmt (padChar afmt) (count value) 0 : PrintM σ Int) args args _ _ :=
    prints_padTo afmt (padChar_ne afmt) (count value)
  apply (harg.bind (hpad.bind ((hprint value args).add _))).congr
  · simp [printedField, padChar_eq, hcount, hvalue, hwidth]
  · rw [printedField_length, hcount, hvalue, hwidth]
    simp

theorem prints_printUnsigned {width : Nat} (hwidth : afmt.width = BitVec.ofNat 8 width)
    (hlength : afmt.length = length.code)
    (hprom : length.bits < 32 → (arg.setWidth 32).toNat = (arg.setWidth length.bits).toNat) :
    Prints (printUnsigned afmt : PrintM σ Int) (arg :: args) args
      (printedField afmt.zeroPad width [] (numeral 10 (arg.setWidth length.bits).toNat))
      (printedField afmt.zeroPad width []
        (numeral 10 (arg.setWidth length.bits).toNat)).length :=
  prints_unsignedNumber digitCountBase10_eq (fun value _ => prints_printNum10 value) hwidth
    hlength hprom

theorem prints_printHex {width : Nat} (hwidth : afmt.width = BitVec.ofNat 8 width)
    (hlength : afmt.length = length.code)
    (hprom : length.bits < 32 → (arg.setWidth 32).toNat = (arg.setWidth length.bits).toNat) :
    Prints (printHex afmt : PrintM σ Int) (arg :: args) args
      (printedField afmt.zeroPad width [] (numeral 16 (arg.setWidth length.bits).toNat))
      (printedField afmt.zeroPad width []
        (numeral 16 (arg.setWidth length.bits).toNat)).length :=
  prints_unsignedNumber digitCountBase16_eq (fun value _ => prints_printNum16 value) hwidth
    hlength hprom

theorem toNat_neg_of_neg {value : BitVec 64} (h : value.toInt < 0) :
    (-value).toNat = value.toInt.natAbs := by
  have hlt := value.isLt
  rw [BitVec.toInt_eq_toNat_cond] at h ⊢
  rw [BitVec.toNat_neg]
  split at h <;> omega

theorem toNat_of_nonneg {value : BitVec 64} (h : ¬ value.toInt < 0) :
    value.toNat = value.toInt.natAbs := by
  have hlt := value.isLt
  rw [BitVec.toInt_eq_toNat_cond] at h ⊢
  split at h <;> omega

theorem fieldColumns_sub {width : BitVec 8} (h : 0 < width.toInt) {n : Nat} (hn : n ≤ 1) :
    fieldColumns (width - BitVec.ofNat 8 n) = fieldColumns width - n := by
  unfold fieldColumns
  rcases Nat.le_one_iff_eq_zero_or_eq_one.mp hn with rfl | rfl
  · simp
  · rw [toInt_pred (n := 0) h]
    omega

/-- The width is taken down by the sign, unless there is none. -/
theorem prints_printMagnitude {width : Nat} (hwidth : afmt.width = BitVec.ofNat 8 width)
    (value : BitVec 64) (sign : List Byte) (hsign : sign.length ≤ 1) :
    Prints (printMagnitude afmt value (BitVec.ofNat 8 sign.length) : PrintM σ Int) args args
      (List.replicate (fieldColumns (BitVec.ofNat 8 width) -
          (sign.length + (numeral 10 value.toNat).length)) (padChar afmt) ++
        numeral 10 value.toNat)
      (printedField afmt.zeroPad width sign (numeral 10 value.toNat)).length := by
  have hint : (BitVec.ofNat 8 sign.length).toInt = sign.length := by
    rcases Nat.le_one_iff_eq_zero_or_eq_one.mp hsign with h | h <;> rw [h] <;> rfl
  have hdigits : Prints (printNum10 value : PrintM σ Int) args args _ _ := prints_printNum10 value
  rw [printedField_length, ← hwidth]
  unfold printMagnitude
  simp only [hint]
  by_cases hw : 0 < afmt.width.toInt
  · have hlt := afmt.width.toInt_lt
    have hcolumns := fieldColumns_sub hw hsign
    have hle : fieldColumns (afmt.width - BitVec.ofNat 8 sign.length) -
        digitCountBase10 value ≤ 127 := by
      rw [hcolumns]
      unfold fieldColumns
      omega
    have hpad : Prints (padLoop (padChar afmt) (digitCountBase10 value) 127
        (afmt.width - BitVec.ofNat 8 sign.length) sign.length : PrintM σ Int) args args _ _ :=
      prints_padLoop (padChar_ne afmt) (digitCountBase10 value) 127 _ sign.length hle
    rw [hcolumns, digitCountBase10_eq] at hpad
    rw [if_pos hw, digitCountBase10_eq]
    apply (hpad.bind (hdigits.add _)).congr
    · rw [Nat.sub_sub]
    · push_cast
      omega
  · have hn : fieldColumns afmt.width = 0 := by
      unfold fieldColumns
      omega
    rw [if_neg hw, hn]
    apply ((prints_pure _).bind (hdigits.add _)).congr
    · simp
    · simp

theorem prints_printSigned {width : Nat} (hwidth : afmt.width = BitVec.ofNat 8 width)
    (hlength : afmt.length = length.code)
    (hprom : length.bits < 32 → (arg.setWidth 32).toInt = (arg.setWidth length.bits).toInt) :
    Prints (printSigned afmt : PrintM σ Int) (arg :: args) args
      (printedField afmt.zeroPad width
        (if (arg.setWidth length.bits).toInt < 0 then [ch '-'] else [])
        (numeral 10 (arg.setWidth length.bits).toInt.natAbs))
      (printedField afmt.zeroPad width
        (if (arg.setWidth length.bits).toInt < 0 then [ch '-'] else [])
        (numeral 10 (arg.setWidth length.bits).toInt.natAbs)).length := by
  obtain ⟨value, hvalue, harg⟩ := prints_signedArg (σ := σ) hlength args hprom
  rw [← hvalue]
  by_cases hneg : value.toInt < 0
  · have hsign : Prints (fputcE (ch '-').toInt : PrintM σ Int) args args _ _ :=
      prints_fputcE (by decide)
    have hrest : Prints (printMagnitude afmt (-value) 1#8 : PrintM σ Int) args args _ _ :=
      prints_printMagnitude hwidth (-value) [ch '-'] (Nat.le_refl 1)
    rw [if_pos hneg, ← toNat_neg_of_neg hneg]
    apply (harg.bind _).congr (List.nil_append _) rfl
    rw [if_pos hneg]
    exact hsign.bind hrest
  · have hrest : Prints (printMagnitude afmt value 0#8 : PrintM σ Int) args args _ _ :=
      prints_printMagnitude hwidth value [] (Nat.zero_le 1)
    rw [if_neg hneg, ← toNat_of_nonneg hneg]
    apply (harg.bind _).congr (List.nil_append _) rfl
    rw [if_neg hneg]
    exact hrest

theorem prints_printChar (h : arg.setWidth 8 ≠ 0xff#8) :
    Prints (printChar : PrintM σ Int) (arg :: args) args [arg.setWidth 8] 1 := by
  exact (prints_vaArg arg args).bind (prints_fputcE h)

theorem jumps_printChar (h : arg.setWidth 8 = 0xff#8) :
    Jumps (printChar : PrintM σ Int) (arg :: args) := by
  apply (prints_vaArg arg args).jumps
  rw [h]
  exact jumps_fputcE

section Strings

variable {strnlen : ByteMemory → Uintptr → Size → Size} {mem : ByteMemory}

theorem signExtend_ofNat {max : Nat} (hmax : max < 2 ^ 31) :
    (BitVec.ofNat 32 max).signExtend 64 = BitVec.ofNat 64 max := by
  have hmsb : (BitVec.ofNat 32 max).msb = false := by
    rw [BitVec.msb_eq_false_iff_two_mul_lt, BitVec.toNat_ofNat, Nat.mod_eq_of_lt] <;> omega
  apply BitVec.eq_of_toNat_eq
  rw [BitVec.signExtend_eq_setWidth_of_msb_false hmsb]
  simp
  omega

theorem toInt_setWidth_of_le {chars : Size} {max : Nat} (hmax : max < 2 ^ 31)
    (h : chars.toNat ≤ max) : (chars.setWidth 32).toInt = chars.toNat := by
  have hnat : (chars.setWidth 32).toNat = chars.toNat := by
    rw [BitVec.toNat_setWidth, Nat.mod_eq_of_lt (by omega)]
  rw [BitVec.toInt_eq_toNat_of_lt (by omega), hnat]

theorem toInt_count_bounds (hcounts : CountsString strnlen) {max : BitVec 32}
    (hmax : 0 ≤ max.toInt) (mem : ByteMemory) (str : Uintptr) :
    0 ≤ ((strnlen mem str (max.signExtend 64)).setWidth 32).toInt ∧
      ((strnlen mem str (max.signExtend 64)).setWidth 32).toInt ≤ max.toInt := by
  have hint : max.toInt = max.toNat ∧ max.toNat < 2 ^ 31 := by
    have hlt := max.isLt
    rw [BitVec.toInt_eq_toNat_cond] at hmax ⊢
    split at hmax <;> omega
  have hsign : max.signExtend 64 = BitVec.ofNat 64 max.toNat := by
    rw [← signExtend_ofNat hint.2, BitVec.ofNat_toNat, BitVec.setWidth_eq]
  have hle := (hcounts mem str (BitVec.ofNat 64 max.toNat)).2
  rw [BitVec.toNat_ofNat, Nat.mod_eq_of_lt (by omega)] at hle
  rw [hsign, hint.1, toInt_setWidth_of_le hint.2 hle]
  omega

theorem prints_printString_width (hcounts : CountsString strnlen) {width : Nat}
    (hwidth : afmt.width = BitVec.ofNat 8 width) (hprecision : afmt.hasPrecision = false)
    (str : BitVec 64) (args : List (BitVec 64)) :
    Prints (printString strnlen mem afmt : PrintM σ Int) (str :: args) args
      (printedField false width [] (countedBytes strnlen mem str intMax.toNat))
      (printedField false width [] (countedBytes strnlen mem str intMax.toNat)).length := by
  have hmax : intMax.signExtend 64 = BitVec.ofNat 64 intMax.toNat := rfl
  have hle := (hcounts mem str (BitVec.ofNat 64 intMax.toNat)).2
  have hint := toInt_setWidth_of_le (by decide) hle
  unfold countedBytes
  generalize hchars : (strnlen mem str (BitVec.ofNat 64 intMax.toNat)).toNat = chars at hint hle
  have hbytes : Prints (fwriteE (fun i => mem (str + BitVec.ofNat 64 i)) chars : PrintM σ Int)
      args args _ _ := prints_fwriteE _ (Nat.lt_of_le_of_lt hle (by decide))
  unfold printString
  apply ((prints_vaArg str args).bind _).congr (List.nil_append _) rfl
  simp only [hprecision, hmax, hint, false_and, if_false, Bool.false_eq_true]
  rw [printedField_length, stringBytes_length, ← hwidth]
  by_cases hw : 0 < afmt.width.toInt
  · have hlt := afmt.width.toInt_lt
    have hfuel : fieldColumns afmt.width - chars ≤ 255 := by
      unfold fieldColumns
      omega
    rw [if_pos hw]
    apply ((prints_padString chars 255 afmt.width afmt.precision 0 hfuel).bind
      (hbytes.add _)).congr
    · simp [printedField, stringBytes, hwidth]
    · simp
  · have hn : fieldColumns afmt.width = 0 := by
      unfold fieldColumns
      omega
    rw [if_neg hw]
    apply ((prints_pure (0, afmt.precision)).bind (hbytes.add _)).congr
    · simp [printedField, stringBytes, ← hwidth, hn]
    · simp [hn]

theorem prints_printString_precision (hcounts : CountsString strnlen) {precision : Nat}
    (hmax : precision < 2 ^ 31) (hwidth : afmt.width = 0#8)
    (hprecision : afmt.precision = BitVec.ofNat 32 precision) (hhas : afmt.hasPrecision = true)
    (str : BitVec 64) (args : List (BitVec 64)) :
    Prints (printString strnlen mem afmt : PrintM σ Int) (str :: args) args
      (countedBytes strnlen mem str precision)
      (countedBytes strnlen mem str precision).length := by
  have hle := (hcounts mem str (BitVec.ofNat 64 precision)).2
  rw [BitVec.toNat_ofNat, Nat.mod_eq_of_lt (by omega)] at hle
  have hint := toInt_setWidth_of_le hmax hle
  have hsign : afmt.precision.signExtend 64 = BitVec.ofNat 64 precision := by
    rw [hprecision, signExtend_ofNat hmax]
  have hprec : afmt.precision.toInt = precision := by
    rw [← BitVec.toInt_signExtend_of_le (v := 64) (by decide), hsign, BitVec.toInt_eq_toNat_of_lt,
      BitVec.toNat_ofNat, Nat.mod_eq_of_lt] <;> simp <;> omega
  have hzero : ¬ 0 < afmt.width.toInt := by
    rw [hwidth]
    decide
  unfold countedBytes
  rw [stringBytes_length]
  generalize hchars : (strnlen mem str (BitVec.ofNat 64 precision)).toNat = chars at hint hle
  have hbytes : Prints (fwriteE (fun i => mem (str + BitVec.ofNat 64 i)) chars : PrintM σ Int)
      args args _ _ := prints_fwriteE _ (Nat.lt_of_le_of_lt hle hmax)
  have hnot : ¬ ((precision : Int) < chars) := by omega
  apply ((prints_vaArg str args).bind _).congr (List.nil_append _) rfl
  simp only [hhas, if_true, hsign, hint]
  rw [if_neg hzero]
  apply ((prints_pure (0, afmt.precision)).bind _).congr (List.nil_append _) rfl
  simp only [hprec, hnot, and_false, if_false]
  exact (hbytes.add 0).congr rfl (Int.zero_add _)

end Strings

end Ukulele
