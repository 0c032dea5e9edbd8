import Ukulele.VfprintfNumerals

/-! What stops the printers: a stream that fails, arguments that are missing, and in one case a loop
without end.
-/

set_option autoImplicit false

namespace Ukulele
open ByteRange Faults

variable {σ : Type} {strnlen : ByteMemory → Uintptr → Size → Size} {mem : ByteMemory}
  {afmt : FmtSpecifier} {text : List Byte}

/-- A string is to be padded, and its precision is below zero. -/
def PadsBelowZero (afmt : FmtSpecifier) (c : Byte) : Prop :=
  c = ch 's' ∧ 0 < afmt.width.toInt ∧ afmt.hasPrecision ∧ afmt.precision.toInt < 0

/-- The same of the text: in a `signed char` the width is above zero, in an `int` the precision is
below. -/
def PadsForever (mods : List Byte) : Prop :=
  0 < widthValue mods % 2 ^ 8 ∧ widthValue mods % 2 ^ 8 < 2 ^ 7 ∧ ch '.' ∈ mods ∧
    2 ^ 31 ≤ precisionValue mods % 2 ^ 32

instance decidablePadsForever (mods : List Byte) : Decidable (PadsForever mods) :=
  inferInstanceAs (Decidable (_ ∧ _ ∧ _ ∧ _))

theorem SpecRead.pads_iff {mods : List Byte} (h : SpecRead mods afmt) :
    PadsBelowZero afmt (ch 's') ↔ PadsForever mods := by
  have hwidth : 0 < afmt.width.toInt ↔
      0 < widthValue mods % 2 ^ 8 ∧ widthValue mods % 2 ^ 8 < 2 ^ 7 := by
    rw [h.width, BitVec.toInt_eq_toNat_cond, BitVec.toNat_ofNat]
    split <;> omega
  have hprecision : afmt.precision.toInt < 0 ↔ 2 ^ 31 ≤ precisionValue mods % 2 ^ 32 := by
    rw [h.precision, BitVec.toInt_eq_toNat_cond, BitVec.toNat_ofNat]
    split <;> omega
  have hhas : afmt.hasPrecision = true ↔ ch '.' ∈ mods := by
    rw [h.hasPrecision]
    simp
  unfold PadsBelowZero PadsForever
  rw [hwidth, hprecision, hhas]
  simp [and_assoc]

section Printers

variable {errors : Stop → Prop}

theorem raises_vaArg (harg : errors .noArgument) : Raises errors (vaArg : PrintM σ _) := by
  intro s e s' h
  unfold vaArg at h
  split at h <;> cases h
  exact harg

theorem raises_fwriteE (hstream : errors (.error 1)) (c : Nat → Byte) (len : Int) :
    Raises errors (fwriteE c len : PrintM σ Int) := by
  intro s e s' h
  unfold fwriteE at h
  dsimp only at h
  split at h <;> cases h
  exact hstream

theorem raises_fputcE (hstream : errors (.error 1)) (c : Int) :
    Raises errors (fputcE c : PrintM σ Int) := by
  intro s e s' h
  unfold fputcE at h
  dsimp only at h
  split at h <;> cases h
  exact hstream

theorem raises_padLoop (hstream : errors (.error 1)) (pad : Byte) {digits : Int}
    (hdigits : 0 ≤ digits) {fuel : Nat} {width : BitVec 8} (hfuel : width.toInt ≤ fuel)
    (printed : Int) : Raises errors (padLoop pad digits fuel width printed : PrintM σ Int) := by
  induction fuel generalizing width printed with
  | zero =>
    rw [padLoop, if_neg (by omega)]
    exact raises_pure _
  | succ fuel ih =>
    unfold padLoop
    split
    · have hpred := @toInt_sub_one width (by omega)
      exact (raises_fputcE hstream _).bind fun _ => ih (by omega) _
    · exact raises_pure _

theorem raises_padTo (hstream : errors (.error 1)) (pad : Byte) {digits : Int}
    (hdigits : 0 ≤ digits) (printed : Int) :
    Raises errors (padTo afmt pad digits printed : PrintM σ Int) := by
  have hlt := afmt.width.toInt_lt
  unfold padTo
  split
  · exact raises_padLoop hstream pad hdigits (by omega) printed
  · exact raises_pure _

theorem fillDigits_isSome (digitChar : Nat → Byte) (base : BitVec 64) (n : Nat)
    (value : BitVec 64) {buffer : List Byte} (hn : n ≤ buffer.length) :
    ∃ filled, fillDigits digitChar base n value buffer = some filled := by
  induction n generalizing value buffer with
  | zero => exact ⟨buffer, rfl⟩
  | succ n ih =>
    rw [fillDigits, if_pos (Nat.lt_of_succ_le hn)]
    exact ih _ (by rw [List.length_set]; omega)

theorem raises_printNum (hstream : errors (.error 1)) (digitChar : Nat → Byte)
    {base : BitVec 64} (hbase : 10 ≤ base.toNat) (value : BitVec 64) :
    Raises errors (printNum digitChar base value : PrintM σ Int) := by
  have hlen := numeral_length_le hbase value
  rw [← digitCount_eq (by omega)] at hlen
  have hle : digitCount base value ≤ (List.replicate 32 0#8).length := by
    rw [List.length_replicate]
    omega
  obtain ⟨filled, hfilled⟩ := fillDigits_isSome digitChar base (digitCount base value) value hle
  unfold printNum
  simp only [hfilled]
  exact raises_fwriteE hstream _ _

theorem raises_wordArg (harg : errors .noArgument) (extend : BitVec 32 → BitVec 64)
    (hlength : -2 ≤ afmt.length.toInt ∧ afmt.length.toInt ≤ 2) :
    Raises errors (wordArg extend afmt : PrintM σ _) := by
  unfold wordArg
  dsimp only
  split
  · exact (raises_vaArg harg).bind fun _ => raises_pure _
  · rw [if_pos (by omega)]
    exact raises_vaArg harg

theorem raises_printNumber (hstream : errors (.error 1)) (harg : errors .noArgument)
    (hlength : -2 ≤ afmt.length.toInt ∧ afmt.length.toInt ≤ 2) (conversion : NumberConversion) :
    Raises errors (printNumber conversion afmt : PrintM σ Int) := by
  have hlt := afmt.width.toInt_lt
  have hdigits : ∀ (value : BitVec 64) (printed : Int), Raises errors (do
      let n ← printNum10 value
      return printed + n : PrintM σ Int) := by
    intro value printed
    exact (raises_printNum hstream _ (by decide) value).bind fun _ => raises_pure _
  have hsigned : Raises errors (printSigned afmt : PrintM σ Int) := by
    have hmagnitude : ∀ value printed,
        Raises errors (printMagnitude afmt value printed : PrintM σ Int) := by
      intro value printed
      have hwidth := (afmt.width - printed).toInt_lt
      unfold printMagnitude
      split
      · exact (raises_padLoop hstream _ (by omega) (by omega) _).bind (hdigits value)
      · exact (raises_pure _).bind (hdigits value)
    apply (raises_wordArg harg _ hlength).bind
    intro value
    split
    · exact (raises_fputcE hstream _).bind fun _ => hmagnitude _ _
    · exact hmagnitude _ _
  cases conversion with
  | d | i => exact hsigned
  | u =>
    exact (raises_wordArg harg _ hlength).bind fun value =>
      (raises_padTo hstream _ (by omega) _).bind (hdigits value)
  | x =>
    exact (raises_wordArg harg _ hlength).bind fun value =>
      (raises_padTo hstream _ (by omega) _).bind fun _ =>
        (raises_printNum hstream _ (by decide) value).bind fun _ => raises_pure _

theorem raises_padString (hstream : errors (.error 1)) {chars : Int} {fuel : Nat}
    {width : BitVec 8} (hfuel : errors .outOfFuel ∨ 0 ≤ chars ∧ width.toInt ≤ fuel)
    (precision : BitVec 32) (printed : Int) :
    Raises errors (padString chars fuel width precision printed : PrintM σ _) := by
  induction fuel generalizing width precision printed with
  | zero =>
    unfold padString
    split
    · rcases hfuel with hforever | hends
      · exact raises_throw hforever
      · omega
    · exact raises_pure _
  | succ fuel ih =>
    unfold padString
    split
    · refine (raises_fputcE hstream _).bind fun _ => ih ?_ _ _
      rcases hfuel with hforever | hends
      · exact Or.inl hforever
      · have hpred := @toInt_sub_one width (by omega)
        exact Or.inr (by omega)
    · exact raises_pure _

theorem raises_printString (hcounts : CountsString strnlen) (hstream : errors (.error 1))
    (harg : errors .noArgument) (hforever : PadsBelowZero afmt (ch 's') → errors .outOfFuel) :
    Raises errors (printString strnlen mem afmt : PrintM σ Int) := by
  apply (raises_vaArg harg).bind
  intro str
  dsimp only
  have hbytes : ∀ (len printed : Int), Raises errors (do
      let n ← fwriteE (fun i => mem (str + BitVec.ofNat 64 i)) len
      return printed + n : PrintM σ Int) := by
    intro len printed
    exact (raises_fwriteE hstream _ len).bind fun _ => raises_pure _
  have hlt := afmt.width.toInt_lt
  by_cases hw : 0 < afmt.width.toInt
  · rw [if_pos hw]
    apply (raises_padString hstream _ _ _).bind fun r => hbytes _ _
    by_cases hbelow : afmt.hasPrecision ∧ afmt.precision.toInt < 0
    · exact Or.inl (hforever ⟨rfl, hw, hbelow⟩)
    · have hmax : 0 ≤ (if afmt.hasPrecision then afmt.precision else intMax).toInt := by
        split
        · exact Int.not_lt.mp fun hneg => hbelow ⟨‹_›, hneg⟩
        · decide
      exact Or.inr ⟨(toInt_count_bounds hcounts hmax mem str).1, by omega⟩
  · rw [if_neg hw]
    exact (raises_pure _).bind fun r => hbytes _ _

theorem raises_convert (hcounts : CountsString strnlen) (hstream : errors (.error 1))
    (harg : errors .noArgument) {c : Byte} (hforever : PadsBelowZero afmt c → errors .outOfFuel)
    (hlength : ¬ RejectsLength afmt c) {print : PrintM σ Int}
    (h : convert strnlen mem afmt c = some print) : Raises errors print := by
  have hlong : -2 ≤ (2#8).toInt ∧ (2#8).toInt ≤ 2 := by decide
  revert hforever hlength
  refine convert_elim (P := fun c print => (PadsBelowZero afmt c → errors .outOfFuel) →
    ¬ RejectsLength afmt c → Raises errors print) ?_ ?_ ?_ ?_ ?_ ?_ h
  · intro conversion hforever hlength
    exact raises_printNumber hstream harg (length_known hlength) conversion
  · intro hforever hlength
    exact (raises_vaArg harg).bind fun _ => raises_fputcE hstream _
  · intro hforever hlength
    exact raises_printString hcounts hstream harg hforever
  · intro hforever hlength
    exact raises_printNumber hstream harg hlong .x
  · intro hforever hlength
    exact raises_fputcE hstream _
  · intro c hforever hlength
    exact raises_fputcE hstream _

end Printers

/-- With at most 127 modifiers exactly the texts that do not start with a specification end in the
jump with the number 2. -/
theorem parse_rejects_iff (hcounts : CountsString strnlen) (hnul : 0#8 ∈ text)
    (hcount : (leadingModifiers text).countP (· ∈ lengthModifiers) ≤ 127) (s : PrintState σ) :
    (∃ s', parseFormatStr strnlen mem emptySpecifier .flag text s = .error (.error 2) s') ↔
      ¬ WellFormedSpec text := by
  rw [wellFormedSpec_iff hcount]
  cases hscan : scan emptySpecifier .flag text with
  | call afmt c rest =>
    obtain ⟨print, hprint, hparse⟩ := @parse_call σ strnlen mem _ _ _ _ _ _ hscan
    rw [hparse]
    by_cases hlength : RejectsLength afmt c
    · have hnone : ¬ ∃ afmt' c' rest', Scan.call afmt c rest = .call afmt' c' rest' ∧
          ¬ RejectsLength afmt' c' := by
        intro h
        obtain ⟨afmt', c', rest', he, hnot⟩ := h
        cases he
        exact hnot hlength
      exact iff_of_true ⟨s, bind_error (convert_rejects hlength hprint s)⟩ hnone
    · have hnot : ¬ ∃ s', (do
          let n ← print
          return (n, rest) : PrintM σ _) s = .error (.error 2) s' := by
        intro h
        obtain ⟨s', herror⟩ := h
        have hraises : Raises (fun e => e ≠ .error 2) (do
            let n ← print
            return (n, rest) : PrintM σ _) :=
          (raises_convert hcounts (by simp) (by simp) (by simp) hlength hprint).bind
            fun _ => raises_pure _
        exact hraises s _ s' herror rfl
      exact iff_of_false hnot (not_not.mpr ⟨afmt, c, rest, rfl, hlength⟩)
  | malformed =>
    rw [parse_malformed hscan]
    refine iff_of_true ⟨s, rfl⟩ ?_
    nofun
  | pastEnd => exact absurd hscan (scan_ne_pastEnd hnul)

/-- What stops a run that does not go on for ever: the stream, a specification that is rejected, or
an argument that is missing. -/
def Stop.Regular (e : Stop) : Prop := e = .error 1 ∨ e = .error 2 ∨ e = .noArgument

theorem mem_of_scan {rest : List Byte} {c : Byte} {afmt' : FmtSpecifier} {state : ParseState}
    (h : scan afmt state text = .call afmt' c rest) (hnul : 0#8 ∈ text) :
    0#8 ∈ rest ∧ rest.length < text.length := by
  obtain ⟨mods, rfl, hmods, -⟩ := scan_sound h
  have hc : (0#8 : Byte) ≠ c := by
    rintro rfl
    exact absurd (scan_call_mem h) (by decide)
  have hnot : 0#8 ∉ mods := fun hm => absurd (hmods _ hm) (by decide)
  simp only [List.mem_append, List.mem_cons, hnot, hc, false_or] at hnul
  simp only [List.length_append, List.length_cons]
  exact ⟨hnul, by omega⟩

theorem raises_parseFormatStr {errors : Stop → Prop} (hcounts : CountsString strnlen)
    (hstream : errors (.error 1)) (hrejects : errors (.error 2)) (harg : errors .noArgument)
    (hnul : 0#8 ∈ text) (hforever : ∀ afmt c rest,
      scan emptySpecifier .flag text = .call afmt c rest → PadsBelowZero afmt c →
        errors .outOfFuel) :
    Raises errors (parseFormatStr strnlen mem emptySpecifier .flag text : PrintM σ _) := by
  cases hscan : scan emptySpecifier .flag text with
  | call afmt c rest =>
    obtain ⟨print, hprint, hparse⟩ := @parse_call σ strnlen mem _ _ _ _ _ _ hscan
    have hraises : Raises errors print := by
      by_cases hlength : RejectsLength afmt c
      · intro s e s' he
        rw [convert_rejects hlength hprint] at he
        cases he
        exact hrejects
      · exact raises_convert hcounts hstream harg (hforever afmt c rest hscan) hlength hprint
    rw [hparse]
    exact hraises.bind fun _ => raises_pure _
  | malformed =>
    rw [parse_malformed hscan]
    exact raises_throw hrejects
  | pastEnd => exact absurd hscan (scan_ne_pastEnd hnul)

theorem raises_vfprintfLoop (hcounts : CountsString strnlen) {fuel : Nat} {fmt : List Byte}
    (hnul : 0#8 ∈ fmt) (hfuel : fmt.length ≤ fuel)
    (hpads : ∀ mods, ComesTo fmt mods (ch 's') → ¬ PadsForever mods)
    (written : BitVec 32) :
    Raises Stop.Regular (vfprintfLoop strnlen mem fuel fmt written : PrintM σ Int) := by
  have hstream : Stop.Regular (.error 1) := Or.inl rfl
  have hrejects : Stop.Regular (.error 2) := Or.inr (Or.inl rfl)
  have harg : Stop.Regular .noArgument := Or.inr (Or.inr rfl)
  induction fuel generalizing fmt written with
  | zero =>
    rw [List.length_eq_zero_iff.mp (Nat.le_zero.mp hfuel)] at hnul
    simp at hnul
  | succ fuel ih =>
    cases fmt with
    | nil => simp at hnul
    | cons c fmt =>
      rw [List.length_cons] at hfuel
      unfold vfprintfLoop
      split
      · exact raises_pure _
      · rename_i hc
        have hrest := List.mem_of_ne_of_mem (Ne.symm hc) hnul
        split
        · rename_i hpercent
          by_cases heof : c = 0xff#8
          · subst heof
            exact (raises_fputcE hstream _).bind_of_fails fails_fputcE_eof
          · exact (raises_fputcE hstream _).bind fun _ => ih hrest (by omega)
              (fun mods h => hpads mods (.ordinary hc heof hpercent h)) _
        · rename_i hpercent
          obtain rfl : c = ch '%' := not_not.mp hpercent
          have hparse : Raises Stop.Regular
              (parseFormatStr strnlen mem emptySpecifier .flag fmt : PrintM σ _) := by
            apply raises_parseFormatStr hcounts hstream hrejects harg hrest
            intro afmt d rest hscan hforever
            obtain ⟨mods, rfl, hmods, hd, hread⟩ := text_of_scan hscan
            obtain rfl := hforever.1
            exact absurd (hread.pads_iff.mp hforever) (hpads mods (.here hmods hd))
          apply hparse.bind_of
          intro s r s' hrun
          obtain ⟨afmt, d, print, hscan, -, -, hlength⟩ := parse_ok hrun
          obtain ⟨hnul', hlt⟩ := mem_of_scan hscan hrest
          obtain ⟨mods, rfl, hmods, hd, hread⟩ := text_of_scan hscan
          rw [hread.rejects_iff] at hlength
          exact ih hnul' (by omega) (fun mods h => hpads mods (.behind hmods hd hlength h)) _

end Ukulele
