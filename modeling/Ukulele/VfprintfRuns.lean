import Ukulele.VfprintfFormat

/-! A whole format: what is delivered for it and what is returned. -/

set_option autoImplicit false

namespace Ukulele
open Faults Pieces

variable {σ : Type} {strnlen : ByteMemory → Uintptr → Size → Size} {mem : ByteMemory}
  {args args' : List (BitVec 64)} {out : List Byte} {d : Directive}

def Turns (strnlen : ByteMemory → Uintptr → Size → Size) (mem : ByteMemory) (σ : Type)
    (text : List Byte) (args args' : List (BitVec 64)) (out : List Byte) : Prop :=
  ∀ fuel fmt written (io : Stdio σ), io.Accepts → ∃ io' : Stdio σ,
    vfprintfLoop strnlen mem (fuel + 1) (text ++ fmt) written ⟨io, args⟩ =
      vfprintfLoop strnlen mem fuel fmt (written + BitVec.ofNat 32 out.length) ⟨io', args'⟩ ∧
    io'.Accepts ∧ io'.delivered = io.delivered ++ out

theorem turns_ordinary {c : Byte} (hwf : (Directive.ordinary c).WellFormed) (hput : c ≠ 0xff#8) :
    Turns strnlen mem σ [c] args args [c] := by
  intro fuel fmt written io hio
  have hprint : Prints (fputcE c.toInt : PrintM σ Int) args args [c] 1 := prints_fputcE hput
  obtain ⟨io', hrun, hio', hout⟩ := hprint io hio
  refine ⟨io', ?_, hio', hout⟩
  rw [List.singleton_append, vfprintfLoop, if_neg hwf.1, if_pos hwf.2, bind_ok hrun]
  rfl

theorem vfprintfLoop_percent (fuel : Nat) (fmt : List Byte) (written : BitVec 32) :
    (vfprintfLoop strnlen mem (fuel + 1) (ch '%' :: fmt) written : PrintM σ Int) = (do
      let r ← parseFormatStr strnlen mem emptySpecifier .flag fmt
      vfprintfLoop strnlen mem fuel r.2 (written + BitVec.ofInt 32 r.1)) := by
  rw [vfprintfLoop, if_neg (by decide), if_neg (by decide)]

theorem turns_conversion {body : List Byte} {print : PrintM σ Int}
    (hcalls : Calls strnlen mem body print) (hprint : Prints print args args' out out.length) :
    Turns strnlen mem σ (ch '%' :: body) args args' out := by
  intro fuel fmt written io hio
  obtain ⟨io', hrun, hio', hout⟩ := hprint io hio
  refine ⟨io', ?_, hio', hout⟩
  have hparse : (do
      let n ← print
      return (n, fmt)) ⟨io, args⟩ = .ok ((out.length : Int), fmt) ⟨io', args'⟩ := bind_ok hrun
  rw [List.cons_append, vfprintfLoop_percent, hcalls, bind_ok hparse, BitVec.ofInt_natCast]

theorem jumps_conversion {body : List Byte} {print : PrintM σ Int}
    (hcalls : Calls strnlen mem body print) (hprint : Jumps print args) (fuel : Nat)
    (fmt : List Byte) (written : BitVec 32) :
    Jumps (vfprintfLoop strnlen mem (fuel + 1) (ch '%' :: (body ++ fmt)) written : PrintM σ Int)
      args := by
  rw [vfprintfLoop_percent, hcalls]
  exact hprint.bind.bind

theorem prints_printNumber {spec : NumberSpec} {conversion : NumberConversion} {arg : BitVec 64}
    (h : Promoted spec.length conversion arg) (args : List (BitVec 64)) :
    Prints (printNumber conversion
        ⟨0#32, BitVec.ofNat 8 (decimal spec.width), spec.length.code, spec.zero, false⟩ :
          PrintM σ Int) (arg :: args) args
      ((Directive.number spec conversion arg).output strnlen mem)
      ((Directive.number spec conversion arg).output strnlen mem).length := by
  cases conversion with
  | d | i => exact prints_printSigned rfl rfl h
  | u => exact prints_printUnsigned rfl rfl h
  | x => exact prints_printHex rfl rfl h

theorem turns_directive (hcounts : CountsString strnlen) (hwf : d.WellFormed) (hput : d.NotEof)
    (args : List (BitVec 64)) :
    Turns strnlen mem σ d.text (d.args ++ args) args (d.output strnlen mem) := by
  cases d with
  | ordinary c => exact turns_ordinary hwf hput
  | percent => exact turns_conversion calls_percent (prints_fputcE (by decide))
  | number spec conversion arg =>
    exact turns_conversion (calls_number hwf.1 conversion) (prints_printNumber hwf.2 args)
  | char width arg => exact turns_conversion (calls_width hwf rfl) (prints_printChar hput)
  | string width str =>
    exact turns_conversion (calls_width hwf rfl)
      (prints_printString_width hcounts rfl rfl str args)
  | stringPrecision precision str =>
    exact turns_conversion (calls_stringPrecision precision)
      (prints_printString_precision hcounts hwf rfl rfl rfl str args)
  | pointer width arg =>
    have hprint : Prints (printHex
        { emptySpecifier with width := 16#8, length := 2#8, zeroPad := true } : PrintM σ Int)
        (arg :: args) args
        (printedField true 16 [] (numeral 16 (arg.setWidth LengthModifier.ll.bits).toNat)) _ :=
      prints_printHex rfl rfl (by simp [LengthModifier.bits])
    rw [LengthModifier.bits, BitVec.setWidth_eq] at hprint
    exact turns_conversion (calls_width hwf rfl) hprint

theorem jumps_directive (hwf : d.WellFormed) (heof : ¬ d.NotEof) (fuel : Nat) (fmt : List Byte)
    (written : BitVec 32) (args : List (BitVec 64)) :
    Jumps (vfprintfLoop strnlen mem (fuel + 1) (d.text ++ fmt) written : PrintM σ Int)
      (d.args ++ args) := by
  cases d with
  | ordinary c =>
    obtain rfl : c = 0xff#8 := not_not.mp heof
    rw [Directive.text, List.singleton_append, vfprintfLoop, if_neg hwf.1, if_pos hwf.2]
    exact jumps_fputcE.bind
  | char width arg =>
    exact jumps_conversion (calls_width hwf rfl) (jumps_printChar (not_not.mp heof)) fuel fmt
      written
  | percent | number _ _ _ | string _ _ | stringPrecision _ _ | pointer _ _ =>
    exact absurd trivial heof

def textOf (ds : List Directive) : List Byte := ds.flatMap Directive.text

def argsOf (ds : List Directive) : List (BitVec 64) := ds.flatMap Directive.args

theorem length_lt_format (ds : List Directive) : ds.length < (textOf ds ++ [0#8]).length := by
  induction ds with
  | nil => simp
  | cons d ds ih =>
    have hpos : 0 < d.text.length := by cases d <;> simp [Directive.text]
    simp only [textOf, List.flatMap_cons, List.length_append, List.length_cons] at ih ⊢
    omega

theorem prints_vfprintfLoop (hcounts : CountsString strnlen) {ds : List Directive}
    (hwf : ∀ d ∈ ds, d.WellFormed) (hput : ∀ d ∈ ds, d.NotEof) {fuel : Nat}
    (hfuel : ds.length < fuel) (written : BitVec 32) (extra : List (BitVec 64)) :
    Prints (vfprintfLoop strnlen mem fuel (textOf ds ++ [0#8]) written : PrintM σ Int)
      (argsOf ds ++ extra) extra (ds.flatMap (Directive.output strnlen mem))
      (written + BitVec.ofNat 32 (ds.flatMap (Directive.output strnlen mem)).length).toInt := by
  induction ds generalizing fuel written with
  | nil =>
    obtain ⟨fuel, rfl⟩ := Nat.exists_eq_succ_of_ne_zero (by omega : fuel ≠ 0)
    simpa [textOf, argsOf, vfprintfLoop] using prints_pure written.toInt
  | cons d ds ih =>
    intro io hio
    obtain ⟨fuel, rfl⟩ := Nat.exists_eq_succ_of_ne_zero (by omega : fuel ≠ 0)
    have hrest := ih (fun e he => hwf e (List.mem_cons_of_mem d he))
      (fun e he => hput e (List.mem_cons_of_mem d he)) (Nat.lt_of_succ_lt_succ hfuel)
      (written + BitVec.ofNat 32 (d.output strnlen mem).length)
    obtain ⟨io₁, hturn, hio₁, hout₁⟩ := turns_directive hcounts (hwf d (by simp)) (hput d (by simp))
      (argsOf ds ++ extra) fuel (textOf ds ++ [0#8]) written io hio
    obtain ⟨io₂, hrun, hio₂, hout₂⟩ := hrest io₁ hio₁
    refine ⟨io₂, ?_, hio₂, ?_⟩
    · simp only [textOf, argsOf, List.flatMap_cons, List.append_assoc] at hturn hrun ⊢
      rw [Nat.succ_eq_add_one, hturn, hrun, List.length_append, BitVec.ofNat_add, BitVec.add_assoc]
    · rw [hout₂, hout₁, List.flatMap_cons, List.append_assoc]

theorem jumps_vfprintfLoop (hcounts : CountsString strnlen) {ds : List Directive}
    (hwf : ∀ d ∈ ds, d.WellFormed) (heof : ∃ d ∈ ds, ¬ d.NotEof) {fuel : Nat}
    (hfuel : ds.length < fuel) (written : BitVec 32) (extra : List (BitVec 64)) :
    Jumps (vfprintfLoop strnlen mem fuel (textOf ds ++ [0#8]) written : PrintM σ Int)
      (argsOf ds ++ extra) := by
  induction ds generalizing fuel written with
  | nil => simp at heof
  | cons d ds ih =>
    obtain ⟨fuel, rfl⟩ := Nat.exists_eq_succ_of_ne_zero (by omega : fuel ≠ 0)
    simp only [textOf, argsOf, List.flatMap_cons, List.append_assoc]
    by_cases hput : d.NotEof
    · have hlater : ∃ e ∈ ds, ¬ e.NotEof := by simpa [hput] using heof
      intro io hio
      obtain ⟨io₁, hturn, hio₁, -⟩ := turns_directive hcounts (hwf d (by simp)) hput
        (argsOf ds ++ extra) fuel (textOf ds ++ [0#8]) written io hio
      obtain ⟨code, s, hrun⟩ := ih (fun e he => hwf e (List.mem_cons_of_mem d he)) hlater
        (Nat.lt_of_succ_lt_succ hfuel) _ io₁ hio₁
      exact ⟨code, s, hturn.trans hrun⟩
    · exact jumps_directive (hwf d (by simp)) hput fuel _ written _

theorem vfprintf_prints (hcounts : CountsString strnlen) {io : Stdio σ} (hio : io.Accepts)
    {ds : List Directive} (hwf : ∀ d ∈ ds, d.WellFormed) (hput : ∀ d ∈ ds, d.NotEof)
    (extra : List (BitVec 64)) : ∃ io' : Stdio σ,
      vfprintf strnlen mem (textOf ds ++ [0#8]) ⟨io, argsOf ds ++ extra⟩ =
        .ok (BitVec.ofNat 32 (ds.flatMap (Directive.output strnlen mem)).length).toInt
          ⟨io', extra⟩ ∧
      io'.delivered = io.delivered ++ ds.flatMap (Directive.output strnlen mem) := by
  obtain ⟨io', hrun, -, hout⟩ :=
    prints_vfprintfLoop hcounts hwf hput (length_lt_format ds) 0#32 extra io hio
  rw [BitVec.zero_add] at hrun
  refine ⟨io', ?_, hout⟩
  rw [vfprintf, hrun]

theorem vfprintf_eof (hcounts : CountsString strnlen) {io : Stdio σ} (hio : io.Accepts)
    {ds : List Directive} (hwf : ∀ d ∈ ds, d.WellFormed) (heof : ∃ d ∈ ds, ¬ d.NotEof)
    (extra : List (BitVec 64)) : ∃ s,
      vfprintf strnlen mem (textOf ds ++ [0#8]) ⟨io, argsOf ds ++ extra⟩ = .ok eof s := by
  obtain ⟨code, s, hrun⟩ :=
    jumps_vfprintfLoop hcounts hwf heof (length_lt_format ds) 0#32 extra io hio
  refine ⟨s, ?_⟩
  rw [vfprintf, hrun]

/-- The call does not fail, delivers the expansion, and returns its length. -/
def PrintsExpansion (strnlen : ByteMemory → Uintptr → Size → Size) (mem : ByteMemory)
    (io : Stdio σ) (ds : List Directive) (extra : List (BitVec 64)) : Prop :=
  ∃ n s, vfprintf strnlen mem (textOf ds ++ [0#8]) ⟨io, argsOf ds ++ extra⟩ = .ok n s ∧
    n ≠ eof ∧ s.io.delivered = io.delivered ++ ds.flatMap (Directive.expansion mem) ∧
    (s.io.delivered.length : Int) = io.delivered.length + n

/-- The output of a format is its expansion if this is so for each of its directives: one output
cannot make up for another. -/
theorem outputs_eq_iff (hcounts : CountsString strnlen) {ds : List Directive}
    (hwf : ∀ d ∈ ds, d.WellFormed) (hlen : ∀ d ∈ ds, (d.expansion mem).length < 2 ^ 31) :
    ((∀ d ∈ ds, d.NotEof) ∧
      ds.flatMap (Directive.output strnlen mem) = ds.flatMap (Directive.expansion mem)) ↔
    ∀ d ∈ ds, d.PrintsRight strnlen mem := by
  constructor
  · intro h d hd
    obtain ⟨hput, he⟩ := h
    have hcount := (Additive.count 0#8).eq_of_le (fun e _ => count_expansion_le e)
      (congrArg _ he)
    have hlength := Additive.length.eq_of_le
      (fun e h => output_length_le hcounts (hwf e h) (hlen e h) (hcount e h))
      (congrArg _ he.symm)
    have hitem := eq_of_lengths (fun e h => (hlength e h).symm) he d hd
    exact (output_eq_iff hcounts (hwf d hd) (hlen d hd)).mp ⟨hput d hd, hitem⟩
  · intro h
    have hitem := fun d hd => (output_eq_iff hcounts (hwf d hd) (hlen d hd)).mpr (h d hd)
    exact ⟨fun d hd => (hitem d hd).1, List.flatMap_congr fun d hd => (hitem d hd).2⟩

/-- `vfprintf` prints the expansion unless the byte 255 is printed by itself, a null byte is counted
into a string, a width is left out, or a negative number is padded with spaces. -/
theorem vfprintf_prints_expansion (hcounts : CountsString strnlen) {io : Stdio σ}
    (hio : io.Accepts) {ds : List Directive} (hwf : ∀ d ∈ ds, d.WellFormed)
    (hlen : (ds.flatMap (Directive.expansion mem)).length < 2 ^ 31) (extra : List (BitVec 64)) :
    PrintsExpansion strnlen mem io ds extra ↔ ∀ d ∈ ds, d.PrintsRight strnlen mem := by
  have hlens : ∀ d ∈ ds, (d.expansion mem).length < 2 ^ 31 := by
    intro d hd
    exact Nat.lt_of_le_of_lt (Additive.length.le_flatMap hd) hlen
  rw [← outputs_eq_iff hcounts hwf hlens]
  constructor
  · intro h
    obtain ⟨n, s, hrun, hne, hout, -⟩ := h
    by_cases hput : ∀ d ∈ ds, d.NotEof
    · obtain ⟨io', hprints, hdelivered⟩ := vfprintf_prints hcounts hio hwf hput extra
      rw [hprints] at hrun
      cases hrun
      rw [hdelivered] at hout
      exact ⟨hput, List.append_cancel_left hout⟩
    · simp only [not_forall] at hput
      obtain ⟨d, hd, heof⟩ := hput
      obtain ⟨s', hjumps⟩ := vfprintf_eof hcounts hio hwf ⟨d, hd, heof⟩ extra
      rw [hjumps] at hrun
      cases hrun
      contradiction
  · intro h
    obtain ⟨hput, he⟩ := h
    obtain ⟨io', hprints, hdelivered⟩ := vfprintf_prints hcounts hio hwf hput extra
    have hint : (BitVec.ofNat 32 (ds.flatMap (Directive.output strnlen mem)).length).toInt =
        (ds.flatMap (Directive.output strnlen mem)).length := by
      rw [he, BitVec.toInt_eq_toNat_of_lt] <;> rw [BitVec.toNat_ofNat, Nat.mod_eq_of_lt] <;> omega
    refine ⟨_, _, hprints, ?_, ?_, ?_⟩
    · rw [hint, eof]
      omega
    · rw [hdelivered, he]
    · rw [hint, hdelivered, List.length_append]
      push_cast
      rfl

def collector : Stdio (List Byte) :=
  ⟨some ⟨[], some fun cookie buf => ((buf.length : Int), cookie ++ buf), false⟩, .none, []⟩

theorem collector_accepts : collector.Accepts := by
  refine ⟨_, _, rfl, rfl, ?_⟩
  intro cookie buf
  rfl

/-- `x%04d%c%3s` with -5, an `A` and the string of one byte. -/
def exampleDirectives : List Directive :=
  [.ordinary (ch 'x'), .number ⟨true, [4], .none⟩ .d 0xfffffffb#64, .char [] 0x41#64,
    .string [3] 0x1000#64]

theorem exampleDirectives_expansion :
    exampleDirectives.flatMap (Directive.expansion oneByteString.mem) =
      [ch 'x', ch '-', ch '0', ch '0', ch '5', ch 'A', ch ' ', ch ' ', ch 'A'] := by
  decide

theorem vfprintf_prints_expansion_example :
    PrintsExpansion Ukulele.strnlen oneByteString.mem collector exampleDirectives [] := by
  refine (vfprintf_prints_expansion countsString_strnlen collector_accepts ?_ ?_ []).mpr ?_
  · simp [exampleDirectives, Directive.WellFormed, Promoted, LengthModifier.bits, ch]
  · rw [exampleDirectives_expansion]
    decide
  · have hcounts : CountsRight Ukulele.strnlen oneByteString.mem 0x1000#64 intMax.toNat :=
      toNat_strnlen _ _ _
    simp only [exampleDirectives, List.forall_mem_cons, Directive.PrintsRight]
    exact ⟨by decide, ⟨Or.inl (by decide), Or.inr (Or.inl trivial)⟩, by decide,
      ⟨hcounts, Or.inl (by decide)⟩, by simp⟩

theorem vfprintf_takes_byte_for_eof : (Directive.ordinary 0xff#8).WellFormed ∧
    ¬ PrintsExpansion Ukulele.strnlen oneByteString.mem collector [.ordinary 0xff#8] [] := by
  refine ⟨by simp [Directive.WellFormed, ch], ?_⟩
  intro h
  obtain ⟨n, s, hrun, hne, -⟩ := h
  obtain ⟨s', heof⟩ : ∃ s', vfprintf Ukulele.strnlen oneByteString.mem [0xff#8, 0#8]
      ⟨collector, []⟩ = .ok eof s' := ⟨_, rfl⟩
  cases heof.symm.trans hrun
  contradiction

end Ukulele
