import Ukulele.VfprintfErrors

/-! Any format at all: the run ends inside of it, and stops at the specifications that are no
specifications. The one exception is a string padded with a precision below zero, which may be
padded for ever.
-/

set_option autoImplicit false

namespace Ukulele
open ByteRange Faults

variable {σ : Type} {strnlen : ByteMemory → Uintptr → Size → Size} {mem : ByteMemory}
  {afmt : FmtSpecifier} {c : Byte}

/-- The `strnlen` of the kernel, in C or in assembly. -/
inductive LinkedStrnlen : (ByteMemory → Uintptr → Size → Size) → Prop where
  | c : LinkedStrnlen Ukulele.strnlen
  | x86 (regs : Reg → BitVec 64) (rdx : BitVec 64) :
    LinkedStrnlen fun mem str n => (callX86 strnlenX86 ⟨regs, mem⟩ str n rdx).regs .rax

theorem LinkedStrnlen.counts (h : LinkedStrnlen strnlen) : CountsString strnlen := by
  cases h with
  | c => exact countsString_strnlen
  | x86 regs rdx => exact countsString_strnlenX86 regs rdx

theorem LinkedStrnlen.le_succ (h : LinkedStrnlen strnlen) (str : Uintptr) (n : Size) :
    (strnlen mem str n).toNat ≤ before isNul mem n.toNat str + 1 := by
  have hle := before_le (p := isNul) (m := mem) n.toNat str
  cases h with
  | c =>
    rw [toNat_strnlen]
    omega
  | x86 regs rdx =>
    have heq := strnlenX86_eq ⟨regs, mem⟩ str n rdx
    dsimp only at heq ⊢
    rw [heq, BitVec.toNat_ofNat, Nat.mod_eq_of_lt (by omega)]
    omega

/-- The loop of `vfprintf` goes from one place in the format to the next. -/
inductive LoopStep (strnlen : ByteMemory → Uintptr → Size → Size) (mem : ByteMemory) :
    List Byte × BitVec 32 × PrintState σ → List Byte × BitVec 32 × PrintState σ → Prop where
  | ordinary {c : Byte} {fmt : List Byte} {written : BitVec 32} {n : Int} {s s' : PrintState σ} :
    c ≠ 0#8 → c ≠ ch '%' → fputcE c.toInt s = .ok n s' →
      LoopStep strnlen mem (c :: fmt, written, s) (fmt, written + 1#32, s')
  | conversion {fmt rest : List Byte} {written : BitVec 32} {n : Int} {s s' : PrintState σ} :
    parseFormatStr strnlen mem emptySpecifier .flag fmt s = .ok (n, rest) s' →
      LoopStep strnlen mem (ch '%' :: fmt, written, s) (rest, written + BitVec.ofInt 32 n, s')

def ReachesSpec (strnlen : ByteMemory → Uintptr → Size → Size) (mem : ByteMemory)
    (fmt : List Byte) (s : PrintState σ) (text : List Byte) (t : PrintState σ) : Prop :=
  ∃ written, Relation.ReflTransGen (LoopStep strnlen mem) (fmt, 0#32, s)
    (ch '%' :: text, written, t)

/-- The specification ends the run with the jump whose number is 2. -/
def Rejected (strnlen : ByteMemory → Uintptr → Size → Size) (mem : ByteMemory)
    (text : List Byte) (s : PrintState σ) : Prop :=
  ∃ t, parseFormatStr strnlen mem emptySpecifier .flag text s = .error (.error 2) t

theorem loopStep_run {p q : List Byte × BitVec 32 × PrintState σ}
    (h : LoopStep strnlen mem p q) (fuel : Nat) :
    vfprintfLoop strnlen mem (fuel + 1) p.1 p.2.1 p.2.2 =
      vfprintfLoop strnlen mem fuel q.1 q.2.1 q.2.2 := by
  cases h with
  | ordinary hnul hc hput =>
    rw [vfprintfLoop, if_neg hnul, if_pos hc, bind_ok hput]
  | conversion hparse =>
    rw [vfprintfLoop_percent, bind_ok hparse]

theorem loopStep_length {p q : List Byte × BitVec 32 × PrintState σ}
    (h : LoopStep strnlen mem p q) (hnul : 0#8 ∈ p.1) :
    0#8 ∈ q.1 ∧ q.1.length < p.1.length := by
  cases h with
  | ordinary hc _ _ =>
    exact ⟨List.mem_of_ne_of_mem (Ne.symm hc) hnul, Nat.lt_succ_self _⟩
  | conversion hparse =>
    obtain ⟨afmt, c, print, hscan, -⟩ := parse_ok hparse
    obtain ⟨hrest, hlt⟩ := mem_of_scan hscan
      (List.mem_of_ne_of_mem (by decide) hnul)
    exact ⟨hrest, Nat.lt_succ_of_lt hlt⟩

theorem reaches_run {p q : List Byte × BitVec 32 × PrintState σ}
    (h : Relation.ReflTransGen (LoopStep strnlen mem) p q) (hnul : 0#8 ∈ p.1) {fuel : Nat}
    (hfuel : p.1.length ≤ fuel) : 0#8 ∈ q.1 ∧ ∃ left, q.1.length ≤ left ∧
      vfprintfLoop strnlen mem fuel p.1 p.2.1 p.2.2 =
        vfprintfLoop strnlen mem left q.1 q.2.1 q.2.2 := by
  induction h with
  | refl => exact ⟨hnul, fuel, hfuel, rfl⟩
  | tail _ hstep ih =>
    obtain ⟨hmem, left, hleft, hrun⟩ := ih
    obtain ⟨hrest, hlt⟩ := loopStep_length hstep hmem
    obtain ⟨left, rfl⟩ := Nat.exists_eq_succ_of_ne_zero (by omega : left ≠ 0)
    exact ⟨hrest, left, by omega, hrun.trans (loopStep_run hstep left)⟩

theorem vfprintf_of_rejected {fmt text : List Byte} {s t : PrintState σ}
    (h : ReachesSpec strnlen mem fmt s text t) (hnul : 0#8 ∈ fmt)
    (hrejected : Rejected strnlen mem text t) :
    ∃ s', vfprintf strnlen mem fmt s = .ok eof s' := by
  obtain ⟨written, hreaches⟩ := h
  obtain ⟨s', herror⟩ := hrejected
  obtain ⟨-, left, hleft, hrun⟩ := reaches_run hreaches hnul (Nat.le_refl _)
  rw [List.length_cons] at hleft
  obtain ⟨left, rfl⟩ := Nat.exists_eq_succ_of_ne_zero (by omega : left ≠ 0)
  dsimp only at hrun
  rw [Nat.succ_eq_add_one, vfprintfLoop_percent, bind_error herror] at hrun
  exact ⟨s', by rw [vfprintf, hrun]⟩

theorem padString_forever {chars : Int} (hchars : chars < -128) (fuel : Nat) (width : BitVec 8)
    (precision : BitVec 32) (printed : Int) {io : Stdio σ} (hio : io.Accepts)
    (args : List (BitVec 64)) : ∃ s,
      (padString chars fuel width precision printed : PrintM σ _) ⟨io, args⟩ =
        .error .outOfFuel s := by
  have hwidth := fun width : BitVec 8 => width.le_toInt
  induction fuel generalizing width precision printed io with
  | zero =>
    have hlt := hwidth width
    refine ⟨⟨io, args⟩, ?_⟩
    rw [padString, if_pos (by omega)]
    rfl
  | succ fuel ih =>
    have hlt := hwidth width
    have hput : Prints (fputcE (ch ' ').toInt : PrintM σ Int) args args _ _ :=
      prints_fputcE (by decide)
    obtain ⟨io', hrun, hio', -⟩ := hput io hio
    rw [padString, if_pos (by omega), bind_ok hrun]
    exact ih _ _ _ hio'

def longString : ByteMemory := fun a => if a.toNat < 2 ^ 31 then ch 'a' else 0#8

theorem longString_at : StringAt longString 0#64 (2 ^ 31) := by
  constructor
  · intro i hi
    rw [BitVec.zero_add, longString, BitVec.toNat_ofNat, Nat.mod_eq_of_lt (by omega), if_pos hi]
    decide
  · decide

theorem toInt_count_longString (hlinked : LinkedStrnlen strnlen) {max : BitVec 32}
    (hmax : max.toInt < 0) :
    ((strnlen longString 0#64 (max.signExtend 64)).setWidth 32).toInt < -128 := by
  have hmsb : max.msb = true := by
    rw [BitVec.msb_eq_toInt]
    simpa using hmax
  have hlarge : 2 ^ 31 + 1 < (max.signExtend 64).toNat := by
    have hle := max.toNat_lt_of_msb_false
    rw [BitVec.toNat_signExtend, if_pos hmsb]
    omega
  have hbounds := hlinked.counts longString 0#64 (max.signExtend 64)
  have hsucc := @LinkedStrnlen.le_succ _ longString hlinked 0#64 (max.signExtend 64)
  rw [longString_at.before_eq, Nat.min_eq_right (by omega)] at hbounds hsucc
  rw [BitVec.toInt_eq_toNat_cond, BitVec.toNat_setWidth, Nat.mod_eq_of_lt (by omega),
    if_neg (by omega)]
  omega

theorem printString_forever (hlinked : LinkedStrnlen strnlen)
    (hpads : PadsBelowZero afmt (ch 's')) {io : Stdio σ} (hio : io.Accepts)
    (args : List (BitVec 64)) : ∃ s,
      (printString strnlen longString afmt : PrintM σ Int) ⟨io, 0#64 :: args⟩ =
        .error .outOfFuel s := by
  obtain ⟨-, hwidth, hhas, hprecision⟩ := hpads
  have hchars := toInt_count_longString hlinked hprecision
  obtain ⟨s, hpad⟩ := @padString_forever σ _ hchars 255 afmt.width afmt.precision 0 io hio args
  refine ⟨s, ?_⟩
  have harg : (vaArg : PrintM σ _) ⟨io, 0#64 :: args⟩ = .ok 0#64 ⟨io, args⟩ := rfl
  unfold printString
  rw [bind_ok harg]
  simp only [hhas, if_true, hwidth]
  exact bind_error hpad

theorem lengthModifier_of_known (h : -2 ≤ afmt.length.toInt ∧ afmt.length.toInt ≤ 2) :
    ∃ length : LengthModifier, afmt.length = length.code := by
  have hall : ∀ length : BitVec 8, -2 ≤ length.toInt ∧ length.toInt ≤ 2 →
      length = LengthModifier.hh.code ∨ length = LengthModifier.h.code ∨
      length = LengthModifier.none.code ∨ length = LengthModifier.l.code ∨
      length = LengthModifier.ll.code := by decide
  rcases hall _ h with h | h | h | h | h <;> exact ⟨_, h⟩

theorem prints_number_zero (h : -2 ≤ afmt.length.toInt ∧ afmt.length.toInt ≤ 2)
    (conversion : NumberConversion) (args : List (BitVec 64)) : ∃ out n,
      Prints (printNumber conversion afmt : PrintM σ Int) (0#64 :: args) args out n := by
  obtain ⟨length, hlength⟩ := lengthModifier_of_known h
  have hwidth : afmt.width = BitVec.ofNat 8 afmt.width.toNat := by simp
  cases conversion with
  | d | i => exact ⟨_, _, prints_printSigned hwidth hlength (by simp)⟩
  | u => exact ⟨_, _, prints_printUnsigned hwidth hlength (by simp)⟩
  | x => exact ⟨_, _, prints_printHex hwidth hlength (by simp)⟩

theorem Prints.bind_exists {α β : Type} {m : PrintM σ α} {f : α → PrintM σ β} {a : α}
    {args args' args'' : List (BitVec 64)} {out : List Byte} (hm : Prints m args args' out a)
    (hf : ∃ out b, Prints (f a) args' args'' out b) :
    ∃ out b, Prints (m >>= f) args args'' out b := by
  obtain ⟨out', b, hf⟩ := hf
  exact ⟨_, b, hm.bind hf⟩

theorem prints_string_any (hcounts : CountsString strnlen)
    (hpads : ¬ PadsBelowZero afmt (ch 's')) (str : Uintptr) (args : List (BitVec 64)) : ∃ out n,
      Prints (printString strnlen mem afmt : PrintM σ Int) (str :: args) args out n := by
  -- whatever its length is as an `int`, the string itself is taken by the writer
  have hbytes : ∀ (chars : BitVec 32) (precision : BitVec 32) (printed : Int), ∃ out n,
      Prints (do
        let n ← fwriteE (fun i => mem (str + BitVec.ofNat 64 i))
          (if afmt.hasPrecision ∧ precision.toInt < chars.toInt then precision.toInt
            else chars.toInt)
        return printed + n : PrintM σ Int) args args out n := by
    intro chars precision printed
    have hmin := chars.le_toInt
    have hmin' := precision.le_toInt
    have hlt := chars.toInt_lt
    refine ⟨_, _, Sends.add (sends_fwriteE grows_delivered _ ?_ ?_) printed⟩
    · split <;> omega
    · split <;> omega
  generalize hmax : (if afmt.hasPrecision then afmt.precision else intMax) = max
  generalize hchars : (strnlen mem str (max.signExtend 64)).setWidth 32 = chars
  by_cases hw : 0 < afmt.width.toInt
  · have hnonneg : 0 ≤ chars.toInt := by
      rw [← hchars]
      apply (toInt_count_bounds hcounts _ mem str).1
      rw [← hmax]
      split
      · rename_i hhas
        exact Int.not_lt.mp fun hneg => hpads ⟨rfl, hw, hhas, hneg⟩
      · decide
    obtain ⟨k, hk⟩ := Int.eq_ofNat_of_zero_le hnonneg
    have hlt := afmt.width.toInt_lt
    have hfuel : fieldColumns afmt.width - k ≤ 255 := by
      unfold fieldColumns
      omega
    have hpad : Prints (padString k 255 afmt.width afmt.precision 0 : PrintM σ _) args args _ _ :=
      prints_padString k 255 afmt.width afmt.precision 0 hfuel
    apply (prints_vaArg str args).bind_exists
    simp only [hmax, hchars, hw, if_true]
    rw [← hk] at hpad
    exact hpad.bind_exists (hbytes chars _ _)
  · apply (prints_vaArg str args).bind_exists
    simp only [hmax, hchars, hw, if_false]
    exact (prints_pure (0, afmt.precision)).bind_exists (hbytes chars _ _)

theorem prints_convert (hcounts : CountsString strnlen) (hlength : ¬ RejectsLength afmt c)
    (hpads : ¬ PadsBelowZero afmt c) {print : PrintM σ Int}
    (hprint : convert strnlen mem afmt c = some print) :
    ∃ k ≤ 1, ∀ args, ∃ out n, Prints print (List.replicate k 0#64 ++ args) args out n := by
  have hlong : -2 ≤ (2#8).toInt ∧ (2#8).toInt ≤ 2 := by decide
  have hput : ∀ {c : Byte}, c ≠ 0xff#8 → ∃ k ≤ 1, ∀ args, ∃ out n,
      Prints (fputcE c.toInt : PrintM σ Int) (List.replicate k 0#64 ++ args) args out n :=
    fun hc => ⟨0, by omega, fun _ => ⟨_, _, prints_fputcE hc⟩⟩
  revert hlength hpads
  refine convert_elim (P := fun c print => ¬ RejectsLength afmt c → ¬ PadsBelowZero afmt c →
    ∃ k ≤ 1, ∀ args, ∃ out n, Prints print (List.replicate k 0#64 ++ args) args out n)
      ?_ ?_ ?_ ?_ ?_ ?_ hprint
  · intro conversion hlength hpads
    exact ⟨1, Nat.le_refl 1, prints_number_zero (length_known hlength) conversion⟩
  · intro hlength hpads
    exact ⟨1, Nat.le_refl 1, fun _ => ⟨_, _, prints_printChar (by decide)⟩⟩
  · intro hlength hpads
    exact ⟨1, Nat.le_refl 1, prints_string_any hcounts hpads 0#64⟩
  · intro hlength hpads
    exact ⟨1, Nat.le_refl 1, prints_number_zero hlong .x⟩
  · intro hlength hpads
    exact hput (by decide)
  · intro c hlength hpads
    exact hput (by decide)

/-- With zeros for arguments a run over the long string comes to every conversion, and does not
get past one that pads below zero. -/
theorem vfprintfLoop_forever (hlinked : LinkedStrnlen strnlen) {fmt mods : List Byte}
    (hcomes : ComesTo fmt mods c) (hc : c = ch 's') (hpads : PadsForever mods) {fuel n : Nat}
    (hfuel : fmt.length ≤ fuel) (hn : fmt.length ≤ n) (written : BitVec 32) {io : Stdio σ}
    (hio : io.Accepts) : ∃ s,
      (vfprintfLoop strnlen longString fuel fmt written : PrintM σ Int)
        ⟨io, List.replicate n 0#64⟩ = .error .outOfFuel s := by
  induction hcomes generalizing fuel n written io with
  | @here mods rest c hmods hmem =>
    subst hc
    rw [List.length_cons] at hfuel hn
    obtain ⟨fuel, rfl⟩ := Nat.exists_eq_succ_of_ne_zero (by omega : fuel ≠ 0)
    obtain ⟨n, rfl⟩ := Nat.exists_eq_succ_of_ne_zero (by omega : n ≠ 0)
    obtain ⟨afmt, hread, hscan⟩ := scan_text hmods hmem
    obtain ⟨print, hprint, hparse⟩ := @parse_call σ strnlen longString _ _ _ _ _ _ (hscan rest)
    obtain ⟨s, hrun⟩ := printString_forever hlinked (hread.pads_iff.mpr hpads) hio
      (List.replicate n 0#64)
    cases hprint
    rw [Nat.succ_eq_add_one, vfprintfLoop_percent, hparse]
    exact ⟨s, bind_error (bind_error hrun)⟩
  | @ordinary d c fmt mods hnul heof hpercent hcomes ih =>
    rw [List.length_cons] at hfuel hn
    obtain ⟨fuel, rfl⟩ := Nat.exists_eq_succ_of_ne_zero (by omega : fuel ≠ 0)
    have hput : Prints (fputcE d.toInt : PrintM σ Int) (List.replicate n 0#64) _ _ _ :=
      prints_fputcE heof
    obtain ⟨io', hrun, hio', -⟩ := hput io hio
    rw [vfprintfLoop, if_neg hnul, if_pos hpercent, bind_ok hrun]
    exact ih hc hpads (by omega) (by omega) _ hio'
  | @behind first rest mods d c hfirst hd hlength hcomes ih =>
    rw [List.length_cons, List.length_append, List.length_cons] at hfuel hn
    obtain ⟨fuel, rfl⟩ := Nat.exists_eq_succ_of_ne_zero (by omega : fuel ≠ 0)
    obtain ⟨afmt, hread, hscan⟩ := scan_text hfirst hd
    obtain ⟨print, hprint, hparse⟩ := @parse_call σ strnlen longString _ _ _ _ _ _ (hscan rest)
    rw [Nat.succ_eq_add_one, vfprintfLoop_percent, hparse]
    by_cases hbelow : PadsBelowZero afmt d
    · obtain ⟨n, rfl⟩ := Nat.exists_eq_succ_of_ne_zero (by omega : n ≠ 0)
      obtain rfl := hbelow.1
      obtain ⟨s, hrun⟩ := printString_forever hlinked hbelow hio (List.replicate n 0#64)
      cases hprint
      exact ⟨s, bind_error (bind_error hrun)⟩
    · obtain ⟨k, hk, hprints⟩ := prints_convert hlinked.counts
        (mt (hread.rejects_iff d).mp hlength) hbelow hprint
      obtain ⟨out, value, hprints⟩ := hprints (List.replicate (n - k) 0#64)
      rw [List.replicate_append_replicate, Nat.add_sub_cancel' (by omega)] at hprints
      obtain ⟨io', hrun, hio', -⟩ := hprints io hio
      have hrest : (do
          let n ← print
          return (n, rest)) ⟨io, List.replicate n 0#64⟩ =
            .ok (value, rest) ⟨io', List.replicate (n - k) 0#64⟩ := bind_ok hrun
      rw [bind_ok hrest]
      exact ih hc hpads (by omega) (by omega) _ hio'

/-- The format is read to an end, and not behind its null byte; the specifications that a run comes
to are rejected if they are malformed, and then `EOF` is returned. -/
structure FormatHandled (strnlen : ByteMemory → Uintptr → Size → Size) (fmt : List Byte) :
    Prop where
  terminates : ∀ {σ : Type} mem (s s' : PrintState σ),
    vfprintf strnlen mem fmt s ≠ .error .outOfFuel s'
  inside : ∀ {σ : Type} mem (s s' : PrintState σ),
    vfprintf strnlen mem fmt s ≠ .error .pastEnd s'
  rejects : ∀ {σ : Type} mem (s t : PrintState σ) text, ReachesSpec strnlen mem fmt s text t →
    (leadingModifiers text).countP (· ∈ lengthModifiers) ≤ 127 →
      (Rejected strnlen mem text t ↔ ¬ WellFormedSpec text)
  returnsEof : ∀ {σ : Type} mem (s t : PrintState σ) text, ReachesSpec strnlen mem fmt s text t →
    Rejected strnlen mem text t → ∃ s', vfprintf strnlen mem fmt s = .ok eof s'

theorem vfprintf_error {fmt : List Byte} {s s' : PrintState σ} {e : Stop}
    (h : vfprintf strnlen mem fmt s = .error e s') :
    vfprintfLoop strnlen mem fmt.length fmt 0#32 s = .error e s' := by
  unfold vfprintf at h
  split at h
  · cases h
  · exact h

/-- Exactly the formats are handled in which no string is padded with a precision below zero, be it
behind a byte or a specification that a run does not get past. -/
theorem vfprintf_handles_format (hlinked : LinkedStrnlen strnlen) (body : List Byte) :
    FormatHandled strnlen (body ++ [0#8]) ↔
      ∀ mods, ComesTo (body ++ [0#8]) mods (ch 's') → ¬ PadsForever mods := by
  have hnul : 0#8 ∈ body ++ [0#8] := by simp
  generalize body ++ [0#8] = fmt at hnul
  constructor
  · intro h mods hcomes hpads
    obtain ⟨s, hrun⟩ := vfprintfLoop_forever hlinked hcomes rfl hpads (Nat.le_refl _)
      (Nat.le_refl _) 0#32 collector_accepts
    apply h.terminates longString ⟨collector, List.replicate fmt.length 0#64⟩ s
    rw [vfprintf, hrun]
  · intro h
    have hregular : ∀ {σ : Type} mem (s s' : PrintState σ) e,
        vfprintf strnlen mem fmt s = .error e s' → e.Regular := by
      intro σ mem s s' e he
      exact raises_vfprintfLoop hlinked.counts hnul (Nat.le_refl _) h 0#32 s e s'
        (vfprintf_error he)
    constructor
    · intro σ mem s s' he
      simpa [Stop.Regular] using hregular mem s s' _ he
    · intro σ mem s s' he
      simpa [Stop.Regular] using hregular mem s s' _ he
    · intro σ mem s t text hreaches hcount
      obtain ⟨written, hreaches⟩ := hreaches
      have hmem := (reaches_run hreaches hnul (Nat.le_refl _)).1
      exact parse_rejects_iff hlinked.counts (List.mem_of_ne_of_mem (by decide) hmem) hcount t
    · intro σ mem s t text hreaches hrejected
      exact vfprintf_of_rejected hreaches hnul hrejected

def truncatedFormat : List Byte := [ch 'x', ch '%', ch 'h', ch 'h', ch 'd', ch '%', ch 'l']

theorem vfprintf_handles_format_example :
    FormatHandled Ukulele.strnlen (truncatedFormat ++ [0#8]) := by
  refine (vfprintf_handles_format .c truncatedFormat).mpr ?_
  intro mods hcomes
  exact absurd hcomes.mem (by decide)

/-- The modifiers of `%1.2147483648s`. The precision is -2^31 as an `int`. -/
def endlessModifiers : List Byte :=
  [ch '1', ch '.', ch '2', ch '1', ch '4', ch '7', ch '4', ch '8', ch '3', ch '6', ch '4', ch '8']

def endlessFormat : List Byte := ch '%' :: (endlessModifiers ++ [ch 's'])

def endlessSpecifier : FmtSpecifier := ⟨0x80000000#32, 1#8, 0#8, false, true⟩

/-- With a string of 2^31 bytes the loop that pads goes on for any number of rounds. -/
theorem vfprintf_pads_forever : ¬ FormatHandled Ukulele.strnlen (endlessFormat ++ [0#8]) ∧
    scan emptySpecifier .flag (endlessModifiers ++ [ch 's', 0#8]) =
      .call endlessSpecifier (ch 's') [0#8] ∧
    ∀ fuel, ∃ s, padString ((Ukulele.strnlen longString 0#64
        (endlessSpecifier.precision.signExtend 64)).setWidth 32).toInt fuel
          endlessSpecifier.width endlessSpecifier.precision 0 ⟨collector, []⟩ =
            .error .outOfFuel s := by
  have hscan : scan emptySpecifier .flag (endlessModifiers ++ [ch 's', 0#8]) =
      .call endlessSpecifier (ch 's') [0#8] := by decide
  refine ⟨?_, hscan, ?_⟩
  · intro h
    have hcomes : ComesTo (endlessFormat ++ [0#8]) endlessModifiers (ch 's') :=
      @ComesTo.here endlessModifiers [0#8] (ch 's') (by decide) (by decide)
    have hforever : PadsForever endlessModifiers := by decide
    obtain ⟨s, hrun⟩ := vfprintfLoop_forever .c hcomes rfl hforever (Nat.le_refl _)
      (Nat.le_refl _) 0#32 collector_accepts
    apply h.terminates longString _ s
    rw [vfprintf, hrun]
  · intro fuel
    have hbelow : endlessSpecifier.precision.toInt < 0 := by decide
    have hchars := toInt_count_longString .c hbelow
    exact padString_forever hchars fuel _ _ 0 collector_accepts []

end Ukulele
