import Ukulele.VfprintfNumerals

/-! Streams whose writer fails. The run is compared with one on a stream whose writer takes
everything: they do the same up to the first call that fails, which is the last one.
-/

set_option autoImplicit false

namespace Ukulele
open ByteRange Faults

variable {σ α : Type} {strnlen : ByteMemory → Uintptr → Size → Size} {mem : ByteMemory}

def Stdio.Bounded (io : Stdio σ) : Prop :=
  ∃ stream write, io.stream = some stream ∧ stream.writer = some write ∧ MayFail write

def Complete (call : List Byte × Int) : Prop := call.2 = (call.1.length : Int)

def accepted (calls : List (List Byte × Int)) : List Byte :=
  calls.flatMap fun call => call.1.take call.2.toNat

section Calls

-- the calls before the two runs
variable {before before' : List (List Byte × Int)} {s t : PrintState σ}

/-- Both writers have been called with the same bytes, and have taken all of them. -/
structure SameCalls (before before' : List (List Byte × Int)) (s t : PrintState σ) : Prop where
  args : s.args = t.args
  bounded : s.io.Bounded
  accepts : t.io.Accepts
  calls : ∃ made, s.io.calls = before ++ made ∧ t.io.calls = before' ++ made ∧
    ∀ call ∈ made, Complete call

/-- The last call of the first run has failed, and the second run has gone on. -/
structure Stopped (before before' : List (List Byte × Int)) (s t : PrintState σ) : Prop where
  accepts : t.io.Accepts
  calls : ∃ made buf n later, s.io.calls = before ++ (made ++ [(buf, n)]) ∧
    t.io.calls = before' ++ (made ++ (buf, (buf.length : Int)) :: later) ∧
    (∀ call ∈ made, Complete call) ∧ n < (buf.length : Int)

theorem fwrite_ahead (h : Stopped before before' s t) (buffer : Nat → Byte) (count : Size) :
    Stopped before before' s { t with io := (fwrite buffer 1#64 count t.io).2 } := by
  obtain ⟨made, buf, n, later, hs, ht, hmade, hn⟩ := h.calls
  obtain ⟨io, hrun, haccepts, hcalls⟩ := fwrite_calls h.accepts buffer count
  obtain ⟨more, hmore⟩ : ∃ more, io.calls = t.io.calls ++ more := ⟨_, hcalls⟩
  rw [hrun]
  refine ⟨haccepts, made, buf, n, later ++ more, hs, ?_, hmade, hn⟩
  rw [hmore, ht, List.append_assoc, List.append_assoc, List.cons_append]

theorem fwrite_inStep (h : SameCalls before before' s t) (buffer : Nat → Byte) (count : Size) :
    ∃ n io io', fwrite buffer 1#64 count s.io = (n, io) ∧
      fwrite buffer 1#64 count t.io = (count, io') ∧
      (n = count ∧ SameCalls before before' { s with io := io } { t with io := io' } ∨
        n.toNat < count.toNat ∧
          Stopped before before' { s with io := io } { t with io := io' }) := by
  obtain ⟨made, hs, ht, hmade⟩ := h.calls
  obtain ⟨stream, write, hstream, hwriter, hmay⟩ := h.bounded
  obtain ⟨io', hrun', haccepts, hcalls'⟩ := fwrite_calls h.accepts buffer count
  have hone : 1#64 * count = count := BitVec.one_mul count
  by_cases hz : count = 0#64
  · subst hz
    refine ⟨_, _, io', fwrite_nothing hstream hwriter buffer hone, hrun', Or.inl ⟨rfl, h.args, ?_,
      haccepts, made, hs, ?_, hmade⟩⟩
    · exact ⟨stream, write, hstream, hwriter, hmay⟩
    · rw [hcalls', ht]
      simp
  · obtain ⟨io, error, hrun, hstream', hcalls⟩ :=
      fwrite_call hstream hwriter buffer (by rwa [hone]) rfl
    rw [if_neg hz] at hcalls'
    rw [hone] at hrun hcalls
    have hmax := hmay stream.cookie ((List.range count.toNat).map buffer)
    generalize hbuf : (List.range count.toNat).map buffer = buf at hrun hcalls hcalls' hmax
    have hlen : buf.length = count.toNat := by simp [← hbuf]
    have hlt := count.isLt
    have hpos : count.toNat ≠ 0 := fun hn => hz (BitVec.eq_of_toNat_eq hn)
    generalize (write stream.cookie buf).1 = k at hrun hcalls hmax
    refine ⟨_, io, io', hrun, hrun', ?_⟩
    by_cases hk : k = (count.toNat : Int)
    · refine Or.inl ⟨?_, h.args, ⟨_, write, hstream', rfl, hmay⟩, haccepts, made ++ [(buf, k)], ?_,
        ?_, ?_⟩
      · rw [hk, Int.toNat_natCast, BitVec.ofNat_toNat, BitVec.setWidth_eq]
      · rw [hcalls, hs, List.append_assoc]
      · rw [hcalls', ht, hk, List.append_assoc]
      · intro call hcall
        rcases List.mem_append.mp hcall with hcall | hcall
        · exact hmade call hcall
        · rw [List.mem_singleton.mp hcall, Complete, hlen]
          exact hk
    · refine Or.inr ⟨?_, haccepts, made, buf, k, [], ?_, ?_, hmade, by omega⟩
      · rw [BitVec.toNat_ofNat, Nat.mod_eq_of_lt (by omega)]
        omega
      · rw [hcalls, hs, List.append_assoc]
      · rw [hcalls', ht, hlen, List.append_assoc]

end Calls

/-- The computation does the same on both streams until a call fails, and then ends in the jump. -/
abbrev StopsAtFailure (before before' : List (List Byte × Int)) (m : PrintM σ α) : Prop :=
  Tracks (SameCalls before before') (Stopped before before') (fun e => e = .error 1) m

section Printers

variable {before before' : List (List Byte × Int)}

theorem tracks_vaArg : StopsAtFailure before before' (vaArg : PrintM σ _) := by
  constructor
  · intro s t h
    have hargs := h.args
    unfold vaArg
    rw [hargs]
    cases ha : t.args with
    | nil => exact .error h
    | cons arg args => exact .ok ⟨rfl, h.bounded, h.accepts, h.calls⟩
  · intro s t h
    unfold vaArg
    cases t.args with
    | nil => exact h
    | cons arg args => exact ⟨h.accepts, h.calls⟩

theorem tracks_fwriteE (c : Nat → Byte) {len : Int} (hmin : 0 ≤ len) (hmax : len < 2 ^ 31) :
    StopsAtFailure before before' (fwriteE c len : PrintM σ Int) := by
  have hcount : ((BitVec.ofInt 64 len).toNat : Int) = len := by
    rw [BitVec.toNat_ofInt]
    omega
  have hint : ∀ n : Size, n.toNat ≤ (BitVec.ofInt 64 len).toNat →
      (n.setWidth 32).toInt = (n.toNat : Int) := by
    intro n hn
    rw [BitVec.toInt_eq_toNat_cond, BitVec.toNat_setWidth]
    split <;> omega
  constructor
  · intro s t h
    obtain ⟨n, io, io', hrun, hrun', hstep⟩ := fwrite_inStep h c (BitVec.ofInt 64 len)
    simp only [fwriteE, hrun, hrun']
    rw [hint _ (Nat.le_refl _), hcount, if_neg (Int.lt_irrefl len)]
    rcases hstep with ⟨rfl, hsame⟩ | ⟨hlt, hstopped⟩
    · rw [hint _ (Nat.le_refl _), hcount, if_neg (Int.lt_irrefl len)]
      exact .ok hsame
    · rw [hint n (Nat.le_of_lt hlt), if_pos (by omega)]
      exact .stopped rfl hstopped
  · intro s t h
    have hnext := fwrite_ahead h c (BitVec.ofInt 64 len)
    unfold fwriteE
    dsimp only
    split <;> exact hnext

theorem finalState_fputcE (c : Int) (s : PrintState σ) : finalState (fputcE c s) =
    { s with io := (fwrite (fun _ => BitVec.ofInt 8 c) 1#64 1#64 s.io).2 } := by
  have hio : (fputc c s.io).2 = (fwrite (fun _ => BitVec.ofInt 8 c) 1#64 1#64 s.io).2 := rfl
  rw [← hio]
  unfold fputcE
  dsimp only
  split <;> rfl

theorem tracks_fputcE (c : Int) : StopsAtFailure before before' (fputcE c : PrintM σ Int) := by
  constructor
  · intro s t h
    obtain ⟨n, io, io', hrun, hrun', hstep⟩ := fwrite_inStep h (fun _ => BitVec.ofInt 8 c) 1#64
    rcases hstep with ⟨rfl, hsame⟩ | ⟨hlt, hstopped⟩
    · simp only [fputcE, fputc, hrun, hrun']
      by_cases hc : c = eof
      · simp only [hc, ite_self, if_true]
        exact .error hsame
      · simp only [ne_eq, BitVec.reduceEq, not_false_eq_true, if_true, hc, if_false]
        exact .ok hsame
    · have hz : n = 0#64 := BitVec.eq_of_toNat_eq (by simpa using hlt)
      have hfails : fputcE c s = .error (.error 1) { s with io := io } := by
        simp [fputcE, fputc, hrun, hz]
      rw [hfails]
      apply InStep.stopped
      · rfl
      · rwa [finalState_fputcE, hrun']
  · intro s t h
    rw [finalState_fputcE]
    exact fwrite_ahead h _ _

theorem tracks_padLoop (pad : Byte) (digits : Int) (fuel : Nat) (width : BitVec 8)
    (printed : Int) :
    StopsAtFailure before before' (padLoop pad digits fuel width printed : PrintM σ Int) := by
  induction fuel generalizing width printed with
  | zero =>
    unfold padLoop
    split
    · exact tracks_throw _
    · exact tracks_pure _
  | succ fuel ih =>
    unfold padLoop
    split
    · exact (tracks_fputcE _).bind fun _ => ih _ _
    · exact tracks_pure _

theorem tracks_padTo (afmt : FmtSpecifier) (pad : Byte) (digits printed : Int) :
    StopsAtFailure before before' (padTo afmt pad digits printed : PrintM σ Int) := by
  unfold padTo
  split
  · exact tracks_padLoop _ _ _ _ _
  · exact tracks_pure _

theorem tracks_printNum (digitChar : Nat → Byte) {base : BitVec 64} (hbase : 10 ≤ base.toNat)
    (value : BitVec 64) :
    StopsAtFailure before before' (printNum digitChar base value : PrintM σ Int) := by
  have hlen := numeral_length_le hbase value
  rw [← digitCount_eq (by omega)] at hlen
  unfold printNum
  dsimp only
  split
  · exact tracks_throw _
  · exact tracks_fwriteE _ (by omega) (by omega)

theorem tracks_wordArg (extend : BitVec 32 → BitVec 64) (afmt : FmtSpecifier) :
    StopsAtFailure before before' (wordArg extend afmt : PrintM σ _) := by
  unfold wordArg
  dsimp only
  split
  · exact tracks_vaArg.bind fun _ => tracks_pure _
  · split
    · exact tracks_vaArg
    · exact tracks_throw _

theorem tracks_printUnsigned (afmt : FmtSpecifier) :
    StopsAtFailure before before' (printUnsigned afmt : PrintM σ Int) :=
  (tracks_wordArg _ afmt).bind fun _ => (tracks_padTo _ _ _ _).bind fun _ =>
    (tracks_printNum _ (by decide) _).bind fun _ => tracks_pure _

theorem tracks_printHex (afmt : FmtSpecifier) :
    StopsAtFailure before before' (printHex afmt : PrintM σ Int) :=
  (tracks_wordArg _ afmt).bind fun _ => (tracks_padTo _ _ _ _).bind fun _ =>
    (tracks_printNum _ (by decide) _).bind fun _ => tracks_pure _

theorem tracks_printMagnitude (afmt : FmtSpecifier) (value : BitVec 64) (printed : BitVec 8) :
    StopsAtFailure before before' (printMagnitude afmt value printed : PrintM σ Int) := by
  have hrest : ∀ printed : Int, StopsAtFailure before before' (do
      let n ← printNum10 value
      return printed + n : PrintM σ Int) := by
    intro printed
    exact (tracks_printNum _ (by decide) value).bind fun _ => tracks_pure _
  unfold printMagnitude
  split
  · exact (tracks_padLoop _ _ _ _ _).bind hrest
  · exact (tracks_pure _).bind hrest

theorem tracks_printSigned (afmt : FmtSpecifier) :
    StopsAtFailure before before' (printSigned afmt : PrintM σ Int) := by
  apply (tracks_wordArg _ afmt).bind
  intro value
  split
  · exact (tracks_fputcE _).bind fun _ => tracks_printMagnitude _ _ _
  · exact tracks_printMagnitude _ _ _

theorem tracks_padString (chars : Int) (fuel : Nat) (width : BitVec 8) (precision : BitVec 32)
    (printed : Int) :
    StopsAtFailure before before' (padString chars fuel width precision printed : PrintM σ _) := by
  induction fuel generalizing width precision printed with
  | zero =>
    unfold padString
    split
    · exact tracks_throw _
    · exact tracks_pure _
  | succ fuel ih =>
    unfold padString
    split
    · exact (tracks_fputcE _).bind fun _ => ih _ _ _
    · exact tracks_pure _

/-- No precision is below zero or comes with a width: the length of the string is not below
zero. -/
def PrecisionFits (afmt : FmtSpecifier) : Prop :=
  afmt.hasPrecision → afmt.width.toInt ≤ 0 ∧ 0 ≤ afmt.precision.toInt

theorem tracks_printString (hcounts : CountsString strnlen) {afmt : FmtSpecifier}
    (hfits : PrecisionFits afmt) :
    StopsAtFailure before before' (printString strnlen mem afmt : PrintM σ Int) := by
  apply tracks_vaArg.bind
  intro str
  dsimp only
  have hmax : 0 ≤ (if afmt.hasPrecision then afmt.precision else intMax).toInt := by
    split
    · exact (hfits ‹_›).2
    · decide
  obtain ⟨hmin, hle⟩ := toInt_count_bounds hcounts hmax mem str
  generalize ((strnlen mem str _).setWidth 32).toInt = chars at hmin hle
  have hlt := (if afmt.hasPrecision then afmt.precision else intMax).toInt_lt
  have hbytes : ∀ printed : Int, StopsAtFailure before before' (do
      let n ← fwriteE (fun i => mem (str + BitVec.ofNat 64 i)) chars
      return printed + n : PrintM σ Int) := by
    intro printed
    exact (tracks_fwriteE _ hmin (by omega)).bind fun _ => tracks_pure _
  by_cases hw : 0 < afmt.width.toInt
  · have hnone : afmt.hasPrecision = false := by
      by_contra hhas
      have hwidth := (hfits (by simpa using hhas)).1
      omega
    rw [if_pos hw]
    apply (tracks_padString _ _ _ _ _).bind
    intro r
    simp only [hnone, Bool.false_eq_true, false_and, if_false]
    exact hbytes r.1
  · have hnot : ¬ (afmt.hasPrecision ∧ afmt.precision.toInt < chars) := by
      intro h
      rw [if_pos h.1] at hle
      omega
    rw [if_neg hw]
    apply (tracks_pure (0, afmt.precision)).bind_of
    intro s r s' hrun
    cases hrun
    rw [if_neg hnot]
    exact hbytes 0

theorem tracks_convert (hcounts : CountsString strnlen) {afmt : FmtSpecifier} {c : Byte}
    (hfits : c = ch 's' → PrecisionFits afmt) {print : PrintM σ Int}
    (h : convert strnlen mem afmt c = some print) : StopsAtFailure before before' print := by
  have hnumber : ∀ (conversion : NumberConversion) (afmt : FmtSpecifier),
      StopsAtFailure before before' (printNumber conversion afmt : PrintM σ Int) := by
    intro conversion afmt
    cases conversion with
    | d | i => exact tracks_printSigned afmt
    | u => exact tracks_printUnsigned afmt
    | x => exact tracks_printHex afmt
  revert hfits
  refine convert_elim (P := fun c print => (c = ch 's' → PrecisionFits afmt) →
    StopsAtFailure before before' print) ?_ ?_ ?_ ?_ ?_ ?_ h
  · intro conversion hfits
    exact hnumber conversion afmt
  · intro hfits
    exact tracks_vaArg.bind fun _ => tracks_fputcE _
  · intro hfits
    exact tracks_printString hcounts (hfits rfl)
  · intro hfits
    exact hnumber .x _
  · intro hfits
    exact tracks_fputcE _
  · intro c hfits
    exact tracks_fputcE _

theorem tracks_parseFormatStr (hcounts : CountsString strnlen) {fmt : List Byte}
    (hfits : ∀ afmt rest, scan emptySpecifier .flag fmt = .call afmt (ch 's') rest →
      PrecisionFits afmt) :
    StopsAtFailure before before'
      (parseFormatStr strnlen mem emptySpecifier .flag fmt : PrintM σ _) := by
  cases hscan : scan emptySpecifier .flag fmt with
  | call afmt c rest =>
    obtain ⟨print, hprint, hparse⟩ := @parse_call σ strnlen mem _ _ _ _ _ _ hscan
    rw [hparse]
    apply (tracks_convert hcounts _ hprint).bind fun _ => tracks_pure _
    intro hc
    subst hc
    exact hfits afmt rest hscan
  | malformed =>
    rw [parse_malformed hscan]
    exact tracks_throw _
  | pastEnd =>
    rw [parse_pastEnd hscan]
    exact tracks_throw _

/-- No `%s` of the format has a precision with a width, or one beyond an `int`. -/
def StringsFit (fmt : List Byte) : Prop :=
  ∀ mods, ComesTo fmt mods (ch 's') →
    (ch '.' ∈ mods → widthValue mods = 0) ∧ precisionValue mods < 2 ^ 31

theorem SpecRead.precisionFits {mods : List Byte} {afmt : FmtSpecifier} (h : SpecRead mods afmt)
    (hwidth : ch '.' ∈ mods → widthValue mods = 0) (hprecision : precisionValue mods < 2 ^ 31) :
    PrecisionFits afmt := by
  intro hhas
  have hlt : precisionValue mods < 2 ^ 32 := by omega
  rw [h.hasPrecision, List.contains_iff_mem] at hhas
  rw [h.width, hwidth hhas, h.precision, BitVec.toInt_eq_toNat_cond, BitVec.toInt_eq_toNat_cond,
    BitVec.toNat_ofNat, BitVec.toNat_ofNat, Nat.mod_eq_of_lt hlt]
  exact ⟨by decide, by omega⟩

theorem tracks_vfprintfLoop (hcounts : CountsString strnlen) {fuel : Nat} {fmt : List Byte}
    (hfits : StringsFit fmt) (written : BitVec 32) :
    StopsAtFailure before before' (vfprintfLoop strnlen mem fuel fmt written : PrintM σ Int) := by
  induction fuel generalizing fmt written with
  | zero => exact tracks_throw _
  | succ fuel ih =>
    cases fmt with
    | nil => exact tracks_throw _
    | cons c fmt =>
      unfold vfprintfLoop
      split
      · exact tracks_pure _
      · rename_i hnul
        split
        · rename_i hc
          by_cases heof : c = 0xff#8
          · subst heof
            exact (tracks_fputcE _).bind_of_fails fails_fputcE_eof
          · exact (tracks_fputcE _).bind fun _ =>
              ih (fun mods h => hfits mods (.ordinary hnul heof hc h)) _
        · rename_i hc
          obtain rfl : c = ch '%' := not_not.mp hc
          have hparse : StopsAtFailure before before'
              (parseFormatStr strnlen mem emptySpecifier .flag fmt : PrintM σ _) := by
            apply tracks_parseFormatStr hcounts
            intro afmt rest hscan
            obtain ⟨mods, rfl, hmods, hs, hread⟩ := text_of_scan hscan
            obtain ⟨hwidth, hprecision⟩ := hfits mods (.here hmods hs)
            exact hread.precisionFits hwidth hprecision
          apply hparse.bind_of
          intro s r s' hrun
          obtain ⟨afmt, c, print, hscan, -, -, hlength⟩ := parse_ok hrun
          obtain ⟨mods, rfl, hmods, hd, hread⟩ := text_of_scan hscan
          rw [hread.rejects_iff] at hlength
          exact ih (fun mods h => hfits mods (.behind hmods hd hlength h)) _

end Printers

theorem Stopped.prefix {before before' : List (List Byte × Int)} {s t : PrintState σ}
    (h : Stopped before before' s t) : ∃ full call made',
      s.io.calls = before ++ (full ++ [call]) ∧ t.io.calls = before' ++ made' ∧
      (∀ c ∈ full, Complete c) ∧ ¬ Complete call ∧
      accepted (full ++ [call]) <+: accepted made' := by
  obtain ⟨made, buf, n, later, hs, ht, hmade, hn⟩ := h.calls
  refine ⟨made, (buf, n), _, hs, ht, hmade, ?_, ?_⟩
  · intro hcomplete
    exact absurd hcomplete (Int.ne_of_lt hn)
  · simp only [accepted, List.flatMap_append, List.flatMap_cons, List.flatMap_nil,
      List.append_nil, Int.toNat_natCast, List.take_length]
    rw [List.prefix_append_right_inj]
    exact (List.take_prefix _ _).trans (List.prefix_append _ _)

theorem vfprintf_inStep (hcounts : CountsString strnlen) {fmt : List Byte}
    (hfits : StringsFit fmt) {io io' : Stdio σ} (hio : io.Bounded)
    (hio' : io'.Accepts) (args : List (BitVec 64)) :
    InStep (SameCalls io.calls io'.calls) (Stopped io.calls io'.calls) (fun e => e = .error 1)
      (vfprintfLoop strnlen mem fmt.length fmt 0#32 ⟨io, args⟩)
      (vfprintfLoop strnlen mem fmt.length fmt 0#32 ⟨io', args⟩) := by
  apply (tracks_vfprintfLoop hcounts hfits 0#32).inStep
  exact ⟨rfl, hio, hio', [], by simp, by simp, by simp⟩

theorem finalState_vfprintf (fmt : List Byte) (s : PrintState σ) :
    finalState (vfprintf strnlen mem fmt s) =
      finalState (vfprintfLoop strnlen mem fmt.length fmt 0#32 s) := by
  unfold vfprintf
  split <;> simp_all [finalState]

theorem failed_last {made full rest : List (List Byte × Int)} {last call : List Byte × Int}
    (hmade : ∀ c ∈ made, Complete c) (h : made ++ [last] = full ++ call :: rest)
    (hcall : ¬ Complete call) : rest = [] ∧ full = made := by
  rcases List.eq_nil_or_concat rest with rfl | ⟨init, x, rfl⟩
  · exact ⟨rfl, (List.append_inj_left' h rfl).symm⟩
  · rw [List.concat_eq_append, ← List.cons_append, ← List.append_assoc] at h
    have hinit := List.append_inj_left' h rfl
    exact absurd (hmade call (by simp [hinit])) hcall

/-- A call that fails is the last one, and `EOF` is returned. What has been taken until then is the
start of what the same call of `vfprintf` delivers to a writer that takes everything. -/
theorem vfprintf_stops_at_failure (hcounts : CountsString strnlen) {fmt : List Byte}
    (hfits : StringsFit fmt) {io io' : Stdio σ} (hio : io.Bounded)
    (hio' : io'.Accepts) (args : List (BitVec 64)) : ∃ made made',
      (finalState (vfprintf strnlen mem fmt ⟨io, args⟩)).io.calls = io.calls ++ made ∧
      (finalState (vfprintf strnlen mem fmt ⟨io', args⟩)).io.calls = io'.calls ++ made' ∧
      accepted made <+: accepted made' ∧
      ∀ full call rest, made = full ++ call :: rest → ¬ Complete call →
        rest = [] ∧ (∀ c ∈ full, Complete c) ∧
          ∃ s, vfprintf strnlen mem fmt ⟨io, args⟩ = .ok eof s := by
  have hstep : InStep _ _ _ (vfprintfLoop strnlen mem fmt.length fmt 0#32 ⟨io, args⟩) _ :=
    vfprintf_inStep hcounts hfits hio hio' args
  -- without a call that failed both runs have made the same calls
  have hsame : ∀ s t : PrintState σ, SameCalls io.calls io'.calls s t → ∃ made made',
      s.io.calls = io.calls ++ made ∧ t.io.calls = io'.calls ++ made' ∧
      accepted made <+: accepted made' ∧
      ∀ full call rest, made = full ++ call :: rest → ¬ Complete call →
        rest = [] ∧ (∀ c ∈ full, Complete c) ∧
          ∃ s, vfprintf strnlen mem fmt ⟨io, args⟩ = .ok eof s := by
    intro s t h
    obtain ⟨made, hs, ht, hmade⟩ := h.calls
    refine ⟨made, made, hs, ht, List.prefix_refl _, ?_⟩
    intro full call rest he hcall
    exact absurd (hmade call (by simp [he])) hcall
  rw [finalState_vfprintf, finalState_vfprintf]
  generalize hrun : vfprintfLoop strnlen mem fmt.length fmt 0#32 ⟨io, args⟩ = r,
    vfprintfLoop strnlen mem fmt.length fmt 0#32 ⟨io', args⟩ = r' at hstep
  cases hstep with
  | ok h => exact hsame _ _ h
  | error h => exact hsame _ _ h
  | @stopped e s _ he h =>
    subst he
    obtain ⟨made, last, made', hs, ht, hmade, -, hprefix⟩ := h.prefix
    refine ⟨made ++ [last], made', hs, ht, hprefix, ?_⟩
    intro full call rest hcalls hcall
    obtain ⟨hrest, hfull⟩ := failed_last hmade hcalls hcall
    refine ⟨hrest, hfull ▸ hmade, s, ?_⟩
    rw [vfprintf, hrun]

def limitedWriter : CookieWrite Nat := fun cookie buf =>
  ((min cookie buf.length : Nat), cookie - buf.length)

def limitedStream (limit : Nat) : Stdio Nat := ⟨some ⟨limit, some limitedWriter, false⟩, .none, []⟩

def countingStream : Stdio Nat :=
  ⟨some ⟨0, some fun cookie buf => ((buf.length : Int), cookie + buf.length), false⟩, .none, []⟩

def exampleFormat : List Byte := [ch 'a', ch '%', ch '4', ch 'd', ch 'c', 0#8]

theorem vfprintf_stops_at_failure_example : ∃ made made',
    (finalState (vfprintf Ukulele.strnlen oneByteString.mem exampleFormat
      ⟨limitedStream 3, [7#64]⟩)).io.calls = made ∧
    (finalState (vfprintf Ukulele.strnlen oneByteString.mem exampleFormat
      ⟨countingStream, [7#64]⟩)).io.calls = made' ∧
    accepted made <+: accepted made' ∧
    ∀ full call rest, made = full ++ call :: rest → ¬ Complete call →
      rest = [] ∧ (∀ c ∈ full, Complete c) ∧
        ∃ s, vfprintf Ukulele.strnlen oneByteString.mem exampleFormat
          ⟨limitedStream 3, [7#64]⟩ = .ok eof s := by
  have hfits : StringsFit exampleFormat := by
    intro mods hcomes
    exact absurd hcomes.mem (by decide)
  have hlimited : (limitedStream 3).Bounded := by
    refine ⟨_, _, rfl, rfl, ?_⟩
    intro cookie buf
    simp only [limitedWriter]
    omega
  have hcounting : countingStream.Accepts := ⟨_, _, rfl, rfl, fun _ _ => rfl⟩
  obtain ⟨made, made', hmade, hmade', hprefix, hlast⟩ := @vfprintf_stops_at_failure _ _
    oneByteString.mem countsString_strnlen _ hfits _ _ hlimited hcounting [7#64]
  exact ⟨made, made', hmade, hmade', hprefix, hlast⟩

end Ukulele
