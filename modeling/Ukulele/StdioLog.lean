import Ukulele.StdioStrings

/-! What a stream is after calls of the library: its writer has been called with buffers that are
not empty, one after the other, and the stream knows whether a call failed.
-/

set_option autoImplicit false

namespace Ukulele
open ByteRange Faults

variable {σ : Type}

def writeAll (write : CookieWrite σ) (cookie : σ) : List (List Byte) → List (List Byte × Int) × σ
  | [] => ([], cookie)
  | buf :: bufs =>
    let first := write cookie buf
    let rest := writeAll write first.2 bufs
    ((buf, first.1) :: rest.1, rest.2)

@[simp] theorem writeAll_nil (write : CookieWrite σ) (cookie : σ) :
    writeAll write cookie [] = ([], cookie) := rfl

@[simp] theorem writeAll_append (write : CookieWrite σ) (cookie : σ) (a b : List (List Byte)) :
    writeAll write cookie (a ++ b) =
      ((writeAll write cookie a).1 ++ (writeAll write (writeAll write cookie a).2 b).1,
        (writeAll write (writeAll write cookie a).2 b).2) := by
  induction a generalizing cookie with
  | nil => rfl
  | cons buf bufs ih => simp [writeAll, ih]

def Failed (call : List Byte × Int) : Prop := call.2 ≤ 0

instance (call : List Byte × Int) : Decidable (Failed call) := inferInstanceAs (Decidable (_ ≤ _))

def ferror (io : Stdio σ) : Bool :=
  match io.stream with
  | none => true
  | some stream => stream.error

def clearerr (io : Stdio σ) : Stdio σ :=
  { io with stream := io.stream.map fun stream => { stream with error := false } }

/-- The buffers that the writer was called with, of which those behind the first `k` came after the
errors were cleared. -/
structure Logged (write : CookieWrite σ) (cookie : σ) (k : Nat) (io : Stdio σ) : Prop where
  made : ∃ bufs, [] ∉ bufs ∧ io.calls = (writeAll write cookie bufs).1 ∧
    io.stream = some ⟨(writeAll write cookie bufs).2, some write,
      (io.calls.drop k).any fun call => Failed call⟩
  le : k ≤ io.calls.length

section Calls

variable {write : CookieWrite σ} {cookie : σ} {k : Nat} {io : Stdio σ}

theorem Logged.fwrite (h : Logged write cookie k io) (buffer : Nat → Byte) (size count : Size) :
    Logged write cookie k (fwrite buffer size count io).2 := by
  obtain ⟨bufs, hbufs, hcalls, hstream⟩ := h.made
  have hle := h.le
  unfold Ukulele.fwrite
  simp only [hstream]
  split
  · exact ⟨⟨bufs, hbufs, hcalls, rfl⟩, hle⟩
  · rename_i hz
    generalize hbuf : (List.range (size * count).toNat).map buffer = buf
    have hnil : buf ≠ [] := by
      intro hnil
      apply hz
      apply BitVec.eq_of_toNat_eq
      simpa [hnil] using (congrArg List.length hbuf)
    have hnew : [] ∉ bufs ++ [buf] := by simp [hbufs, Ne.symm hnil]
    have hone : writeAll write cookie (bufs ++ [buf]) =
        ((writeAll write cookie bufs).1 ++ [(buf, (write (writeAll write cookie bufs).2 buf).1)],
          (write (writeAll write cookie bufs).2 buf).2) := by simp [writeAll]
    split
    · rename_i hfailed
      refine ⟨⟨bufs ++ [buf], hnew, ?_, ?_⟩, ?_⟩
      · simp [hone, hcalls]
      · simp [hone, List.drop_append_of_le_length hle, Failed, hfailed]
      · simp
        omega
    · rename_i hdone
      refine ⟨⟨bufs ++ [buf], hnew, ?_, ?_⟩, ?_⟩
      · simp [hone, hcalls]
      · simp [hone, List.drop_append_of_le_length hle, Failed, hdone]
      · simp
        omega

theorem Logged.fputc (h : Logged write cookie k io) (c : Int) :
    Logged write cookie k (fputc c io).2 := h.fwrite _ _ _

theorem Logged.fputs (h : Logged write cookie k io) {linked : LinkedStrlen} {mem : ByteMemory}
    {str : Uintptr} {ret : Int} {io' : Stdio σ} (hrun : fputs linked mem str io = some (ret, io')) :
    Logged write cookie k io' := by
  unfold Ukulele.fputs at hrun
  cases hlen : linked.call mem str with
  | none => simp [hlen] at hrun
  | some len =>
    simp [hlen] at hrun
    rw [← hrun.2]
    exact h.fwrite _ _ _

theorem Logged.puts (h : Logged write cookie k io) {linked : LinkedStrlen} {mem : ByteMemory}
    {str : Uintptr} {ret : Int} {io' : Stdio σ} (hrun : puts linked mem str io = some (ret, io')) :
    Logged write cookie k io' := by
  unfold Ukulele.puts at hrun
  cases hputs : Ukulele.fputs linked mem str io with
  | none => simp [hputs] at hrun
  | some r =>
    obtain ⟨n, io₁⟩ := r
    have h₁ := h.fputs hputs
    simp only [hputs, Option.bind_eq_bind, Option.bind_some] at hrun
    split at hrun
    · cases hrun
      exact h₁
    · split at hrun
      · cases hrun
        exact h₁.fputc _
      · cases hrun
        exact h₁.fputc _

theorem Logged.clearerr (h : Logged write cookie k io) :
    Logged write cookie io.calls.length (clearerr io) := by
  obtain ⟨bufs, hbufs, hcalls, hstream⟩ := h.made
  refine ⟨⟨bufs, hbufs, hcalls, ?_⟩, Nat.le_refl _⟩
  simp [Ukulele.clearerr, hstream]

end Calls

section Printers

variable {P : Stdio σ → Prop} {strnlen : ByteMemory → Uintptr → Size → Size} {mem : ByteMemory}

/-- A condition on streams that all printers keep if one call of `fwrite` does. -/
abbrev Keeps {α : Type} (P : Stdio σ → Prop) (m : PrintM σ α) : Prop := Preserves (fun s => P s.io) m

theorem keeps_vaArg : Keeps P (vaArg : PrintM σ _) := by
  intro s hs
  unfold vaArg
  split <;> exact hs

theorem keeps_wordArg (extend : BitVec 32 → BitVec 64) (afmt : FmtSpecifier) :
    Keeps P (wordArg extend afmt : PrintM σ _) :=
  (keeps_vaArg.bind fun _ => preserves_pure _).ite
    (keeps_vaArg.ite (preserves_throw _))

variable (hP : ∀ io, P io → ∀ (buffer : Nat → Byte) (count : Size),
  P (fwrite buffer 1#64 count io).2)

include hP

theorem keeps_fwriteE (c : Nat → Byte) (len : Int) : Keeps P (fwriteE c len : PrintM σ Int) := by
  intro s hs
  have hnext := hP s.io hs c (BitVec.ofInt 64 len)
  unfold fwriteE
  dsimp only
  split <;> exact hnext

theorem keeps_fputcE (c : Int) : Keeps P (fputcE c : PrintM σ Int) := by
  intro s hs
  have hnext := hP s.io hs (fun _ => BitVec.ofInt 8 c) 1#64
  unfold fputcE
  dsimp only
  split <;> exact hnext

theorem keeps_printNum (digitChar : Nat → Byte) (base value : BitVec 64) :
    Keeps P (printNum digitChar base value : PrintM σ Int) := by
  unfold printNum
  dsimp only
  split
  · exact preserves_throw _
  · exact keeps_fwriteE hP _ _

theorem keeps_padLoop (pad : Byte) (digits : Int) (fuel : Nat) (width : BitVec 8)
    (printed : Int) : Keeps P (padLoop pad digits fuel width printed : PrintM σ Int) := by
  induction fuel generalizing width printed with
  | zero => exact (preserves_throw _).ite (preserves_pure _)
  | succ fuel ih => exact ((keeps_fputcE hP _).bind fun _ => ih _ _).ite (preserves_pure _)

theorem keeps_printUnsigned (afmt : FmtSpecifier) (digitChar : Nat → Byte) (base : BitVec 64)
    (digits : BitVec 64 → Int) : Keeps P (do
      let value ← unsignedArg afmt
      let printed ← padTo afmt (padChar afmt) (digits value) 0
      let n ← printNum digitChar base value
      return printed + n : PrintM σ Int) := by
  apply (keeps_wordArg _ afmt).bind
  intro value
  apply ((keeps_padLoop hP _ _ _ _ _).ite (preserves_pure _)).bind
  intro printed
  exact (keeps_printNum hP _ _ _).bind fun _ => preserves_pure _

theorem keeps_printMagnitude (afmt : FmtSpecifier) (value : BitVec 64) (printed : BitVec 8) :
    Keeps P (printMagnitude afmt value printed : PrintM σ Int) := by
  have hdigits : ∀ printed : Int, Keeps P (do
      let n ← printNum10 value
      return printed + n : PrintM σ Int) := by
    intro printed
    exact (keeps_printNum hP _ _ _).bind fun _ => preserves_pure _
  exact ((keeps_padLoop hP _ _ _ _ _).bind hdigits).ite ((preserves_pure _).bind hdigits)

theorem keeps_printSigned (afmt : FmtSpecifier) :
    Keeps P (printSigned afmt : PrintM σ Int) := by
  apply (keeps_wordArg _ afmt).bind
  intro value
  exact ((keeps_fputcE hP _).bind fun _ => keeps_printMagnitude hP _ _ _).ite
    (keeps_printMagnitude hP _ _ _)

theorem keeps_padString (chars : Int) (fuel : Nat) (width : BitVec 8) (precision : BitVec 32)
    (printed : Int) :
    Keeps P (padString chars fuel width precision printed : PrintM σ _) := by
  induction fuel generalizing width precision printed with
  | zero => exact (preserves_throw _).ite (preserves_pure _)
  | succ fuel ih => exact ((keeps_fputcE hP _).bind fun _ => ih _ _ _).ite (preserves_pure _)

theorem keeps_printString (afmt : FmtSpecifier) :
    Keeps P (printString strnlen mem afmt : PrintM σ Int) := by
  have hbytes : ∀ (str : Uintptr) (len printed : Int), Keeps P (do
      let n ← fwriteE (fun i => mem (str + BitVec.ofNat 64 i)) len
      return printed + n : PrintM σ Int) := by
    intro str len printed
    exact (keeps_fwriteE hP _ _).bind fun _ => preserves_pure _
  apply keeps_vaArg.bind
  intro str
  exact ((keeps_padString hP _ _ _ _ _).bind fun r => hbytes str _ r.1).ite
    ((preserves_pure _).bind fun r => hbytes str _ r.1)

theorem keeps_convert (afmt : FmtSpecifier) (c : Byte) {print : PrintM σ Int}
    (h : convert strnlen mem afmt c = some print) : Keeps P print := by
  unfold convert at h
  split at h
  · cases h
    exact keeps_printSigned hP _
  split at h
  · cases h
    exact keeps_printUnsigned hP _ _ _ _
  split at h
  · cases h
    exact keeps_printUnsigned hP _ _ _ _
  split at h
  · cases h
    exact keeps_vaArg.bind fun _ => keeps_fputcE hP _
  split at h
  · cases h
    exact keeps_printString hP _
  split at h
  · cases h
    exact keeps_printUnsigned hP _ _ _ _
  split at h
  · cases h
    exact keeps_fputcE hP _
  split at h
  · cases h
    exact keeps_fputcE hP _
  · cases h

theorem keeps_parseFormatStr (afmt : FmtSpecifier) (state : ParseState) (fmt : List Byte) :
    Keeps P (parseFormatStr strnlen mem afmt state fmt : PrintM σ _) := by
  induction fmt generalizing afmt state with
  | nil => exact preserves_throw _
  | cons c fmt ih =>
    unfold parseFormatStr
    split
    · rename_i print hprint
      exact (keeps_convert hP afmt c hprint).bind fun _ => preserves_pure _
    · split
      · exact ih _ _
      · exact preserves_throw _

theorem keeps_vfprintfLoop (fuel : Nat) (fmt : List Byte) (written : BitVec 32) :
    Keeps P (vfprintfLoop strnlen mem fuel fmt written : PrintM σ Int) := by
  induction fuel generalizing fmt written with
  | zero => exact preserves_throw _
  | succ fuel ih =>
    cases fmt with
    | nil => exact preserves_throw _
    | cons c fmt =>
      refine (preserves_pure _).ite ?_
      refine ((keeps_fputcE hP _).bind fun _ => ih _ _).ite ?_
      exact (keeps_parseFormatStr hP _ _ _).bind fun r => ih _ _

theorem keeps_vfprintf (fmt : List Byte) : Keeps P (vfprintf strnlen mem fmt : PrintM σ Int) := by
  intro s hs
  have hloop : P (finalState (vfprintfLoop strnlen mem fmt.length fmt 0#32 s)).io :=
    keeps_vfprintfLoop hP _ _ _ s hs
  unfold vfprintf
  split
  · rename_i code s' hrun
    rw [hrun] at hloop
    exact hloop
  · exact hloop

end Printers

section Runs

variable {write : CookieWrite σ} {cookie : σ} {k : Nat} {io io' : Stdio σ}

theorem Logged.vfprintf (h : Logged write cookie k io)
    {strnlen : ByteMemory → Uintptr → Size → Size} {mem : ByteMemory} {fmt : List Byte}
    {args : List (BitVec 64)} {n : Int} {s : PrintState σ}
    (hrun : vfprintf strnlen mem fmt ⟨io, args⟩ = .ok n s) : Logged write cookie k s.io := by
  have hkeeps : Logged write cookie k
      (finalState (Ukulele.vfprintf strnlen mem fmt ⟨io, args⟩)).io :=
    keeps_vfprintf (fun io h buffer count => h.fwrite buffer 1#64 count) fmt ⟨io, args⟩ h
  rw [hrun] at hkeeps
  exact hkeeps

/-- Calls of the library for one stream, with the number of calls of its writer before the errors
were last cleared. -/
inductive StdioRun (write : CookieWrite σ) (cookie : σ) : Nat → Stdio σ → Prop where
  | start (errno : Errno) : StdioRun write cookie 0 ⟨some ⟨cookie, some write, false⟩, errno, []⟩
  | fwrite {k : Nat} {io : Stdio σ} (buffer : Nat → Byte) (size count : Size) :
      StdioRun write cookie k io → StdioRun write cookie k (fwrite buffer size count io).2
  | fputc {k : Nat} {io : Stdio σ} (c : Int) :
      StdioRun write cookie k io → StdioRun write cookie k (fputc c io).2
  | fputs {k : Nat} {io io' : Stdio σ} {linked : LinkedStrlen} {mem : ByteMemory} {str : Uintptr}
      {ret : Int} : StdioRun write cookie k io → fputs linked mem str io = some (ret, io') →
      StdioRun write cookie k io'
  | puts {k : Nat} {io io' : Stdio σ} {linked : LinkedStrlen} {mem : ByteMemory} {str : Uintptr}
      {ret : Int} : StdioRun write cookie k io → puts linked mem str io = some (ret, io') →
      StdioRun write cookie k io'
  | vfprintf {k : Nat} {io : Stdio σ} {strnlen : ByteMemory → Uintptr → Size → Size}
      {mem : ByteMemory} {fmt : List Byte} {args : List (BitVec 64)} {n : Int} {s : PrintState σ} :
      StdioRun write cookie k io → vfprintf strnlen mem fmt ⟨io, args⟩ = .ok n s →
      StdioRun write cookie k s.io
  | clearerr {k : Nat} {io : Stdio σ} :
      StdioRun write cookie k io → StdioRun write cookie io.calls.length (clearerr io)

theorem StdioRun.logged (h : StdioRun write cookie k io) : Logged write cookie k io := by
  induction h with
  | start errno => exact ⟨⟨[], by simp, rfl, rfl⟩, Nat.le_refl 0⟩
  | fwrite buffer size count hrun ih => exact ih.fwrite buffer size count
  | fputc c hrun ih => exact ih.fputc c
  | fputs hrun hcall ih => exact ih.fputs hcall
  | puts hrun hcall ih => exact ih.puts hcall
  | vfprintf hrun hcall ih => exact ih.vfprintf hcall
  | clearerr hrun ih => exact ih.clearerr

/-- In every run of the library the cookie has gone through the calls of the writer, none of them
for no bytes, and `ferror` tells whether one of them failed since the errors were cleared. -/
theorem stdio_stream_follows_calls (h : StdioRun write cookie k io) : ∃ bufs,
    [] ∉ bufs ∧ io.calls = (writeAll write cookie bufs).1 ∧
    (∃ stream, io.stream = some stream ∧ stream.writer = some write ∧
      stream.cookie = (writeAll write cookie bufs).2) ∧
    (ferror io = true ↔ ∃ call ∈ io.calls.drop k, call.2 ≤ 0) := by
  obtain ⟨bufs, hbufs, hcalls, hstream⟩ := h.logged.made
  refine ⟨bufs, hbufs, hcalls, ⟨_, hstream, rfl, rfl⟩, ?_⟩
  simp only [ferror, hstream, List.any_eq_true, decide_eq_true_eq]
  rfl

/-- A writer that takes one byte of a call, and fails when it has taken three. -/
def threeBytes : CookieWrite Nat := fun n _ => if n < 3 then (1, n + 1) else (-1, n)

theorem stdio_stream_follows_calls_example : ∃ io : Stdio Nat,
    StdioRun threeBytes 2 1 io ∧ io.calls.length = 2 ∧ ferror io = true := by
  have hrun : StdioRun threeBytes 2 1 _ := ((StdioRun.start .none).fputc 0x41).clearerr.fputc 0x42
  obtain ⟨bufs, -, -, -, hferror⟩ := stdio_stream_follows_calls hrun
  exact ⟨_, hrun, rfl, hferror.mpr ⟨([0x42#8], -1), by decide, by decide⟩⟩

end Runs

end Ukulele
