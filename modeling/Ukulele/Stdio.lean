import Ukulele.Machine

/-! Output streams. A stream has a cookie, which the functions behind it work on, and may have no
function for writing.
-/

set_option autoImplicit false

namespace Ukulele

inductive Errno where
  | none
  | enostr
  | eopnotsupp
  | eio
  deriving DecidableEq, Repr

def eof : Int := -1

/-- The function that writes: it is given the cookie and bytes, and returns an `ssize_t`. -/
abbrev CookieWrite (σ : Type) := σ → List Byte → Int × σ

structure File (σ : Type) where
  cookie : σ
  writer : Option (CookieWrite σ)
  error : Bool

/-- A stream, or a null pointer in its place. The calls of its writer are recorded with what they
returned. -/
structure Stdio (σ : Type) where
  stream : Option (File σ)
  errno : Errno
  calls : List (List Byte × Int)

variable {σ : Type}

def Stdio.delivered (io : Stdio σ) : List Byte :=
  io.calls.flatMap fun call => call.1.take call.2.toNat

def fwrite (buffer : Nat → Byte) (size count : Size) (io : Stdio σ) : Size × Stdio σ :=
  match io.stream with
  | none => (0#64, { io with errno := .enostr })
  | some stream =>
    match stream.writer with
    | none => (0#64, { io with errno := .eopnotsupp })
    | some write =>
      let nbytes := size * count
      if nbytes = 0#64 then (0#64, { io with errno := .none })
      else
        let buf := (List.range nbytes.toNat).map buffer
        let (n, cookie) := write stream.cookie buf
        let calls := io.calls ++ [(buf, n)]
        if n ≤ 0 then
          (0#64, ⟨some { stream with cookie := cookie, error := true }, .eio, calls⟩)
        else (BitVec.ofInt 64 n, ⟨some { stream with cookie := cookie }, .none, calls⟩)

def fputc (c : Int) (io : Stdio σ) : Int × Stdio σ :=
  let u := BitVec.ofInt 8 c
  let (n, io) := fwrite (fun _ => u) 1#64 1#64 io
  (if n ≠ 0#64 then c else eof, io)

section Calls

variable {io : Stdio σ} {stream : File σ} {write : CookieWrite σ}

theorem fwrite_nothing (hstream : io.stream = some stream) (hwriter : stream.writer = some write)
    (buffer : Nat → Byte) {size count : Size} (hz : size * count = 0#64) :
    fwrite buffer size count io = (0#64, { io with errno := .none }) := by
  simp only [fwrite, hstream, hwriter, hz, if_true]

/-- All bytes go to the writer in one call, and what it returns is returned, an error as zero. -/
theorem fwrite_call (hstream : io.stream = some stream) (hwriter : stream.writer = some write)
    (buffer : Nat → Byte) {size count : Size} (hz : size * count ≠ 0#64) {buf : List Byte}
    (hbuf : (List.range (size * count).toNat).map buffer = buf) :
    ∃ io' error, fwrite buffer size count io =
        (BitVec.ofNat 64 (write stream.cookie buf).1.toNat, io') ∧
      io'.stream = some ⟨(write stream.cookie buf).2, some write, error⟩ ∧
      io'.calls = io.calls ++ [(buf, (write stream.cookie buf).1)] := by
  unfold fwrite
  simp only [hstream, hwriter, if_neg hz, hbuf]
  by_cases hn : (write stream.cookie buf).1 ≤ 0
  · rw [if_pos hn, Int.toNat_of_nonpos hn]
    exact ⟨_, _, rfl, rfl, rfl⟩
  · obtain ⟨n, hnat⟩ := Int.eq_ofNat_of_zero_le (Int.le_of_lt (Int.not_le.mp hn))
    rw [if_neg hn, hnat]
    refine ⟨_, _, Prod.ext ?_ rfl, rfl, rfl⟩
    rw [BitVec.ofInt_natCast, Int.toNat_natCast]

end Calls

/-- The writer may take less than it is given, or fail. -/
def MayFail (write : CookieWrite σ) : Prop :=
  ∀ cookie buf, (write cookie buf).1 ≤ (buf.length : Int)

def TakesAll (write : CookieWrite σ) : Prop :=
  ∀ cookie buf, (write cookie buf).1 = (buf.length : Int)

def Stdio.Accepts (io : Stdio σ) : Prop :=
  ∃ stream write, io.stream = some stream ∧ stream.writer = some write ∧ TakesAll write

theorem fwrite_calls {io : Stdio σ} (h : io.Accepts) (buffer : Nat → Byte) (count : Size) :
    ∃ io', fwrite buffer 1#64 count io = (count, io') ∧ io'.Accepts ∧
      io'.calls = io.calls ++ if count = 0#64 then []
        else [((List.range count.toNat).map buffer, (count.toNat : Int))] := by
  obtain ⟨stream, write, hstream, hwriter, hall⟩ := h
  have hone : 1#64 * count = count := BitVec.one_mul count
  by_cases hz : count = 0#64
  · subst hz
    exact ⟨_, fwrite_nothing hstream hwriter buffer hone, ⟨stream, write, hstream, hwriter, hall⟩,
      by simp⟩
  · obtain ⟨io', error, hrun, hstream', hcalls⟩ :=
      fwrite_call hstream hwriter buffer (by rwa [hone]) rfl
    rw [hone, hall, List.length_map, List.length_range] at hrun hcalls
    refine ⟨io', ?_, ⟨_, write, hstream', rfl, hall⟩, ?_⟩
    · simpa using hrun
    · rw [hcalls, if_neg hz]

theorem fwrite_accepts {io : Stdio σ} (h : io.Accepts) (buffer : Nat → Byte) (count : Size) :
    ∃ io', fwrite buffer 1#64 count io = (count, io') ∧ io'.Accepts ∧
      io'.delivered = io.delivered ++ (List.range count.toNat).map buffer := by
  obtain ⟨io', hrun, h', hcalls⟩ := fwrite_calls h buffer count
  refine ⟨io', hrun, h', ?_⟩
  rw [Stdio.delivered, hcalls, List.flatMap_append, ← Stdio.delivered]
  by_cases hz : count = 0#64 <;> simp [hz]

theorem fputc_accepts {io : Stdio σ} (h : io.Accepts) (c : Int) :
    ∃ io', fputc c io = (c, io') ∧ io'.Accepts ∧
      io'.delivered = io.delivered ++ [BitVec.ofInt 8 c] := by
  obtain ⟨io', hwrite, haccepts, hout⟩ := fwrite_accepts h (fun _ => BitVec.ofInt 8 c) 1#64
  refine ⟨io', ?_, haccepts, by simpa using hout⟩
  simp [fputc, hwrite]

end Ukulele
