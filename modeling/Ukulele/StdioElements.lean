import Ukulele.LibkString
import Ukulele.Stdio

/-! Reading and writing by elements: what is returned for the bytes that a call has transferred. -/

set_option autoImplicit false

namespace Ukulele

variable {σ : Type}

/-- The function that reads: it is given the cookie, the buffer and its size, and leaves the memory
with the bytes that it returns the number of, as an `ssize_t`. -/
abbrev CookieRead (σ : Type) := σ → ByteMemory → Uintptr → Size → Int × ByteMemory × σ

structure InputFile (σ : Type) where
  cookie : σ
  reader : Option (CookieRead σ)
  eof : Bool
  error : Bool

/-- A stream, or a null pointer in its place. The calls of its reader are recorded by the bytes that
were asked for and what they returned. -/
structure InputState (σ : Type) where
  stream : Option (InputFile σ)
  errno : Errno
  mem : ByteMemory
  calls : List (Size × Int)

def fread (buffer : Uintptr) (size count : Size) (io : InputState σ) : Size × InputState σ :=
  match io.stream with
  | none => (0#64, { io with errno := .enostr })
  | some stream =>
    match stream.reader with
    | none => (0#64, { io with errno := .eopnotsupp })
    | some read =>
      let nbytes := size * count
      if nbytes = 0#64 then (0#64, { io with errno := .none })
      else
        let (n, mem, cookie) := read stream.cookie io.mem buffer nbytes
        let calls := io.calls ++ [(nbytes, n)]
        if n < 0 then
          (0#64, ⟨some { stream with cookie := cookie, error := true }, .eio, mem, calls⟩)
        else
          let stream := { stream with cookie := cookie, eof := stream.eof || decide (n = 0) }
          (BitVec.ofInt 64 n, ⟨some stream, .none, mem, calls⟩)

/-- The complete elements are counted; `count` is returned for all bytes and for no others. -/
structure ReportsElements (ret size count : Size) (bytes : Nat) : Prop where
  elements : ret.toNat = bytes / size.toNat
  le_count : ret ≤ count
  all : size ≠ 0#64 → bytes = size.toNat * count.toNat → ret = count
  wraps : 2 ^ 64 ≤ size.toNat * count.toNat → ret ≠ count

/-- A call of `fread` returns the number of elements that the reader has read. -/
def FreadRight (buffer : Uintptr) (size count : Size) (io : InputState σ) : Prop :=
  ∃ made, (fread buffer size count io).2.calls = io.calls ++ made ∧
    ReportsElements (fread buffer size count io).1 size count
      (made.map fun call => call.2.toNat).sum

def FwriteRight (buffer : Nat → Byte) (size count : Size) (io : Stdio σ) : Prop :=
  ∃ made, (fwrite buffer size count io).2.calls = io.calls ++ made ∧
    ReportsElements (fwrite buffer size count io).1 size count
      (made.map fun call => call.2.toNat).sum

def InputState.BoundedReader (io : InputState σ) : Prop :=
  ∀ stream ∈ io.stream, ∀ read ∈ stream.reader, ∀ cookie mem buffer (nbytes : Size),
    (read cookie mem buffer nbytes).1 ≤ (nbytes.toNat : Int)

def Stdio.BoundedWriter (io : Stdio σ) : Prop :=
  ∀ stream ∈ io.stream, ∀ write ∈ stream.writer, MayFail write

def InputState.available (io : InputState σ) (buffer : Uintptr) (nbytes : Size) : Nat :=
  match io.stream with
  | none => 0
  | some stream =>
    match stream.reader with
    | none => 0
    | some read =>
      if nbytes = 0#64 then 0 else (read stream.cookie io.mem buffer nbytes).1.toNat

def Stdio.takes (io : Stdio σ) (buf : List Byte) : Nat :=
  match io.stream with
  | none => 0
  | some stream =>
    match stream.writer with
    | none => 0
    | some write => if buf = [] then 0 else (write stream.cookie buf).1.toNat

theorem reportsElements_bytes_iff {size count : Size} {bytes : Nat}
    (h : bytes ≤ (size * count).toNat) :
    ReportsElements (BitVec.ofNat 64 bytes) size count bytes ↔ size = 1#64 ∨ bytes = 0 := by
  have hlt := (size * count).isLt
  have hnat : (BitVec.ofNat 64 bytes).toNat = bytes := by
    rw [BitVec.toNat_ofNat, Nat.mod_eq_of_lt (Nat.lt_of_le_of_lt h hlt)]
  constructor
  · intro hreports
    have hdiv := hreports.elements
    rw [hnat] at hdiv
    rcases Nat.eq_zero_or_pos bytes with hzero | hpos
    · exact Or.inr hzero
    · left
      by_contra hone
      rcases Nat.lt_trichotomy size.toNat 1 with hs | hs | hs
      · rw [Nat.lt_one_iff.mp hs, Nat.div_zero] at hdiv
        omega
      · exact hone (BitVec.eq_of_toNat_eq hs)
      · exact absurd hdiv (Nat.ne_of_gt (Nat.div_lt_self hpos hs))
  · intro hcase
    rcases hcase with rfl | rfl
    · rw [BitVec.one_mul] at h
      have hone : (1#64).toNat = 1 := rfl
      have hcount := count.isLt
      refine ⟨?_, ?_, ?_, ?_⟩
      · rw [hnat, hone, Nat.div_one]
      · rwa [BitVec.le_def, hnat]
      · intro _ hall
        apply BitVec.eq_of_toNat_eq
        rw [hnat, hall, hone, Nat.one_mul]
      · intro hwraps
        rw [hone, Nat.one_mul] at hwraps
        omega
    · refine ⟨by simp, by simp [BitVec.le_def], ?_, ?_⟩
      · intro hsize hall
        have hcount : count.toNat = 0 := by
          have hne : size.toNat ≠ 0 := fun he => hsize (BitVec.eq_of_toNat_eq he)
          exact (Nat.mul_eq_zero.mp hall.symm).resolve_left hne
        exact (BitVec.eq_of_toNat_eq hcount).symm
      · rintro hwraps rfl
        simp at hwraps

section Calls

variable {size count : Size}

theorem fread_run (buffer : Uintptr) (size count : Size) (io : InputState σ) : ∃ made,
    (fread buffer size count io).2.calls = io.calls ++ made ∧
    (made.map fun call => call.2.toNat).sum = io.available buffer (size * count) ∧
    (fread buffer size count io).1 = BitVec.ofNat 64 (io.available buffer (size * count)) := by
  unfold fread InputState.available
  cases io.stream with
  | none => exact ⟨[], by simp, rfl, rfl⟩
  | some stream =>
    cases hreader : stream.reader with
    | none => exact ⟨[], by simp [hreader], by simp [hreader], by simp [hreader]⟩
    | some read =>
      simp only [hreader]
      by_cases hz : size * count = 0#64
      · rw [if_pos hz, if_pos hz]
        exact ⟨[], by simp, rfl, rfl⟩
      · rw [if_neg hz, if_neg hz]
        generalize read stream.cookie io.mem buffer (size * count) = r
        by_cases hn : r.1 < 0
        · rw [if_pos hn, Int.toNat_of_nonpos (Int.le_of_lt hn)]
          exact ⟨_, rfl, by simp [Int.toNat_of_nonpos (Int.le_of_lt hn)], rfl⟩
        · obtain ⟨n, hnat⟩ := Int.eq_ofNat_of_zero_le (Int.not_lt.mp hn)
          rw [if_neg hn]
          refine ⟨_, rfl, by simp, ?_⟩
          rw [hnat, BitVec.ofInt_natCast, Int.toNat_natCast]

theorem fwrite_run (buffer : Nat → Byte) (size count : Size) (io : Stdio σ) : ∃ made,
    (fwrite buffer size count io).2.calls = io.calls ++ made ∧
    (made.map fun call => call.2.toNat).sum =
      io.takes ((List.range (size * count).toNat).map buffer) ∧
    (fwrite buffer size count io).1 =
      BitVec.ofNat 64 (io.takes ((List.range (size * count).toNat).map buffer)) := by
  unfold Stdio.takes
  cases hstream : io.stream with
  | none => exact ⟨[], by simp [fwrite, hstream], rfl, by simp [fwrite, hstream]⟩
  | some stream =>
    cases hwriter : stream.writer with
    | none =>
      exact ⟨[], by simp [fwrite, hstream, hwriter], by simp [hwriter],
        by simp [fwrite, hstream, hwriter]⟩
    | some write =>
      simp only [hwriter]
      by_cases hz : size * count = 0#64
      · have hnone : (List.range (size * count).toNat).map buffer = [] := by simp [hz]
        rw [fwrite_nothing hstream hwriter buffer hz, if_pos hnone]
        exact ⟨[], by simp, rfl, rfl⟩
      · obtain ⟨io', error, hrun, -, hcalls⟩ := fwrite_call hstream hwriter buffer hz rfl
        have hsome : (List.range (size * count).toNat).map buffer ≠ [] := by
          intro he
          rw [List.map_eq_nil_iff, List.range_eq_nil] at he
          exact hz (BitVec.eq_of_toNat_eq he)
        rw [if_neg hsome, hrun]
        exact ⟨_, hcalls, by simp, rfl⟩

theorem exists_made_iff {α : Type} {before after made : List α} (h : after = before ++ made)
    (P : List α → Prop) : (∃ made, after = before ++ made ∧ P made) ↔ P made := by
  constructor
  · intro hex
    obtain ⟨made', hcalls, hp⟩ := hex
    rw [h] at hcalls
    rwa [List.append_cancel_left hcalls]
  · intro hp
    exact ⟨made, h, hp⟩

theorem freadRight_iff (buffer : Uintptr) (io : InputState σ) : FreadRight buffer size count io ↔
    ReportsElements (BitVec.ofNat 64 (io.available buffer (size * count))) size count
      (io.available buffer (size * count)) := by
  obtain ⟨made, hcalls, hsum, hret⟩ := fread_run buffer size count io
  rw [FreadRight, exists_made_iff hcalls, hsum, hret]

theorem fwriteRight_iff (buffer : Nat → Byte) (io : Stdio σ) : FwriteRight buffer size count io ↔
    ReportsElements
      (BitVec.ofNat 64 (io.takes ((List.range (size * count).toNat).map buffer))) size count
      (io.takes ((List.range (size * count).toNat).map buffer)) := by
  obtain ⟨made, hcalls, hsum, hret⟩ := fwrite_run buffer size count io
  rw [FwriteRight, exists_made_iff hcalls, hsum, hret]

theorem InputState.BoundedReader.available_le {io : InputState σ} (h : io.BoundedReader)
    (buffer : Uintptr) (nbytes : Size) : io.available buffer nbytes ≤ nbytes.toNat := by
  unfold InputState.available
  split
  · exact Nat.zero_le _
  · rename_i stream hstream
    split
    · exact Nat.zero_le _
    · rename_i read hreader
      have hle := h stream hstream read hreader stream.cookie io.mem buffer nbytes
      split <;> omega

theorem Stdio.BoundedWriter.takes_le {io : Stdio σ} (h : io.BoundedWriter) (buf : List Byte) :
    io.takes buf ≤ buf.length := by
  unfold Stdio.takes
  split
  · exact Nat.zero_le _
  · rename_i stream hstream
    split
    · exact Nat.zero_le _
    · rename_i write hwriter
      have hle := h stream hstream write hwriter stream.cookie buf
      split <;> omega

/-- Both functions return bytes: that is right for elements of one byte, and if nothing is
transferred. -/
theorem fread_fwrite_elements {io : InputState σ} (hreader : io.BoundedReader) {out : Stdio σ}
    (hwriter : out.BoundedWriter) (size count : Size) (dst : Uintptr) (src : Nat → Byte) :
    (FreadRight dst size count io ↔ size = 1#64 ∨ io.available dst (size * count) = 0) ∧
    (FwriteRight src size count out ↔
      size = 1#64 ∨ out.takes ((List.range (size * count).toNat).map src) = 0) := by
  constructor
  · rw [freadRight_iff]
    exact reportsElements_bytes_iff (hreader.available_le dst _)
  · rw [fwriteRight_iff]
    apply reportsElements_bytes_iff
    simpa using hwriter.takes_le ((List.range (size * count).toNat).map src)

end Calls

def zeroReader : CookieRead Unit := fun _ mem _ nbytes => ((nbytes.toNat : Int), mem, ())

def zeroInput : InputState Unit :=
  ⟨some ⟨(), some zeroReader, false, false⟩, .none, fun _ => 0#8, []⟩

def halfWriter : CookieWrite Unit := fun _ buf => ((buf.length / 2 : Nat), ())

def halfStream : Stdio Unit := ⟨some ⟨(), some halfWriter, false⟩, .none, []⟩

theorem zeroInput_bounded : zeroInput.BoundedReader := by
  intro stream hstream read hreader cookie mem buffer nbytes
  cases hstream
  cases hreader
  exact Int.le_refl _

theorem halfStream_bounded : halfStream.BoundedWriter := by
  intro stream hstream write hwriter cookie buf
  cases hstream
  cases hwriter
  exact Int.ofNat_le.mpr (Nat.div_le_self _ _)

theorem fread_fwrite_elements_example : FreadRight 0x1000#64 1#64 8#64 zeroInput ∧
    FwriteRight (fun _ => 0x41#8) 1#64 8#64 halfStream := by
  have hright := fread_fwrite_elements zeroInput_bounded halfStream_bounded 1#64 8#64 0x1000#64
    fun _ => 0x41#8
  exact ⟨hright.1.mpr (Or.inl rfl), hright.2.mpr (Or.inl rfl)⟩

/-- Two elements of four bytes are returned as eight; and with a size of 2^63 + 1 two bytes are
returned as two elements. -/
theorem fread_counts_bytes :
    (fread 0x1000#64 4#64 2#64 zeroInput).1 = 8#64 ∧
    (fread 0x1000#64 (BitVec.ofNat 64 (2 ^ 63 + 1)) 2#64 zeroInput).1 = 2#64 ∧
    ¬ FreadRight 0x1000#64 4#64 2#64 zeroInput ∧
    ¬ FwriteRight (fun _ => 0x41#8) 4#64 2#64 halfStream := by
  refine ⟨by decide, by decide, ?_, ?_⟩
  · rw [freadRight_iff, reportsElements_bytes_iff (zeroInput_bounded.available_le _ _)]
    decide
  · rw [fwriteRight_iff, reportsElements_bytes_iff (by decide)]
    decide

end Ukulele
