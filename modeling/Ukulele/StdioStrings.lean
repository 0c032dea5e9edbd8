import Ukulele.VfprintfDirectives

/-! Writing strings to a stream whose writer takes all bytes of a call or fails. -/

set_option autoImplicit false

namespace Ukulele
open ByteRange

variable {σ : Type} {mem : ByteMemory} {str : Uintptr} {io : Stdio σ} {stream : File σ}
  {write : CookieWrite σ} {k : Nat}

/-- The `strlen` that the linker takes, in C or in assembly with what the other registers hold. -/
inductive LinkedStrlen where
  | c : LinkedStrlen
  | x86 : (Reg → BitVec 64) → BitVec 64 → BitVec 64 → LinkedStrlen

def LinkedStrlen.call (linked : LinkedStrlen) (mem : ByteMemory) (str : Uintptr) : Option Size :=
  match linked with
  | .c => strlen mem str
  | .x86 regs rsi rdx => some ((callX86 strlenX86 ⟨regs, mem⟩ str rsi rdx).regs .rax)

section Puts

variable (linked : LinkedStrlen) (mem : ByteMemory)

/-- There is no result if the length is looked for without end. The `EOF` of the source becomes a
`size_t`, and an `int` again. -/
def fputs (str : Uintptr) (io : Stdio σ) : Option (Int × Stdio σ) := do
  let len ← linked.call mem str
  let (n, io) := fwrite (fun i => mem (str + BitVec.ofNat 64 i)) 1#64 len io
  let ret := if n ≠ 0#64 then n else BitVec.ofInt 64 eof
  return ((ret.setWidth 32).toInt, io)

/-- The stream stands for `stdout`. -/
def puts (str : Uintptr) (io : Stdio σ) : Option (Int × Stdio σ) := do
  let (ret, io) ← fputs linked mem str io
  if ret = eof then return (eof, io)
  let (c, io) := fputc (ch '\n').toInt io
  if c = eof then return (eof, io)
  return ((1#32 + BitVec.ofInt 32 ret).toInt, io)

end Puts

/-- `EOF` is returned exactly if a call of the writer failed, and the bytes have been delivered if
none did. -/
def PutsRight (io : Stdio σ) (result : Option (Int × Stdio σ)) (out : List Byte) : Prop :=
  ∃ ret io' made, result = some (ret, io') ∧ io'.calls = io.calls ++ made ∧
    (ret = eof ↔ ∃ call ∈ made, call.2 ≤ 0) ∧
    ((∀ call ∈ made, 0 < call.2) → io'.delivered = io.delivered ++ out)

/-- The writer takes all bytes or fails. -/
def AllOrNothing (write : CookieWrite σ) : Prop :=
  ∀ cookie buf, (write cookie buf).1 = (buf.length : Int) ∨ (write cookie buf).1 ≤ 0

def LinkedStrlen.count (linked : LinkedStrlen) (k : Nat) : Nat :=
  match linked with
  | .c => k
  | .x86 _ _ _ => k + 1

theorem LinkedStrlen.call_eq (linked : LinkedStrlen) (h : StringAt mem str k)
    (hk : k + 1 < 2 ^ 64) : linked.call mem str = some (BitVec.ofNat 64 (linked.count k)) := by
  cases linked with
  | c => exact strlen_eq h (Nat.lt_of_succ_lt hk)
  | x86 regs rsi rdx =>
    have hrax := strlenX86_eq ⟨regs, mem⟩ str rsi rdx
    dsimp only at hrax
    rw [h.before_eq, Nat.min_eq_right (by omega), Nat.min_eq_right (by omega)] at hrax
    exact congrArg some hrax

structure Called (write : CookieWrite σ) (io : Stdio σ) (cookie : σ) (buf : List Byte)
    (io' : Stdio σ) : Prop where
  stream_eq : ∃ error, io'.stream = some ⟨(write cookie buf).2, some write, error⟩
  calls_eq : io'.calls = io.calls ++ [(buf, (write cookie buf).1)]

theorem fputs_empty {linked : LinkedStrlen} (hstream : io.stream = some stream)
    (hwriter : stream.writer = some write) (hlen : linked.call mem str = some 0#64) :
    fputs linked mem str io = some (eof, { io with errno := .none }) := by
  have hwrite := fwrite_nothing hstream hwriter (fun i => mem (str + BitVec.ofNat 64 i))
    (by decide : 1#64 * 0#64 = 0#64)
  simp only [fputs, hlen, Option.bind_eq_bind, Option.bind_some, hwrite]
  rfl

theorem fputs_call {linked : LinkedStrlen} (hstream : io.stream = some stream)
    (hwriter : stream.writer = some write) (hall : AllOrNothing write) {n : Nat}
    (hlen : linked.call mem str = some (BitVec.ofNat 64 n)) (hpos : 0 < n) (hn : n < 2 ^ 31) :
    ∃ io', fputs linked mem str io =
        some (if (write stream.cookie (stringBytes mem str n)).1 ≤ 0 then eof else n, io') ∧
      Called write io stream.cookie (stringBytes mem str n) io' := by
  have hnat : (1#64 * BitVec.ofNat 64 n).toNat = n := by
    rw [BitVec.one_mul, BitVec.toNat_ofNat, Nat.mod_eq_of_lt (by omega)]
  have hz : 1#64 * BitVec.ofNat 64 n ≠ 0#64 := by
    intro he
    rw [he] at hnat
    simp at hnat
    omega
  have hbuf : (List.range (1#64 * BitVec.ofNat 64 n).toNat).map
      (fun i => mem (str + BitVec.ofNat 64 i)) = stringBytes mem str n := by
    rw [hnat, stringBytes]
  obtain ⟨io', error, hrun, hstream', hcalls⟩ := fwrite_call hstream hwriter _ hz hbuf
  refine ⟨io', ?_, ⟨error, hstream'⟩, hcalls⟩
  simp only [fputs, hlen, Option.bind_eq_bind, Option.bind_some, hrun]
  by_cases hfail : (write stream.cookie (stringBytes mem str n)).1 ≤ 0
  · rw [if_pos hfail, Int.toNat_of_nonpos hfail]
    rfl
  · have htaken := (hall stream.cookie (stringBytes mem str n)).resolve_right hfail
    rw [stringBytes_length] at htaken
    have hword : BitVec.ofNat 64 n ≠ 0#64 := by rwa [BitVec.one_mul] at hz
    have hint : ((BitVec.ofNat 64 n).setWidth 32).toInt = n := by
      rw [BitVec.toInt_eq_toNat_of_lt] <;>
        rw [BitVec.toNat_setWidth, BitVec.toNat_ofNat, Nat.mod_eq_of_lt] <;> omega
    rw [if_neg hfail, htaken, Int.toNat_natCast, if_pos hword, hint]
    rfl

theorem fputc_call (hstream : io.stream = some stream) (hwriter : stream.writer = some write)
    (hall : AllOrNothing write) (c : Byte) :
    ∃ io', fputc c.toInt io =
        (if (write stream.cookie [c]).1 ≤ 0 then eof else c.toInt, io') ∧
      Called write io stream.cookie [c] io' := by
  have hbuf : (List.range (1#64 * 1#64).toNat).map (fun _ => BitVec.ofInt 8 c.toInt) = [c] := by
    simp
  obtain ⟨io', error, hrun, hstream', hcalls⟩ :=
    fwrite_call hstream hwriter _ (by decide : 1#64 * 1#64 ≠ 0#64) hbuf
  refine ⟨io', ?_, ⟨error, hstream'⟩, hcalls⟩
  simp only [fputc, hrun]
  by_cases hfail : (write stream.cookie [c]).1 ≤ 0
  · rw [if_pos hfail, Int.toNat_of_nonpos hfail]
    rfl
  · have htaken := (hall stream.cookie [c]).resolve_right hfail
    rw [if_neg hfail, htaken]
    rfl

theorem putsRight_failed {ret : Int} {io' : Stdio σ} {made : List (List Byte × Int)}
    (hcalls : io'.calls = io.calls ++ made) (hret : ret = eof) (hfail : ∃ call ∈ made, call.2 ≤ 0)
    (out : List Byte) : PutsRight io (some (ret, io')) out := by
  refine ⟨ret, io', made, rfl, hcalls, iff_of_true hret hfail, ?_⟩
  intro hpos
  obtain ⟨call, hcall, hle⟩ := hfail
  exact absurd (hpos call hcall) (Int.not_lt.mpr hle)

theorem putsRight_taken {ret : Int} {io' : Stdio σ} {made : List (List Byte × Int)}
    (hcalls : io'.calls = io.calls ++ made) (hret : ret ≠ eof)
    (htaken : ∀ call ∈ made, call.2 = call.1.length ∧ 0 < call.2) (out : List Byte) :
    PutsRight io (some (ret, io')) out ↔ made.flatMap Prod.fst = out := by
  have hnone : ¬ ∃ call ∈ made, call.2 ≤ 0 := by
    intro h
    obtain ⟨call, hcall, hle⟩ := h
    exact absurd (htaken call hcall).2 (Int.not_lt.mpr hle)
  have hdelivered : io'.delivered = io.delivered ++ made.flatMap Prod.fst := by
    rw [Stdio.delivered, hcalls, List.flatMap_append, ← Stdio.delivered]
    congr 1
    apply List.flatMap_congr
    intro call hcall
    rw [(htaken call hcall).1, Int.toNat_natCast, List.take_length]
  constructor
  · intro h
    obtain ⟨ret', io'', made', he, hcalls', -, hout⟩ := h
    cases he
    rw [hcalls] at hcalls'
    obtain rfl := List.append_cancel_left hcalls'
    have he := hout fun call hcall => (htaken call hcall).2
    rw [hdelivered] at he
    exact List.append_cancel_left he
  · intro h
    refine ⟨ret, io', made, rfl, hcalls, iff_of_false hret hnone, fun _ => ?_⟩
    rw [hdelivered, h]

theorem stringBytes_inj {n : Nat} : stringBytes mem str n = stringBytes mem str k ↔ n = k := by
  constructor
  · intro h
    have hlen := congrArg List.length h
    rwa [stringBytes_length, stringBytes_length] at hlen
  · rintro rfl
    rfl

section Writer

variable {linked : LinkedStrlen} {n : Nat}

theorem fputs_right_iff (hstream : io.stream = some stream) (hwriter : stream.writer = some write)
    (hall : AllOrNothing write) (hlen : linked.call mem str = some (BitVec.ofNat 64 n))
    (hpos : 0 < n) (hn : n < 2 ^ 31) :
    PutsRight io (fputs linked mem str io) (stringBytes mem str k) ↔
      (write stream.cookie (stringBytes mem str n)).1 ≤ 0 ∨ n = k := by
  obtain ⟨io', hrun, hcalled⟩ := fputs_call hstream hwriter hall hlen hpos hn
  rw [hrun]
  by_cases hfail : (write stream.cookie (stringBytes mem str n)).1 ≤ 0
  · rw [if_pos hfail]
    exact iff_of_true (putsRight_failed hcalled.calls_eq rfl ⟨_, List.mem_cons_self, hfail⟩ _)
      (Or.inl hfail)
  · have htaken := (hall stream.cookie (stringBytes mem str n)).resolve_right hfail
    have heof : (n : Int) ≠ eof := by simp [eof]
    rw [if_neg hfail, putsRight_taken hcalled.calls_eq heof
      (by simpa [htaken, stringBytes_length] using hpos)]
    simp [stringBytes_inj, hfail]

theorem puts_right_iff (hstream : io.stream = some stream) (hwriter : stream.writer = some write)
    (hall : AllOrNothing write) (hlen : linked.call mem str = some (BitVec.ofNat 64 n))
    (hpos : 0 < n) (hn : n < 2 ^ 31) :
    PutsRight io (puts linked mem str io) (stringBytes mem str k ++ [ch '\n']) ↔
      ((write stream.cookie (stringBytes mem str n)).1 ≤ 0 ∨
        (write (write stream.cookie (stringBytes mem str n)).2 [ch '\n']).1 ≤ 0) ∨ n = k := by
  obtain ⟨io₁, hrun, hcalled⟩ := fputs_call hstream hwriter hall hlen hpos hn
  simp only [puts, hrun, Option.bind_eq_bind, Option.bind_some]
  by_cases hfail : (write stream.cookie (stringBytes mem str n)).1 ≤ 0
  · rw [if_pos hfail, if_pos rfl]
    exact iff_of_true (putsRight_failed hcalled.calls_eq rfl ⟨_, List.mem_cons_self, hfail⟩ _)
      (Or.inl (Or.inl hfail))
  · have htaken := (hall stream.cookie (stringBytes mem str n)).resolve_right hfail
    have heof : (n : Int) ≠ eof := by simp [eof]
    obtain ⟨error, hstream₁⟩ := hcalled.stream_eq
    obtain ⟨io₂, hput, hcalled₂⟩ := fputc_call hstream₁ rfl hall (ch '\n')
    have hlast := hall (write stream.cookie (stringBytes mem str n)).2 [ch '\n']
    have hcalls := hcalled₂.calls_eq
    rw [hcalled.calls_eq, List.append_assoc] at hcalls
    simp only [if_neg hfail, if_neg heof, hput]
    generalize (write (write stream.cookie (stringBytes mem str n)).2 [ch '\n']).1 = last at *
    by_cases hfail₂ : last ≤ 0
    · rw [if_pos hfail₂, if_pos rfl]
      have hmem : ∀ call : List Byte × Int, ([ch '\n'], last) ∈ [call] ++ [([ch '\n'], last)] := by
        simp
      exact iff_of_true (putsRight_failed hcalls rfl ⟨_, hmem _, hfail₂⟩ _)
        (Or.inl (Or.inr hfail₂))
    · have htaken₂ := hlast.resolve_right hfail₂
      have hret : (1#32 + BitVec.ofInt 32 n).toInt ≠ eof := by
        rw [BitVec.ofInt_natCast, ← BitVec.ofNat_add, BitVec.toInt_eq_toNat_cond,
          BitVec.toNat_ofNat, eof]
        split <;> omega
      have hiff := putsRight_taken hcalls hret
        (by simpa [htaken, htaken₂, stringBytes_length] using hpos)
        (stringBytes mem str k ++ [ch '\n'])
      rw [if_neg hfail₂, if_neg (by decide)]
      apply hiff.trans
      simp [stringBytes_inj, hfail, hfail₂]

theorem not_putsRight_empty {io' : Stdio σ} (hcalls : io'.calls = io.calls) (out : List Byte) :
    ¬ PutsRight io (some (eof, io')) out := by
  intro h
  obtain ⟨ret, io'', made, he, hcalls', hret, -⟩ := h
  cases he
  rw [hcalls] at hcalls'
  obtain rfl := List.self_eq_append_right.mp hcalls'
  simp at hret

/-- With `strlen` in C both functions are right for all strings but the empty one, for which there
is no call that might fail; in assembly, where the null byte is written too, only if a call fails. -/
theorem fputs_puts_right (hstream : io.stream = some stream) (hwriter : stream.writer = some write)
    (hall : AllOrNothing write) (hat : StringAt mem str k) (hk : k < 2 ^ 31 - 1)
    (linked : LinkedStrlen) :
    (PutsRight io (fputs linked mem str io) (stringBytes mem str k) ↔
      match linked with
      | .c => k ≠ 0
      | .x86 _ _ _ => (write stream.cookie (stringBytes mem str (k + 1))).1 ≤ 0) ∧
    (PutsRight io (puts linked mem str io) (stringBytes mem str k ++ [ch '\n']) ↔
      match linked with
      | .c => k ≠ 0
      | .x86 _ _ _ => (write stream.cookie (stringBytes mem str (k + 1))).1 ≤ 0 ∨
          (write (write stream.cookie (stringBytes mem str (k + 1))).2 [ch '\n']).1 ≤ 0) := by
  have hlen := linked.call_eq hat (by omega)
  cases linked with
  | c =>
    simp only [LinkedStrlen.count] at hlen
    by_cases hz : k = 0
    · subst hz
      have hputs := fputs_empty hstream hwriter hlen
      have hnot := fun out => @not_putsRight_empty σ io { io with errno := .none } rfl out
      constructor
      · rw [hputs]
        exact iff_of_false (hnot _) (fun h => h rfl)
      · simp only [puts, hputs, Option.bind_eq_bind, Option.bind_some, if_true]
        exact iff_of_false (hnot _) (fun h => h rfl)
    · have hpos := Nat.pos_of_ne_zero hz
      rw [fputs_right_iff hstream hwriter hall hlen hpos (by omega),
        puts_right_iff hstream hwriter hall hlen hpos (by omega)]
      exact ⟨iff_of_true (Or.inr rfl) hz, iff_of_true (Or.inr rfl) hz⟩
  | x86 regs rsi rdx =>
    simp only [LinkedStrlen.count] at hlen
    rw [fputs_right_iff hstream hwriter hall hlen (Nat.succ_pos k) (by omega),
      puts_right_iff hstream hwriter hall hlen (Nat.succ_pos k) (by omega)]
    exact ⟨or_iff_left (Nat.succ_ne_self k), or_iff_left (Nat.succ_ne_self k)⟩

end Writer

def nullWriter : CookieWrite Unit := fun _ buf => ((buf.length : Int), ())

def nullStream : Stdio Unit := ⟨some ⟨(), some nullWriter, false⟩, .none, []⟩

theorem oneByteString_at : StringAt oneByteString.mem 0x1000#64 1 := by
  refine ⟨?_, by decide⟩
  intro i hi
  obtain rfl : i = 0 := by omega
  decide

theorem fputs_puts_right_example :
    PutsRight nullStream (fputs .c oneByteString.mem 0x1000#64 nullStream) [0x41#8] ∧
    PutsRight nullStream (puts .c oneByteString.mem 0x1000#64 nullStream) [0x41#8, ch '\n'] := by
  have hall : AllOrNothing nullWriter := fun _ _ => Or.inl rfl
  have hright := @fputs_puts_right _ _ _ nullStream _ _ _ rfl rfl hall oneByteString_at
    (by decide) .c
  exact ⟨hright.1.mpr (by decide), hright.2.mpr (by decide)⟩

/-- The empty string makes no call and `EOF`; with `strlen` in assembly a null byte is written. -/
theorem fputs_empty_string : StringAt oneByteString.mem 0#64 0 ∧
    fputs .c oneByteString.mem 0#64 nullStream = some (eof, nullStream) ∧
    ¬ PutsRight nullStream (fputs .c oneByteString.mem 0#64 nullStream) [] ∧
    ¬ PutsRight nullStream
      (fputs (.x86 (fun _ => 0#64) 0#64 0#64) oneByteString.mem 0#64 nullStream) [] := by
  have hat : StringAt oneByteString.mem 0#64 0 := ⟨fun i hi => absurd hi (Nat.not_lt_zero i), rfl⟩
  have hputs : fputs .c oneByteString.mem 0#64 nullStream = some (eof, nullStream) :=
    fputs_empty rfl rfl (LinkedStrlen.c.call_eq hat (by decide))
  have hlen := (LinkedStrlen.x86 (fun _ => 0#64) 0#64 0#64).call_eq hat (by decide)
  refine ⟨hat, hputs, ?_, ?_⟩
  · rw [hputs]
    exact not_putsRight_empty rfl []
  · have hall : AllOrNothing nullWriter := fun _ _ => Or.inl rfl
    intro h
    have hright := (@fputs_right_iff _ _ _ nullStream _ _ 0 _ 1 rfl rfl hall hlen (by decide)
      (by decide)).mp h
    revert hright
    decide

end Ukulele
