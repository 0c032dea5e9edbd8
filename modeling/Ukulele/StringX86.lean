import Ukulele.LibkString

/-! The string functions in assembly, which take the place of those in C when the kernel is
linked. The direction flag is clear, and no instruction reads the other flags.
-/

set_option autoImplicit false

namespace Ukulele
open ByteRange

inductive Reg where
  | rax : Reg
  | rcx : Reg
  | rdx : Reg
  | rdi : Reg
  | rsi : Reg
  deriving DecidableEq, Repr

structure X86State where
  regs : Reg → BitVec 64
  mem : ByteMemory

def X86State.set (s : X86State) (r : Reg) (value : BitVec 64) : X86State :=
  { s with regs := Function.update s.regs r value }

@[simp] theorem set_mem (s : X86State) (r : Reg) (value : BitVec 64) :
    (s.set r value).mem = s.mem := rfl

@[simp] theorem set_regs (s : X86State) (r q : Reg) (value : BitVec 64) :
    (s.set r value).regs q = if q = r then value else s.regs q := by
  simp [X86State.set, Function.update_apply]

/-- The instructions of the four routines; `xorEax` also clears the upper half of `rax`. -/
inductive Instr where
  | mov : Reg → Reg → Instr
  | movAlSil : Instr
  | xorEax : Instr
  | or : Reg → BitVec 64 → Instr
  | sub : Reg → Reg → Instr
  | repMovsb : Instr
  | repStosb : Instr
  | repneScasb : Instr
  | ret : Instr
  deriving DecidableEq, Repr

def X86State.al (s : X86State) : BitVec 8 := (s.regs .rax).setWidth 8

def movsb (s : X86State) : X86State :=
  let t : X86State :=
    { s with mem := Function.update s.mem (s.regs .rdi) (s.mem (s.regs .rsi)) }
  (t.set .rdi (s.regs .rdi + 1#64)).set .rsi (s.regs .rsi + 1#64)

def stosb (s : X86State) : X86State :=
  let t : X86State := { s with mem := Function.update s.mem (s.regs .rdi) s.al }
  t.set .rdi (s.regs .rdi + 1#64)

def scasb (s : X86State) : X86State := s.set .rdi (s.regs .rdi + 1#64)

def X86State.countDown (s : X86State) : X86State := s.set .rcx (s.regs .rcx - 1#64)

/-- `rep`: as long as `rcx` is not zero, which is the number of rounds left. -/
def rep (body : X86State → X86State) : Nat → X86State → X86State
  | 0, s => s
  | n + 1, s => rep body n (body s.countDown)

/-- `repne scasb`: the round that finds `al` is the last one, after it has moved `rdi`. -/
def repne : Nat → X86State → X86State
  | 0, s => s
  | n + 1, s =>
    if s.mem (s.regs .rdi) = s.al then scasb s.countDown else repne n (scasb s.countDown)

def Instr.exec (i : Instr) (s : X86State) : X86State :=
  match i with
  | .mov dst src => s.set dst (s.regs src)
  | .movAlSil => s.set .rax (s.regs .rax &&& ~~~0xff#64 ||| s.regs .rsi &&& 0xff#64)
  | .xorEax => s.set .rax 0#64
  | .or dst imm => s.set dst (s.regs dst ||| imm)
  | .sub dst src => s.set dst (s.regs dst - s.regs src)
  | .repMovsb => rep movsb (s.regs .rcx).toNat s
  | .repStosb => rep stosb (s.regs .rcx).toNat s
  | .repneScasb => repne (s.regs .rcx).toNat s
  | .ret => s

def run : List Instr → X86State → X86State
  | [], s => s
  | .ret :: _, s => s
  | i :: code, s => run code (i.exec s)

def memcpyX86 : List Instr := [.mov .rax .rdi, .mov .rcx .rdx, .repMovsb, .ret]

def memsetX86 : List Instr :=
  [.mov .rcx .rdx, .mov .rdx .rdi, .movAlSil, .repStosb, .mov .rax .rdx, .ret]

def strnlenX86 : List Instr :=
  [.mov .rdx .rdi, .mov .rcx .rsi, .xorEax, .repneScasb, .mov .rax .rdi, .sub .rax .rdx, .ret]

/-- The jump goes to the first instruction of `strnlen`. -/
def strlenX86 : List Instr := .or .rsi (-1#64) :: strnlenX86

/-- The state that a routine returns in, with its arguments in `rdi`, `rsi` and `rdx`. -/
def callX86 (code : List Instr) (s : X86State) (rdi rsi rdx : BitVec 64) : X86State :=
  run code (((s.set .rdi rdi).set .rsi rsi).set .rdx rdx)

theorem rep_movsb_mem (n : Nat) (s : X86State) :
    (rep movsb n s).mem = copy n (s.regs .rdi) (s.regs .rsi) s.mem := by
  induction n generalizing s with
  | zero => rfl
  | succ n ih =>
    rw [rep, ih]
    simp [movsb, X86State.countDown, copy]

theorem rep_movsb_rax (n : Nat) (s : X86State) : (rep movsb n s).regs .rax = s.regs .rax := by
  induction n generalizing s with
  | zero => rfl
  | succ n ih =>
    rw [rep, ih]
    simp [movsb, X86State.countDown]

theorem memcpyX86_eq (s : X86State) (dst src : Uintptr) (count : Size) :
    (callX86 memcpyX86 s dst src count).mem = memcpy s.mem dst src count ∧
    (callX86 memcpyX86 s dst src count).regs .rax = dst := by
  unfold callX86 memcpyX86 memcpy
  simp [run, Instr.exec, rep_movsb_mem, rep_movsb_rax]

theorem rep_stosb_mem (n : Nat) (s : X86State) :
    (rep stosb n s).mem = fill n (s.regs .rdi) s.al s.mem := by
  induction n generalizing s with
  | zero => rfl
  | succ n ih =>
    rw [rep, ih]
    simp [stosb, X86State.countDown, X86State.al, fill]

theorem rep_stosb_rdx (n : Nat) (s : X86State) : (rep stosb n s).regs .rdx = s.regs .rdx := by
  induction n generalizing s with
  | zero => rfl
  | succ n ih =>
    rw [rep, ih]
    simp [stosb, X86State.countDown]

theorem and_byteMask (x : BitVec 8) : x &&& 0xff#8 = x := BitVec.and_allOnes

/-- The routines that write do to memory what the functions in C do, and return their destination,
whatever the registers held and however the ranges overlap or wrap; and filling changes the bytes of
the range and no others. -/
theorem string_x86_writes_agree (s : X86State) (dst src rsi : BitVec 64) (count : Size) :
    ((callX86 memcpyX86 s dst src count).mem = memcpy s.mem dst src count ∧
      (callX86 memcpyX86 s dst src count).regs .rax = dst) ∧
    ((callX86 memsetX86 s dst rsi count).mem = memset s.mem dst (rsi.setWidth 32) count ∧
      (callX86 memsetX86 s dst rsi count).regs .rax = dst) ∧
    ∀ ch a, memset s.mem dst ch count a =
      if offset dst a < count.toNat then ch.setWidth 8 else s.mem a := by
  refine ⟨memcpyX86_eq s dst src count, ⟨?_, ?_⟩, ?_⟩
  · unfold callX86 memsetX86 memset
    simp [run, Instr.exec, rep_stosb_mem, X86State.al, and_byteMask]
  · unfold callX86 memsetX86
    simp [run, Instr.exec, rep_stosb_rdx]
  · intro ch a
    exact fill_apply count.toNat (Nat.le_of_lt count.isLt) dst _ s.mem a

theorem repne_rdx (n : Nat) (s : X86State) :
    (repne n s).regs .rdx = s.regs .rdx := by
  induction n generalizing s with
  | zero => rfl
  | succ n ih =>
    unfold repne
    split
    · simp [scasb, X86State.countDown]
    · rw [ih]
      simp [scasb, X86State.countDown]

theorem repne_rdi (n : Nat) (s : X86State) (h : s.al = 0#8) :
    (repne n s).regs .rdi = s.regs .rdi +
      BitVec.ofNat 64 (min n (before isNul s.mem n (s.regs .rdi) + 1)) := by
  induction n generalizing s with
  | zero => simp [repne]
  | succ n ih =>
    unfold repne before
    rw [h]
    by_cases hz : s.mem (s.regs .rdi) = 0#8
    · simp [hz, isNul, scasb, X86State.countDown]
    · have hal : (scasb s.countDown).al = 0#8 := by
        simpa [scasb, X86State.countDown, X86State.al] using h
      rw [if_neg hz, ih _ hal]
      simp only [scasb, X86State.countDown, set_mem, set_regs, isNul, hz, beq_iff_eq, if_false,
        reduceCtorEq, if_true]
      rw [add_one_ofNat, Nat.succ_min_succ]

theorem run_strnlenX86 (s : X86State) : (run strnlenX86 s).regs .rax =
    BitVec.ofNat 64 (min (s.regs .rsi).toNat
      (before isNul s.mem (s.regs .rsi).toNat (s.regs .rdi) + 1)) := by
  simp [run, strnlenX86, Instr.exec, repne_rdx, repne_rdi, X86State.al]

theorem strnlenX86_eq (s : X86State) (str : Uintptr) (n rdx : BitVec 64) :
    (callX86 strnlenX86 s str n rdx).regs .rax =
      BitVec.ofNat 64 (min n.toNat (before isNul s.mem n.toNat str + 1)) := by
  rw [callX86, run_strnlenX86]
  simp

theorem strlenX86_eq (s : X86State) (str : Uintptr) (rsi rdx : BitVec 64) :
    (callX86 strlenX86 s str rsi rdx).regs .rax =
      BitVec.ofNat 64 (min (2 ^ 64 - 1) (before isNul s.mem (2 ^ 64 - 1) str + 1)) := by
  have hmax : (rsi ||| (-1#64)).toNat = 2 ^ 64 - 1 := by
    rw [show rsi ||| (-1#64) = BitVec.allOnes 64 from BitVec.or_allOnes, BitVec.toNat_allOnes]
  rw [callX86, strlenX86, run, run_strnlenX86]
  simp only [Instr.exec, set_regs, set_mem, reduceCtorEq, if_true, if_false, hmax]
  nofun

theorem strlenLoop_none {mem : ByteMemory} (fuel : Nat) {str : Uintptr} (len : Size)
    (h : ∀ i < fuel, mem (str + BitVec.ofNat 64 i) ≠ 0#8) :
    strlenLoop mem fuel str len = none := by
  induction fuel generalizing str len with
  | zero => rfl
  | succ fuel ih =>
    have hz : mem str ≠ 0#8 := by simpa using h 0 (by omega)
    rw [strlenLoop, if_neg hz]
    apply ih
    intro i hi
    rw [add_one_ofNat]
    exact h (i + 1) (by omega)

theorem exists_stringAt {mem : ByteMemory} {str : Uintptr} {n : Nat}
    (h : before isNul mem n str < n) : ∃ k < n, StringAt mem str k := by
  refine ⟨before isNul mem n str, h, ?_, ?_⟩
  · intro i hi
    simpa [isNul] using not_of_lt_before hi
  · simpa [isNul] using of_before_lt h

/-- `strnlen` in assembly counts the null byte if it meets one, and `strlen` always does: they agree
with the functions in C on no terminated string, short of one that fills the address space. -/
theorem string_x86_agrees (s : X86State) (str : Uintptr) (n rsi rdx : BitVec 64) :
    ((callX86 strnlenX86 s str n rdx).regs .rax = strnlen s.mem str n ↔
      ∀ i < n.toNat, s.mem (str + BitVec.ofNat 64 i) ≠ 0#8) ∧
    (strlen s.mem str = some ((callX86 strlenX86 s str rsi rdx).regs .rax) ↔
      StringAt s.mem str (2 ^ 64 - 1)) := by
  have hn := n.isLt
  have hle := before_le (p := isNul) (m := s.mem) n.toNat str
  constructor
  · have hbound := before_eq_bound_iff (p := isNul) (m := s.mem) (n := n.toNat) (a := str)
    simp only [isNul, beq_eq_false_iff_ne, ne_eq] at hbound
    rw [← BitVec.toNat_inj, toNat_strnlen, strnlenX86_eq, BitVec.toNat_ofNat,
      Nat.mod_eq_of_lt (by omega), ← hbound]
    omega
  · rw [strlenX86_eq]
    have hbound := before_le (p := isNul) (m := s.mem) (2 ^ 64 - 1) str
    constructor
    · intro h
      by_cases hnul : before isNul s.mem (2 ^ 64) str < 2 ^ 64
      · obtain ⟨k, hk, hat⟩ := exists_stringAt hnul
        rw [strlen_eq hat hk, hat.before_eq, Option.some.injEq, ← BitVec.toNat_inj,
          BitVec.toNat_ofNat, BitVec.toNat_ofNat, Nat.mod_eq_of_lt hk,
          Nat.mod_eq_of_lt (by omega)] at h
        rw [show 2 ^ 64 - 1 = k by omega]
        exact hat
      · have hall := before_eq_bound_iff.mp
          (Nat.le_antisymm (before_le _ _) (Nat.not_lt.mp hnul))
        rw [strlen, strlenLoop_none] at h
        · contradiction
        · intro i hi
          simpa [isNul] using hall i hi
    · intro hat
      rw [strlen_eq hat (by omega), hat.before_eq]
      congr 2

def oneByteString : X86State := ⟨fun _ => 0#64, fun a => if a = 0x1000#64 then 0x41#8 else 0#8⟩

theorem strlen_x86_counts_nul : StringAt oneByteString.mem 0x1000#64 1 ∧
    strnlen oneByteString.mem 0x1000#64 8#64 = 1#64 ∧
    (callX86 strnlenX86 oneByteString 0x1000#64 8#64 0#64).regs .rax = 2#64 ∧
    strlen oneByteString.mem 0x1000#64 = some 1#64 ∧
    (callX86 strlenX86 oneByteString 0x1000#64 0#64 0#64).regs .rax = 2#64 := by
  have hat : StringAt oneByteString.mem 0x1000#64 1 := by
    refine ⟨?_, by decide⟩
    intro i hi
    obtain rfl : i = 0 := by omega
    decide
  refine ⟨hat, by decide, by decide, strlen_eq hat (by decide), ?_⟩
  rw [strlenX86_eq, hat.before_eq]
  decide

end Ukulele
