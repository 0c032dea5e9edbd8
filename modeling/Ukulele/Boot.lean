import Ukulele.FramebufferConsole
import Ukulele.LibkStrstr
import Ukulele.SerialPorts
import Ukulele.SerialConsole

/-! The start of `kernel_main`: the console is chosen, and the ports are looked for. What the
streams of the kernel work on is the cookie: the machine with its ports, the cursor, the memory.
-/

set_option autoImplicit false

namespace Ukulele
open Isolation Occurrences

structure Devices (σ : Type) where
  ports : σ
  screen : FbCookie × ByteMemory

def serialText : List Byte := ['s', 'e', 'r', 'i', 'a', 'l'].map ch
def fractalText : List Byte := ['f', 'r', 'a', 'c', 't', 'a', 'l'].map ch

def bootText : List Byte :=
  ['=', '=', '=', ' ', 'S', 'Y', 'S', 'T', 'E', 'M', ' ', 'B', 'O', 'O', 'T', ' ', '=', '=', '=',
    '\n'].map ch

def detectedText : List Byte :=
  ['D', 'e', 't', 'e', 'c', 't', 'e', 'd', ' ', 's', 'e', 'r', 'i', 'a', 'l', ' ', 'p', 'o', 'r',
    't', ':', ' '].map ch

def bootFormat : List Byte := bootText ++ [0#8]
def detectedFormat : List Byte := detectedText ++ [ch '%', ch 'i', ch '\n', 0#8]

def serialPortIds : List SerialPortId := [.serialPort1, .serialPort2, .serialPort3, .serialPort4]

def SerialPortId.value : SerialPortId → BitVec 32
  | .serialPort1 => 0#32
  | .serialPort2 => 1#32
  | .serialPort3 => 2#32
  | .serialPort4 => 3#32

section Kernel

variable {σ : Type} (io : IoSpace σ) (font8x8 : Nat → Nat → Byte)
  (strnlen : ByteMemory → Uintptr → Size → Size) (mem : ByteMemory)

def consolePut (serial : Bool) (d : Devices σ) (c : Byte) : Devices σ :=
  if serial then { d with ports := ((serialWrite io .serialPort1 c).run d.ports).2 }
  else { d with screen := fbPut font8x8 d.screen c }

/-- The port is looked for only where the command line asks for it. -/
def kernelMainConsole (cmdline : List Byte) (fb : FbConfig) (s : σ) (screen : ByteMemory) :
    Except StrstrFault (Stdio (Devices σ) × Bool) := do
  let useSerial ← strstr cmdline (serialText ++ [0#8])
  let doFractal ← strstr cmdline (fractalText ++ [0#8])
  let (found, s) :=
    if useSerial.isSome then (serialDetect io .serialPort1).run s else (false, s)
  return (⟨some ⟨⟨s, ⟨fb, 0, 0⟩, screen⟩, some (byteWriter (consolePut io font8x8 found)), false⟩,
    .none, []⟩, doFractal.isSome)

def printf (fmt : List Byte) (args : List (BitVec 64)) : EStateM Stop (Stdio σ) Int := fun stdio =>
  match vfprintf strnlen mem fmt ⟨stdio, args⟩ with
  | .ok n s => .ok n s.io
  | .error e s => .error e s.io

/-- The detection of a port on the machine behind the stream, if there is one. -/
def detectPort (n : SerialPortId) : EStateM Stop (Stdio (Devices σ)) Bool := fun stdio =>
  match stdio.stream with
  | none => .ok false stdio
  | some stream =>
    let (found, s) := (serialDetect io n).run stream.cookie.ports
    .ok found { stdio with
      stream := some { stream with cookie := { stream.cookie with ports := s } } }

def printDetected : List SerialPortId → EStateM Stop (Stdio (Devices σ)) Unit
  | [] => pure ()
  | port :: ports => do
    let found ← detectPort io port
    if found then
      let _ ← printf strnlen mem detectedFormat [(port.value + 1#32).setWidth 64]
    printDetected ports

def kernelMainGreet : EStateM Stop (Stdio (Devices σ)) Unit := do
  let _ ← printf strnlen mem bootFormat []
  printDetected io strnlen mem serialPortIds

end Kernel

section Ports

variable {σ : Type} {io : IoSpace σ} {δ : SerialPortId → Type}
  {view : (n : SerialPortId) → σ → δ n} {present : SerialPortId → Bool}
  {see : (n : SerialPortId) → δ n → Uart}

/-- At each port is a chip, or something that does not keep the byte for the test. -/
structure PortsFitted (io : IoSpace σ) (view : (n : SerialPortId) → σ → δ n)
    (present : SerialPortId → Bool) (see : (n : SerialPortId) → δ n → Uart) : Prop where
  apart : PortsApart io view
  chip : ∀ n, present n = true → Ns16550 io (serialAddress n) fun s => see n (view n s)
  empty : ∀ n, present n = false → ∀ s,
    ((ioPortRead io (serialAddress n + regScratch)).run s).1 ≠ scratchTestByte

theorem serialDetect_empty {n : SerialPortId} (h : ∀ s,
    ((ioPortRead io (serialAddress n + regScratch)).run s).1 ≠ scratchTestByte) (s : σ) :
    ((serialDetect io n).run s).1 = false := by
  unfold serialDetect
  simp only [run_bind]
  rw [if_pos (Ne.symm (h _))]
  rfl

def PortIdle (view : (n : SerialPortId) → σ → δ n) (present : SerialPortId → Bool)
    (see : (n : SerialPortId) → δ n → Uart) (n : SerialPortId) (s : σ) : Prop :=
  present n = true → (see n (view n s)).unsent = []

theorem PortsFitted.serialDetect (h : PortsFitted io view present see) (n : SerialPortId) (s : σ)
    (hidle : PortIdle view present see n s) : ((serialDetect io n).run s).1 = present n := by
  cases hn : present n with
  | false => exact serialDetect_empty (h.empty n hn) s
  | true => exact (takes_serialDetect (h.chip n hn) _ (hidle hn) s rfl).1

def portText (serial : Bool) (n : SerialPortId) (out : List Byte) : List Byte :=
  if serial ∧ n = .serialPort1 then out else []

def screenText (serial : Bool) (out : List Byte) : List Byte := if serial then [] else out

@[simp] theorem portText_nil (serial : Bool) (n : SerialPortId) : portText serial n [] = [] := by
  simp [portText]

@[simp] theorem portText_screen (n : SerialPortId) (out : List Byte) :
    portText false n out = [] := by simp [portText]

@[simp] theorem portText_first (out : List Byte) : portText true .serialPort1 out = out := by
  simp [portText]

theorem portText_other {n : SerialPortId} (hn : n ≠ .serialPort1) (serial : Bool)
    (out : List Byte) : portText serial n out = [] := by simp [portText, hn]

@[simp] theorem screenText_serial (out : List Byte) : screenText true out = [] := rfl
@[simp] theorem screenText_screen (out : List Byte) : screenText false out = out := rfl

/-- The text is on the console, and the other devices have sent and shown nothing since `d₀`. -/
structure OneConsole (view : (n : SerialPortId) → σ → δ n) (present : SerialPortId → Bool)
    (see : (n : SerialPortId) → δ n → Uart) (font8x8 : Nat → Nat → Byte) (fb : FbConfig)
    (d₀ : σ × ByteMemory) (serial : Bool) (out : List Byte) (d : Devices σ) : Prop where
  sent : ∀ n, present n = true →
    (see n (view n d₀.1)).Carries (portText serial n out) (see n (view n d.ports))
  ready : serial = true →
    present .serialPort1 = true ∧ (see .serialPort1 (view .serialPort1 d.ports)).Ready
  screen : Drawn font8x8 fb d₀.2 (screenText serial out) d.screen

variable {font8x8 : Nat → Nat → Byte} {fb : FbConfig} {d₀ : σ × ByteMemory} {serial : Bool}
  {out : List Byte} {d : Devices σ}

theorem OneConsole.put (h : PortsFitted io view present see) (c : Byte)
    (hd : OneConsole view present see font8x8 fb d₀ serial out d) :
    OneConsole view present see font8x8 fb d₀ serial (out ++ [c])
      (consolePut io font8x8 serial d c) := by
  obtain ⟨hsent, hready, hscreen⟩ := hd
  cases serial with
  | false => exact ⟨by simpa [consolePut] using hsent, by simp, hscreen.put font8x8 c⟩
  | true =>
    obtain ⟨hpresent, hfirst⟩ := hready rfl
    have hbyte := serialWrite_takesByte (h.chip _ hpresent) hfirst c
    constructor
    · intro n hn
      have hbefore := hsent n hn
      rw [consolePut, if_pos rfl]
      by_cases hport : n = .serialPort1
      · subst hport
        rw [portText_first] at hbefore ⊢
        exact hbefore.trans hbyte.carries
      · have hkeep : view n ((serialWrite io .serialPort1 c).run d.ports).2 = view n d.ports :=
          (h.apart.writeData .serialPort1 c).rest d.ports n hport
        rw [portText_other hport] at hbefore ⊢
        dsimp only
        rwa [hkeep]
    · intro _
      exact ⟨hpresent, hfirst.queues hbyte.registers⟩
    · exact hscreen

theorem OneConsole.idle (hd : OneConsole view present see font8x8 fb d₀ serial out d)
    {n : SerialPortId} (hidle : PortIdle view present see n d₀.1)
    (hn : serial = true → n ≠ .serialPort1) : PortIdle view present see n d.ports := by
  intro hpresent
  have hcarries := hd.sent n hpresent
  have hnone : portText serial n out = [] := if_neg fun hboth => hn hboth.1 hboth.2
  rw [hnone] at hcarries
  exact hcarries.idle (hidle hpresent)

theorem OneConsole.detect (h : PortsFitted io view present see) (n : SerialPortId)
    (hd : OneConsole view present see font8x8 fb d₀ serial out d)
    (hidle : PortIdle view present see n d.ports) :
    OneConsole view present see font8x8 fb d₀ serial out
      { d with ports := ((Ukulele.serialDetect io n).run d.ports).2 } := by
  obtain ⟨hsent, hready, hscreen⟩ := hd
  have hown : ∀ hn : present n = true, see n (view n ((Ukulele.serialDetect io n).run d.ports).2) =
      { (see n (view n d.ports)).setUp with received := [] } :=
    fun hn => (takes_serialDetect (h.chip n hn) _ (hidle hn) d.ports rfl).2
  have hother := (h.apart.serialDetect n).rest d.ports
  constructor
  · intro m hm
    by_cases hport : m = n
    · subst hport
      rw [hown hm]
      exact (hsent m hm).keep (carries_of_same rfl rfl rfl)
    · rw [hother m hport]
      exact hsent m hm
  · intro hs
    obtain ⟨hpresent, hfirst⟩ := hready hs
    refine ⟨hpresent, ?_⟩
    by_cases hport : n = .serialPort1
    · subst hport
      rw [hown hpresent]
      rfl
    · rwa [hother _ (Ne.symm hport)]
  · exact hscreen

abbrev OnStream (io : IoSpace σ) (view : (n : SerialPortId) → σ → δ n)
    (present : SerialPortId → Bool) (see : (n : SerialPortId) → δ n → Uart)
    (font8x8 : Nat → Nat → Byte) (fb : FbConfig) (d₀ : σ × ByteMemory) (serial : Bool)
    (stdio : Stdio (Devices σ)) : Prop :=
  OpenWith (consolePut io font8x8 serial)
    (OneConsole view present see font8x8 fb d₀ serial) stdio

variable {strnlen : ByteMemory → Uintptr → Size → Size} {mem : ByteMemory}
  {stdio : Stdio (Devices σ)}

theorem OnStream.printf (h : PortsFitted io view present see)
    (hs : OnStream io view present see font8x8 fb d₀ serial stdio) {ds : List Directive}
    (hds : PrintsText strnlen mem ds) (extra : List (BitVec 64)) : ∃ k after,
      printf strnlen mem (textOf ds ++ [0#8]) (argsOf ds ++ extra) stdio = .ok k after ∧
      after.delivered = stdio.delivered ++ ds.flatMap (Directive.expansion mem) ∧
      OnStream io view present see font8x8 fb d₀ serial after := by
  obtain ⟨k, s, hcall, hdelivered, hopen⟩ := OpenWith.vfprintf
    (fun out d c hd => OneConsole.put h c hd) hs hds extra
  refine ⟨k, s.io, ?_, hdelivered, hopen⟩
  rw [Ukulele.printf, hcall]

def StreamIdle (view : (n : SerialPortId) → σ → δ n) (present : SerialPortId → Bool)
    (see : (n : SerialPortId) → δ n → Uart) (n : SerialPortId) (stdio : Stdio (Devices σ)) : Prop :=
  ∀ stream, stdio.stream = some stream → PortIdle view present see n stream.cookie.ports

theorem OnStream.idle (hs : OnStream io view present see font8x8 fb d₀ serial stdio)
    {n : SerialPortId} (hidle : PortIdle view present see n d₀.1)
    (hn : serial = true → n ≠ .serialPort1) : StreamIdle view present see n stdio := by
  obtain ⟨cookie, error, hstream, hd⟩ := hs
  intro stream hsome
  cases hstream.symm.trans hsome
  exact hd.idle hidle hn

theorem OnStream.detectPort (h : PortsFitted io view present see) (n : SerialPortId)
    (hs : OnStream io view present see font8x8 fb d₀ serial stdio)
    (hidle : StreamIdle view present see n stdio) : ∃ after,
      detectPort io n stdio = .ok (present n) after ∧ after.delivered = stdio.delivered ∧
      OnStream io view present see font8x8 fb d₀ serial after := by
  obtain ⟨cookie, error, hstream, hd⟩ := hs
  have hport := hidle _ hstream
  refine ⟨{ stdio with stream := some ⟨{ cookie with
    ports := ((serialDetect io n).run cookie.ports).2 }, _, error⟩ }, ?_, rfl, _, error, rfl,
      hd.detect h n hport⟩
  rw [Ukulele.detectPort, hstream, ← h.serialDetect n cookie.ports hport]
  rfl

def portLine (n : SerialPortId) : List Byte :=
  detectedText ++ (numeral 10 (n.value.toNat + 1) ++ [ch '\n'])

def greeting (present : SerialPortId → Bool) : List Byte :=
  bootText ++ (serialPortIds.filter present).flatMap portLine

def detectedDirectives (n : SerialPortId) : List Directive :=
  detectedText.map .ordinary ++
    [.number ⟨false, [], .none⟩ .i ((n.value + 1#32).setWidth 64), .ordinary (ch '\n')]

theorem bootDirectives_text (hcounts : CountsString strnlen) (mem : ByteMemory) :
    PrintsText strnlen mem (bootText.map .ordinary) := by
  constructor
  · exact hcounts
  · simp [bootText, Directive.WellFormed, ch]
  · simp [bootText, Directive.expansion]
  · simp [bootText, Directive.PrintsRight, ch]

theorem detectedDirectives_expansion (n : SerialPortId) :
    (detectedDirectives n).flatMap (Directive.expansion mem) = portLine n := by
  cases n <;> rfl

theorem detectedDirectives_text (hcounts : CountsString strnlen) (mem : ByteMemory)
    (n : SerialPortId) :
    PrintsText strnlen mem (detectedDirectives n) := by
  constructor
  · exact hcounts
  · simp [detectedDirectives, detectedText, Directive.WellFormed, Promoted, LengthModifier.bits, ch]
  · rw [detectedDirectives_expansion]
    cases n <;> decide
  · simp [detectedDirectives, detectedText, Directive.PrintsRight, WidthFits, decimal,
      decimalFrom, ch]

theorem OnStream.printPort (h : PortsFitted io view present see) (hcounts : CountsString strnlen)
    (port : SerialPortId) (ports : List SerialPortId)
    (hs : OnStream io view present see font8x8 fb d₀ serial stdio)
    (hidle : StreamIdle view present see port stdio) : ∃ after,
      printDetected io strnlen mem (port :: ports) stdio =
        printDetected io strnlen mem ports after ∧
      after.delivered = stdio.delivered ++ ([port].filter present).flatMap portLine ∧
      OnStream io view present see font8x8 fb d₀ serial after := by
  obtain ⟨found, hdetect, hsame, hfound⟩ := hs.detectPort h port hidle
  cases hport : present port with
  | false =>
    refine ⟨found, ?_, ?_, hfound⟩
    · rw [Ukulele.printDetected, Faults.bind_ok hdetect, hport]
      rfl
    · rw [hsame, List.filter_cons_of_neg (by simp [hport])]
      simp
  | true =>
    obtain ⟨k, printed, hprint, hline, hprinted⟩ :=
      hfound.printf h (detectedDirectives_text hcounts mem port) []
    have hformat : textOf (detectedDirectives port) ++ [0#8] = detectedFormat := rfl
    have hargs : argsOf (detectedDirectives port) ++ [] = [(port.value + 1#32).setWidth 64] := rfl
    rw [hformat, hargs] at hprint
    refine ⟨printed, ?_, ?_, hprinted⟩
    · rw [Ukulele.printDetected, Faults.bind_ok hdetect, hport]
      simp only [if_true]
      rw [Faults.bind_ok hprint]
    · rw [hline, hsame, List.filter_cons_of_pos hport, detectedDirectives_expansion]
      simp

theorem OnStream.printDetected (h : PortsFitted io view present see)
    (hcounts : CountsString strnlen) (hidle : ∀ n, PortIdle view present see n d₀.1)
    (ports : List SerialPortId) (hports : .serialPort1 ∉ ports)
    (hs : OnStream io view present see font8x8 fb d₀ serial stdio) : ∃ after,
      printDetected io strnlen mem ports stdio = .ok () after ∧
      after.delivered = stdio.delivered ++ (ports.filter present).flatMap portLine ∧
      OnStream io view present see font8x8 fb d₀ serial after := by
  induction ports generalizing stdio with
  | nil => exact ⟨stdio, rfl, by simp, hs⟩
  | cons port ports ih =>
    rw [List.mem_cons, not_or] at hports
    obtain ⟨first, hstep, hline, hfirst⟩ :=
      hs.printPort h hcounts port ports (hs.idle (hidle port) fun _ => Ne.symm hports.1)
    obtain ⟨after, hrun, hdelivered, hafter⟩ := ih hports.2 hfirst
    refine ⟨after, hstep.trans hrun, ?_, hafter⟩
    rw [hdelivered, hline, List.append_assoc, ← List.flatMap_append, ← List.filter_append]
    rfl

theorem OnStream.greet (h : PortsFitted io view present see) (hcounts : CountsString strnlen)
    (mem : ByteMemory) (hidle : ∀ n, PortIdle view present see n d₀.1)
    (hs : OnStream io view present see font8x8 fb d₀ serial stdio) : ∃ k greeted,
      Ukulele.printf strnlen mem bootFormat [] stdio = .ok k greeted ∧
      greeted.delivered = stdio.delivered ++ bootText ∧
      OnStream io view present see font8x8 fb d₀ serial greeted ∧
      ((serial = true → StreamIdle view present see .serialPort1 greeted) → ∃ after,
        kernelMainGreet io strnlen mem stdio = .ok () after ∧
        after.delivered = stdio.delivered ++ greeting present ∧
        OnStream io view present see font8x8 fb d₀ serial after) := by
  obtain ⟨k, greeted, hprint, hline, hgreeted⟩ :=
    hs.printf h (bootDirectives_text hcounts mem) []
  have hformat : textOf (bootText.map .ordinary) ++ [0#8] = bootFormat := rfl
  have hargs : argsOf (bootText.map .ordinary) ++ [] = [] := rfl
  have htext : (bootText.map .ordinary).flatMap (Directive.expansion mem) = bootText := rfl
  rw [hformat, hargs] at hprint
  rw [htext] at hline
  refine ⟨k, greeted, hprint, hline, hgreeted, ?_⟩
  intro hdrained
  have hfirst : StreamIdle view present see .serialPort1 greeted := by
    cases serial with
    | false => exact hgreeted.idle (hidle .serialPort1) (by simp)
    | true => exact hdrained rfl
  obtain ⟨found, hstep, hfound, hs'⟩ := hgreeted.printPort h hcounts .serialPort1
    [.serialPort2, .serialPort3, .serialPort4] hfirst
  obtain ⟨after, hrun, hdelivered, hafter⟩ := hs'.printDetected h hcounts hidle
    [.serialPort2, .serialPort3, .serialPort4] (by decide)
  refine ⟨after, ?_, ?_, hafter⟩
  · rw [kernelMainGreet, Faults.bind_ok hprint]
    exact hstep.trans hrun
  · rw [hdelivered, hfound, hline, greeting, List.append_assoc, List.append_assoc,
      ← List.flatMap_append, ← List.filter_append]
    rfl

theorem strstr_word (word : List Byte) (cmdline : CString) (hword : 0#8 ∉ word) (hne : word ≠ [])
    (hlen : word.length < 2 ^ 31) : ∃ r,
      strstr cmdline.text (word ++ [0#8]) = .ok r ∧
      r.isSome = decide (word <:+: cmdline.bytes) := by
  obtain ⟨r, hrun, hfirst⟩ := strstrLoop_ok hword cmdline.noNul (Or.inr hne)
    (fun k hover => Nat.not_le_of_lt hlen hover.1) 0
  refine ⟨r, by simpa [strstr, CString.text] using hrun, ?_⟩
  rw [Bool.eq_iff_iff, isSome_iff_infix hfirst, decide_eq_true_eq]

def usesSerial (present : SerialPortId → Bool) (cmdline : CString) : Bool :=
  decide (serialText <:+: cmdline.bytes) && present .serialPort1

theorem oneConsole_start (fb : FbConfig) (d₀ : σ × ByteMemory) :
    OneConsole view present see font8x8 fb d₀ false [] ⟨d₀.1, ⟨fb, 0, 0⟩, d₀.2⟩ := by
  constructor
  · intro n _
    exact carries_of_same rfl rfl rfl
  · simp
  · simp [Drawn, fbCookieLoop]

theorem OneConsole.choose (h : PortsFitted io view present see)
    (hpresent : present .serialPort1 = true)
    (hd : OneConsole view present see font8x8 fb d₀ false [] d)
    (hidle : PortIdle view present see .serialPort1 d.ports) :
    OneConsole view present see font8x8 fb d₀ true []
      { d with ports := ((Ukulele.serialDetect io .serialPort1).run d.ports).2 } := by
  obtain ⟨hsent, -, hscreen⟩ := hd.detect h .serialPort1 hidle
  constructor
  · simpa using hsent
  · intro _
    have hown := (takes_serialDetect (h.chip _ hpresent) _ (hidle hpresent) d.ports rfl).2
    refine ⟨hpresent, ?_⟩
    rw [hown]
    rfl
  · exact hscreen

theorem kernelMainConsole_opens (h : PortsFitted io view present see) (cmdline : CString)
    (fb : FbConfig) (s : σ) (screen : ByteMemory)
    (hidle : PortIdle view present see .serialPort1 s) : ∃ stdio,
      kernelMainConsole io font8x8 cmdline.text fb s screen =
        .ok (stdio, decide (fractalText <:+: cmdline.bytes)) ∧
      stdio.delivered = [] ∧
      OnStream io view present see font8x8 fb (s, screen) (usesSerial present cmdline) stdio := by
  obtain ⟨r, hserial, hr⟩ := strstr_word serialText cmdline (by decide) (by decide)
    (by decide)
  obtain ⟨q, hfractal, hq⟩ := strstr_word fractalText cmdline (by decide) (by decide)
    (by decide)
  have hstart : OneConsole view present see font8x8 fb (s, screen) false []
      ⟨s, ⟨fb, 0, 0⟩, screen⟩ := oneConsole_start fb (s, screen)
  obtain ⟨t, hlook, hd⟩ : ∃ t,
      (if r.isSome then (serialDetect io .serialPort1).run s else (false, s)) =
        (usesSerial present cmdline, t) ∧
      OneConsole view present see font8x8 fb (s, screen) (usesSerial present cmdline) []
        ⟨t, ⟨fb, 0, 0⟩, screen⟩ := by
    rw [usesSerial, ← hr]
    cases r with
    | none => exact ⟨s, rfl, hstart⟩
    | some p =>
      refine ⟨_, Prod.ext (h.serialDetect .serialPort1 s hidle) rfl, ?_⟩
      cases hpresent : present .serialPort1 with
      | false => exact hstart.detect h .serialPort1 hidle
      | true => exact hstart.choose h hpresent hidle
  refine ⟨⟨some ⟨⟨t, ⟨fb, 0, 0⟩, screen⟩, _, false⟩, .none, []⟩, ?_, rfl, _, false, rfl, hd⟩
  rw [kernelMainConsole, hserial, hfractal, ← hq]
  simp only [bind, Except.bind, hlook]
  rfl

/-- What happens after the greeting: more is printed, ports are detected again while they send
nothing, and time passes, in which bytes may arrive and be read. -/
inductive KernelRun (io : IoSpace σ) (view : (n : SerialPortId) → σ → δ n)
    (present : SerialPortId → Bool) (see : (n : SerialPortId) → δ n → Uart)
    (booted : Stdio (Devices σ)) : Stdio (Devices σ) → List Byte → Prop where
  | booted : KernelRun io view present see booted booted []
  | printed {stdio after : Stdio (Devices σ)} {text : List Byte}
      {strnlen : ByteMemory → Uintptr → Size → Size} {mem : ByteMemory} {ds : List Directive}
      {extra : List (BitVec 64)} {k : Int} :
      KernelRun io view present see booted stdio text → PrintsText strnlen mem ds →
      printf strnlen mem (textOf ds ++ [0#8]) (argsOf ds ++ extra) stdio = .ok k after →
      KernelRun io view present see booted after (text ++ ds.flatMap (Directive.expansion mem))
  | detected {stdio after : Stdio (Devices σ)} {text : List Byte} {n : SerialPortId}
      {found : Bool} :
      KernelRun io view present see booted stdio text → StreamIdle view present see n stdio →
      detectPort io n stdio = .ok found after →
      KernelRun io view present see booted after text
  | waited {stdio : Stdio (Devices σ)} {text : List Byte} {stream : File (Devices σ)} {s : σ} :
      KernelRun io view present see booted stdio text → stdio.stream = some stream →
      (∀ n, present n = true →
        (see n (view n stream.cookie.ports)).Passes (see n (view n s))) →
      KernelRun io view present see booted { stdio with
        stream := some { stream with cookie := { stream.cookie with ports := s } } } text

theorem OneConsole.wait {s : σ} (hs : ∀ n, present n = true →
      (see n (view n d.ports)).Passes (see n (view n s)))
    (hd : OneConsole view present see font8x8 fb d₀ serial out d) :
    OneConsole view present see font8x8 fb d₀ serial out { d with ports := s } := by
  obtain ⟨hsent, hready, hscreen⟩ := hd
  constructor
  · intro n hn
    exact (hsent n hn).keep (hs n hn).carries
  · intro hserial
    obtain ⟨hpresent, hfirst⟩ := hready hserial
    exact ⟨hpresent, hfirst.queues (hs _ hpresent).registers⟩
  · exact hscreen

theorem KernelRun.invariant (h : PortsFitted io view present see) {booted : Stdio (Devices σ)}
    {text : List Byte} (hbooted : OnStream io view present see font8x8 fb d₀ serial booted)
    (hrun : KernelRun io view present see booted stdio text) :
    stdio.delivered = booted.delivered ++ text ∧
      OnStream io view present see font8x8 fb d₀ serial stdio := by
  induction hrun with
  | booted => exact ⟨by simp, hbooted⟩
  | @printed stdio after text strnlen mem ds extra k hrun hds hcall ih =>
    obtain ⟨hdelivered, hopen⟩ := ih
    obtain ⟨k', after', hcall', hdelivered', hopen'⟩ := hopen.printf h hds extra
    have hsame := hcall.symm.trans hcall'
    cases hsame
    exact ⟨by rw [hdelivered', hdelivered, List.append_assoc], hopen'⟩
  | @detected stdio after text n found hrun hidle hcall ih =>
    obtain ⟨hdelivered, hopen⟩ := ih
    obtain ⟨after', hcall', hdelivered', hopen'⟩ := hopen.detectPort h n hidle
    have hsame := hcall.symm.trans hcall'
    cases hsame
    exact ⟨hdelivered'.trans hdelivered, hopen'⟩
  | @waited stdio text stream s hrun hstream hs ih =>
    obtain ⟨hdelivered, cookie, error, hopen, hd⟩ := ih
    have hsame := hstream.symm.trans hopen
    cases hsame
    exact ⟨hdelivered, _, error, rfl, hd.wait hs⟩

end Ports

theorem fourChips_fitted (speed : Nat) :
    PortsFitted (fourChips speed) (fun n s => s n) (fun _ => true) fun _ u => u where
  apart := fourChips_apart speed
  chip := fun n _ => fourChips_ns16550 speed n
  empty := fun _ h => Bool.noConfusion h

end Ukulele
