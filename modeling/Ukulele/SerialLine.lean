import Ukulele.Isolation
import Ukulele.Serial

/-! What a serial port sends and receives once it has been detected. The chip is known by what its
registers do. It takes bytes faster than the line carries them, and loses some when it is given too
many: the driver does not look whether there is room.
-/

set_option autoImplicit false

namespace Ukulele
open Isolation

def fifoSize : Nat := 16

/-- What the registers of a chip hold, the bytes that were received and not yet read, the bytes that
the chip has yet to send, those that it has sent, and how many it has lost in between. -/
structure Uart where
  divisorLow : Byte
  divisorHigh : Byte
  lineControl : Byte
  interruptEnable : Byte
  modemControl : Byte
  scratch : Byte
  received : List Byte
  unsent : List Byte
  sent : List Byte
  lost : Nat
  deriving DecidableEq, Repr

/-- The first two addresses are the divisor. -/
def Uart.DivLatch (u : Uart) : Prop := u.lineControl &&& lineCtrlDivLatch ≠ 0#8

def Uart.Loopback (u : Uart) : Prop := u.modemControl &&& modemCtrlLoopback ≠ 0#8

instance (u : Uart) : Decidable u.DivLatch := inferInstanceAs (Decidable (_ ≠ _))
instance (u : Uart) : Decidable u.Loopback := inferInstanceAs (Decidable (_ ≠ _))

def Uart.divisor (u : Uart) : BitVec 16 := u.divisorHigh ++ u.divisorLow

/-- The line has been given the text: what it carries is part of it and in order, and what is
missing is counted. -/
structure Uart.Carries (u : Uart) (text : List Byte) (v : Uart) : Prop where
  sent : u.sent <+: v.sent
  part : (v.sent ++ v.unsent).Sublist (u.sent ++ u.unsent ++ text)
  count : v.sent.length + v.unsent.length + v.lost =
    u.sent.length + u.unsent.length + u.lost + text.length

section Carries

variable {u v w : Uart} {text more : List Byte}

theorem carries_of_same (hsent : v.sent = u.sent) (hunsent : v.unsent = u.unsent)
    (hlost : v.lost = u.lost) : u.Carries [] v := by
  constructor
  · rw [hsent]
  · rw [hsent, hunsent, List.append_nil]
  · rw [hsent, hunsent, hlost, List.length_nil, Nat.add_zero]

theorem Uart.Carries.trans (h : u.Carries text v) (h' : v.Carries more w) :
    u.Carries (text ++ more) w := by
  constructor
  · exact h.sent.trans h'.sent
  · rw [← List.append_assoc]
    exact h'.part.trans (h.part.append_right more)
  · have hcount := h.count
    have hcount' := h'.count
    rw [List.length_append]
    omega

theorem Uart.Carries.keep (h : u.Carries text v) (h' : v.Carries [] w) : u.Carries text w := by
  have hcarries := h.trans h'
  rwa [List.append_nil] at hcarries

theorem Uart.Carries.all (h : u.Carries text v) (hlost : v.lost = u.lost) :
    v.sent ++ v.unsent = u.sent ++ u.unsent ++ text := by
  apply h.part.eq_of_length
  have hcount := h.count
  simp only [List.length_append]
  omega

theorem Uart.Carries.idle (h : u.Carries [] v) (hu : u.unsent = []) : v.unsent = [] := by
  have hpart := h.part.length_le
  have hsent := h.sent.length_le
  simp only [List.length_append, hu, List.length_nil] at hpart
  exact List.length_eq_zero_iff.mp (by omega)

end Carries

structure Uart.TakesByte (u : Uart) (val : Byte) (v : Uart) : Prop where
  registers : v = { u with unsent := v.unsent, sent := v.sent, lost := v.lost }
  carries : u.Carries [val] v
  room : u.unsent.length < fifoSize → v.lost = u.lost

/-- Time passes. The line carries bytes away, and those that wait to be read may be others. -/
structure Uart.Passes (u v : Uart) : Prop where
  registers : v = { u with received := v.received, unsent := v.unsent, sent := v.sent }
  carries : u.Carries [] v

variable {σ : Type} {io : IoSpace σ} {port : BitVec 16} {see : σ → Uart} {u v : Uart}

/-- The registers of an NS16550 at the port, as far as the driver uses them. The queues are cleared,
and the loop is used, only while nothing is being sent. -/
structure Ns16550 (io : IoSpace σ) (port : BitVec 16) (see : σ → Uart) : Prop where
  writeScratch : ∀ u val, Takes see (ioPortWrite io (port + regScratch) val) u ()
    { u with scratch := val }
  readScratch : ∀ u, Takes see (ioPortRead io (port + regScratch)) u u.scratch u
  writeLineControl : ∀ u val, Takes see (ioPortWrite io (port + regLineControl) val) u ()
    { u with lineControl := val }
  readLineControl : ∀ u, Takes see (ioPortRead io (port + regLineControl)) u u.lineControl u
  writeModemControl : ∀ u val, Takes see (ioPortWrite io (port + regModemControl) val) u ()
    { u with modemControl := val &&& 0x1f#8 }
  clearFifo : ∀ u val, val &&& fifoCtrlEnable ≠ 0#8 → val &&& fifoCtrlClearRx ≠ 0#8 →
    u.unsent = [] →
    Takes see (ioPortWrite io (port + regFifoControl) val) u () { u with received := [] }
  writeInterruptEnable : ∀ u val, ¬ u.DivLatch →
    Takes see (ioPortWrite io (port + regInterruptEnable) val) u ()
      { u with interruptEnable := val &&& 0x0f#8 }
  writeBaudLow : ∀ u val, u.DivLatch → Takes see (ioPortWrite io (port + regBaudLow) val) u ()
    { u with divisorLow := val }
  writeBaudHigh : ∀ u val, u.DivLatch → Takes see (ioPortWrite io (port + regBaudHigh) val) u ()
    { u with divisorHigh := val }
  writeLine : ∀ s val, ¬ (see s).DivLatch → ¬ (see s).Loopback →
    (see s).TakesByte val (see ((ioPortWrite io (port + regData) val).run s).2)
  writeLoop : ∀ u val, ¬ u.DivLatch → u.Loopback → u.unsent = [] → u.received = [] →
    Takes see (ioPortWrite io (port + regData) val) u () { u with received := [val] }
  readData : ∀ u b rest, ¬ u.DivLatch → u.received = b :: rest →
    Takes see (ioPortRead io (port + regData)) u b { u with received := rest }
  readLineStatus : ∀ s, (((ioPortRead io (port + regLineStatus)).run s).1 &&&
      lineStatusDataReady ≠ 0#8 ↔ (see s).received ≠ []) ∧
    see ((ioPortRead io (port + regLineStatus)).run s).2 = see s

def Uart.setUp (u : Uart) : Uart :=
  { u with
    divisorLow := 12#8
    divisorHigh := 0#8
    lineControl := lineCtrl8N1
    interruptEnable := 0#8
    modemControl := modemCtrlDtr ||| modemCtrlRts
    scratch := scratchTestByte }

def Uart.Ready (u : Uart) : Prop := u = u.setUp

@[simp] theorem Uart.setUp_divisor (u : Uart) :
    u.setUp.divisor = BitVec.ofNat 16 (maxBaudRate / baudRate) := by
  simp [divisor, setUp, maxBaudRate, baudRate]

theorem Uart.Ready.divLatch (h : u.Ready) : ¬ u.DivLatch := by
  rw [h]
  simp [DivLatch, setUp, lineCtrl8N1, lineCtrlDivLatch]

theorem Uart.Ready.loopback (h : u.Ready) : ¬ u.Loopback := by
  rw [h]
  simp [Loopback, setUp, modemCtrlDtr, modemCtrlRts, modemCtrlLoopback]

theorem Uart.Ready.queues (h : u.Ready) {received unsent sent : List Byte} {lost : Nat}
    (hv : v = { u with received := received, unsent := unsent, sent := sent, lost := lost }) :
    v.Ready := by
  rw [hv, h]
  rfl

def Uart.latch (u : Uart) (enabled : Bool) : Uart :=
  { u with lineControl :=
      if enabled then u.lineControl ||| lineCtrlDivLatch else u.lineControl &&& ~~~lineCtrlDivLatch }

theorem Uart.latch_on (u : Uart) : (u.latch true).DivLatch := by
  simp only [DivLatch, latch, if_true, lineCtrlDivLatch]
  intro h
  have hbit := congrArg (fun v => v.getLsbD 7) h
  simp at hbit

theorem Uart.latch_off (u : Uart) : ¬ (u.latch false).DivLatch := by
  simp [DivLatch, latch, lineCtrlDivLatch, BitVec.and_assoc]

theorem takes_setDivLatch (h : Ns16550 io port see) (u : Uart) (enabled : Bool) :
    Takes see (setDivLatch io port enabled) u () (u.latch enabled) := by
  apply (h.readLineControl u).bind
  change Takes see (if (u.latch enabled).lineControl ≠ u.lineControl then _ else _) u () _
  by_cases hsame : (u.latch enabled).lineControl = u.lineControl
  · rw [if_neg (not_not.mpr hsame)]
    have heq : u.latch enabled = { u with lineControl := (u.latch enabled).lineControl } := rfl
    rw [heq, hsame]
    exact takes_pure ()
  · rw [if_pos hsame]
    exact h.writeLineControl u _

@[simp] theorem add_regData (port : BitVec 16) : port + regData = port := by simp [regData]

theorem takes_serialDetect {n : SerialPortId} (h : Ns16550 io (serialAddress n) see) (u : Uart)
    (hidle : u.unsent = []) :
    Takes see (serialDetect io n) u true { u.setUp with received := [] } := by
  have hwrite := h.writeLoop
  have hread := h.readData
  simp only [add_regData] at hwrite hread
  have hline : ¬ (lineCtrl8N1 &&& lineCtrlDivLatch ≠ 0#8) := by decide
  have hloop : ((modemCtrlDtr ||| modemCtrlRts ||| modemCtrlLoopback) &&& 0x1f#8) &&&
      modemCtrlLoopback ≠ 0#8 := by decide
  obtain ⟨low, high, line, interrupts, modem, scratch, received, unsent, sent, lost⟩ := u
  unfold serialDetect
  apply (h.writeScratch _ _).bind
  apply (h.readScratch _).bind
  rw [if_neg (by simp)]
  apply (takes_setDivLatch h _ false).bind
  apply (h.writeInterruptEnable _ _ (Uart.latch_off _)).bind
  apply (takes_setDivLatch h _ true).bind
  apply (h.writeBaudLow _ _ (Uart.latch_on _)).bind
  refine (h.writeBaudHigh _ _ ?_).bind ?_
  · exact Uart.latch_on _
  apply (h.writeLineControl _ _).bind
  dsimp only [Uart.latch]
  refine (h.clearFifo _ _ (by decide) (by decide) ?_).bind ?_
  · exact hidle
  apply (h.writeModemControl _ _).bind
  refine (hwrite _ _ ?_ ?_ ?_ ?_).bind ?_
  · exact hline
  · exact hloop
  · exact hidle
  · rfl
  refine (hread _ _ _ ?_ rfl).bind ?_
  · exact hline
  rw [if_neg (by simp)]
  apply (h.writeModemControl _ _).bind
  exact (takes_pure true).congr rfl

section Runs

variable {n : SerialPortId} {s s' s₀ : σ} {written taken arrived : List Byte}

def nextByte : List Byte → Int
  | [] => -1
  | b :: _ => b.toNat

def byteRead (result : Int) : List Byte := if result = -1 then [] else [BitVec.ofInt 8 result]

@[simp] theorem byteRead_nextByte (waiting : List Byte) :
    byteRead (nextByte waiting) = waiting.take 1 := by
  cases waiting with
  | nil => rfl
  | cons b rest =>
    have hne : (b.toNat : Int) ≠ -1 := by omega
    simp [byteRead, nextByte, hne]

theorem serialWrite_takesByte (h : Ns16550 io (serialAddress n) see) (hs : (see s).Ready)
    (c : Byte) : (see s).TakesByte c (see ((serialWrite io n c).run s).2) := by
  have hwrite := h.writeLine s c hs.divLatch hs.loopback
  rw [add_regData] at hwrite
  exact hwrite

theorem takes_serialRead (h : Ns16550 io (serialAddress n) see) (hu : u.Ready) :
    Takes see (serialRead io n) u (nextByte u.received) { u with received := u.received.drop 1 } := by
  intro s hs
  have hstatus := h.readLineStatus s
  rw [hs] at hstatus
  unfold serialRead
  simp only [run_bind]
  cases hwaiting : u.received with
  | nil =>
    rw [if_neg (mt hstatus.1.mp (by simp [hwaiting])), List.drop_nil, ← hwaiting]
    exact ⟨by rw [hwaiting]; rfl, hstatus.2⟩
  | cons b rest =>
    rw [if_pos (hstatus.1.mpr (by simp [hwaiting]))]
    have hread := h.readData u b rest hu.divLatch hwaiting
    rw [add_regData] at hread
    exact hread.bind (takes_pure (b.toNat : Int)) _ hstatus.2

/-- Calls of the driver for one port after its detection, and the time between them, with the bytes
written, read and arrived. The port is detected while it sends nothing, and a detection drops the
bytes that wait. Arrived is a byte that found room. -/
inductive SerialRun (io : IoSpace σ) (n : SerialPortId) (see : σ → Uart) (s₀ : σ) :
    σ → List Byte → List Byte → List Byte → Prop where
  | start : (see s₀).unsent = [] →
      SerialRun io n see s₀ ((serialDetect io n).run s₀).2 [] [] []
  | detect {s : σ} {written taken arrived : List Byte} :
      SerialRun io n see s₀ s written taken arrived → (see s).unsent = [] →
      SerialRun io n see s₀ ((serialDetect io n).run s).2 written [] []
  | write {s : σ} {written taken arrived : List Byte} (c : Byte) :
      SerialRun io n see s₀ s written taken arrived →
      SerialRun io n see s₀ ((serialWrite io n c).run s).2 (written ++ [c]) taken arrived
  | read {s : σ} {written taken arrived : List Byte} :
      SerialRun io n see s₀ s written taken arrived →
      SerialRun io n see s₀ ((serialRead io n).run s).2 written
        (taken ++ byteRead ((serialRead io n).run s).1) arrived
  | wait {s s' : σ} {written taken arrived : List Byte} (bytes : List Byte) :
      SerialRun io n see s₀ s written taken arrived → (see s).Passes (see s') →
      (see s').received = (see s).received ++ bytes →
      (bytes = [] ∨ (see s').received.length ≤ fifoSize) →
      SerialRun io n see s₀ s' written taken (arrived ++ bytes)

structure SerialOk (see : σ → Uart) (s₀ s : σ) (written taken arrived : List Byte) : Prop where
  idle : (see s₀).unsent = []
  ready : (see s).Ready
  carries : (see s₀).Carries written (see s)
  received : taken ++ (see s).received = arrived
  room : (see s).received.length ≤ fifoSize

theorem SerialOk.detect (h : Ns16550 io (serialAddress n) see)
    (hok : SerialOk see s₀ s written taken arrived) (hidle : (see s).unsent = []) :
    SerialOk see s₀ ((serialDetect io n).run s).2 written [] [] := by
  have hs := (takes_serialDetect h _ hidle s rfl).2
  constructor
  · exact hok.idle
  · rw [hs]
    rfl
  · rw [hs]
    exact hok.carries.keep (carries_of_same rfl rfl rfl)
  · rw [hs]
    rfl
  · rw [hs]
    exact Nat.zero_le fifoSize

theorem SerialOk.write (h : Ns16550 io (serialAddress n) see)
    (hok : SerialOk see s₀ s written taken arrived) (c : Byte) :
    SerialOk see s₀ ((serialWrite io n c).run s).2 (written ++ [c]) taken arrived := by
  have hbyte := serialWrite_takesByte h hok.ready c
  have hsame := congrArg Uart.received hbyte.registers
  refine ⟨hok.idle, hok.ready.queues hbyte.registers, hok.carries.trans hbyte.carries, ?_, ?_⟩
  · rw [hsame]
    exact hok.received
  · rw [hsame]
    exact hok.room

theorem SerialOk.read (h : Ns16550 io (serialAddress n) see)
    (hok : SerialOk see s₀ s written taken arrived) :
    SerialOk see s₀ ((serialRead io n).run s).2 written
      (taken ++ byteRead ((serialRead io n).run s).1) arrived := by
  obtain ⟨hbyte, hs⟩ := takes_serialRead h hok.ready s rfl
  refine ⟨hok.idle, hok.ready.queues hs, ?_, ?_, ?_⟩
  · rw [hs]
    exact hok.carries.keep (carries_of_same rfl rfl rfl)
  · rw [hbyte, hs, byteRead_nextByte, List.append_assoc, List.take_append_drop]
    exact hok.received
  · rw [hs, List.length_drop]
    have hroom := hok.room
    omega

theorem SerialOk.wait (hok : SerialOk see s₀ s written taken arrived) {bytes : List Byte}
    (hpasses : (see s).Passes (see s')) (hreceived : (see s').received = (see s).received ++ bytes)
    (hroom : bytes = [] ∨ (see s').received.length ≤ fifoSize) :
    SerialOk see s₀ s' written taken (arrived ++ bytes) := by
  refine ⟨hok.idle, hok.ready.queues hpasses.registers, hok.carries.keep hpasses.carries, ?_, ?_⟩
  · rw [hreceived, ← List.append_assoc, hok.received]
  · rcases hroom with rfl | hroom
    · rw [hreceived, List.append_nil]
      exact hok.room
    · exact hroom

theorem SerialRun.invariant (h : Ns16550 io (serialAddress n) see)
    (hrun : SerialRun io n see s₀ s written taken arrived) :
    SerialOk see s₀ s written taken arrived := by
  induction hrun with
  | start hidle =>
    have hs := (takes_serialDetect h _ hidle s₀ rfl).2
    constructor
    · exact hidle
    · rw [hs]
      rfl
    · rw [hs]
      exact carries_of_same rfl rfl rfl
    · rw [hs]
      rfl
    · rw [hs]
      exact Nat.zero_le fifoSize
  | detect hrun hidle ih => exact ih.detect h hidle
  | write c hrun ih => exact ih.write h c
  | read hrun ih => exact ih.read h
  | wait bytes hrun hpasses hreceived hroom ih => exact ih.wait hpasses hreceived hroom

/-- What the line carries is the bytes written, in order, less as many as the chip has lost; a byte
that finds room is not lost. The bytes that arrive are read in order, and none is made up. The chip
stays as it was set up, and is found again while it sends nothing. -/
theorem serial_line_carries_bytes (h : Ns16550 io (serialAddress n) see)
    (hrun : SerialRun io n see s₀ s written taken arrived) :
    (see s₀).Carries written (see s) ∧
    ((see s).lost = (see s₀).lost → (see s).sent ++ (see s).unsent = (see s₀).sent ++ written) ∧
    (∀ c, (see s).unsent.length < fifoSize →
      (see ((serialWrite io n c).run s).2).lost = (see s).lost) ∧
    taken ++ (see s).received = arrived ∧ (see s).received.length ≤ fifoSize ∧
    ((serialRead io n).run s).1 = nextByte (see s).received ∧ (see s).Ready ∧
    ((see s).unsent = [] → ((serialDetect io n).run s).1 = true) := by
  have hok := hrun.invariant h
  refine ⟨hok.carries, ?_, ?_, hok.received, hok.room, (takes_serialRead h hok.ready s rfl).1,
    hok.ready, ?_⟩
  · intro hlost
    rw [hok.carries.all hlost, hok.idle, List.append_nil]
  · exact fun c hroom => (serialWrite_takesByte h hok.ready c).room hroom
  · exact fun hidle => (takes_serialDetect h _ hidle s rfl).1

end Runs

def Uart.send (k : Nat) (u : Uart) : Uart :=
  { u with unsent := u.unsent.drop k, sent := u.sent ++ u.unsent.take k }

/-- Behind each byte that the line is given it carries some away. A byte for which there is no room
is lost, and so are those that are cleared. -/
def Uart.write (speed : Nat) (u : Uart) (k : Fin 8) (val : Byte) : Uart :=
  match k with
  | 0 =>
    if u.DivLatch then { u with divisorLow := val }
    else if u.Loopback then { u with received := (u.received ++ [val]).take fifoSize }
    else if u.unsent.length < fifoSize then
      Uart.send speed { u with unsent := u.unsent ++ [val] }
    else { u with lost := u.lost + 1 }
  | 1 =>
    if u.DivLatch then { u with divisorHigh := val }
    else { u with interruptEnable := val &&& 0x0f#8 }
  | 2 =>
    if val &&& fifoCtrlEnable ≠ 0#8 then
      let u := if val &&& fifoCtrlClearRx ≠ 0#8 then { u with received := [] } else u
      if val &&& fifoCtrlClearTx ≠ 0#8 then
        { u with unsent := [], lost := u.lost + u.unsent.length }
      else u
    else u
  | 3 => { u with lineControl := val }
  | 4 => { u with modemControl := val &&& 0x1f#8 }
  | 5 | 6 => u
  | 7 => { u with scratch := val }

def Uart.lineStatus (u : Uart) : Byte :=
  (if u.received = [] then 0#8 else 0x01#8) ||| if u.unsent = [] then 0x60#8 else 0#8

def Uart.read (u : Uart) (k : Fin 8) : Byte × Uart :=
  match k with
  | 0 =>
    if u.DivLatch then (u.divisorLow, u)
    else (u.received.headD 0#8, { u with received := u.received.tail })
  | 1 => (if u.DivLatch then u.divisorHigh else u.interruptEnable, u)
  | 2 => (0x01#8, u)
  | 3 => (u.lineControl, u)
  | 4 => (u.modemControl, u)
  | 5 => (u.lineStatus, u)
  | 6 => (0#8, u)
  | 7 => (u.scratch, u)

def decodeAddress (addr : BitVec 16) : Option (SerialPortId × Fin 8) :=
  ([.serialPort1, .serialPort2, .serialPort3, .serialPort4].find? fun n =>
    addr &&& 0xfff8#16 = serialAddress n).map fun n => (n, ⟨addr.toNat % 8, by omega⟩)

/-- Nothing answers at the other addresses. -/
def fourChips (speed : Nat) : IoSpace (SerialPortId → Uart) where
  inb := fun addr s =>
    match decodeAddress addr with
    | none => (0xff#8, s)
    | some (n, k) => (((s n).read k).1, Function.update s n ((s n).read k).2)
  outb := fun addr val s =>
    match decodeAddress addr with
    | none => s
    | some (n, k) => Function.update s n ((s n).write speed k val)

theorem decodeAddress_register (n : SerialPortId) (k : Fin 8) :
    decodeAddress (serialAddress n + BitVec.ofNat 16 k.val) = some (n, k) := by
  revert k
  cases n <;> decide

section FourChips

variable (speed : Nat) {u : Uart}

theorem fourChips_write (n : SerialPortId) (k : Fin 8) (val : Byte) (s : SerialPortId → Uart) :
    (ioPortWrite (fourChips speed) (serialAddress n + BitVec.ofNat 16 k.val) val).run s =
      ((), Function.update s n ((s n).write speed k val)) := by
  change ((), (fourChips speed).outb _ _ _) = _
  simp [fourChips, decodeAddress_register]

theorem fourChips_read (n : SerialPortId) (k : Fin 8) (s : SerialPortId → Uart) :
    (ioPortRead (fourChips speed) (serialAddress n + BitVec.ofNat 16 k.val)).run s =
      (((s n).read k).1, Function.update s n ((s n).read k).2) := by
  change (fourChips speed).inb _ _ = _
  simp [fourChips, decodeAddress_register]

theorem send_carries (k : Nat) : u.Carries [] (u.send k) := by
  constructor
  · exact List.prefix_append u.sent (u.unsent.take k)
  · simp [Uart.send]
  · simp only [Uart.send, List.length_append, List.length_take, List.length_drop, List.length_nil]
    omega

theorem write_takesByte (hlatch : ¬ u.DivLatch) (hloop : ¬ u.Loopback) (val : Byte) :
    u.TakesByte val (u.write speed 0 val) := by
  simp only [Uart.write, hlatch, hloop, if_false]
  by_cases hroom : u.unsent.length < fifoSize
  · rw [if_pos hroom]
    have hadd : u.Carries [val] { u with unsent := u.unsent ++ [val] } := by
      constructor <;> simp
      omega
    exact ⟨rfl, hadd.trans (send_carries speed), fun _ => rfl⟩
  · rw [if_neg hroom]
    refine ⟨rfl, ⟨List.prefix_rfl, List.sublist_append_left _ [val], ?_⟩, fun h => absurd h hroom⟩
    simp only [List.length_singleton]
    omega

theorem fourChips_ns16550 (n : SerialPortId) :
    Ns16550 (fourChips speed) (serialAddress n) (fun s => s n) := by
  have hwrite : ∀ (k : Fin 8) (u : Uart) (val : Byte), Takes (fun s : SerialPortId → Uart => s n)
      (ioPortWrite (fourChips speed) (serialAddress n + BitVec.ofNat 16 k.val) val) u ()
        (u.write speed k val) := by
    intro k u val s hs
    simp [fourChips_write, ← hs]
  have hread : ∀ (k : Fin 8) (u : Uart), Takes (fun s : SerialPortId → Uart => s n)
      (ioPortRead (fourChips speed) (serialAddress n + BitVec.ofNat 16 k.val)) u (u.read k).1
        (u.read k).2 := by
    intro k u s hs
    simp [fourChips_read, ← hs]
  constructor
  · exact hwrite 7
  · exact hread 7
  · exact hwrite 3
  · exact hread 3
  · exact hwrite 4
  · intro u val hen hclear hidle
    refine (hwrite 2 u val).congr ?_
    obtain ⟨low, high, line, interrupts, modem, scratch, received, unsent, sent, lost⟩ := u
    obtain rfl : unsent = [] := hidle
    simp [Uart.write, hen, hclear]
  · intro u val hlatch
    exact (hwrite 1 u val).congr (by simp [Uart.write, hlatch])
  · intro u val hlatch
    exact (hwrite 0 u val).congr (by simp [Uart.write, hlatch])
  · intro u val hlatch
    exact (hwrite 1 u val).congr (by simp [Uart.write, hlatch])
  · intro s val hlatch hloop
    have hs := (hwrite 0 (s n) val s rfl).2
    exact Eq.subst (motive := (s n).TakesByte val) hs.symm (write_takesByte speed hlatch hloop val)
  · intro u val hlatch hloop _ hnone
    exact (hwrite 0 u val).congr (by simp [Uart.write, hlatch, hloop, hnone, fifoSize])
  · intro u b rest hlatch hwaits
    have h := hread 0 u
    simp only [Uart.read, hlatch, hwaits, if_false] at h
    exact h
  · intro s
    have hstatus : Takes (fun s : SerialPortId → Uart => s n)
      (ioPortRead (fourChips speed) (serialAddress n + regLineStatus)) (s n) _ _ := hread 5 (s n)
    obtain ⟨hbyte, hsame⟩ := hstatus s rfl
    refine ⟨?_, hsame⟩
    rw [hbyte]
    simp only [Uart.read, Uart.lineStatus]
    by_cases hnil : (s n).received = [] <;> by_cases hidle : (s n).unsent = [] <;>
      simp [hnil, hidle, lineStatusDataReady]

end FourChips

def chipsOff : SerialPortId → Uart := fun _ =>
  ⟨0x34#8, 0x12#8, 0xff#8, 0x0f#8, 0x1f#8, 0#8, [0x55#8], [], [], 0⟩

def chipReady (received unsent sent : List Byte) : Uart :=
  ⟨12#8, 0#8, 0x03#8, 0#8, 0x03#8, 0xab#8, received, unsent, sent, 0⟩

/-- On a slow line two bytes are written, two arrive while they are sent, and one is read. -/
theorem serial_line_carries_bytes_example : ∃ s : SerialPortId → Uart,
    SerialRun (fourChips 0) .serialPort1 (fun s => s .serialPort1) chipsOff s
      [0x41#8, 0x42#8] [0x51#8] [0x51#8, 0x52#8] ∧
    (s .serialPort1).sent ++ (s .serialPort1).unsent = [0x41#8, 0x42#8] ∧
    ((serialRead (fourChips 0) .serialPort1).run s).1 = 0x52 := by
  have hchip := fourChips_ns16550 0 .serialPort1
  have hwritten : SerialRun (fourChips 0) .serialPort1 (fun s => s .serialPort1) chipsOff _
    [0x41#8, 0x42#8] [] [] := ((SerialRun.start rfl).write 0x41#8).write 0x42#8
  generalize hs : ((serialWrite (fourChips 0) .serialPort1 0x42#8).run _).2 = s at hwritten
  have hbefore : s .serialPort1 = chipReady [] [0x41#8, 0x42#8] [] := by
    rw [← hs]
    rfl
  let s' := Function.update s .serialPort1
    (chipReady [0x51#8, 0x52#8] [0x42#8] [0x41#8])
  have hafter : s' .serialPort1 = chipReady [0x51#8, 0x52#8] [0x42#8] [0x41#8] :=
    Function.update_self ..
  have hwaited : SerialRun (fourChips 0) .serialPort1 (fun s => s .serialPort1) chipsOff s'
      [0x41#8, 0x42#8] [] [0x51#8, 0x52#8] := by
    refine hwritten.wait [0x51#8, 0x52#8] ?_ ?_ (Or.inr ?_)
    · rw [hbefore, hafter]
      exact ⟨rfl, by decide, by decide, rfl⟩
    · rw [hbefore, hafter]
      rfl
    · rw [hafter]
      decide
  obtain ⟨hbyte, hread⟩ := takes_serialRead hchip (u := s' .serialPort1) (by rw [hafter]; rfl) s' rfl
  rw [hafter] at hbyte hread
  have htaken := hwaited.read
  rw [hbyte] at htaken
  obtain ⟨-, hsent, -, -, -, hnext, -⟩ := serial_line_carries_bytes hchip htaken
  have hlost := congrArg Uart.lost hread
  have hwaiting := congrArg (fun u => nextByte u.received) hread
  exact ⟨_, htaken, hsent hlost, hnext.trans hwaiting⟩

end Ukulele
