import Ukulele.Console
import Ukulele.SerialLine

/-! The console on a serial port: what is printed on the stream is what the port is given to send.
The cookie of the model is the machine; the one of the source points to the number of the port.
-/

set_option autoImplicit false

namespace Ukulele
open Isolation

section Console

variable {σ : Type} {io : IoSpace σ} {n : SerialPortId} {see : σ → Uart} {s₀ : σ}
  {stdio : Stdio σ} {text : List Byte}

def serialCookieWrite (io : IoSpace σ) (n : SerialPortId) : CookieWrite σ :=
  byteWriter fun s c => ((serialWrite io n c).run s).2

/-- The stream that is opened on a port after its detection. Text is printed, bytes are read, time
passes, and the port is detected again while it sends nothing. -/
inductive SerialConsoleRun (io : IoSpace σ) (n : SerialPortId) (see : σ → Uart) (s₀ : σ) :
    Stdio σ → List Byte → Prop where
  | opened (errno : Errno) : (see s₀).unsent = [] → SerialConsoleRun io n see s₀
      ⟨some ⟨((serialDetect io n).run s₀).2, some (serialCookieWrite io n), false⟩, errno, []⟩ []
  | printed {stdio : Stdio σ} {text : List Byte}
      {strnlen : ByteMemory → Uintptr → Size → Size} {mem : ByteMemory} {ds : List Directive}
      {extra : List (BitVec 64)} {k : Int} {s : PrintState σ} :
      SerialConsoleRun io n see s₀ stdio text → PrintsText strnlen mem ds →
      vfprintf strnlen mem (textOf ds ++ [0#8]) ⟨stdio, argsOf ds ++ extra⟩ = .ok k s →
      SerialConsoleRun io n see s₀ s.io (text ++ ds.flatMap (Directive.expansion mem))
  | detected {stdio : Stdio σ} {text : List Byte} {stream : File σ} :
      SerialConsoleRun io n see s₀ stdio text → stdio.stream = some stream →
      (see stream.cookie).unsent = [] →
      SerialConsoleRun io n see s₀ { stdio with
        stream := some { stream with cookie := ((serialDetect io n).run stream.cookie).2 } } text
  | read {stdio : Stdio σ} {text : List Byte} {stream : File σ} :
      SerialConsoleRun io n see s₀ stdio text → stdio.stream = some stream →
      SerialConsoleRun io n see s₀ { stdio with
        stream := some { stream with cookie := ((serialRead io n).run stream.cookie).2 } } text
  | waited {stdio : Stdio σ} {text : List Byte} {stream : File σ} {s : σ} :
      SerialConsoleRun io n see s₀ stdio text → stdio.stream = some stream →
      (see stream.cookie).Passes (see s) →
      SerialConsoleRun io n see s₀ { stdio with stream := some { stream with cookie := s } } text

structure HasSent (see : σ → Uart) (s₀ : σ) (out : List Byte) (s : σ) : Prop where
  carries : (see s₀).Carries out (see s)
  ready : (see s).Ready

theorem HasSent.write (h : Ns16550 io (serialAddress n) see) {out : List Byte} {s : σ} (c : Byte)
    (hs : HasSent see s₀ out s) : HasSent see s₀ (out ++ [c]) ((serialWrite io n c).run s).2 := by
  have hbyte := serialWrite_takesByte h hs.ready c
  exact ⟨hs.carries.trans hbyte.carries, hs.ready.queues hbyte.registers⟩

theorem HasSent.pass {out : List Byte} {s s' : σ} (hs : HasSent see s₀ out s)
    (hpasses : (see s).Passes (see s')) : HasSent see s₀ out s' :=
  ⟨hs.carries.keep hpasses.carries, hs.ready.queues hpasses.registers⟩

theorem HasSent.read (h : Ns16550 io (serialAddress n) see) {out : List Byte} {s : σ}
    (hs : HasSent see s₀ out s) : HasSent see s₀ out ((serialRead io n).run s).2 := by
  have hread := (takes_serialRead h hs.ready s rfl).2
  apply hs.pass
  rw [hread]
  exact ⟨rfl, carries_of_same rfl rfl rfl⟩

theorem HasSent.detect (h : Ns16550 io (serialAddress n) see) {out : List Byte} {s : σ}
    (hs : (see s₀).Carries out (see s)) (hidle : (see s).unsent = []) :
    HasSent see s₀ out ((serialDetect io n).run s).2 := by
  have hdetect := (takes_serialDetect h _ hidle s rfl).2
  constructor
  · rw [hdetect]
    exact hs.keep (carries_of_same rfl rfl rfl)
  · rw [hdetect]
    rfl

abbrev OnLine (io : IoSpace σ) (n : SerialPortId) (see : σ → Uart) (s₀ : σ) (stdio : Stdio σ) :
    Prop :=
  OpenWith (fun s c => ((serialWrite io n c).run s).2) (HasSent see s₀) stdio

theorem SerialConsoleRun.invariant (h : Ns16550 io (serialAddress n) see)
    (hrun : SerialConsoleRun io n see s₀ stdio text) :
    stdio.delivered = text ∧ OnLine io n see s₀ stdio := by
  induction hrun with
  | opened errno hidle =>
    exact ⟨rfl, _, false, rfl, HasSent.detect h (carries_of_same rfl rfl rfl) hidle⟩
  | @printed stdio text strnlen mem ds extra k s hrun hds hcall ih =>
    obtain ⟨hdelivered, hopen⟩ := ih
    obtain ⟨k', s', hcall', hdelivered', hopen'⟩ :=
      hopen.vfprintf (fun out s c => HasSent.write h c) hds extra
    have hsame := hcall.symm.trans hcall'
    cases hsame
    exact ⟨by rw [hdelivered', hdelivered], hopen'⟩
  | @detected stdio text stream hrun hstream hidle ih =>
    obtain ⟨hdelivered, cookie, error, hopen, hs⟩ := ih
    have hsame := hstream.symm.trans hopen
    cases hsame
    exact ⟨hdelivered, _, error, rfl, HasSent.detect h hs.carries hidle⟩
  | @read stdio text stream hrun hstream ih =>
    obtain ⟨hdelivered, cookie, error, hopen, hs⟩ := ih
    have hsame := hstream.symm.trans hopen
    cases hsame
    exact ⟨hdelivered, _, error, rfl, hs.read h⟩
  | @waited stdio text stream s hrun hstream hpasses ih =>
    obtain ⟨hdelivered, cookie, error, hopen, hs⟩ := ih
    have hsame := hstream.symm.trans hopen
    cases hsame
    exact ⟨hdelivered, s, error, rfl, hs.pass hpasses⟩

end Console

/-- A chip whose line keeps up: all is sent and nothing lost. -/
def KeepsUp (n : SerialPortId) (s : SerialPortId → Uart) : Prop :=
  (s n).Ready ∧ (s n).unsent = [] ∧ (s n).lost = 0

theorem KeepsUp.write {n : SerialPortId} {s : SerialPortId → Uart} (h : KeepsUp n s) (c : Byte) :
    KeepsUp n ((serialWrite (fourChips 1) n c).run s).2 := by
  obtain ⟨hready, hidle, hlost⟩ := h
  have hrun : ((serialWrite (fourChips 1) n c).run s).2 n = (s n).write 1 0 c := by
    have haddress : serialAddress n + BitVec.ofNat 16 (0 : Fin 8).val = serialAddress n := by simp
    rw [serialWrite, ← haddress, fourChips_write]
    exact Function.update_self ..
  have hbyte := serialWrite_takesByte (fourChips_ns16550 1 n) hready c
  refine ⟨hready.queues hbyte.registers, ?_, (hbyte.room (by simp [hidle, fifoSize])).trans hlost⟩
  rw [hrun]
  simp [Uart.write, hready.divLatch, hready.loopback, hidle, fifoSize, Uart.send]

theorem KeepsUp.detect {n : SerialPortId} {s : SerialPortId → Uart} (hidle : (s n).unsent = [])
    (hlost : (s n).lost = 0) : KeepsUp n ((serialDetect (fourChips 1) n).run s).2 := by
  have hchip := fourChips_ns16550 1 n
  have hready := (HasSent.detect hchip (carries_of_same rfl rfl rfl) hidle).ready
  have hs := (takes_serialDetect hchip _ hidle s rfl).2
  exact ⟨hready, (congrArg Uart.unsent hs).trans hidle, (congrArg Uart.lost hs).trans hlost⟩

end Ukulele
