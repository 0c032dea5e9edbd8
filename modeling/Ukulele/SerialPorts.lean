import Ukulele.SerialLine

/-! Calls of the driver for different ports. -/

set_option autoImplicit false

namespace Ukulele
open Isolation

variable {σ : Type} {io : IoSpace σ} {δ : SerialPortId → Type}
  {view : (n : SerialPortId) → σ → δ n}

/-- The eight addresses of a port belong to one device, and devices share nothing. -/
structure PortsApart (io : IoSpace σ) (view : (n : SerialPortId) → σ → δ n) : Prop where
  read : ∀ (n : SerialPortId) (k : Fin 8),
    WorksOn view n (ioPortRead io (serialAddress n + BitVec.ofNat 16 k.val))
  write : ∀ (n : SerialPortId) (k : Fin 8) (val : Byte),
    WorksOn view n (ioPortWrite io (serialAddress n + BitVec.ofNat 16 k.val) val)

inductive SerialCall where
  | detect (n : SerialPortId)
  | write (n : SerialPortId) (c : Byte)
  | read (n : SerialPortId)
  deriving DecidableEq, Repr

def SerialCall.port : SerialCall → SerialPortId
  | .detect n => n
  | .write n _ => n
  | .read n => n

inductive SerialReply where
  | detected (found : Bool)
  | written
  | read (c : Int)
  deriving DecidableEq, Repr

def SerialCall.program (io : IoSpace σ) : SerialCall → StateM σ SerialReply
  | .detect n => SerialReply.detected <$> serialDetect io n
  | .write n c => (fun _ => SerialReply.written) <$> serialWrite io n c
  | .read n => SerialReply.read <$> serialRead io n

def serialPrograms (io : IoSpace σ) (calls : List SerialCall) :
    List (SerialPortId × StateM σ SerialReply) :=
  calls.map fun call => (call.port, call.program io)

theorem PortsApart.readData (h : PortsApart io view) (n : SerialPortId) :
    WorksOn view n (ioPortRead io (serialAddress n)) := by
  have hdata := h.read n 0
  simpa using hdata

theorem PortsApart.writeData (h : PortsApart io view) (n : SerialPortId) (val : Byte) :
    WorksOn view n (ioPortWrite io (serialAddress n) val) := by
  have hdata := h.write n 0 val
  simpa using hdata

theorem PortsApart.setDivLatch (h : PortsApart io view) (n : SerialPortId) (enabled : Bool) :
    WorksOn view n (setDivLatch io (serialAddress n) enabled) := by
  apply (h.read n 3).bind
  intro val
  dsimp only
  exact (h.write n 3 _).ite (worksOn_pure ())

theorem PortsApart.serialDetect (h : PortsApart io view) (n : SerialPortId) :
    WorksOn view n (serialDetect io n) := by
  apply (h.write n 7 _).bind
  intro _
  apply (h.read n 7).bind
  intro scratch
  apply (worksOn_pure false).ite
  apply (h.setDivLatch n false).bind
  intro _
  apply (h.write n 1 _).bind
  intro _
  apply (h.setDivLatch n true).bind
  intro _
  apply (h.write n 0 _).bind
  intro _
  apply (h.write n 1 _).bind
  intro _
  apply (h.write n 3 _).bind
  intro _
  apply (h.write n 2 _).bind
  intro _
  apply (h.write n 4 _).bind
  intro _
  apply (h.writeData n _).bind
  intro _
  apply (h.readData n).bind
  intro loop
  apply (worksOn_pure false).ite
  apply (h.write n 4 _).bind
  intro _
  exact worksOn_pure true

theorem PortsApart.serialRead (h : PortsApart io view) (n : SerialPortId) :
    WorksOn view n (serialRead io n) := by
  apply (h.read n 5).bind
  intro line
  exact ((h.readData n).bind fun c => worksOn_pure (c.toNat : Int)).ite (worksOn_pure (-1))

theorem PortsApart.program (h : PortsApart io view) (call : SerialCall) :
    WorksOn view call.port (call.program io) := by
  cases call with
  | detect n => exact (h.serialDetect n).map _
  | write n c => exact (h.writeData n c).map _
  | read n => exact (h.serialRead n).map _

/-- What the calls for a port return, and what they leave in its device, does not depend on the
calls for other ports, in whatever order they come. -/
theorem serial_ports_stay_apart (h : PortsApart io view) (calls : List SerialCall)
    (n : SerialPortId) {s t : σ} (hst : view n s = view n t) :
    ((runAll (serialPrograms io calls)).run s).1.filter (·.1 = n) =
        ((runAll (serialPrograms io (calls.filter (·.port = n)))).run t).1 ∧
      view n ((runAll (serialPrograms io calls)).run s).2 =
        view n ((runAll (serialPrograms io (calls.filter (·.port = n)))).run t).2 := by
  have hall : ∀ p ∈ serialPrograms io calls, WorksOn view p.1 p.2 := by
    intro p hp
    obtain ⟨call, -, rfl⟩ := List.mem_map.mp hp
    exact h.program call
  have hown : (serialPrograms io calls).filter (·.1 = n) =
      serialPrograms io (calls.filter (·.port = n)) := by
    simp [serialPrograms, List.filter_map, Function.comp_def]
  rw [← hown]
  exact runAll_part hall n hst

theorem fourChips_apart (speed : Nat) : PortsApart (fourChips speed) (fun n s => s n) := by
  constructor
  · intro n k
    constructor
    · intro s t h
      simp [fourChips_read, h]
    · intro s j hj
      simp [fourChips_read, hj]
  · intro n k val
    constructor
    · intro s t h
      simp [fourChips_write, h]
    · intro s j hj
      simp [fourChips_write, hj]

/-- The detection of the second port between two calls for the first one. -/
theorem serial_ports_stay_apart_example : ((runAll (serialPrograms (fourChips 1)
    [.read .serialPort1, .detect .serialPort2, .write .serialPort1 0x41#8])).run chipsOff).2
      .serialPort1 = ((runAll (serialPrograms (fourChips 1)
    [.read .serialPort1, .write .serialPort1 0x41#8])).run chipsOff).2 .serialPort1 :=
  (serial_ports_stay_apart (fourChips_apart 1)
    [.read .serialPort1, .detect .serialPort2, .write .serialPort1 0x41#8] .serialPort1
    (rfl : chipsOff .serialPort1 = chipsOff .serialPort1)).2

end Ukulele
