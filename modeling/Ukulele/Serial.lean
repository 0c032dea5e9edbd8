import Ukulele.Machine

/-! Serial ports in the I/O address space. What is behind the addresses is a parameter: the machine
that the instructions `inb` and `outb` work on.
-/

set_option autoImplicit false

namespace Ukulele

/-- The instructions on a machine with states `σ`. -/
structure IoSpace (σ : Type) where
  inb : BitVec 16 → σ → Byte × σ
  outb : BitVec 16 → Byte → σ → σ

inductive SerialPortId where
  | serialPort1
  | serialPort2
  | serialPort3
  | serialPort4
  deriving DecidableEq, Repr

def serialAddress : SerialPortId → BitVec 16
  | .serialPort1 => 0x3f8#16
  | .serialPort2 => 0x2f8#16
  | .serialPort3 => 0x3e8#16
  | .serialPort4 => 0x2e8#16

def regBaudLow : BitVec 16 := 0#16
def regBaudHigh : BitVec 16 := 1#16
def regData : BitVec 16 := 0#16
def regInterruptEnable : BitVec 16 := 1#16
def regFifoControl : BitVec 16 := 2#16
def regLineControl : BitVec 16 := 3#16
def regModemControl : BitVec 16 := 4#16
def regLineStatus : BitVec 16 := 5#16
def regScratch : BitVec 16 := 7#16

def fifoCtrlEnable : Byte := 0x01#8
def fifoCtrlClearRx : Byte := 0x02#8
def fifoCtrlClearTx : Byte := 0x04#8
def fifoCtrlTrigger08 : Byte := 0x80#8

def lineCtrlDivLatch : Byte := 0x80#8
def lineCtrl8N1 : Byte := 0x03#8

def modemCtrlDtr : Byte := 0x01#8
def modemCtrlRts : Byte := 0x02#8
def modemCtrlLoopback : Byte := 0x10#8

def lineStatusDataReady : Byte := 0x01#8

def maxBaudRate : Nat := 115200
def baudRate : Nat := 9600
def scratchTestByte : Byte := 0xAB#8
def loopTestByte : Byte := 0x69#8

section Driver

variable {σ : Type} (io : IoSpace σ)

def ioPortWrite (addr : BitVec 16) (val : Byte) : StateM σ Unit := fun s => ((), io.outb addr val s)

def ioPortRead (addr : BitVec 16) : StateM σ Byte := fun s => io.inb addr s

def setDivLatch (port : BitVec 16) (enabled : Bool) : StateM σ Unit := do
  let lineControl := port + regLineControl
  let val ← ioPortRead io lineControl
  let new := if enabled then val ||| lineCtrlDivLatch else val &&& ~~~lineCtrlDivLatch
  if new ≠ val then ioPortWrite io lineControl new else pure ()

def serialDetect (n : SerialPortId) : StateM σ Bool := do
  let port := serialAddress n
  ioPortWrite io (port + regScratch) scratchTestByte
  let scratch ← ioPortRead io (port + regScratch)
  if scratchTestByte ≠ scratch then return false
  -- disable interrupts
  setDivLatch io port false
  ioPortWrite io (port + regInterruptEnable) 0#8
  -- set the divisor
  setDivLatch io port true
  ioPortWrite io (port + regBaudLow) (BitVec.ofNat 8 (maxBaudRate / baudRate &&& 0xff))
  ioPortWrite io (port + regBaudHigh) (BitVec.ofNat 8 ((maxBaudRate / baudRate) >>> 8))
  ioPortWrite io (port + regLineControl) lineCtrl8N1
  ioPortWrite io (port + regFifoControl)
    (fifoCtrlEnable ||| fifoCtrlClearRx ||| fifoCtrlClearTx ||| fifoCtrlTrigger08)
  ioPortWrite io (port + regModemControl) (modemCtrlDtr ||| modemCtrlRts ||| modemCtrlLoopback)
  -- test the loop
  ioPortWrite io port loopTestByte
  let loop ← ioPortRead io port
  if loop ≠ loopTestByte then return false
  ioPortWrite io (port + regModemControl) (modemCtrlDtr ||| modemCtrlRts)
  return true

def serialWrite (n : SerialPortId) (c : Byte) : StateM σ Unit := ioPortWrite io (serialAddress n) c

def serialRead (n : SerialPortId) : StateM σ Int := do
  let port := serialAddress n
  let line ← ioPortRead io (port + regLineStatus)
  if line &&& lineStatusDataReady ≠ 0#8 then
    let c ← ioPortRead io port
    return c.toNat
  else
    return -1

end Driver

end Ukulele
