import Ukulele.LibkString
import Ukulele.Stdio

/-! Formatted output. A format is the bytes of a string with its terminator, so that reading past
them is an error of its own; an `int` wraps where a signed overflow is undefined.
-/

set_option autoImplicit false

namespace Ukulele

/-- Why printing stops: the jump of the source, or something undefined. -/
inductive Stop where
  | error : Nat → Stop
  | pastEnd : Stop
  | noArgument : Stop
  | outOfBounds : Stop
  | outOfFuel : Stop
  deriving DecidableEq, Repr

/-- The stream, and the arguments that are left: one word each, as in the register save area. -/
structure PrintState (σ : Type) where
  io : Stdio σ
  args : List (BitVec 64)

/-- What was done before the jump is not undone by it. -/
abbrev PrintM (σ : Type) := EStateM Stop (PrintState σ)

def ch (c : Char) : Byte := BitVec.ofNat 8 c.toNat

structure FmtSpecifier where
  precision : BitVec 32
  width : BitVec 8
  length : BitVec 8
  zeroPad : Bool
  hasPrecision : Bool
  deriving DecidableEq, Repr

def emptySpecifier : FmtSpecifier := ⟨0#32, 0#8, 0#8, false, false⟩

def digitCountLoop (base : BitVec 64) : Nat → BitVec 64 → Nat → Nat
  | 0, _, count => count
  | fuel + 1, value, count =>
    if value = 0#64 then count else digitCountLoop base fuel (value / base) (count + 1)

def digitCount (base value : BitVec 64) : Nat :=
  if value = 0#64 then 1 else digitCountLoop base 64 value 0

def digitCountBase10 (value : BitVec 64) : Nat := digitCount 10#64 value
def digitCountBase16 (value : BitVec 64) : Nat := digitCount 16#64 value

/-- The digits from the last one on; the argument counts those to come. -/
def fillDigits (digitChar : Nat → Byte) (base : BitVec 64) :
    Nat → BitVec 64 → List Byte → Option (List Byte)
  | 0, _, buffer => some buffer
  | n + 1, value, buffer =>
    if n < buffer.length then
      fillDigits digitChar base n (value / base)
        (buffer.set n (digitChar (value % base).toNat))
    else none

def hexDigits : List Byte :=
  [ch '0', ch '1', ch '2', ch '3', ch '4', ch '5', ch '6', ch '7',
    ch '8', ch '9', ch 'a', ch 'b', ch 'c', ch 'd', ch 'e', ch 'f']

section Print

variable {σ : Type}

def fwriteE (c : Nat → Byte) (len : Int) : PrintM σ Int := fun s =>
  let (r, io) := fwrite c 1#64 (BitVec.ofInt 64 len) s.io
  let n := (r.setWidth 32).toInt
  if n < len then .error (.error 1) { s with io := io } else .ok n { s with io := io }

def fputcE (c : Int) : PrintM σ Int := fun s =>
  let (r, io) := fputc c s.io
  if r = eof then .error (.error 1) { s with io := io } else .ok 1 { s with io := io }

def vaArg : PrintM σ (BitVec 64) := fun s =>
  match s.args with
  | [] => .error .noArgument s
  | arg :: args => .ok arg { s with args := args }

def printNum (digitChar : Nat → Byte) (base : BitVec 64) (value : BitVec 64) : PrintM σ Int :=
  let length := digitCount base value
  match fillDigits digitChar base length value (List.replicate 32 0#8) with
  | none => throw .outOfBounds
  | some buffer => fwriteE (fun i => buffer.getD i 0#8) length

def printNum10 (value : BitVec 64) : PrintM σ Int :=
  printNum (fun digit => ch '0' + BitVec.ofNat 8 digit) 10#64 value

def printNum16 (value : BitVec 64) : PrintM σ Int :=
  printNum (fun digit => hexDigits.getD digit 0#8) 16#64 value

/-- The loop that pads up to the width; it ends with the width at `digits`. -/
def padLoop (pad : Byte) (digits : Int) : Nat → BitVec 8 → Int → PrintM σ Int
  | 0, width, printed => if digits < width.toInt then throw .outOfFuel else pure printed
  | fuel + 1, width, printed =>
    if digits < width.toInt then do
      let _ ← fputcE pad.toInt
      padLoop pad digits fuel (width - 1#8) (printed + 1)
    else pure printed

/-- No width is above 127. -/
def padTo (afmt : FmtSpecifier) (pad : Byte) (digits printed : Int) : PrintM σ Int :=
  if 0 < afmt.width.toInt then padLoop pad digits 127 afmt.width printed else pure printed

def padChar (afmt : FmtSpecifier) : Byte := if afmt.zeroPad then ch '0' else ch ' '

/-- An argument of one of three lengths, of which the shortest are an `int`. -/
def wordArg (extend : BitVec 32 → BitVec 64) (afmt : FmtSpecifier) : PrintM σ (BitVec 64) :=
  let length := afmt.length.toInt
  if length = -2 ∨ length = -1 ∨ length = 0 then do
    let arg ← vaArg
    return extend (arg.setWidth 32)
  else if length = 1 ∨ length = 2 then vaArg
  else throw (.error 2)

def unsignedArg (afmt : FmtSpecifier) : PrintM σ (BitVec 64) :=
  wordArg (fun arg => arg.setWidth 64) afmt

def signedArg (afmt : FmtSpecifier) : PrintM σ (BitVec 64) :=
  wordArg (fun arg => arg.signExtend 64) afmt

def printUnsigned (afmt : FmtSpecifier) : PrintM σ Int := do
  let value ← unsignedArg afmt
  let printed ← padTo afmt (padChar afmt) (digitCountBase10 value) 0
  let n ← printNum10 value
  return printed + n

def printHex (afmt : FmtSpecifier) : PrintM σ Int := do
  let value ← unsignedArg afmt
  let printed ← padTo afmt (padChar afmt) (digitCountBase16 value) 0
  let n ← printNum16 value
  return printed + n

/-- The part behind the sign; `printed` counts it. -/
def printMagnitude (afmt : FmtSpecifier) (value : BitVec 64) (printed : BitVec 8) :
    PrintM σ Int := do
  let printed ←
    if 0 < afmt.width.toInt then
      padLoop (padChar afmt) (digitCountBase10 value) 127 (afmt.width - printed) printed.toInt
    else pure printed.toInt
  let n ← printNum10 value
  return printed + n

def printSigned (afmt : FmtSpecifier) : PrintM σ Int := do
  let value ← signedArg afmt
  if value.toInt < 0 then do
    let _ ← fputcE (ch '-').toInt
    printMagnitude afmt (-value) 1#8
  else printMagnitude afmt value 0#8

def printChar : PrintM σ Int := do
  let arg ← vaArg
  fputcE (arg.setWidth 8).toInt

/-- The loop that pads a string also counts the precision down. -/
def padString (chars : Int) : Nat → BitVec 8 → BitVec 32 → Int → PrintM σ (Int × BitVec 32)
  | 0, width, precision, printed =>
    if chars < width.toInt then throw .outOfFuel else pure (printed, precision)
  | fuel + 1, width, precision, printed =>
    if chars < width.toInt then do
      let _ ← fputcE (ch ' ').toInt
      padString chars fuel (width - 1#8) (precision - 1#32) (printed + 1)
    else pure (printed, precision)

def intMax : BitVec 32 := 0x7fffffff#32

section Strings

-- the `strnlen` that is linked, and the memory of the strings
variable (strnlen : ByteMemory → Uintptr → Size → Size) (mem : ByteMemory)

def printString (afmt : FmtSpecifier) : PrintM σ Int := do
  let str ← vaArg
  let max := if afmt.hasPrecision then afmt.precision else intMax
  let chars := ((strnlen mem str (max.signExtend 64)).setWidth 32).toInt
  let (printed, precision) ←
    -- from 127 the width comes down to -128 at the least
    if 0 < afmt.width.toInt then padString chars 255 afmt.width afmt.precision 0
    else pure (0, afmt.precision)
  let chars := if afmt.hasPrecision ∧ precision.toInt < chars then precision.toInt else chars
  let n ← fwriteE (fun i => mem (str + BitVec.ofNat 64 i)) chars
  return printed + n

inductive ParseState where
  | flag
  | width
  | precision
  deriving DecidableEq, Repr

def takeDigit (afmt : FmtSpecifier) (state : ParseState) (c : Byte) : FmtSpecifier × ParseState :=
  let digit := c - ch '0'
  match state with
  | .flag =>
    if c = ch '0' then ({ afmt with zeroPad := true }, .width)
    else ({ afmt with width := afmt.width * 10#8 + digit }, .width)
  | .width => ({ afmt with width := afmt.width * 10#8 + digit }, .width)
  | .precision =>
    ({ afmt with precision := afmt.precision * 10#32 + digit.setWidth 32 }, .precision)

def convert (afmt : FmtSpecifier) (c : Byte) : Option (PrintM σ Int) :=
  if c = ch 'd' ∨ c = ch 'i' then some (printSigned afmt)
  else if c = ch 'u' then some (printUnsigned afmt)
  else if c = ch 'x' then some (printHex afmt)
  else if c = ch 'c' then some printChar
  else if c = ch 's' then some (printString strnlen mem afmt)
  else if c = ch 'p' then
    some (printHex { afmt with width := 16#8, length := 2#8, zeroPad := true })
  else if c = ch '%' then some (fputcE (ch '%').toInt)
  -- a `double` is not among the words
  else if c = ch 'f' ∨ c = ch 'e' ∨ c = ch 'g' ∨ c = ch 'a' then some (fputcE (ch '?').toInt)
  else none

/-- What any other character changes; `none` for a malformed specification. -/
def modify (afmt : FmtSpecifier) (state : ParseState) (c : Byte) :
    Option (FmtSpecifier × ParseState) :=
  if c = ch 'h' then some ({ afmt with length := afmt.length - 1#8 }, state)
  else if c = ch 'l' then some ({ afmt with length := afmt.length + 1#8 }, state)
  else if c = ch 'z' ∨ c = ch 'j' ∨ c = ch 't' then some ({ afmt with length := 1#8 }, state)
  else if (ch '0').toNat ≤ c.toNat ∧ c.toNat ≤ (ch '9').toNat then some (takeDigit afmt state c)
  else if c = ch '.' then some ({ afmt with hasPrecision := true }, .precision)
  else none

/-- The rest of the format is returned with the number of bytes printed. -/
def parseFormatStr (afmt : FmtSpecifier) (state : ParseState) :
    List Byte → PrintM σ (Int × List Byte)
  | [] => throw .pastEnd
  | c :: fmt =>
    match convert strnlen mem afmt c with
    | some print => do
      let n ← print
      return (n, fmt)
    | none =>
      match modify afmt state c with
      | some (afmt, state) => parseFormatStr afmt state fmt
      | none => throw (.error 2)

def vfprintfLoop : Nat → List Byte → BitVec 32 → PrintM σ Int
  | 0, _, _ => throw .outOfFuel
  | _ + 1, [], _ => throw .pastEnd
  | fuel + 1, c :: fmt, written =>
    if c = 0#8 then pure written.toInt
    else if c ≠ ch '%' then do
      let _ ← fputcE c.toInt
      vfprintfLoop fuel fmt (written + 1#32)
    else do
      let (n, fmt) ← parseFormatStr strnlen mem emptySpecifier .flag fmt
      vfprintfLoop fuel fmt (written + BitVec.ofInt 32 n)

def vfprintf (fmt : List Byte) : PrintM σ Int := fun s =>
  match vfprintfLoop strnlen mem fmt.length fmt 0#32 s with
  | .error (.error _) s => .ok eof s
  | r => r

end Strings

end Print

end Ukulele
