import Ukulele.Machine

/-! The framebuffer driver, and the stream that prints text on it. The coordinates are kept without
bounds; the products that make an address of them are `int`s, and overflow on large screens.
-/

set_option autoImplicit false

namespace Ukulele

structure FbPoint where
  x : Int
  y : Int
  deriving DecidableEq, Repr

structure FbConfig where
  address : Uintptr
  width : Int
  height : Int
  pitch : Int
  deriving DecidableEq, Repr

def foreground : BitVec 32 := 0xffffffff#32
def background : BitVec 32 := 0#32

/-- An `int` added to a pointer. C leaves an overflow undefined; here the `int` wraps around. -/
def intOffset (v : Int) : Uintptr := (BitVec.ofInt 32 v).signExtend 64

def pixel32 (fb : FbConfig) (x y : Int) : Uintptr :=
  fb.address + intOffset (fb.pitch * y) + intOffset (4 * x)

structure PixelStore where
  point : FbPoint
  address : Uintptr
  color : BitVec 32
  deriving DecidableEq, Repr

def fontCharHeight : Nat := 8
def fontCharWidth : Nat := 8

section Text

-- the rows of each character of `font_8x8`
variable (font8x8 : Nat → Nat → Byte)

/-- The stores for one row; `row` is shifted on by one bit for each pixel. -/
def writeRow (fb : FbConfig) (row : Byte) (p : FbPoint) (y : Nat) : List PixelStore :=
  (List.range fontCharWidth).map fun (x : Nat) =>
    { point := ⟨p.x + x, p.y + y⟩
      address := pixel32 fb (p.x + x) (p.y + y)
      color := if row.sshiftRight x &&& 1#8 = 1#8 then foreground else background }

/-- The stores in order. A `char` is signed, so that bytes above 127 lie below the space. -/
def framebufferWriteAt (fb : FbConfig) (c : Byte) (p : FbPoint) : List PixelStore :=
  if c.toInt < 0x20 ∨ 0x7e < c.toInt then []
  else
    (List.range fontCharHeight).flatMap fun (y : Nat) =>
      writeRow fb (font8x8 (c.toInt - 0x20).toNat y) p y

structure FbCookie where
  config : FbConfig
  x : Int
  y : Int

def newline : Byte := 0x0a#8

def fbCookieStep (fbc : FbCookie) (print : Byte) : List PixelStore × FbCookie :=
  let stores := framebufferWriteAt font8x8 fbc.config print ⟨fbc.x, fbc.y⟩
  let x := fbc.x + 8
  if print = newline ∨ fbc.config.width < x then
    let y := fbc.y + 8
    (stores, { fbc with x := 0, y := if fbc.config.height < y then 0 else y })
  else (stores, { fbc with x := x })

def fbCookieLoop (fbc : FbCookie) : List Byte → List PixelStore × FbCookie
  | [] => ([], fbc)
  | print :: buf =>
    let first := fbCookieStep font8x8 fbc print
    let rest := fbCookieLoop first.2 buf
    (first.1 ++ rest.1, rest.2)

/-- All bytes count as written. -/
def fbCookieWrite (fbc : FbCookie) (buf : List Byte) : Nat × List PixelStore × FbCookie :=
  (buf.length, fbCookieLoop font8x8 fbc buf)

def fbCookieWrites (fbc : FbCookie) : List (List Byte) → List PixelStore × FbCookie
  | [] => ([], fbc)
  | buf :: bufs =>
    let (_, stores, fbc) := fbCookieWrite font8x8 fbc buf
    let rest := fbCookieWrites fbc bufs
    (stores ++ rest.1, rest.2)

end Text

end Ukulele
