import Ukulele.Console
import Ukulele.FramebufferScreen

/-! The console on the framebuffer: what is printed on the stream can be read on the screen. The
cookie of the model holds the memory beside the cursor.
-/

set_option autoImplicit false

namespace Ukulele

section Console

variable (font8x8 : Nat → Nat → Byte)

def fbCookieWriter : CookieWrite (FbCookie × ByteMemory) := fun s buf =>
  let (n, stores, fbc) := fbCookieWrite font8x8 s.1 buf
  ((n : Int), fbc, storePixels s.2 stores)

def fbPut (s : FbCookie × ByteMemory) (c : Byte) : FbCookie × ByteMemory :=
  ((fbCookieStep font8x8 s.1 c).2, storePixels s.2 (fbCookieStep font8x8 s.1 c).1)

theorem fbCookieWriter_eq : fbCookieWriter font8x8 = byteWriter (fbPut font8x8) := by
  have hloop : ∀ (buf : List Byte) (s : FbCookie × ByteMemory), buf.foldl (fbPut font8x8) s =
      ((fbCookieLoop font8x8 s.1 buf).2, storePixels s.2 (fbCookieLoop font8x8 s.1 buf).1) := by
    intro buf
    induction buf with
    | nil => simp [fbCookieLoop]
    | cons c buf ih => simp [fbCookieLoop, ih, fbPut]
  funext s buf
  simp [fbCookieWriter, fbCookieWrite, byteWriter, hloop]

/-- The stream that is opened on the framebuffer, and what is printed on it. -/
inductive FbConsoleRun (fb : FbConfig) (mem₀ : ByteMemory) :
    Stdio (FbCookie × ByteMemory) → List Byte → Prop where
  | opened (errno : Errno) : FbConsoleRun fb mem₀
      ⟨some ⟨(⟨fb, 0, 0⟩, mem₀), some (fbCookieWriter font8x8), false⟩, errno, []⟩ []
  | printed {stdio : Stdio (FbCookie × ByteMemory)} {text : List Byte}
      {strnlen : ByteMemory → Uintptr → Size → Size} {mem : ByteMemory} {ds : List Directive}
      {extra : List (BitVec 64)} {k : Int} {s : PrintState (FbCookie × ByteMemory)} :
      FbConsoleRun fb mem₀ stdio text → PrintsText strnlen mem ds →
      vfprintf strnlen mem (textOf ds ++ [0#8]) ⟨stdio, argsOf ds ++ extra⟩ = .ok k s →
      FbConsoleRun fb mem₀ s.io (text ++ ds.flatMap (Directive.expansion mem))

variable {fb : FbConfig} {mem₀ : ByteMemory} {stdio : Stdio (FbCookie × ByteMemory)}
  {text : List Byte}

def Drawn (fb : FbConfig) (mem₀ : ByteMemory) (out : List Byte) (s : FbCookie × ByteMemory) :
    Prop :=
  s.1 = (fbCookieLoop font8x8 ⟨fb, 0, 0⟩ out).2 ∧
    s.2 = storePixels mem₀ (fbCookieLoop font8x8 ⟨fb, 0, 0⟩ out).1

theorem Drawn.put {out : List Byte} {s : FbCookie × ByteMemory} (c : Byte)
    (h : Drawn font8x8 fb mem₀ out s) : Drawn font8x8 fb mem₀ (out ++ [c]) (fbPut font8x8 s c) := by
  obtain ⟨hcookie, hmem⟩ := h
  simp [Drawn, fbCookieLoop_append, fbCookieLoop, fbPut, hcookie, hmem]

variable {font8x8}

theorem cursorAt_start (fb : FbConfig) : CursorAt ⟨fb, 0, 0⟩ [] := by
  constructor <;> simp [cursorColumn, cursorRow, lastLine, rowsEnded, textLines]

theorem Drawn.pixel {out : List Byte} {s : FbCookie × ByteMemory}
    (h : Drawn font8x8 fb mem₀ out s) (hfb : fb.Fits) (hw : 0 ≤ fb.width) (hh : 0 ≤ fb.height)
    (hout : TextOnScreen fb.width fb.height out) {p : FbPoint} (hp : fb.Contains p) :
    fb.pixel s.2 p =
      (shownAt fb.width fb.height (p.x / 8).toNat (p.y / 8).toNat out).elim (fb.pixel mem₀ p)
        fun c => glyph font8x8 c (p.x % 8).toNat (p.y % 8).toNat := by
  rw [h.2]
  exact fbCookieLoop_pixels font8x8 hfb hw hh (cursorAt_start fb) hout.fitsBehind hp

theorem Drawn.cursor {out : List Byte} {s : FbCookie × ByteMemory}
    (h : Drawn font8x8 fb mem₀ out s) (hw : 0 ≤ fb.width) (hh : 0 ≤ fb.height) :
    0 ≤ s.1.x ∧ s.1.x ≤ fb.width ∧ 0 ≤ s.1.y ∧ s.1.y ≤ fb.height := by
  obtain ⟨hconfig, hcursor⟩ := fbCookieLoop_cursor font8x8 hw hh (cursorAt_start fb) out
  have hbounds := hcursor.bounds
  rw [hconfig, ← h.1] at hbounds
  exact hbounds hw hh

theorem FbConsoleRun.invariant (hrun : FbConsoleRun font8x8 fb mem₀ stdio text) :
    stdio.delivered = text ∧ OpenWith (fbPut font8x8) (Drawn font8x8 fb mem₀) stdio := by
  induction hrun with
  | opened errno =>
    refine ⟨rfl, _, false, by rw [fbCookieWriter_eq], ?_⟩
    simp [Drawn, fbCookieLoop, Stdio.delivered]
  | @printed stdio text strnlen mem ds extra k s hrun hds hcall ih =>
    obtain ⟨hdelivered, hopen⟩ := ih
    obtain ⟨k', s', hcall', hdelivered', hopen'⟩ :=
      hopen.vfprintf (fun out s c h => Drawn.put font8x8 c h) hds extra
    have hsame := hcall.symm.trans hcall'
    cases hsame
    exact ⟨by rw [hdelivered', hdelivered], hopen'⟩

end Console

end Ukulele
