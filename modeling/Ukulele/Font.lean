import Ukulele.FramebufferConsole

/-! The font: the table that the script writes for an image, and what the table shows. -/

set_option autoImplicit false

namespace Ukulele

def fontRows : Nat := 6
def fontCols : Nat := 16
def fontBorder : Nat := 1

/-- The colors of an image that count as no pixel. -/
def BlankPixel (p : Nat) : Prop := p = 1 ∨ p = 215

instance (p : Nat) : Decidable (BlankPixel p) := inferInstanceAs (Decidable (_ ∨ _))

section Script

-- the colors of the image, by column and line
variable (image : Nat → Nat → Nat)

/-- One number for a line of a character; the script goes from the right to the left. -/
def readcharline (x0 y0 : Nat) : Nat :=
  (List.range' x0 fontCharWidth).reverse.foldl
    (fun num x => num * 2 + if BlankPixel (image x y0) then 0 else 1) 0

def readchar (x0 y0 : Nat) : List Nat := (List.range' y0 fontCharHeight).map (readcharline image x0)

def exportFont : List (List Nat) :=
  (List.range fontRows).flatMap fun r =>
    (List.range fontCols).map fun c =>
      readchar image (c * (fontCharWidth + fontBorder) + 1) (r * (fontCharHeight + fontBorder) + 1)

def exportedFont (i y : Nat) : Byte := BitVec.ofNat 8 (((exportFont image).getD i []).getD y 0)

def imagePixel (c : Byte) (x y : Nat) : Nat :=
  image ((c.toNat - 0x20) % fontCols * (fontCharWidth + fontBorder) + 1 + x)
    ((c.toNat - 0x20) / fontCols * (fontCharHeight + fontBorder) + 1 + y)

end Script

theorem testBit_foldl (bits : List Bool) (k : Nat) :
    (bits.reverse.foldl (fun num (b : Bool) => num * 2 + b.toNat) 0).testBit k =
      bits.getD k false := by
  induction bits generalizing k with
  | nil => simp
  | cons b bits ih =>
    simp only [List.reverse_cons, List.foldl_append, List.foldl_cons, List.foldl_nil]
    cases k with
    | zero =>
      cases b with
      | false => simp
      | true => simp
    | succ k =>
      rw [Nat.testBit_succ]
      have hhalf : ∀ n, (n * 2 + b.toNat) / 2 = n := by
        intro n
        cases b with
        | false => simp
        | true =>
          simp only [Bool.toNat_true]
          omega
      rw [hhalf, ih]
      simp

variable {image : Nat → Nat → Nat}

theorem readcharline_bit (x0 y0 : Nat) {x : Nat} (hx : x < 8) :
    (readcharline image x0 y0).testBit x = decide (¬ BlankPixel (image (x0 + x) y0)) := by
  have hbits : readcharline image x0 y0 =
      ((List.range' x0 8).map fun x => decide (¬ BlankPixel (image x y0))).reverse.foldl
        (fun num (b : Bool) => num * 2 + b.toNat) 0 := by
    rw [readcharline, ← List.map_reverse, List.foldl_map]
    congr 1
    funext num x
    by_cases hblank : BlankPixel (image x y0) <;> simp [hblank]
  rw [hbits, testBit_foldl]
  simp [List.getD_eq_getElem?_getD, hx]

theorem flatMap_rows {α : Type} (f : Nat → Nat → α) (m : Nat) {n : Nat} (hn : 0 < n) :
    ((List.range m).flatMap fun r => (List.range n).map fun c => f r c) =
      (List.range (m * n)).map fun i => f (i / n) (i % n) := by
  induction m with
  | zero => simp
  | succ m ih =>
    have hlast : ∀ c ∈ List.range n, f m c = f ((m * n + c) / n) ((m * n + c) % n) := by
      intro c hc
      have hlt := List.mem_range.mp hc
      rw [Nat.mul_comm, Nat.mul_add_div hn, Nat.mul_add_mod, Nat.div_eq_of_lt hlt,
        Nat.mod_eq_of_lt hlt, Nat.add_zero]
    rw [List.range_succ, List.flatMap_append, ih, Nat.succ_mul, List.range_add, List.map_append]
    simp only [List.flatMap_cons, List.flatMap_nil, List.append_nil, List.map_map]
    rw [List.map_congr_left hlast]
    rfl

theorem exportFont_char {i : Nat} (hi : i < 96) : (exportFont image).getD i [] =
    readchar image (i % fontCols * (fontCharWidth + fontBorder) + 1)
      (i / fontCols * (fontCharHeight + fontBorder) + 1) := by
  have hrows : i < fontRows * fontCols := hi
  unfold exportFont
  rw [flatMap_rows (fun r c => readchar image (c * (fontCharWidth + fontBorder) + 1)
    (r * (fontCharHeight + fontBorder) + 1)) fontRows (by decide)]
  simp [List.getD_eq_getElem?_getD, hrows]

theorem exportedFont_bit {c : Byte} (hc : Printable c) {x y : Nat} (hx : x < 8) (hy : y < 8) :
    (exportedFont image (c.toNat - 0x20) y).getLsbD x =
      decide (¬ BlankPixel (imagePixel image c x y)) := by
  have hlt := hc.2
  rw [exportedFont, exportFont_char (by omega), BitVec.getLsbD_ofNat]
  simp only [readchar, fontCharHeight, List.getD_eq_getElem?_getD]
  simp only [hx, hy, List.getElem?_map, List.getElem?_range', Option.map_some, Option.getD_some,
    decide_true, Bool.true_and, Nat.one_mul]
  exact readcharline_bit _ _ hx

variable {fb : FbConfig} {mem₀ : ByteMemory} {stdio : Stdio (FbCookie × ByteMemory)}
  {text : List Byte}

end Ukulele
