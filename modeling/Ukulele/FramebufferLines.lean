import Ukulele.DigitalLine
import Ukulele.Framebuffer

/-! Drawing a line. Each operation of the loop on `int`s is checked, and an overflow is an
error; the address of a pixel is left to `pixel32`. -/

set_option autoImplicit false

namespace Ukulele
open DigitalLine

inductive LineFault where
  | overflow : LineFault
  | outOfFuel : LineFault
  deriving DecidableEq, Repr

def FitsInt (v : Int) : Prop := -2 ^ 31 ≤ v ∧ v < 2 ^ 31

instance decidableFitsInt (v : Int) : Decidable (FitsInt v) := inferInstanceAs (Decidable (_ ∧ _))

/-- The result of an operation on `int`s. -/
def checkInt (v : Int) : Except LineFault Int := if FitsInt v then .ok v else .error .overflow

def absInt (x : Int) : Except LineFault Int := if 0 ≤ x then .ok x else checkInt (-x)

structure LineState where
  x0 : Int
  y0 : Int
  err : Int
  deriving DecidableEq, Repr

def plot (fb : FbConfig) (p : FbPoint) : PixelStore := ⟨p, pixel32 fb p.x p.y, foreground⟩

/-- The end of a turn of the loop, behind the test for the last pixel. -/
def drawLineTurn (dx dy sx sy : Int) (s : LineState) : Except LineFault LineState := do
  let e2 ← checkInt (2 * s.err)
  let s ←
    if dy ≤ e2 then do
      let err ← checkInt (s.err + dy)
      let x0 ← checkInt (s.x0 + sx)
      pure { s with err := err, x0 := x0 }
    else pure s
  if e2 ≤ dx then do
    let err ← checkInt (s.err + dx)
    let y0 ← checkInt (s.y0 + sy)
    pure { s with err := err, y0 := y0 }
  else pure s

def drawLineLoop (fb : FbConfig) (p1 : FbPoint) (dx dy sx sy : Int) :
    Nat → LineState → Except LineFault (List PixelStore)
  | 0, _ => .error .outOfFuel
  | fuel + 1, s => do
    let store := plot fb ⟨s.x0, s.y0⟩
    if s.x0 = p1.x ∧ s.y0 = p1.y then pure [store]
    else do
      let s ← drawLineTurn dx dy sx sy s
      let stores ← drawLineLoop fb p1 dx dy sx sy fuel s
      pure (store :: stores)

def lineSign (v0 v1 : Int) : Int := if v0 < v1 then 1 else -1

def framebufferDrawLine (fuel : Nat) (fb : FbConfig) (p0 p1 : FbPoint) :
    Except LineFault (List PixelStore) := do
  let dx ← absInt (← checkInt (p1.x - p0.x))
  let dy ← checkInt (-(← absInt (← checkInt (p1.y - p0.y))))
  let err ← checkInt (dx + dy)
  drawLineLoop fb p1 dx dy (lineSign p0.x p1.x) (lineSign p0.y p1.y) fuel ⟨p0.x, p0.y, err⟩

def lineStep (dx dy sx sy : Int) (s : LineState) : LineState :=
  let t := if dy ≤ 2 * s.err then { s with err := s.err + dy, x0 := s.x0 + sx } else s
  if 2 * s.err ≤ dx then { t with err := t.err + dx, y0 := t.y0 + sy } else t

section Run

variable (p0 p1 : FbPoint)

def lineWidth : Nat := (p1.x - p0.x).natAbs
def lineHeight : Nat := (p1.y - p0.y).natAbs

def lineLength : Nat := max (lineWidth p0 p1) (lineHeight p0 p1)

def lineRun (k : Nat) : LineState :=
  (lineStep (lineWidth p0 p1) (-lineHeight p0 p1) (lineSign p0.x p1.x) (lineSign p0.y p1.y))^[k]
    ⟨p0.x, p0.y, lineWidth p0 p1 - lineHeight p0 p1⟩

/-- At every turn that a run comes to, the doubled error is an `int`. -/
def DoublesFit : Prop :=
  ∀ k, (∀ i ≤ k, ¬ ((lineRun p0 p1 i).x0 = p1.x ∧ (lineRun p0 p1 i).y0 = p1.y)) →
    FitsInt (2 * (lineRun p0 p1 k).err)

def linePoint (k : Nat) : FbPoint :=
  if lineHeight p0 p1 ≤ lineWidth p0 p1 then
    ⟨p0.x + lineSign p0.x p1.x * k,
      p0.y + lineSign p0.y p1.y * minorAt (lineWidth p0 p1) (lineHeight p0 p1) k⟩
  else
    ⟨p0.x + lineSign p0.x p1.x * minorAt (lineHeight p0 p1) (lineWidth p0 p1) k,
      p0.y + lineSign p0.y p1.y * k⟩

def lineErr (k : Nat) : Int :=
  let w := lineWidth p0 p1
  let h := lineHeight p0 p1
  if h ≤ w then (minorAt w h k + 1) * w - (k + 1) * h
  else (k + 1) * w - (minorAt h w k + 1) * h

end Run

theorem lineStep_major {m n : Nat} (hm : 0 < m) (h : n ≤ m) (sx sy x y : Int) (k : Nat) :
    lineStep m (-n) sx sy
        ⟨x + sx * k, y + sy * minorAt m n k, (minorAt m n k + 1) * m - (k + 1) * n⟩ =
      ⟨x + sx * (k + 1 : Nat), y + sy * minorAt m n (k + 1),
        (minorAt m n (k + 1) + 1) * m - ((k + 1 : Nat) + 1) * n⟩ := by
  obtain ⟨hlt, hle⟩ := balance_bounds (n := n) (k := k) hm
  have herr : ((minorAt m n k : Int) + 1) * m - (k + 1) * n = balance m n k + m - n := by
    rw [balance]
    ring
  have hmajor : -(n : Int) ≤ 2 * (balance m n k + m - n) := by omega
  rw [minorAt_succ hm h, herr]
  unfold lineStep
  simp only [hmajor, if_true]
  by_cases hminor : 2 * (balance m n k - n) ≤ -(m : Int)
  · rw [if_pos hminor, if_pos (by omega), LineState.mk.injEq]
    refine ⟨?_, ?_, ?_⟩
    · push_cast
      ring
    · push_cast
      ring
    · rw [balance]
      push_cast
      ring
  · rw [if_neg hminor, if_neg (by omega), LineState.mk.injEq]
    refine ⟨?_, rfl, ?_⟩
    · push_cast
      ring
    · rw [balance]
      push_cast
      ring

theorem lineRun_major {m n k : Nat} (h : n ≤ m) (hk : k ≤ m) (sx sy x y : Int) :
    (lineStep m (-n) sx sy)^[k] ⟨x, y, m - n⟩ =
      ⟨x + sx * k, y + sy * minorAt m n k, (minorAt m n k + 1) * m - (k + 1) * n⟩ := by
  induction k with
  | zero => simp [minorAt_zero]
  | succ k ih =>
    rw [Function.iterate_succ_apply', ih (by omega), lineStep_major (by omega) h]

def LineState.swap (s : LineState) : LineState := ⟨s.y0, s.x0, -s.err⟩

theorem lineStep_swap (m n : Nat) (sx sy : Int) :
    Function.Semiconj LineState.swap (lineStep m (-n) sx sy) (lineStep n (-m) sy sx) := by
  intro s
  have hx : -(m : Int) ≤ 2 * -s.err ↔ 2 * s.err ≤ m := by omega
  have hy : 2 * -s.err ≤ (n : Int) ↔ -(n : Int) ≤ 2 * s.err := by omega
  simp only [lineStep, LineState.swap, hx, hy]
  by_cases h1 : -(n : Int) ≤ 2 * s.err <;> by_cases h2 : 2 * s.err ≤ (m : Int) <;>
    simp only [h1, h2, if_true, if_false, LineState.mk.injEq, true_and] <;> omega

section Points

variable {p0 p1 : FbPoint} {k : Nat}

theorem lineRun_eq (hk : k ≤ lineLength p0 p1) : lineRun p0 p1 k =
    ⟨(linePoint p0 p1 k).x, (linePoint p0 p1 k).y, lineErr p0 p1 k⟩ := by
  unfold lineRun linePoint lineErr
  unfold lineLength at hk
  generalize lineWidth p0 p1 = w at hk ⊢
  generalize lineHeight p0 p1 = h at hk ⊢
  by_cases hmajor : h ≤ w
  · rw [lineRun_major hmajor (by omega)]
    simp only [hmajor, if_true]
  · have hswap := (lineStep_swap h w (lineSign p0.y p1.y) (lineSign p0.x p1.x)).iterate_right k
      ⟨p0.y, p0.x, h - w⟩
    rw [lineRun_major (by omega) (by omega)] at hswap
    have hstart : LineState.swap ⟨p0.y, p0.x, h - w⟩ = ⟨p0.x, p0.y, w - h⟩ := by
      simp [LineState.swap]
    rw [hstart] at hswap
    rw [← hswap]
    simp only [hmajor, if_false, LineState.swap, LineState.mk.injEq, true_and]
    ring

end Points

theorem lineSign_end (v0 v1 : Int) : v0 + lineSign v0 v1 * (v1 - v0).natAbs = v1 := by
  unfold lineSign
  split <;> omega

theorem lineSign_between (v0 v1 : Int) {k : Nat} (hk : k ≤ (v1 - v0).natAbs) :
    min v0 v1 ≤ v0 + lineSign v0 v1 * k ∧ v0 + lineSign v0 v1 * k ≤ max v0 v1 := by
  unfold lineSign
  split <;> omega

theorem lineSign_inj (v0 v1 : Int) {i k : Nat}
    (h : v0 + lineSign v0 v1 * i = v0 + lineSign v0 v1 * k) : i = k := by
  unfold lineSign at h
  split at h <;> omega

theorem lineSign_step (v0 v1 : Int) {i k : Nat} (hle : i ≤ k) (hlt : k ≤ i + 1) :
    |(v0 + lineSign v0 v1 * k) - (v0 + lineSign v0 v1 * i)| ≤ 1 := by
  unfold lineSign
  rw [abs_le]
  split <;> omega

/-- The minor coordinate is half a pixel from the line at the most. -/
theorem lineSign_near (u0 u1 v0 v1 : Int) (k : Nat) (hm : 0 < (u1 - u0).natAbs) :
    |((v0 + lineSign v0 v1 * minorAt (u1 - u0).natAbs (v1 - v0).natAbs k : Int) : ℚ) -
      (v0 + (((u0 + lineSign u0 u1 * k : Int) : ℚ) - u0) * (((v1 : ℚ) - v0) / (u1 - u0)))| ≤
        1 / 2 := by
  have hdist := abs_minorAt_sub_le hm (v1 - v0).natAbs k
  have hsign : ∀ a b : Int, ((b - a : Int) : ℚ) = lineSign a b * (b - a).natAbs := by
    intro a b
    have hend := lineSign_end a b
    have hdiff : b - a = lineSign a b * (b - a).natAbs := by omega
    have hcast := congrArg (Int.cast : Int → ℚ) hdiff
    rwa [Int.cast_mul, Int.cast_natCast] at hcast
  have hu := hsign u0 u1
  have hv := hsign v0 v1
  push_cast at hu hv ⊢
  rw [hu, hv]
  generalize (((u1 - u0).natAbs : Nat) : ℚ) = m at *
  generalize (((v1 - v0).natAbs : Nat) : ℚ) = n at *
  generalize ((minorAt _ _ k : Nat) : ℚ) = j at *
  have hunit : ∀ a b : Int, ((lineSign a b : Int) : ℚ) = 1 ∨ ((lineSign a b : Int) : ℚ) = -1 := by
    intro a b
    unfold lineSign
    split <;> simp
  rcases hunit u0 u1 with hsu | hsu <;> rcases hunit v0 v1 with hsv | hsv <;> rw [hsu, hsv]
  · have he : (v0 : ℚ) + 1 * j - (v0 + (u0 + 1 * k - u0) * (1 * n / (1 * m))) =
        j - k * (n / m) := by ring
    rwa [he]
  · have he : (v0 : ℚ) + -1 * j - (v0 + (u0 + 1 * k - u0) * (-1 * n / (1 * m))) =
        -(j - k * (n / m)) := by ring
    rwa [he, abs_neg]
  · have he : (v0 : ℚ) + 1 * j - (v0 + (u0 + -1 * k - u0) * (1 * n / (-1 * m))) =
        j - k * (n / m) := by
      rw [neg_one_mul m, div_neg]
      ring
    rwa [he]
  · have he : (v0 : ℚ) + -1 * j - (v0 + (u0 + -1 * k - u0) * (-1 * n / (-1 * m))) =
        -(j - k * (n / m)) := by
      rw [neg_one_mul m, div_neg]
      ring
    rwa [he, abs_neg]

end Ukulele
