import Ukulele.Congruential
import Ukulele.FramebufferScreen

/-! The fractal that the kernel draws last: points that move half of the way to a drawn corner. -/

set_option autoImplicit false

namespace Ukulele
open Finset Congruential

/-- The new value of `r`, which is also the number drawn. -/
def urand (r : BitVec 32) : BitVec 32 := r * 1103515245#32 + 12345#32

structure Fractal where
  r : BitVec 32
  curr : FbPoint
  deriving DecidableEq, Repr

def fractalCorners (fb : FbConfig) : Fin 3 → FbPoint
  | 0 => ⟨0, 0⟩
  | 1 => ⟨fb.width, 0⟩
  | 2 => ⟨fb.width.tdiv 2, fb.height⟩

def cornerIndex (u : BitVec 32) : Fin 3 := ⟨(u >>> 20).toNat % 3, Nat.mod_lt _ (by decide)⟩

def fractalStart (fb : FbConfig) (r : BitVec 32) : Fractal :=
  let x := urand r
  let y := urand x
  ⟨y, ⟨(x % BitVec.ofInt 32 fb.width).toNat, (y % BitVec.ofInt 32 fb.height).toNat⟩⟩

def fractalNext (curr target : FbPoint) : FbPoint :=
  ⟨(curr.x + target.x).tdiv 2, (curr.y + target.y).tdiv 2⟩

def fractalMove (fb : FbConfig) (s : Fractal) : Fractal :=
  let u := urand s.r
  ⟨u, fractalNext s.curr (fractalCorners fb (cornerIndex u))⟩

def fractalStore (fb : FbConfig) (s : Fractal) : PixelStore :=
  ⟨s.curr, pixel32 fb s.curr.x s.curr.y, 0xffffffff#32⟩

def fractalStores (fb : FbConfig) : Nat → Fractal → List PixelStore
  | 0, _ => []
  | n + 1, s => fractalStore fb s :: fractalStores fb n (fractalMove fb s)

section Points

variable {fb : FbConfig} {s : Fractal}

theorem fractalCorners_bounds (hw : 0 < fb.width) (hh : 0 < fb.height) (i : Fin 3) :
    0 ≤ (fractalCorners fb i).x ∧ (fractalCorners fb i).x ≤ fb.width ∧
      0 ≤ (fractalCorners fb i).y ∧ (fractalCorners fb i).y ≤ fb.height := by
  have hhalf := Int.tdiv_eq_ediv_of_nonneg (Int.le_of_lt hw) (b := 2)
  match i with
  | 0 => simp only [fractalCorners]; omega
  | 1 => simp only [fractalCorners]; omega
  | 2 => simp only [fractalCorners]; omega

theorem fractalNext_eq {p q : FbPoint} (hx : 0 ≤ p.x + q.x) (hy : 0 ≤ p.y + q.y) :
    fractalNext p q = ⟨(p.x + q.x) / 2, (p.y + q.y) / 2⟩ := by
  rw [fractalNext, Int.tdiv_eq_ediv_of_nonneg hx, Int.tdiv_eq_ediv_of_nonneg hy]

theorem fractalStart_contained (hw : 0 < fb.width) (hw' : fb.width ≤ 2 ^ 30) (hh : 0 < fb.height)
    (hh' : fb.height ≤ 2 ^ 30) (r : BitVec 32) : fb.Contains (fractalStart fb r).curr := by
  have hmod : ∀ (u : BitVec 32) {n : Int}, 0 < n → n ≤ 2 ^ 30 →
      ((u % BitVec.ofInt 32 n).toNat : Int) < n := by
    intro u n hn hn'
    have hval : (BitVec.ofInt 32 n).toNat = n.toNat := by
      rw [BitVec.toNat_ofInt]
      omega
    have hlt := Nat.mod_lt u.toNat (Nat.lt_of_lt_of_eq (by omega : 0 < n.toNat) rfl)
    rw [BitVec.toNat_umod, hval]
    omega
  exact ⟨Int.natCast_nonneg _, hmod _ hw hw', Int.natCast_nonneg _, hmod _ hh hh'⟩

/-- The sums of two coordinates fit an `int`. -/
theorem fractalSums_bounds {p : FbPoint} (hp : fb.Contains p) (hw : fb.width ≤ 2 ^ 30)
    (hh : fb.height ≤ 2 ^ 30) (i : Fin 3) :
    0 ≤ p.x + (fractalCorners fb i).x ∧ p.x + (fractalCorners fb i).x < 2 ^ 31 ∧
      0 ≤ p.y + (fractalCorners fb i).y ∧ p.y + (fractalCorners fb i).y < 2 ^ 31 := by
  obtain ⟨hx, hxw, hy, hyh⟩ := hp
  have hb := fractalCorners_bounds (by omega : 0 < fb.width) (by omega : 0 < fb.height) i
  omega

theorem fractalMove_contained (hs : fb.Contains s.curr) : fb.Contains (fractalMove fb s).curr := by
  obtain ⟨hx, hxw, hy, hyh⟩ := hs
  have hb := fractalCorners_bounds (by omega : 0 < fb.width) (by omega : 0 < fb.height)
    (cornerIndex (urand s.r))
  rw [fractalMove, fractalNext_eq (by omega) (by omega), FbConfig.Contains]
  simp only
  omega

theorem fractalStores_contained (hs : fb.Contains s.curr) (n : Nat) :
    ∀ st ∈ fractalStores fb n s, fb.Contains st.point ∧
      st = ⟨st.point, pixel32 fb st.point.x st.point.y, 0xffffffff#32⟩ := by
  induction n generalizing s with
  | zero => simp [fractalStores]
  | succ n ih =>
    intro st hst
    rw [fractalStores, List.mem_cons] at hst
    cases hst with
    | inl h =>
      rw [h]
      exact ⟨hs, rfl⟩
    | inr h => exact ih (fractalMove_contained hs) st h

theorem FbConfig.Fits.sides_le (hfb : fb.Fits) (hw : 0 < fb.width) (hh : 0 < fb.height) :
    fb.width ≤ 2 ^ 30 ∧ fb.height ≤ 2 ^ 30 := by
  have hline := hfb.line
  have hints := hfb.ints
  have hone : fb.pitch * 1 ≤ fb.pitch * fb.height :=
    Int.mul_le_mul_of_nonneg_left (by omega) (by omega)
  have hfour : 4 * fb.height ≤ fb.pitch * fb.height :=
    Int.mul_le_mul_of_nonneg_right (by omega) (by omega)
  omega

/-- However long it draws, the fractal makes the points white that it visits and changes no other
pixel and no other byte, and the coordinates that it adds are `int`s. -/
theorem fractal_stays_on_screen (hfb : fb.Fits) (hw : 0 < fb.width) (hh : 0 < fb.height)
    (r : BitVec 32) (n : Nat) (mem : ByteMemory) :
    (∀ p, fb.Contains p → fb.pixel (storePixels mem (fractalStores fb n (fractalStart fb r))) p =
      if p ∈ (fractalStores fb n (fractalStart fb r)).map (·.point) then 0xffffffff#32
      else fb.pixel mem p) ∧
    (∀ a, fb.OffScreen a →
      storePixels mem (fractalStores fb n (fractalStart fb r)) a = mem a) ∧
    ∀ st ∈ fractalStores fb n (fractalStart fb r), ∀ i,
      0 ≤ st.point.x + (fractalCorners fb i).x ∧ st.point.x + (fractalCorners fb i).x < 2 ^ 31 ∧
      0 ≤ st.point.y + (fractalCorners fb i).y ∧ st.point.y + (fractalCorners fb i).y < 2 ^ 31 := by
  obtain ⟨hw', hh'⟩ := hfb.sides_le hw hh
  have hstart := fractalStart_contained hw hw' hh hh' r
  have hall := fractalStores_contained hstart n
  refine ⟨?_, ?_, fun st hst => fractalSums_bounds (hall st hst).1 hw' hh'⟩
  · intro p hp
    exact hfb.pixel_stores hp (fun _ => 0xffffffff#32) hall
  · intro a ha
    apply storePixels_far
    intro st hst
    obtain ⟨hp, heq⟩ := hall st hst
    have haddress : st.address = pixel32 fb st.point.x st.point.y := by rw [heq]
    rw [haddress]
    exact ha st.point hp

/-- Six points on a screen of ten by two characters. -/
theorem fractal_stays_on_screen_example :
    FbConfig.pixel ⟨0#64, 80, 16, 320⟩ (storePixels (fun _ => 7#8)
      (fractalStores ⟨0#64, 80, 16, 320⟩ 6 (fractalStart ⟨0#64, 80, 16, 320⟩ 0#32)))
        ⟨12, 2⟩ = 0xffffffff#32 ∧
    FbConfig.pixel ⟨0#64, 80, 16, 320⟩ (storePixels (fun _ => 7#8)
      (fractalStores ⟨0#64, 80, 16, 320⟩ 6 (fractalStart ⟨0#64, 80, 16, 320⟩ 0#32)))
        ⟨12, 3⟩ = 0x07070707#32 := by
  have h := (@fractal_stays_on_screen ⟨0#64, 80, 16, 320⟩ ⟨by decide, by decide, by decide⟩
    (by decide) (by decide) 0#32 6 fun _ => 7#8).1
  constructor
  · rw [h ⟨12, 2⟩ (by decide), if_pos (by decide)]
  · rw [h ⟨12, 3⟩ (by decide), if_neg (by decide)]
    decide

def fractalAfter (fb : FbConfig) (n : Nat) (s : Fractal) : Fractal := (fractalMove fb)^[n] s

theorem fractalAfter_succ (n : Nat) (s : Fractal) :
    fractalAfter fb (n + 1) s = fractalAfter fb n (fractalMove fb s) :=
  Function.iterate_succ_apply (fractalMove fb) n s

def Near (d : Nat) (p q : FbPoint) : Prop :=
  (p.x - q.x).natAbs ≤ d ∧ (p.y - q.y).natAbs ≤ d

theorem fractalMove_near {t : Fractal} {d : Nat} (hs : fb.Contains s.curr)
    (ht : fb.Contains t.curr) (hr : s.r = t.r) (h : Near d s.curr t.curr) :
    Near ((d + 1) / 2) (fractalMove fb s).curr (fractalMove fb t).curr := by
  obtain ⟨hx, hxw, hy, hyh⟩ := hs
  obtain ⟨hx', -, hy', -⟩ := ht
  have hb := fractalCorners_bounds (by omega : 0 < fb.width) (by omega : 0 < fb.height)
    (cornerIndex (urand t.r))
  obtain ⟨hnx, hny⟩ := h
  rw [fractalMove, fractalMove, hr, fractalNext_eq (by omega) (by omega),
    fractalNext_eq (by omega) (by omega), Near]
  simp only
  omega

theorem fractalAfter_near {t : Fractal} (hs : fb.Contains s.curr) (ht : fb.Contains t.curr)
    (hr : s.r = t.r) {k n : Nat} (h : Near (2 ^ k) s.curr t.curr) (hkn : k ≤ n) :
    Near 1 (fractalAfter fb n s).curr (fractalAfter fb n t).curr := by
  induction n generalizing s t k with
  | zero =>
    have hk : k = 0 := by omega
    rwa [hk] at h
  | succ n ih =>
    have hs' := fractalMove_contained hs
    have ht' := fractalMove_contained ht
    have hr' : (fractalMove fb s).r = (fractalMove fb t).r := by rw [fractalMove, fractalMove, hr]
    have hstep := fractalMove_near hs ht hr h
    rw [fractalAfter_succ, fractalAfter_succ]
    cases k with
    | zero => exact ih hs' ht' hr' (k := 0) hstep (Nat.zero_le n)
    | succ k =>
      have hhalf : (2 ^ (k + 1) + 1) / 2 = 2 ^ k := by
        rw [pow_succ]
        omega
      rw [hhalf] at hstep
      exact ih hs' ht' hr' hstep (Nat.le_of_succ_le_succ hkn)

/-- The place of the first point wears off: once as many numbers are drawn as the sides of the
screen have bits, the points of two runs with the same numbers are neighbours for good. -/
theorem fractal_forgets_start {t : Fractal} (hs : fb.Contains s.curr) (ht : fb.Contains t.curr)
    (hr : s.r = t.r) {k n : Nat} (hw : fb.width ≤ 2 ^ k) (hh : fb.height ≤ 2 ^ k) (hkn : k ≤ n) :
    Near 1 (fractalAfter fb n s).curr (fractalAfter fb n t).curr := by
  obtain ⟨hx, hxw, hy, hyh⟩ := hs
  obtain ⟨hx', hxw', hy', hyh'⟩ := ht
  apply fractalAfter_near ⟨hx, hxw, hy, hyh⟩ ⟨hx', hxw', hy', hyh'⟩ hr (k := k) ?_ hkn
  have hcast : ((2 ^ k : Nat) : Int) = 2 ^ k := by simp
  constructor <;> omega

/-- The corners of the screen, after seven numbers. -/
theorem fractal_forgets_start_example :
    Near 1 (fractalAfter ⟨0#64, 80, 16, 320⟩ 7 ⟨5#32, ⟨0, 0⟩⟩).curr
      (fractalAfter ⟨0#64, 80, 16, 320⟩ 7 ⟨5#32, ⟨79, 15⟩⟩).curr :=
  fractal_forgets_start (k := 7) (by decide) (by decide) rfl (by decide) (by decide) (by decide)

theorem urand_eq : urand = step 32 1103515245 12345 := rfl

theorem cornerIndex_iff (u : BitVec 32) (i : Fin 3) :
    cornerIndex u = i ↔ u.toNat / 2 ^ 20 % 3 = i.val := by
  rw [Fin.ext_iff]
  simp only [cornerIndex, BitVec.toNat_ushiftRight, Nat.shiftRight_eq_div_pow]

theorem cornerIndex_share (i : Fin 3) :
    ((range 4096).filter fun q => q % 3 = i.val).card = if i = 0 then 1366 else 1365 := by
  revert i
  decide +kernel

/-- Of `2 ^ 32` numbers one after the other, every one is different, and the corners get equal
shares but for the one number in 4096 that the first corner has more. -/
theorem fractal_shares_corners (r : BitVec 32) :
    (∀ m < 2 ^ 32, ∀ n < 2 ^ 32, urand^[m] r = urand^[n] r → m = n) ∧
    ∀ i : Fin 3, ((range (2 ^ 32)).filter fun n => cornerIndex (urand^[n] r) = i).card =
      2 ^ 20 * (if i = 0 then 1366 else 1365) := by
  rw [urand_eq]
  constructor
  · intro m hm n hn he
    exact iterate_step_inj (by decide) (by decide) hm hn he
  · intro i
    simp only [cornerIndex_iff]
    rw [card_iterate_step (by decide) (by decide) r fun u => u / 2 ^ 20 % 3 = i.val,
      ← cornerIndex_share]
    exact card_filter_div (by decide) 4096 fun q => q % 3 = i.val

end Points

end Ukulele
