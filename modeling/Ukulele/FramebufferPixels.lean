import Ukulele.FramebufferLines

/-! The pixels of a line: how many there are and where they lie. -/

set_option autoImplicit false

namespace Ukulele
open DigitalLine

variable {p0 p1 : FbPoint} {k : Nat}

/-- One pixel for each step along the major axis, from end to end, as near to the line as pixels
are. -/
structure LinePixels (p0 p1 : FbPoint) (pixels : List FbPoint) : Prop where
  count : pixels.length = max (p1.x - p0.x).natAbs (p1.y - p0.y).natAbs + 1
  distinct : pixels.Nodup
  first : pixels.head? = some p0
  last : pixels.getLast? = some p1
  steps : pixels.IsChain fun p q => |q.x - p.x| ≤ 1 ∧ |q.y - p.y| ≤ 1
  box : ∀ p ∈ pixels, (min p0.x p1.x ≤ p.x ∧ p.x ≤ max p0.x p1.x) ∧
    (min p0.y p1.y ≤ p.y ∧ p.y ≤ max p0.y p1.y)
  nearY : |p1.y - p0.y| ≤ |p1.x - p0.x| → ∀ p ∈ pixels,
    |(p.y : ℚ) - (p0.y + ((p.x : ℚ) - p0.x) * (((p1.y : ℚ) - p0.y) / (p1.x - p0.x)))| ≤ 1 / 2
  nearX : |p1.x - p0.x| < |p1.y - p0.y| → ∀ p ∈ pixels,
    |(p.x : ℚ) - (p0.x + ((p.y : ℚ) - p0.y) * (((p1.x : ℚ) - p0.x) / (p1.y - p0.y)))| ≤ 1 / 2

theorem linePoint_zero (p0 p1 : FbPoint) : linePoint p0 p1 0 = p0 := by
  simp [linePoint, minorAt_zero]

theorem linePoint_end (p0 p1 : FbPoint) : linePoint p0 p1 (lineLength p0 p1) = p1 := by
  have hx := lineSign_end p0.x p1.x
  have hy := lineSign_end p0.y p1.y
  rw [← lineWidth] at hx
  rw [← lineHeight] at hy
  unfold linePoint lineLength
  by_cases h : lineHeight p0 p1 ≤ lineWidth p0 p1
  · rw [if_pos h, Nat.max_eq_left h, minorAt_self h, hx, hy]
  · rw [if_neg h, Nat.max_eq_right (Nat.le_of_not_le h), minorAt_self (Nat.le_of_not_le h), hx, hy]

theorem linePoint_box (hk : k ≤ lineLength p0 p1) :
    (min p0.x p1.x ≤ (linePoint p0 p1 k).x ∧ (linePoint p0 p1 k).x ≤ max p0.x p1.x) ∧
    (min p0.y p1.y ≤ (linePoint p0 p1 k).y ∧ (linePoint p0 p1 k).y ≤ max p0.y p1.y) := by
  unfold linePoint
  unfold lineLength at hk
  by_cases h : lineHeight p0 p1 ≤ lineWidth p0 p1
  · rw [Nat.max_eq_left h] at hk
    rw [if_pos h]
    exact ⟨lineSign_between _ _ hk, lineSign_between _ _ (minorAt_le h hk)⟩
  · have h' := Nat.le_of_not_le h
    rw [Nat.max_eq_right h'] at hk
    rw [if_neg h]
    exact ⟨lineSign_between _ _ (minorAt_le h' hk), lineSign_between _ _ hk⟩

theorem linePoint_inj {i : Nat} (he : linePoint p0 p1 i = linePoint p0 p1 k) : i = k := by
  unfold linePoint at he
  by_cases h : lineHeight p0 p1 ≤ lineWidth p0 p1
  · rw [if_pos h, if_pos h] at he
    exact lineSign_inj _ _ (congrArg FbPoint.x he)
  · rw [if_neg h, if_neg h] at he
    exact lineSign_inj _ _ (congrArg FbPoint.y he)

theorem linePoint_step (hk : k < lineLength p0 p1) :
    |(linePoint p0 p1 (k + 1)).x - (linePoint p0 p1 k).x| ≤ 1 ∧
      |(linePoint p0 p1 (k + 1)).y - (linePoint p0 p1 k).y| ≤ 1 := by
  unfold linePoint
  unfold lineLength at hk
  by_cases h : lineHeight p0 p1 ≤ lineWidth p0 p1
  · rw [Nat.max_eq_left h] at hk
    obtain ⟨hle, hlt⟩ := @minorAt_succ_le _ _ k (Nat.zero_lt_of_lt hk) h
    rw [if_pos h, if_pos h]
    exact ⟨lineSign_step _ _ (Nat.le_succ k) (Nat.le_refl _), lineSign_step _ _ hle hlt⟩
  · have h' := Nat.le_of_not_le h
    rw [Nat.max_eq_right h'] at hk
    obtain ⟨hle, hlt⟩ := @minorAt_succ_le _ _ k (Nat.zero_lt_of_lt hk) h'
    rw [if_neg h, if_neg h]
    exact ⟨lineSign_step _ _ hle hlt, lineSign_step _ _ (Nat.le_succ k) (Nat.le_refl _)⟩

def linePixels (p0 p1 : FbPoint) : List FbPoint :=
  (List.range (lineLength p0 p1 + 1)).map (linePoint p0 p1)

theorem mem_linePixels {p : FbPoint} (h : p ∈ linePixels p0 p1) :
    ∃ k ≤ lineLength p0 p1, linePoint p0 p1 k = p := by
  obtain ⟨k, hk, rfl⟩ := List.mem_map.mp h
  exact ⟨k, Nat.le_of_lt_succ (List.mem_range.mp hk), rfl⟩

theorem linePixels_spec (p0 p1 : FbPoint) : LinePixels p0 p1 (linePixels p0 p1) where
  count := by
    rw [linePixels, List.length_map, List.length_range]
    rfl
  distinct := List.nodup_range.map fun _ _ => linePoint_inj
  first := by
    rw [linePixels, List.range_succ_eq_map, List.map_cons, List.head?_cons, linePoint_zero]
  last := by
    rw [linePixels, List.range_succ, List.map_append, List.map_singleton,
      List.getLast?_append, List.getLast?_singleton, linePoint_end]
    rfl
  steps := by
    rw [linePixels, List.isChain_map, List.isChain_range]
    intro k hk
    exact linePoint_step hk
  box := by
    intro p hp
    obtain ⟨k, hk, rfl⟩ := mem_linePixels hp
    exact linePoint_box hk
  nearY := by
    intro hmajor p hp
    obtain ⟨k, hk, rfl⟩ := mem_linePixels hp
    rw [Int.abs_eq_natAbs, Int.abs_eq_natAbs, Int.ofNat_le] at hmajor
    have h : lineHeight p0 p1 ≤ lineWidth p0 p1 := hmajor
    rcases Nat.eq_zero_or_pos (lineWidth p0 p1) with hzero | hpos
    · rw [lineLength, Nat.max_eq_left h, hzero] at hk
      obtain rfl := Nat.le_zero.mp hk
      simp [linePoint_zero]
    · rw [linePoint, if_pos h]
      exact lineSign_near p0.x p1.x p0.y p1.y k hpos
  nearX := by
    intro hmajor p hp
    obtain ⟨k, hk, rfl⟩ := mem_linePixels hp
    rw [Int.abs_eq_natAbs, Int.abs_eq_natAbs, Int.ofNat_lt] at hmajor
    have h : lineWidth p0 p1 < lineHeight p0 p1 := hmajor
    rw [linePoint, if_neg (Nat.not_le_of_lt h)]
    exact lineSign_near p0.y p1.y p0.x p1.x k (Nat.zero_lt_of_lt h)

theorem checkInt_ok {v : Int} (h : FitsInt v) : checkInt v = .ok v := by
  rw [checkInt, if_pos h]

theorem absInt_ok {v : Int} (h : v.natAbs < 2 ^ 31) : absInt v = .ok (v.natAbs : Int) := by
  unfold absInt
  split
  · rw [Int.natAbs_of_nonneg ‹_›]
  · rw [checkInt_ok (by unfold FitsInt; omega)]
    congr 1
    omega

theorem drawLineTurn_eq {dx dy sx sy : Int} {s : LineState} (hdouble : FitsInt (2 * s.err))
    (hmiddle : dy ≤ 2 * s.err → FitsInt (s.err + dy))
    (herr : FitsInt (lineStep dx dy sx sy s).err) (hx : FitsInt (lineStep dx dy sx sy s).x0)
    (hy : FitsInt (lineStep dx dy sx sy s).y0) :
    drawLineTurn dx dy sx sy s = .ok (lineStep dx dy sx sy s) := by
  unfold lineStep at *
  unfold drawLineTurn
  by_cases h1 : dy ≤ 2 * s.err
  · by_cases h2 : 2 * s.err ≤ dx
    · simp only [h1, h2, if_true] at herr hx hy ⊢
      simp [checkInt_ok, hdouble, hmiddle h1, herr, hx, hy, h1, h2, bind, Except.bind, pure,
        Except.pure]
    · simp only [h1, h2, if_true, if_false] at herr hx hy ⊢
      simp [checkInt_ok, hdouble, herr, hx, h1, h2, bind, Except.bind, pure, Except.pure]
  · by_cases h2 : 2 * s.err ≤ dx
    · simp only [h1, h2, if_true, if_false] at herr hx hy ⊢
      simp [checkInt_ok, hdouble, herr, hy, h1, h2, bind, Except.bind, pure, Except.pure]
    · simp [checkInt_ok, hdouble, h1, h2, bind, Except.bind, pure, Except.pure]

theorem drawLineLoop_run (fb : FbConfig) {dx dy sx sy : Int} (n : Nat) {s : LineState}
    (hlast : ((lineStep dx dy sx sy)^[n] s).x0 = p1.x ∧ ((lineStep dx dy sx sy)^[n] s).y0 = p1.y)
    (hbefore : ∀ k < n, ¬ (((lineStep dx dy sx sy)^[k] s).x0 = p1.x ∧
      ((lineStep dx dy sx sy)^[k] s).y0 = p1.y))
    (hturn : ∀ k < n, drawLineTurn dx dy sx sy ((lineStep dx dy sx sy)^[k] s) =
      .ok ((lineStep dx dy sx sy)^[k + 1] s)) {fuel : Nat} (hfuel : n < fuel) :
    drawLineLoop fb p1 dx dy sx sy fuel s = .ok ((List.range (n + 1)).map fun k =>
      plot fb ⟨((lineStep dx dy sx sy)^[k] s).x0, ((lineStep dx dy sx sy)^[k] s).y0⟩) := by
  induction n generalizing s fuel with
  | zero =>
    obtain ⟨fuel, rfl⟩ := Nat.exists_eq_succ_of_ne_zero (by omega : fuel ≠ 0)
    have hend : s.x0 = p1.x ∧ s.y0 = p1.y := hlast
    rw [Nat.succ_eq_add_one, drawLineLoop, if_pos hend]
    rfl
  | succ n ih =>
    obtain ⟨fuel, rfl⟩ := Nat.exists_eq_succ_of_ne_zero (by omega : fuel ≠ 0)
    have hnot : ¬ (s.x0 = p1.x ∧ s.y0 = p1.y) := hbefore 0 (Nat.succ_pos n)
    have hfirst : drawLineTurn dx dy sx sy s = .ok (lineStep dx dy sx sy s) :=
      hturn 0 (Nat.succ_pos n)
    have hrest := @ih (lineStep dx dy sx sy s) hlast
      (fun k hk => hbefore (k + 1) (Nat.succ_lt_succ hk))
      (fun k hk => hturn (k + 1) (Nat.succ_lt_succ hk)) fuel (by omega)
    rw [Nat.succ_eq_add_one, drawLineLoop, if_neg hnot, hfirst]
    rw [List.range_succ_eq_map, List.map_cons, List.map_map]
    simp only [bind, Except.bind, hrest]
    rfl

def FbPoint.Fits (p : FbPoint) : Prop := FitsInt p.x ∧ FitsInt p.y

theorem lineRun_succ (p0 p1 : FbPoint) (k : Nat) : lineRun p0 p1 (k + 1) =
    lineStep (lineWidth p0 p1) (-lineHeight p0 p1) (lineSign p0.x p1.x) (lineSign p0.y p1.y)
      (lineRun p0 p1 k) :=
  Function.iterate_succ_apply' _ _ _

theorem lineRun_point (hk : k ≤ lineLength p0 p1) :
    (⟨(lineRun p0 p1 k).x0, (lineRun p0 p1 k).y0⟩ : FbPoint) = linePoint p0 p1 k := by
  rw [lineRun_eq hk]

theorem lineErr_end (p0 p1 : FbPoint) :
    lineErr p0 p1 (lineLength p0 p1) = lineWidth p0 p1 - lineHeight p0 p1 := by
  unfold lineErr lineLength
  by_cases h : lineHeight p0 p1 ≤ lineWidth p0 p1
  · simp only [h, if_true]
    rw [Nat.max_eq_left h, minorAt_self h]
    ring
  · have h' := Nat.le_of_not_le h
    simp only [h, if_false]
    rw [Nat.max_eq_right h', minorAt_self h']
    ring

theorem lineRun_last (p0 p1 : FbPoint) :
    ((lineRun p0 p1 (lineLength p0 p1)).x0 = p1.x ∧
      (lineRun p0 p1 (lineLength p0 p1)).y0 = p1.y) ∧
    (lineRun p0 p1 (lineLength p0 p1)).err = lineWidth p0 p1 - lineHeight p0 p1 := by
  rw [lineRun_eq (Nat.le_refl _), linePoint_end, lineErr_end]
  exact ⟨⟨rfl, rfl⟩, rfl⟩

theorem lineRun_before (hk : k < lineLength p0 p1) :
    ¬ ((lineRun p0 p1 k).x0 = p1.x ∧ (lineRun p0 p1 k).y0 = p1.y) := by
  intro h
  have hpoint := lineRun_point (Nat.le_of_lt hk)
  rw [h.1, h.2] at hpoint
  have hend := (linePoint_end p0 p1).trans hpoint
  exact absurd (linePoint_inj hend) (Nat.ne_of_gt hk)

theorem double_fits (hdouble : DoublesFit p0 p1) (hk : k < lineLength p0 p1) :
    FitsInt (2 * (lineRun p0 p1 k).err) :=
  hdouble k fun _ hi => lineRun_before (Nat.lt_of_le_of_lt hi hk)

theorem err_fits (hsum : lineWidth p0 p1 + lineHeight p0 p1 < 2 ^ 31)
    (hdouble : DoublesFit p0 p1) (hk : k ≤ lineLength p0 p1) : FitsInt (lineRun p0 p1 k).err := by
  rcases Nat.lt_or_eq_of_le hk with hlt | rfl
  · have hfits := double_fits hdouble hlt
    unfold FitsInt at hfits ⊢
    omega
  · rw [(lineRun_last p0 p1).2]
    unfold FitsInt
    omega

/-- Of width and height one is below 2^30, which bounds the error between the two steps of a
turn: by that at the start of the turn, or by that at its end. -/
theorem err_between_fits (hsum : lineWidth p0 p1 + lineHeight p0 p1 < 2 ^ 31)
    (hdouble : DoublesFit p0 p1) (hk : k < lineLength p0 p1)
    (hstep : -(lineHeight p0 p1 : Int) ≤ 2 * (lineRun p0 p1 k).err) :
    FitsInt ((lineRun p0 p1 k).err + -lineHeight p0 p1) := by
  have hstart := double_fits hdouble hk
  have hend := err_fits hsum hdouble (Nat.succ_le_of_lt hk)
  have hlast := (lineRun_last p0 p1).2
  have hnext := lineRun_succ p0 p1 k
  generalize hs : lineRun p0 p1 k = s at *
  by_cases hminor : 2 * s.err ≤ lineWidth p0 p1
  · have herr : (lineRun p0 p1 (k + 1)).err = s.err + -lineHeight p0 p1 + lineWidth p0 p1 := by
      rw [hnext, lineStep]
      simp only [hstep, hminor, if_true]
    rcases Nat.lt_or_eq_of_le (Nat.succ_le_of_lt hk) with hlt | he
    · have hdouble' := double_fits hdouble hlt
      rw [Nat.succ_eq_add_one, herr] at hdouble'
      unfold FitsInt at *
      omega
    · rw [← he, Nat.succ_eq_add_one, herr] at hlast
      unfold FitsInt at *
      omega
  · have herr : (lineRun p0 p1 (k + 1)).err = s.err + -lineHeight p0 p1 := by
      rw [hnext, lineStep]
      simp only [hstep, hminor, if_true, if_false]
    rwa [Nat.succ_eq_add_one, herr] at hend

theorem point_fits (h0 : p0.Fits) (h1 : p1.Fits) (hk : k ≤ lineLength p0 p1) :
    FitsInt (lineRun p0 p1 k).x0 ∧ FitsInt (lineRun p0 p1 k).y0 := by
  obtain ⟨hx, hy⟩ := linePoint_box hk
  obtain ⟨hx0, hy0⟩ := h0
  obtain ⟨hx1, hy1⟩ := h1
  rw [lineRun_eq hk]
  unfold FitsInt at *
  constructor <;> dsimp only <;> omega

theorem lineRun_turn (h0 : p0.Fits) (h1 : p1.Fits)
    (hsum : lineWidth p0 p1 + lineHeight p0 p1 < 2 ^ 31) (hdouble : DoublesFit p0 p1)
    (hk : k < lineLength p0 p1) :
    drawLineTurn (lineWidth p0 p1) (-lineHeight p0 p1) (lineSign p0.x p1.x) (lineSign p0.y p1.y)
      (lineRun p0 p1 k) = .ok (lineRun p0 p1 (k + 1)) := by
  obtain ⟨hx, hy⟩ := point_fits h0 h1 (Nat.succ_le_of_lt hk)
  have hend := err_fits hsum hdouble (Nat.succ_le_of_lt hk)
  rw [Nat.succ_eq_add_one, lineRun_succ] at hx hy hend
  rw [lineRun_succ]
  exact drawLineTurn_eq (double_fits hdouble hk) (err_between_fits hsum hdouble hk) hend hx hy

/-- A line is drawn with all of its pixels, from the first to the last, and no operation
overflows. -/
theorem draw_line_plots (fb : FbConfig) (h0 : p0.Fits) (h1 : p1.Fits)
    (hsum : FitsInt (|p1.x - p0.x| + |p1.y - p0.y|)) (hdouble : DoublesFit p0 p1) :
    ∃ pixels, LinePixels p0 p1 pixels ∧
      ∀ fuel, max (p1.x - p0.x).natAbs (p1.y - p0.y).natAbs < fuel →
        framebufferDrawLine fuel fb p0 p1 = .ok (pixels.map (plot fb)) := by
  refine ⟨linePixels p0 p1, linePixels_spec p0 p1, ?_⟩
  intro fuel hfuel
  rw [Int.abs_eq_natAbs, Int.abs_eq_natAbs] at hsum
  have hnat : lineWidth p0 p1 + lineHeight p0 p1 < 2 ^ 31 := by
    unfold FitsInt at hsum
    unfold lineWidth lineHeight
    omega
  have hstart : framebufferDrawLine fuel fb p0 p1 = drawLineLoop fb p1 (lineWidth p0 p1)
      (-lineHeight p0 p1) (lineSign p0.x p1.x) (lineSign p0.y p1.y) fuel (lineRun p0 p1 0) := by
    have hdx : FitsInt (p1.x - p0.x) := by
      unfold FitsInt at *
      omega
    have hdy : FitsInt (p1.y - p0.y) := by
      unfold FitsInt at *
      omega
    have hneg : FitsInt (-((p1.y - p0.y).natAbs : Int)) := by
      unfold FitsInt at *
      omega
    have herr : FitsInt (((p1.x - p0.x).natAbs : Int) + -((p1.y - p0.y).natAbs : Int)) := by
      unfold FitsInt at *
      omega
    unfold lineWidth lineHeight at hnat
    simp only [framebufferDrawLine, checkInt_ok hdx, checkInt_ok hdy, bind, Except.bind,
      absInt_ok (by omega : (p1.x - p0.x).natAbs < 2 ^ 31),
      absInt_ok (by omega : (p1.y - p0.y).natAbs < 2 ^ 31), checkInt_ok hneg, checkInt_ok herr]
    rfl
  have hloop := drawLineLoop_run fb (lineLength p0 p1) (lineRun_last p0 p1).1
    (fun k hk => lineRun_before hk) (fun k hk => lineRun_turn h0 h1 hnat hdouble hk) hfuel
  apply hstart.trans
  apply hloop.trans
  rw [linePixels, List.map_map]
  congr 1
  apply List.map_congr_left
  intro k hk
  have hle := Nat.le_of_lt_succ (List.mem_range.mp hk)
  exact congrArg (plot fb) (lineRun_point hle)

theorem lineErr_le (hk : k < lineLength p0 p1) :
    |2 * lineErr p0 p1 k| ≤ 3 * lineLength p0 p1 := by
  have hrewrite : ∀ m n : Nat, ((minorAt m n k : Int) + 1) * m - (k + 1) * n =
      balance m n k + m - n := by
    intro m n
    rw [balance]
    ring
  unfold lineErr
  unfold lineLength at hk ⊢
  rw [abs_le]
  by_cases h : lineHeight p0 p1 ≤ lineWidth p0 p1
  · rw [Nat.max_eq_left h] at hk ⊢
    obtain ⟨hlt, hle⟩ := @balance_bounds _ (lineHeight p0 p1) k (Nat.zero_lt_of_lt hk)
    simp only [h, if_true, hrewrite]
    omega
  · rw [Nat.max_eq_right (Nat.le_of_not_le h)] at hk ⊢
    obtain ⟨hlt, hle⟩ := @balance_bounds _ (lineWidth p0 p1) k (Nat.zero_lt_of_lt hk)
    have hflip : ((k : Int) + 1) * lineWidth p0 p1 -
        (minorAt (lineHeight p0 p1) (lineWidth p0 p1) k + 1) * lineHeight p0 p1 =
          -(balance (lineHeight p0 p1) (lineWidth p0 p1) k + lineHeight p0 p1 - lineWidth p0 p1) := by
      rw [← hrewrite]
      ring
    simp only [h, if_false, hflip]
    omega

theorem doublesFit_of_short (h : 3 * lineLength p0 p1 < 2 ^ 31) : DoublesFit p0 p1 := by
  intro k hbefore
  have hk : k < lineLength p0 p1 :=
    Nat.lt_of_not_le fun hle => hbefore _ hle (lineRun_last p0 p1).1
  have hle := abs_le.mp (lineErr_le hk)
  rw [lineRun_eq (Nat.le_of_lt hk)]
  unfold FitsInt
  dsimp only
  omega

/-- A line of four pixels. -/
theorem draw_line_plots_example : ∃ pixels, LinePixels ⟨0, 0⟩ ⟨3, 1⟩ pixels ∧
    framebufferDrawLine 4 ⟨0x1000#64, 10, 10, 40⟩ ⟨0, 0⟩ ⟨3, 1⟩ =
      .ok (pixels.map (plot ⟨0x1000#64, 10, 10, 40⟩)) := by
  obtain ⟨pixels, hpixels, hdraw⟩ := @draw_line_plots ⟨0, 0⟩ ⟨3, 1⟩ ⟨0x1000#64, 10, 10, 40⟩
    ⟨by decide, by decide⟩ ⟨by decide, by decide⟩ (by decide) (doublesFit_of_short (by decide))
  exact ⟨pixels, hpixels, hdraw 4 (by decide)⟩

end Ukulele
