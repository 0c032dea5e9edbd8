import Ukulele.Framebuffer

/-! Where text goes on the screen. The cursor goes through one column and one row more than fit:
it is wrapped after it has passed the edge, not when it has reached it.
-/

set_option autoImplicit false

namespace Ukulele

def textLines (text : List Byte) : List (List Byte) := text.splitOn newline

def lastLine (text : List Byte) : List Byte := (textLines text).getLastD []

def columns (width : Int) : Nat := width.toNat / 8 + 1

def rows (height : Int) : Nat := height.toNat / 8 + 1

/-- The rows that a text has ended: one with each newline, and those of full lines. -/
def rowsEnded (width : Int) (text : List Byte) : Nat :=
  text.count newline + ((textLines text).map (fun line => line.length / columns width)).sum

def cursorColumn (width : Int) (text : List Byte) : Nat := (lastLine text).length % columns width

def cursorRow (width height : Int) (text : List Byte) : Nat := rowsEnded width text % rows height

theorem textLines_newline (text more : List Byte) :
    textLines (text ++ newline :: more) = textLines text ++ textLines more :=
  List.splitOn_append_cons_self text more

theorem textLines_singleton {text : List Byte} (h : newline ∉ text) : textLines text = [text] :=
  List.splitOn_eq_singleton h

theorem textLines_append (text : List Byte) : ∃ ls, ∀ more, newline ∉ more →
    textLines (text ++ more) = ls ++ [lastLine text ++ more] := by
  have hlines : ∃ ls l, ∀ more, newline ∉ more → textLines (text ++ more) = ls ++ [l ++ more] := by
    induction text using List.reverseRecOn with
    | nil => exact ⟨[], [], fun more hmore => textLines_singleton hmore⟩
    | append_singleton text d ih =>
      obtain ⟨ls, l, hmore⟩ := ih
      by_cases hd : d = newline
      · subst hd
        refine ⟨textLines text, [], ?_⟩
        intro more h
        rw [List.append_assoc, List.singleton_append, textLines_newline, textLines_singleton h]
        rfl
      · refine ⟨ls, l ++ [d], ?_⟩
        intro more h
        rw [List.append_assoc, List.singleton_append, hmore (d :: more) (by simp [Ne.symm hd, h]),
          List.append_assoc, List.singleton_append]
  obtain ⟨ls, l, hmore⟩ := hlines
  have hlast : lastLine text = l := by
    have htext := hmore [] (by simp)
    rw [List.append_nil, List.append_nil] at htext
    simp [lastLine, htext]
  exact ⟨ls, hlast ▸ hmore⟩

section Cursor

variable {width height : Int} {text : List Byte} {c : Byte}

theorem textLines_concat_newline (text : List Byte) :
    textLines (text ++ [newline]) = textLines text ++ [[]] := by
  have hnil : textLines [] = [[]] := textLines_singleton (by simp)
  rw [textLines_newline, hnil]

theorem cursorColumn_newline : cursorColumn width (text ++ [newline]) = 0 := by
  simp [cursorColumn, lastLine, textLines_concat_newline]

theorem rowsEnded_newline :
    rowsEnded width (text ++ [newline]) = rowsEnded width text + 1 := by
  simp [rowsEnded, textLines_concat_newline]
  omega

theorem lastLine_concat (width : Int) (text : List Byte) (hc : c ≠ newline) :
    lastLine (text ++ [c]) = lastLine text ++ [c] ∧
    rowsEnded width (text ++ [c]) + (lastLine text).length / columns width =
      rowsEnded width text + ((lastLine text).length + 1) / columns width := by
  obtain ⟨ls, hmore⟩ := textLines_append text
  have htext := hmore [] (by simp)
  have hconcat := hmore [c] (by simpa using hc.symm)
  rw [List.append_nil, List.append_nil] at htext
  constructor
  · rw [lastLine, hconcat, List.getLastD_concat]
  · rw [rowsEnded, rowsEnded, hconcat, htext]
    simp [hc]
    omega

theorem succ_mod_wrap (t n : Nat) :
    (t + 1) % (n + 1) = if n < t % (n + 1) + 1 then 0 else t % (n + 1) + 1 := by
  have hlt : t % (n + 1) < n + 1 := Nat.mod_lt t (Nat.succ_pos n)
  rw [← Nat.mod_add_mod]
  split
  · rw [show t % (n + 1) + 1 = n + 1 by omega, Nat.mod_self]
  · exact Nat.mod_eq_of_lt (by omega)

theorem succ_div_wrap (t n : Nat) :
    (t + 1) / (n + 1) = if n < t % (n + 1) + 1 then t / (n + 1) + 1 else t / (n + 1) := by
  have hlt : t % (n + 1) < n + 1 := Nat.mod_lt t (Nat.succ_pos n)
  have hdiv := Nat.div_add_mod t (n + 1)
  split
  · apply Nat.div_eq_of_lt_le
    · rw [Nat.add_mul, Nat.mul_comm]
      omega
    · rw [Nat.add_mul, Nat.add_mul, Nat.mul_comm]
      omega
  · apply Nat.div_eq_of_lt_le
    · rw [Nat.mul_comm]
      omega
    · rw [Nat.add_mul, Nat.mul_comm]
      omega

end Cursor

/-- The cursor is where the text so far has left it. -/
structure CursorAt (fbc : FbCookie) (text : List Byte) : Prop where
  x_eq : fbc.x = 8 * (cursorColumn fbc.config.width text : Int)
  y_eq : fbc.y = 8 * (cursorRow fbc.config.width fbc.config.height text : Int)

section Run

variable (font8x8 : Nat → Nat → Byte) {fbc : FbCookie} {text : List Byte}

/-- The cursor is not past an edge, so that no `int` of the cursor overflows while both sides are
below `2 ^ 31 - 16`. -/
theorem CursorAt.bounds (h : CursorAt fbc text) (hw : 0 ≤ fbc.config.width)
    (hh : 0 ≤ fbc.config.height) :
    0 ≤ fbc.x ∧ fbc.x ≤ fbc.config.width ∧ 0 ≤ fbc.y ∧ fbc.y ≤ fbc.config.height := by
  have hcolumn : cursorColumn fbc.config.width text < columns fbc.config.width :=
    Nat.mod_lt _ (Nat.succ_pos _)
  have hrow : cursorRow fbc.config.width fbc.config.height text < rows fbc.config.height :=
    Nat.mod_lt _ (Nat.succ_pos _)
  rw [h.x_eq, h.y_eq]
  unfold columns at hcolumn
  unfold rows at hrow
  omega

theorem fbCookieStep_config (fbc : FbCookie) (print : Byte) :
    (fbCookieStep font8x8 fbc print).2.config = fbc.config := by
  simp only [fbCookieStep]
  split <;> rfl

theorem fbCookieStep_cursor (hw : 0 ≤ fbc.config.width) (hh : 0 ≤ fbc.config.height)
    (h : CursorAt fbc text) (print : Byte) :
    CursorAt (fbCookieStep font8x8 fbc print).2 (text ++ [print]) := by
  obtain ⟨hx, hy⟩ := h
  have hrow := succ_mod_wrap (rowsEnded fbc.config.width text) (fbc.config.height.toNat / 8)
  have hbottom : (if fbc.config.height < fbc.y + 8 then 0 else fbc.y + 8) =
      8 * (((rowsEnded fbc.config.width text + 1) % rows fbc.config.height : Nat) : Int) := by
    rw [cursorRow, rows] at hy
    rw [rows, hrow]
    split <;> split <;> omega
  by_cases hnl : print = newline
  · subst hnl
    constructor
    · simp only [fbCookieStep, true_or, if_true, cursorColumn_newline]
      rfl
    · simp only [fbCookieStep, true_or, if_true, cursorRow, rowsEnded_newline]
      exact hbottom
  · obtain ⟨hlast, hended⟩ := lastLine_concat fbc.config.width text hnl
    have hcol := succ_mod_wrap (lastLine text).length (fbc.config.width.toNat / 8)
    have hfull := succ_div_wrap (lastLine text).length (fbc.config.width.toNat / 8)
    have hcolumn : cursorColumn fbc.config.width (text ++ [print]) =
        ((lastLine text).length + 1) % columns fbc.config.width := by
      rw [cursorColumn, hlast, List.length_append, List.length_singleton]
    rw [cursorColumn, columns] at hx
    rw [columns] at hended
    by_cases hedge : fbc.config.width < fbc.x + 8
    · have hwrap : fbc.config.width.toNat / 8 <
          (lastLine text).length % (fbc.config.width.toNat / 8 + 1) + 1 := by omega
      rw [if_pos hwrap] at hcol hfull
      have hrows : rowsEnded fbc.config.width (text ++ [print]) =
          rowsEnded fbc.config.width text + 1 := by omega
      constructor
      · simp only [fbCookieStep, hedge, or_true, if_true, hcolumn, columns, hcol]
        rfl
      · simp only [fbCookieStep, hedge, or_true, if_true, cursorRow, hrows]
        exact hbottom
    · have hwrap : ¬ fbc.config.width.toNat / 8 <
          (lastLine text).length % (fbc.config.width.toNat / 8 + 1) + 1 := by omega
      rw [if_neg hwrap] at hcol hfull
      have hrows : rowsEnded fbc.config.width (text ++ [print]) =
          rowsEnded fbc.config.width text := by omega
      constructor
      · simp only [fbCookieStep, hnl, hedge, or_self, if_false, hcolumn, columns, hcol]
        omega
      · simp only [fbCookieStep, hnl, hedge, or_self, if_false, cursorRow, hrows]
        exact hy

theorem fbCookieLoop_cursor (hw : 0 ≤ fbc.config.width) (hh : 0 ≤ fbc.config.height)
    (h : CursorAt fbc text) (more : List Byte) :
    (fbCookieLoop font8x8 fbc more).2.config = fbc.config ∧
      CursorAt (fbCookieLoop font8x8 fbc more).2 (text ++ more) := by
  induction more generalizing fbc text with
  | nil =>
    rw [List.append_nil]
    exact ⟨rfl, h⟩
  | cons print more ih =>
    have hconfig := fbCookieStep_config font8x8 fbc print
    have hnext := fbCookieStep_cursor font8x8 hw hh h print
    obtain ⟨hkeep, hcursor⟩ := @ih (fbCookieStep font8x8 fbc print).2 (text ++ [print])
      (by rwa [hconfig]) (by rwa [hconfig]) hnext
    rw [List.append_assoc] at hcursor
    exact ⟨hkeep.trans hconfig, hcursor⟩

/-- The stores of a text: those of each of its bytes, at the cursor that the bytes before it
lead to. -/
theorem mem_fbCookieLoop (hw : 0 ≤ fbc.config.width) (hh : 0 ≤ fbc.config.height)
    (h : CursorAt fbc text) (more : List Byte) (st : PixelStore) :
    st ∈ (fbCookieLoop font8x8 fbc more).1 ↔ ∃ i c, more[i]? = some c ∧
      st ∈ framebufferWriteAt font8x8 fbc.config c
        ⟨8 * (cursorColumn fbc.config.width (text ++ more.take i) : Int),
          8 * (cursorRow fbc.config.width fbc.config.height (text ++ more.take i) : Int)⟩ := by
  induction more generalizing fbc text with
  | nil => simp [fbCookieLoop]
  | cons print more ih =>
    have hconfig := fbCookieStep_config font8x8 fbc print
    have hnext := fbCookieStep_cursor font8x8 hw hh h print
    have hrest := @ih (fbCookieStep font8x8 fbc print).2 (text ++ [print]) (by rwa [hconfig])
      (by rwa [hconfig]) hnext
    rw [hconfig] at hrest
    have hfirst : (fbCookieStep font8x8 fbc print).1 =
        framebufferWriteAt font8x8 fbc.config print
          ⟨8 * (cursorColumn fbc.config.width text : Int),
            8 * (cursorRow fbc.config.width fbc.config.height text : Int)⟩ := by
      rw [← h.x_eq, ← h.y_eq]
      simp only [fbCookieStep]
      split <;> rfl
    rw [fbCookieLoop, List.mem_append, hfirst, hrest]
    constructor
    · rintro (hst | ⟨i, c, hc, hst⟩)
      · exact ⟨0, print, rfl, by simpa using hst⟩
      · exact ⟨i + 1, c, hc, by simpa using hst⟩
    · rintro ⟨i, c, hc, hst⟩
      cases i with
      | zero =>
        simp only [List.getElem?_cons_zero, Option.some.injEq] at hc
        subst hc
        exact Or.inl (by simpa using hst)
      | succ i => exact Or.inr ⟨i, c, hc, by simpa using hst⟩

theorem fbCookieLoop_append (fbc : FbCookie) (a b : List Byte) :
    fbCookieLoop font8x8 fbc (a ++ b) =
      ((fbCookieLoop font8x8 fbc a).1 ++
        (fbCookieLoop font8x8 (fbCookieLoop font8x8 fbc a).2 b).1,
        (fbCookieLoop font8x8 (fbCookieLoop font8x8 fbc a).2 b).2) := by
  induction a generalizing fbc with
  | nil => rfl
  | cons print a ih => simp [fbCookieLoop, ih]

theorem fbCookieWrites_eq (fbc : FbCookie) (bufs : List (List Byte)) :
    fbCookieWrites font8x8 fbc bufs = fbCookieLoop font8x8 fbc bufs.flatten := by
  induction bufs generalizing fbc with
  | nil => rfl
  | cons buf bufs ih =>
    simp [fbCookieWrites, fbCookieWrite, ih, fbCookieLoop_append]

end Run

def Printable (c : Byte) : Prop := 0x20 ≤ c.toNat ∧ c.toNat ≤ 0x7e

instance (c : Byte) : Decidable (Printable c) := inferInstanceAs (Decidable (_ ∧ _))

def FbConfig.Contains (fb : FbConfig) (p : FbPoint) : Prop :=
  0 ≤ p.x ∧ p.x < fb.width ∧ 0 ≤ p.y ∧ p.y < fb.height

instance (fb : FbConfig) (p : FbPoint) : Decidable (fb.Contains p) :=
  inferInstanceAs (Decidable (_ ∧ _ ∧ _ ∧ _))

theorem printable_iff (c : Byte) : Printable c ↔ ¬ (c.toInt < 0x20 ∨ 0x7e < c.toInt) := by
  have hc := c.isLt
  rw [BitVec.toInt_eq_toNat_cond, Printable]
  split <;> omega

theorem mem_framebufferWriteAt (font8x8 : Nat → Nat → Byte) (fb : FbConfig) {c : Byte}
    (hc : Printable c) (p q : FbPoint) :
    (∃ st ∈ framebufferWriteAt font8x8 fb c p, st.point = q) ↔
      ∃ x < 8, ∃ y < 8, q = ⟨p.x + (x : Nat), p.y + (y : Nat)⟩ := by
  rw [framebufferWriteAt, if_neg ((printable_iff c).mp hc)]
  simp only [List.mem_flatMap, List.mem_range, writeRow, List.mem_map, fontCharHeight,
    fontCharWidth]
  constructor
  · rintro ⟨st, ⟨y, hy, x, hx, rfl⟩, rfl⟩
    exact ⟨x, hx, y, hy, rfl⟩
  · rintro ⟨x, hx, y, hy, rfl⟩
    exact ⟨_, ⟨y, hy, x, hx, rfl⟩, rfl⟩

theorem framebufferWriteAt_contained (font8x8 : Nat → Nat → Byte) (fb : FbConfig) (c : Byte)
    (hw : 0 ≤ fb.width) (hh : 0 ≤ fb.height) (column row : Nat) :
    (∀ st ∈ framebufferWriteAt font8x8 fb c ⟨8 * (column : Int), 8 * (row : Int)⟩,
      fb.Contains st.point) ↔
      (Printable c → column < fb.width.toNat / 8 ∧ row < fb.height.toNat / 8) := by
  by_cases hc : Printable c
  · have hmem := mem_framebufferWriteAt font8x8 fb hc ⟨8 * (column : Int), 8 * (row : Int)⟩
    simp only [hc, true_implies]
    constructor
    · intro h
      obtain ⟨st, hst, hpoint⟩ := (hmem ⟨8 * (column : Int) + (7 : Nat),
        8 * (row : Int) + (7 : Nat)⟩).mpr ⟨7, by decide, 7, by decide, rfl⟩
      obtain ⟨-, hx, -, hy⟩ := h st hst
      rw [hpoint] at hx hy
      simp only at hx hy
      omega
    · intro h st hst
      obtain ⟨x, hx, y, hy, hpoint⟩ := (hmem st.point).mp ⟨st, hst, rfl⟩
      rw [hpoint]
      simp only [FbConfig.Contains]
      omega
  · rw [framebufferWriteAt, if_pos (not_not.mp (fun hn => hc ((printable_iff c).mpr hn)))]
    simp [hc]

/-- No character falls on the column or the row past the last one. -/
def TextOnScreen (width height : Int) (text : List Byte) : Prop :=
  ∀ i < text.length, Printable (text.getD i 0#8) →
    cursorColumn width (text.take i) < width.toNat / 8 ∧
    cursorRow width height (text.take i) < height.toNat / 8

instance (width height : Int) (text : List Byte) : Decidable (TextOnScreen width height text) :=
  inferInstanceAs (Decidable (∀ i < text.length, _ → _ ∧ _))

/-- All pixels that a text stores to are on the screen exactly if no character of it falls on the
places that do not fit. -/
theorem fb_text_on_screen (font8x8 : Nat → Nat → Byte) (fb : FbConfig) (hw : 8 ≤ fb.width)
    (hh : 8 ≤ fb.height) (bufs : List (List Byte)) :
    (∀ st ∈ (fbCookieWrites font8x8 ⟨fb, 0, 0⟩ bufs).1, fb.Contains st.point) ↔
      TextOnScreen fb.width fb.height bufs.flatten := by
  have hstart : CursorAt ⟨fb, 0, 0⟩ [] := by
    constructor <;> simp [cursorColumn, cursorRow, lastLine, rowsEnded, textLines]
  have hw' : 0 ≤ fb.width := by omega
  have hh' : 0 ≤ fb.height := by omega
  have hmem := mem_fbCookieLoop font8x8 hw' hh' hstart bufs.flatten
  simp only [List.nil_append] at hmem
  rw [fbCookieWrites_eq]
  constructor
  · intro h i hi
    rw [← framebufferWriteAt_contained font8x8 fb _ hw' hh']
    intro st hst
    apply h st
    refine (hmem st).mpr ⟨i, _, ?_, hst⟩
    rw [List.getD_eq_getElem _ _ hi, List.getElem?_eq_getElem hi]
  · intro h st hst
    obtain ⟨i, c, hc, hst⟩ := (hmem st).mp hst
    obtain ⟨hi, rfl⟩ := List.getElem?_eq_some_iff.mp hc
    have hchar := h i hi
    rw [List.getD_eq_getElem _ _ hi, ← framebufferWriteAt_contained font8x8 fb _ hw' hh'] at hchar
    exact hchar st hst

/-- Two lines that fit a screen of 20 by 16 pixels. -/
theorem fb_text_on_screen_example : TextOnScreen 20 16 [0x61#8, 0x62#8, newline, 0x63#8] ∧
    ∀ st ∈ (fbCookieWrites (fun _ _ => 0x18#8) ⟨⟨0#64, 20, 16, 80⟩, 0, 0⟩
      [[0x61#8, 0x62#8, newline], [0x63#8]]).1, FbConfig.Contains ⟨0#64, 20, 16, 80⟩ st.point := by
  have htext : TextOnScreen 20 16 [0x61#8, 0x62#8, newline, 0x63#8] := by decide
  exact ⟨htext, (fb_text_on_screen _ ⟨0#64, 20, 16, 80⟩ (by decide) (by decide) _).mpr htext⟩

/-- The second character of a line goes to a column that a screen of eight pixels does not have. -/
theorem fb_text_leaves_screen :
    (∃ st ∈ (fbCookieWrites (fun _ _ => 0x18#8) ⟨⟨0#64, 8, 8, 32⟩, 0, 0⟩ [[0x61#8, 0x62#8]]).1,
      st.point = ⟨8, 0⟩ ∧ ¬ FbConfig.Contains ⟨0#64, 8, 8, 32⟩ st.point) := by
  decide

end Ukulele
