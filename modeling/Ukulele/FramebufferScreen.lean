import Ukulele.ByteRange
import Ukulele.FramebufferText
import Ukulele.LibkString

/-! What text leaves in the memory of the framebuffer. A store of a pixel is one of four bytes. -/

set_option autoImplicit false

namespace Ukulele
open ByteRange

def storePixel (mem : ByteMemory) (st : PixelStore) : ByteMemory := fun a =>
  if offset st.address a < 4 then st.color.extractLsb' (8 * offset st.address a) 8 else mem a

def readPixel (mem : ByteMemory) (a : Uintptr) : BitVec 32 :=
  mem (a + 3#64) ++ mem (a + 2#64) ++ mem (a + 1#64) ++ mem a

def storePixels (mem : ByteMemory) (stores : List PixelStore) : ByteMemory :=
  stores.foldl storePixel mem

@[simp] theorem storePixels_nil (mem : ByteMemory) : storePixels mem [] = mem := rfl

@[simp] theorem storePixels_append (mem : ByteMemory) (a b : List PixelStore) :
    storePixels mem (a ++ b) = storePixels (storePixels mem a) b := by
  simp [storePixels]

theorem readPixel_eq {mem mem' : ByteMemory} {a : Uintptr}
    (h : ∀ k < 4, mem' (a + BitVec.ofNat 64 k) = mem (a + BitVec.ofNat 64 k)) :
    readPixel mem' a = readPixel mem a := by
  have h0 := h 0 (by decide)
  have h1 := h 1 (by decide)
  have h2 := h 2 (by decide)
  have h3 := h 3 (by decide)
  simp only [BitVec.add_zero] at h0 h1 h2 h3
  simp only [readPixel, h0, h1, h2, h3]

theorem readPixel_stored (mem : ByteMemory) (st : PixelStore) :
    readPixel (storePixel mem st) st.address = st.color := by
  have hbyte : ∀ k < 4, storePixel mem st (st.address + BitVec.ofNat 64 k) =
      st.color.extractLsb' (8 * k) 8 := by
    intro k hk
    rw [storePixel, offset_add _ (by omega), if_pos hk]
  have h0 := hbyte 0 (by decide)
  have h1 := hbyte 1 (by decide)
  have h2 := hbyte 2 (by decide)
  have h3 := hbyte 3 (by decide)
  simp only [BitVec.add_zero] at h0 h1 h2 h3
  simp only [readPixel, h0, h1, h2, h3]
  rw [BitVec.extractLsb'_append_extractLsb'_eq_extractLsb' (by omega),
    BitVec.extractLsb'_append_extractLsb'_eq_extractLsb' (by omega),
    BitVec.extractLsb'_append_extractLsb'_eq_extractLsb' (by omega)]
  simp

/-- A line of pixels fits the pitch, the lines do not wrap around the end of memory, and their
offsets are `int`s. -/
structure FbConfig.Fits (fb : FbConfig) : Prop where
  line : 4 * fb.width ≤ fb.pitch
  room : (fb.address.toNat : Int) + fb.pitch * fb.height ≤ 2 ^ 64
  ints : fb.pitch * fb.height ≤ 2 ^ 31

theorem toNat_intOffset {v : Int} (h : 0 ≤ v) (h' : v < 2 ^ 31) :
    ((intOffset v).toNat : Int) = v := by
  have hint : (BitVec.ofInt 32 v).toInt = v := by
    rw [BitVec.toInt_ofInt]
    exact Int.bmod_eq_of_le (by omega) (by omega)
  rw [intOffset, BitVec.signExtend, hint, BitVec.toNat_ofInt]
  omega

section Screen

variable {fb : FbConfig} {p q : FbPoint} {mem : ByteMemory}

def FbConfig.pixel (fb : FbConfig) (mem : ByteMemory) (p : FbPoint) : BitVec 32 :=
  readPixel mem (pixel32 fb p.x p.y)

def FbConfig.place (fb : FbConfig) (p : FbPoint) : Int := fb.pitch * p.y + 4 * p.x

theorem FbConfig.Fits.place_bounds (h : fb.Fits) (hp : fb.Contains p) :
    0 ≤ fb.place p ∧ fb.place p + 4 ≤ fb.pitch * fb.height := by
  obtain ⟨hx, hw, hy, hh⟩ := hp
  have hline := h.line
  have hpitch : 0 ≤ fb.pitch := by omega
  have hrow : 0 ≤ fb.pitch * p.y := Int.mul_nonneg hpitch hy
  have hlast : fb.pitch * (p.y + 1) ≤ fb.pitch * fb.height :=
    Int.mul_le_mul_of_nonneg_left (by omega) hpitch
  rw [Int.mul_add, Int.mul_one] at hlast
  unfold place
  omega

theorem FbConfig.Fits.toNat_pixel32 (h : fb.Fits) (hp : fb.Contains p) :
    ((pixel32 fb p.x p.y).toNat : Int) = fb.address.toNat + fb.place p := by
  obtain ⟨hmin, hmax⟩ := h.place_bounds hp
  obtain ⟨hx, hw, hy, hh⟩ := hp
  have hline := h.line
  have hroom := h.room
  have hints := h.ints
  have hrow : 0 ≤ fb.pitch * p.y := Int.mul_nonneg (by omega) hy
  have hplace : fb.place p = fb.pitch * p.y + 4 * p.x := rfl
  have hrows := toNat_intOffset hrow (by omega)
  have hcolumns := toNat_intOffset (v := 4 * p.x) (by omega) (by omega)
  rw [pixel32, BitVec.toNat_add, BitVec.toNat_add]
  omega

theorem FbConfig.Fits.place_apart (h : fb.Fits) (hp : fb.Contains p) (hq : fb.Contains q)
    (hne : p ≠ q) : fb.place p + 4 ≤ fb.place q ∨ fb.place q + 4 ≤ fb.place p := by
  have hbelow : ∀ {p q : FbPoint}, fb.Contains p → fb.Contains q → p.y < q.y →
      fb.place p + 4 ≤ fb.place q := by
    intro p q hp hq hlt
    obtain ⟨hx, hw, hy, hh⟩ := hp
    obtain ⟨hx', hw', hy', hh'⟩ := hq
    have hline := h.line
    have hrows : fb.pitch * (p.y + 1) ≤ fb.pitch * q.y :=
      Int.mul_le_mul_of_nonneg_left (by omega) (by omega)
    rw [Int.mul_add, Int.mul_one] at hrows
    unfold place
    omega
  rcases Int.lt_trichotomy p.y q.y with hlt | heq | hgt
  · exact Or.inl (hbelow hp hq hlt)
  · have hx : p.x ≠ q.x := fun hx => hne (by cases p; cases q; simp_all)
    unfold place
    rw [heq]
    omega
  · exact Or.inr (hbelow hq hp hgt)

theorem FbConfig.Fits.offset_apart (h : fb.Fits) (hp : fb.Contains p) (hq : fb.Contains q)
    (hne : p ≠ q) {k : Nat} (hk : k < 4) :
    4 ≤ offset (pixel32 fb p.x p.y) (pixel32 fb q.x q.y + BitVec.ofNat 64 k) := by
  have hplace := h.place_apart hp hq hne
  have hp' := h.toNat_pixel32 hp
  have hq' := h.toNat_pixel32 hq
  have hpb := h.place_bounds hp
  have hqb := h.place_bounds hq
  have hroom := h.room
  rw [offset, BitVec.toNat_sub, BitVec.toNat_add, BitVec.toNat_ofNat]
  omega

theorem FbConfig.Fits.pixel_store (h : fb.Fits) (hp : fb.Contains p) (hq : fb.Contains q)
    (color : BitVec 32) :
    fb.pixel (storePixel mem ⟨p, pixel32 fb p.x p.y, color⟩) q =
      if p = q then color else fb.pixel mem q := by
  by_cases hpq : p = q
  · subst hpq
    rw [if_pos rfl]
    exact readPixel_stored mem ⟨p, pixel32 fb p.x p.y, color⟩
  · rw [if_neg hpq]
    apply readPixel_eq
    intro k hk
    have hapart := h.offset_apart hp hq hpq hk
    rw [storePixel, if_neg (by simpa using hapart)]

theorem FbConfig.Fits.pixel_stores (h : fb.Fits) (hq : fb.Contains q) (color : FbPoint → BitVec 32)
    {stores : List PixelStore} (hall : ∀ st ∈ stores, fb.Contains st.point ∧
      st = ⟨st.point, pixel32 fb st.point.x st.point.y, color st.point⟩) :
    fb.pixel (storePixels mem stores) q =
      if q ∈ stores.map (·.point) then color q else fb.pixel mem q := by
  induction stores generalizing mem with
  | nil => simp
  | cons st stores ih =>
    obtain ⟨hp, hst⟩ := hall st (by simp)
    have hrest := @ih (storePixel mem st) fun st' hst' => hall st' (List.mem_cons_of_mem st hst')
    have hfirst : fb.pixel (storePixel mem ⟨_, _, _⟩) q = _ := h.pixel_store hp hq (color st.point)
    rw [← hst] at hfirst
    change fb.pixel (storePixels (storePixel mem st) stores) q = _
    rw [hrest, hfirst]
    by_cases hmem : q ∈ stores.map (·.point)
    · simp only [List.map_cons, List.mem_cons, hmem, or_true, if_true]
    · by_cases hpq : st.point = q
      · simp [hpq]
      · simp only [List.map_cons, List.mem_cons, hmem, Ne.symm hpq, hpq, or_self, if_false]

end Screen

section Characters

variable (font8x8 : Nat → Nat → Byte) {fb : FbConfig} {fbc : FbCookie} {mem : ByteMemory}
  {c : Byte} {p q : FbPoint} {before more text : List Byte}

def glyph (c : Byte) (x y : Nat) : BitVec 32 :=
  if (font8x8 (c.toNat - 0x20) y).getLsbD x then foreground else background

theorem shifted_bit (row : Byte) {x : Nat} (hx : x < 8) :
    row.sshiftRight x &&& 1#8 = 1#8 ↔ row.getLsbD x = true := by
  have hone : ∀ v : Byte, v &&& 1#8 = 1#8 ↔ v.getLsbD 0 = true := by decide
  rw [hone, BitVec.getLsbD_sshiftRight]
  simp [hx]

theorem framebufferWriteAt_store {st : PixelStore}
    (hst : st ∈ framebufferWriteAt font8x8 fb c p) : Printable c ∧ ∃ x < 8, ∃ y < 8,
      st = ⟨⟨p.x + (x : Nat), p.y + (y : Nat)⟩, pixel32 fb (p.x + (x : Nat)) (p.y + (y : Nat)),
        glyph font8x8 c x y⟩ := by
  unfold framebufferWriteAt at hst
  by_cases hc : Printable c
  · rw [if_neg ((printable_iff c).mp hc)] at hst
    simp only [List.mem_flatMap, List.mem_range, writeRow, List.mem_map, fontCharHeight,
      fontCharWidth] at hst
    obtain ⟨y, hy, x, hx, rfl⟩ := hst
    refine ⟨hc, x, hx, y, hy, ?_⟩
    have hrow : (c.toInt - 0x20).toNat = c.toNat - 0x20 := by
      have hlt := hc.2
      rw [BitVec.toInt_eq_toNat_of_lt (by omega)]
      omega
    simp only [hrow, shifted_bit _ hx, glyph]
  · rw [if_pos (not_not.mp fun hn => hc ((printable_iff c).mpr hn))] at hst
    simp at hst

theorem FbConfig.Fits.pixel_character (h : fb.Fits) (hw : 0 ≤ fb.width) (hh : 0 ≤ fb.height)
    (hq : fb.Contains q) {column row : Nat}
    (hplace : Printable c → column < fb.width.toNat / 8 ∧ row < fb.height.toNat / 8) :
    fb.pixel (storePixels mem
      (framebufferWriteAt font8x8 fb c ⟨8 * (column : Int), 8 * (row : Int)⟩)) q =
      if Printable c ∧ column = (q.x / 8).toNat ∧ row = (q.y / 8).toNat then
        glyph font8x8 c (q.x % 8).toNat (q.y % 8).toNat
      else fb.pixel mem q := by
  have hcontained := (framebufferWriteAt_contained font8x8 fb c hw hh column row).mpr hplace
  rw [h.pixel_stores hq (fun p => glyph font8x8 c (p.x % 8).toNat (p.y % 8).toNat)]
  · apply if_congr ?_ rfl rfl
    obtain ⟨hx0, -, hy0, -⟩ := hq
    by_cases hc : Printable c
    · have hmem := mem_framebufferWriteAt font8x8 fb hc ⟨8 * (column : Int), 8 * (row : Int)⟩ q
      rw [List.mem_map, hmem]
      simp only [hc, true_and]
      constructor
      · intro hsquare
        obtain ⟨x, hx, y, hy, rfl⟩ := hsquare
        simp only
        omega
      · intro hcell
        refine ⟨(q.x % 8).toNat, by omega, (q.y % 8).toNat, by omega, ?_⟩
        cases q
        simp only [FbPoint.mk.injEq] at hcell hx0 hy0 ⊢
        omega
    · have hnone : framebufferWriteAt font8x8 fb c ⟨8 * (column : Int), 8 * (row : Int)⟩ = [] := by
        rw [framebufferWriteAt, if_pos (not_not.mp fun hn => hc ((printable_iff c).mpr hn))]
      simp [hnone, hc]
  · intro st hst
    refine ⟨hcontained st hst, ?_⟩
    obtain ⟨-, x, hx, y, hy, rfl⟩ := framebufferWriteAt_store font8x8 hst
    have hmodx : ((8 * (column : Int) + x) % 8).toNat = x := by omega
    have hmody : ((8 * (row : Int) + y) % 8).toNat = y := by omega
    simp only [hmodx, hmody]

end Characters

section Text

def shownBehind (width height : Int) (column row : Nat) : List Byte → List Byte → Option Byte
  | _, [] => none
  | before, c :: more =>
    (shownBehind width height column row (before ++ [c]) more).or
      (if Printable c ∧ cursorColumn width before = column ∧ cursorRow width height before = row
        then some c else none)

def shownAt (width height : Int) (column row : Nat) (text : List Byte) : Option Byte :=
  shownBehind width height column row [] text

theorem shownBehind_printable {width height : Int} {column row : Nat} {before more : List Byte}
    {c : Byte} (h : shownBehind width height column row before more = some c) : Printable c := by
  induction more generalizing before with
  | nil => simp [shownBehind] at h
  | cons d more ih =>
    rw [shownBehind, Option.or_eq_some_iff] at h
    rcases h with h | ⟨-, h⟩
    · exact ih h
    · split at h
      · rename_i hd
        cases h
        exact hd.1
      · cases h

/-- No character behind `before` falls on the column or the row past the last one. -/
def FitsBehind (width height : Int) (before more : List Byte) : Prop :=
  ∀ i c, more[i]? = some c → Printable c →
    cursorColumn width (before ++ more.take i) < width.toNat / 8 ∧
    cursorRow width height (before ++ more.take i) < height.toNat / 8

theorem TextOnScreen.fitsBehind {width height : Int} {text : List Byte}
    (h : TextOnScreen width height text) : FitsBehind width height [] text := by
  intro i c hc hprint
  obtain ⟨hi, rfl⟩ := List.getElem?_eq_some_iff.mp hc
  exact h i hi (by rwa [List.getD_eq_getElem _ _ hi])

theorem FitsBehind.head {width height : Int} {before more : List Byte} {c : Byte}
    (h : FitsBehind width height before (c :: more)) (hc : Printable c) :
    cursorColumn width before < width.toNat / 8 ∧
      cursorRow width height before < height.toNat / 8 := by
  simpa using h 0 c rfl hc

theorem FitsBehind.tail {width height : Int} {before more : List Byte} {c : Byte}
    (h : FitsBehind width height before (c :: more)) :
    FitsBehind width height (before ++ [c]) more := by
  intro i d hd hprint
  simpa using h (i + 1) d hd hprint

variable (font8x8 : Nat → Nat → Byte) {fb : FbConfig} {fbc : FbCookie} {mem : ByteMemory}
  {q : FbPoint} {before more : List Byte}

theorem fbCookieStep_stores (h : CursorAt fbc before) (c : Byte) :
    (fbCookieStep font8x8 fbc c).1 = framebufferWriteAt font8x8 fbc.config c
      ⟨8 * (cursorColumn fbc.config.width before : Int),
        8 * (cursorRow fbc.config.width fbc.config.height before : Int)⟩ := by
  rw [← h.x_eq, ← h.y_eq]
  simp only [fbCookieStep]
  split <;> rfl

/-- Each pixel of the screen is one of the last character in its cell, or as it was. -/
theorem fbCookieLoop_pixels (h : fbc.config.Fits) (hw : 0 ≤ fbc.config.width)
    (hh : 0 ≤ fbc.config.height) (hcursor : CursorAt fbc before)
    (hfits : FitsBehind fbc.config.width fbc.config.height before more)
    (hq : fbc.config.Contains q) :
    fbc.config.pixel (storePixels mem (fbCookieLoop font8x8 fbc more).1) q =
      (shownBehind fbc.config.width fbc.config.height (q.x / 8).toNat (q.y / 8).toNat before
        more).elim (fbc.config.pixel mem q)
        fun c => glyph font8x8 c (q.x % 8).toNat (q.y % 8).toNat := by
  induction more generalizing fbc before mem with
  | nil => rfl
  | cons c more ih =>
    have hconfig := fbCookieStep_config font8x8 fbc c
    have hnext := fbCookieStep_cursor font8x8 hw hh hcursor c
    have hrest := @ih (fbCookieStep font8x8 fbc c).2
      (storePixels mem (fbCookieStep font8x8 fbc c).1) (before ++ [c])
    rw [hconfig] at hrest
    have hrest := hrest h hw hh hnext hfits.tail hq
    have hchar : fbc.config.pixel (storePixels mem _) q = _ :=
      h.pixel_character font8x8 hw hh hq fun hc => hfits.head hc
    rw [← fbCookieStep_stores font8x8 hcursor c] at hchar
    rw [fbCookieLoop, storePixels_append, hrest, hchar, shownBehind]
    cases shownBehind fbc.config.width fbc.config.height (q.x / 8).toNat (q.y / 8).toNat
      (before ++ [c]) more with
    | some d => rfl
    | none =>
      simp only [Option.none_or, Option.elim_none]
      split <;> rfl

/-- The bytes of memory behind no pixel of the screen. -/
def FbConfig.OffScreen (fb : FbConfig) (a : Uintptr) : Prop :=
  ∀ p, fb.Contains p → 4 ≤ offset (pixel32 fb p.x p.y) a

theorem storePixels_far {a : Uintptr} {stores : List PixelStore}
    (h : ∀ st ∈ stores, 4 ≤ offset st.address a) : storePixels mem stores a = mem a := by
  induction stores generalizing mem with
  | nil => rfl
  | cons st stores ih =>
    have hfirst := h st (by simp)
    have hrest := @ih (storePixel mem st) fun st' hst' => h st' (List.mem_cons_of_mem st hst')
    rw [storePixel, if_neg (Nat.not_lt_of_le hfirst)] at hrest
    exact hrest

theorem fbCookieLoop_offScreen (hw : 0 ≤ fbc.config.width) (hh : 0 ≤ fbc.config.height)
    (hcursor : CursorAt fbc before)
    (hfits : FitsBehind fbc.config.width fbc.config.height before more) {a : Uintptr}
    (ha : fbc.config.OffScreen a) :
    storePixels mem (fbCookieLoop font8x8 fbc more).1 a = mem a := by
  apply storePixels_far
  intro st hst
  obtain ⟨i, c, hc, hst⟩ := (mem_fbCookieLoop font8x8 hw hh hcursor more st).mp hst
  have hcontained := (framebufferWriteAt_contained font8x8 fbc.config c hw hh _ _).mpr
    (hfits i c hc) st hst
  obtain ⟨-, x, hx, y, hy, heq⟩ := framebufferWriteAt_store font8x8 hst
  have haddress : st.address = pixel32 fbc.config st.point.x st.point.y := by rw [heq]
  rw [haddress]
  exact ha st.point hcontained

end Text

end Ukulele
