import Ukulele.VfprintfSpecs

/-! The specifications that are accepted: modifiers in any order, then a conversion that knows the
length which they leave.
-/

set_option autoImplicit false

namespace Ukulele
open Faults

variable {σ : Type} {strnlen : ByteMemory → Uintptr → Size → Size} {mem : ByteMemory}
  {afmt : FmtSpecifier} {state : ParseState} {text : List Byte}

def lengthModifiers : List Byte := [ch 'h', ch 'l', ch 'z', ch 'j', ch 't']

def modifiers : List Byte :=
  [ch '0', ch '1', ch '2', ch '3', ch '4', ch '5', ch '6', ch '7', ch '8', ch '9', ch '.'] ++
    lengthModifiers

/-- What a modifier makes of the length. -/
def lengthStep (length : Int) (c : Byte) : Int :=
  if c = ch 'h' then length - 1
  else if c = ch 'l' then length + 1
  else if c = ch 'z' ∨ c = ch 'j' ∨ c = ch 't' then 1
  else length

def modifiersLength (mods : List Byte) : Int := mods.foldl lengthStep 0

def charLengthStep (length : BitVec 8) (c : Byte) : BitVec 8 :=
  if c = ch 'h' then length - 1#8
  else if c = ch 'l' then length + 1#8
  else if c = ch 'z' ∨ c = ch 'j' ∨ c = ch 't' then 1#8
  else length

def WellFormedSpec (text : List Byte) : Prop :=
  ∃ mods c rest, text = mods ++ c :: rest ∧ (∀ m ∈ mods, m ∈ modifiers) ∧ c ∈ conversions ∧
    ((c = ch 'd' ∨ c = ch 'i' ∨ c = ch 'u' ∨ c = ch 'x') →
      -2 ≤ modifiersLength mods ∧ modifiersLength mods ≤ 2)

theorem modifiers_not_conversions : ∀ c ∈ modifiers, c ∉ conversions := by decide

theorem digit_mem_modifiers {c : Byte} (h : (ch '0').toNat ≤ c.toNat ∧ c.toNat ≤ (ch '9').toNat) :
    c ∈ modifiers := by
  have hall : ∀ d : BitVec 8, (ch '0').toNat ≤ d.toNat ∧ d.toNat ≤ (ch '9').toNat →
      d ∈ modifiers := by decide
  exact hall c h

theorem modify_none {c : Byte} (h : c ∉ modifiers) : modify afmt state c = none := by
  have hdigit := fun hc => h (digit_mem_modifiers hc)
  simp only [modifiers, lengthModifiers, List.mem_append, List.mem_cons, List.not_mem_nil,
    or_false, not_or] at h
  obtain ⟨⟨-, -, -, -, -, -, -, -, -, -, hdot⟩, hh, hl, hz, hj, ht⟩ := h
  rw [modify, if_neg hh, if_neg hl, if_neg (by simp [hz, hj, ht]), if_neg hdigit, if_neg hdot]

theorem modify_some {c : Byte} (h : c ∈ modifiers) : ∃ afmt' state',
    modify afmt state c = some (afmt', state') ∧
      afmt'.length = charLengthStep afmt.length c := by
  simp only [modifiers, lengthModifiers, List.mem_append, List.mem_cons, List.not_mem_nil,
    or_false] at h
  rcases h with (rfl | rfl | rfl | rfl | rfl | rfl | rfl | rfl | rfl | rfl | rfl) |
    (rfl | rfl | rfl | rfl | rfl) <;> cases state <;> exact ⟨_, _, rfl, rfl⟩

theorem scan_modifiers {mods : List Byte} (h : ∀ m ∈ mods, m ∈ modifiers) (afmt : FmtSpecifier)
    (state : ParseState) (text : List Byte) : ∃ afmt' state',
      scan afmt state (mods ++ text) = scan afmt' state' text ∧
        afmt'.length = mods.foldl charLengthStep afmt.length := by
  induction mods generalizing afmt state with
  | nil => exact ⟨afmt, state, rfl, rfl⟩
  | cons m mods ih =>
    have hm := h m List.mem_cons_self
    obtain ⟨afmt₁, state₁, hmodify, hlength⟩ := @modify_some afmt state m hm
    obtain ⟨afmt₂, state₂, hscan, hrest⟩ :=
      ih (fun n hn => h n (List.mem_cons_of_mem m hn)) afmt₁ state₁
    refine ⟨afmt₂, state₂, ?_, ?_⟩
    · rw [List.cons_append, scan_modify (modifiers_not_conversions m hm) hmodify, hscan]
    · rw [hrest, hlength, List.foldl_cons]

theorem scan_complete {mods rest : List Byte} {c : Byte} (h : ∀ m ∈ mods, m ∈ modifiers)
    (hc : c ∈ conversions) (afmt : FmtSpecifier) (state : ParseState) : ∃ afmt',
      scan afmt state (mods ++ c :: rest) = .call afmt' c rest ∧
        afmt'.length = mods.foldl charLengthStep afmt.length := by
  obtain ⟨afmt', state', hscan, hlength⟩ := scan_modifiers h afmt state (c :: rest)
  exact ⟨afmt', by rw [hscan, scan, if_pos hc], hlength⟩

theorem scan_sound {rest : List Byte} {c : Byte} {afmt' : FmtSpecifier}
    (h : scan afmt state text = .call afmt' c rest) : ∃ mods, text = mods ++ c :: rest ∧
      (∀ m ∈ mods, m ∈ modifiers) ∧ afmt'.length = mods.foldl charLengthStep afmt.length := by
  induction text generalizing afmt state with
  | nil => cases h
  | cons d text ih =>
    unfold scan at h
    split at h
    · cases h
      exact ⟨[], rfl, by simp, rfl⟩
    · by_cases hd : d ∈ modifiers
      · obtain ⟨afmt₁, state₁, hmodify, hlength⟩ := @modify_some afmt state d hd
        rw [hmodify] at h
        obtain ⟨mods, htext, hmods, hrest⟩ := ih h
        refine ⟨d :: mods, by rw [htext, List.cons_append], ?_, ?_⟩
        · intro m hm
          rcases List.mem_cons.mp hm with rfl | hm
          · exact hd
          · exact hmods m hm
        · rw [hrest, hlength, List.foldl_cons]
      · rw [modify_none hd] at h
        cases h

theorem scan_ne_pastEnd (h : 0#8 ∈ text) : scan afmt state text ≠ .pastEnd := by
  induction text generalizing afmt state with
  | nil => simp at h
  | cons c text ih =>
    unfold scan
    split
    · intro hend
      cases hend
    · by_cases hc : c ∈ modifiers
      · have hne : (0#8 : Byte) ≠ c := by
          rintro rfl
          exact absurd hc (by decide)
        obtain ⟨afmt₁, state₁, hmodify, -⟩ := @modify_some afmt state c hc
        rw [hmodify]
        exact ih (List.mem_of_ne_of_mem hne h)
      · rw [modify_none hc]
        intro hend
        cases hend

theorem toInt_sub_one {length : BitVec 8} (h : -127 ≤ length.toInt) :
    (length - 1#8).toInt = length.toInt - 1 := by
  have hlt := length.isLt
  have hone : (1#8).toNat = 1 := rfl
  rw [BitVec.toInt_eq_toNat_cond] at h
  rw [BitVec.toInt_eq_toNat_cond, BitVec.toInt_eq_toNat_cond, BitVec.toNat_sub, hone]
  split at h <;> split <;> omega

theorem toInt_add_one {length : BitVec 8} (h : length.toInt ≤ 126) :
    (length + 1#8).toInt = length.toInt + 1 := by
  have hlt := length.isLt
  have hone : (1#8).toNat = 1 := rfl
  rw [BitVec.toInt_eq_toNat_cond] at h
  rw [BitVec.toInt_eq_toNat_cond, BitVec.toInt_eq_toNat_cond, BitVec.toNat_add, hone]
  split at h <;> split <;> omega

theorem charLengthStep_spec {length : BitVec 8} {c : Byte} (h : length.toInt.natAbs ≤ 126)
    (hc : c ∈ lengthModifiers) : (charLengthStep length c).toInt = lengthStep length.toInt c ∧
      (lengthStep length.toInt c).natAbs ≤ length.toInt.natAbs + 1 := by
  have hsub := @toInt_sub_one length (by omega)
  have hadd := @toInt_add_one length (by omega)
  simp only [lengthModifiers, List.mem_cons, List.not_mem_nil, or_false] at hc
  rcases hc with rfl | rfl | hc
  · have hstep : lengthStep length.toInt (ch 'h') = length.toInt - 1 := rfl
    exact ⟨hsub, by omega⟩
  · have hstep : lengthStep length.toInt (ch 'l') = length.toInt + 1 := rfl
    exact ⟨hadd, by omega⟩
  · have hone : charLengthStep length c = 1#8 ∧ lengthStep length.toInt c = 1 := by
      rcases hc with rfl | rfl | rfl <;> exact ⟨rfl, rfl⟩
    rw [hone.1, hone.2]
    exact ⟨rfl, by omega⟩

theorem charLengthStep_other {c : Byte} (hc : c ∉ lengthModifiers) (length : BitVec 8) :
    charLengthStep length c = length ∧ lengthStep length.toInt c = length.toInt := by
  simp only [lengthModifiers, List.mem_cons, List.not_mem_nil, or_false, not_or] at hc
  simp [charLengthStep, lengthStep, hc]

theorem toInt_charLength {mods : List Byte} {length : BitVec 8}
    (h : length.toInt.natAbs + mods.countP (· ∈ lengthModifiers) ≤ 127) :
    (mods.foldl charLengthStep length).toInt = mods.foldl lengthStep length.toInt := by
  induction mods generalizing length with
  | nil => rfl
  | cons c mods ih =>
    rw [List.foldl_cons, List.foldl_cons]
    by_cases hc : c ∈ lengthModifiers
    · rw [List.countP_cons_of_pos (by simpa using hc)] at h
      obtain ⟨hstep, hle⟩ := @charLengthStep_spec length c (by omega) hc
      rw [ih (by omega), hstep]
    · rw [List.countP_cons_of_neg (by simpa using hc)] at h
      obtain ⟨hstep, hstep'⟩ := charLengthStep_other hc length
      rw [hstep, hstep', ih h]

def leadingModifiers (text : List Byte) : List Byte :=
  text.takeWhile fun c => modifiers.contains c

theorem leadingModifiers_eq {mods rest : List Byte} {c : Byte} (h : ∀ m ∈ mods, m ∈ modifiers)
    (hc : c ∈ conversions) : leadingModifiers (mods ++ c :: rest) = mods := by
  have hnot : c ∉ modifiers := fun hm => modifiers_not_conversions c hm hc
  rw [leadingModifiers, List.takeWhile_append_of_pos (by simpa using h),
    List.takeWhile_cons_of_neg (by simpa using hnot), List.append_nil]

/-- A text is accepted if a conversion is come to and knows the length. -/
theorem wellFormedSpec_iff
    (hcount : (leadingModifiers text).countP (· ∈ lengthModifiers) ≤ 127) :
    WellFormedSpec text ↔ ∃ afmt c rest, scan emptySpecifier .flag text = .call afmt c rest ∧
      ¬ RejectsLength afmt c := by
  have hlength : ∀ {mods rest : List Byte} {c : Byte}, text = mods ++ c :: rest →
      (∀ m ∈ mods, m ∈ modifiers) → c ∈ conversions →
      (mods.foldl charLengthStep 0#8).toInt = modifiersLength mods := by
    intro mods rest c htext hmods hc
    rw [htext, leadingModifiers_eq hmods hc] at hcount
    exact toInt_charLength (by simpa using hcount)
  constructor
  · intro h
    obtain ⟨mods, c, rest, htext, hmods, hc, hknown⟩ := h
    obtain ⟨afmt, hscan, hafmt⟩ := @scan_complete mods rest c hmods hc emptySpecifier .flag
    refine ⟨afmt, c, rest, by rw [htext, hscan], ?_⟩
    intro hrejects
    apply hrejects.2
    rw [hafmt, emptySpecifier, hlength htext hmods hc]
    exact hknown hrejects.1
  · intro h
    obtain ⟨afmt, c, rest, hscan, hknown⟩ := h
    obtain ⟨mods, htext, hmods, hafmt⟩ := scan_sound hscan
    have hc := scan_call_mem hscan
    refine ⟨mods, c, rest, htext, hmods, hc, ?_⟩
    intro hnumber
    by_contra hnot
    apply hknown
    refine ⟨hnumber, ?_⟩
    rwa [hafmt, emptySpecifier, hlength htext hmods hc]

end Ukulele
