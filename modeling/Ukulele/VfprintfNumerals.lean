import Ukulele.VfprintfMalformed

/-! What a specification says by its text: the digits before its point are those of the width, the
digits behind it those of the precision, whatever else stands between them.
-/

set_option autoImplicit false

namespace Ukulele

variable {afmt : FmtSpecifier} {state : ParseState} {mods text fmt rest : List Byte} {c m : Byte}

def digitStep (n : Nat) (c : Byte) : Nat :=
  if (ch '0').toNat ≤ c.toNat ∧ c.toNat ≤ (ch '9').toNat then n * 10 + (c.toNat - (ch '0').toNat)
  else n

def digitsValue (text : List Byte) : Nat := text.foldl digitStep 0

def widthPart (mods : List Byte) : List Byte := mods.takeWhile fun c => c != ch '.'

def precisionPart (mods : List Byte) : List Byte := mods.dropWhile fun c => c != ch '.'

def widthValue (mods : List Byte) : Nat := digitsValue (widthPart mods)

def precisionValue (mods : List Byte) : Nat := digitsValue (precisionPart mods)

theorem digitsValue_snoc (text : List Byte) (c : Byte) :
    digitsValue (text ++ [c]) = digitStep (digitsValue text) c := by
  rw [digitsValue, List.foldl_append, List.foldl_cons, List.foldl_nil, digitsValue]

theorem parts_before (h : ch '.' ∉ mods) (text : List Byte) :
    widthPart (mods ++ text) = mods ++ widthPart text ∧
      precisionPart (mods ++ text) = precisionPart text := by
  have hall : ∀ c ∈ mods, (c != ch '.') = true := by
    intro c hc
    rw [bne_iff_ne]
    rintro rfl
    exact h hc
  exact ⟨List.takeWhile_append_of_pos hall, List.dropWhile_append_of_pos hall⟩

theorem parts_point (h : ch '.' ∉ mods) (text : List Byte) :
    widthPart (mods ++ ch '.' :: text) = mods ∧
      precisionPart (mods ++ ch '.' :: text) = ch '.' :: text := by
  obtain ⟨hwidth, hprecision⟩ := parts_before h (ch '.' :: text)
  exact ⟨by rw [hwidth]; simp [widthPart], by rw [hprecision]; simp [precisionPart]⟩

theorem values_before (h : ch '.' ∉ mods) (m : Byte) :
    widthValue (mods ++ [m]) = digitStep (widthValue mods) m ∧
      precisionValue (mods ++ [m]) = 0 ∧ precisionValue mods = 0 := by
  have hpoint : ∀ n, digitStep n (ch '.') = n := fun _ => rfl
  obtain ⟨hwidth, hprecision⟩ := parts_before h [m]
  obtain ⟨hwidth', hprecision'⟩ := parts_before h []
  rw [List.append_nil] at hwidth' hprecision'
  refine ⟨?_, ?_, by rw [precisionValue, hprecision']; rfl⟩
  · rw [widthValue, widthValue, hwidth, hwidth']
    by_cases hm : m = ch '.'
    · subst hm
      rw [hpoint]
      rfl
    · rw [← digitsValue_snoc]
      simp [widthPart, hm]
  · rw [precisionValue, hprecision]
    by_cases hm : m = ch '.'
    · subst hm
      rfl
    · simp [precisionPart, digitsValue, hm]

theorem values_behind (h : ch '.' ∈ mods) (m : Byte) :
    widthValue (mods ++ [m]) = widthValue mods ∧
      precisionValue (mods ++ [m]) = digitStep (precisionValue mods) m := by
  obtain ⟨before, behind, rfl, hnot⟩ := List.eq_append_cons_of_mem h
  obtain ⟨hwidth, hprecision⟩ := parts_point hnot behind
  obtain ⟨hwidth', hprecision'⟩ := parts_point hnot (behind ++ [m])
  rw [List.append_assoc, List.cons_append]
  unfold widthValue precisionValue
  rw [hwidth, hwidth', hprecision, hprecision', ← List.cons_append, digitsValue_snoc]
  exact ⟨rfl, rfl⟩

/-- What has been read of the modifiers, as many bits of it as fit. -/
structure SpecRead (mods : List Byte) (afmt : FmtSpecifier) : Prop where
  width : afmt.width = BitVec.ofNat 8 (widthValue mods)
  precision : afmt.precision = BitVec.ofNat 32 (precisionValue mods)
  hasPrecision : afmt.hasPrecision = mods.contains (ch '.')
  length : afmt.length = mods.foldl charLengthStep 0#8

/-- Where the next digit goes to. Without a digit of the width a zero is the flag. -/
def StateRead (mods : List Byte) : ParseState → Prop
  | .flag => ch '.' ∉ mods ∧ widthValue mods = 0
  | .width => ch '.' ∉ mods
  | .precision => ch '.' ∈ mods

theorem modify_lengthModifier (h : m ∈ lengthModifiers) (afmt : FmtSpecifier)
    (state : ParseState) : modify afmt state m =
      some ({ afmt with length := charLengthStep afmt.length m }, state) := by
  simp only [lengthModifiers, List.mem_cons, List.not_mem_nil, or_false] at h
  rcases h with rfl | rfl | rfl | rfl | rfl <;> rfl

theorem modify_digit (h : (ch '0').toNat ≤ m.toNat ∧ m.toNat ≤ (ch '9').toNat)
    (afmt : FmtSpecifier) (state : ParseState) :
    modify afmt state m = some (takeDigit afmt state m) ∧ m ∉ lengthModifiers ∧ m ≠ ch '.' := by
  have hall : ∀ d : BitVec 8, (ch '0').toNat ≤ d.toNat ∧ d.toNat ≤ (ch '9').toNat →
      d ∉ lengthModifiers ∧ d ≠ ch '.' := by decide
  obtain ⟨hlength, hpoint⟩ := hall m h
  refine ⟨?_, hlength, hpoint⟩
  simp only [lengthModifiers, List.mem_cons, List.not_mem_nil, or_false, not_or] at hlength
  obtain ⟨hh, hl, hz, hj, ht⟩ := hlength
  rw [modify, if_neg hh, if_neg hl, if_neg (by simp [hz, hj, ht]), if_pos h]

theorem modifiers_cases (h : m ∈ modifiers) : m ∈ lengthModifiers ∨
    ((ch '0').toNat ≤ m.toNat ∧ m.toNat ≤ (ch '9').toNat) ∨ m = ch '.' := by
  simp only [modifiers, List.mem_append, List.mem_cons, List.not_mem_nil, or_false] at h
  rcases h with (rfl | rfl | rfl | rfl | rfl | rfl | rfl | rfl | rfl | rfl | rfl) | h
  all_goals first | exact Or.inl h | exact Or.inr (Or.inl (by decide)) | exact Or.inr (Or.inr rfl)

theorem ofNat_digitStep (h : (ch '0').toNat ≤ m.toNat ∧ m.toNat ≤ (ch '9').toNat) (n w : Nat)
    (hw : 8 ≤ w) : BitVec.ofNat w (digitStep n m) =
      BitVec.ofNat w n * BitVec.ofNat w 10 + (m - ch '0').setWidth w := by
  have hzero : (ch '0').toNat = 48 := rfl
  have hlt := m.isLt
  have hdigit : (m - ch '0').toNat = m.toNat - (ch '0').toNat := by
    rw [BitVec.toNat_sub, hzero]
    omega
  have hle : 2 ^ 8 ≤ 2 ^ w := Nat.pow_le_pow_right (by decide) hw
  rw [digitStep, if_pos h, BitVec.ofNat_add, BitVec.ofNat_mul]
  congr 1
  apply BitVec.eq_of_toNat_eq
  rw [BitVec.toNat_ofNat, BitVec.toNat_setWidth, hdigit]

theorem digitStep_other (h : m ∈ lengthModifiers ∨ m = ch '.') (n : Nat) : digitStep n m = n := by
  simp only [lengthModifiers, List.mem_cons, List.not_mem_nil, or_false] at h
  rcases h with (rfl | rfl | rfl | rfl | rfl) | rfl <;> rfl

theorem values_other (h : m ∈ lengthModifiers ∨ m = ch '.') (mods : List Byte) :
    widthValue (mods ++ [m]) = widthValue mods ∧
      precisionValue (mods ++ [m]) = precisionValue mods := by
  by_cases hpoint : ch '.' ∈ mods
  · obtain ⟨hwidth, hprecision⟩ := values_behind hpoint m
    exact ⟨hwidth, by rw [hprecision, digitStep_other h]⟩
  · obtain ⟨hwidth, hprecision, hnone⟩ := values_before hpoint m
    exact ⟨by rw [hwidth, digitStep_other h], hprecision.trans hnone.symm⟩

theorem contains_snoc (h : m ≠ ch '.') :
    (mods ++ [m]).contains (ch '.') = mods.contains (ch '.') := by
  simp [Ne.symm h]

theorem read_digit (hread : SpecRead mods afmt) (hstate : StateRead mods state)
    (h : (ch '0').toNat ≤ m.toNat ∧ m.toNat ≤ (ch '9').toNat) :
    SpecRead (mods ++ [m]) (takeDigit afmt state m).1 ∧
      StateRead (mods ++ [m]) (takeDigit afmt state m).2 := by
  obtain ⟨-, hlength, hpoint⟩ := modify_digit h afmt state
  have hsame : (mods ++ [m]).foldl charLengthStep 0#8 = mods.foldl charLengthStep 0#8 := by
    rw [List.foldl_append, List.foldl_cons, List.foldl_nil, (charLengthStep_other hlength _).1]
  have hcontains := @contains_snoc mods m hpoint
  have hmem : ch '.' ∈ mods ++ [m] ↔ ch '.' ∈ mods := by simp [Ne.symm hpoint]
  -- before the point
  have hwidth : ch '.' ∉ mods → SpecRead (mods ++ [m])
      { afmt with width := afmt.width * 10#8 + (m - ch '0') } := by
    intro hbefore
    obtain ⟨hwidth, hprecision, hnone⟩ := values_before hbefore m
    refine ⟨?_, ?_, ?_, ?_⟩
    · rw [hwidth, ofNat_digitStep h _ 8 (Nat.le_refl 8), ← hread.width, BitVec.setWidth_eq]
    · rw [hprecision, ← hnone]
      exact hread.precision
    · rw [hcontains]
      exact hread.hasPrecision
    · rw [hsame]
      exact hread.length
  cases state with
  | flag =>
    obtain ⟨hbefore, hzero⟩ := hstate
    unfold takeDigit
    dsimp only
    split
    · rename_i hm
      obtain ⟨hvalue, hprecision, hnone⟩ := values_before hbefore m
      have hflag : digitStep 0 m = 0 := by
        rw [hm]
        rfl
      refine ⟨⟨?_, ?_, ?_, ?_⟩, mt hmem.mp hbefore⟩
      · rw [hvalue, hzero, hflag, ← hzero]
        exact hread.width
      · rw [hprecision, ← hnone]
        exact hread.precision
      · rw [hcontains]
        exact hread.hasPrecision
      · rw [hsame]
        exact hread.length
    · exact ⟨hwidth hbefore, mt hmem.mp hbefore⟩
  | width => exact ⟨hwidth hstate, mt hmem.mp hstate⟩
  | precision =>
    obtain ⟨hvalue, hprecision⟩ := values_behind hstate m
    refine ⟨⟨?_, ?_, ?_, ?_⟩, hmem.mpr hstate⟩
    · rw [hvalue]
      exact hread.width
    · rw [hprecision, ofNat_digitStep h _ 32 (by decide), ← hread.precision]
      rfl
    · rw [hcontains]
      exact hread.hasPrecision
    · rw [hsame]
      exact hread.length

theorem read_modifier (hread : SpecRead mods afmt) (hstate : StateRead mods state)
    (hm : m ∈ modifiers) : ∃ afmt' state', modify afmt state m = some (afmt', state') ∧
      SpecRead (mods ++ [m]) afmt' ∧ StateRead (mods ++ [m]) state' := by
  rcases modifiers_cases hm with hlength | hdigit | rfl
  · obtain ⟨hwidth, hprecision⟩ := values_other (Or.inl hlength) mods
    have hpoint : m ≠ ch '.' := by
      rintro rfl
      exact absurd hlength (by decide)
    have hmem : ch '.' ∈ mods ++ [m] ↔ ch '.' ∈ mods := by simp [Ne.symm hpoint]
    refine ⟨_, _, modify_lengthModifier hlength afmt state, ⟨?_, ?_, ?_, ?_⟩, ?_⟩
    · rw [hwidth]
      exact hread.width
    · rw [hprecision]
      exact hread.precision
    · rw [contains_snoc hpoint]
      exact hread.hasPrecision
    · rw [List.foldl_append, ← hread.length]
      rfl
    · cases state with
      | flag => exact ⟨mt hmem.mp hstate.1, hwidth.trans hstate.2⟩
      | width => exact mt hmem.mp hstate
      | precision => exact hmem.mpr hstate
  · obtain ⟨hread', hstate'⟩ := read_digit hread hstate hdigit
    exact ⟨_, _, (modify_digit hdigit afmt state).1, hread', hstate'⟩
  · obtain ⟨hwidth, hprecision⟩ := values_other (Or.inr rfl) mods
    refine ⟨{ afmt with hasPrecision := true }, .precision, rfl, ⟨?_, ?_, ?_, ?_⟩, ?_⟩
    · rw [hwidth]
      exact hread.width
    · rw [hprecision]
      exact hread.precision
    · simp
    · rw [List.foldl_append, ← hread.length]
      rfl
    · simp [StateRead]

theorem scan_reads (h : ∀ m ∈ mods, m ∈ modifiers) : ∃ afmt state, SpecRead mods afmt ∧
    StateRead mods state ∧
      ∀ text, scan emptySpecifier .flag (mods ++ text) = scan afmt state text := by
  induction mods using List.reverseRecOn with
  | nil => exact ⟨emptySpecifier, .flag, ⟨rfl, rfl, rfl, rfl⟩, ⟨by simp, rfl⟩, fun _ => rfl⟩
  | append_singleton mods m ih =>
    obtain ⟨afmt, state, hread, hstate, hscan⟩ := ih fun n hn => h n (by simp [hn])
    have hm := h m (by simp)
    obtain ⟨afmt', state', hmodify, hread', hstate'⟩ := read_modifier hread hstate hm
    refine ⟨afmt', state', hread', hstate', ?_⟩
    intro text
    rw [List.append_assoc, hscan, List.singleton_append,
      scan_modify (modifiers_not_conversions m hm) hmodify]

theorem scan_text (h : ∀ m ∈ mods, m ∈ modifiers) (hc : c ∈ conversions) : ∃ afmt,
    SpecRead mods afmt ∧ ∀ rest,
      scan emptySpecifier .flag (mods ++ c :: rest) = .call afmt c rest := by
  obtain ⟨afmt, state, hread, -, hscan⟩ := scan_reads h
  exact ⟨afmt, hread, fun rest => by rw [hscan, scan, if_pos hc]⟩

theorem text_of_scan (h : scan emptySpecifier .flag text = .call afmt c rest) : ∃ mods,
    text = mods ++ c :: rest ∧ (∀ m ∈ mods, m ∈ modifiers) ∧ c ∈ conversions ∧
      SpecRead mods afmt := by
  obtain ⟨mods, rfl, hmods, -⟩ := scan_sound h
  have hc := scan_call_mem h
  obtain ⟨afmt', hread, hscan⟩ := scan_text hmods hc
  rw [hscan] at h
  cases h
  exact ⟨mods, rfl, hmods, hc, hread⟩

def RejectsModifiers (mods : List Byte) (c : Byte) : Prop :=
  (c = ch 'd' ∨ c = ch 'i' ∨ c = ch 'u' ∨ c = ch 'x') ∧
    ¬ (-2 ≤ (mods.foldl charLengthStep 0#8).toInt ∧ (mods.foldl charLengthStep 0#8).toInt ≤ 2)

/-- A run over the format can come to a specification with these modifiers and this conversion.
It stands neither behind the byte 255, which is taken for `EOF`, nor behind a specification that is
rejected. -/
inductive ComesTo : List Byte → List Byte → Byte → Prop where
  | here {mods rest : List Byte} {c : Byte} : (∀ m ∈ mods, m ∈ modifiers) → c ∈ conversions →
      ComesTo (ch '%' :: (mods ++ c :: rest)) mods c
  | ordinary {d c : Byte} {fmt mods : List Byte} : d ≠ 0#8 → d ≠ 0xff#8 → d ≠ ch '%' →
      ComesTo fmt mods c → ComesTo (d :: fmt) mods c
  | behind {first rest mods : List Byte} {d c : Byte} : (∀ m ∈ first, m ∈ modifiers) →
      d ∈ conversions → ¬ RejectsModifiers first d → ComesTo rest mods c →
      ComesTo (ch '%' :: (first ++ d :: rest)) mods c

theorem SpecRead.rejects_iff (h : SpecRead mods afmt) (c : Byte) :
    RejectsLength afmt c ↔ RejectsModifiers mods c := by
  unfold RejectsLength RejectsModifiers
  rw [h.length]

theorem ComesTo.mem (h : ComesTo fmt mods c) : c ∈ fmt := by
  induction h with
  | here _ _ => simp
  | ordinary _ _ _ _ ih => exact List.mem_cons_of_mem _ ih
  | behind _ _ _ _ ih => simp [ih]

end Ukulele
