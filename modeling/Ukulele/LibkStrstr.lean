import Ukulele.Machine
import Ukulele.Occurrences

/-! Searching a string in a string. Both are lists of their bytes with the null byte at the end, so
that reading past it is an error of its own; so is an index that no `int` holds.
-/

set_option autoImplicit false

namespace Ukulele
open Occurrences

inductive StrstrFault where
  | pastEnd : StrstrFault
  | overflow : StrstrFault
  deriving DecidableEq, Repr

/-- The inner loop, with the strings from the index on. -/
def strstrCompare : List Byte → List Byte → Nat → Except StrstrFault Bool
  | [], _, _ => .error .pastEnd
  | n :: needle, h, i =>
    if n = 0#8 then .ok true
    else
      match h with
      | [] => .error .pastEnd
      | c :: h =>
        if n ≠ c then .ok false
        else if i + 1 = 2 ^ 31 then .error .overflow
        else strstrCompare needle h (i + 1)

def strstrLoop (needle : List Byte) : List Byte → Nat → Except StrstrFault (Option Nat)
  | [], _ => .error .pastEnd
  | c :: h, position =>
    if c = 0#8 then .ok none
    else
      match strstrCompare needle (c :: h) 0 with
      | .error e => .error e
      | .ok true => .ok (some position)
      | .ok false => strstrLoop needle h (position + 1)

/-- A pointer into the haystack is the position, and `NULL` is none. -/
def strstr (haystack needle : List Byte) : Except StrstrFault (Option Nat) :=
  strstrLoop needle haystack 0

/-- The bytes of a string, without its null byte. -/
structure CString where
  bytes : List Byte
  noNul : 0#8 ∉ bytes

def CString.text (s : CString) : List Byte := s.bytes ++ [0#8]

/-- The first place where the needle occurs is returned, and nothing goes wrong. -/
def FindsFirst (haystack needle : CString) : Prop :=
  ∃ r, strstr haystack.text needle.text = .ok r ∧ IsFirst needle.bytes haystack.bytes r

variable {needle haystack : List Byte}

/-- As many bytes are equal as an `int` can count. -/
def Overflows (needle haystack : List Byte) : Prop :=
  2 ^ 31 ≤ needle.length ∧ needle.take (2 ^ 31) <+: haystack

theorem strstrCompare_eq (hn : 0#8 ∉ needle) (hh : 0#8 ∉ haystack) {i : Nat} (hi : i < 2 ^ 31) :
    strstrCompare (needle ++ [0#8]) (haystack ++ [0#8]) i =
      if 2 ^ 31 ≤ i + needle.length ∧ needle.take (2 ^ 31 - i) <+: haystack then .error .overflow
      else .ok (decide (needle <+: haystack)) := by
  induction needle generalizing haystack i with
  | nil =>
    rw [if_neg (by simpa using hi)]
    simp [strstrCompare]
  | cons n needle ih =>
    obtain ⟨hnul, hn⟩ := not_or.mp (List.mem_cons.not.mp hn)
    obtain ⟨k, hk⟩ := Nat.exists_eq_add_of_lt hi
    have htake : (n :: needle).take (2 ^ 31 - i) = n :: needle.take k := by
      rw [show 2 ^ 31 - i = k + 1 by omega, List.take_succ_cons]
    rw [htake, List.cons_append]
    cases haystack with
    | nil => simp [strstrCompare, Ne.symm hnul]
    | cons c haystack =>
      rw [List.cons_append, strstrCompare, if_neg (Ne.symm hnul)]
      simp only [List.cons_prefix_cons]
      by_cases hc : n = c
      · obtain ⟨-, hh⟩ := not_or.mp (List.mem_cons.not.mp hh)
        rw [if_neg (not_not.mpr hc)]
        by_cases hlast : i + 1 = 2 ^ 31
        · obtain rfl : k = 0 := by omega
          rw [if_pos hlast, if_pos]
          exact ⟨by rw [List.length_cons]; omega, hc, by simp⟩
        · have hrest : 2 ^ 31 - (i + 1) = k := by omega
          rw [if_neg hlast, ih hn hh (by omega), hrest, List.length_cons]
          simp only [hc, true_and, Nat.add_assoc, Nat.add_comm 1]
      · simp [hc]

theorem strstrCompare_overflow (hn : 0#8 ∉ needle) (hh : 0#8 ∉ haystack)
    (h : Overflows needle haystack) :
    strstrCompare (needle ++ [0#8]) (haystack ++ [0#8]) 0 = .error .overflow := by
  rw [strstrCompare_eq hn hh (by omega), if_pos]
  simpa [Overflows] using h

theorem strstrCompare_ok (hn : 0#8 ∉ needle) (hh : 0#8 ∉ haystack)
    (h : ¬ Overflows needle haystack) :
    strstrCompare (needle ++ [0#8]) (haystack ++ [0#8]) 0 =
      .ok (decide (needle <+: haystack)) := by
  rw [strstrCompare_eq hn hh (by omega), if_neg]
  simpa [Overflows] using h

theorem strstrLoop_cons {c : Byte} (hc : c ≠ 0#8) (position : Nat) :
    strstrLoop needle (c :: haystack) position =
      match strstrCompare needle (c :: haystack) 0 with
      | .error e => .error e
      | .ok true => .ok (some position)
      | .ok false => strstrLoop needle haystack (position + 1) := by
  rw [strstrLoop, if_neg hc]

/-- The needle is not compared at the null byte, where an empty one occurs too. -/
theorem strstrLoop_ok (hn : 0#8 ∉ needle) (hh : 0#8 ∉ haystack)
    (hempty : haystack ≠ [] ∨ needle ≠ [])
    (h : ∀ k, ¬ Overflows needle (haystack.drop k)) (position : Nat) :
    ∃ r, strstrLoop (needle ++ [0#8]) (haystack ++ [0#8]) position =
        .ok (r.map (position + ·)) ∧ IsFirst needle haystack r := by
  induction haystack generalizing position with
  | nil =>
    refine ⟨none, rfl, ?_⟩
    intro p hp
    exact hempty.elim (absurd rfl) (absurd (occursAt_nil hp))
  | cons c haystack ih =>
    obtain ⟨hc, hrest⟩ := not_or.mp (List.mem_cons.not.mp hh)
    have hcompare := strstrCompare_ok hn hh (h 0)
    rw [List.cons_append] at hcompare ⊢
    rw [strstrLoop_cons (Ne.symm hc), hcompare]
    by_cases hstarts : needle <+: c :: haystack
    · refine ⟨some 0, ?_, isFirst_of_prefix hstarts⟩
      simp [hstarts]
    · have hne : needle ≠ [] := by
        rintro rfl
        exact hstarts List.nil_prefix
      obtain ⟨r, hrun, hfirst⟩ := ih hrest (Or.inr hne) (fun k => h (k + 1)) (position + 1)
      refine ⟨r.map (· + 1), ?_, (isFirst_cons hstarts).mpr hfirst⟩
      simp only [hstarts, decide_false, hrun, Option.map_map]
      congr 2
      funext p
      simp only [Function.comp_apply]
      omega

theorem strstrLoop_overflow (hn : 0#8 ∉ needle) (hh : 0#8 ∉ haystack)
    (hlen : 2 ^ 31 ≤ needle.length) (h : needle.take (2 ^ 31) <:+: haystack) (position : Nat) :
    strstrLoop (needle ++ [0#8]) (haystack ++ [0#8]) position = .error .overflow := by
  induction haystack generalizing position with
  | nil =>
    have htake := congrArg List.length (List.infix_nil.mp h)
    rw [List.length_take, Nat.min_eq_left hlen] at htake
    contradiction
  | cons c haystack ih =>
    obtain ⟨hc, hrest⟩ := not_or.mp (List.mem_cons.not.mp hh)
    rw [List.cons_append, strstrLoop_cons (Ne.symm hc), ← List.cons_append]
    by_cases hover : Overflows needle (c :: haystack)
    · rw [strstrCompare_overflow hn hh hover]
    · have hnot : ¬ needle.take (2 ^ 31) <+: c :: haystack := fun hp => hover ⟨hlen, hp⟩
      have hstarts : ¬ needle <+: c :: haystack :=
        fun hp => hnot ((List.take_prefix _ _).trans hp)
      rw [strstrCompare_ok hn hh hover]
      simp only [hstarts, decide_false]
      exact ih hrest ((List.infix_cons_iff.mp h).resolve_left hnot) _

/-- `strstr` finds the first occurrence unless both strings are empty, or so much of the needle
occurs that an `int` cannot count it. -/
theorem strstr_finds_first (haystack needle : CString) : FindsFirst haystack needle ↔
    (haystack.bytes ≠ [] ∨ needle.bytes ≠ []) ∧
      (needle.bytes.length < 2 ^ 31 ∨ ¬ needle.bytes.take (2 ^ 31) <:+: haystack.bytes) := by
  constructor
  · intro h
    obtain ⟨r, hrun, hfirst⟩ := h
    constructor
    · by_contra hempty
      simp only [ne_eq, not_or, not_not] at hempty
      rw [strstr, CString.text, CString.text, hempty.1, hempty.2] at hrun
      rw [hempty.1, hempty.2] at hfirst
      cases hrun
      exact hfirst 0 (occursAt_zero.mpr (List.prefix_refl []))
    · by_contra hlong
      simp only [not_or, not_lt, not_not] at hlong
      have herror := strstrLoop_overflow needle.noNul haystack.noNul hlong.1 hlong.2 0
      rw [strstr, CString.text, CString.text, herror] at hrun
      cases hrun
  · intro h
    obtain ⟨hempty, hlong⟩ := h
    have hover : ∀ k, ¬ Overflows needle.bytes (haystack.bytes.drop k) := by
      intro k hk
      rcases hlong with hlt | hnot
      · exact absurd hk.1 (Nat.not_le_of_lt hlt)
      · exact hnot (hk.2.isInfix.trans (List.drop_suffix k _).isInfix)
    obtain ⟨r, hrun, hfirst⟩ := strstrLoop_ok needle.noNul haystack.noNul hempty hover 0
    exact ⟨r, by simpa [strstr, CString.text] using hrun, hfirst⟩

/-- The empty needle is not found in the empty string. -/
theorem strstr_misses_empty : strstr [0#8] [0#8] = .ok none ∧
    OccursAt ([] : List Byte) [] 0 ∧ ¬ FindsFirst ⟨[], by simp⟩ ⟨[], by simp⟩ := by
  have hoccurs : OccursAt ([] : List Byte) [] 0 := occursAt_zero.mpr (List.prefix_refl [])
  refine ⟨rfl, hoccurs, ?_⟩
  intro h
  obtain ⟨r, hrun, hfirst⟩ := h
  cases hrun
  exact hfirst 0 hoccurs

end Ukulele
