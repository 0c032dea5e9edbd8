import Ukulele.Stdio

/-! The table of open streams. A stream is free while its cookie is null, and none is ever closed.
-/

set_option autoImplicit false

namespace Ukulele

/-- The functions of a stream, as pointers that may be null. -/
structure CookieIoFunctions where
  reader : Uintptr
  writer : Uintptr
  deriving DecidableEq, Repr

structure StreamEntry where
  cookie : Uintptr
  ioFunctions : CookieIoFunctions
  eof : Bool
  error : Bool
  deriving DecidableEq, Repr

def esuccess : Int := 0
def enosr : Int := 4

structure StreamTable where
  streams : Fin 8 → StreamEntry
  errno : Int

def closedStream : StreamEntry := ⟨0#64, ⟨0#64, 0#64⟩, false, false⟩

def closedStreams : StreamTable := ⟨fun _ => closedStream, esuccess⟩

/-- The index stands for the pointer; there is none for a null pointer. -/
def fopencookie (cookie : Uintptr) (io : CookieIoFunctions) (t : StreamTable) :
    Option (Fin 8) × StreamTable :=
  match (List.finRange 8).find? fun i => (t.streams i).cookie = 0#64 with
  | some i => (some i, ⟨Function.update t.streams i ⟨cookie, io, false, false⟩, esuccess⟩)
  | none => (none, { t with errno := enosr })

structure Opening where
  cookie : Uintptr
  io : CookieIoFunctions
  stream : Option (Fin 8)
  deriving DecidableEq, Repr

/-- Everything else that is done with streams changes their flags only. -/
inductive StreamsRun : StreamTable → List Opening → Prop where
  | start : StreamsRun closedStreams []
  | opened {t : StreamTable} {history : List Opening} (cookie : Uintptr) (io : CookieIoFunctions) :
      StreamsRun t history → StreamsRun (fopencookie cookie io t).2
        (history ++ [⟨cookie, io, (fopencookie cookie io t).1⟩])
  | used {t t' : StreamTable} {history : List Opening} : StreamsRun t history →
      (∀ i, (t'.streams i).cookie = (t.streams i).cookie ∧
        (t'.streams i).ioFunctions = (t.streams i).ioFunctions) →
      StreamsRun t' history

def nextStream (k : Nat) : Option (Fin 8) := if h : k < 8 then some ⟨k, h⟩ else none

def nonNull (cookies : List Uintptr) : Nat := cookies.countP (· ≠ 0#64)

/-- The streams that are returned for the cookies; a null cookie takes no stream away. -/
def openedStreams : Nat → List Uintptr → List (Option (Fin 8))
  | _, [] => []
  | k, cookie :: cookies =>
    nextStream k :: openedStreams (if cookie = 0#64 then k else k + 1) cookies

theorem openedStreams_concat (k : Nat) (cookies : List Uintptr) (cookie : Uintptr) :
    openedStreams k (cookies ++ [cookie]) =
      openedStreams k cookies ++ [nextStream (k + nonNull cookies)] := by
  induction cookies generalizing k with
  | nil => simp [openedStreams, nonNull]
  | cons c cookies ih =>
    by_cases hc : c = 0#64
    · simp [openedStreams, ih, hc, nonNull]
    · simp [openedStreams, ih, hc, nonNull, Nat.add_assoc, Nat.add_comm]

section Runs

variable {t t' : StreamTable} {history : List Opening} {cookie : Uintptr} {io : CookieIoFunctions}
  {k : Nat}

def Taken (t : StreamTable) (k : Nat) : Prop := ∀ i : Fin 8, (t.streams i).cookie = 0#64 ↔ k ≤ i.val

theorem Taken.find (h : Taken t k) :
    ((List.finRange 8).find? fun i => (t.streams i).cookie = 0#64) = nextStream k := by
  unfold nextStream
  split
  · rename_i hk
    rw [List.find?_eq_some_iff_getElem]
    refine ⟨by simpa using (h ⟨k, hk⟩).mpr (Nat.le_refl k), k, by simpa using hk, by simp, ?_⟩
    intro j hj
    simp only [List.getElem_finRange, Bool.not_eq_true', decide_eq_false_iff_not]
    rw [h]
    simpa using hj
  · rename_i hk
    rw [List.find?_eq_none]
    intro i hi
    have hlt := i.isLt
    simp only [decide_eq_true_eq]
    rw [h]
    omega

theorem Taken.open_eq (h : Taken t k) : (fopencookie cookie io t).1 = nextStream k := by
  unfold fopencookie
  rw [h.find]
  cases nextStream k <;> rfl

theorem Taken.opened (h : Taken t k) :
    Taken (fopencookie cookie io t).2 (if cookie = 0#64 then k else k + 1) := by
  unfold fopencookie
  rw [h.find]
  unfold nextStream
  intro i
  have hlt := i.isLt
  have hi := h i
  by_cases hk : k < 8
  · simp only [hk, dite_true, Function.update_apply]
    by_cases hik : i = ⟨k, hk⟩
    · subst hik
      by_cases hc : cookie = 0#64 <;> simp [hc]
    · have hne : i.val ≠ k := fun he => hik (Fin.ext he)
      rw [if_neg hik, hi]
      split <;> omega
  · simp only [hk, dite_false]
    rw [hi]
    split <;> omega

theorem fopencookie_other {i : Fin 8} (h : (fopencookie cookie io t).1 ≠ some i) :
    (fopencookie cookie io t).2.streams i = t.streams i := by
  unfold fopencookie at h ⊢
  split
  · rename_i j hj
    simp only [hj, ne_eq, Option.some.injEq] at h
    exact Function.update_of_ne (Ne.symm h) _ _
  · rfl

theorem fopencookie_new {i : Fin 8} (h : (fopencookie cookie io t).1 = some i) :
    (fopencookie cookie io t).2.streams i = ⟨cookie, io, false, false⟩ := by
  unfold fopencookie at h ⊢
  split
  · rename_i j hj
    simp only [hj, Option.some.injEq] at h
    simp [h]
  · rename_i hj
    simp [hj] at h

/-- The streams in the order they were opened; no stream with a cookie is given out again, and it
keeps the cookie and the functions. -/
structure StreamsOk (t : StreamTable) (history : List Opening) : Prop where
  taken : Taken t (nonNull (history.map (·.cookie)))
  opened : history.map (·.stream) = openedStreams 0 (history.map (·.cookie))
  entries : ∀ o ∈ history, o.cookie ≠ 0#64 → ∀ i, o.stream = some i →
    i.val < nonNull (history.map (·.cookie)) ∧ (t.streams i).cookie = o.cookie ∧
      (t.streams i).ioFunctions = o.io
  apart : history.Pairwise fun o o' => o.cookie ≠ 0#64 → o.stream ≠ none → o'.stream ≠ o.stream

theorem nonNull_concat (cookies : List Uintptr) (cookie : Uintptr) :
    nonNull (cookies ++ [cookie]) =
      if cookie = 0#64 then nonNull cookies else nonNull cookies + 1 := by
  by_cases hc : cookie = 0#64 <;> simp [nonNull, hc]

theorem nextStream_some {i : Fin 8} (h : nextStream k = some i) : i.val = k := by
  unfold nextStream at h
  split at h
  · cases h
    rfl
  · cases h

theorem StreamsOk.open_ne (h : StreamsOk t history) {o : Opening} (ho : o ∈ history)
    (hc : o.cookie ≠ 0#64) {i : Fin 8} (hi : o.stream = some i) :
    (fopencookie cookie io t).1 ≠ some i := by
  intro he
  have hlt := (h.entries o ho hc i hi).1
  have hk := nextStream_some (h.taken.open_eq.symm.trans he)
  omega

theorem StreamsOk.opening (h : StreamsOk t history) : StreamsOk (fopencookie cookie io t).2
    (history ++ [⟨cookie, io, (fopencookie cookie io t).1⟩]) := by
  have hnext : (fopencookie cookie io t).1 = nextStream (nonNull (history.map (·.cookie))) :=
    h.taken.open_eq
  constructor
  · simp only [List.map_append, List.map_cons, List.map_nil, nonNull_concat]
    exact h.taken.opened
  · simp [h.opened, openedStreams_concat, hnext]
  · intro o ho hc i hi
    simp only [List.map_append, List.map_cons, List.map_nil, nonNull_concat]
    rcases List.mem_append.mp ho with ho | ho
    · obtain ⟨hlt, hentry⟩ := h.entries o ho hc i hi
      rw [fopencookie_other (h.open_ne ho hc hi)]
      refine ⟨?_, hentry⟩
      split <;> omega
    · obtain rfl := List.mem_singleton.mp ho
      have hk := nextStream_some (hnext.symm.trans hi)
      rw [if_neg hc, fopencookie_new hi]
      exact ⟨by omega, rfl, rfl⟩
  · rw [List.pairwise_append]
    refine ⟨h.apart, by simp, ?_⟩
    intro o ho o' ho' hc hsome
    obtain rfl := List.mem_singleton.mp ho'
    obtain ⟨i, hi⟩ := Option.ne_none_iff_exists'.mp hsome
    rw [hi]
    exact h.open_ne ho hc hi

theorem StreamsRun.invariant (h : StreamsRun t history) : StreamsOk t history := by
  induction h with
  | start =>
    constructor
    · intro i
      simp [closedStreams, closedStream, nonNull]
    · rfl
    · simp
    · simp
  | opened cookie io hrun ih => exact ih.opening
  | used hrun hsame ih =>
    refine ⟨fun i => ?_, ih.opened, ?_, ih.apart⟩
    · rw [(hsame i).1]
      exact ih.taken i
    · intro o ho hc i hi
      rw [(hsame i).1, (hsame i).2]
      exact ih.entries o ho hc i hi

/-- The streams are given out in order, eight at most; one that was opened with a cookie keeps the
cookie and the functions, and is never given out again. -/
theorem opened_streams_stay (h : StreamsRun t history) :
    history.map (·.stream) = openedStreams 0 (history.map (·.cookie)) ∧
    (∀ o ∈ history, o.cookie ≠ 0#64 → ∀ i, o.stream = some i →
      (t.streams i).cookie = o.cookie ∧ (t.streams i).ioFunctions = o.io) ∧
    history.Pairwise fun o o' => o.cookie ≠ 0#64 → o.stream ≠ none → o'.stream ≠ o.stream :=
  ⟨h.invariant.opened, fun o ho hc i hi => (h.invariant.entries o ho hc i hi).2, h.invariant.apart⟩

/-- A null cookie between two others: the stream that it is given goes to the next one too. -/
theorem opened_streams_stay_example : ∃ t history, StreamsRun t history ∧
    history.map (·.stream) = [some 0, some 1, some 1] ∧ (t.streams 1).cookie = 0x20#64 := by
  have hrun := ((StreamsRun.start.opened 0x10#64 ⟨0#64, 0#64⟩).opened 0#64 ⟨0#64, 0#64⟩).opened
    0x20#64 ⟨0#64, 0#64⟩
  obtain ⟨hstreams, hentries, -⟩ := opened_streams_stay hrun
  refine ⟨_, _, hrun, hstreams.trans (by decide), ?_⟩
  exact (hentries ⟨0x20#64, ⟨0#64, 0#64⟩, some 1⟩ (by decide) (by decide) 1 rfl).1

end Runs

end Ukulele
