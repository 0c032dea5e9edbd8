import Ukulele.StdioLog
import Ukulele.VfprintfRuns

/-! Consoles: streams whose writer puts one byte after the other. -/

set_option autoImplicit false

namespace Ukulele
open Faults Pieces

variable {σ : Type}

/-- A writer that puts one byte after the other and counts all of them as written. -/
def byteWriter (put : σ → Byte → σ) : CookieWrite σ :=
  fun cookie buf => ((buf.length : Int), buf.foldl put cookie)

theorem byteWriter_takesAll (put : σ → Byte → σ) : TakesAll (byteWriter put) := fun _ _ => rfl

/-- The stream is open with this writer, and the cookie and what was delivered fit together. -/
def OpenWith (put : σ → Byte → σ) (R : List Byte → σ → Prop) (stdio : Stdio σ) : Prop :=
  ∃ cookie error, stdio.stream = some ⟨cookie, some (byteWriter put), error⟩ ∧
    R stdio.delivered cookie

section OpenWith

variable {put : σ → Byte → σ} {R : List Byte → σ → Prop} {stdio : Stdio σ}

theorem OpenWith.accepts (h : OpenWith put R stdio) : stdio.Accepts := by
  obtain ⟨cookie, error, hstream, -⟩ := h
  exact ⟨_, _, hstream, rfl, byteWriter_takesAll put⟩

theorem OpenWith.fwrite (hput : ∀ out cookie c, R out cookie → R (out ++ [c]) (put cookie c))
    (h : OpenWith put R stdio) (buffer : Nat → Byte) (count : Size) :
    OpenWith put R (fwrite buffer 1#64 count stdio).2 := by
  have hbuf : ∀ (buf out : List Byte) (cookie : σ), R out cookie →
      R (out ++ buf) (buf.foldl put cookie) := by
    intro buf
    induction buf with
    | nil => simp
    | cons c buf ih =>
      intro out cookie hR
      simpa using ih (out ++ [c]) (put cookie c) (hput out cookie c hR)
  obtain ⟨stdio', hrun, -, hdelivered⟩ := fwrite_accepts h.accepts buffer count
  obtain ⟨cookie, error, hstream, hR⟩ := h
  by_cases hz : 1#64 * count = 0#64
  · have hnothing := fwrite_nothing hstream rfl buffer hz
    rw [hnothing]
    exact ⟨cookie, error, hstream, hR⟩
  · obtain ⟨io', error', hcall, hstream', -⟩ := fwrite_call hstream rfl buffer hz rfl
    rw [BitVec.one_mul] at hcall hstream'
    have hsame : stdio' = io' := by
      have hboth := hrun.symm.trans hcall
      exact (Prod.ext_iff.mp hboth).2
    rw [hrun]
    refine ⟨_, error', hsame ▸ hstream', ?_⟩
    rw [hdelivered]
    exact hbuf _ _ _ hR

/-- The directives can be printed from the memory. -/
structure PrintsText (strnlen : ByteMemory → Uintptr → Size → Size) (mem : ByteMemory)
    (ds : List Directive) : Prop where
  counts : CountsString strnlen
  wellFormed : ∀ d ∈ ds, d.WellFormed
  short : (ds.flatMap (Directive.expansion mem)).length < 2 ^ 31
  right : ∀ d ∈ ds, d.PrintsRight strnlen mem

theorem OpenWith.vfprintf (hput : ∀ out cookie c, R out cookie → R (out ++ [c]) (put cookie c))
    (h : OpenWith put R stdio) {strnlen : ByteMemory → Uintptr → Size → Size} {mem : ByteMemory}
    {ds : List Directive} (hds : PrintsText strnlen mem ds) (extra : List (BitVec 64)) : ∃ n s,
      vfprintf strnlen mem (textOf ds ++ [0#8]) ⟨stdio, argsOf ds ++ extra⟩ = .ok n s ∧
      s.io.delivered = stdio.delivered ++ ds.flatMap (Directive.expansion mem) ∧
      OpenWith put R s.io := by
  have hlens : ∀ d ∈ ds, (d.expansion mem).length < 2 ^ 31 :=
    fun d hd => Nat.lt_of_le_of_lt (Additive.length.le_flatMap hd) hds.short
  obtain ⟨hput', hout⟩ := (outputs_eq_iff hds.counts hds.wellFormed hlens).mpr hds.right
  obtain ⟨io', hrun, hdelivered⟩ := vfprintf_prints hds.counts h.accepts hds.wellFormed hput' extra
  rw [hout] at hdelivered
  have hkeeps : OpenWith put R (finalState
      (Ukulele.vfprintf strnlen mem (textOf ds ++ [0#8]) ⟨stdio, argsOf ds ++ extra⟩)).io :=
    keeps_vfprintf (fun _ hio buffer count => hio.fwrite hput buffer count) _ _ h
  rw [hrun] at hkeeps
  exact ⟨_, _, hrun, hdelivered, hkeeps⟩

end OpenWith

theorem exampleDirectives_text : PrintsText strnlen oneByteString.mem exampleDirectives := by
  have hcounts : CountsRight strnlen oneByteString.mem 0x1000#64 intMax.toNat :=
    toNat_strnlen _ _ _
  constructor
  · exact countsString_strnlen
  · simp [exampleDirectives, Directive.WellFormed, Promoted, LengthModifier.bits, ch]
  · simp [exampleDirectives_expansion]
  · simp only [exampleDirectives, List.forall_mem_cons, Directive.PrintsRight]
    exact ⟨by decide, ⟨Or.inl (by decide), Or.inr (Or.inl trivial)⟩, by decide,
      ⟨hcounts, Or.inl (by decide)⟩, by simp⟩

end Ukulele
