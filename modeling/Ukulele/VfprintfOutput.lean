import Ukulele.Faults
import Ukulele.Vfprintf

/-! What the printers deliver to a stream whose writer takes everything. -/

set_option autoImplicit false

namespace Ukulele
open Faults

variable {σ α β : Type}

def Prints (m : PrintM σ α) (args args' : List (BitVec 64)) (out : List Byte) (a : α) : Prop :=
  ∀ io : Stdio σ, io.Accepts → ∃ io', m ⟨io, args⟩ = .ok a ⟨io', args'⟩ ∧ io'.Accepts ∧
    io'.delivered = io.delivered ++ out

def Jumps (m : PrintM σ α) (args : List (BitVec 64)) : Prop :=
  ∀ io : Stdio σ, io.Accepts → ∃ code s, m ⟨io, args⟩ = .error (.error code) s

variable {args args' args'' : List (BitVec 64)} {out out' : List Byte}

section Views

variable {view : Stdio σ → List Byte}

def Sends (view : Stdio σ → List Byte) (m : PrintM σ α) (args args' : List (BitVec 64))
    (out : List Byte) (a : α) : Prop :=
  ∀ io : Stdio σ, io.Accepts → ∃ io', m ⟨io, args⟩ = .ok a ⟨io', args'⟩ ∧ io'.Accepts ∧
    view io' = view io ++ out

def Grows (view : Stdio σ → List Byte) : Prop :=
  ∀ io : Stdio σ, io.Accepts → ∀ (buffer : Nat → Byte) (count : Size),
    ∃ io', fwrite buffer 1#64 count io = (count, io') ∧ io'.Accepts ∧
      view io' = view io ++ (List.range count.toNat).map buffer

theorem grows_delivered : Grows (Stdio.delivered : Stdio σ → List Byte) :=
  fun _ h => fwrite_accepts h

theorem sends_pure (a : α) : Sends view (pure a : PrintM σ α) args args [] a := by
  intro io h
  exact ⟨io, rfl, h, by simp⟩

theorem Sends.bind {m : PrintM σ α} {f : α → PrintM σ β} {a : α} {b : β}
    (hm : Sends view m args args' out a) (hf : Sends view (f a) args' args'' out' b) :
    Sends view (m >>= f) args args'' (out ++ out') b := by
  intro io h
  obtain ⟨io', hrun, h', hout⟩ := hm io h
  obtain ⟨io'', hrun', h'', hout'⟩ := hf io' h'
  refine ⟨io'', ?_, h'', ?_⟩
  · rw [bind_ok hrun, hrun']
  · rw [hout', hout, List.append_assoc]

theorem Sends.congr {m : PrintM σ α} {a a' : α} (h : Sends view m args args' out a)
    (hout : out = out') (ha : a = a') : Sends view m args args' out' a' := by
  subst hout ha
  exact h

theorem Sends.add {m : PrintM σ Int} {n : Int} (h : Sends view m args args' out n)
    (printed : Int) :
    Sends view (do
      let n ← m
      return printed + n) args args' out (printed + n) := by
  simpa using h.bind (f := fun n => pure (printed + n)) (sends_pure (printed + n))

theorem sends_vaArg (arg : BitVec 64) (args : List (BitVec 64)) :
    Sends view (vaArg : PrintM σ _) (arg :: args) args [] arg := by
  intro io h
  exact ⟨io, rfl, h, by simp⟩

/-- A length below zero is one of almost 2^64 as a `size_t`; the check of what was written
does not notice. -/
theorem sends_fwriteE (hview : Grows view) (c : Nat → Byte) {len : Int} (hmin : -2 ^ 31 ≤ len)
    (hmax : len < 2 ^ 31) : Sends view (fwriteE c len : PrintM σ Int) args args
      ((List.range (BitVec.ofInt 64 len).toNat).map c) len := by
  intro io h
  obtain ⟨io', hrun, h', hout⟩ := hview io h c (BitVec.ofInt 64 len)
  have hint : ((BitVec.ofInt 64 len).setWidth 32).toInt = len := by
    rw [BitVec.toInt_eq_toNat_cond, BitVec.toNat_setWidth, BitVec.toNat_ofInt]
    split <;> omega
  refine ⟨io', ?_, h', hout⟩
  simp only [fwriteE, hrun, hint, lt_irrefl, if_false]

theorem sends_fputcE (hview : Grows view) {c : Byte} (hc : c ≠ 0xff#8) :
    Sends view (fputcE c.toInt : PrintM σ Int) args args [c] 1 := by
  intro io h
  obtain ⟨io', hrun, h', hout⟩ := hview io h (fun _ => c) 1#64
  have hne : c.toInt ≠ eof := fun he => hc (BitVec.eq_of_toInt_eq he)
  refine ⟨io', ?_, h', by simpa using hout⟩
  simp [fputcE, fputc, hrun, hne]

end Views

theorem prints_pure (a : α) : Prints (pure a : PrintM σ α) args args [] a := sends_pure a

theorem Prints.bind {m : PrintM σ α} {f : α → PrintM σ β} {a : α} {b : β}
    (hm : Prints m args args' out a) (hf : Prints (f a) args' args'' out' b) :
    Prints (m >>= f) args args'' (out ++ out') b := Sends.bind hm hf

theorem Jumps.bind {m : PrintM σ α} {f : α → PrintM σ β} (h : Jumps m args) :
    Jumps (m >>= f) args := by
  intro io hio
  obtain ⟨code, s, hrun⟩ := h io hio
  exact ⟨code, s, bind_error hrun⟩

theorem Prints.jumps {m : PrintM σ α} {f : α → PrintM σ β} {a : α}
    (hm : Prints m args args' out a) (hf : Jumps (f a) args') : Jumps (m >>= f) args := by
  intro io h
  obtain ⟨io', hrun, h', -⟩ := hm io h
  obtain ⟨code, s, hrun'⟩ := hf io' h'
  refine ⟨code, s, ?_⟩
  rw [bind_ok hrun, hrun']

theorem Prints.congr {m : PrintM σ α} {a a' : α} (h : Prints m args args' out a)
    (hout : out = out') (ha : a = a') : Prints m args args' out' a' := Sends.congr h hout ha

theorem Prints.add {m : PrintM σ Int} {n : Int} (h : Prints m args args' out n) (printed : Int) :
    Prints (do
      let n ← m
      return printed + n) args args' out (printed + n) := Sends.add h printed

theorem prints_vaArg (arg : BitVec 64) (args : List (BitVec 64)) :
    Prints (vaArg : PrintM σ _) (arg :: args) args [] arg := sends_vaArg arg args

theorem prints_fwriteE (c : Nat → Byte) {len : Nat} (hlen : len < 2 ^ 31) :
    Prints (fwriteE c len : PrintM σ Int) args args ((List.range len).map c) len := by
  have hnat : (BitVec.ofInt 64 len).toNat = len := by
    rw [BitVec.ofInt_natCast, BitVec.toNat_ofNat, Nat.mod_eq_of_lt (by omega)]
  have hsends : Prints (fwriteE c len : PrintM σ Int) args args _ len :=
    sends_fwriteE grows_delivered c (by omega) (by omega)
  rwa [hnat] at hsends

theorem prints_fputcE {c : Byte} (hc : c ≠ 0xff#8) :
    Prints (fputcE c.toInt : PrintM σ Int) args args [c] 1 := sends_fputcE grows_delivered hc

theorem jumps_fputcE : Jumps (fputcE (0xff#8).toInt : PrintM σ Int) args := by
  intro io h
  have heof : (0xff#8).toInt = eof := rfl
  obtain ⟨io', hrun, -, -⟩ := fputc_accepts h eof
  refine ⟨1, ⟨io', args⟩, ?_⟩
  rw [heof]
  simp only [fputcE, hrun, if_true]

def fieldColumns (width : BitVec 8) : Nat := width.toInt.toNat

theorem toInt_pred {width : BitVec 8} {n : Nat} (h : (n : Int) < width.toInt) :
    (width - 1#8).toInt = width.toInt - 1 := by
  have hlt := width.toInt_lt
  rw [BitVec.toInt_sub_of_not_ssubOverflow]
  · rfl
  · have h1 : (1#8).toInt = 1 := rfl
    simp only [BitVec.ssubOverflow, h1]
    simp
    omega

theorem prints_padLoop {pad : Byte} (hpad : pad ≠ 0xff#8) (digits fuel : Nat) (width : BitVec 8)
    (printed : Int) (hfuel : fieldColumns width - digits ≤ fuel) :
    Prints (padLoop pad digits fuel width printed : PrintM σ Int) args args
      (List.replicate (fieldColumns width - digits) pad)
      (printed + (fieldColumns width - digits : Nat)) := by
  unfold fieldColumns at hfuel ⊢
  induction fuel generalizing width printed with
  | zero =>
    have hn : width.toInt.toNat - digits = 0 := by omega
    rw [padLoop, if_neg (by omega), hn]
    simpa using prints_pure printed
  | succ fuel ih =>
    unfold padLoop
    by_cases hw : (digits : Int) < width.toInt
    · have hpred := toInt_pred hw
      have hn : width.toInt.toNat - digits = (width - 1#8).toInt.toNat - digits + 1 := by omega
      have hrest := ih (width - 1#8) (printed + 1) (by omega)
      rw [if_pos hw, hn]
      apply ((prints_fputcE hpad).bind hrest).congr
      · rw [List.replicate_succ, List.singleton_append]
      · push_cast
        ring
    · have hn : width.toInt.toNat - digits = 0 := by omega
      rw [if_neg hw, hn]
      simpa using prints_pure printed

theorem prints_padTo (afmt : FmtSpecifier) {pad : Byte} (hpad : pad ≠ 0xff#8) (digits : Nat) :
    Prints (padTo afmt pad digits 0 : PrintM σ Int) args args
      (List.replicate (fieldColumns afmt.width - digits) pad) (fieldColumns afmt.width - digits : Nat) := by
  have hlt := afmt.width.toInt_lt
  unfold padTo
  by_cases hw : 0 < afmt.width.toInt
  · rw [if_pos hw]
    apply (prints_padLoop hpad digits 127 afmt.width 0 _).congr rfl (by simp)
    unfold fieldColumns
    omega
  · have hn : fieldColumns afmt.width = 0 := by
      unfold fieldColumns
      omega
    rw [if_neg hw, hn]
    simpa using prints_pure (0 : Int)

theorem sends_padString {view : Stdio σ → List Byte} (hview : Grows view) (chars fuel : Nat)
    (width : BitVec 8) (precision : BitVec 32) (printed : Int)
    (hfuel : fieldColumns width - chars ≤ fuel) :
    Sends view (padString chars fuel width precision printed : PrintM σ _) args args
      (List.replicate (fieldColumns width - chars) (ch ' '))
      (printed + (fieldColumns width - chars : Nat),
        precision - BitVec.ofNat 32 (fieldColumns width - chars)) := by
  unfold fieldColumns at hfuel ⊢
  induction fuel generalizing width precision printed with
  | zero =>
    have hn : width.toInt.toNat - chars = 0 := by omega
    rw [padString, if_neg (by omega), hn]
    simpa using sends_pure (printed, precision)
  | succ fuel ih =>
    unfold padString
    by_cases hw : (chars : Int) < width.toInt
    · have hpred := toInt_pred hw
      have hn : width.toInt.toNat - chars = (width - 1#8).toInt.toNat - chars + 1 := by omega
      have hrest := ih (width - 1#8) (precision - 1#32) (printed + 1) (by omega)
      rw [if_pos hw, hn]
      apply ((sends_fputcE hview (by decide)).bind hrest).congr
      · rw [List.replicate_succ, List.singleton_append]
      · rw [BitVec.ofNat_add]
        apply Prod.ext
        · push_cast
          ring
        · dsimp only
          ring
    · have hn : width.toInt.toNat - chars = 0 := by omega
      rw [if_neg hw, hn]
      simpa using sends_pure (printed, precision)

theorem prints_padString (chars fuel : Nat) (width : BitVec 8) (precision : BitVec 32)
    (printed : Int) (hfuel : fieldColumns width - chars ≤ fuel) :
    Prints (padString chars fuel width precision printed : PrintM σ _) args args
      (List.replicate (fieldColumns width - chars) (ch ' '))
      (printed + (fieldColumns width - chars : Nat),
        precision - BitVec.ofNat 32 (fieldColumns width - chars)) :=
  sends_padString grows_delivered chars fuel width precision printed hfuel

end Ukulele
