import Ukulele.VfprintfOutput

/-! Numbers as printed: the digits of a value, from the highest one on. -/

set_option autoImplicit false

namespace Ukulele

variable {σ : Type} {args : List (BitVec 64)}

def digitByte (digit : Nat) : Byte := hexDigits.getD digit 0#8

/-- The value in a base, without leading zeros. -/
def numeral (base n : Nat) : List Byte :=
  if n = 0 then [ch '0'] else (Nat.digits base n).reverse.map digitByte

theorem digits_eq_cons {base n : Nat} (hbase : 2 ≤ base) (hn : n ≠ 0) :
    Nat.digits base n = n % base :: Nat.digits base (n / base) :=
  Nat.digits_def' hbase (Nat.pos_of_ne_zero hn)

theorem digitCountLoop_eq {base : BitVec 64} (hbase : 2 ≤ base.toNat) (fuel : Nat)
    (value : BitVec 64) (count : Nat) (hfuel : value.toNat < 2 ^ fuel) :
    digitCountLoop base fuel value count =
      count + (Nat.digits base.toNat value.toNat).length := by
  induction fuel generalizing value count with
  | zero =>
    have hz : value.toNat = 0 := by omega
    simp [digitCountLoop, hz]
  | succ fuel ih =>
    unfold digitCountLoop
    by_cases hz : value = 0#64
    · simp [hz]
    · have hn : value.toNat ≠ 0 := fun h => hz (BitVec.eq_of_toNat_eq h)
      have hhalf : value.toNat / base.toNat ≤ value.toNat / 2 :=
        Nat.div_le_div_left hbase (by omega)
      rw [if_neg hz, ih, BitVec.toNat_udiv, digits_eq_cons hbase hn, List.length_cons]
      · omega
      · rw [BitVec.toNat_udiv]
        omega

theorem digitCount_eq {base : BitVec 64} (hbase : 2 ≤ base.toNat) (value : BitVec 64) :
    digitCount base value = (numeral base.toNat value.toNat).length := by
  unfold digitCount numeral
  by_cases hz : value = 0#64
  · simp [hz]
  · have hn : value.toNat ≠ 0 := fun h => hz (BitVec.eq_of_toNat_eq h)
    rw [if_neg hz, if_neg hn, digitCountLoop_eq hbase 64 value 0 value.isLt]
    simp

theorem digitCountBase10_eq (value : BitVec 64) :
    digitCountBase10 value = (numeral 10 value.toNat).length :=
  digitCount_eq (by decide) value

theorem digitCountBase16_eq (value : BitVec 64) :
    digitCountBase16 value = (numeral 16 value.toNat).length :=
  digitCount_eq (by decide) value

theorem numeral_length_le_of_lt {base n k : Nat} (hbase : 2 ≤ base) (hk : 0 < k)
    (hn : n < base ^ k) : (numeral base n).length ≤ k := by
  unfold numeral
  split
  · exact hk
  · rw [List.length_map, List.length_reverse, Nat.digits_length_le_iff (by omega)]
    exact hn

theorem numeral_length_le {base : Nat} (hbase : 10 ≤ base) (value : BitVec 64) :
    (numeral base value.toNat).length ≤ 20 := by
  apply numeral_length_le_of_lt (by omega) (by decide)
  calc value.toNat < 10 ^ 20 := by omega
    _ ≤ base ^ 20 := Nat.pow_le_pow_left hbase 20

theorem drop_set_self (buffer : List Byte) {n : Nat} (hn : n < buffer.length) (c : Byte) :
    (buffer.set n c).drop n = c :: buffer.drop (n + 1) := by
  rw [List.drop_eq_getElem_cons (by simpa using hn), List.drop_set_of_lt (Nat.lt_succ_self n)]
  simp

theorem fillDigits_eq (digitChar : Nat → Byte) {base : BitVec 64} (hbase : 2 ≤ base.toNat)
    (n : Nat) (value : BitVec 64) (buffer : List Byte)
    (hdigits : (Nat.digits base.toNat value.toNat).length = n) (hn : n ≤ buffer.length) :
    fillDigits digitChar base n value buffer =
      some ((Nat.digits base.toNat value.toNat).reverse.map digitChar ++ buffer.drop n) := by
  induction n generalizing value buffer with
  | zero =>
    rw [List.length_eq_zero_iff.mp hdigits]
    simp [fillDigits]
  | succ n ih =>
    have hv : value.toNat ≠ 0 := by
      intro hz
      simp [hz] at hdigits
    rw [digits_eq_cons hbase hv, List.length_cons] at hdigits
    have hrest := ih (value / base) (buffer.set n (digitChar (value % base).toNat))
      (by rw [BitVec.toNat_udiv]; omega) (by rw [List.length_set]; omega)
    rw [fillDigits, if_pos (by omega), hrest, drop_set_self buffer (by omega),
      digits_eq_cons hbase hv, BitVec.toNat_udiv, BitVec.toNat_umod]
    simp

theorem fillDigits_numeral {digitChar : Nat → Byte} {base : BitVec 64}
    (hbase : 10 ≤ base.toNat) (hchar : ∀ digit < base.toNat, digitChar digit = digitByte digit)
    (value : BitVec 64) : fillDigits digitChar base (digitCount base value) value
        (List.replicate 32 0#8) =
      some (numeral base.toNat value.toNat ++
        List.replicate (32 - (numeral base.toNat value.toNat).length) 0#8) := by
  have hlen := numeral_length_le hbase value
  rw [digitCount_eq (by omega)]
  unfold numeral at hlen ⊢
  by_cases hz : value.toNat = 0
  · have hmod : (value % base).toNat = 0 := by rw [BitVec.toNat_umod, hz, Nat.zero_mod]
    have hzero : digitChar 0 = ch '0' := hchar 0 (by omega)
    simp only [hz, if_true]
    simp [fillDigits, hmod, hzero, List.set]
  · rw [if_neg hz, List.length_map, List.length_reverse] at hlen
    rw [if_neg hz, List.length_map, List.length_reverse,
      fillDigits_eq digitChar (by omega) _ value _ rfl (by rw [List.length_replicate]; omega),
      List.drop_replicate]
    congr 2
    apply List.map_congr_left
    intro digit hdigit
    exact hchar digit (Nat.digits_lt_base (by omega) (List.mem_reverse.mp hdigit))

theorem prints_printNum {digitChar : Nat → Byte} {base : BitVec 64}
    (hbase : 10 ≤ base.toNat) (hchar : ∀ digit < base.toNat, digitChar digit = digitByte digit)
    (value : BitVec 64) : Prints (printNum digitChar base value : PrintM σ Int) args args
      (numeral base.toNat value.toNat) (numeral base.toNat value.toNat).length := by
  have hlen := numeral_length_le hbase value
  unfold printNum
  simp only [fillDigits_numeral hbase hchar]
  rw [digitCount_eq (by omega)]
  apply (prints_fwriteE _ (by omega)).congr _ rfl
  apply List.ext_getElem
  · simp
  · intro i hi hi'
    simp [List.getElem?_append_left hi', List.getElem?_eq_getElem hi']

theorem prints_printNum10 (value : BitVec 64) :
    Prints (printNum10 value : PrintM σ Int) args args (numeral 10 value.toNat)
      (numeral 10 value.toNat).length := by
  apply prints_printNum (by decide)
  intro digit hdigit
  have hlt : digit < 10 := hdigit
  interval_cases digit <;> rfl

theorem prints_printNum16 (value : BitVec 64) :
    Prints (printNum16 value : PrintM σ Int) args args (numeral 16 value.toNat)
      (numeral 16 value.toNat).length := by
  apply prints_printNum (by decide)
  intro digit _
  rfl

end Ukulele
