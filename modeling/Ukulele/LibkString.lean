import Ukulele.ByteRange
import Ukulele.Machine

/-! The string functions of the kernel library in C: counting the bytes of a string, and moving
bytes. The memory is that of virtual addresses, byte by byte.
-/

set_option autoImplicit false

namespace Ukulele
open ByteRange

abbrev ByteMemory := Uintptr → BitVec 8

/-- The loop goes on for ever in a memory without a null byte, so it may run out of fuel. -/
def strlenLoop (mem : ByteMemory) : Nat → Uintptr → Size → Option Size
  | 0, _, _ => none
  | fuel + 1, str, len =>
    if mem str = 0#8 then some len else strlenLoop mem fuel (str + 1#64) (len + 1#64)

/-- After `2 ^ 64` bytes the pointer is back at the start. -/
def strlen (mem : ByteMemory) (str : Uintptr) : Option Size :=
  strlenLoop mem (2 ^ 64) str 0#64

def strnlenLoop (mem : ByteMemory) : Nat → Uintptr → Size → Size
  | 0, _, len => len
  | n + 1, str, len =>
    if mem str = 0#8 then len else strnlenLoop mem n (str + 1#64) (len + 1#64)

def strnlen (mem : ByteMemory) (str : Uintptr) (n : Size) : Size :=
  strnlenLoop mem n.toNat str 0#64

def isNul (c : BitVec 8) : Bool := c == 0#8

/-- `k` bytes, then the null byte. -/
def StringAt (mem : ByteMemory) (str : Uintptr) (k : Nat) : Prop :=
  (∀ i < k, mem (str + BitVec.ofNat 64 i) ≠ 0#8) ∧ mem (str + BitVec.ofNat 64 k) = 0#8

variable {mem : ByteMemory} {str : Uintptr}

theorem StringAt.before_eq {k : Nat} (h : StringAt mem str k) (n : Nat) :
    before isNul mem n str = min n k := by
  apply ByteRange.before_eq
  · intro i hi
    simpa [isNul] using h.1 i hi
  · simpa [isNul] using h.2

theorem strnlenLoop_eq (n : Nat) (str : Uintptr) (len : Size) :
    strnlenLoop mem n str len = len + BitVec.ofNat 64 (before isNul mem n str) := by
  induction n generalizing str len with
  | zero => simp [strnlenLoop, before]
  | succ n ih =>
    unfold strnlenLoop before
    by_cases hz : mem str = 0#8
    · simp [hz, isNul]
    · simp only [hz, if_false, ih, isNul, beq_iff_eq]
      rw [BitVec.ofNat_add]
      ring

theorem toNat_strnlen (mem : ByteMemory) (str : Uintptr) (n : Size) :
    (strnlen mem str n).toNat = before isNul mem n.toNat str := by
  have hle := before_le (p := isNul) (m := mem) n.toNat str
  have hn := n.isLt
  rw [strnlen, strnlenLoop_eq, BitVec.zero_add, BitVec.toNat_ofNat, Nat.mod_eq_of_lt (by omega)]

theorem strlenLoop_eq {fuel k : Nat} (h : StringAt mem str k) (hk : k < fuel) (len : Size) :
    strlenLoop mem fuel str len = some (len + BitVec.ofNat 64 k) := by
  induction fuel generalizing str k len with
  | zero => omega
  | succ fuel ih =>
    unfold strlenLoop
    cases k with
    | zero =>
      have hz : mem str = 0#8 := by simpa using h.2
      simp [hz]
    | succ k =>
      have hz : mem str ≠ 0#8 := by simpa using h.1 0 (by omega)
      have hrest : StringAt mem (str + 1#64) k := by
        refine ⟨?_, ?_⟩
        · intro i hi
          rw [add_one_ofNat]
          exact h.1 (i + 1) (by omega)
        · rw [add_one_ofNat]
          exact h.2
      rw [if_neg hz, ih hrest (by omega), BitVec.ofNat_add]
      congr 1
      ring

theorem strlen_eq {k : Nat} (h : StringAt mem str k) (hk : k < 2 ^ 64) :
    strlen mem str = some (BitVec.ofNat 64 k) := by
  rw [strlen, strlenLoop_eq h hk, BitVec.zero_add]

def memcpy (mem : ByteMemory) (dst src : Uintptr) (count : Size) : ByteMemory :=
  copy count.toNat dst src mem

/-- The low byte of an `int` is stored. -/
def memset (mem : ByteMemory) (dst : Uintptr) (ch : BitVec 32) (count : Size) : ByteMemory :=
  fill count.toNat dst (ch.setWidth 8) mem

def memmove (mem : ByteMemory) (dst src : Uintptr) (count : Size) : ByteMemory :=
  if dst ≤ src then memcpy mem dst src count
  else if src + count ≤ dst then memcpy mem dst src count
  else
    -- s < d < s + count
    let offset := dst - src
    let overlap := count - offset
    memcpy (memcpy mem (dst + offset) (src + offset) overlap) dst src offset

/-- The bytes from `dst` on become those that were at `src`, and no other byte changes. -/
def MovesBytes (mem mem' : ByteMemory) (dst src : Uintptr) (count : Size) : Prop :=
  (∀ i < count.toNat, mem' (dst + BitVec.ofNat 64 i) = mem (src + BitVec.ofNat 64 i)) ∧
    ∀ a, count.toNat ≤ ByteRange.offset dst a → mem' a = mem a

section Moves

variable {dst src : Uintptr} {count : Size}

theorem movesBytes_iff {mem' : ByteMemory}
    (hframe : ∀ a, count.toNat ≤ ByteRange.offset dst a → mem' a = mem a) :
    MovesBytes mem mem' dst src count ↔
      ∀ i < count.toNat, mem' (dst + BitVec.ofNat 64 i) = mem (src + BitVec.ofNat 64 i) := by
  constructor
  · intro h
    exact h.1
  · intro h
    exact ⟨h, hframe⟩

theorem memcpy_moves (mem : ByteMemory) (h : ByteRange.offset src dst = 0 ∨
    count.toNat ≤ ByteRange.offset src dst) :
    MovesBytes mem (memcpy mem dst src count) dst src count := by
  have hcount := count.isLt
  constructor
  · intro i hi
    rw [memcpy, copy_apart (by omega) mem h, offset_add dst (by omega), if_pos hi]
  · intro a ha
    rw [memcpy, copy_apart (by omega) mem h, if_neg (by omega)]

theorem offset_of_le (h : src ≤ dst) : ByteRange.offset src dst = dst.toNat - src.toNat := by
  rw [ByteRange.offset, BitVec.toNat_sub_of_le h]

theorem memmove_below (hsrc : src.toNat + count.toNat ≤ 2 ^ 64) (h : dst ≤ src) :
    MovesBytes mem (memmove mem dst src count) dst src count := by
  rw [memmove, if_pos h]
  apply memcpy_moves
  by_cases he : dst = src
  · left
    rw [he, offset_self]
  · right
    have hne : dst.toNat ≠ src.toNat := fun hn => he (BitVec.eq_of_toNat_eq hn)
    rw [BitVec.le_def] at h
    rw [ByteRange.offset, BitVec.toNat_sub]
    omega

theorem memmove_above (hlt : src < dst)
    (h : src.toNat + count.toNat ≤ dst.toNat) :
    MovesBytes mem (memmove mem dst src count) dst src count := by
  have hd := dst.isLt
  have hend : src + count ≤ dst := by
    rw [BitVec.le_def, BitVec.toNat_add, Nat.mod_eq_of_lt (by omega)]
    exact h
  rw [memmove, if_neg (BitVec.not_le.mpr hlt), if_pos hend]
  apply memcpy_moves
  right
  rw [offset_of_le (BitVec.le_of_lt hlt)]
  omega

theorem memcpy_overlap (mem : ByteMemory) (o v : Size) (a : Uintptr) : memcpy mem (dst + o) dst v a =
      if o.toNat ≤ ByteRange.offset dst a ∧ ByteRange.offset dst a - o.toNat < v.toNat then
        mem (dst + BitVec.ofNat 64 ((ByteRange.offset dst a - o.toNat) % o.toNat))
      else if ByteRange.offset dst a < o.toNat ∧
          2 ^ 64 + ByteRange.offset dst a - o.toNat < v.toNat then
        mem (dst + BitVec.ofNat 64 ((2 ^ 64 + ByteRange.offset dst a - o.toNat) % o.toNat))
      else mem a := by
  have ho := o.isLt
  have hv := v.isLt
  have hlt := offset_lt dst a
  have hself : ByteRange.offset dst (dst + o) = o.toNat := by
    simpa using offset_add dst ho
  have hshift := offset_shift (s := dst) (d := dst + o) hlt
  rw [add_offset, hself] at hshift
  rw [memcpy, copy_apply _ (by omega), hself, hshift]
  by_cases hle : o.toNat ≤ ByteRange.offset dst a
  · have hn : ¬ ByteRange.offset dst a < o.toNat := by omega
    simp only [hle, if_true, true_and, hn, false_and, if_false]
  · have hn : ByteRange.offset dst a < o.toNat := by omega
    simp only [hle, if_false, false_and, hn, true_and]

theorem memmove_overlap (mem : ByteMemory) (hdst : dst.toNat + count.toNat ≤ 2 ^ 64)
    (hlt : src < dst) (h : dst.toNat < src.toNat + count.toNat) (a : Uintptr) :
    memmove mem dst src count a =
      if ByteRange.offset dst a < dst.toNat - src.toNat then
        mem (src + BitVec.ofNat 64 (ByteRange.offset dst a))
      else if ByteRange.offset dst a < count.toNat then
        mem (dst + BitVec.ofNat 64
          ((ByteRange.offset dst a - (dst.toNat - src.toNat)) % (dst.toNat - src.toNat)))
      else mem a := by
  have hd := dst.isLt
  have hc := count.isLt
  have hle := BitVec.le_of_lt hlt
  have hn := BitVec.lt_def.mp hlt
  have ho : (dst - src).toNat = dst.toNat - src.toNat := BitVec.toNat_sub_of_le hle
  have hv : (count - (dst - src)).toNat = count.toNat - (dst.toNat - src.toNat) := by
    rw [BitVec.toNat_sub_of_le, ho]
    rw [BitVec.le_def, ho]
    omega
  have hend : ¬ src + count ≤ dst := by
    rw [BitVec.le_def, BitVec.toNat_add, Nat.mod_eq_of_lt (by omega)]
    omega
  have hstart : src + (dst - src) = dst := by ring
  rw [memmove, if_neg (BitVec.not_le.mpr hlt), if_neg hend]
  simp only [hstart]
  rw [memcpy, copy_apart (by omega) _ (Or.inr (by rw [offset_of_le hle, ho])), ho]
  by_cases hfst : ByteRange.offset dst a < dst.toNat - src.toNat
  · -- the source of the first half lies below everything that the first copy stores
    have hoff : ByteRange.offset dst (src + BitVec.ofNat 64 (ByteRange.offset dst a)) =
        2 ^ 64 + ByteRange.offset dst a - (dst.toNat - src.toNat) := by
      rw [offset_shift (offset_lt dst a), offset_of_le hle, if_neg (by omega)]
    rw [if_pos hfst, if_pos hfst, memcpy_overlap, hoff, ho, hv, if_neg (by omega),
      if_neg (by omega)]
  · rw [if_neg hfst, if_neg hfst, memcpy_overlap, ho, hv]
    by_cases hsnd : ByteRange.offset dst a < count.toNat
    · rw [if_pos (by omega), if_pos hsnd]
    · rw [if_neg (by omega), if_neg (by omega), if_neg hsnd]

/-- The bytes that both buffers share repeat with the distance of the buffers. -/
def OverlapRepeats (mem : ByteMemory) (dst src : Uintptr) (count : Size) : Prop :=
  ∀ i, i + 2 * (dst.toNat - src.toNat) < count.toNat →
    mem (dst + BitVec.ofNat 64 (i + (dst.toNat - src.toNat))) = mem (dst + BitVec.ofNat 64 i)

theorem OverlapRepeats.mod (h : OverlapRepeats mem dst src count) (hlt : src.toNat < dst.toNat)
    (i : Nat) : i + (dst.toNat - src.toNat) < count.toNat →
    mem (dst + BitVec.ofNat 64 (i % (dst.toNat - src.toNat))) = mem (dst + BitVec.ofNat 64 i) := by
  induction i using Nat.strong_induction_on with
  | _ i ih =>
    intro hi
    by_cases hlo : i < dst.toNat - src.toNat
    · rw [Nat.mod_eq_of_lt hlo]
    · have hstep := h (i - (dst.toNat - src.toNat)) (by omega)
      rw [Nat.sub_add_cancel (by omega)] at hstep
      rw [Nat.mod_eq_sub_mod (by omega), ih _ (by omega) (by omega), hstep]

theorem overlapRepeats_of_mod (h : ∀ i, i + (dst.toNat - src.toNat) < count.toNat →
    mem (dst + BitVec.ofNat 64 (i % (dst.toNat - src.toNat))) = mem (dst + BitVec.ofNat 64 i)) :
    OverlapRepeats mem dst src count := by
  intro i hi
  rw [← h (i + (dst.toNat - src.toNat)) (by omega), Nat.add_mod_right, h i (by omega)]

theorem memmove_overlap_moves (hdst : dst.toNat + count.toNat ≤ 2 ^ 64) (hlt : src < dst)
    (h : dst.toNat < src.toNat + count.toNat) :
    MovesBytes mem (memmove mem dst src count) dst src count ↔
      OverlapRepeats mem dst src count := by
  have hmove := memmove_overlap mem hdst hlt h
  have hn := BitVec.lt_def.mp hlt
  have hc := count.isLt
  have hsrc : ∀ i, src + BitVec.ofNat 64 (i + (dst.toNat - src.toNat)) =
      dst + BitVec.ofNat 64 i := by
    intro i
    have hd : BitVec.ofNat 64 (dst.toNat - src.toNat) = dst - src := by
      rw [← BitVec.toNat_sub_of_le (BitVec.le_of_lt hlt), BitVec.ofNat_toNat, BitVec.setWidth_eq]
    rw [BitVec.ofNat_add, hd]
    ring
  have hframe : ∀ a, count.toNat ≤ ByteRange.offset dst a →
      memmove mem dst src count a = mem a := by
    intro a ha
    rw [hmove, if_neg (by omega), if_neg (by omega)]
  rw [movesBytes_iff hframe]
  constructor
  · intro hmoves
    apply overlapRepeats_of_mod
    intro i hi
    have hm := hmoves (i + (dst.toNat - src.toNat)) hi
    rw [hmove, offset_add dst (by omega), if_neg (by omega), if_pos hi, Nat.add_sub_cancel,
      hsrc] at hm
    exact hm
  · intro hrep i hi
    rw [hmove, offset_add dst (by omega)]
    by_cases hlo : i < dst.toNat - src.toNat
    · rw [if_pos hlo]
    · have hm := hrep.mod hn (i - (dst.toNat - src.toNat)) (by omega)
      have he := hsrc (i - (dst.toNat - src.toNat))
      rw [Nat.sub_add_cancel (by omega)] at he
      rw [if_neg hlo, if_pos hi, hm, he]

/-- `memmove` moves a buffer unless more than half of it is to be moved up into itself, and then
if the bytes there are such that it makes no difference. -/
theorem memmove_moves_bytes (hdst : dst.toNat + count.toNat ≤ 2 ^ 64)
    (hsrc : src.toNat + count.toNat ≤ 2 ^ 64) :
    MovesBytes mem (memmove mem dst src count) dst src count ↔
      dst ≤ src ∨ src.toNat + count.toNat ≤ dst.toNat ∨ OverlapRepeats mem dst src count := by
  by_cases hle : dst ≤ src
  · exact iff_of_true (memmove_below hsrc hle) (Or.inl hle)
  · have hlt := BitVec.not_le.mp hle
    by_cases hend : src.toNat + count.toNat ≤ dst.toNat
    · exact iff_of_true (memmove_above hlt hend) (Or.inr (Or.inl hend))
    · rw [memmove_overlap_moves hdst hlt (by omega)]
      simp [hle, hend]

def alphabet : ByteMemory := fun a => a.setWidth 8

theorem memmove_moves_bytes_example :
    MovesBytes alphabet (memmove alphabet 0x1002#64 0x1000#64 4#64) 0x1002#64 0x1000#64 4#64 := by
  apply (memmove_moves_bytes (by decide) (by decide)).mpr
  right
  right
  intro i hi
  have hcount : (4#64).toNat = 4 := rfl
  have hdistance : (0x1002#64).toNat - (0x1000#64).toNat = 2 := rfl
  omega

theorem memmove_smears :
    memmove alphabet 0x1001#64 0x1000#64 4#64 0x1003#64 = 1#8 ∧
    ¬ MovesBytes alphabet (memmove alphabet 0x1001#64 0x1000#64 4#64) 0x1001#64 0x1000#64 4#64 := by
  have hbyte : memmove alphabet 0x1001#64 0x1000#64 4#64 0x1003#64 = 1#8 := by decide
  refine ⟨hbyte, ?_⟩
  intro hmoves
  have hwant := hmoves.1 2 (by decide)
  have hat : 0x1001#64 + BitVec.ofNat 64 2 = 0x1003#64 := by decide
  rw [hat, hbyte] at hwant
  exact absurd hwant (by decide)

end Moves

end Ukulele
