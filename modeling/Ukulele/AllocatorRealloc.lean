import Ukulele.Allocator

/-! What a reallocation keeps: the bytes of the old block in the new one, and all other memory. -/

set_option autoImplicit false

namespace Ukulele
open ByteRange

variable {α : Type}

def Blk.Holds (b : Blk) (x : Uintptr) : Prop := offset b.ptr x < b.size.toNat

def Blk.Disjoint (b c : Blk) : Prop := ∀ x, b.Holds x → ¬ c.Holds x

def SameBytes (b : Blk) (m m' : ByteMemory) : Prop := ∀ x, b.Holds x → m' x = m x

/-- An allocator without `realloc` that hands out fresh blocks of at least the size asked for. It
leaves the live blocks alone, and so does a free with the other live blocks. -/
structure FreshAllocator (alloc : Allocator (Heap α)) (live : α → Blk → Prop) : Prop where
  vtbl : ∃ vtbl, alloc.vtbl = some vtbl ∧ vtbl.realloc = none
  fresh : ∀ {size s blk s'}, size ≠ 0#64 → doalloc alloc size s = .ok (blk, s') →
    blk.ptr ≠ 0#64 → size ≤ blk.size ∧ live s'.own blk ∧ ∀ b, live s.own b → b.Disjoint blk
  keeps : ∀ {size s blk s' b}, size ≠ 0#64 → doalloc alloc size s = .ok (blk, s') →
    live s.own b → live s'.own b ∧ SameBytes b s.bytes s'.bytes
  frees : ∀ {s mem}, live s.own mem → ∃ s', dofree alloc mem s = .ok s' ∧
    ∀ b, live s.own b → b.Disjoint mem → live s'.own b ∧ SameBytes b s.bytes s'.bytes

/-- The same allocator with a free that does nothing. What `krealloc` leaves with it is what
`krealloc` itself has done, before the old block is freed. -/
def Allocator.withoutFree {σ : Type} (alloc : Allocator σ) : Allocator σ :=
  { alloc with vtbl := alloc.vtbl.map fun vtbl => { vtbl with free := none } }

/-- The memory just before the old block is freed is that after `alloc`, changed in the new block
only. The new block holds the bytes of the old one, as far as both go, and no other live block is
touched by the whole call. -/
structure KreallocMoves (alloc : Allocator (Heap α)) (live : α → Blk → Prop) (s : Heap α)
    (mem : Blk) (size : Size) (blk : Blk) (s₁ s₂ s' : Heap α) : Prop where
  call : krealloc alloc mem size s = .ok (blk, s')
  beforeFree : krealloc alloc.withoutFree mem size s = .ok (blk, s₂)
  freed : dofree alloc mem s₂ = .ok s'
  own : s₂.own = s₁.own
  frame : ∀ x, ¬ blk.Holds x → s₂.bytes x = s₁.bytes x
  contents : ∀ i < min mem.size.toNat size.toNat,
    s'.bytes (blk.ptr + BitVec.ofNat 64 i) = s.bytes (mem.ptr + BitVec.ofNat 64 i)
  allocated : live s'.own blk
  others : ∀ b, live s.own b → b.Disjoint mem → live s'.own b ∧ SameBytes b s.bytes s'.bytes

/-- A call returns whenever `alloc` does, and without a block the old one is as it was. -/
structure KreallocOk (alloc : Allocator (Heap α)) (live : α → Blk → Prop) (s : Heap α) (mem : Blk)
    (size : Size) : Prop where
  moved : ∀ {blk s₁}, doalloc alloc size s = .ok (blk, s₁) → blk.ptr ≠ 0#64 →
    ∃ s₂ s', KreallocMoves alloc live s mem size blk s₁ s₂ s'
  failed : ∀ {blk s₁}, doalloc alloc size s = .ok (blk, s₁) → blk.ptr = 0#64 →
    krealloc alloc mem size s = .ok (nullBlk, s₁) ∧ live s₁.own mem ∧
      SameBytes mem s.bytes s₁.bytes

/-- What the old block holds past the size of the new one is what lies behind the new one. -/
def TailAgrees (m : ByteMemory) (mem blk : Blk) : Prop :=
  ∀ i, blk.size.toNat ≤ i → i < mem.size.toNat →
    m (mem.ptr + BitVec.ofNat 64 i) = m (blk.ptr + BitVec.ofNat 64 i)

theorem tailAgrees_of_le {m : ByteMemory} {mem blk : Blk} (h : mem.size ≤ blk.size) :
    TailAgrees m mem blk := by
  intro i hlo hhi
  rw [BitVec.le_def] at h
  omega

section Krealloc

variable {alloc : Allocator (Heap α)} {live : α → Blk → Prop} {s s₁ : Heap α} {mem blk : Blk}
  {size : Size}

theorem memcpy_disjoint (h : mem.Disjoint blk) (hpos : 0 < blk.size.toNat) (m : ByteMemory)
    (x : Uintptr) : memcpy m blk.ptr mem.ptr mem.size x =
      if offset blk.ptr x < mem.size.toNat then
        m (mem.ptr + BitVec.ofNat 64 (offset blk.ptr x)) else m x := by
  have hsize := mem.size.isLt
  apply copy_apart (by omega)
  right
  by_contra hlt
  apply h blk.ptr (Nat.not_le.mp hlt)
  rw [Blk.Holds, offset_self]
  exact hpos

theorem doalloc_withoutFree (alloc : Allocator (Heap α)) (size : Size) (s : Heap α) :
    doalloc alloc.withoutFree size s = doalloc alloc size s := by
  obtain ⟨self, _ | vtbl⟩ := alloc <;> rfl

theorem dofree_withoutFree (ha : FreshAllocator alloc live) (mem : Blk) (s : Heap α) :
    dofree alloc.withoutFree mem s = .ok s := by
  obtain ⟨vtbl, hv, -⟩ := ha.vtbl
  simp [dofree, Allocator.withoutFree, hv]

theorem krealloc_eq (hvtbl : ∃ vtbl, alloc.vtbl = some vtbl ∧ vtbl.realloc = none)
    (hsize : size ≠ 0#64) (hmem : mem.ptr ≠ 0#64) (hd : doalloc alloc size s = .ok (blk, s₁)) :
    krealloc alloc mem size s = if blk.ptr = 0#64 then .ok (nullBlk, s₁)
      else (dofree alloc mem
        { s₁ with bytes := memcpy s₁.bytes blk.ptr mem.ptr mem.size }).map (blk, ·) := by
  obtain ⟨vtbl, hv, hr⟩ := hvtbl
  by_cases hz : blk.ptr = 0#64
  · simp [krealloc, kreallocCopy, hsize, hmem, hv, hr, hd, hz, nullBlk]
  · simp only [krealloc, kreallocCopy, hsize, hmem, hv, hr, hd, hz, if_false]
    cases dofree alloc mem { s₁ with bytes := memcpy s₁.bytes blk.ptr mem.ptr mem.size } <;> rfl

theorem FreshAllocator.pos (ha : FreshAllocator alloc live) (hsize : size ≠ 0#64)
    (h : doalloc alloc size s = .ok (blk, s₁)) (hne : blk.ptr ≠ 0#64) :
    0 < blk.size.toNat ∧ size.toNat ≤ blk.size.toNat := by
  have hle := (ha.fresh hsize h hne).1
  rw [BitVec.le_def] at hle
  have hpos : size.toNat ≠ 0 := fun hz => hsize (BitVec.eq_of_toNat_eq (by simpa using hz))
  omega

theorem krealloc_withoutFree (ha : FreshAllocator alloc live) (hsize : size ≠ 0#64)
    (hmem : mem.ptr ≠ 0#64) (hd : doalloc alloc size s = .ok (blk, s₁)) (hne : blk.ptr ≠ 0#64) :
    krealloc alloc.withoutFree mem size s =
      .ok (blk, { s₁ with bytes := memcpy s₁.bytes blk.ptr mem.ptr mem.size }) := by
  obtain ⟨vtbl, hv, hr⟩ := ha.vtbl
  have hvtbl : ∃ vtbl, alloc.withoutFree.vtbl = some vtbl ∧ vtbl.realloc = none := by
    simp [Allocator.withoutFree, hv, hr]
  rw [krealloc_eq hvtbl hsize hmem ((doalloc_withoutFree alloc size s).trans hd), if_neg hne,
    dofree_withoutFree ha]
  rfl

theorem FreshAllocator.copied (ha : FreshAllocator alloc live) (hsize : size ≠ 0#64)
    (hlive : live s.own mem) (hd : doalloc alloc size s = .ok (blk, s₁)) (hne : blk.ptr ≠ 0#64) :
    ∀ i < min mem.size.toNat size.toNat,
      memcpy s₁.bytes blk.ptr mem.ptr mem.size (blk.ptr + BitVec.ofNat 64 i) =
        s.bytes (mem.ptr + BitVec.ofNat 64 i) := by
  intro i hi
  have hm := mem.size.isLt
  obtain ⟨hpos, hle⟩ := ha.pos hsize hd hne
  obtain ⟨-, -, hdisj⟩ := ha.fresh hsize hd hne
  have hold : mem.Holds (mem.ptr + BitVec.ofNat 64 i) := by
    rw [Blk.Holds, offset_add _ (by omega)]
    omega
  have hcopied := memcpy_disjoint (hdisj mem hlive) hpos s₁.bytes (blk.ptr + BitVec.ofNat 64 i)
  rw [offset_add _ (by omega), if_pos (by omega)] at hcopied
  rw [hcopied]
  exact (ha.keeps hsize hd hlive).2 _ hold

theorem FreshAllocator.frame_iff (ha : FreshAllocator alloc live) (hsize : size ≠ 0#64)
    (hlive : live s.own mem) (hd : doalloc alloc size s = .ok (blk, s₁)) (hne : blk.ptr ≠ 0#64) :
    (∀ x, ¬ blk.Holds x → memcpy s₁.bytes blk.ptr mem.ptr mem.size x = s₁.bytes x) ↔
      TailAgrees s₁.bytes mem blk := by
  have hm := mem.size.isLt
  have hpos := (ha.pos hsize hd hne).1
  have hdisj := (ha.fresh hsize hd hne).2.2 mem hlive
  constructor
  · intro hframe i hlo hhi
    have hout : ¬ blk.Holds (blk.ptr + BitVec.ofNat 64 i) := by
      rw [Blk.Holds, offset_add _ (by omega)]
      omega
    have hx := hframe _ hout
    rw [memcpy_disjoint hdisj hpos, offset_add _ (by omega), if_pos hhi] at hx
    exact hx
  · intro htail x hx
    rw [memcpy_disjoint hdisj hpos]
    split
    · rename_i hlt
      have ht := htail _ (Nat.not_lt.mp hx) hlt
      rw [add_offset] at ht
      exact ht
    · rfl

theorem FreshAllocator.moves (ha : FreshAllocator alloc live) (hsize : size ≠ 0#64)
    (hmem : mem.ptr ≠ 0#64) (hlive : live s.own mem) (hd : doalloc alloc size s = .ok (blk, s₁))
    (hne : blk.ptr ≠ 0#64) (htail : TailAgrees s₁.bytes mem blk) :
    ∃ s₂ s', KreallocMoves alloc live s mem size blk s₁ s₂ s' := by
  obtain ⟨hpos, hle⟩ := ha.pos hsize hd hne
  obtain ⟨-, hblk, hdisj⟩ := ha.fresh hsize hd hne
  have hframe := (ha.frame_iff hsize hlive hd hne).mpr htail
  obtain ⟨s', hfree, hkeep⟩ := ha.frees (s := { s₁ with
    bytes := memcpy s₁.bytes blk.ptr mem.ptr mem.size }) (ha.keeps hsize hd hlive).1
  have hcall : krealloc alloc mem size s = .ok (blk, s') := by
    rw [krealloc_eq ha.vtbl hsize hmem hd, if_neg hne, hfree]
    rfl
  obtain ⟨hlive', hsame⟩ := hkeep blk hblk fun x hx hx' => hdisj mem hlive x hx' hx
  refine ⟨_, s', hcall, krealloc_withoutFree ha hsize hmem hd hne, hfree, rfl, hframe, ?_, hlive',
    ?_⟩
  · intro i hi
    have hin : blk.Holds (blk.ptr + BitVec.ofNat 64 i) := by
      have hb := blk.size.isLt
      rw [Blk.Holds, offset_add _ (by omega)]
      omega
    rw [hsame _ hin]
    exact ha.copied hsize hlive hd hne i hi
  · intro b hb hapart
    obtain ⟨hb₁, hsame₁⟩ := ha.keeps hsize hd hb
    obtain ⟨hb', hsame'⟩ := hkeep b hb₁ hapart
    refine ⟨hb', fun x hx => ?_⟩
    calc s'.bytes x = memcpy s₁.bytes blk.ptr mem.ptr mem.size x := hsame' x hx
      _ = s₁.bytes x := hframe x (hdisj b hb x hx)
      _ = s.bytes x := hsame₁ x hx

/-- Reallocation keeps its promise for every block no longer than the new one, and otherwise only
if the bytes that it copies too many are there already. -/
theorem krealloc_keeps_memory (ha : FreshAllocator alloc live) (hsize : size ≠ 0#64)
    (hmem : mem.ptr ≠ 0#64) (hlive : live s.own mem) :
    KreallocOk alloc live s mem size ↔
      ∀ blk s₁, doalloc alloc size s = .ok (blk, s₁) → blk.ptr ≠ 0#64 →
        TailAgrees s₁.bytes mem blk := by
  constructor
  · intro h blk s₁ hd hne
    obtain ⟨s₂, s', hmoves⟩ := h.moved hd hne
    have hsame := hmoves.beforeFree.symm.trans (krealloc_withoutFree ha hsize hmem hd hne)
    cases hsame
    exact (ha.frame_iff hsize hlive hd hne).mp hmoves.frame
  · intro h
    constructor
    · intro blk s₁ hd hne
      exact ha.moves hsize hmem hlive hd hne (h blk s₁ hd hne)
    · intro blk s₁ hd hz
      rw [krealloc_eq ha.vtbl hsize hmem hd, if_pos hz]
      exact ⟨rfl, ha.keeps hsize hd hlive⟩

end Krealloc

section Counting

/-- What lies from the number on is free. -/
def countingVtbl : AllocatorVtbl (Heap Nat) :=
  { alloc := some (fun _ size s =>
      if 0 < s.own ∧ s.own + size.toNat ≤ 2 ^ 64 then
        .ok (⟨BitVec.ofNat 64 s.own, size⟩, { s with own := s.own + size.toNat })
      else .ok (nullBlk, s))
    realloc := none
    free := none }

def countingAllocator : Allocator (Heap Nat) := ⟨0#64, some countingVtbl⟩

def liveBelow (next : Nat) (b : Blk) : Prop := b.ptr.toNat + b.size.toNat ≤ next ∧ next ≤ 2 ^ 64

theorem countingAllocator_alloc {size : Size} {s s' : Heap Nat} {blk : Blk}
    (h : doalloc countingAllocator size s = .ok (blk, s')) :
    (0 < s.own ∧ s.own + size.toNat ≤ 2 ^ 64 ∧ blk = ⟨BitVec.ofNat 64 s.own, size⟩ ∧
      s' = { s with own := s.own + size.toNat }) ∨ (blk = nullBlk ∧ s' = s) := by
  unfold doalloc countingAllocator countingVtbl at h
  simp only at h
  split at h
  · rename_i hfit
    cases h
    exact Or.inl ⟨hfit.1, hfit.2, rfl, rfl⟩
  · cases h
    exact Or.inr ⟨rfl, rfl⟩

theorem liveBelow.lt {next : Nat} {b : Blk} (h : liveBelow next b) {x : Uintptr} (hx : b.Holds x) :
    x.toNat < next := by
  obtain ⟨hend, htop⟩ := h
  unfold Blk.Holds offset at hx
  rw [BitVec.toNat_sub] at hx
  omega

theorem liveBelow.grow {next n : Nat} {b : Blk} (h : liveBelow next b) (hn : next + n ≤ 2 ^ 64) :
    liveBelow (next + n) b := by
  obtain ⟨hend, htop⟩ := h
  exact ⟨by omega, hn⟩

theorem countingAllocator_fresh : FreshAllocator countingAllocator liveBelow where
  vtbl := ⟨countingVtbl, rfl, rfl⟩
  fresh := by
    intro size s blk s' hsize h hne
    rcases countingAllocator_alloc h with ⟨hpos, hfit, rfl, rfl⟩ | ⟨rfl, -⟩
    · have hsz : size.toNat ≠ 0 := fun hz => hsize (BitVec.eq_of_toNat_eq (by simpa using hz))
      refine ⟨BitVec.le_def.mpr le_rfl, ?_, ?_⟩
      · simp only [liveBelow, BitVec.toNat_ofNat]
        omega
      · intro b hb x hx hx'
        have hlt := hb.lt hx
        simp only [Blk.Holds, offset, BitVec.toNat_sub, BitVec.toNat_ofNat] at hx'
        omega
    · exact absurd rfl hne
  keeps := by
    intro size s blk s' b hsize h hb
    rcases countingAllocator_alloc h with ⟨-, hfit, -, rfl⟩ | ⟨-, rfl⟩
    · exact ⟨hb.grow hfit, fun x _ => rfl⟩
    · exact ⟨hb, fun x _ => rfl⟩
  frees := by
    intro s mem hmem
    exact ⟨s, rfl, fun b hb _ => ⟨hb, fun x _ => rfl⟩⟩

/-- All below 0x2000 is in use, and the second half of a block at 0x1000 begins with a one. -/
def countingHeap : Heap Nat :=
  { bytes := fun x => if x = 0x1008#64 then 1#8 else 0#8
    own := 0x2000 }

theorem krealloc_keeps_memory_grow :
    KreallocOk countingAllocator liveBelow countingHeap ⟨0x1000#64, 16#64⟩ 32#64 := by
  refine (krealloc_keeps_memory countingAllocator_fresh (by decide) (by decide)
    ⟨by decide, by decide⟩).mpr ?_
  intro blk s₁ h hne
  have hle := (countingAllocator_fresh.fresh (by decide) h hne).1
  apply tailAgrees_of_le
  rw [BitVec.le_def] at hle ⊢
  exact le_trans (by decide) hle

/-- Shrinking a block copies all of it, past the end of the new one. -/
theorem krealloc_shrink_overruns :
    FreshAllocator countingAllocator liveBelow ∧
    liveBelow countingHeap.own ⟨0x1000#64, 16#64⟩ ∧
    (∃ s', krealloc countingAllocator ⟨0x1000#64, 16#64⟩ 8#64 countingHeap =
        .ok (⟨0x2000#64, 8#64⟩, s') ∧
      countingHeap.bytes 0x2008#64 = 0#8 ∧ s'.bytes 0x2008#64 = 1#8) ∧
    ¬ KreallocOk countingAllocator liveBelow countingHeap ⟨0x1000#64, 16#64⟩ 8#64 := by
  refine ⟨countingAllocator_fresh, ⟨by decide, by decide⟩, ⟨_, rfl, rfl, ?_⟩, ?_⟩
  · decide
  · intro h
    have hout : ¬ Blk.Holds ⟨0x2000#64, 8#64⟩ 0x2008#64 := by
      unfold Blk.Holds
      decide
    have hd : doalloc countingAllocator 8#64 countingHeap =
        .ok (⟨0x2000#64, 8#64⟩, { countingHeap with own := 0x2008 }) := rfl
    obtain ⟨s₂, s', hmoves⟩ := h.moved hd (by decide)
    have hsame := hmoves.frame 0x2008#64 hout
    have hcall := hmoves.beforeFree
    rw [krealloc_withoutFree countingAllocator_fresh (by decide) (by decide) hd (by decide)] at hcall
    cases hcall
    exact absurd hsame (by decide)

end Counting

end Ukulele
