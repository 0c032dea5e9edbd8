import Ukulele.VaddressFirstFit

/-! What the address space manager does with sets of addresses: a block is put at the lowest place
for it, and a freed range is taken out. How the addresses are kept in regions does not show.
-/

set_option autoImplicit false

namespace Ukulele
open Intervals

/-- Where a block of the size fits between `lo` and `hi` without touching what is used. -/
def Places (lo hi : Nat) (used : Set Nat) (size : Nat) : Set Nat :=
  {p | lo ≤ p ∧ p + size ≤ hi ∧ Disjoint (Set.Ico p (p + size)) used}

def NoneEmpty (l : List (Nat × Nat)) : Prop := ∀ r ∈ l, r.1 < r.2

section Regions

variable {lo hi size a e p : Nat} {l l' : List (Nat × Nat)}

theorem exists_gap (hne : NoneEmpty l) (hsize : 0 < size)
    (hp : p ∈ Places lo hi (cover l) size) :
    ∃ g ∈ gaps lo hi l, g.1 ≤ p ∧ Wide size g = true := by
  induction l generalizing lo with
  | nil =>
    obtain ⟨hlo, hhi, -⟩ := hp
    refine ⟨(lo, hi), by simp [gaps, nextStart], hlo, ?_⟩
    rw [wide_iff]
    simp only
    omega
  | cons r l ih =>
    obtain ⟨hlo, hhi, hapart⟩ := hp
    obtain ⟨hr, hne⟩ := List.forall_mem_cons.mp hne
    rw [cover_cons, Set.disjoint_union_right, Set.disjoint_left] at hapart
    by_cases hbefore : p + size ≤ r.1
    · refine ⟨(lo, r.1), by simp [gaps, nextStart], hlo, ?_⟩
      rw [wide_iff]
      simp only
      omega
    · have hbehind : r.2 ≤ p := by
        by_contra hlt
        have hin : max p r.1 ∈ Set.Ico r.1 r.2 := by
          simp only [Set.mem_Ico]
          omega
        apply hapart.1 _ hin
        simp only [Set.mem_Ico]
        omega
      obtain ⟨g, hg, hgp, hwide⟩ := ih hne ⟨hbehind, hhi, hapart.2⟩
      exact ⟨g, List.mem_cons_of_mem _ hg, hgp, hwide⟩

theorem allocateRegions_isLeast (h : Sorted hi lo l) (hne : NoneEmpty l) (hsize : 0 < size)
    (halloc : allocateRegions lo hi size l = some (p, l')) :
    IsLeast (Places lo hi (cover l) size) p := by
  have hfits := allocateRegions_fits h halloc
  have hfind := allocateRegions_find lo hi size l
  rw [halloc, Option.map_some, eq_comm, Option.map_eq_some_iff] at hfind
  obtain ⟨g, hg, rfl⟩ := hfind
  have hleast := find_isLeast (gaps_sorted h).1 hg
  refine ⟨⟨hfits.lower, hfits.upper, hfits.disjoint⟩, ?_⟩
  intro q hq
  obtain ⟨g', hg', hle, hwide⟩ := exists_gap hne hsize hq
  exact (hleast.2 ⟨g', hg', rfl, hwide⟩).trans hle

theorem allocateRegions_none (hne : NoneEmpty l) (hsize : 0 < size)
    (hnone : allocateRegions lo hi size l = none) : Places lo hi (cover l) size = ∅ := by
  have hfind := allocateRegions_find lo hi size l
  rw [hnone, Option.map_none, eq_comm, Option.map_eq_none_iff, List.find?_eq_none] at hfind
  rw [Set.eq_empty_iff_forall_notMem]
  intro q hq
  obtain ⟨g, hg, -, hwide⟩ := exists_gap hne hsize hq
  exact hfind g hg hwide

theorem extendRegions_noneEmpty (hne : NoneEmpty l)
    (he : extendRegions hi size l = some (p, l')) : NoneEmpty l' := by
  induction l generalizing l' with
  | nil => cases he
  | cons r l ih =>
    obtain ⟨hr, hne⟩ := List.forall_mem_cons.mp hne
    simp only [extendRegions] at he
    split at he
    · cases he
      exact List.forall_mem_cons.mpr ⟨Nat.lt_of_lt_of_le hr (Nat.le_add_right _ _), hne⟩
    · obtain ⟨q, hq, heq⟩ := Option.map_eq_some_iff.mp he
      cases heq
      exact List.forall_mem_cons.mpr ⟨hr, ih hne hq⟩

theorem allocateRegions_noneEmpty (hne : NoneEmpty l) (hsize : 0 < size)
    (he : allocateRegions lo hi size l = some (p, l')) : NoneEmpty l' := by
  unfold allocateRegions at he
  split at he
  · cases he
    exact List.forall_mem_cons.mpr ⟨Nat.lt_add_of_pos_right hsize, hne⟩
  · exact extendRegions_noneEmpty hne he

theorem freeRegions_noneEmpty (hne : NoneEmpty l) (hs : ∀ r ∈ l, ¬ ShiftsStart a e r) :
    NoneEmpty (freeRegions a e l) := by
  induction l with
  | nil => exact hne
  | cons r l ih =>
    obtain ⟨hr, hne'⟩ := List.forall_mem_cons.mp hne
    obtain ⟨hno, hs⟩ := List.forall_mem_cons.mp hs
    have hrest := ih hne' hs
    rw [freeRegions_cons]
    split
    · exact hne
    · rename_i hbegin
      intro q hq
      rcases List.mem_append.mp hq with hpiece | hq
      · simp only [ShiftsStart] at hno
        simp only [freeRegion] at hpiece
        split_ifs at hpiece <;> simp only [List.mem_cons, List.not_mem_nil, or_false] at hpiece
        · rwa [hpiece]
        · omega
        · rw [hpiece]
          simp only
          omega
        · rcases hpiece with rfl | rfl
          · simp only
            omega
          · simp only
            omega
      · exact hrest q hq

end Regions

section Runs

variable {spaceBegin spaceEnd : Uintptr} {s : VaddressSpace} {used : Set Nat}

/-- The spaces reached by calls that meet the condition, with the addresses in use: those of the
blocks that were returned, less the ranges that were freed since, whatever blocks these cut. -/
inductive UsedRun (spaceBegin spaceEnd : Uintptr) : VaddressSpace → Set Nat → Prop where
  | new (block : Nat → StorageBlock) (region : Node → AddressRegion) :
      UsedRun spaceBegin spaceEnd (vaddressSpaceNew block region spaceBegin spaceEnd) ∅
  | allocate {s s' : VaddressSpace} {used : Set Nat} {p : Uintptr} {size : Size} :
      UsedRun spaceBegin spaceEnd s used → 0#64 < size → p ≠ 0#64 →
      vaddressAllocate s size = some (p, s') →
      UsedRun spaceBegin spaceEnd s' (used ∪ VaddressBlock.span (p, size))
  | null {s s' : VaddressSpace} {used : Set Nat} {size : Size} :
      UsedRun spaceBegin spaceEnd s used → 0#64 < size →
      vaddressAllocate s size = some (0#64, s') → UsedRun spaceBegin spaceEnd s' used
  | free {s s' : VaddressSpace} {used : Set Nat} {b : VaddressBlock} :
      UsedRun spaceBegin spaceEnd s used → b.1.toNat + b.2.toNat < 2 ^ 64 → NoStartShifted s b →
      vaddressFree s b.1 b.2 = some s' → UsedRun spaceBegin spaceEnd s' (used \ b.span)

structure UsedOk (spaceBegin spaceEnd : Uintptr) (s : VaddressSpace) (used : Set Nat) : Prop where
  ok : VaddressOk s
  begin_eq : s.spaceBegin = spaceBegin
  end_eq : s.spaceEnd = spaceEnd
  noneEmpty : NoneEmpty (allocatedRegions s)
  cover_eq : cover (allocatedRegions s) = used

theorem UsedOk.allocate (h : UsedOk spaceBegin spaceEnd s used) {size : Size}
    (hsize : 0#64 < size) :
    (Places spaceBegin.toNat spaceEnd.toNat used size.toNat = ∅ ∧
      vaddressAllocate s size = some (0#64, s)) ∨
    ∃ p s', vaddressAllocate s size = some (p, s') ∧
      IsLeast (Places spaceBegin.toNat spaceEnd.toNat used size.toNat) p.toNat ∧
      UsedOk spaceBegin spaceEnd s' (used ∪ VaddressBlock.span (p, size)) := by
  obtain ⟨hok, hbegin, hend, hne, hcover⟩ := h
  have hpos : 0 < size.toNat := hsize
  rcases hok.allocate_edits size with hnull | hblock
  · left
    obtain ⟨hnone, hnull⟩ := hnull
    rw [← hbegin, ← hend, ← hcover]
    exact ⟨allocateRegions_none hne hpos hnone, hnull⟩
  · right
    obtain ⟨p, s', halloc, hok', hbegin', hend', hedit⟩ := hblock
    have hleast := allocateRegions_isLeast hok.sorted hne hpos hedit
    have hfits := allocateRegions_fits hok.sorted hedit
    rw [hbegin, hend, hcover] at hleast
    refine ⟨p, s', halloc, hleast, hok', hbegin'.trans hbegin, hend'.trans hend,
      allocateRegions_noneEmpty hne hpos hedit, ?_⟩
    rw [hfits.cover_eq, hcover]
    rfl

theorem UsedOk.free (h : UsedOk spaceBegin spaceEnd s used) {b : VaddressBlock}
    (hwrap : b.1.toNat + b.2.toNat < 2 ^ 64) (hc : NoStartShifted s b) : ∃ s',
      vaddressFree s b.1 b.2 = some s' ∧ UsedOk spaceBegin spaceEnd s' (used \ b.span) := by
  obtain ⟨hok, hbegin, hend, hne, hcover⟩ := h
  obtain ⟨s', hfree, hok', hbegin', hend', hedit⟩ := hok.free hwrap
  refine ⟨s', hfree, hok', hbegin'.trans hbegin, hend'.trans hend, ?_, ?_⟩
  · rw [hedit]
    exact freeRegions_noneEmpty hne hc
  · rw [hedit, cover_freeRegions (Nat.le_add_right _ _) hok.sorted hc, hcover]
    rfl

theorem UsedRun.invariant (hbegin : 0#64 < spaceBegin) (h : spaceBegin ≤ spaceEnd)
    (hrun : UsedRun spaceBegin spaceEnd s used) : UsedOk spaceBegin spaceEnd s used := by
  induction hrun with
  | new block region =>
    have hnone : allocatedRegions (vaddressSpaceNew block region spaceBegin spaceEnd) = [] := by
      obtain ⟨l, u, bs, hheap⟩ := (VaddressOk.new block region h).heap
      cases l with
      | nil => exact hheap.allocatedRegions_eq
      | cons a l =>
        obtain ⟨hfirst, -⟩ := hheap.allocated
        cases hfirst
    refine ⟨VaddressOk.new block region h, rfl, rfl, ?_, ?_⟩
    · simp [hnone, NoneEmpty]
    · simp [hnone]
  | @allocate s s' used p size hrun hsize hp hcall ih =>
    rcases ih.allocate hsize with ⟨-, hnull⟩ | ⟨q, t, halloc, -, hok⟩
    · rw [hnull] at hcall
      cases hcall
      exact absurd rfl hp
    · rw [halloc] at hcall
      cases hcall
      exact hok
  | @null s s' used size hrun hsize hcall ih =>
    rcases ih.allocate hsize with ⟨-, hnull⟩ | ⟨q, t, halloc, hleast, -⟩
    · rw [hnull] at hcall
      cases hcall
      exact ih
    · rw [halloc] at hcall
      cases hcall
      -- a block at address zero would lie before the space
      exact absurd hleast.1.1 (Nat.not_le_of_lt hbegin)
  | @free s s' used b hrun hwrap hc hcall ih =>
    obtain ⟨t, hfree, hok⟩ := ih.free hwrap hc
    rw [hfree] at hcall
    cases hcall
    exact hok

/-- The addresses in use decide where the next block is: at the lowest place for it. -/
theorem vaddress_takes_lowest_place (hbegin : 0#64 < spaceBegin) (h : spaceBegin ≤ spaceEnd)
    (hrun : UsedRun spaceBegin spaceEnd s used) :
    cover (allocatedRegions s) = used ∧ ∀ size : Size, 0#64 < size →
      (Places spaceBegin.toNat spaceEnd.toNat used size.toNat = ∅ ∧
        vaddressAllocate s size = some (0#64, s)) ∨
      ∃ p s', vaddressAllocate s size = some (p, s') ∧
        IsLeast (Places spaceBegin.toNat spaceEnd.toNat used size.toNat) p.toNat ∧
        cover (allocatedRegions s') = used ∪ VaddressBlock.span (p, size) := by
  have hok := hrun.invariant hbegin h
  refine ⟨hok.cover_eq, ?_⟩
  intro size hsize
  rcases hok.allocate hsize with hnull | hblock
  · exact Or.inl hnull
  · obtain ⟨p, s', halloc, hleast, hok'⟩ := hblock
    exact Or.inr ⟨p, s', halloc, hleast, hok'.cover_eq⟩

def vaddressReplies (s : VaddressSpace) : List Size → Option (List Uintptr)
  | [] => some []
  | size :: sizes =>
    match vaddressAllocate s size with
    | none => none
    | some (p, s) => (vaddressReplies s sizes).map (p :: ·)

theorem UsedOk.replies {t : VaddressSpace} (hs : UsedOk spaceBegin spaceEnd s used)
    (ht : UsedOk spaceBegin spaceEnd t used) {sizes : List Size}
    (hsizes : ∀ size ∈ sizes, 0#64 < size) :
    ∃ ps, vaddressReplies s sizes = some ps ∧ vaddressReplies t sizes = some ps := by
  induction sizes generalizing s t used with
  | nil => exact ⟨[], rfl, rfl⟩
  | cons size sizes ih =>
    obtain ⟨hsize, hsizes⟩ := List.forall_mem_cons.mp hsizes
    rcases hs.allocate hsize with ⟨hempty, hnull⟩ | ⟨p, s', halloc, hleast, hok⟩
    · rcases ht.allocate hsize with ⟨-, hnull'⟩ | ⟨q, t', -, hleast', -⟩
      · obtain ⟨ps, hps, hps'⟩ := ih hs ht hsizes
        exact ⟨0#64 :: ps, by simp [vaddressReplies, hnull, hps],
          by simp [vaddressReplies, hnull', hps']⟩
      · rw [hempty] at hleast'
        exact absurd hleast'.1 (Set.notMem_empty _)
    · rcases ht.allocate hsize with ⟨hempty, -⟩ | ⟨q, t', halloc', hleast', hok'⟩
      · rw [hempty] at hleast
        exact absurd hleast.1 (Set.notMem_empty _)
      · obtain rfl : p = q := BitVec.eq_of_toNat_eq (hleast.unique hleast')
        obtain ⟨ps, hps, hps'⟩ := ih hok hok' hsizes
        exact ⟨p :: ps, by simp [vaddressReplies, halloc, hps],
          by simp [vaddressReplies, halloc', hps']⟩

/-- Two spaces with the same addresses in use give the same blocks, whatever happened to them
before and however their regions are cut. -/
theorem vaddress_replies_follow_use {t : VaddressSpace} (hbegin : 0#64 < spaceBegin)
    (h : spaceBegin ≤ spaceEnd) (hs : UsedRun spaceBegin spaceEnd s used)
    (ht : UsedRun spaceBegin spaceEnd t used) {sizes : List Size}
    (hsizes : ∀ size ∈ sizes, 0#64 < size) :
    ∃ ps, vaddressReplies s sizes = some ps ∧ vaddressReplies t sizes = some ps :=
  (hs.invariant hbegin h).replies (ht.invariant hbegin h) hsizes

def allocatedSpace (s : VaddressSpace) (size : Size) : VaddressSpace :=
  ((vaddressAllocate s size).getD (0#64, s)).2

def freedSpace (s : VaddressSpace) (b : VaddressBlock) : VaddressSpace :=
  (vaddressFree s b.1 b.2).getD s

theorem UsedRun.take (h : UsedRun spaceBegin spaceEnd s used) {p : Uintptr} {size : Size}
    (hsize : 0#64 < size) (hp : p ≠ 0#64)
    (ha : (vaddressAllocate s size).map Prod.fst = some p) :
    UsedRun spaceBegin spaceEnd (allocatedSpace s size) (used ∪ VaddressBlock.span (p, size)) := by
  apply h.allocate hsize hp
  obtain ⟨⟨q, t⟩, hq, rfl⟩ := Option.map_eq_some_iff.mp ha
  simp only [allocatedSpace, hq, Option.getD_some]

theorem UsedRun.give (h : UsedRun spaceBegin spaceEnd s used) {b : VaddressBlock}
    (hwrap : b.1.toNat + b.2.toNat < 2 ^ 64) (hc : NoStartShifted s b)
    (hf : (vaddressFree s b.1 b.2).isSome) :
    UsedRun spaceBegin spaceEnd (freedSpace s b) (used \ b.span) := by
  apply h.free hwrap hc
  obtain ⟨t, ht⟩ := Option.isSome_iff_exists.mp hf
  simp only [freedSpace, ht, Option.getD_some]

/-- Three pages, the middle one freed and then the first, and two pages in their place. -/
def threePagesCut : VaddressSpace :=
  allocatedSpace (freedSpace (freedSpace (allocatedSpace freshSpace 0x3000#64)
    (0x2000#64, 0x1000#64)) (0x1000#64, 0x1000#64)) 0x2000#64

example : allocatedRegions threePagesCut = [(0x1000, 0x3000), (0x3000, 0x4000)] := by
  decide +kernel

theorem threePages_run : UsedRun 0x1000#64 0x9000#64 (allocatedSpace freshSpace 0x3000#64)
    (∅ ∪ VaddressBlock.span (0x1000#64, 0x3000#64)) :=
  (UsedRun.new _ _).take (by decide) (by decide) (by decide +kernel)

theorem threePagesCut_run : UsedRun 0x1000#64 0x9000#64 threePagesCut
    (∅ ∪ VaddressBlock.span (0x1000#64, 0x3000#64)) := by
  have hmiddle := threePages_run.give (b := (0x2000#64, 0x1000#64)) (by decide) (by decide +kernel)
    (by decide +kernel)
  have hfirst := hmiddle.give (b := (0x1000#64, 0x1000#64)) (by decide) (by decide +kernel)
    (by decide +kernel)
  have hcut := hfirst.take (by decide : 0#64 < 0x2000#64) (by decide : 0x1000#64 ≠ 0#64)
    (by decide +kernel)
  have huse : ∅ ∪ VaddressBlock.span (0x1000#64, 0x3000#64) =
      ((∅ ∪ VaddressBlock.span (0x1000#64, 0x3000#64)) \
        VaddressBlock.span (0x2000#64, 0x1000#64)) \ VaddressBlock.span (0x1000#64, 0x1000#64) ∪
          VaddressBlock.span (0x1000#64, 0x2000#64) := by
    ext x
    simp [VaddressBlock.span]
    omega
  rw [huse]
  exact hcut

end Runs

/-- The page behind the three is next, also where they are in two regions. -/
theorem vaddress_takes_lowest_place_example :
    ∃ p s', vaddressAllocate threePagesCut 0x1000#64 = some (p, s') ∧ p = 0x4000#64 ∧
      IsLeast (Places 0x1000 0x9000 (∅ ∪ VaddressBlock.span (0x1000#64, 0x3000#64)) 0x1000)
        p.toNat := by
  have hreply : (vaddressAllocate threePagesCut 0x1000#64).map Prod.fst = some 0x4000#64 := by
    decide +kernel
  have hnext := (vaddress_takes_lowest_place (by decide) (by decide) threePagesCut_run).2
    0x1000#64 (by decide)
  rcases hnext with ⟨-, hnull⟩ | ⟨p, s', halloc, hleast, -⟩
  · rw [hnull] at hreply
    cases hreply
  · rw [halloc] at hreply
    exact ⟨p, s', halloc, Option.some.inj hreply, hleast⟩

theorem vaddress_replies_follow_use_example : ∃ ps,
    vaddressReplies (allocatedSpace freshSpace 0x3000#64) [0x5000#64, 0x5000#64] = some ps ∧
    vaddressReplies threePagesCut [0x5000#64, 0x5000#64] = some ps :=
  vaddress_replies_follow_use (by decide) (by decide) threePages_run threePagesCut_run (by simp)

end Ukulele
