import Ukulele.VaddressCalls

/-! `vaddress_allocate` is first fit: it takes the lowest gap that is long enough, and fails only
if there is none.
-/

set_option autoImplicit false

namespace Ukulele
open Chain Intervals

def gapsBehind (hi : Nat) : List (Nat × Nat) → List (Nat × Nat)
  | [] => []
  | r :: l => (r.2, nextStart hi l) :: gapsBehind hi l

def gaps (lo hi : Nat) (l : List (Nat × Nat)) : List (Nat × Nat) :=
  (lo, nextStart hi l) :: gapsBehind hi l

def Wide (size : Nat) (g : Nat × Nat) : Bool := decide (size ≤ g.2 - g.1)

theorem wide_iff {size : Nat} {g : Nat × Nat} : Wide size g = true ↔ size ≤ g.2 - g.1 :=
  decide_eq_true_iff

theorem extendRegions_find (hi size : Nat) (l : List (Nat × Nat)) :
    (extendRegions hi size l).map Prod.fst = ((gapsBehind hi l).find? (Wide size)).map Prod.fst := by
  induction l with
  | nil => rfl
  | cons r l ih =>
    by_cases hw : size ≤ nextStart hi l - r.2
    · simp [extendRegions, gapsBehind, Wide, hw]
    · rw [extendRegions, if_neg hw, Option.map_map, gapsBehind, List.find?_cons_of_neg, ← ih]
      · rfl
      · simpa [Wide] using hw

theorem allocateRegions_find (lo hi size : Nat) (l : List (Nat × Nat)) :
    (allocateRegions lo hi size l).map Prod.fst =
      ((gaps lo hi l).find? (Wide size)).map Prod.fst := by
  by_cases hw : size ≤ nextStart hi l - lo
  · simp [allocateRegions, gaps, Wide, hw]
  · rw [allocateRegions, if_neg hw, gaps, List.find?_cons_of_neg, extendRegions_find]
    simpa [Wide] using hw

theorem gaps_sorted {hi lo : Nat} {l : List (Nat × Nat)} (h : Sorted hi lo l) :
    (gaps lo hi l).Pairwise (fun g g' => g.1 ≤ g'.1) ∧
      ∀ g ∈ gaps lo hi l, lo ≤ g.1 ∧ g.1 ≤ g.2 := by
  induction l generalizing lo with
  | nil => simpa [gaps, gapsBehind] using Sorted.le_nextStart h
  | cons r l ih =>
    obtain ⟨hbegin, hend, hrest⟩ := h
    obtain ⟨hpair, hle⟩ := ih hrest
    have hlo : ∀ g ∈ gaps r.2 hi l, lo ≤ g.1 ∧ g.1 ≤ g.2 := by
      intro g hg
      have := hle g hg
      omega
    constructor
    · exact List.pairwise_cons.mpr ⟨fun g hg => (hlo g hg).1, hpair⟩
    · intro g hg
      rcases List.mem_cons.mp hg with rfl | hg
      · exact ⟨Nat.le_refl lo, hbegin⟩
      · exact hlo g hg

theorem find_isLeast {α β : Type} [Preorder β] {f : α → β} {p : α → Bool} {l : List α} {a : α}
    (hl : l.Pairwise (fun x y => f x ≤ f y)) (ha : l.find? p = some a) :
    IsLeast {b | ∃ x ∈ l, f x = b ∧ p x = true} (f a) := by
  obtain ⟨hpa, before, after, rfl, hbefore⟩ := List.find?_eq_some_iff_append.mp ha
  refine ⟨⟨a, by simp, rfl, hpa⟩, ?_⟩
  intro b hb
  obtain ⟨x, hx, rfl, hpx⟩ := hb
  rcases List.mem_append.mp hx with hx | hx
  · have hno := hbefore x hx
    rw [hpx] at hno
    contradiction
  · rcases List.mem_cons.mp hx with rfl | hx
    · exact le_refl _
    · exact (List.pairwise_cons.mp (List.pairwise_append.mp hl).2.1).1 x hx

def gapBounds (g : Uintptr × Uintptr) : Nat × Nat := (g.1.toNat, g.2.toNat)

def RoomAt (s : VaddressSpace) (size : Size) (p : Uintptr) : Prop :=
  ∃ g ∈ vaddressGaps s, g.1 = p ∧ g.1.toNat + size.toNat ≤ g.2.toNat

section Spaces

variable {s : VaddressSpace}

theorem gapsBehind_map (s : VaddressSpace) {l : List Node} {head : Option Node}
    (hseg : Seg s.nexts head l none) :
    (l.map fun a => ((s.region a).endAt, nextBegin s (s.region a).next)).map gapBounds =
      gapsBehind s.spaceEnd.toNat (l.map (bounds s)) := by
  induction l generalizing head with
  | nil => rfl
  | cons a l ih =>
    obtain ⟨rfl, hrest⟩ := hseg
    have hnext : (s.region a).next = headOr l none := hrest.head_eq
    simp [gapsBehind, gapBounds, bounds, hnext, nextBegin_toNat, ← ih hrest]

theorem VaddressOk.gaps_eq (h : VaddressOk s) :
    (vaddressGaps s).map gapBounds =
      gaps s.spaceBegin.toNat s.spaceEnd.toNat (allocatedRegions s) := by
  obtain ⟨⟨l, u, bs, hheap⟩, -⟩ := h
  have hbehind := gapsBehind_map s hheap.allocated
  have hhead := nextBegin_toNat s l
  rw [← hheap.allocated.head_eq] at hhead
  rw [vaddressGaps, hheap.allocatedRegions_eq, hheap.allocatedNodes_eq, List.map_cons, hbehind,
    gaps, ← hhead]
  rfl

theorem VaddressOk.roomAt_iff (h : VaddressOk s) (size : Size) (p : Uintptr) :
    RoomAt s size p ↔ ∃ g ∈ gaps s.spaceBegin.toNat s.spaceEnd.toNat (allocatedRegions s),
      g.1 = p.toNat ∧ Wide size.toNat g = true := by
  have hle := (gaps_sorted h.sorted).2
  rw [← h.gaps_eq] at hle ⊢
  constructor
  · intro hroom
    obtain ⟨g, hg, hp, hroom⟩ := hroom
    refine ⟨gapBounds g, List.mem_map_of_mem hg, congrArg BitVec.toNat hp, ?_⟩
    rw [wide_iff]
    simp only [gapBounds]
    omega
  · intro hwide
    obtain ⟨g, hg, hp, hroom⟩ := hwide
    obtain ⟨b, hb, rfl⟩ := List.mem_map.mp hg
    have hgap := (hle _ hg).2
    rw [wide_iff] at hroom
    simp only [gapBounds] at hp hroom hgap
    exact ⟨b, hb, BitVec.eq_of_toNat_eq hp, by omega⟩

/-- If there is room, the block is taken at the lowest place for it; otherwise nothing changes. -/
theorem vaddress_allocate_first_fit (h : VaddressOk s) (size : Size) :
    ((∃ p, RoomAt s size p) → ∃ p s', vaddressAllocate s size = some (p, s') ∧
      IsLeast {q | RoomAt s size q} p ∧ VaddressOk s' ∧
      s'.spaceBegin = s.spaceBegin ∧ s'.spaceEnd = s.spaceEnd ∧
      s.spaceBegin.toNat ≤ p.toNat ∧ p.toNat + size.toNat ≤ s.spaceEnd.toNat ∧
      Disjoint (Set.Ico p.toNat (p.toNat + size.toNat)) (cover (allocatedRegions s)) ∧
      cover (allocatedRegions s') =
        cover (allocatedRegions s) ∪ Set.Ico p.toNat (p.toNat + size.toNat)) ∧
    ((∀ p, ¬ RoomAt s size p) → vaddressAllocate s size = some (0#64, s)) := by
  have hfind := allocateRegions_find s.spaceBegin.toNat s.spaceEnd.toNat size.toNat
    (allocatedRegions s)
  have hroom := h.roomAt_iff size
  rcases h.allocate_edits size with ⟨hnone, hnull⟩ | hblock
  · refine ⟨?_, fun _ => hnull⟩
    intro hsome
    obtain ⟨p, hp⟩ := hsome
    obtain ⟨g, hg, -, hwide⟩ := (hroom p).mp hp
    rw [hnone, Option.map_none, eq_comm, Option.map_eq_none_iff, List.find?_eq_none] at hfind
    exact absurd hwide (hfind g hg)
  · obtain ⟨p, s', halloc, hok, hbegin, hend, hregions⟩ := hblock
    have hfits := allocateRegions_fits h.sorted hregions
    rw [hregions, Option.map_some, eq_comm, Option.map_eq_some_iff] at hfind
    obtain ⟨g, hg, hgp⟩ := hfind
    have hleast := find_isLeast (gaps_sorted h.sorted).1 hg
    have hp : RoomAt s size p := (hroom p).mpr ⟨g, List.mem_of_find?_eq_some hg, hgp,
      List.find?_some hg⟩
    refine ⟨fun _ => ⟨p, s', halloc, ⟨hp, ?_⟩, hok, hbegin, hend, hfits.lower, hfits.upper,
      hfits.disjoint, hfits.cover_eq⟩, fun hno => absurd hp (hno p)⟩
    intro q hq
    have hle := hleast.2 ((hroom q).mp hq)
    rw [hgp] at hle
    exact BitVec.le_def.mpr hle

/-- A page fits behind the one region, and nothing longer than the space anywhere. -/
theorem vaddress_allocate_first_fit_example :
    (∃ p s', vaddressAllocate oneRegion 0x1000#64 = some (p, s') ∧
      IsLeast {q | RoomAt oneRegion 0x1000#64 q} p ∧ p = 0x3000#64) ∧
    vaddressAllocate oneRegion 0x9000#64 = some (0#64, oneRegion) := by
  have hgaps : vaddressGaps oneRegion =
      [(0x1000#64, 0x1000#64), (0x3000#64, 0x9000#64)] := by decide +kernel
  constructor
  · have hroom : RoomAt oneRegion 0x1000#64 0x3000#64 := by
      refine ⟨(0x3000#64, 0x9000#64), ?_, rfl, by decide⟩
      rw [hgaps]
      simp
    obtain ⟨p, s', halloc, hleast, -⟩ :=
      (vaddress_allocate_first_fit oneRegion_ok 0x1000#64).1 ⟨_, hroom⟩
    refine ⟨p, s', halloc, hleast, ?_⟩
    have hp : (vaddressAllocate oneRegion 0x1000#64).map Prod.fst = some 0x3000#64 := by
      decide +kernel
    rw [halloc] at hp
    exact Option.some.inj hp
  · apply (vaddress_allocate_first_fit oneRegion_ok 0x9000#64).2
    intro p hroom
    obtain ⟨g, hg, -, hlen⟩ := hroom
    rw [hgaps] at hg
    rcases List.mem_pair.mp hg with rfl | rfl
    · simp at hlen
    · simp at hlen

end Spaces

end Ukulele
