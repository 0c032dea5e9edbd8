import Ukulele.VaddressLists

/-! Allocation as an edit of the regions, and whole runs of the address space manager. -/

set_option autoImplicit false

namespace Ukulele
open Chain Intervals

theorem nextBegin_toNat (s : VaddressSpace) (l : List Node) :
    (nextBegin s (headOr l none)).toNat = nextStart s.spaceEnd.toNat (l.map (bounds s)) := by
  cases l <;> rfl

theorem size_le_sub_iff {size a b : BitVec 64} (h : a.toNat ≤ b.toNat) :
    size ≤ b - a ↔ size.toNat ≤ b.toNat - a.toNat := by
  have hb := b.isLt
  rw [BitVec.le_def, BitVec.toNat_sub_of_le (BitVec.le_def.mpr h)]

theorem toNat_add_of_le {a size b : BitVec 64} (h : size.toNat ≤ b.toNat - a.toNat)
    (hle : a.toNat ≤ b.toNat) : (a + size).toNat = a.toNat + size.toNat := by
  have hb := b.isLt
  rw [BitVec.toNat_add, Nat.mod_eq_of_lt (by omega)]

theorem vaddressAllocateLoop_spec (s : VaddressSpace) (size : Size) (rest : List Node) :
    ∀ (lo fuel : Nat), rest.Nodup → Seg s.nexts (headOr rest none) rest none →
      Sorted s.spaceEnd.toNat lo (rest.map (bounds s)) → rest.length < fuel →
      (extendRegions s.spaceEnd.toNat size.toNat (rest.map (bounds s)) = none ∧
        vaddressAllocateLoop s size fuel (headOr rest none) = some (0#64, s)) ∨
      ∃ a ∈ rest, ∃ x : Uintptr,
        vaddressAllocateLoop s size fuel (headOr rest none) =
          some ((s.region a).endAt, s.setRegion a { s.region a with endAt := x }) ∧
        extendRegions s.spaceEnd.toNat size.toNat (rest.map (bounds s)) =
          some ((s.region a).endAt.toNat,
            rest.map (bounds (s.setRegion a { s.region a with endAt := x }))) := by
  induction rest with
  | nil =>
    intro lo fuel _ _ _ hf
    cases fuel with
    | zero => simp at hf
    | succ fuel => exact Or.inl ⟨rfl, rfl⟩
  | cons a rest ih =>
    intro lo fuel hn hseg hsort hf
    cases fuel with
    | zero => simp at hf
    | succ fuel =>
      obtain ⟨hnr, hn⟩ := List.nodup_cons.mp hn
      have hnext : (s.region a).next = headOr rest none := hseg.2.head_eq
      have hchain : Seg s.nexts (headOr rest none) rest none := by
        rw [← hnext]
        exact hseg.2
      have hsorted : Sorted s.spaceEnd.toNat (s.region a).endAt.toNat (rest.map (bounds s)) :=
        hsort.2.2
      have hgap := Sorted.le_nextStart hsorted
      rw [← nextBegin_toNat] at hgap
      have htest : size ≤ _ ↔ _ := size_le_sub_iff hgap
      have hba : (bounds s a).2 = (s.region a).endAt.toNat := rfl
      simp only [headOr_cons, vaddressAllocateLoop, List.map_cons, extendRegions, hnext, hba]
      by_cases hs : size.toNat ≤
          (nextBegin s (headOr rest none)).toNat - (s.region a).endAt.toNat
      · right
        refine ⟨a, List.mem_cons_self, (s.region a).endAt + size, ?_, ?_⟩
        · rw [if_pos (htest.mpr hs), hnext]
        · rw [← nextBegin_toNat, if_pos hs, bounds_setEnd, toNat_add_of_le hs hgap,
            map_bounds_congr]
          · rfl
          · intro b hb
            rw [bounds_setRegion_ne]
            rintro rfl
            exact hnr hb
      · rw [if_neg (fun h => hs (htest.mp h)), ← nextBegin_toNat, if_neg hs]
        rcases ih _ fuel hn hchain hsorted (by simpa using hf) with ⟨hnone, hloop⟩ | hext
        · left
          exact ⟨by rw [hnone]; rfl, hloop⟩
        · right
          obtain ⟨b, hb, x, hloop, hsome⟩ := hext
          have hab : a ≠ b := by
            rintro rfl
            exact hnr hb
          refine ⟨b, List.mem_cons_of_mem _ hb, x, hloop, ?_⟩
          rw [hsome, bounds_setRegion_ne _ _ hab]
          rfl

def VaddressSpace.pushHead (t : VaddressSpace) (n : Node) (freeBegin : Uintptr) (size : Size) :
    VaddressSpace :=
  { t.setRegion n ⟨t.allocated, freeBegin, freeBegin + size⟩ with allocated := some n }

theorem Popped.pushHead {s t : VaddressSpace} {l u u' : List Node} {bs bs' : List Nat} {n : Node}
    (h : HeapOk s l u bs) (hp : Popped s l n t u' bs') (freeBegin : Uintptr) (size : Size) :
    HeapOk (t.pushHead n freeBegin size) (n :: l) u' bs' := by
  obtain ⟨hn, -⟩ := List.nodup_cons.mp hp.store.nodup
  rw [List.mem_append, not_or] at hn
  have hkeep : ∀ b, b ≠ n → (t.pushHead n freeBegin size).nexts b = t.nexts b := by
    intro b hb
    simp only [VaddressSpace.nexts, VaddressSpace.pushHead, setRegion_ne _ _ hb]
  have hself : (t.pushHead n freeBegin size).nexts n = s.allocated := by
    simp [VaddressSpace.nexts, VaddressSpace.pushHead, hp.allocated_eq]
  refine ⟨hp.store.congr (List.Perm.refl _) rfl rfl rfl, ⟨rfl, ?_⟩, ?_⟩
  · rw [hself]
    apply h.allocated.congr
    intro b hb
    have hbn : b ≠ n := by
      rintro rfl
      exact hn.1 hb
    rw [hkeep b hbn]
    simp only [VaddressSpace.nexts, hp.region_eq b hb]
  · apply hp.unused.congr
    intro b hb
    apply hkeep
    rintro rfl
    exact hn.2 hb

theorem Popped.pushHead_bounds {s t : VaddressSpace} {l u' : List Node} {bs' : List Nat}
    {n : Node} (hp : Popped s l n t u' bs') (freeBegin : Uintptr) (size : Size) :
    (n :: l).map (bounds (t.pushHead n freeBegin size)) =
      (freeBegin.toNat, (freeBegin + size).toNat) :: l.map (bounds s) := by
  obtain ⟨hn, -⟩ := List.nodup_cons.mp hp.store.nodup
  rw [List.mem_append, not_or] at hn
  rw [List.map_cons]
  congr 1
  · simp [bounds, VaddressSpace.pushHead]
  · apply map_bounds_congr
    intro b hb
    have hbn : b ≠ n := by
      rintro rfl
      exact hn.1 hb
    simp only [bounds, VaddressSpace.pushHead, setRegion_ne _ _ hbn, hp.region_eq b hb]

/-- `vaddress_allocate` returns: `NULL` with nothing changed, or a block, with the regions
edited as `allocateRegions` edits them. -/
theorem vaddressAllocate_spec {s : VaddressSpace} {l u : List Node} {bs : List Nat}
    (h : HeapOk s l u bs)
    (hs : Sorted s.spaceEnd.toNat s.spaceBegin.toNat (l.map (bounds s))) (size : Size) :
    (allocateRegions s.spaceBegin.toNat s.spaceEnd.toNat size.toNat (l.map (bounds s)) = none ∧
      vaddressAllocate s size = some (0#64, s)) ∨
    ∃ p s' l' u' bs', vaddressAllocate s size = some (p, s') ∧ ListStep s s' l' u' bs' ∧
      allocateRegions s.spaceBegin.toNat s.spaceEnd.toNat size.toNat (l.map (bounds s)) =
        some (p.toNat, l'.map (bounds s')) := by
  have hhead : s.allocated = headOr l none := h.allocated.head_eq
  have hgap := Sorted.le_nextStart hs
  rw [← nextBegin_toNat, ← hhead] at hgap
  have htest : size ≤ _ ↔ _ := size_le_sub_iff hgap
  unfold vaddressAllocate allocateRegions
  by_cases hfit : size.toNat ≤ (nextBegin s s.allocated).toNat - s.spaceBegin.toNat
  · right
    obtain ⟨n, t, u', bs', hfind, hp, -⟩ := findFreeNode_spec h
    refine ⟨s.spaceBegin, t.pushHead n s.spaceBegin size, n :: l, u', bs', ?_,
      ⟨hp.pushHead h s.spaceBegin size, hp.begin_eq, hp.end_eq⟩, ?_⟩
    · simp only [htest.mpr hfit, if_true, hfind]
      rfl
    · rw [← nextBegin_toNat, ← hhead, if_pos hfit, hp.pushHead_bounds,
        toNat_add_of_le hfit hgap]
  · have hno : ¬ size ≤ nextBegin s s.allocated - s.spaceBegin := fun h => hfit (htest.mp h)
    simp only [hno, if_false]
    rw [← nextBegin_toNat, ← hhead, if_neg hfit]
    have hf : l.length < s.slots + 1 := Nat.lt_succ_of_le h.length_le
    have hseg := h.allocated
    rw [hhead] at hseg ⊢
    rcases vaddressAllocateLoop_spec s size l _ _ h.nodup_left hseg hs hf with hnone | hext
    · exact Or.inl hnone
    · right
      obtain ⟨a, -, x, hloop, hsome⟩ := hext
      exact ⟨_, _, l, u, bs, hloop, ⟨h.setEnd a x, rfl, rfl⟩, hsome⟩

/-- A space whose lists are well formed and whose regions are sorted inside it. -/
structure VaddressOk (s : VaddressSpace) : Prop where
  heap : ∃ l u bs, HeapOk s l u bs
  sorted : Sorted s.spaceEnd.toNat s.spaceBegin.toNat (allocatedRegions s)

theorem HeapOk.allocatedRegions_eq {s : VaddressSpace} {l u : List Node} {bs : List Nat}
    (h : HeapOk s l u bs) : allocatedRegions s = l.map (bounds s) := by
  rw [allocatedRegions, h.allocatedNodes_eq]

theorem VaddressOk.free {s : VaddressSpace} (h : VaddressOk s) {address : Uintptr} {size : Size}
    (hwrap : address.toNat + size.toNat < 2 ^ 64) :
    ∃ s', vaddressFree s address size = some s' ∧ VaddressOk s' ∧
      s'.spaceBegin = s.spaceBegin ∧ s'.spaceEnd = s.spaceEnd ∧
      allocatedRegions s' =
        freeRegions address.toNat (address.toNat + size.toNat) (allocatedRegions s) := by
  obtain ⟨⟨l, u, bs, hheap⟩, hsort⟩ := h
  obtain ⟨s', l', u', bs', hfree, hstep, hmap⟩ := vaddressFree_spec hheap address size
  have hend : (address + size).toNat = address.toNat + size.toNat := by
    rw [BitVec.toNat_add, Nat.mod_eq_of_lt hwrap]
  rw [hend, ← hheap.allocatedRegions_eq, ← hstep.heap.allocatedRegions_eq] at hmap
  refine ⟨s', hfree, ⟨⟨l', u', bs', hstep.heap⟩, ?_⟩, hstep.begin_eq, hstep.end_eq, hmap⟩
  rw [hmap, hstep.begin_eq, hstep.end_eq]
  exact freeRegions_sorted (Nat.le_add_right _ _) hsort

theorem VaddressOk.allocate_edits {s : VaddressSpace} (h : VaddressOk s) (size : Size) :
    (allocateRegions s.spaceBegin.toNat s.spaceEnd.toNat size.toNat (allocatedRegions s) = none ∧
      vaddressAllocate s size = some (0#64, s)) ∨
    ∃ p s', vaddressAllocate s size = some (p, s') ∧ VaddressOk s' ∧
      s'.spaceBegin = s.spaceBegin ∧ s'.spaceEnd = s.spaceEnd ∧
      allocateRegions s.spaceBegin.toNat s.spaceEnd.toNat size.toNat (allocatedRegions s) =
        some (p.toNat, allocatedRegions s') := by
  obtain ⟨⟨l, u, bs, hheap⟩, hsort⟩ := h
  rw [hheap.allocatedRegions_eq] at hsort ⊢
  rcases vaddressAllocate_spec hheap hsort size with hnull | hblock
  · exact Or.inl hnull
  · right
    obtain ⟨p, s', l', u', bs', halloc, hstep, hmap⟩ := hblock
    rw [← hstep.heap.allocatedRegions_eq] at hmap
    refine ⟨p, s', halloc, ⟨⟨l', u', bs', hstep.heap⟩, ?_⟩, hstep.begin_eq, hstep.end_eq, hmap⟩
    rw [hstep.begin_eq, hstep.end_eq]
    exact (allocateRegions_fits hsort hmap).sorted

theorem VaddressOk.allocate {s : VaddressSpace} (h : VaddressOk s) (size : Size) :
    vaddressAllocate s size = some (0#64, s) ∨
    ∃ p s', vaddressAllocate s size = some (p, s') ∧ VaddressOk s' ∧
      s'.spaceBegin = s.spaceBegin ∧ s'.spaceEnd = s.spaceEnd ∧
      Fits s.spaceBegin.toNat s.spaceEnd.toNat size.toNat (allocatedRegions s) p.toNat
        (allocatedRegions s') := by
  rcases h.allocate_edits size with hnull | hblock
  · exact Or.inl hnull.2
  · right
    obtain ⟨p, s', halloc, hok, hbegin, hend, hmap⟩ := hblock
    exact ⟨p, s', halloc, hok, hbegin, hend, allocateRegions_fits h.sorted hmap⟩

/-- `vaddress_free` removes exactly the freed interval when no region starts in the interval,
or at its end, and ends after it. -/
theorem vaddress_free_removes_interval {s : VaddressSpace} (h : VaddressOk s) (address : Uintptr)
    (size : Size) (hwrap : address.toNat + size.toNat < 2 ^ 64) :
    (∃ s', vaddressFree s address size = some s' ∧
      cover (allocatedRegions s') =
        cover (allocatedRegions s) \ Set.Ico address.toNat (address.toNat + size.toNat)) ↔
    ∀ r ∈ allocatedRegions s, ¬ ShiftsStart address.toNat (address.toNat + size.toNat) r := by
  obtain ⟨s', hfree, -, -, -, hregions⟩ := h.free hwrap
  have hiff := cover_freeRegions_iff (Nat.le_add_right address.toNat size.toNat) h.sorted
  constructor
  · intro ⟨t, ht, hcover⟩
    rw [hfree, Option.some.injEq] at ht
    subst t
    rw [hregions] at hcover
    exact hiff.mp hcover
  · intro hs
    refine ⟨s', hfree, ?_⟩
    rw [hregions]
    exact hiff.mpr hs

def oneRegion : VaddressSpace :=
  { storage := some 1, allocated := some ⟨1, 0⟩, unused := none, spaceBegin := 0x1000#64,
    spaceEnd := 0x9000#64, block := fun _ => ⟨none, 1⟩,
    region := fun _ => ⟨none, 0x1000#64, 0x3000#64⟩, pages := 2 }

theorem oneRegion_ok : VaddressOk oneRegion := by
  refine ⟨⟨[⟨1, 0⟩], [], [1], ⟨⟨rfl, rfl⟩, by decide, by decide, ?_, ?_, ?_⟩, ⟨rfl, rfl⟩, rfl⟩,
    by decide +kernel⟩
  · intro a ha
    simp only [List.append_nil, List.mem_singleton] at ha
    subst a
    decide
  · intro b _
    exact (by decide : 1 ≤ regionsPerBlock)
  · intro b hb
    simp only [List.mem_singleton] at hb
    subst b
    decide

theorem vaddress_free_removes_interval_example :
    (∃ s', vaddressFree oneRegion 0x2000#64 0x800#64 = some s' ∧
      cover (allocatedRegions s') =
        cover (allocatedRegions oneRegion) \ Set.Ico 0x2000 (0x2000 + 0x800)) :=
  (vaddress_free_removes_interval oneRegion_ok 0x2000#64 0x800#64 (by decide)).mpr
    (by decide +kernel)

theorem vaddress_free_keeps_freed_part :
    VaddressOk oneRegion ∧
    ¬ ∃ s', vaddressFree oneRegion 0x1000#64 0x1000#64 = some s' ∧
      cover (allocatedRegions s') =
        cover (allocatedRegions oneRegion) \ Set.Ico 0x1000 (0x1000 + 0x1000) := by
  refine ⟨oneRegion_ok, ?_⟩
  intro ⟨s', hfree, hcover⟩
  have hrun : (vaddressFree oneRegion 0x1000#64 0x1000#64).map allocatedRegions =
      some [(0x1000, 0x2000)] := by decide +kernel
  rw [hfree, Option.map_some, Option.some.injEq] at hrun
  rw [hrun] at hcover
  have hin : (0x1000 : Nat) ∈ cover [(0x1000, 0x2000)] := ⟨_, List.mem_singleton_self _, by decide⟩
  rw [hcover] at hin
  exact hin.2 ⟨by decide, by decide⟩

/-- A block that was returned, with the size that was asked for. -/
abbrev VaddressBlock := Uintptr × Size

def VaddressBlock.span (b : VaddressBlock) : Set Nat :=
  Set.Ico b.1.toNat (b.1.toNat + b.2.toNat)

def VaddressBlock.Apart (b c : VaddressBlock) : Prop := Disjoint b.span c.span

/-- The states reached from a fresh space and the live blocks: those returned, not `NULL`, and
not freed since. Calls of `vaddress_free` also meet the condition. -/
inductive VaddressRun (cond : VaddressSpace → VaddressBlock → Prop) :
    VaddressSpace → List VaddressBlock → Prop where
  | new (block : Nat → StorageBlock) (region : Node → AddressRegion)
      {spaceBegin spaceEnd : Uintptr} (h : spaceBegin ≤ spaceEnd) :
      VaddressRun cond (vaddressSpaceNew block region spaceBegin spaceEnd) []
  | allocate {s s' : VaddressSpace} {live : List VaddressBlock} {p : Uintptr} {size : Size}
      (prior : VaddressRun cond s live) (hsize : 0#64 < size) (hp : p ≠ 0#64)
      (h : vaddressAllocate s size = some (p, s')) : VaddressRun cond s' ((p, size) :: live)
  | null {s s' : VaddressSpace} {live : List VaddressBlock} {size : Size}
      (prior : VaddressRun cond s live) (hsize : 0#64 < size)
      (h : vaddressAllocate s size = some (0#64, s')) : VaddressRun cond s' live
  | free {s s' : VaddressSpace} {live : List VaddressBlock} {b : VaddressBlock}
      (prior : VaddressRun cond s live) (hb : b ∈ live) (hc : cond s b)
      (h : vaddressFree s b.1 b.2 = some s') : VaddressRun cond s' (live.erase b)

/-- No region that outlasts the block starts in it or at its end. -/
def NoStartShifted (s : VaddressSpace) (b : VaddressBlock) : Prop :=
  ∀ r ∈ allocatedRegions s, ¬ ShiftsStart b.1.toNat (b.1.toNat + b.2.toNat) r

instance (s : VaddressSpace) (b : VaddressBlock) : Decidable (NoStartShifted s b) :=
  inferInstanceAs (Decidable (∀ r ∈ allocatedRegions s, _))

/-- The invariant of a run: the live blocks are covered and apart. -/
structure VaddressRunOk (s : VaddressSpace) (live : List VaddressBlock) : Prop where
  ok : VaddressOk s
  covered : ∀ b ∈ live, b.span ⊆ cover (allocatedRegions s)
  inside : ∀ b ∈ live, b.1.toNat + b.2.toNat ≤ s.spaceEnd.toNat
  apart : live.Pairwise VaddressBlock.Apart

theorem VaddressRunOk.new (block : Nat → StorageBlock) (region : Node → AddressRegion)
    {spaceBegin spaceEnd : Uintptr} (h : spaceBegin ≤ spaceEnd) :
    VaddressRunOk (vaddressSpaceNew block region spaceBegin spaceEnd) [] := by
  have hheap : HeapOk (vaddressSpaceNew block region spaceBegin spaceEnd) [] [] [] :=
    ⟨⟨rfl, List.nodup_nil, List.nodup_nil, by simp, by simp, by simp⟩, rfl, rfl⟩
  refine ⟨⟨⟨[], [], [], hheap⟩, ?_⟩, by simp, by simp, List.Pairwise.nil⟩
  rw [hheap.allocatedRegions_eq]
  exact BitVec.le_def.mp h

theorem VaddressRunOk.allocate {s s' : VaddressSpace} {live : List VaddressBlock} {p : Uintptr}
    {size : Size} (h : VaddressRunOk s live) (ha : vaddressAllocate s size = some (p, s')) :
    VaddressRunOk s' live ∧ (p ≠ 0#64 → VaddressRunOk s' ((p, size) :: live)) := by
  rcases h.ok.allocate size with hnull | ⟨q, t, halloc, hok, -, hend, hfits⟩
  · rw [hnull, Option.some.injEq, Prod.mk.injEq] at ha
    obtain ⟨rfl, rfl⟩ := ha
    exact ⟨h, fun hp => absurd rfl hp⟩
  · rw [halloc, Option.some.injEq, Prod.mk.injEq] at ha
    obtain ⟨rfl, rfl⟩ := ha
    have hcovered : ∀ b ∈ live, b.span ⊆ cover (allocatedRegions t) := by
      intro b hb
      rw [hfits.cover_eq]
      exact (h.covered b hb).trans Set.subset_union_left
    have hinside : ∀ b ∈ live, b.1.toNat + b.2.toNat ≤ t.spaceEnd.toNat := by
      rw [hend]
      exact h.inside
    refine ⟨⟨hok, hcovered, hinside, h.apart⟩, ?_⟩
    intro _
    refine ⟨hok, ?_, ?_, ?_⟩
    · intro b hb
      rcases List.mem_cons.mp hb with rfl | hb
      · rw [hfits.cover_eq]
        exact Set.subset_union_right
      · exact hcovered b hb
    · intro b hb
      rcases List.mem_cons.mp hb with rfl | hb
      · rw [hend]
        exact hfits.upper
      · exact hinside b hb
    · apply List.Pairwise.cons _ h.apart
      intro b hb
      exact hfits.disjoint.mono_right (h.covered b hb)

theorem VaddressRunOk.freeable {s : VaddressSpace} {live : List VaddressBlock}
    (h : VaddressRunOk s live) {b : VaddressBlock} (hb : b ∈ live) :
    b.1.toNat + b.2.toNat < 2 ^ 64 :=
  Nat.lt_of_le_of_lt (h.inside b hb) s.spaceEnd.isLt

theorem VaddressRunOk.free {s s' : VaddressSpace} {live : List VaddressBlock} {b : VaddressBlock}
    (h : VaddressRunOk s live) (hb : b ∈ live) (hc : NoStartShifted s b)
    (hf : vaddressFree s b.1 b.2 = some s') : VaddressRunOk s' (live.erase b) := by
  obtain ⟨t, hfree, hok, -, hend, hregions⟩ := h.ok.free (h.freeable hb)
  rw [hfree, Option.some.injEq] at hf
  subst hf
  have hcover : cover (allocatedRegions t) = cover (allocatedRegions s) \ b.span := by
    rw [hregions]
    exact cover_freeRegions (Nat.le_add_right _ _) h.ok.sorted hc
  have hsymm : ∀ {b c : VaddressBlock}, b.Apart c → c.Apart b := fun hd => Disjoint.symm hd
  have hperm := ((List.perm_cons_erase hb).pairwise_iff hsymm).mp h.apart
  obtain ⟨hother, hrest⟩ := List.pairwise_cons.mp hperm
  refine ⟨hok, ?_, ?_, hrest⟩
  · intro c hin
    rw [hcover]
    exact Set.subset_sdiff.mpr ⟨h.covered c (List.mem_of_mem_erase hin), hsymm (hother c hin)⟩
  · intro c hin
    rw [hend]
    exact h.inside c (List.mem_of_mem_erase hin)

theorem VaddressRun.invariant {s : VaddressSpace} {live : List VaddressBlock}
    (h : VaddressRun NoStartShifted s live) : VaddressRunOk s live := by
  induction h with
  | new block region h => exact VaddressRunOk.new block region h
  | allocate _ _ hp h ih => exact (ih.allocate h).2 hp
  | null _ _ h ih => exact (ih.allocate h).1
  | free _ hb hc h ih => exact ih.free hb hc h

theorem VaddressRun.returns {s : VaddressSpace} {live : List VaddressBlock}
    (h : VaddressRun NoStartShifted s live) :
    (∀ size, (vaddressAllocate s size).isSome) ∧
    ∀ b ∈ live, (vaddressFree s b.1 b.2).isSome := by
  have hok := h.invariant
  constructor
  · intro size
    rcases hok.ok.allocate size with hnull | ⟨p, s', halloc, -⟩
    · rw [hnull]
      rfl
    · rw [halloc]
      rfl
  · intro b hb
    obtain ⟨s', hfree, -⟩ := hok.ok.free (hok.freeable hb)
    rw [hfree]
    rfl

theorem vaddress_live_blocks_disjoint {s : VaddressSpace} {live : List VaddressBlock}
    (h : VaddressRun NoStartShifted s live) :
    live.Pairwise VaddressBlock.Apart ∧ (∀ size, (vaddressAllocate s size).isSome) ∧
      ∀ b ∈ live, (vaddressFree s b.1 b.2).isSome :=
  ⟨h.invariant.apart, h.returns⟩

def freshSpace : VaddressSpace :=
  vaddressSpaceNew (fun _ => ⟨none, 0⟩) (fun _ => zeroRegion) 0x1000#64 0x9000#64

def pageAllocated (s : VaddressSpace) : VaddressSpace :=
  ((vaddressAllocate s 0x1000#64).getD (0#64, s)).2

def pageFreed (s : VaddressSpace) (p : Uintptr) : VaddressSpace :=
  (vaddressFree s p 0x1000#64).getD s

section PageRuns

variable {cond : VaddressSpace → VaddressBlock → Prop} {s : VaddressSpace}
  {live : List VaddressBlock} {p : Uintptr}

theorem VaddressRun.page (h : VaddressRun cond s live) (hp : p ≠ 0#64)
    (ha : (vaddressAllocate s 0x1000#64).map Prod.fst = some p) :
    VaddressRun cond (pageAllocated s) ((p, 0x1000#64) :: live) := by
  apply h.allocate (by decide) hp
  obtain ⟨⟨q, t⟩, hq, rfl⟩ := Option.map_eq_some_iff.mp ha
  simp only [pageAllocated, hq, Option.getD_some]

theorem VaddressRun.freePage (h : VaddressRun cond s live) (hp : (p, 0x1000#64) ∈ live)
    (hc : cond s (p, 0x1000#64)) (hf : (vaddressFree s p 0x1000#64).isSome) :
    VaddressRun cond (pageFreed s p) (live.erase (p, 0x1000#64)) := by
  apply h.free hp hc
  obtain ⟨t, ht⟩ := Option.isSome_iff_exists.mp hf
  simp only [pageFreed, ht, Option.getD_some]

theorem freshSpace_run : VaddressRun cond freshSpace [] := VaddressRun.new _ _ (by decide)

theorem twoPages_run : VaddressRun cond (pageAllocated (pageAllocated freshSpace))
    [(0x2000#64, 0x1000#64), (0x1000#64, 0x1000#64)] :=
  (freshSpace_run.page (by decide) (by decide +kernel)).page (by decide) (by decide +kernel)

end PageRuns

/-- Three pages, and the one in the middle is freed: its region is split. -/
theorem vaddress_live_blocks_disjoint_example :
    [((0x3000#64, 0x1000#64) : VaddressBlock), (0x1000#64, 0x1000#64)].Pairwise
      VaddressBlock.Apart ∧
    (∀ size, (vaddressAllocate
      (pageFreed (pageAllocated (pageAllocated (pageAllocated freshSpace))) 0x2000#64)
      size).isSome) ∧
    ∀ b ∈ [((0x3000#64, 0x1000#64) : VaddressBlock), (0x1000#64, 0x1000#64)], (vaddressFree
      (pageFreed (pageAllocated (pageAllocated (pageAllocated freshSpace))) 0x2000#64)
      b.1 b.2).isSome :=
  have hmiddle : ((0x2000#64, 0x1000#64) : VaddressBlock) ∈
      [(0x3000#64, 0x1000#64), (0x2000#64, 0x1000#64), (0x1000#64, 0x1000#64)] := by decide
  vaddress_live_blocks_disjoint
    ((twoPages_run.page (by decide) (by decide +kernel)).freePage hmiddle (by decide +kernel)
      (by decide +kernel))

/-- The first page is freed, and its region keeps that page in place of the second one, so
the next call returns the second page again. -/
theorem vaddress_live_blocks_overlap :
    ∃ s live, VaddressRun (fun _ _ => True) s live ∧
      ¬ live.Pairwise VaddressBlock.Apart := by
  have hfirst : ((0x1000#64, 0x1000#64) : VaddressBlock) ∈
      [(0x2000#64, 0x1000#64), (0x1000#64, 0x1000#64)] := by decide
  have hrun : VaddressRun (fun _ _ => True) (pageAllocated (pageAllocated freshSpace)) _ :=
    twoPages_run
  have hfreed := hrun.freePage hfirst trivial (by decide +kernel)
  have hnext : (vaddressAllocate (pageFreed (pageAllocated (pageAllocated freshSpace)) 0x1000#64)
      0x1000#64).map Prod.fst = some 0x2000#64 := by decide +kernel
  refine ⟨_, _, hfreed.page (by decide) hnext, ?_⟩
  intro hpair
  have hd := (List.pairwise_cons.mp hpair).1 (0x2000#64, 0x1000#64) (by decide)
  have hin : 0x2000 ∈ VaddressBlock.span (0x2000#64, 0x1000#64) := ⟨by decide, by decide⟩
  exact Set.disjoint_left.mp hd hin hin

end Ukulele
