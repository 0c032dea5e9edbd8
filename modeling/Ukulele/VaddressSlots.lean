import Ukulele.VaddressCalls

/-! No slot of a storage block is lost, shared or taken too early, whatever is called. The regions
need not lie inside the space here: it may end before it begins.
-/

set_option autoImplicit false

namespace Ukulele
open Chain

/-- Each region begins at or after the end of the one before it; the last one may end anywhere. -/
def Ascending : Nat → List (Nat × Nat) → Prop
  | _, [] => True
  | lo, r :: l => lo ≤ r.1 ∧ (l = [] ∨ (r.1 ≤ r.2 ∧ Ascending r.2 l))

theorem Ascending.mono {lo lo' : Nat} {l : List (Nat × Nat)} (h : Ascending lo l)
    (hle : lo' ≤ lo) : Ascending lo' l := by
  cases l with
  | nil => trivial
  | cons r l => exact ⟨hle.trans h.1, h.2⟩

theorem Ascending.cons {lo x : Nat} {r : Nat × Nat} {l l' : List (Nat × Nat)} (hlo : lo ≤ r.1)
    (hnil : l = [] → l' = []) (h : l ≠ [] → r.1 ≤ x ∧ Ascending x l') :
    Ascending lo ((r.1, x) :: l') := by
  refine ⟨hlo, ?_⟩
  by_cases hl : l = []
  · exact Or.inl (hnil hl)
  · exact Or.inr (h hl)

theorem Ascending.le {lo : Nat} {r : Nat × Nat} {l : List (Nat × Nat)}
    (h : Ascending lo (r :: l)) (hl : l ≠ []) : r.1 ≤ r.2 :=
  (h.2.resolve_left hl).1

theorem Ascending.rest {lo : Nat} {r : Nat × Nat} {l : List (Nat × Nat)}
    (h : Ascending lo (r :: l)) : Ascending r.2 l := by
  rcases h.2 with rfl | h
  · trivial
  · exact h.2

theorem freeRegions_ascending {a e : Nat} (hae : a ≤ e) {lo : Nat} {l : List (Nat × Nat)}
    (h : Ascending lo l) : Ascending lo (freeRegions a e l) := by
  induction l generalizing lo with
  | nil => trivial
  | cons r l ih =>
    have hnil : l = [] → freeRegions a e l = [] := by
      rintro rfl
      rfl
    have hle : l ≠ [] → r.1 ≤ r.2 := h.le
    have htail : Ascending r.2 (freeRegions a e l) := ih h.rest
    simp only [freeRegions]
    split
    · exact h
    split
    · exact Ascending.cons h.1 hnil (fun hl => ⟨hle hl, htail⟩)
    split
    · by_cases hl : l = []
      · rw [hnil hl]
        trivial
      · exact htail.mono (h.1.trans (hle hl))
    split
    · exact Ascending.cons h.1 hnil (fun _ => ⟨by omega, htail.mono (by omega)⟩)
    split
    · exact Ascending.cons h.1 hnil (fun _ => ⟨by omega, htail.mono (by omega)⟩)
    · refine ⟨h.1, Or.inr ⟨by simp only; omega, by simp only; omega, ?_⟩⟩
      by_cases hl : l = []
      · exact Or.inl (hnil hl)
      · exact Or.inr ⟨by simp only; omega, htail⟩

theorem freeRegion_two {a e : Nat} {r : Nat × Nat} (h : (freeRegion a e r).length = 2) :
    e < r.2 := by
  simp only [freeRegion] at h
  split_ifs at h <;> simp at h
  omega

section Pass

variable {address addressEnd : Uintptr} {done rest u l' u' : List Node} {s s' : VaddressSpace}
  {bs bs' : List Nat}

theorem FreePass.stopped (h : FreePass address addressEnd done rest s u bs s' l' u' bs')
    (hstop : ∀ b ∈ rest.head?, addressEnd < (s.region b).beginAt) :
    s' = s ∧ l' = done ++ rest ∧ u' = u ∧ bs' = bs := by
  cases h with
  | finish h => simp
  | stop h hlt => simp
  | turn hgo h hpass => exact absurd (hstop _ rfl) hgo

/-- A pass takes a new slot only if no node was unused, and then the list is longer than before:
a region is split last, so no node is given back after that. -/
theorem FreePass.count
    (h : FreePass address addressEnd done rest s u bs s' l' u' bs') {lo n : Nat}
    (hcount : StoreCount s bs n) (hn : done.length + rest.length + u.length = n)
    (hasc : Ascending lo (rest.map (bounds s))) :
    StoreCount s' bs' (max n l'.length) ∧ l'.length + u'.length = max n l'.length := by
  induction h generalizing lo n with
  | @finish done u s bs h =>
    have hmax : max n done.length = n := max_eq_left (by omega)
    rw [hmax]
    exact ⟨hcount, by simpa using hn⟩
  | @stop done rest u s bs a h hstop =>
    have hlen : (done ++ a :: rest).length = done.length + (a :: rest).length :=
      List.length_append
    have hmax : max n (done ++ a :: rest).length = n := max_eq_left (by omega)
    rw [hmax]
    exact ⟨hcount, by omega⟩
  | @turn done rest mid u v w l s s₁ t bs bs₁ cs a hgo h hpass ih =>
    have hrest : rest.map (bounds s₁) = rest.map (bounds s) :=
      map_bounds_congr (fun b hb => h.others b (List.mem_append_right _ hb))
    have htail : Ascending (bounds s a).2 (rest.map (bounds s₁)) := by
      rw [hrest]
      exact hasc.rest
    rcases h.pool n hcount with ⟨hlen, hsame⟩ | ⟨htwo, rfl, rfl, hmore⟩
    · apply ih hsame _ htail
      rw [List.length_append]
      simp only [List.length_cons] at hn
      omega
    · have hend : addressEnd.toNat < (bounds s a).2 := by
        apply freeRegion_two
        rw [← h.region, List.length_map, htwo]
      have hstop : ∀ b ∈ rest.head?, addressEnd < (s₁.region b).beginAt := by
        intro b hb
        cases rest with
        | nil => simp at hb
        | cons c rest =>
          cases hb
          exact BitVec.lt_def.mpr (Nat.lt_of_lt_of_le hend htail.1)
      obtain ⟨rfl, rfl, rfl, rfl⟩ := hpass.stopped hstop
      have hlen : (done ++ mid ++ rest).length = n + 1 := by
        simp only [List.length_append, List.length_cons, List.length_nil] at hn ⊢
        omega
      rw [hlen, max_eq_right (Nat.le_succ n)]
      exact ⟨hmore, rfl⟩

end Pass

section Allocate

variable {s : VaddressSpace}

theorem vaddressAllocateLoop_ascending (size : Size) {rest : List Node} {lo fuel : Nat}
    (hn : rest.Nodup) (hseg : Seg s.nexts (headOr rest none) rest none)
    (hasc : Ascending lo (rest.map (bounds s))) (hf : rest.length < fuel) :
    ∃ p s', vaddressAllocateLoop s size fuel (headOr rest none) = some (p, s') ∧
      (s' = s ∨ ∃ a ∈ rest, ∃ x, s' = s.setRegion a { s.region a with endAt := x }) ∧
      Ascending lo (rest.map (bounds s')) := by
  induction rest generalizing lo fuel with
  | nil =>
    cases fuel with
    | zero => simp at hf
    | succ fuel => exact ⟨0#64, s, rfl, Or.inl rfl, trivial⟩
  | cons a rest ih =>
    cases fuel with
    | zero => simp at hf
    | succ fuel =>
      obtain ⟨hnr, hn⟩ := List.nodup_cons.mp hn
      have hnext : (s.region a).next = headOr rest none := hseg.2.head_eq
      have hchain : Seg s.nexts (headOr rest none) rest none := hnext ▸ hseg.2
      have hother : ∀ x, rest.map (bounds (s.setRegion a { s.region a with endAt := x })) =
          rest.map (bounds s) := by
        intro x
        apply map_bounds_congr
        intro b hb
        apply bounds_setRegion_ne
        rintro rfl
        exact hnr hb
      simp only [headOr_cons, vaddressAllocateLoop]
      split
      · rename_i hfit
        rw [hnext] at hfit
        refine ⟨_, _, rfl, Or.inr ⟨a, List.mem_cons_self, _, rfl⟩, ?_⟩
        rw [List.map_cons, bounds_setEnd, hother]
        apply Ascending.cons (r := bounds s a) hasc.1 id
        intro hl
        have hle : (s.region a).beginAt.toNat ≤ (s.region a).endAt.toNat := hasc.le hl
        have htail := hasc.rest
        cases rest with
        | nil => contradiction
        | cons b rest =>
          have hgap : (s.region a).endAt.toNat ≤ (s.region b).beginAt.toNat := htail.1
          have hsize : size.toNat ≤ (s.region b).beginAt.toNat - (s.region a).endAt.toNat :=
            (size_le_sub_iff hgap).mp hfit
          have hsum := toNat_add_of_le hsize hgap
          rw [hsum]
          refine ⟨show (s.region a).beginAt.toNat ≤ _ by omega, ?_, htail.2⟩
          exact show _ ≤ (s.region b).beginAt.toNat by omega
      · rw [hnext]
        obtain ⟨p, s', hloop, hs', hkeep⟩ := ih hn hchain hasc.rest (by simpa using hf)
        have hsame : bounds s' a = bounds s a := by
          rcases hs' with rfl | ⟨b, hb, x, rfl⟩
          · rfl
          · apply bounds_setRegion_ne
            rintro rfl
            exact hnr hb
        refine ⟨p, s', hloop, ?_, ?_⟩
        · rcases hs' with hs' | ⟨b, hb, x, hs'⟩
          · exact Or.inl hs'
          · exact Or.inr ⟨b, List.mem_cons_of_mem _ hb, x, hs'⟩
        · rw [List.map_cons, hsame]
          have hnil : rest.map (bounds s) = [] → rest.map (bounds s') = [] := by simp
          exact Ascending.cons hasc.1 hnil (fun hl => ⟨hasc.le hl, hkeep⟩)

theorem vaddressAllocate_count {l u : List Node} {bs : List Nat} {n : Nat} (h : HeapOk s l u bs)
    (hcount : StoreCount s bs n) (hn : l.length + u.length = n)
    (hasc : Ascending s.spaceBegin.toNat (l.map (bounds s))) (size : Size) :
    ∃ p s' l' u' bs', vaddressAllocate s size = some (p, s') ∧ ListStep s s' l' u' bs' ∧
      Ascending s.spaceBegin.toNat (l'.map (bounds s')) ∧
      StoreCount s' bs' (max n l'.length) ∧ l'.length + u'.length = max n l'.length := by
  have hhead : s.allocated = headOr l none := h.allocated.head_eq
  have hmax : max n l.length = n := max_eq_left (by omega)
  unfold vaddressAllocate
  by_cases hfit : size ≤ nextBegin s s.allocated - s.spaceBegin
  · obtain ⟨a, t, u', bs', hfind, hp, hpool⟩ := findFreeNode_spec h
    refine ⟨s.spaceBegin, t.pushHead a s.spaceBegin size, a :: l, u', bs', ?_,
      ⟨hp.pushHead h s.spaceBegin size, hp.begin_eq, hp.end_eq⟩, ?_, ?_⟩
    · simp only [hfit, if_true, hfind]
      rfl
    · rw [hp.pushHead_bounds]
      refine ⟨le_rfl, ?_⟩
      cases l with
      | nil => exact Or.inl rfl
      | cons b l =>
        rw [hhead] at hfit
        have hgap : s.spaceBegin.toNat ≤ (s.region b).beginAt.toNat := hasc.1
        have hsize : size.toNat ≤ (s.region b).beginAt.toNat - s.spaceBegin.toNat :=
          (size_le_sub_iff hgap).mp hfit
        have hsum := toNat_add_of_le hsize hgap
        refine Or.inr ⟨by simp only; omega, ?_, hasc.2⟩
        exact show _ ≤ (s.region b).beginAt.toNat by simp only; omega
    · rcases hpool n hcount with ⟨hlen, hsame⟩ | ⟨rfl, rfl, hmore⟩
      · have hold : max n (a :: l).length = n := max_eq_left (by simp only [List.length_cons]; omega)
        rw [hold]
        exact ⟨hsame.congr rfl rfl, by simp only [List.length_cons]; omega⟩
      · have hnew : max n (a :: l).length = n + 1 := by
          simp only [List.length_cons, List.length_nil] at hn ⊢
          omega
        rw [hnew]
        exact ⟨hmore.congr rfl rfl, by simpa using hn⟩
  · have hf : l.length < s.slots + 1 := Nat.lt_succ_of_le h.length_le
    have hseg := h.allocated
    simp only [hfit, if_false]
    rw [hhead] at hseg ⊢
    obtain ⟨p, s', hloop, hs', hkeep⟩ :=
      vaddressAllocateLoop_ascending size h.nodup_left hseg hasc hf
    rcases hs' with rfl | ⟨a, -, x, rfl⟩
    · exact ⟨p, s', l, u, bs, hloop, ⟨h, rfl, rfl⟩, hkeep, by rwa [hmax], by rwa [hmax]⟩
    · exact ⟨p, _, l, u, bs, hloop, ⟨h.setEnd a x, rfl, rfl⟩, hkeep,
        by rw [hmax]; exact hcount.congr rfl rfl, by rwa [hmax]⟩

end Allocate

/-- The lists of a space that was reached by calls, with `most` regions at most so far. -/
structure SlotsOk (s : VaddressSpace) (l u : List Node) (bs : List Nat) (most : Nat) : Prop where
  heap : HeapOk s l u bs
  count : StoreCount s bs most
  total : l.length + u.length = most
  ascending : Ascending s.spaceBegin.toNat (l.map (bounds s))

theorem VaddressCalls.slots {spaceBegin spaceEnd : Uintptr} {s : VaddressSpace} {most : Nat}
    (h : VaddressCalls spaceBegin spaceEnd s most) : ∃ l u bs, SlotsOk s l u bs most := by
  induction h with
  | new block region =>
    exact ⟨[], [], [], ⟨⟨rfl, List.nodup_nil, List.nodup_nil, by simp, by simp, by simp⟩, rfl, rfl⟩,
      ⟨by simp, by simp, rfl, rfl⟩, rfl, trivial⟩
  | @allocate s t most p size _ hcall ih =>
    obtain ⟨l, u, bs, hheap, hcount, htotal, hasc⟩ := ih
    obtain ⟨q, s', l', u', bs', halloc, hstep, hasc', hcount', htotal'⟩ :=
      vaddressAllocate_count hheap hcount htotal hasc size
    rw [halloc, Option.some.injEq, Prod.mk.injEq] at hcall
    obtain ⟨-, rfl⟩ := hcall
    rw [hstep.heap.allocatedNodes_eq]
    rw [← hstep.begin_eq] at hasc'
    exact ⟨l', u', bs', hstep.heap, hcount', htotal', hasc'⟩
  | @free s t most address size _ hwrap hcall ih =>
    obtain ⟨l, u, bs, hheap, hcount, htotal, hasc⟩ := ih
    obtain ⟨s', l', u', bs', hfree, hpass⟩ := vaddressFree_pass hheap address size
    obtain ⟨hstep, hmap⟩ := hpass.regions
    obtain ⟨hcount', htotal'⟩ := hpass.count hcount (by simpa using htotal) hasc
    have hend : (address + size).toNat = address.toNat + size.toNat := by
      rw [BitVec.toNat_add, Nat.mod_eq_of_lt hwrap]
    rw [hfree, Option.some.injEq] at hcall
    subst hcall
    rw [hstep.heap.allocatedNodes_eq]
    refine ⟨l', u', bs', hstep.heap, hcount', htotal', ?_⟩
    rw [hmap, hstep.begin_eq, hend]
    exact freeRegions_ascending (Nat.le_add_right _ _) hasc

def unusedNodes (s : VaddressSpace) : List Node := walk s.nexts s.slots s.unused

def storageBlocks (s : VaddressSpace) : List Nat :=
  walk (fun b => (s.block b).next) s.pages s.storage

def issuedSlots (s : VaddressSpace) : List Node :=
  (storageBlocks s).flatMap
    (fun b => (List.range (s.block b).entries).map (fun i => (⟨b, i⟩ : Node)))

section Slots

variable {s : VaddressSpace} {l u : List Node} {bs : List Nat} {most : Nat}

theorem HeapOk.unusedNodes_eq (h : HeapOk s l u bs) : unusedNodes s = u := by
  have hle := h.store.length_le
  rw [List.length_append] at hle
  exact walk_eq h.unused (by omega)

theorem HeapOk.storageBlocks_eq (h : HeapOk s l u bs) : storageBlocks s = bs :=
  walk_eq h.store.storage h.store.blocks_length_le

theorem SlotsOk.issued_length (h : SlotsOk s l u bs most) : (issuedSlots s).length = most := by
  rw [issuedSlots, h.heap.storageBlocks_eq, List.length_flatMap, ← h.count.issued]
  simp

theorem SlotsOk.perm (h : SlotsOk s l u bs most) : (l ++ u).Perm (issuedSlots s) := by
  have hsub : l ++ u ⊆ issuedSlots s := by
    intro a ha
    obtain ⟨hb, hlt⟩ := h.heap.store.issued a ha
    rw [issuedSlots, h.heap.storageBlocks_eq]
    exact List.mem_flatMap.mpr ⟨a.page, hb, List.mem_map.mpr ⟨a.slot, List.mem_range.mpr hlt, rfl⟩⟩
  apply (h.heap.store.nodup.subperm hsub).perm_of_length_le
  rw [h.issued_length, List.length_append, h.total]

theorem SlotsOk.blocks_length (h : SlotsOk s l u bs most) :
    bs.length = (most + (regionsPerBlock - 1)) / regionsPerBlock := by
  obtain ⟨hfull, hstarted, hissued, -⟩ := h.count
  cases bs with
  | nil =>
    simp only [List.map_nil, List.sum_nil] at hissued
    subst hissued
    rfl
  | cons b bs =>
    have hle := h.heap.store.entries_le b List.mem_cons_self
    have hpos := hstarted b rfl
    have hsum : (bs.map (fun c => (s.block c).entries)).sum = bs.length * regionsPerBlock := by
      have hfull : ∀ c ∈ bs, (s.block c).entries = regionsPerBlock := hfull
      rw [List.map_congr_left hfull, List.map_const', List.sum_replicate, smul_eq_mul]
    rw [List.map_cons, List.sum_cons, hsum] at hissued
    simp only [regionsPerBlock, List.length_cons] at *
    omega

theorem foldl_one (l : List Node) (n : BitVec 32) :
    l.foldl (fun n _ => n + 1#32) n = n + BitVec.ofNat 32 l.length := by
  induction l generalizing n with
  | nil => simp
  | cons a l ih =>
    rw [List.foldl_cons, ih, List.length_cons, BitVec.ofNat_add, BitVec.add_assoc,
      BitVec.add_comm (BitVec.ofNat 32 l.length)]

theorem foldl_entries (block : Nat → StorageBlock) (bs : List Nat) (n : BitVec 32) :
    bs.foldl (fun n b => n + BitVec.ofNat 32 (block b).entries) n =
      n + BitVec.ofNat 32 (bs.map (fun b => (block b).entries)).sum := by
  induction bs generalizing n with
  | nil => simp
  | cons b bs ih =>
    rw [List.foldl_cons, ih, List.map_cons, List.sum_cons, BitVec.ofNat_add, BitVec.add_assoc]

theorem SlotsOk.print (h : SlotsOk s l u bs most) : vaddressPrint s = .ok () := by
  have hlen := h.heap.store.length_le
  rw [List.length_append] at hlen
  have hblocks := h.heap.store.blocks_length_le
  have hregions := loop_eq h.heap.store.storage (Nat.lt_succ_of_le hblocks) (0#32)
    (f := fun n b => n + BitVec.ofNat 32 (s.block b).entries)
  have hunused := loop_eq h.heap.unused (by omega : u.length < s.slots + 1) (0#32)
    (f := fun n _ => n + 1#32)
  have hused := loop_eq h.heap.allocated (by omega : l.length < s.slots + 1) (0#32)
    (f := fun n _ => n + 1#32)
  rw [foldl_entries, h.count.issued] at hregions
  rw [foldl_one] at hunused hused
  have hsum : BitVec.ofNat 32 most = BitVec.ofNat 32 l.length + BitVec.ofNat 32 u.length := by
    rw [← h.total, BitVec.ofNat_add]
  simp only [vaddressPrint, hregions, hunused, hused, hsum, BitVec.zero_add, beq_self_eq_true,
    assert_true]

end Slots

/-- The lists end, share no node and hold the issued slots, and the counts are those of the
largest list so far. -/
structure SlotsAccounted (s : VaddressSpace) (most : Nat) : Prop where
  allocated : Seg s.nexts s.allocated (allocatedNodes s) none
  unused : Seg s.nexts s.unused (unusedNodes s) none
  storage : Seg (fun b => (s.block b).next) s.storage (storageBlocks s) none
  nodup : (allocatedNodes s ++ unusedNodes s).Nodup
  slots : (allocatedNodes s ++ unusedNodes s).Perm (issuedSlots s)
  print : vaddressPrint s = .ok ()
  issued : (issuedSlots s).length = most
  blocks : (storageBlocks s).length = (most + (regionsPerBlock - 1)) / regionsPerBlock
  pages : s.pages = (storageBlocks s).length + 1

theorem SlotsOk.returns {s : VaddressSpace} {l u : List Node} {bs : List Nat} {most : Nat}
    (h : SlotsOk s l u bs most) : (∀ size, (vaddressAllocate s size).isSome) ∧
      ∀ address size, (vaddressFree s address size).isSome := by
  constructor
  · intro size
    obtain ⟨p, s', l', u', bs', halloc, -⟩ :=
      vaddressAllocate_count h.heap h.count h.total h.ascending size
    simp [halloc]
  · intro address size
    obtain ⟨s', l', u', bs', hfree, -⟩ := vaddressFree_pass h.heap address size
    simp [hfree]

theorem vaddress_slots_accounted {spaceBegin spaceEnd : Uintptr} {s : VaddressSpace} {most : Nat}
    (h : VaddressCalls spaceBegin spaceEnd s most) :
    SlotsAccounted s most ∧ (∀ size, (vaddressAllocate s size).isSome) ∧
      ∀ address size, (vaddressFree s address size).isSome := by
  obtain ⟨l, u, bs, hok⟩ := h.slots
  have hl := hok.heap.allocatedNodes_eq
  have hu := hok.heap.unusedNodes_eq
  have hbs := hok.heap.storageBlocks_eq
  refine ⟨⟨?_, ?_, ?_, ?_, ?_, hok.print, hok.issued_length, ?_, ?_⟩, hok.returns⟩
  · rw [hl]
    exact hok.heap.allocated
  · rw [hu]
    exact hok.heap.unused
  · rw [hbs]
    exact hok.heap.store.storage
  · rw [hl, hu]
    exact hok.heap.store.nodup
  · rw [hl, hu]
    exact hok.perm
  · rw [hbs]
    exact hok.blocks_length
  · rw [hbs]
    exact hok.count.pages

/-- A space with one region, from 0x1000 up to its end. -/
def wideSpace : VaddressSpace :=
  ((vaddressAllocate (vaddressSpaceNew (fun _ => ⟨none, 0⟩) (fun _ => zeroRegion) 0x1000#64
    0x1000000#64) 0xfff000#64).getD (0#64, freshSpace)).2

/-- Every other page is freed, `k` pages in all. -/
def splitSpace : Nat → VaddressSpace
  | 0 => wideSpace
  | k + 1 => pageFreed (splitSpace k) (BitVec.ofNat 64 (0x2000 * (k + 1)))

def splitRegions (lo : Nat) : Nat → List (Nat × Nat)
  | 0 => [(lo, 0x1000000)]
  | k + 1 => (lo, lo + 0x1000) :: splitRegions (lo + 0x2000) k

theorem splitRegions_length (lo k : Nat) : (splitRegions lo k).length = k + 1 := by
  induction k generalizing lo with
  | zero => rfl
  | succ k ih => rw [splitRegions, List.length_cons, ih]

theorem freeRegions_splitRegions {lo k : Nat} (h : lo + 0x2000 * (k + 1) < 0x1000000) :
    freeRegions (lo + 0x2000 * k + 0x1000) (lo + 0x2000 * k + 0x2000) (splitRegions lo k) =
      splitRegions lo (k + 1) := by
  induction k generalizing lo with
  | zero =>
    simp only [splitRegions, freeRegions_cons, freeRegion]
    rw [if_neg (by omega), if_neg (by omega), if_neg (by omega), if_neg (by omega),
      if_neg (by omega)]
    rfl
  | succ k ih =>
    have hnext := @ih (lo + 0x2000) (by linarith)
    have hlo : lo + 0x2000 * (k + 1) = lo + 0x2000 + 0x2000 * k := by omega
    have hstop : ¬ lo + 0x2000 + 0x2000 * k + 0x2000 < lo := by linarith
    have hbefore : lo + 0x1000 < lo + 0x2000 + 0x2000 * k + 0x1000 := by linarith
    rw [hlo, splitRegions, freeRegions_cons, freeRegion, if_neg hstop, if_pos hbefore, hnext]
    rfl

theorem splitSpace_run {k : Nat} (hk : k ≤ 100) :
    VaddressCalls 0x1000#64 0x1000000#64 (splitSpace k) (k + 1) ∧
      allocatedRegions (splitSpace k) = splitRegions 0x1000 k := by
  induction k with
  | zero =>
    have hfresh : VaddressCalls 0x1000#64 0x1000000#64 _ 0 :=
      VaddressCalls.new (fun _ => ⟨none, 0⟩) (fun _ => zeroRegion)
    have hone : (vaddressAllocate (vaddressSpaceNew (fun _ => ⟨none, 0⟩) (fun _ => zeroRegion)
        0x1000#64 0x1000000#64) 0xfff000#64).isSome := by decide +kernel
    obtain ⟨⟨p, t⟩, ht⟩ := Option.isSome_iff_exists.mp hone
    have hspace : wideSpace = t := by rw [wideSpace, ht, Option.getD_some]
    have hregions : allocatedRegions wideSpace = splitRegions 0x1000 0 := by decide +kernel
    have hlen := congrArg List.length hregions
    rw [allocatedRegions, List.length_map, splitRegions_length, hspace] at hlen
    have hrun := hfresh.allocate ht
    rw [hlen, ← hspace] at hrun
    exact ⟨hrun, hregions⟩
  | succ k ih =>
    obtain ⟨hrun, hregions⟩ := ih (by omega)
    have haddress : (BitVec.ofNat 64 (0x2000 * (k + 1))).toNat = 0x1000 + 0x2000 * k + 0x1000 := by
      rw [BitVec.toNat_ofNat]
      omega
    have hsize : (0x1000#64).toNat = 0x1000 := rfl
    have hwrap : (BitVec.ofNat 64 (0x2000 * (k + 1))).toNat + (0x1000#64).toNat < 2 ^ 64 := by
      omega
    obtain ⟨t, hfree, -, -, -, hfreed⟩ := (hrun.ok (by decide)).1.free hwrap
    have hspace : splitSpace (k + 1) = t := by
      rw [splitSpace, pageFreed, hfree, Option.getD_some]
    rw [hregions, haddress, hsize, Nat.add_assoc _ 0x1000 0x1000,
      freeRegions_splitRegions (by omega)] at hfreed
    have hlen := congrArg List.length hfreed
    rw [allocatedRegions, List.length_map, splitRegions_length] at hlen
    have hnext := hrun.free hwrap hfree
    rw [hlen, max_eq_right (Nat.le_succ _), ← hspace] at hnext
    rw [← hspace] at hfreed
    exact ⟨hnext, hfreed⟩

/-- A region is split a hundred times, which takes a second storage block. -/
theorem vaddress_slots_accounted_split :
    SlotsAccounted (splitSpace 100) 101 ∧ (storageBlocks (splitSpace 100)).length = 2 :=
  have haccounted := (vaddress_slots_accounted (splitSpace_run (Nat.le_refl 100)).1).1
  ⟨haccounted, haccounted.blocks⟩

end Ukulele
