import Ukulele.Arena
import Ukulele.Chain
import Ukulele.PmmRuns

/-! Whole runs of an arena: it takes its pages one after the other and gives all of them back.
The list of its pages is threaded through the pages themselves.
-/

set_option autoImplicit false

namespace Ukulele
open Chain

theorem roundDown_aligned {p : BitVec 64} (h : Aligned p) : roundDown p pageSize = p := by
  apply BitVec.eq_of_toNat_eq
  rw [toNat_roundDown]
  unfold Aligned at h
  omega

theorem Memory.load_page (mem : Memory) {p : Physical} (h : Aligned p) :
    mem.load p = mem p 0 := by
  unfold Aligned at h
  have hz : p.toNat % 8 = 0 := by omega
  unfold Memory.load
  simp [hz, h, roundDown_aligned h]

theorem store_apply (s : Machine) (p q : Physical) (i j : Fin 512) (value : BitVec 64) :
    (s.store p i value).mem q j = if q = p ∧ j = i then value else s.mem q j := by
  unfold Machine.store
  by_cases hq : q = p
  · subst hq
    by_cases hj : j = i
    · simp [hj]
    · simp [hj]
  · simp [hq]

section Hhdm

variable {globalHhdmOffset : BitVec 64}

def DirectMapped (globalHhdmOffset : BitVec 64) (r : PmmRange) : Prop :=
  r.stop < 2 ^ 64 ∧ globalHhdmOffset.toNat + r.stop ≤ 2 ^ 64

instance (r : PmmRange) : Decidable (DirectMapped globalHhdmOffset r) :=
  inferInstanceAs (Decidable (_ ∧ _))

def behind (globalHhdmOffset : BitVec 64) (page : Uintptr) : Option Physical :=
  if page = 0#64 then none else some (hhdmPhysical globalHhdmOffset page)

def nextPage (globalHhdmOffset : BitVec 64) (mem : Memory) (p : Physical) : Option Physical :=
  behind globalHhdmOffset (mem.load p)

@[simp] theorem hhdmPhysical_pointer (p : Physical) :
    hhdmPhysical globalHhdmOffset (hhdmPointer globalHhdmOffset p) = p :=
  BitVec.add_sub_cancel p globalHhdmOffset

theorem behind_inj {v w : Uintptr} (h : behind globalHhdmOffset v = behind globalHhdmOffset w) :
    v = w := by
  unfold behind at h
  by_cases hv : v = 0#64
  · by_cases hw : w = 0#64
    · rw [hv, hw]
    · simp [hv, hw] at h
  · by_cases hw : w = 0#64
    · simp [hv, hw] at h
    · simpa [hv, hw, hhdmPhysical] using h

section Range

variable {s : Machine} {R : List PmmRange} {L : Finset Physical}

theorem PmmRunOk.page_in_range (h : PmmRunOk s R L) {p : Physical}
    (hp : p ∈ s.pmm.managedPages) : ∃ r ∈ R, 0 < p.toNat ∧ p.toNat + 4096 ≤ r.stop := by
  obtain ⟨i, hi, k, hk, rfl⟩ := mem_managedPages.mp hp
  have hn := (h.ok.block i hi).toNat_pageAt hk
  have hend : ((s.pmm.entry i).pageAt k).toNat + 4096 ≤ (s.pmm.entry i).blockEnd := by
    simp only [PmmCtrlPtr.blockEnd]
    omega
  have hpos : 0 < ((s.pmm.entry i).pageAt k).toNat := by omega
  obtain ⟨r, hr, -, hhi⟩ := h.inside i hi
  exact ⟨r, hr, hpos, hend.trans hhi⟩

theorem PmmRunOk.toNat_pointer (h : PmmRunOk s R L)
    (hmap : ∀ r ∈ R, DirectMapped globalHhdmOffset r) {p : Physical}
    (hp : p ∈ s.pmm.managedPages) :
    (hhdmPointer globalHhdmOffset p).toNat = globalHhdmOffset.toNat + p.toNat ∧
      globalHhdmOffset.toNat + p.toNat + 4096 ≤ 2 ^ 64 := by
  obtain ⟨r, hr, -, hend⟩ := h.page_in_range hp
  have hwrap := (hmap r hr).2
  refine ⟨?_, by omega⟩
  rw [hhdmPointer, BitVec.toNat_add, Nat.mod_eq_of_lt (by omega), Nat.add_comm]

theorem PmmRunOk.pointer_ne_zero (h : PmmRunOk s R L)
    (hmap : ∀ r ∈ R, DirectMapped globalHhdmOffset r) {p : Physical}
    (hp : p ∈ s.pmm.managedPages) : hhdmPointer globalHhdmOffset p ≠ 0#64 := by
  obtain ⟨r, hr, hpos, hend⟩ := h.page_in_range hp
  have hn := (h.toNat_pointer hmap hp).1
  intro hz
  rw [hz] at hn
  simp only [BitVec.toNat_ofNat] at hn
  omega

theorem PmmRunOk.behind_pointer (h : PmmRunOk s R L)
    (hmap : ∀ r ∈ R, DirectMapped globalHhdmOffset r) {p : Physical}
    (hp : p ∈ s.pmm.managedPages) :
    behind globalHhdmOffset (hhdmPointer globalHhdmOffset p) = some p := by
  rw [behind, if_neg (h.pointer_ne_zero hmap hp), hhdmPhysical_pointer]

theorem PmmRunOk.blockEnd_lt (h : PmmRunOk s R L)
    (hmap : ∀ r ∈ R, DirectMapped globalHhdmOffset r) (i : Fin 168)
    (hi : (s.pmm.entry i).active = true) : (s.pmm.entry i).blockEnd < 2 ^ 64 := by
  obtain ⟨r, hr, -, hhi⟩ := h.inside i hi
  exact Nat.lt_of_le_of_lt hhi (hmap r hr).1

theorem PmmRunOk.managed (h : PmmRunOk s R L) {p : Physical} (hp : p ∈ L) :
    p ∈ s.pmm.managedPages := by
  rw [← h.live] at hp
  exact (Finset.mem_sdiff.mp hp).1

theorem PmmRunOk.used (h : PmmRunOk s R L) : PmmRunOk s R (usedPages s) := by
  rw [h.live]
  exact h

theorem PmmRunOk.not_control (h : PmmRunOk s R L) {p : Physical} (hp : p ∈ s.pmm.managedPages) :
    p ∉ s.pmm.controlPages :=
  Finset.disjoint_left.mp h.ok.managed_disjoint_control hp

theorem PmmRunOk.nextPage_eq (h : PmmRunOk s R L) {p : Physical} (hp : p ∈ s.pmm.managedPages)
    (mem : Memory) : nextPage globalHhdmOffset mem p = behind globalHhdmOffset (mem p 0) := by
  rw [nextPage, Memory.load_page mem (h.ok.managed_aligned hp)]

end Range

section Runs

variable (globalHhdmOffset : BitVec 64)

def Took (s : Machine) (p : Physical) (s' : Machine) : Prop :=
  p ∉ usedPages s ∧ usedPages s' = insert p (usedPages s)

/-- The words that the arena keeps for itself: the headers of its pages and its own fields. -/
def ArenaKeeps (self : Uintptr) (pages : List Physical) (p : Physical) (i : Fin 512) : Prop :=
  p ∈ pages ∧ (i = 0 ∨ hhdmPhysical globalHhdmOffset self = p ∧ i < 4)

/-- The states of an arena made in the state `s₀`, with the pages that it took, the last one at
the end. Calls of `kalloc` alternate with stores in pages that are out; the blocks handed out are
to be written to, the words that the arena keeps are not. -/
inductive ArenaRun (s₀ : Machine) (arena : Allocator Machine) :
    Machine → List Physical → Prop where
  | make {s : Machine} {p : Physical} {pmm : Uintptr} {p2align : BitVec 32}
      (h : makeArenaPmmAllocator globalHhdmOffset pmm p2align s₀ = .ok (arena, s))
      (hp : Took s₀ p s) : ArenaRun s₀ arena s [p]
  | alloc {s s' : Machine} {pages : List Physical} {size : Size} {blk : Blk}
      (prior : ArenaRun s₀ arena s pages) (h : kalloc arena size s = .ok (blk, s'))
      (hu : usedPages s' = usedPages s) : ArenaRun s₀ arena s' pages
  | allocPage {s s' : Machine} {pages : List Physical} {size : Size} {blk : Blk} {p : Physical}
      (prior : ArenaRun s₀ arena s pages) (h : kalloc arena size s = .ok (blk, s'))
      (hp : Took s p s') : ArenaRun s₀ arena s' (pages ++ [p])
  | write {s : Machine} {pages : List Physical} {p : Physical} {i : Fin 512}
      (prior : ArenaRun s₀ arena s pages) (hp : p ∈ usedPages s)
      (hk : ¬ ArenaKeeps globalHhdmOffset arena.self pages p i) (value : BitVec 64) :
      ArenaRun s₀ arena (s.store p i value) pages

end Runs

section Invariant

variable {globalHhdmOffset : BitVec 64} {s₀ s s' t : Machine} {R : List PmmRange}
  {L : Finset Physical} {ptr : Uintptr} {front : List Physical} {last p q : Physical}

/-- The word in the header of the last page: the arena clears the header of its own page only. -/
def lastHeader (mem : Memory) (front : List Physical) (last : Physical) : BitVec 64 :=
  if front = [] then 0#64 else mem last 0

/-- The headers lead from page to page, up to whatever the last page held before. -/
structure ArenaOk (globalHhdmOffset : BitVec 64) (s₀ : Machine) (R : List PmmRange)
    (ptr : Uintptr) (s : Machine) (front : List Physical) (last : Physical) : Prop where
  run : PmmRunOk s R (usedPages s₀ ∪ (front ++ [last]).toFinset)
  managed_eq : s.pmm.managedPages = s₀.pmm.managedPages
  apart : ∀ p ∈ front ++ [last], p ∉ usedPages s₀
  nodup : (front ++ [last]).Nodup
  unused : ∀ p ∈ s.pmm.managedPages, p ∉ usedPages s → s.mem p = s₀.mem p
  current : s.mem (hhdmPhysical globalHhdmOffset ptr) 1 = hhdmPointer globalHhdmOffset last
  chain : Seg (nextPage globalHhdmOffset s.mem) (behind globalHhdmOffset ptr) (front ++ [last])
    (behind globalHhdmOffset (lastHeader s₀.mem front last))

theorem ArenaOk.page_used (h : ArenaOk globalHhdmOffset s₀ R ptr s front last)
    (hp : p ∈ front ++ [last]) : p ∈ usedPages s := by
  rw [h.run.live, Finset.mem_union, List.mem_toFinset]
  exact Or.inr hp

theorem ArenaOk.page_managed (h : ArenaOk globalHhdmOffset s₀ R ptr s front last)
    (hp : p ∈ front ++ [last]) : p ∈ s.pmm.managedPages :=
  (Finset.mem_sdiff.mp (h.page_used hp)).1

theorem ArenaOk.home_mem (h : ArenaOk globalHhdmOffset s₀ R ptr s front last) :
    hhdmPhysical globalHhdmOffset ptr ∈ front ++ [last] := by
  have hhead := h.chain.head_eq
  cases front with
  | nil =>
    unfold behind at hhead
    by_cases hz : ptr = 0#64
    · simp [hz] at hhead
    · simp only [hz, if_false, List.nil_append, headOr_cons, Option.some.injEq] at hhead
      simp [hhead]
  | cons p front =>
    unfold behind at hhead
    by_cases hz : ptr = 0#64
    · simp [hz] at hhead
    · simp only [hz, if_false, List.cons_append, headOr_cons, Option.some.injEq] at hhead
      simp [hhead]

theorem ArenaOk.store (h : ArenaOk globalHhdmOffset s₀ R ptr s front last)
    (hp : p ∈ usedPages s) {i : Fin 512} (hheader : p ∈ front ++ [last] → i ≠ 0)
    (hcurrent : hhdmPhysical globalHhdmOffset ptr = p → i ≠ 1) (value : BitVec 64) :
    ArenaOk globalHhdmOffset s₀ R ptr (s.store p i value) front last := by
  have hrun := h.run.write (h.run.live ▸ hp) i value
  refine ⟨hrun, h.managed_eq, h.apart, h.nodup, ?_, ?_, ?_⟩
  · intro q hq hn
    rw [hrun.live, ← h.run.live] at hn
    have hne : q ≠ p := fun he => hn (he ▸ hp)
    rw [← h.unused q hq hn]
    funext j
    rw [store_apply, if_neg (fun he => hne he.1)]
  · rw [store_apply, if_neg (fun he => hcurrent he.1 he.2.symm)]
    exact h.current
  · apply h.chain.congr
    intro q hq
    rw [h.run.nextPage_eq (h.page_managed hq), h.run.nextPage_eq (h.page_managed hq), store_apply,
      if_neg]
    rintro ⟨rfl, hi⟩
    exact hheader hq hi.symm

theorem ArenaOk.storeOffset (h : ArenaOk globalHhdmOffset s₀ R ptr s front last)
    (p2align offset : BitVec 32) : ArenaOk globalHhdmOffset s₀ R ptr
      (s.storeOffset (hhdmPhysical globalHhdmOffset ptr) p2align offset) front last :=
  h.store (h.page_used h.home_mem) (fun _ => by decide) (fun _ => by decide) _

theorem Allocated.mem_managed {s t : Machine} (h : Allocated s q t) (hp : PmmOk s)
    (hm : p ∈ s.pmm.managedPages) : t.mem p = s.mem p :=
  h.mem_eq p (Finset.disjoint_left.mp hp.managed_disjoint_control hm)

theorem arenaAddPage_apply {home r : Physical} {j : Fin 512}
    (hc : hhdmPhysical globalHhdmOffset (t.mem home 1) = last) (hj : r = home → j ≠ 2) :
    (arenaAddPage globalHhdmOffset home q t).mem r j =
      if r = home ∧ j = 1 ∨ r = last ∧ j = 0 then hhdmPointer globalHhdmOffset q
      else t.mem r j := by
  have hoffset : ¬ (r = home ∧ j = 2) := fun he => hj he.1 he.2
  unfold arenaAddPage Machine.storeOffset readArena
  simp only [hc, store_apply, hoffset, if_false]
  by_cases h₁ : r = home ∧ j = 1
  · simp [h₁]
  · simp [h₁]

theorem arenaAddPage_run {home : Physical} (h : PmmRunOk t R L) (hhome : home ∈ L)
    (hc : hhdmPhysical globalHhdmOffset (t.mem home 1) = last) (hlast : last ∈ L) :
    PmmRunOk (arenaAddPage globalHhdmOffset home q t) R L := by
  rw [← hc] at hlast
  exact ((h.write hlast _ _).write hhome _ _).write hhome _ _

theorem union_append_singleton (L : Finset Physical) (pages : List Physical) (q : Physical) :
    L ∪ (pages ++ [q]).toFinset = insert q (L ∪ pages.toFinset) := by
  ext p
  simp only [Finset.mem_union, List.mem_toFinset, List.mem_append, List.mem_singleton,
    Finset.mem_insert]
  tauto

section PageSwitch

variable (h : ArenaOk globalHhdmOffset s₀ R ptr s front last) (ha : Allocated s q t)
include h ha

theorem ArenaOk.switch_current :
    hhdmPhysical globalHhdmOffset (t.mem (hhdmPhysical globalHhdmOffset ptr) 1) = last := by
  rw [ha.mem_managed h.run.ok (h.page_managed h.home_mem), h.current, hhdmPhysical_pointer]

theorem ArenaOk.switch_fresh : q ∉ usedPages s ∧ q ∉ front ++ [last] := by
  have hfree : q ∉ usedPages s := fun hin => (Finset.mem_sdiff.mp hin).2 ha.was_free
  exact ⟨hfree, fun hin => hfree (h.page_used hin)⟩

theorem ArenaOk.switch_run : PmmRunOk
    (arenaAddPage globalHhdmOffset (hhdmPhysical globalHhdmOffset ptr) q t) R
    (usedPages s₀ ∪ (front ++ [last] ++ [q]).toFinset) := by
  have hpages : ∀ p ∈ front ++ [last], p ∈ insert q (usedPages s₀ ∪ (front ++ [last]).toFinset) := by
    intro p hp
    rw [← h.run.live]
    exact Finset.mem_insert_of_mem (h.page_used hp)
  rw [union_append_singleton]
  exact arenaAddPage_run (h.run.take ha) (hpages _ h.home_mem) (h.switch_current ha)
    (hpages last (by simp))

theorem ArenaOk.switch_next (hmap : ∀ r ∈ R, DirectMapped globalHhdmOffset r)
    (hp : p ∈ s.pmm.managedPages) : nextPage globalHhdmOffset
      (arenaAddPage globalHhdmOffset (hhdmPhysical globalHhdmOffset ptr) q t).mem p =
      if p = last then some q else behind globalHhdmOffset (s.mem p 0) := by
  have hq := h.run.ok.free_subset_managed ha.was_free
  rw [h.run.nextPage_eq hp, arenaAddPage_apply (h.switch_current ha) (fun _ => by decide),
    ha.mem_managed h.run.ok hp]
  by_cases he : p = last
  · simp [he, h.run.behind_pointer hmap hq]
  · simp [he]

theorem ArenaOk.switch_links (hmap : ∀ r ∈ R, DirectMapped globalHhdmOffset r) :
    Seg (nextPage globalHhdmOffset
      (arenaAddPage globalHhdmOffset (hhdmPhysical globalHhdmOffset ptr) q t).mem)
      (behind globalHhdmOffset ptr) (front ++ [last]) (some q) := by
  apply h.chain.redirect
  · rw [h.switch_next ha hmap (h.page_managed (by simp)), if_pos rfl]
  · intro p hp
    have hm := h.page_managed (List.mem_append_left _ hp)
    have hne : p ≠ last := (List.nodup_append.mp h.nodup).2.2 p hp last (by simp)
    rw [h.switch_next ha hmap hm, if_neg hne, h.run.nextPage_eq hm]

theorem ArenaOk.switch_mem (hp : p ∈ s.pmm.managedPages) (hn : p ∉ front ++ [last]) :
    (arenaAddPage globalHhdmOffset (hhdmPhysical globalHhdmOffset ptr) q t).mem p = s.mem p := by
  have hhome : p ≠ hhdmPhysical globalHhdmOffset ptr := fun he => hn (he ▸ h.home_mem)
  have hlast : p ≠ last := fun he => hn (by simp [he])
  funext j
  rw [arenaAddPage_apply (h.switch_current ha) (fun he => absurd he hhome),
    ha.mem_managed h.run.ok hp]
  simp [hhome, hlast]

theorem ArenaOk.addPage (hmap : ∀ r ∈ R, DirectMapped globalHhdmOffset r) :
    ArenaOk globalHhdmOffset s₀ R ptr
      (arenaAddPage globalHhdmOffset (hhdmPhysical globalHhdmOffset ptr) q t)
      (front ++ [last]) q := by
  have hq := h.run.ok.free_subset_managed ha.was_free
  obtain ⟨hfree, hnew⟩ := h.switch_fresh ha
  have hrun := h.switch_run ha
  refine ⟨hrun, ha.managed_eq.trans h.managed_eq, ?_, ?_, ?_, ?_, ?_⟩
  · intro p hp
    rcases List.mem_append.mp hp with hp | hp
    · exact h.apart p hp
    · rw [List.mem_singleton.mp hp]
      rw [h.run.live] at hfree
      exact fun hin => hfree (Finset.mem_union_left _ hin)
  · rw [List.nodup_append]
    refine ⟨h.nodup, List.nodup_singleton q, ?_⟩
    intro p hp r hr he
    rw [List.mem_singleton.mp hr] at he
    exact hnew (he ▸ hp)
  · intro p hp hn
    have hm : p ∈ s.pmm.managedPages := ha.managed_eq ▸ hp
    rw [hrun.live, Finset.mem_union, not_or, List.mem_toFinset] at hn
    have hout : p ∉ front ++ [last] := fun hin => hn.2 (List.mem_append_left _ hin)
    rw [h.switch_mem ha hm hout]
    apply h.unused p hm
    rw [h.run.live, Finset.mem_union, not_or, List.mem_toFinset]
    exact ⟨hn.1, hout⟩
  · rw [arenaAddPage_apply (h.switch_current ha) (fun _ => by decide)]
    simp
  · have hne : q ≠ last := fun he => hnew (by simp [he])
    rw [seg_append]
    refine ⟨h.switch_links ha hmap, rfl, ?_⟩
    rw [h.switch_next ha hmap hq, if_neg hne, h.unused q hq hfree, lastHeader, if_neg (by simp)]
    rfl

end PageSwitch

/-- The outcomes of a call: no block, a block in the current page, or a block in a new page. -/
theorem arenaPmmAlloc_cases (globalHhdmOffset : BitVec 64) (h : PmmOk s) (ptr : Uintptr)
    (size : Size) : ∃ blk s', arenaPmmAlloc globalHhdmOffset ptr size s = .ok (blk, s') ∧
      (s' = s ∨
      (∃ p2align offset,
        s' = s.storeOffset (hhdmPhysical globalHhdmOffset ptr) p2align offset) ∨
      ∃ q t p2align offset, Allocated s q t ∧
        s' = (arenaAddPage globalHhdmOffset (hhdmPhysical globalHhdmOffset ptr) q t).storeOffset
          (hhdmPhysical globalHhdmOffset ptr) p2align offset) := by
  unfold arenaPmmAlloc
  simp only
  split
  · exact ⟨_, _, rfl, Or.inl rfl⟩
  · split
    · rcases pmmAllocatePage_spec h with ⟨-, he⟩ | ⟨q, t, he, ha⟩
      · rw [he]
        exact ⟨_, _, rfl, Or.inl rfl⟩
      · have hne := h.managed_ne_zero (h.free_subset_managed ha.was_free)
        rw [he]
        simp only [hne, if_false]
        exact ⟨_, _, rfl, Or.inr (Or.inr ⟨q, t, _, _, ha, rfl⟩)⟩
    · exact ⟨_, _, rfl, Or.inr (Or.inl ⟨_, _, rfl⟩)⟩

theorem ArenaOk.kalloc (h : ArenaOk globalHhdmOffset s₀ R ptr s front last)
    (hmap : ∀ r ∈ R, DirectMapped globalHhdmOffset r) (size : Size) :
    ∃ blk s', kalloc ⟨ptr, some (arenaPmmVtbl globalHhdmOffset)⟩ size s = .ok (blk, s') ∧
      ((usedPages s' = usedPages s ∧ ArenaOk globalHhdmOffset s₀ R ptr s' front last) ∨
      ∃ q, Took s q s' ∧ ArenaOk globalHhdmOffset s₀ R ptr s' (front ++ [last]) q) := by
  unfold Ukulele.kalloc
  by_cases hz : size = 0#64
  · rw [if_pos hz]
    exact ⟨_, s, rfl, Or.inl ⟨rfl, h⟩⟩
  · rw [if_neg hz]
    obtain ⟨blk, s', hrun, hs | ⟨x, y, hs⟩ | ⟨q, t, x, y, ha, hs⟩⟩ :=
      arenaPmmAlloc_cases globalHhdmOffset h.run.ok ptr size
    · subst hs
      exact ⟨blk, s', hrun, Or.inl ⟨rfl, h⟩⟩
    · subst hs
      have hok := h.storeOffset x y
      exact ⟨blk, _, hrun, Or.inl ⟨hok.run.live.trans h.run.live.symm, hok⟩⟩
    · subst hs
      have hok := (h.addPage ha hmap).storeOffset x y
      refine ⟨blk, _, hrun, Or.inr ⟨q, ⟨(h.switch_fresh ha).1, ?_⟩, hok⟩⟩
      rw [hok.run.live, union_append_singleton, ← h.run.live]

theorem Took.unique {s s' : Machine} (hp : Took s p s') (hq : Took s q s') : p = q := by
  have hin : p ∈ insert q (usedPages s) := by
    rw [← hq.2, hp.2]
    exact Finset.mem_insert_self p _
  rcases Finset.mem_insert.mp hin with he | hin
  · exact he
  · exact absurd hin hp.1

theorem Took.used_ne {s s' : Machine} (hp : Took s p s') : usedPages s' ≠ usedPages s := by
  intro he
  apply hp.1
  rw [← he, hp.2]
  exact Finset.mem_insert_self p _

theorem storeArena_apply {arena : ArenaPmm} {r : Physical} {j : Fin 512} (hj : j ≠ 2)
    (hj' : j ≠ 3) : (t.storeArena q arena).mem r j =
      if r = q ∧ j = 1 then arena.currentPage else if r = q ∧ j = 0 then arena.next
      else t.mem r j := by
  unfold Machine.storeArena Machine.storeOffset
  simp [store_apply, hj, hj']

theorem storeArena_mem_ne {arena : ArenaPmm} {r : Physical} (hr : r ≠ q) :
    (t.storeArena q arena).mem r = t.mem r := by
  unfold Machine.storeArena Machine.storeOffset
  funext j
  simp [store_apply, hr]

theorem ArenaOk.make (h : PmmRunOk s₀ R (usedPages s₀))
    (hmap : ∀ r ∈ R, DirectMapped globalHhdmOffset r) (ha : Allocated s₀ q t) {arena : ArenaPmm}
    (hnext : arena.next = 0#64) (hcur : arena.currentPage = hhdmPointer globalHhdmOffset q) :
    ArenaOk globalHhdmOffset s₀ R (hhdmPointer globalHhdmOffset q) (t.storeArena q arena) [] q := by
  have hq := h.ok.free_subset_managed ha.was_free
  have hfree : q ∉ usedPages s₀ := fun hin => (Finset.mem_sdiff.mp hin).2 ha.was_free
  have hset : usedPages s₀ ∪ [q].toFinset = insert q (usedPages s₀) := by
    have hone := union_append_singleton (usedPages s₀) [] q
    rw [List.toFinset_nil, Finset.union_empty] at hone
    exact hone
  have hself := Finset.mem_insert_self q (usedPages s₀)
  have hrun : PmmRunOk (t.storeArena q arena) R (usedPages s₀ ∪ [q].toFinset) := by
    rw [hset]
    exact ((((h.take ha).write hself _ _).write hself _ _).write hself _ _).write hself _ _
  refine ⟨hrun, ha.managed_eq, ?_, List.nodup_singleton q, ?_, ?_, ?_⟩
  · intro p hp
    rw [List.mem_singleton.mp hp]
    exact hfree
  · intro p hp hn
    have hm : p ∈ s₀.pmm.managedPages := ha.managed_eq ▸ hp
    rw [hrun.live, hset, Finset.mem_insert, not_or] at hn
    rw [storeArena_mem_ne hn.1, ha.mem_managed h.ok hm]
  · rw [hhdmPhysical_pointer, storeArena_apply (by decide) (by decide)]
    simp [hcur]
  · rw [h.behind_pointer hmap hq]
    refine ⟨rfl, ?_⟩
    rw [h.nextPage_eq hq, storeArena_apply (by decide) (by decide)]
    simp [Seg, hnext, lastHeader]

theorem makeArenaPmmAllocator_cases (globalHhdmOffset : BitVec 64) (h : PmmOk s₀) (pmm : Uintptr)
    (p2align : BitVec 32) :
    makeArenaPmmAllocator globalHhdmOffset pmm p2align s₀ = .ok (⟨0#64, none⟩, s₀) ∨
    ∃ q t arena, Allocated s₀ q t ∧ arena.next = 0#64 ∧
      arena.currentPage = hhdmPointer globalHhdmOffset q ∧
      makeArenaPmmAllocator globalHhdmOffset pmm p2align s₀ =
        .ok (⟨hhdmPointer globalHhdmOffset q, some (arenaPmmVtbl globalHhdmOffset)⟩,
          t.storeArena q arena) := by
  unfold makeArenaPmmAllocator
  rcases pmmAllocatePage_spec h with ⟨-, he⟩ | ⟨q, t, he, ha⟩
  · rw [he]
    exact Or.inl rfl
  · have hne := h.managed_ne_zero (h.free_subset_managed ha.was_free)
    rw [he]
    simp only [hne, if_false]
    exact Or.inr ⟨q, t, _, ha, rfl, rfl, rfl⟩

theorem ArenaRun.invariant {arena : Allocator Machine} {pages : List Physical}
    (h₀ : PmmRunOk s₀ R (usedPages s₀)) (hmap : ∀ r ∈ R, DirectMapped globalHhdmOffset r)
    (h : ArenaRun globalHhdmOffset s₀ arena s pages) :
    arena.vtbl = some (arenaPmmVtbl globalHhdmOffset) ∧ ∃ front last, pages = front ++ [last] ∧
      ArenaOk globalHhdmOffset s₀ R arena.self s front last := by
  induction h with
  | @make s p pmm p2align h hp =>
    rcases makeArenaPmmAllocator_cases globalHhdmOffset h₀.ok pmm p2align
      with he | ⟨q, t, a, ha, hnext, hcur, he⟩
    · rw [h] at he
      cases he
      exact absurd rfl hp.used_ne
    · rw [h] at he
      cases he
      have hok := ArenaOk.make h₀ hmap ha hnext hcur
      have hq : Took s₀ q (t.storeArena q a) := by
        refine ⟨hok.apart q (by simp), ?_⟩
        rw [hok.run.live, union_append_singleton]
        simp
      rw [hp.unique hq]
      exact ⟨rfl, [], q, rfl, hok⟩
  | @alloc s s' pages size blk prior h hu ih =>
    obtain ⟨hv, front, last, rfl, hok⟩ := ih
    refine ⟨hv, front, last, rfl, ?_⟩
    obtain ⟨b, t, ht, ⟨-, ht'⟩ | ⟨q, hq, -⟩⟩ := hok.kalloc hmap size
    · rw [← hv, h] at ht
      cases ht
      exact ht'
    · rw [← hv, h] at ht
      cases ht
      exact absurd hu hq.used_ne
  | @allocPage s s' pages size blk p prior h hp ih =>
    obtain ⟨hv, front, last, rfl, hok⟩ := ih
    refine ⟨hv, front ++ [last], p, rfl, ?_⟩
    obtain ⟨b, t, ht, ⟨hu, -⟩ | ⟨q, hq, ht'⟩⟩ := hok.kalloc hmap size
    · rw [← hv, h] at ht
      cases ht
      exact absurd hu hp.used_ne
    · rw [← hv, h] at ht
      cases ht
      rw [hp.unique hq]
      exact ht'
  | @write s pages p i prior hp hk value ih =>
    obtain ⟨hv, front, last, rfl, hok⟩ := ih
    refine ⟨hv, front, last, rfl, hok.store hp ?_ ?_ value⟩
    · intro hin hz
      exact hk ⟨hin, Or.inl hz⟩
    · rintro rfl rfl
      exact hk ⟨hok.home_mem, Or.inr ⟨rfl, by decide⟩⟩

end Invariant

section Delete

variable {globalHhdmOffset : BitVec 64} {s₀ s : Machine} {R : List PmmRange}
  {L : Finset Physical}

theorem arenaPmmDelLoop_seg (hmap : ∀ r ∈ R, DirectMapped globalHhdmOffset r) {w : Uintptr}
    (pages : List Physical) : ∀ {s : Machine} {L : Finset Physical} {page : Uintptr},
    PmmRunOk s R L → (∀ p ∈ pages, p ∈ L) → pages.Nodup →
    Seg (nextPage globalHhdmOffset s.mem) (behind globalHhdmOffset page) pages
      (behind globalHhdmOffset w) →
    ∃ s', PmmRunOk s' R (L \ pages.toFinset) ∧ ∀ fuel,
      arenaPmmDelLoop globalHhdmOffset (fuel + pages.length) page s =
        (arenaPmmDelLoop globalHhdmOffset fuel w s').map (fun r => (pages ++ r.1, r.2)) := by
  induction pages with
  | nil =>
    intro s L page h _ _ hseg
    refine ⟨s, by simpa using h, ?_⟩
    intro fuel
    rw [behind_inj hseg, List.length_nil, Nat.add_zero]
    cases arenaPmmDelLoop globalHhdmOffset fuel w s with
    | error e => rfl
    | ok r => rfl
  | cons p pages ih =>
    intro s L page h hin hnodup hseg
    obtain ⟨hhead, hrest⟩ := hseg
    obtain ⟨hnotin, hnodup⟩ := List.nodup_cons.mp hnodup
    have hp := hin p List.mem_cons_self
    have hlive := h.live
    subst hlive
    obtain ⟨t, ht, hf⟩ := pmmFreePage_spec h.ok hp (h.blockEnd_lt hmap)
    have hfreed := h.free hf
    have hseg' : Seg (nextPage globalHhdmOffset t.mem)
        (behind globalHhdmOffset (s.mem.load p)) pages (behind globalHhdmOffset w) := by
      apply hrest.congr
      intro q hq
      have hm := h.managed (hin q (List.mem_cons_of_mem p hq))
      rw [h.nextPage_eq hm, h.nextPage_eq hm, hf.mem_eq q (h.not_control hm)]
    obtain ⟨s', hs', hloop⟩ := ih hfreed (by
      intro q hq
      refine Finset.mem_erase.mpr ⟨?_, hin q (List.mem_cons_of_mem p hq)⟩
      rintro rfl
      exact hnotin hq) hnodup hseg'
    refine ⟨s', ?_, ?_⟩
    · rw [List.toFinset_cons, Finset.sdiff_insert, ← Finset.erase_sdiff_comm]
      exact hs'
    · intro fuel
      unfold behind at hhead
      by_cases hz : page = 0#64
      · simp [hz] at hhead
      · simp only [hz, if_false, Option.some.injEq] at hhead
        rw [List.length_cons, ← Nat.add_assoc, arenaPmmDelLoop]
        simp only [hz, if_false, hhead, ht, hloop]
        cases arenaPmmDelLoop globalHhdmOffset fuel w s' with
        | error e => rfl
        | ok r => rfl

theorem arenaPmmDelLoop_mono (fuel : Nat) : ∀ {page : Uintptr} {s : Machine},
    arenaPmmDelLoop globalHhdmOffset fuel page s ≠ .error .outOfFuel → ∀ k,
    arenaPmmDelLoop globalHhdmOffset (fuel + k) page s =
      arenaPmmDelLoop globalHhdmOffset fuel page s := by
  induction fuel with
  | zero =>
    intro page s h k
    unfold arenaPmmDelLoop at h ⊢
    by_cases hz : page = 0#64
    · simp [hz]
    · simp [hz] at h
  | succ fuel ih =>
    intro page s h k
    rw [Nat.add_right_comm]
    unfold arenaPmmDelLoop at h ⊢
    by_cases hz : page = 0#64
    · simp [hz]
    · simp only [hz, if_false] at h ⊢
      cases ht : pmmFreePage s (hhdmPhysical globalHhdmOffset page) with
      | error e => rfl
      | ok t =>
        simp only [ht] at h ⊢
        have hrest : arenaPmmDelLoop globalHhdmOffset fuel
            (s.mem.load (hhdmPhysical globalHhdmOffset page)) t ≠ .error .outOfFuel := by
          intro he
          simp [he] at h
        rw [ih hrest k]

/-- The deletion ends, it calls `pmm_free_page` once for each of the pages and for no other, and
the pages out are those of the state before the arena was made. -/
def DelReturnsPages (globalHhdmOffset : BitVec 64) (s₀ s : Machine) (ptr : Uintptr)
    (pages : List Physical) : Prop :=
  ∃ fuel freed s', arenaPmmDel globalHhdmOffset fuel ptr s = .ok (freed, s') ∧
    (∀ p, freed.count p = if p ∈ pages then 1 else 0) ∧ usedPages s' = usedPages s₀

/-- The arena took no page but its own, or the last page that it took began with a null word. -/
def LastHeaderClear (mem : Memory) (pages : List Physical) : Prop :=
  pages.length = 1 ∨ ∀ p ∈ pages.getLast?, mem p 0 = 0#64

theorem lastHeader_eq_zero_iff {mem : Memory} {front : List Physical} {last : Physical} :
    lastHeader mem front last = 0#64 ↔ LastHeaderClear mem (front ++ [last]) := by
  unfold lastHeader LastHeaderClear
  cases front with
  | nil => simp
  | cons p front =>
    rw [if_neg (by simp), List.getLast?_concat]
    simp

theorem ArenaOk.del {ptr : Uintptr} {front : List Physical} {last : Physical}
    (h : ArenaOk globalHhdmOffset s₀ R ptr s front last)
    (hmap : ∀ r ∈ R, DirectMapped globalHhdmOffset r) :
    ∃ s', usedPages s' = usedPages s₀ ∧ ∀ fuel,
      arenaPmmDel globalHhdmOffset (fuel + (front ++ [last]).length) ptr s =
        (arenaPmmDelLoop globalHhdmOffset fuel (lastHeader s₀.mem front last) s').map
          (fun r => (front ++ [last] ++ r.1, r.2)) := by
  obtain ⟨s', hs', hloop⟩ := arenaPmmDelLoop_seg hmap (front ++ [last]) h.run
    (fun p hp => h.run.live ▸ h.page_used hp) h.nodup h.chain
  refine ⟨s', ?_, hloop⟩
  rw [hs'.live, Finset.union_sdiff_right, Finset.sdiff_eq_self_iff_disjoint,
    Finset.disjoint_right]
  intro p hp
  exact h.apart p (List.mem_toFinset.mp hp)

theorem arenaPmmDelLoop_calls {fuel : Nat} {page : Uintptr} {r : List Physical × Machine}
    (hz : page ≠ 0#64) (h : arenaPmmDelLoop globalHhdmOffset fuel page s = .ok r) :
    hhdmPhysical globalHhdmOffset page ∈ r.1 := by
  unfold arenaPmmDelLoop at h
  cases fuel with
  | zero => simp [hz] at h
  | succ fuel =>
    simp only [hz, if_false] at h
    cases ht : pmmFreePage s (hhdmPhysical globalHhdmOffset page) with
    | error e => simp [ht] at h
    | ok t =>
      cases hr : arenaPmmDelLoop globalHhdmOffset fuel
          (s.mem.load (hhdmPhysical globalHhdmOffset page)) t with
      | error e => simp [ht, hr] at h
      | ok u =>
        simp only [ht, hr, Except.ok.injEq] at h
        rw [← h]
        exact List.mem_cons_self

theorem ArenaOk.not_returns {ptr : Uintptr} {front : List Physical} {last : Physical}
    (h : ArenaOk globalHhdmOffset s₀ R ptr s front last)
    (hmap : ∀ r ∈ R, DirectMapped globalHhdmOffset r)
    (hw : lastHeader s₀.mem front last ≠ 0#64) :
    ¬ DelReturnsPages globalHhdmOffset s₀ s ptr (front ++ [last]) := by
  rintro ⟨fuel, freed, u, hrun, hcount, -⟩
  obtain ⟨s', -, hdel⟩ := h.del hmap
  have hmore := hdel fuel
  unfold arenaPmmDel at hrun hmore
  rw [arenaPmmDelLoop_mono fuel (by simp [hrun]), hrun] at hmore
  cases hr : arenaPmmDelLoop globalHhdmOffset fuel (lastHeader s₀.mem front last) s' with
  | error e => simp [hr, Except.map] at hmore
  | ok r =>
    simp only [hr, Except.map, Except.ok.injEq, Prod.mk.injEq] at hmore
    have hpos := List.count_pos_iff.mpr (arenaPmmDelLoop_calls hw hr)
    have hx := hcount (hhdmPhysical globalHhdmOffset (lastHeader s₀.mem front last))
    rw [hmore.1, List.count_append, h.nodup.count] at hx
    omega

theorem ArenaRun.kalloc_returns {arena : Allocator Machine} {pages : List Physical}
    (h₀ : PmmRun s₀ R L) (hmap : ∀ r ∈ R, DirectMapped globalHhdmOffset r)
    (h : ArenaRun globalHhdmOffset s₀ arena s pages) (size : Size) :
    ∃ blk s' pages', kalloc arena size s = .ok (blk, s') ∧
      ArenaRun globalHhdmOffset s₀ arena s' pages' := by
  obtain ⟨hv, front, last, rfl, hok⟩ := h.invariant h₀.invariant.used hmap
  obtain ⟨blk, s', hrun, ⟨hu, -⟩ | ⟨q, hq, -⟩⟩ := hok.kalloc hmap size
  · rw [← hv] at hrun
    exact ⟨blk, s', _, hrun, h.alloc hrun hu⟩
  · rw [← hv] at hrun
    exact ⟨blk, s', _, hrun, h.allocPage hrun hq⟩

theorem makeArena_took {pmm : Uintptr} {p2align : BitVec 32} {arena : Allocator Machine}
    (h₀ : PmmRun s₀ R L) (hmap : ∀ r ∈ R, DirectMapped globalHhdmOffset r)
    (h : makeArenaPmmAllocator globalHhdmOffset pmm p2align s₀ = .ok (arena, s))
    (hv : arena.self ≠ 0#64) : ∃ p, Took s₀ p s := by
  have hrun := h₀.invariant.used
  rcases makeArenaPmmAllocator_cases globalHhdmOffset hrun.ok pmm p2align
    with he | ⟨q, t, a, ha, hnext, hcur, he⟩
  · rw [h] at he
    cases he
    exact absurd rfl hv
  · rw [h] at he
    cases he
    have hok := ArenaOk.make hrun hmap ha hnext hcur
    refine ⟨q, hok.apart q (by simp), ?_⟩
    rw [hok.run.live, union_append_singleton]
    simp

theorem ArenaRun.of_make {pmm : Uintptr} {p2align : BitVec 32} {arena : Allocator Machine}
    (h₀ : PmmRun s₀ R L) (hmap : ∀ r ∈ R, DirectMapped globalHhdmOffset r)
    (h : makeArenaPmmAllocator globalHhdmOffset pmm p2align s₀ = .ok (arena, s))
    (hv : arena.self ≠ 0#64) : ∃ p, ArenaRun globalHhdmOffset s₀ arena s [p] := by
  obtain ⟨p, hp⟩ := makeArena_took h₀ hmap h hv
  exact ⟨p, ArenaRun.make h hp⟩

theorem ArenaRun.clear_of_zero {arena : Allocator Machine} {pages : List Physical}
    (h₀ : PmmRun s₀ R L) (hmap : ∀ r ∈ R, DirectMapped globalHhdmOffset r)
    (h : ArenaRun globalHhdmOffset s₀ arena s pages)
    (hz : ∀ p ∈ s₀.pmm.managedPages, s₀.mem p 0 = 0#64) : LastHeaderClear s₀.mem pages := by
  obtain ⟨-, front, last, rfl, hok⟩ := h.invariant h₀.invariant.used hmap
  have hlast := hok.page_managed (p := last) (by simp)
  rw [hok.managed_eq] at hlast
  right
  simpa using hz last hlast

/-- Deleting an arena gives back its pages exactly if the header of its last page ends the list. -/
theorem arena_del_returns_pages {arena : Allocator Machine} {pages : List Physical}
    (h₀ : PmmRun s₀ R L) (hmap : ∀ r ∈ R, DirectMapped globalHhdmOffset r)
    (h : ArenaRun globalHhdmOffset s₀ arena s pages) :
    DelReturnsPages globalHhdmOffset s₀ s arena.self pages ↔ LastHeaderClear s₀.mem pages := by
  obtain ⟨-, front, last, rfl, hok⟩ := h.invariant h₀.invariant.used hmap
  obtain ⟨s', hused, hdel⟩ := hok.del hmap
  rw [← lastHeader_eq_zero_iff]
  constructor
  · intro hret
    by_contra hw
    exact hok.not_returns hmap hw hret
  · intro hw
    refine ⟨0 + (front ++ [last]).length, front ++ [last], s', ?_, fun p => hok.nodup.count, hused⟩
    rw [hdel, hw]
    unfold arenaPmmDelLoop
    simp [Except.map]

end Delete

section Example

def exampleHhdmOffset : BitVec 64 := 0xffff800000000000#64

def exampleArena (s : Machine) : Except Fault (Machine × Allocator Machine × Machine) := do
  let s₀ ← pmmAdd s exampleRange.start exampleRange.size
  let (arena, s) ← makeArenaPmmAllocator exampleHhdmOffset 0x1000#64 4#32 s₀
  let (_, s) ← kalloc arena 4000#64 s
  let (_, s) ← kalloc arena 200#64 s
  return (s₀, arena, s)

def staleMachine : Machine :=
  { bareMachine with mem := fun p i => if p = 0x102000#64 ∧ i = 0 then 0x10#64 else 0#64 }

theorem staleMachine_run : PmmRun staleMachine [] ∅ := by
  have h : pmmNew 0x1000#64 = .ok ⟨fun _ => emptyEntry⟩ := rfl
  exact PmmRun.new _ _ h

theorem exampleArena_run {m s₀ s : Machine} {arena : Allocator Machine} (hm : PmmRun m [] ∅)
    (h : exampleArena m = .ok (s₀, arena, s)) (hv : arena.self ≠ 0#64) :
    PmmRun s₀ [exampleRange] ∅ ∧ ∃ pages, ArenaRun exampleHhdmOffset s₀ arena s pages := by
  unfold exampleArena at h
  cases hadd : pmmAdd m exampleRange.start exampleRange.size with
  | error e => simp [hadd, bind, Except.bind] at h
  | ok t₀ =>
    have hrun := PmmRun.add exampleRange hm (by decide) (by simp) hadd
    have hmap : ∀ r ∈ [exampleRange], DirectMapped exampleHhdmOffset r := by decide
    simp only [hadd, bind, Except.bind] at h
    cases hmake : makeArenaPmmAllocator exampleHhdmOffset 0x1000#64 4#32 t₀ with
    | error e => simp [hmake] at h
    | ok r₁ =>
      obtain ⟨a, t₁⟩ := r₁
      simp only [hmake] at h
      cases hfst : kalloc a 4000#64 t₁ with
      | error e => simp [hfst] at h
      | ok r₂ =>
        obtain ⟨b, t₂⟩ := r₂
        simp only [hfst] at h
        cases hsnd : kalloc a 200#64 t₂ with
        | error e => simp [hsnd] at h
        | ok r₃ =>
          obtain ⟨c, t₃⟩ := r₃
          simp only [hsnd, pure, Except.pure, Except.ok.injEq, Prod.mk.injEq] at h
          obtain ⟨rfl, rfl, rfl⟩ := h
          obtain ⟨p, h₁⟩ := ArenaRun.of_make hrun hmap hmake hv
          obtain ⟨b', t₂', pages, hk, h₂⟩ := h₁.kalloc_returns hrun hmap 4000#64
          rw [hfst] at hk
          cases hk
          obtain ⟨c', t₃', pages', hk, h₃⟩ := h₂.kalloc_returns hrun hmap 200#64
          rw [hsnd] at hk
          cases hk
          exact ⟨hrun, pages', h₃⟩

/-- The arena has gone on to a second page, and what the free pages began with was null. -/
def OnClearedPages (s₀ : Machine) (arena : Allocator Machine) (s : Machine) : Prop :=
  arena.self ≠ 0#64 ∧ s.mem (hhdmPhysical exampleHhdmOffset arena.self) 1 ≠ arena.self ∧
    ∀ i, (s₀.pmm.entry i).active = true → ∀ k < (s₀.pmm.entry i).maxPages.toNat,
      s₀.mem ((s₀.pmm.entry i).pageAt k) 0 = 0#64

instance (s₀ : Machine) (arena : Allocator Machine) (s : Machine) :
    Decidable (OnClearedPages s₀ arena s) := inferInstanceAs (Decidable (_ ∧ _ ∧ _))

theorem arena_del_returns_pages_example : ∃ s₀ arena s pages, PmmRun s₀ [exampleRange] ∅ ∧
    ArenaRun exampleHhdmOffset s₀ arena s pages ∧ OnClearedPages s₀ arena s ∧
    DelReturnsPages exampleHhdmOffset s₀ s arena.self pages := by
  have hcompute : (exampleArena bareMachine).map
      (fun r => decide (OnClearedPages r.1 r.2.1 r.2.2)) = .ok true := by
    unfold exampleArena
    rw [pmmAdd]
    decide +kernel
  cases h : exampleArena bareMachine with
  | error e => simp [h, Except.map] at hcompute
  | ok r =>
    obtain ⟨s₀, arena, s⟩ := r
    simp only [h, Except.map, Except.ok.injEq, decide_eq_true_eq] at hcompute
    obtain ⟨hrun, pages, harena⟩ := exampleArena_run bareMachine_run h hcompute.1
    have hmap : ∀ r ∈ [exampleRange], DirectMapped exampleHhdmOffset r := by decide
    refine ⟨s₀, arena, s, pages, hrun, harena, hcompute, ?_⟩
    apply (arena_del_returns_pages hrun hmap harena).mpr
    apply harena.clear_of_zero hrun hmap
    intro p hp
    obtain ⟨i, hi, k, hk, rfl⟩ := mem_managedPages.mp hp
    exact hcompute.2.2 i hi k hk

/-- The stale word of the second page is taken for the next page. -/
theorem arena_del_follows_stale_header : ∃ s₀ arena s pages, PmmRun s₀ [exampleRange] ∅ ∧
    ArenaRun exampleHhdmOffset s₀ arena s pages ∧
    arenaPmmDel exampleHhdmOffset 3 arena.self s = .error (.badFree 0x800000000010#64) ∧
    ¬ DelReturnsPages exampleHhdmOffset s₀ s arena.self pages := by
  have hcompute : (exampleArena staleMachine).map (fun r => (decide (r.2.1.self = 0#64),
      (arenaPmmDel exampleHhdmOffset 3 r.2.1.self r.2.2).map (fun _ => ()))) =
      .ok (false, .error (.badFree 0x800000000010#64)) := by
    unfold exampleArena
    rw [pmmAdd]
    decide +kernel
  cases h : exampleArena staleMachine with
  | error e => simp [h, Except.map] at hcompute
  | ok r =>
    obtain ⟨s₀, arena, s⟩ := r
    simp only [h, Except.map, Except.ok.injEq, Prod.mk.injEq, decide_eq_false_iff_not] at hcompute
    obtain ⟨hself, hdel⟩ := hcompute
    obtain ⟨hrun, pages, harena⟩ := exampleArena_run staleMachine_run h hself
    cases hr : arenaPmmDel exampleHhdmOffset 3 arena.self s with
    | ok r => simp [hr] at hdel
    | error e =>
      simp only [hr, Except.error.injEq] at hdel
      subst hdel
      refine ⟨s₀, arena, s, pages, hrun, harena, hr, ?_⟩
      rintro ⟨fuel, freed, s', hok, -⟩
      unfold arenaPmmDel at hok hr
      have hmore := arenaPmmDelLoop_mono 3 (by rw [hr]; simp) fuel
      rw [Nat.add_comm, arenaPmmDelLoop_mono fuel (by rw [hok]; simp) 3, hok, hr] at hmore
      cases hmore

end Example

end Hhdm

end Ukulele
