import Ukulele.ArenaRuns
import Ukulele.PmmOrder

/-! Any number of arenas beside other users of the page allocator, in any order of calls.
-/

set_option autoImplicit false

namespace Ukulele
open Chain

section Hhdm

variable {globalHhdmOffset : BitVec 64}

/-- The pages of an arena are out, and its headers lead through them up to the word in the
header of the last one. -/
structure ArenaIn (globalHhdmOffset : BitVec 64) (s : Machine) (ptr : Uintptr)
    (front : List Physical) (last : Physical) : Prop where
  used : ∀ p ∈ front ++ [last], p ∈ usedPages s
  nodup : (front ++ [last]).Nodup
  current : s.mem (hhdmPhysical globalHhdmOffset ptr) 1 = hhdmPointer globalHhdmOffset last
  chain : Seg (nextPage globalHhdmOffset s.mem) (behind globalHhdmOffset ptr) (front ++ [last])
    (behind globalHhdmOffset (s.mem last 0))
  own : front = [] → s.mem last 0 = 0#64

variable {s s' s₀ t : Machine} {R : List PmmRange} {L : Finset Physical} {ptr : Uintptr}
  {front : List Physical} {last : Physical}

theorem ArenaOk.toIn (h : ArenaOk globalHhdmOffset s₀ R ptr s front last) :
    ArenaIn globalHhdmOffset s ptr front last := by
  have hlast : s.mem last 0 = lastHeader s₀.mem front last := by
    have hseg := (seg_append.mp h.chain).2
    have htail := hseg.2.head_eq
    rw [h.run.nextPage_eq (h.page_managed (by simp))] at htail
    exact behind_inj htail
  refine ⟨fun p hp => h.page_used hp, h.nodup, h.current, ?_, ?_⟩
  · rw [hlast]
    exact h.chain
  · intro hf
    rw [hlast, lastHeader, if_pos hf]

theorem PmmRunOk.freeAll_returns (h : PmmRunOk s R L)
    (hmap : ∀ r ∈ R, DirectMapped globalHhdmOffset r) {pages : List Physical}
    (hnodup : pages.Nodup) (hused : ∀ p ∈ pages, p ∈ usedPages s) :
    ∃ t, freeAll s pages = .ok t := by
  rw [freeAll_returns_iff h.ok hnodup hused]
  intro p hp hnone
  obtain ⟨t, ht, -⟩ := pmmFreePage_spec h.ok (hused p hp) (h.blockEnd_lt hmap)
  exact (pmmFreePage_returns_iff h.ok (hused p hp)).mp ⟨t, ht⟩ hnone

theorem ArenaIn.rebase (h : ArenaIn globalHhdmOffset s ptr front last) (hrun : PmmRunOk s R L)
    (hmap : ∀ r ∈ R, DirectMapped globalHhdmOffset r) :
    ∃ s₀, usedPages s₀ = L \ (front ++ [last]).toFinset ∧
      ArenaOk globalHhdmOffset s₀ R ptr s front last := by
  obtain ⟨s₀, hs₀⟩ := hrun.freeAll_returns hmap h.nodup h.used
  obtain ⟨hmoved, hused⟩ := freeAll_moved hrun.ok hrun.live h.nodup (hrun.live ▸ h.used) hs₀
  have hmem : ∀ p ∈ s.pmm.managedPages, s₀.mem p = s.mem p :=
    fun p hp => hmoved.mem_eq p (hrun.not_control hp)
  have hlast := hrun.managed (hrun.live ▸ h.used last (by simp))
  have hsub : (front ++ [last]).toFinset ⊆ L := by
    intro p hp
    exact hrun.live ▸ h.used p (List.mem_toFinset.mp hp)
  refine ⟨s₀, hused, ?_, hmoved.managed_eq.symm, ?_, h.nodup, ?_, h.current, ?_⟩
  · rw [hused, Finset.sdiff_union_of_subset hsub]
    exact hrun
  · intro p hp hin
    rw [hused, Finset.mem_sdiff, List.mem_toFinset] at hin
    exact hin.2 hp
  · intro p hp _
    exact (hmem p hp).symm
  · have hheader : lastHeader s₀.mem front last = s.mem last 0 := by
      rw [lastHeader]
      split
      · rename_i hf
        exact (h.own hf).symm
      · rw [hmem last hlast]
    rw [hheader]
    exact h.chain

theorem ArenaIn.home_mem (h : ArenaIn globalHhdmOffset s ptr front last) :
    hhdmPhysical globalHhdmOffset ptr ∈ front ++ [last] := by
  have hhead := h.chain.head_eq
  unfold behind at hhead
  by_cases hz : ptr = 0#64
  · cases front <;> simp [hz] at hhead
  · cases front <;> simp_all

theorem ArenaIn.congr (h : ArenaIn globalHhdmOffset s ptr front last) (hrun : PmmRunOk s R L)
    (hused : ∀ p ∈ front ++ [last], p ∈ usedPages t)
    (hmem : ∀ p ∈ front ++ [last], t.mem p = s.mem p) :
    ArenaIn globalHhdmOffset t ptr front last := by
  have hlast : last ∈ front ++ [last] := by simp
  refine ⟨hused, h.nodup, ?_, ?_, ?_⟩
  · rw [hmem _ h.home_mem]
    exact h.current
  · rw [hmem last hlast]
    apply h.chain.congr
    intro p hp
    have hm := hrun.managed (hrun.live ▸ h.used p hp)
    rw [hrun.nextPage_eq hm, hrun.nextPage_eq hm, hmem p hp]
  · intro hf
    rw [hmem last hlast]
    exact h.own hf

theorem ArenaOk.kalloc_mem (h : ArenaOk globalHhdmOffset s₀ R ptr s front last) {size : Size}
    {blk : Blk} (hk : Ukulele.kalloc ⟨ptr, some (arenaPmmVtbl globalHhdmOffset)⟩ size s =
      .ok (blk, s')) {p : Physical} (hp : p ∈ s.pmm.managedPages) (hout : p ∉ front ++ [last]) :
    s'.mem p = s.mem p := by
  have hhome : p ≠ hhdmPhysical globalHhdmOffset ptr := fun he => hout (he ▸ h.home_mem)
  have hoffset : ∀ (t : Machine) (x y : BitVec 32),
      (t.storeOffset (hhdmPhysical globalHhdmOffset ptr) x y).mem p = t.mem p := by
    intro t x y
    funext j
    simp [Machine.storeOffset, store_apply, hhome]
  unfold Ukulele.kalloc at hk
  by_cases hz : size = 0#64
  · rw [if_pos hz] at hk
    cases hk
    rfl
  · rw [if_neg hz] at hk
    obtain ⟨b, u, hrun, hs⟩ := arenaPmmAlloc_cases globalHhdmOffset h.run.ok ptr size
    have hsame : arenaPmmAlloc globalHhdmOffset ptr size s = .ok (blk, s') := hk
    rw [hrun] at hsame
    cases hsame
    rcases hs with rfl | ⟨x, y, rfl⟩ | ⟨q, t, x, y, ha, rfl⟩
    · rfl
    · exact hoffset s x y
    · rw [hoffset]
      exact h.switch_mem ha hp hout

theorem ArenaIn.kalloc (h : ArenaIn globalHhdmOffset s ptr front last) (hrun : PmmRunOk s R L)
    (hmap : ∀ r ∈ R, DirectMapped globalHhdmOffset r) (size : Size) :
    ∃ blk s', kalloc ⟨ptr, some (arenaPmmVtbl globalHhdmOffset)⟩ size s = .ok (blk, s') ∧
      (∀ p ∈ usedPages s, p ∉ front ++ [last] → s'.mem p = s.mem p) ∧
      ((usedPages s' = usedPages s ∧ PmmRunOk s' R L ∧
          ArenaIn globalHhdmOffset s' ptr front last) ∨
        ∃ q, Took s q s' ∧ PmmRunOk s' R (insert q L) ∧
          ArenaIn globalHhdmOffset s' ptr (front ++ [last]) q) := by
  obtain ⟨s₀, hs₀, hok⟩ := h.rebase hrun hmap
  obtain ⟨blk, s', hk, hout⟩ := hok.kalloc hmap size
  have hmem : ∀ p ∈ usedPages s, p ∉ front ++ [last] → s'.mem p = s.mem p :=
    fun p hp hn => hok.kalloc_mem hk (Finset.mem_sdiff.mp hp).1 hn
  refine ⟨blk, s', hk, hmem, ?_⟩
  rcases hout with ⟨hu, hok'⟩ | ⟨q, hq, hok'⟩
  · have hlive := hok'.run.used
    rw [hu, hrun.live] at hlive
    exact Or.inl ⟨hu, hlive, hok'.toIn⟩
  · have hlive := hok'.run.used
    rw [hq.2, hrun.live] at hlive
    exact Or.inr ⟨q, hq, hlive, hok'.toIn⟩

theorem makeArena_in (hrun : PmmRunOk s R L) (hmap : ∀ r ∈ R, DirectMapped globalHhdmOffset r)
    (pmm : Uintptr) (p2align : BitVec 32) :
    makeArenaPmmAllocator globalHhdmOffset pmm p2align s = .ok (⟨0#64, none⟩, s) ∨
    ∃ ptr q s', makeArenaPmmAllocator globalHhdmOffset pmm p2align s =
        .ok (⟨ptr, some (arenaPmmVtbl globalHhdmOffset)⟩, s') ∧ ptr ≠ 0#64 ∧ Took s q s' ∧
      PmmRunOk s' R (insert q L) ∧ ArenaIn globalHhdmOffset s' ptr [] q ∧
      ∀ p ∈ usedPages s, s'.mem p = s.mem p := by
  have hlive := hrun.live
  subst hlive
  rcases makeArenaPmmAllocator_cases globalHhdmOffset hrun.ok pmm p2align
    with he | ⟨q, t, a, ha, hnext, hcur, he⟩
  · exact Or.inl he
  · have hok := ArenaOk.make hrun hmap ha hnext hcur
    have hq : Took s q (t.storeArena q a) := by
      refine ⟨hok.apart q (by simp), ?_⟩
      rw [hok.run.live, union_append_singleton]
      simp
    have hlive := hok.run.used
    rw [hq.2] at hlive
    refine Or.inr ⟨_, q, _, he, ?_, hq, hlive, hok.toIn, ?_⟩
    · exact hrun.pointer_ne_zero hmap (hrun.ok.free_subset_managed ha.was_free)
    · intro p hp
      have hne : p ≠ q := fun h => hq.1 (h ▸ hp)
      rw [storeArena_mem_ne hne, ha.mem_managed hrun.ok (Finset.mem_sdiff.mp hp).1]

theorem arenaPmmDelLoop_freeAll {fuel : Nat} {page : Uintptr} {r : List Physical × Machine}
    (h : arenaPmmDelLoop globalHhdmOffset fuel page s = .ok r) : freeAll s r.1 = .ok r.2 := by
  induction fuel generalizing page s r with
  | zero =>
    unfold arenaPmmDelLoop at h
    by_cases hz : page = 0#64
    · simp only [hz, if_true, Except.ok.injEq] at h
      subst h
      rfl
    · simp [hz] at h
  | succ fuel ih =>
    unfold arenaPmmDelLoop at h
    by_cases hz : page = 0#64
    · simp only [hz, if_true, Except.ok.injEq] at h
      subst h
      rfl
    · simp only [hz, if_false] at h
      cases ht : pmmFreePage s (hhdmPhysical globalHhdmOffset page) with
      | error e => simp [ht] at h
      | ok t =>
        cases hr : arenaPmmDelLoop globalHhdmOffset fuel
            (s.mem.load (hhdmPhysical globalHhdmOffset page)) t with
        | error e => simp [ht, hr] at h
        | ok u =>
          simp only [ht, hr, Except.ok.injEq] at h
          subst h
          rw [freeAll_cons, ht]
          exact ih hr

@[simp] theorem arenaPmmDelLoop_null (fuel : Nat) (s : Machine) :
    arenaPmmDelLoop globalHhdmOffset fuel 0#64 s = .ok ([], s) := by
  unfold arenaPmmDelLoop
  simp

theorem ArenaIn.del (h : ArenaIn globalHhdmOffset s ptr front last) (hrun : PmmRunOk s R L)
    (hmap : ∀ r ∈ R, DirectMapped globalHhdmOffset r) (hclear : s.mem last 0 = 0#64) :
    ∃ fuel s', arenaPmmDel globalHhdmOffset fuel ptr s = .ok (front ++ [last], s') ∧
      PmmRunOk s' R (L \ (front ++ [last]).toFinset) ∧
      ∀ p ∈ s.pmm.managedPages, s'.mem p = s.mem p := by
  obtain ⟨s', hs', hloop⟩ := arenaPmmDelLoop_seg hmap (front ++ [last]) hrun
    (fun p hp => hrun.live ▸ h.used p hp) h.nodup h.chain
  have hdel := hloop 0
  rw [hclear] at hdel
  simp only [arenaPmmDelLoop_null, Except.map, List.append_nil] at hdel
  have hall := arenaPmmDelLoop_freeAll hdel
  obtain ⟨hmoved, -⟩ := freeAll_moved hrun.ok rfl h.nodup h.used hall
  exact ⟨_, s', hdel, hs', fun p hp => hmoved.mem_eq p (hrun.not_control hp)⟩

abbrev Arenas := List (Allocator Machine × List Physical)

def Arenas.pages (A : Arenas) : List Physical := A.flatMap Prod.snd

/-- The states of a machine with arenas `A` and the pages `L` that others took. All of them call
the allocator and write to what they hold, in any order. An arena is deleted when the header of
its last page is null. Any of the arenas may be the next to be called: their order is free. -/
inductive ArenasRun (globalHhdmOffset : BitVec 64) :
    Machine → List PmmRange → Arenas → Finset Physical → Prop where
  | start {s : Machine} {R : List PmmRange} {L : Finset Physical} (h : PmmRun s R L) :
      ArenasRun globalHhdmOffset s R [] L
  | add {s s' : Machine} {R : List PmmRange} {A : Arenas} {L : Finset Physical} (r : PmmRange)
      (prior : ArenasRun globalHhdmOffset s R A L) (hwrap : r.stop ≤ 2 ^ 64)
      (hdisj : ∀ t ∈ R, r.Disjoint t) (h : pmmAdd s r.start r.size = .ok s') :
      ArenasRun globalHhdmOffset s' (r :: R) A L
  | take {s s' : Machine} {R : List PmmRange} {A : Arenas} {L : Finset Physical} {p : Physical}
      (prior : ArenasRun globalHhdmOffset s R A L) (hp : p ≠ 0#64)
      (h : pmmAllocatePage s = .ok (p, s')) : ArenasRun globalHhdmOffset s' R A (insert p L)
  | fail {s s' : Machine} {R : List PmmRange} {A : Arenas} {L : Finset Physical}
      (prior : ArenasRun globalHhdmOffset s R A L) (h : pmmAllocatePage s = .ok (0#64, s')) :
      ArenasRun globalHhdmOffset s' R A L
  | free {s s' : Machine} {R : List PmmRange} {A : Arenas} {L : Finset Physical} {p : Physical}
      (prior : ArenasRun globalHhdmOffset s R A L) (hp : p ∈ L) (h : pmmFreePage s p = .ok s') :
      ArenasRun globalHhdmOffset s' R A (L.erase p)
  | make {s s' : Machine} {R : List PmmRange} {A : Arenas} {L : Finset Physical} {p : Physical}
      {pmm : Uintptr} {p2align : BitVec 32} {arena : Allocator Machine}
      (prior : ArenasRun globalHhdmOffset s R A L)
      (h : makeArenaPmmAllocator globalHhdmOffset pmm p2align s = .ok (arena, s'))
      (hp : Took s p s') : ArenasRun globalHhdmOffset s' R ((arena, [p]) :: A) L
  | makeFail {s s' : Machine} {R : List PmmRange} {A : Arenas} {L : Finset Physical}
      {pmm : Uintptr} {p2align : BitVec 32} {arena : Allocator Machine}
      (prior : ArenasRun globalHhdmOffset s R A L)
      (h : makeArenaPmmAllocator globalHhdmOffset pmm p2align s = .ok (arena, s'))
      (hself : arena.self = 0#64) : ArenasRun globalHhdmOffset s' R A L
  | alloc {s s' : Machine} {R : List PmmRange} {A : Arenas} {L : Finset Physical}
      {arena : Allocator Machine} {pages : List Physical} {size : Size} {blk : Blk}
      (prior : ArenasRun globalHhdmOffset s R ((arena, pages) :: A) L)
      (h : kalloc arena size s = .ok (blk, s')) (hu : usedPages s' = usedPages s) :
      ArenasRun globalHhdmOffset s' R ((arena, pages) :: A) L
  | allocPage {s s' : Machine} {R : List PmmRange} {A : Arenas} {L : Finset Physical}
      {arena : Allocator Machine} {pages : List Physical} {size : Size} {blk : Blk} {p : Physical}
      (prior : ArenasRun globalHhdmOffset s R ((arena, pages) :: A) L)
      (h : kalloc arena size s = .ok (blk, s')) (hp : Took s p s') :
      ArenasRun globalHhdmOffset s' R ((arena, pages ++ [p]) :: A) L
  | del {s s' : Machine} {R : List PmmRange} {A : Arenas} {L : Finset Physical}
      {arena : Allocator Machine} {pages freed : List Physical} {fuel : Nat}
      (prior : ArenasRun globalHhdmOffset s R ((arena, pages) :: A) L)
      (hclear : ∀ p ∈ pages.getLast?, s.mem p 0 = 0#64)
      (h : arenaPmmDel globalHhdmOffset fuel arena.self s = .ok (freed, s')) :
      ArenasRun globalHhdmOffset s' R A L
  | reorder {s : Machine} {R : List PmmRange} {A B : Arenas} {L : Finset Physical}
      (prior : ArenasRun globalHhdmOffset s R A L) (h : A.Perm B) :
      ArenasRun globalHhdmOffset s R B L
  | write {s : Machine} {R : List PmmRange} {A : Arenas} {L : Finset Physical} {p : Physical}
      {i : Fin 512} (prior : ArenasRun globalHhdmOffset s R A L) (hp : p ∈ usedPages s)
      (hk : ∀ a ∈ A, ¬ ArenaKeeps globalHhdmOffset a.1.self a.2 p i) (value : BitVec 64) :
      ArenasRun globalHhdmOffset (s.store p i value) R A L

def Holds (globalHhdmOffset : BitVec 64) (s : Machine) (a : Allocator Machine × List Physical) :
    Prop :=
  a.1.vtbl = some (arenaPmmVtbl globalHhdmOffset) ∧
    ∃ front last, a.2 = front ++ [last] ∧ ArenaIn globalHhdmOffset s a.1.self front last

/-- Every page that is out has one holder: one of the arenas, or the others. -/
structure ArenasOk (globalHhdmOffset : BitVec 64) (s : Machine) (R : List PmmRange) (A : Arenas)
    (L : Finset Physical) : Prop where
  run : PmmRunOk s R (L ∪ A.pages.toFinset)
  nodup : A.pages.Nodup
  apart : ∀ p ∈ A.pages, p ∉ L
  arenas : ∀ a ∈ A, Holds globalHhdmOffset s a

@[simp] theorem Arenas.pages_nil : Arenas.pages [] = [] := rfl

@[simp] theorem Arenas.pages_cons (a : Allocator Machine × List Physical) (A : Arenas) :
    Arenas.pages (a :: A) = a.2 ++ Arenas.pages A := rfl

theorem Arenas.mem_pages {A : Arenas} {a : Allocator Machine × List Physical} (ha : a ∈ A)
    {p : Physical} (hp : p ∈ a.2) : p ∈ A.pages :=
  List.mem_flatMap.mpr ⟨a, ha, hp⟩

theorem Holds.congr {a : Allocator Machine × List Physical} (h : Holds globalHhdmOffset s a)
    (hrun : PmmRunOk s R L) (hused : ∀ p ∈ a.2, p ∈ usedPages t)
    (hmem : ∀ p ∈ a.2, t.mem p = s.mem p) : Holds globalHhdmOffset t a := by
  obtain ⟨hv, front, last, he, hin⟩ := h
  rw [he] at hused hmem
  exact ⟨hv, front, last, he, hin.congr hrun hused hmem⟩

variable {A B : Arenas} {arena : Allocator Machine} {pages pages' : List Physical}

theorem ArenasOk.page_used (h : ArenasOk globalHhdmOffset s R A L) {p : Physical}
    (hp : p ∈ A.pages) : p ∈ usedPages s := by
  rw [h.run.live, Finset.mem_union, List.mem_toFinset]
  exact Or.inr hp

theorem ArenasOk.other_used (h : ArenasOk globalHhdmOffset s R A L) {p : Physical}
    (hp : p ∈ L) : p ∈ usedPages s := by
  rw [h.run.live, Finset.mem_union]
  exact Or.inl hp

theorem ArenasOk.frame {L' : Finset Physical} (h : ArenasOk globalHhdmOffset s R A L)
    {R' : List PmmRange} (hrun : PmmRunOk t R' (L' ∪ A.pages.toFinset))
    (hapart : ∀ p ∈ A.pages, p ∉ L') (hmem : ∀ p ∈ A.pages, t.mem p = s.mem p) :
    ArenasOk globalHhdmOffset t R' A L' := by
  refine ⟨hrun, h.nodup, hapart, ?_⟩
  intro a ha
  apply (h.arenas a ha).congr h.run
  · intro p hp
    rw [hrun.live, Finset.mem_union, List.mem_toFinset]
    exact Or.inr (Arenas.mem_pages ha hp)
  · exact fun p hp => hmem p (Arenas.mem_pages ha hp)

theorem ArenasOk.perm (h : ArenasOk globalHhdmOffset s R A L) (hperm : A.Perm B) :
    ArenasOk globalHhdmOffset s R B L := by
  have hpages : A.pages.Perm B.pages := hperm.flatMap_right Prod.snd
  refine ⟨?_, hpages.nodup_iff.mp h.nodup, ?_, ?_⟩
  · rw [← List.toFinset_eq_of_perm _ _ hpages]
    exact h.run
  · exact fun p hp => h.apart p (hpages.mem_iff.mpr hp)
  · exact fun a ha => h.arenas a (hperm.mem_iff.mpr ha)

theorem ArenasOk.head (h : ArenasOk globalHhdmOffset s R ((arena, pages) :: A) L)
    (hrun : PmmRunOk t R (L ∪ (pages' ++ A.pages).toFinset)) (hnodup : pages'.Nodup)
    (hnew : ∀ p ∈ pages', p ∈ pages ∨ p ∉ usedPages s)
    (hmem : ∀ p ∈ usedPages s, p ∉ pages → t.mem p = s.mem p)
    (hin : Holds globalHhdmOffset t (arena, pages')) :
    ArenasOk globalHhdmOffset t R ((arena, pages') :: A) L := by
  obtain ⟨-, hA, hpA⟩ := List.nodup_append.mp h.nodup
  have hused : ∀ p ∈ A.pages, p ∈ usedPages s :=
    fun p hp => h.page_used (List.mem_append_right _ hp)
  refine ⟨hrun, ?_, ?_, ?_⟩
  · refine List.nodup_append.mpr ⟨hnodup, hA, ?_⟩
    intro p hp q hq he
    subst he
    rcases hnew p hp with hold | hfree
    · exact hpA p hold p hq rfl
    · exact hfree (hused p hq)
  · intro p hp
    rcases List.mem_append.mp hp with hp | hp
    · rcases hnew p hp with hold | hfree
      · exact h.apart p (List.mem_append_left _ hold)
      · exact fun hL => hfree (h.other_used hL)
    · exact h.apart p (List.mem_append_right _ hp)
  · intro a ha
    rcases List.mem_cons.mp ha with rfl | ha
    · exact hin
    · apply (h.arenas a (List.mem_cons_of_mem _ ha)).congr h.run
      · intro p hp
        rw [hrun.live]
        simp [Arenas.mem_pages ha hp]
      · intro p hp
        have hpages := Arenas.mem_pages ha hp
        exact hmem p (hused p hpages) (fun hin' => hpA p hin' p hpages rfl)

theorem PmmRunOk.add_mem {r : PmmRange} (h : PmmRunOk s R L) (hwrap : r.stop ≤ 2 ^ 64)
    (hdisj : ∀ t ∈ R, r.Disjoint t) (hok : pmmAdd s r.start r.size = .ok s') {p : Physical}
    (hp : p ∈ s.pmm.managedPages) : s'.mem p = s.mem p := by
  have ha : Aligned r.start := by
    by_contra hn
    rw [pmmAdd, requirePageAligned_error hn] at hok
    contradiction
  have hout : Outside s r.start.toNat r.stop := by
    intro i hi
    obtain ⟨t, ht, hlo, hhi⟩ := h.inside i hi
    rcases hdisj t ht with hd | hd
    · exact Or.inr (by omega)
    · exact Or.inl (by omega)
  obtain ⟨t, ht, hadd⟩ := pmmAdd_spec h.ok ha hwrap hout
  rw [hok] at ht
  cases ht
  obtain ⟨i, hi, k, hk, rfl⟩ := mem_managedPages.mp hp
  have hn := (h.ok.block i hi).toNat_pageAt hk
  have hend : ((s.pmm.entry i).pageAt k).toNat + 4096 ≤ (s.pmm.entry i).blockEnd := by
    simp only [PmmCtrlPtr.blockEnd]
    omega
  have ho := hout i hi
  apply hadd.mem_eq
  unfold PmmRange.stop at ho
  omega

theorem ArenasOk.make (h : ArenasOk globalHhdmOffset s R A L)
    (hmap : ∀ r ∈ R, DirectMapped globalHhdmOffset r) {pmm : Uintptr} {p2align : BitVec 32}
    {p : Physical} (hok : makeArenaPmmAllocator globalHhdmOffset pmm p2align s = .ok (arena, s'))
    (hp : Took s p s') : ArenasOk globalHhdmOffset s' R ((arena, [p]) :: A) L := by
  rcases makeArena_in h.run hmap pmm p2align with he | ⟨ptr, q, t, he, -, hq, hrun, hin, hmem⟩
  · rw [hok] at he
    cases he
    exact absurd rfl hp.used_ne
  · rw [hok] at he
    cases he
    have hpq := hp.unique hq
    subst hpq
    have hfree : p ∉ A.pages := fun hmem' => hp.1 (h.page_used hmem')
    refine ⟨?_, ?_, ?_, ?_⟩
    · simpa using hrun
    · exact List.nodup_cons.mpr ⟨hfree, h.nodup⟩
    · intro q' hq'
      rcases List.mem_cons.mp hq' with rfl | hq'
      · exact fun hL => hp.1 (h.other_used hL)
      · exact h.apart q' hq'
    · intro a ha
      rcases List.mem_cons.mp ha with rfl | ha
      · exact ⟨rfl, [], p, rfl, hin⟩
      · apply (h.arenas a ha).congr h.run
        · intro q' hq'
          rw [hp.2]
          exact Finset.mem_insert_of_mem (h.page_used (Arenas.mem_pages ha hq'))
        · exact fun q' hq' => hmem q' (h.page_used (Arenas.mem_pages ha hq'))

theorem ArenasOk.kalloc (h : ArenasOk globalHhdmOffset s R ((arena, pages) :: A) L)
    (hmap : ∀ r ∈ R, DirectMapped globalHhdmOffset r) (size : Size) :
    ∃ blk s', kalloc arena size s = .ok (blk, s') ∧
      (∀ p ∈ usedPages s, p ∉ pages → s'.mem p = s.mem p) ∧
      ((usedPages s' = usedPages s ∧ ArenasOk globalHhdmOffset s' R ((arena, pages) :: A) L) ∨
        ∃ q, Took s q s' ∧
          ArenasOk globalHhdmOffset s' R ((arena, pages ++ [q]) :: A) L) := by
  obtain ⟨hv, front, last, he, hin⟩ := h.arenas (arena, pages) List.mem_cons_self
  obtain ⟨ptr, vtbl⟩ := arena
  simp only at hv he hin
  subst hv
  subst he
  obtain ⟨blk, s', hk, hmem, hout⟩ := hin.kalloc h.run hmap size
  refine ⟨blk, s', hk, hmem, ?_⟩
  rcases hout with ⟨hu, hrun, hin'⟩ | ⟨q, hq, hrun, hin'⟩
  · left
    refine ⟨hu, h.head hrun hin.nodup (fun p hp => Or.inl hp) hmem ?_⟩
    exact ⟨rfl, front, last, rfl, hin'⟩
  · right
    refine ⟨q, hq, h.head ?_ hin'.nodup ?_ hmem ⟨rfl, front ++ [last], q, rfl, hin'⟩⟩
    · have hset : L ∪ (front ++ [last] ++ [q] ++ A.pages).toFinset =
          insert q (L ∪ (Arenas.pages (((⟨ptr, some (arenaPmmVtbl globalHhdmOffset)⟩ :
            Allocator Machine), front ++ [last]) :: A)).toFinset) := by
        ext p
        simp only [Arenas.pages_cons, List.toFinset_append, Finset.mem_union, Finset.mem_insert,
          List.mem_toFinset, List.mem_singleton]
        tauto
      rw [hset]
      exact hrun
    · intro p hp
      rcases List.mem_append.mp hp with hp | hp
      · exact Or.inl hp
      · rw [List.mem_singleton.mp hp]
        exact Or.inr hq.1

theorem ArenasOk.del (h : ArenasOk globalHhdmOffset s R ((arena, pages) :: A) L)
    (hmap : ∀ r ∈ R, DirectMapped globalHhdmOffset r)
    (hclear : ∀ p ∈ pages.getLast?, s.mem p 0 = 0#64) :
    ∃ fuel s', arenaPmmDel globalHhdmOffset fuel arena.self s = .ok (pages, s') ∧
      usedPages s' = usedPages s \ pages.toFinset ∧
      (∀ p ∈ s.pmm.managedPages, s'.mem p = s.mem p) ∧ ArenasOk globalHhdmOffset s' R A L := by
  obtain ⟨-, front, last, he, hin⟩ := h.arenas (arena, pages) List.mem_cons_self
  simp only at he hin
  subst he
  obtain ⟨fuel, s', hdel, hrun, hmem⟩ := hin.del h.run hmap (hclear last (by simp))
  obtain ⟨-, hA, hpA⟩ := List.nodup_append.mp h.nodup
  have hset : (L ∪ (Arenas.pages ((arena, front ++ [last]) :: A)).toFinset) \
      (front ++ [last]).toFinset = L ∪ A.pages.toFinset := by
    ext p
    simp only [Finset.mem_sdiff, Finset.mem_union, List.mem_toFinset, Arenas.pages_cons,
      List.mem_append (s := front ++ [last])]
    constructor
    · tauto
    · intro hp
      refine ⟨hp.imp id Or.inr, ?_⟩
      intro hin'
      rcases hp with hp | hp
      · exact h.apart p (List.mem_append_left _ hin') hp
      · exact hpA p hin' p hp rfl
  rw [hset] at hrun
  refine ⟨fuel, s', hdel, ?_, hmem, hrun, hA, ?_, ?_⟩
  · rw [hrun.live, h.run.live, hset]
  · exact fun p hp => h.apart p (List.mem_append_right _ hp)
  · intro a ha
    have hpages : ∀ p ∈ a.2, p ∈ Arenas.pages ((arena, front ++ [last]) :: A) :=
      fun p hp => List.mem_append_right _ (Arenas.mem_pages ha hp)
    apply (h.arenas a (List.mem_cons_of_mem _ ha)).congr h.run
    · intro p hp
      rw [hrun.live]
      simp [Arenas.mem_pages ha hp]
    · exact fun p hp => hmem p (h.run.managed (h.run.live ▸ h.page_used (hpages p hp)))

theorem ArenasOk.start (h : PmmRun s R L) : ArenasOk globalHhdmOffset s R [] L := by
  refine ⟨?_, List.nodup_nil, by simp, by simp⟩
  simpa using h.invariant

theorem ArenasOk.add (h : ArenasOk globalHhdmOffset s R A L) {r : PmmRange}
    (hwrap : r.stop ≤ 2 ^ 64) (hdisj : ∀ t ∈ R, r.Disjoint t)
    (hok : pmmAdd s r.start r.size = .ok s') : ArenasOk globalHhdmOffset s' (r :: R) A L := by
  apply h.frame (h.run.add hwrap hdisj hok) h.apart
  intro p hp
  exact h.run.add_mem hwrap hdisj hok (h.run.managed (h.run.live ▸ h.page_used hp))

theorem ArenasOk.take (h : ArenasOk globalHhdmOffset s R A L) {p : Physical} (hp : p ≠ 0#64)
    (hok : pmmAllocatePage s = .ok (p, s')) :
    ArenasOk globalHhdmOffset s' R A (insert p L) := by
  rcases pmmAllocatePage_spec h.run.ok with ⟨-, he⟩ | ⟨q, t, he, ha⟩
  · rw [hok] at he
    cases he
    exact absurd rfl hp
  · rw [hok] at he
    cases he
    have hrun := h.run.take ha
    rw [← Finset.insert_union] at hrun
    apply h.frame hrun
    · intro q hq hin
      rcases Finset.mem_insert.mp hin with rfl | hL
      · exact (Finset.mem_sdiff.mp (h.page_used hq)).2 ha.was_free
      · exact h.apart q hq hL
    · exact fun q hq => ha.mem_managed h.run.ok (h.run.managed (h.run.live ▸ h.page_used hq))

theorem ArenasOk.free (h : ArenasOk globalHhdmOffset s R A L) {p : Physical} (hp : p ∈ L)
    (hok : pmmFreePage s p = .ok s') : ArenasOk globalHhdmOffset s' R A (L.erase p) := by
  have hf := pmmFreePage_freed h.run.ok (h.other_used hp) hok
  have hout : p ∉ A.pages.toFinset := fun hin => h.apart p (List.mem_toFinset.mp hin) hp
  have hrun := h.run.free hf
  rw [Finset.erase_union_distrib, Finset.erase_eq_of_notMem hout] at hrun
  apply h.frame hrun
  · exact fun q hq hin => h.apart q hq (Finset.mem_of_mem_erase hin)
  · exact fun q hq => hf.mem_eq q
      (h.run.not_control (h.run.managed (h.run.live ▸ h.page_used hq)))

theorem ArenasOk.write (h : ArenasOk globalHhdmOffset s R A L)
    (hmap : ∀ r ∈ R, DirectMapped globalHhdmOffset r) {p : Physical} {i : Fin 512}
    (hp : p ∈ usedPages s) (hk : ∀ a ∈ A, ¬ ArenaKeeps globalHhdmOffset a.1.self a.2 p i)
    (value : BitVec 64) : ArenasOk globalHhdmOffset (s.store p i value) R A L := by
  refine ⟨h.run.write (h.run.live ▸ hp) i value, h.nodup, h.apart, ?_⟩
  intro a ha
  obtain ⟨hv, front, last, he, hin⟩ := h.arenas a ha
  obtain ⟨s₀, -, hok⟩ := hin.rebase h.run hmap
  have hfree := hk a ha
  rw [ArenaKeeps, he] at hfree
  refine ⟨hv, front, last, he, (hok.store hp ?_ ?_ value).toIn⟩
  · intro hin' hi
    exact hfree ⟨hin', Or.inl hi⟩
  · intro hhome hi
    refine hfree ⟨hhome ▸ hin.home_mem, Or.inr ⟨hhome, ?_⟩⟩
    rw [hi]
    decide

theorem ArenasRun.invariant (h : ArenasRun globalHhdmOffset s R A L)
    (hmap : ∀ r ∈ R, DirectMapped globalHhdmOffset r) : ArenasOk globalHhdmOffset s R A L := by
  induction h with
  | start h => exact ArenasOk.start h
  | add r prior hwrap hdisj h ih =>
    exact (ih fun t ht => hmap t (List.mem_cons_of_mem _ ht)).add hwrap hdisj h
  | take prior hp h ih => exact (ih hmap).take hp h
  | fail prior h ih =>
    rw [pmmAllocatePage_failed (ih hmap).run.ok h]
    exact ih hmap
  | free prior hp h ih => exact (ih hmap).free hp h
  | make prior h hp ih => exact (ih hmap).make hmap h hp
  | makeFail prior h hself ih =>
    rcases makeArena_in (ih hmap).run hmap _ _ with he | ⟨ptr, q, t, he, hne, -⟩
    · rw [h] at he
      cases he
      exact ih hmap
    · rw [h] at he
      cases he
      exact absurd hself hne
  | @alloc s s' R A L arena pages size blk prior h hu ih =>
    obtain ⟨b, t, hk, -, ⟨-, hok⟩ | ⟨q, hq, -⟩⟩ := (ih hmap).kalloc hmap size
    · rw [h] at hk
      cases hk
      exact hok
    · rw [h] at hk
      cases hk
      exact absurd hu hq.used_ne
  | @allocPage s s' R A L arena pages size blk p prior h hp ih =>
    obtain ⟨b, t, hk, -, ⟨hu, -⟩ | ⟨q, hq, hok⟩⟩ := (ih hmap).kalloc hmap size
    · rw [h] at hk
      cases hk
      exact absurd hu hp.used_ne
    · rw [h] at hk
      cases hk
      rw [hp.unique hq]
      exact hok
  | @del s s' R A L arena pages freed fuel prior hclear h ih =>
    obtain ⟨fuel', t, hdel, -, -, hok⟩ := (ih hmap).del hmap hclear
    unfold arenaPmmDel at hdel h
    have hmore := arenaPmmDelLoop_mono fuel (by rw [h]; simp) fuel'
    rw [Nat.add_comm, arenaPmmDelLoop_mono fuel' (by rw [hdel]; simp) fuel, hdel, h] at hmore
    cases hmore
    exact hok
  | reorder prior h ih => exact (ih hmap).perm h
  | write prior hp hk value ih => exact (ih hmap).write hmap hp hk value

/-- Every page that is out has one holder. A call of an arena returns, and writes in its own pages
or in a page that was free; and deleting an arena whose last header is null gives back its pages,
each once, and leaves the pages of every other holder as they are. -/
theorem arenas_stay_apart (h : ArenasRun globalHhdmOffset s R A L)
    (hmap : ∀ r ∈ R, DirectMapped globalHhdmOffset r) :
    usedPages s = L ∪ A.pages.toFinset ∧ A.pages.Nodup ∧ (∀ p ∈ A.pages, p ∉ L) ∧
    ∀ arena pages, (arena, pages) ∈ A →
      (∀ size, ∃ blk s', kalloc arena size s = .ok (blk, s') ∧
        ∀ p ∈ usedPages s, p ∉ pages → s'.mem p = s.mem p) ∧
      ((∀ p ∈ pages.getLast?, s.mem p 0 = 0#64) → ∃ fuel s',
        arenaPmmDel globalHhdmOffset fuel arena.self s = .ok (pages, s') ∧
          usedPages s' = usedPages s \ pages.toFinset ∧
          ∀ p ∈ usedPages s', s'.mem p = s.mem p) := by
  have hok := h.invariant hmap
  refine ⟨hok.run.live, hok.nodup, hok.apart, ?_⟩
  intro arena pages ha
  obtain ⟨before, after, hsplit⟩ := List.append_of_mem ha
  have hhead := hok.perm (hsplit ▸ List.perm_middle)
  constructor
  · intro size
    obtain ⟨blk, s', hk, hmem, -⟩ := hhead.kalloc hmap size
    exact ⟨blk, s', hk, hmem⟩
  · intro hclear
    obtain ⟨fuel, s', hdel, hused, hmem, -⟩ := hhead.del hmap hclear
    refine ⟨fuel, s', hdel, hused, ?_⟩
    intro p hp
    rw [hused, Finset.mem_sdiff] at hp
    exact hmem p (hok.run.managed (hok.run.live ▸ hp.1))

section Example

theorem ArenasRun.of_make (h : ArenasRun globalHhdmOffset s R A L)
    (hmap : ∀ r ∈ R, DirectMapped globalHhdmOffset r) {pmm : Uintptr} {p2align : BitVec 32}
    (hok : makeArenaPmmAllocator globalHhdmOffset pmm p2align s = .ok (arena, s'))
    (hself : arena.self ≠ 0#64) :
    ∃ p, ArenasRun globalHhdmOffset s' R ((arena, [p]) :: A) L ∧ s'.mem p 0 = 0#64 := by
  rcases makeArena_in (h.invariant hmap).run hmap pmm p2align
    with he | ⟨ptr, q, t, he, -, hq, -, hin, -⟩
  · rw [hok] at he
    cases he
    exact absurd rfl hself
  · rw [hok] at he
    cases he
    exact ⟨q, h.make hok hq, hin.own rfl⟩

def twoArenas : Except Fault (Machine × Allocator Machine × Machine × Allocator Machine ×
    Machine) := do
  let s ← pmmAdd bareMachine exampleRange.start exampleRange.size
  let (a, t) ← makeArenaPmmAllocator exampleHhdmOffset 0x1000#64 4#32 s
  let (b, u) ← makeArenaPmmAllocator exampleHhdmOffset 0x1000#64 4#32 t
  return (s, a, t, b, u)

theorem twoArenas_made : (twoArenas.map fun r =>
    decide (r.2.1.self ≠ 0#64 ∧ r.2.2.2.1.self ≠ 0#64)) = .ok true := by
  unfold twoArenas
  rw [pmmAdd]
  decide +kernel

/-- The second arena is deleted beside the first one. -/
theorem arenas_stay_apart_example : ∃ s a p b q,
    ArenasRun exampleHhdmOffset s [exampleRange] [(b, [q]), (a, [p])] ∅ ∧ p ≠ q ∧
    ∃ fuel s', arenaPmmDel exampleHhdmOffset fuel b.self s = .ok ([q], s') ∧
      s'.mem p = s.mem p := by
  have hmade := twoArenas_made
  have hmap : ∀ r ∈ [exampleRange], DirectMapped exampleHhdmOffset r := by decide
  unfold twoArenas at hmade
  cases hadd : pmmAdd bareMachine exampleRange.start exampleRange.size with
  | error e => simp [hadd, bind, Except.bind, Except.map] at hmade
  | ok s =>
    have hrun := PmmRun.add exampleRange bareMachine_run (by decide) (by simp) hadd
    cases ha : makeArenaPmmAllocator exampleHhdmOffset 0x1000#64 4#32 s with
    | error e => simp [hadd, ha, bind, Except.bind, Except.map] at hmade
    | ok r =>
      obtain ⟨a, t⟩ := r
      cases hb : makeArenaPmmAllocator exampleHhdmOffset 0x1000#64 4#32 t with
      | error e => simp [hadd, ha, hb, bind, Except.bind, Except.map] at hmade
      | ok r =>
        obtain ⟨b, u⟩ := r
        simp only [hadd, ha, hb, bind, Except.bind, pure, Except.pure, Except.map,
          Except.ok.injEq, decide_eq_true_eq] at hmade
        obtain ⟨p, h₁, -⟩ := (ArenasRun.start hrun).of_make hmap ha hmade.1
        obtain ⟨q, h₂, hclear⟩ := h₁.of_make hmap hb hmade.2
        obtain ⟨hused, hnodup, -, hall⟩ := arenas_stay_apart h₂ hmap
        obtain ⟨fuel, s', hdel, hused', hmem⟩ := (hall b [q] (by simp)).2 (by simpa using hclear)
        have hne : p ≠ q := by
          intro he
          simp [he] at hnodup
        refine ⟨u, a, p, b, q, h₂, hne, fuel, s', hdel, hmem p ?_⟩
        simp [hused', hused, hne]

end Example

end Hhdm

end Ukulele
