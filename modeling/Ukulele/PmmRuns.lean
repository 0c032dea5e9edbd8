import Ukulele.PmmAdd

/-! Whole runs of the allocator: ranges added, pages taken, given back and written to,
in any order.
-/

set_option autoImplicit false

namespace Ukulele

structure PmmRange where
  start : Physical
  size : Size

def PmmRange.stop (r : PmmRange) : Nat := r.start.toNat + r.size.toNat

def PmmRange.Disjoint (r t : PmmRange) : Prop := r.stop ≤ t.start.toNat ∨ t.stop ≤ r.start.toNat

def PmmRange.Contains (r : PmmRange) (p : Physical) : Prop :=
  r.start.toNat ≤ p.toNat ∧ p.toNat + 4096 ≤ r.stop

/-- The states reached from `pmm_new` over a memory of any contents, with the ranges added
and the pages that are out. The owner of a page may store in it at any time. -/
inductive PmmRun : Machine → List PmmRange → Finset Physical → Prop where
  | new {controlPage : Physical} {pmm : Pmm} (mem : Memory) (cr3 : Physical)
      (h : pmmNew controlPage = .ok pmm) : PmmRun ⟨mem, pmm, cr3⟩ [] ∅
  | add {s s' : Machine} {R : List PmmRange} {L : Finset Physical} (r : PmmRange)
      (prior : PmmRun s R L) (hwrap : r.stop ≤ 2 ^ 64) (hdisj : ∀ t ∈ R, r.Disjoint t)
      (h : pmmAdd s r.start r.size = .ok s') : PmmRun s' (r :: R) L
  | take {s s' : Machine} {R : List PmmRange} {L : Finset Physical} {p : Physical}
      (prior : PmmRun s R L) (hp : p ≠ 0#64) (h : pmmAllocatePage s = .ok (p, s')) :
      PmmRun s' R (insert p L)
  | fail {s s' : Machine} {R : List PmmRange} {L : Finset Physical}
      (prior : PmmRun s R L) (h : pmmAllocatePage s = .ok (0#64, s')) : PmmRun s' R L
  | free {s s' : Machine} {R : List PmmRange} {L : Finset Physical} {p : Physical}
      (prior : PmmRun s R L) (hp : p ∈ L) (h : pmmFreePage s p = .ok s') :
      PmmRun s' R (L.erase p)
  | write {s : Machine} {R : List PmmRange} {L : Finset Physical} {p : Physical}
      (prior : PmmRun s R L) (hp : p ∈ L) (i : Fin 512) (value : BitVec 64) :
      PmmRun (s.store p i value) R L

/-- The invariant of a run: the descriptors are in step, the pages out are the used ones,
and every block lies in a range that was added. -/
structure PmmRunOk (s : Machine) (R : List PmmRange) (L : Finset Physical) : Prop where
  ok : PmmOk s
  live : usedPages s = L
  inside : ∀ i, (s.pmm.entry i).active = true →
    ∃ r ∈ R, r.start.toNat ≤ (s.pmm.entry i).ctrl.toNat ∧ (s.pmm.entry i).blockEnd ≤ r.stop

theorem mem_usedPages {s : Machine} (h : PmmOk s) {p : Physical} :
    p ∈ usedPages s ↔ ∃ i, (s.pmm.entry i).active = true ∧
      ∃ k < (s.pmm.entry i).maxPages.toNat,
        k ∉ Bitset.members (s.mem (s.pmm.entry i).ctrl) ∧ (s.pmm.entry i).pageAt k = p := by
  rw [usedPages, Finset.mem_sdiff, mem_managedPages, mem_freePages]
  constructor
  · rintro ⟨⟨i, hi, k, hk, rfl⟩, hf⟩
    exact ⟨i, hi, k, hk, fun hin => hf ⟨i, hi, k, hin, rfl⟩, rfl⟩
  · rintro ⟨i, hi, k, hk, hn, rfl⟩
    refine ⟨⟨i, hi, k, hk, rfl⟩, ?_⟩
    rintro ⟨j, hj, l, hl, he⟩
    obtain ⟨rfl, rfl⟩ := h.pageAt_unique hj hi ((h.block j hj).bits_lt l hl) hk he
    exact hn hl

theorem Added.used_eq {s t : Machine} {lo hi : Nat} (h : PmmOk s) (ha : Added s lo hi t) :
    usedPages t = usedPages s := by
  ext p
  rw [mem_usedPages ha.ok, mem_usedPages h]
  constructor
  · rintro ⟨i, hi, k, hk, hn, rfl⟩
    cases hs : (s.pmm.entry i).active with
    | true =>
      obtain ⟨he, hm⟩ := ha.kept i hs
      rw [he] at hk hn ⊢
      rw [hm] at hn
      exact ⟨i, hs, k, hk, hn, rfl⟩
    | false =>
      obtain ⟨-, -, hbits⟩ := ha.fresh i hi hs
      rw [hbits] at hn
      exact absurd (Finset.mem_range.mpr hk) hn
  · rintro ⟨i, hi, k, hk, hn, rfl⟩
    obtain ⟨he, hm⟩ := ha.kept i hi
    exact ⟨i, by rw [he]; exact hi, k, by rw [he]; exact hk, by rw [he, hm]; exact hn, by rw [he]⟩

theorem Allocated.used_eq {s t : Machine} {p : Physical} (h : PmmOk s) (ha : Allocated s p t) :
    usedPages t = insert p (usedPages s) := by
  have hm := h.free_subset_managed ha.was_free
  ext q
  simp only [usedPages, ha.managed_eq, ha.free_eq, Finset.mem_sdiff, Finset.mem_insert,
    Finset.mem_erase, not_and]
  by_cases hq : q = p
  · subst q
    simp [hm]
  · simp [hq]

theorem Freed.used_eq {s t : Machine} {p : Physical} (hf : Freed s p t) :
    usedPages t = (usedPages s).erase p := by
  ext q
  simp only [usedPages, hf.managed_eq, hf.free_eq, Finset.mem_sdiff, Finset.mem_insert,
    Finset.mem_erase, not_or]
  constructor
  · rintro ⟨hm, hne, hn⟩
    exact ⟨hne, hm, hn⟩
  · rintro ⟨hne, hm, hn⟩
    exact ⟨hm, hne, hn⟩

theorem PmmRunOk.frame {s t : Machine} {R : List PmmRange} {L : Finset Physical}
    (h : PmmRunOk s R L) (hf : PmmFrame s t) : PmmRunOk t R (usedPages t) where
  ok := hf.ok
  live := rfl
  inside := by
    intro i hi
    rw [hf.entry_eq i] at hi ⊢
    exact h.inside i hi

theorem PmmRunOk.new {controlPage : Physical} {pmm : Pmm} (mem : Memory) (cr3 : Physical)
    (h : pmmNew controlPage = .ok pmm) : PmmRunOk ⟨mem, pmm, cr3⟩ [] ∅ := by
  have hp : ∀ i, (pmm.entry i).active = false := by
    intro i
    cases hr : requirePageAligned controlPage with
    | error e => simp [pmmNew, hr, bind, Except.bind] at h
    | ok u =>
      simp only [pmmNew, hr, bind, Except.bind, pure, Except.pure, Except.ok.injEq] at h
      rw [← h]
      rfl
  refine ⟨⟨?_, ?_⟩, ?_, ?_⟩
  · intro i hi
    simp [hp i] at hi
  · intro i j _ hi
    simp [hp i] at hi
  · ext p
    simp [usedPages, mem_managedPages, hp]
  · intro i hi
    simp [hp i] at hi

theorem PmmRunOk.add {s s' : Machine} {R : List PmmRange} {L : Finset Physical} {r : PmmRange}
    (h : PmmRunOk s R L) (hwrap : r.stop ≤ 2 ^ 64) (hdisj : ∀ t ∈ R, r.Disjoint t)
    (hok : pmmAdd s r.start r.size = .ok s') : PmmRunOk s' (r :: R) L := by
  have ha : Aligned r.start := by
    by_contra hn
    rw [pmmAdd, requirePageAligned_error hn] at hok
    contradiction
  have hout : Outside s r.start.toNat r.stop := by
    intro i hi
    obtain ⟨t, ht, hlo, hhi⟩ := h.inside i hi
    rcases hdisj t ht with hd | hd
    · exact Or.inr (by omega)
    · exact Or.inl (by omega)
  obtain ⟨t, ht, hadd⟩ := pmmAdd_spec h.ok ha hwrap hout
  rw [hok] at ht
  cases ht
  refine ⟨hadd.ok, (hadd.used_eq h.ok).trans h.live, ?_⟩
  intro i hi
  cases hs : (s.pmm.entry i).active with
  | true =>
    rw [(hadd.kept i hs).1]
    obtain ⟨t, ht, hin⟩ := h.inside i hs
    exact ⟨t, List.mem_cons_of_mem _ ht, hin⟩
  | false =>
    obtain ⟨hlo, hhi, -⟩ := hadd.fresh i hi hs
    exact ⟨r, List.mem_cons_self, hlo, hhi⟩

theorem PmmOk.store {s : Machine} (h : PmmOk s) {p : Physical} (hp : p ∈ s.pmm.managedPages)
    (i : Fin 512) (value : BitVec 64) :
    PmmOk (s.store p i value) ∧ freePages (s.store p i value) = freePages s := by
  have hpmm : (s.store p i value).pmm = s.pmm := rfl
  refine h.congr hpmm ?_
  intro q hq
  apply Function.update_of_ne
  rintro rfl
  exact Finset.disjoint_left.mp h.managed_disjoint_control hp hq

theorem PmmRunOk.take {s s' : Machine} {R : List PmmRange} {L : Finset Physical} {p : Physical}
    (h : PmmRunOk s R L) (ha : Allocated s p s') : PmmRunOk s' R (insert p L) := by
  rw [← h.live, ← ha.used_eq h.ok]
  exact h.frame ha.toPmmFrame

theorem PmmRunOk.free {s s' : Machine} {R : List PmmRange} {L : Finset Physical} {p : Physical}
    (h : PmmRunOk s R L) (hf : Freed s p s') : PmmRunOk s' R (L.erase p) := by
  rw [← h.live, ← hf.used_eq]
  exact h.frame hf.toPmmFrame

theorem PmmRunOk.write {s : Machine} {R : List PmmRange} {L : Finset Physical} {p : Physical}
    (h : PmmRunOk s R L) (hp : p ∈ L) (i : Fin 512) (value : BitVec 64) :
    PmmRunOk (s.store p i value) R L := by
  rw [← h.live] at hp
  obtain ⟨hok, hfree⟩ := h.ok.store (Finset.mem_sdiff.mp hp).1 i value
  refine ⟨hok, ?_, h.inside⟩
  rw [← h.live, usedPages, hfree]
  rfl

theorem PmmRun.invariant {s : Machine} {R : List PmmRange} {L : Finset Physical}
    (h : PmmRun s R L) : PmmRunOk s R L := by
  induction h with
  | new mem cr3 h => exact PmmRunOk.new mem cr3 h
  | add r prior hwrap hdisj h ih => exact ih.add hwrap hdisj h
  | @take s s' R L p prior hp h ih =>
    rcases pmmAllocatePage_spec ih.ok with ⟨-, he⟩ | ⟨q, t, he, ha⟩
    · rw [h] at he
      cases he
      exact absurd rfl hp
    · rw [h] at he
      cases he
      exact ih.take ha
  | @fail s s' R L prior h ih =>
    rcases pmmAllocatePage_spec ih.ok with ⟨-, he⟩ | ⟨q, t, he, ha⟩
    · rw [h] at he
      cases he
      exact ih
    · rw [h] at he
      cases he
      exact absurd rfl (ih.ok.managed_ne_zero (ih.ok.free_subset_managed ha.was_free))
  | @free s s' R L p prior hp h ih => exact ih.free (pmmFreePage_freed ih.ok (ih.live ▸ hp) h)
  | @write s R L p prior hp i value ih => exact ih.write hp i value

/-- A page handed out is aligned, inside a range that was added, no control block and not
already out; and there is no page only when every usable page of every block is out. -/
theorem pmm_hands_out_fresh_pages {s : Machine} {R : List PmmRange} {L : Finset Physical}
    (h : PmmRun s R L) :
    ∃ p s', pmmAllocatePage s = .ok (p, s') ∧
      (p ≠ 0#64 → Aligned p ∧ (∃ r ∈ R, r.Contains p) ∧
        (∀ i, (s.pmm.entry i).active = true → (s.pmm.entry i).ctrl ≠ p) ∧ p ∉ L) ∧
      (p = 0#64 → ∀ i, (s.pmm.entry i).active = true →
        ∀ k < (s.pmm.entry i).maxPages.toNat, (s.pmm.entry i).pageAt k ∈ L) := by
  have hi := h.invariant
  rcases pmmAllocatePage_spec hi.ok with ⟨hempty, he⟩ | ⟨p, t, he, ha⟩
  · refine ⟨0#64, s, he, fun hn => absurd rfl hn, ?_⟩
    intro _ i hact k hk
    rw [← hi.live, usedPages, hempty, Finset.sdiff_empty]
    exact mem_managedPages.mpr ⟨i, hact, k, hk, rfl⟩
  · have hm := hi.ok.free_subset_managed ha.was_free
    refine ⟨p, t, he, fun _ => ⟨hi.ok.managed_aligned hm, ?_, ?_, ?_⟩, ?_⟩
    · obtain ⟨i, hact, k, hk, rfl⟩ := mem_managedPages.mp hm
      obtain ⟨r, hr, hlo, hhi⟩ := hi.inside i hact
      have hn := (hi.ok.block i hact).toNat_pageAt hk
      refine ⟨r, hr, ?_⟩
      rw [PmmRange.Contains, hn]
      simp only [PmmCtrlPtr.blockEnd] at hhi
      omega
    · intro i hact hc
      have hd := Finset.disjoint_left.mp hi.ok.managed_disjoint_control hm
      exact hd (mem_controlPages.mpr ⟨i, hact, hc⟩)
    · rw [← hi.live, usedPages]
      intro hl
      exact (Finset.mem_sdiff.mp hl).2 ha.was_free
    · intro hz
      exact absurd hz (hi.ok.managed_ne_zero hm)

def bareMachine : Machine := ⟨fun _ => zeroPage, ⟨fun _ => emptyEntry⟩, 0#64⟩

def exampleRange : PmmRange := ⟨0x100000#64, 0x40000#64⟩

theorem bareMachine_run : PmmRun bareMachine [] ∅ := by
  have h : pmmNew 0x1000#64 = .ok ⟨fun _ => emptyEntry⟩ := rfl
  exact PmmRun.new _ _ h

theorem exampleRange_first_page :
    (pmmAdd bareMachine exampleRange.start exampleRange.size).bind
      (fun s => (pmmAllocatePage s).map Prod.fst) = .ok 0x101000#64 := by
  rw [pmmAdd]
  decide +kernel

theorem exampleRange_run : ∃ s, PmmRun s [exampleRange] ∅ ∧
    (pmmAllocatePage s).map Prod.fst = .ok 0x101000#64 := by
  have hf := exampleRange_first_page
  cases h : pmmAdd bareMachine exampleRange.start exampleRange.size with
  | error e => simp [h, Except.bind] at hf
  | ok s =>
    rw [h] at hf
    exact ⟨s, PmmRun.add exampleRange bareMachine_run (by decide) (by simp) h, hf⟩

theorem exampleRange_calls :
    (pmmAdd bareMachine exampleRange.start exampleRange.size).bind (fun s₀ =>
      (pmmAllocatePage s₀).bind fun r₁ => (pmmAllocatePage r₁.2).bind fun r₂ =>
        (pmmFreePage r₂.2 0x101000#64).bind fun s₃ =>
          (pmmAllocatePage s₃).map fun r₄ => (r₁.1, r₂.1, r₄.1)) =
      .ok (0x101000#64, 0x102000#64, 0x101000#64) := by
  rw [pmmAdd]
  decide +kernel

theorem exists_of_bind_ok {α β : Type} {r : Except Fault α} {f : α → Except Fault β} {b : β}
    (h : r.bind f = .ok b) : ∃ a, r = .ok a ∧ f a = .ok b := by
  cases r with
  | error e => cases h
  | ok a => exact ⟨a, rfl, h⟩

theorem exampleRange_reused : ∃ s, PmmRun s [exampleRange] {0x102000#64} ∧
    (pmmAllocatePage s).map Prod.fst = .ok 0x101000#64 := by
  obtain ⟨s₀, hadd, hrest⟩ := exists_of_bind_ok exampleRange_calls
  obtain ⟨⟨p₁, s₁⟩, htake₁, hrest⟩ := exists_of_bind_ok hrest
  obtain ⟨⟨p₂, s₂⟩, htake₂, hrest⟩ := exists_of_bind_ok hrest
  obtain ⟨s₃, hfree, hrest⟩ := exists_of_bind_ok hrest
  cases hlast : pmmAllocatePage s₃ with
  | error e => simp [hlast, Except.map] at hrest
  | ok r =>
    simp only [hlast, Except.map, Except.ok.injEq, Prod.mk.injEq] at hrest
    obtain ⟨rfl, rfl, hr⟩ := hrest
    have hrun := (PmmRun.add exampleRange bareMachine_run (by decide) (by simp) hadd).take
      (by decide) htake₁
    have hfreed := (hrun.take (by decide) htake₂).free (by simp) hfree
    refine ⟨s₃, ?_, by rw [hlast, Except.map, hr]⟩
    rwa [show (insert 0x102000#64 (insert 0x101000#64 ∅) : Finset Physical).erase 0x101000#64 =
      {0x102000#64} by decide] at hfreed

/-- The page that was given back comes before those that were never out. -/
theorem pmm_hands_out_fresh_pages_example : ∃ s p s', PmmRun s [exampleRange] {0x102000#64} ∧
    pmmAllocatePage s = .ok (p, s') ∧ p = 0x101000#64 ∧ Aligned p ∧
    exampleRange.Contains p ∧ p ∉ ({0x102000#64} : Finset Physical) := by
  obtain ⟨s, hrun, hfirst⟩ := exampleRange_reused
  obtain ⟨p, s', h, hp, -⟩ := pmm_hands_out_fresh_pages hrun
  rw [h] at hfirst
  have he : p = 0x101000#64 := by simpa [Except.map] using hfirst
  obtain ⟨ha, ⟨r, hr, hc⟩, -, hnot⟩ := hp (by rw [he]; decide)
  rw [List.mem_singleton] at hr
  exact ⟨s, p, s', hrun, h, he, ha, hr ▸ hc, hnot⟩

theorem usedPages_card {s : Machine} (h : PmmOk s) : (usedPages s).card =
    ∑ i ∈ s.pmm.activeEntries,
      ((s.pmm.entry i).maxPages.toNat - (s.pmm.entry i).freePages.toNat) := by
  have hsplit : usedPages s = s.pmm.activeEntries.biUnion (fun i =>
      (Finset.range (s.pmm.entry i).maxPages.toNat \
        Bitset.members (s.mem (s.pmm.entry i).ctrl)).image (s.pmm.entry i).pageAt) := by
    ext p
    simp only [mem_usedPages h, Finset.mem_biUnion, mem_activeEntries, Finset.mem_image,
      Finset.mem_sdiff, Finset.mem_range]
    constructor
    · rintro ⟨i, hi, k, hk, hn, he⟩
      exact ⟨i, hi, k, ⟨hk, hn⟩, he⟩
    · rintro ⟨i, hi, k, ⟨hk, hn⟩, he⟩
      exact ⟨i, hi, k, hk, hn, he⟩
  rw [hsplit, Finset.card_biUnion]
  · apply Finset.sum_congr rfl
    intro i hi
    rw [mem_activeEntries] at hi
    have hb := h.block i hi
    rw [Finset.card_image_of_injOn, Finset.card_sdiff_of_subset, Finset.card_range, hb.count]
    · intro k hk
      exact Finset.mem_range.mpr (hb.bits_lt k hk)
    · intro k hk l hl he
      simp only [Finset.coe_sdiff, Set.mem_sdiff, Finset.mem_coe, Finset.mem_range] at hk hl
      exact hb.pageAt_inj hk.1 hl.1 he
  · intro i hi j hj hij
    rw [Finset.mem_coe, mem_activeEntries] at hi hj
    rw [Function.onFun, Finset.disjoint_left]
    intro p hp hq
    obtain ⟨k, hk, rfl⟩ := Finset.mem_image.mp hp
    obtain ⟨l, hl, he⟩ := Finset.mem_image.mp hq
    rw [Finset.mem_sdiff, Finset.mem_range] at hk hl
    exact hij (h.pageAt_unique hi hj hk.1 hl.1 he.symm).1

def PmmCtrlPtr.pages (p : PmmCtrlPtr) : Nat := if p.active then 1 + p.maxPages.toNat else 0

theorem PmmCtrlPtr.pages_le (p : PmmCtrlPtr) : p.pages ≤ 65536 := by
  have hmax := p.maxPages.isLt
  unfold PmmCtrlPtr.pages
  split <;> omega

/-! One entry added to the counters. -/

theorem PmmStat.addEntry_total (stat : PmmStat) (p : PmmCtrlPtr)
    (hb : stat.total.toNat + 65536 < 2 ^ 64) :
    (stat.addEntry p).total.toNat = stat.total.toNat + p.pages := by
  have hmax := p.maxPages.isLt
  cases ha : p.active with
  | false => simp [PmmStat.addEntry, PmmCtrlPtr.pages, ha]
  | true =>
    simp only [PmmStat.addEntry, PmmCtrlPtr.pages, ha, if_true, BitVec.toNat_add,
      BitVec.toNat_setWidth, BitVec.toNat_ofNat]
    omega

theorem PmmStat.addEntry_inactive (stat : PmmStat) {p : PmmCtrlPtr} (ha : p.active = false) :
    stat.addEntry p = stat := by
  simp [PmmStat.addEntry, ha]

theorem PmmStat.addEntry_active {stat : PmmStat} {p : PmmCtrlPtr} (ha : p.active = true)
    (hle : p.freePages.toNat ≤ p.maxPages.toNat) (hb : stat.total.toNat + 65536 < 2 ^ 64)
    (hs : stat.free.toNat + stat.used.toNat + stat.overhead.toNat = stat.total.toNat) :
    (stat.addEntry p).free.toNat = stat.free.toNat + p.freePages.toNat ∧
    (stat.addEntry p).used.toNat =
      stat.used.toNat + (p.maxPages.toNat - p.freePages.toNat) ∧
    (stat.addEntry p).overhead.toNat = stat.overhead.toNat + 1 := by
  have hmax := p.maxPages.isLt
  simp only [PmmStat.addEntry, ha, if_true, BitVec.toNat_add, BitVec.toNat_sub,
    BitVec.toNat_setWidth, BitVec.toNat_ofNat]
  omega

theorem count_foldl (pmm : Pmm) (is : List (Fin 168)) (stat : PmmStat)
    (hp : ∀ i ∈ is, (pmm.entry i).active = true →
      (pmm.entry i).freePages.toNat ≤ (pmm.entry i).maxPages.toNat)
    (hb : stat.total.toNat + 65536 * is.length < 2 ^ 64)
    (hs : stat.free.toNat + stat.used.toNat + stat.overhead.toNat = stat.total.toNat) :
    let r := is.foldl (fun stat i => stat.addEntry (pmm.entry i)) stat
    r.free.toNat + r.used.toNat + r.overhead.toNat = r.total.toNat ∧
    r.used.toNat = stat.used.toNat + (is.map (fun i => if (pmm.entry i).active then
      (pmm.entry i).maxPages.toNat - (pmm.entry i).freePages.toNat else 0)).sum := by
  induction is generalizing stat with
  | nil => simp [hs]
  | cons i is ih =>
    rw [List.length_cons, Nat.mul_succ] at hb
    simp only [List.foldl_cons, List.map_cons, List.sum_cons]
    have hroom : stat.total.toNat + 65536 < 2 ^ 64 :=
      Nat.lt_of_le_of_lt (Nat.add_le_add_left (Nat.le_add_left _ _) _) hb
    have htotal := stat.addEntry_total (pmm.entry i) hroom
    have hpages := (pmm.entry i).pages_le
    have htail : ∀ j ∈ is, (pmm.entry j).active = true →
        (pmm.entry j).freePages.toNat ≤ (pmm.entry j).maxPages.toNat :=
      fun j hj => hp j (List.mem_cons_of_mem _ hj)
    cases ha : (pmm.entry i).active with
    | false =>
      rw [stat.addEntry_inactive ha]
      simpa using ih stat htail (by omega) hs
    | true =>
      have hle := hp i List.mem_cons_self ha
      have hone : (pmm.entry i).pages = 1 + (pmm.entry i).maxPages.toNat := if_pos ha
      obtain ⟨hfree, hused, hover⟩ := PmmStat.addEntry_active ha hle hroom hs
      obtain ⟨h₁, h₂⟩ := ih (stat.addEntry (pmm.entry i)) htail (by omega) (by omega)
      refine ⟨h₁, ?_⟩
      rw [h₂, hused]
      simp only [if_true]
      omega

theorem pmmCountPages_spec {s : Machine} (h : PmmOk s) :
    (pmmCountPages s.pmm).used.toNat = (usedPages s).card ∧
    (pmmCountPages s.pmm).free.toNat + (pmmCountPages s.pmm).used.toNat +
      (pmmCountPages s.pmm).overhead.toNat = (pmmCountPages s.pmm).total.toNat := by
  have hle : ∀ i, (s.pmm.entry i).active = true →
      (s.pmm.entry i).freePages.toNat ≤ (s.pmm.entry i).maxPages.toNat := by
    intro i hi
    have hb := h.block i hi
    have hc := Finset.card_le_card (fun k hk => Finset.mem_range.mpr (hb.bits_lt k hk))
    rwa [Finset.card_range, hb.count] at hc
  obtain ⟨hsum, hused⟩ := count_foldl s.pmm (List.finRange 168)
    { free := 0#64, total := 1#64, used := 0#64, overhead := 1#64 }
    (fun i _ hi => hle i hi) (by simp) (by decide)
  refine ⟨?_, hsum⟩
  rw [pmmCountPages, hused, usedPages_card h, Pmm.activeEntries, Finset.sum_filter,
    ← List.ofFn_eq_map, List.sum_ofFn]
  simp

/-- Counter, bitset and limit of every active entry agree, the panic about missing space is
out of reach, and the statistics count the pages that are out. -/
theorem pmm_counters_agree {s : Machine} {R : List PmmRange} {L : Finset Physical}
    (h : PmmRun s R L) :
    (∀ i, (s.pmm.entry i).active = true →
      (Bitset.members (s.mem (s.pmm.entry i).ctrl)).card = (s.pmm.entry i).freePages.toNat ∧
      (∀ k ∈ Bitset.members (s.mem (s.pmm.entry i).ctrl),
        k < (s.pmm.entry i).maxPages.toNat) ∧
      (s.pmm.entry i).freePages.toNat ≤ (s.pmm.entry i).maxPages.toNat ∧
      (s.pmm.entry i).maxPages.toNat ≤ 32767) ∧
    pmmAllocatePage s ≠ .error .shouldHaveSpace ∧
    (pmmCountPages s.pmm).used.toNat = L.card ∧
    (pmmCountPages s.pmm).free.toNat + (pmmCountPages s.pmm).used.toNat +
      (pmmCountPages s.pmm).overhead.toNat = (pmmCountPages s.pmm).total.toNat := by
  have hi := h.invariant
  obtain ⟨hused, hsum⟩ := pmmCountPages_spec hi.ok
  refine ⟨?_, ?_, by rw [hused, hi.live], hsum⟩
  · intro i hact
    have hb := hi.ok.block i hact
    have hc := Finset.card_le_card (fun k hk => Finset.mem_range.mpr (hb.bits_lt k hk))
    rw [Finset.card_range, hb.count] at hc
    exact ⟨hb.count, hb.bits_lt, hc, hb.max_le⟩
  · rcases pmmAllocatePage_spec hi.ok with ⟨-, he⟩ | ⟨p, t, he, -⟩
    · simp [he]
    · simp [he]

theorem pmm_counters_agree_example : ∃ s, PmmRun s [exampleRange] {0x102000#64} ∧
    (pmmCountPages s.pmm).used.toNat = 1 := by
  obtain ⟨s, hrun, -⟩ := exampleRange_reused
  exact ⟨s, hrun, (pmm_counters_agree hrun).2.2.1⟩

end Ukulele
