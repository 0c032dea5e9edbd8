import Ukulele.PmmFree
import Ukulele.PmmOrder
import Ukulele.PmmChunks

/-! The pages of the allocator as one list: which pages come out, and in which order.
-/

set_option autoImplicit false

namespace Ukulele

section Order

variable {α : Type*} [DecidableEq α]

def idle (order : List α) (used : Finset α) : List α := order.filter (fun a => decide (a ∉ used))

@[simp] theorem mem_idle {order : List α} {used : Finset α} {a : α} :
    a ∈ idle order used ↔ a ∈ order ∧ a ∉ used := by
  simp [idle]

theorem idle_nodup {order : List α} (h : order.Nodup) (used : Finset α) :
    (idle order used).Nodup := h.filter _

theorem idle_insert {order : List α} (h : order.Nodup) {used : Finset α} {a : α} {rest : List α}
    (hidle : idle order used = a :: rest) : idle order (insert a used) = rest := by
  have hnodup := idle_nodup h used
  rw [hidle, List.nodup_cons] at hnodup
  calc
    idle order (insert a used) = (idle order used).filter (fun b => decide (b ≠ a)) := by
      rw [idle, idle, List.filter_filter]
      apply List.filter_congr
      intro b _
      simp [not_or]
    _ = rest := by
      rw [hidle, List.filter_cons_of_neg (by simp), List.filter_eq_self]
      intro b hb
      simp only [decide_eq_true_eq]
      rintro rfl
      exact hnodup.1 hb

end Order

def PmmCtrlPtr.orderedPages (p : PmmCtrlPtr) : List Physical :=
  if p.active then (List.range p.maxPages.toNat).map p.pageAt else []

def Pmm.orderedPages (pmm : Pmm) : List Physical :=
  (List.finRange 168).flatMap (fun i => (pmm.entry i).orderedPages)

theorem PmmCtrlPtr.mem_orderedPages {p : PmmCtrlPtr} {q : Physical} :
    q ∈ p.orderedPages ↔ p.active = true ∧ ∃ k < p.maxPages.toNat, p.pageAt k = q := by
  cases h : p.active <;> simp [PmmCtrlPtr.orderedPages, h]

theorem Pmm.mem_orderedPages {pmm : Pmm} {q : Physical} :
    q ∈ pmm.orderedPages ↔ q ∈ pmm.managedPages := by
  simp [Pmm.orderedPages, PmmCtrlPtr.mem_orderedPages, mem_managedPages]

theorem PmmOk.orderedPages_nodup {s : Machine} (h : PmmOk s) : s.pmm.orderedPages.Nodup := by
  rw [Pmm.orderedPages, List.nodup_flatMap]
  constructor
  · intro i _
    rw [PmmCtrlPtr.orderedPages]
    split
    · rename_i hi
      apply List.Nodup.map_on
      · intro k hk l hl he
        exact (h.block i hi).pageAt_inj (List.mem_range.mp hk) (List.mem_range.mp hl) he
      · exact List.nodup_range
    · exact List.nodup_nil
  · apply (List.nodup_finRange 168).imp
    intro i j hij q hq hq'
    obtain ⟨hi, k, hk, rfl⟩ := PmmCtrlPtr.mem_orderedPages.mp hq
    obtain ⟨hj, l, hl, he⟩ := PmmCtrlPtr.mem_orderedPages.mp hq'
    exact hij (h.pageAt_unique hi hj hk hl he.symm).1

theorem PmmFrame.orderedPages_eq {s t : Machine} (h : PmmFrame s t) :
    t.pmm.orderedPages = s.pmm.orderedPages := by
  rw [Pmm.orderedPages, Pmm.orderedPages]
  congr 1
  funext i
  rw [h.entry_eq i]
  rfl

theorem PmmOk.idle_block {s : Machine} (h : PmmOk s) {i : Fin 168}
    (hi : (s.pmm.entry i).active = true) :
    idle (s.pmm.entry i).orderedPages (usedPages s) =
      ((List.range (s.pmm.entry i).maxPages.toNat).filter
        (fun k => decide (k ∈ Bitset.members (s.mem (s.pmm.entry i).ctrl)))).map
        (s.pmm.entry i).pageAt := by
  rw [idle, PmmCtrlPtr.orderedPages, if_pos hi, List.filter_map]
  refine congrArg _ (List.filter_congr ?_)
  intro k hk
  rw [List.mem_range] at hk
  have hmem : (s.pmm.entry i).pageAt k ∉ usedPages s ↔
      k ∈ Bitset.members (s.mem (s.pmm.entry i).ctrl) := by
    rw [mem_usedPages h]
    constructor
    · intro hn
      by_contra hout
      exact hn ⟨i, hi, k, hk, hout, rfl⟩
    · intro hin hused
      obtain ⟨j, hj, l, hl, hout, he⟩ := hused
      obtain ⟨rfl, rfl⟩ := h.pageAt_unique hj hi hl hk he
      exact hout hin
  exact decide_eq_decide.mpr hmem

theorem PmmCtrlPtr.orderedPages_inactive {p : PmmCtrlPtr} (h : p.active = false) :
    p.orderedPages = [] := by
  simp [PmmCtrlPtr.orderedPages, h]

theorem PmmOk.idle_full {s : Machine} (h : PmmOk s) {i : Fin 168}
    (hfull : (s.pmm.entry i).freePages = 0#16) :
    idle (s.pmm.entry i).orderedPages (usedPages s) = [] := by
  cases hi : (s.pmm.entry i).active with
  | false => simp [PmmCtrlPtr.orderedPages_inactive hi, idle]
  | true =>
    have hcount := (h.block i hi).count
    rw [hfull] at hcount
    simp only [BitVec.toNat_ofNat, Nat.zero_mod, Finset.card_eq_zero] at hcount
    simp [h.idle_block hi, hcount]

theorem PmmOk.idle_head {s : Machine} (h : PmmOk s) {i : Fin 168}
    (hi : (s.pmm.entry i).active = true) (hf : (s.pmm.entry i).freePages ≠ 0#16) :
    ∃ k < 65536, ∃ blk, pmmCtrlAlloc (s.mem (s.pmm.entry i).ctrl) = .ok (BitVec.ofNat 16 k, blk) ∧
      (idle (s.pmm.entry i).orderedPages (usedPages s)).head? =
        some ((s.pmm.entry i).pageAt k) := by
  have hb := h.block i hi
  have hmax := hb.max_le
  cases hw : Bitset.firstWord (s.mem (s.pmm.entry i).ctrl) with
  | none =>
    have hcount := hb.count
    rw [Bitset.firstWord_none hw, Finset.card_empty] at hcount
    exact absurd (BitVec.eq_of_toNat_eq (by rw [← hcount]; rfl)) hf
  | some w =>
    have hm := (Bitset.first_mem hw).2
    have hlt := hb.bits_lt _ hm
    have hfind : (List.range (s.pmm.entry i).maxPages.toNat).find?
        (fun k => decide (k ∈ Bitset.members (s.mem (s.pmm.entry i).ctrl))) =
        some (64 * w.val + (s.mem (s.pmm.entry i).ctrl w).ctz.toNat) := by
      rw [List.find?_range_eq_some]
      refine ⟨by simpa using hm, List.mem_range.mpr hlt, ?_⟩
      intro k hk
      have hno : k ∉ Bitset.members (s.mem (s.pmm.entry i).ctrl) := by
        intro hin
        have hle := Bitset.first_le hw hin
        omega
      simpa using hno
    have hbound : 64 * w.val + (s.mem (s.pmm.entry i).ctrl w).ctz.toNat < 65536 := by omega
    refine ⟨_, hbound, Bitset.clear (s.mem (s.pmm.entry i).ctrl) w
      (s.mem (s.pmm.entry i).ctrl w).ctz.toNat, ?_, ?_⟩
    · unfold pmmCtrlAlloc
      rw [hw]
    · rw [h.idle_block hi, List.head?_map, List.head?_filter, hfind]
      rfl

theorem idle_flatMap {α β : Type*} [DecidableEq β] (l : List α) (f : α → List β)
    (used : Finset β) : idle (l.flatMap f) used = l.flatMap (fun a => idle (f a) used) := by
  simp [idle, List.filter_flatMap]

theorem pmmAllocatePage_head {s : Machine} (h : PmmOk s) :
    (pmmAllocatePage s).map Prod.fst =
      .ok ((idle s.pmm.orderedPages (usedPages s)).head?.getD 0#64) := by
  rw [Pmm.orderedPages, idle_flatMap, List.head?_flatMap]
  cases hs : spaceEntry s.pmm with
  | none =>
    have hfull : ∀ i, idle (s.pmm.entry i).orderedPages (usedPages s) = [] := by
      intro i
      have hn := List.find?_eq_none.mp hs i (List.mem_finRange i)
      cases hi : (s.pmm.entry i).active with
      | false => simp [PmmCtrlPtr.orderedPages_inactive hi, idle]
      | true => exact h.idle_full (by simpa [hi] using hn)
    have hnone : (List.finRange 168).findSome? (fun i =>
        (idle (s.pmm.entry i).orderedPages (usedPages s)).head?) = none := by
      rw [List.findSome?_eq_none_iff]
      intro i _
      simp [hfull i]
    rw [hnone]
    simp [pmmAllocatePage, hs, Except.map]
  | some i =>
    obtain ⟨hi, hf⟩ := spaceEntry_some hs
    obtain ⟨-, before, after, hsplit, hbefore⟩ := List.find?_eq_some_iff_append.mp hs
    have hskip : ∀ j ∈ before, idle (s.pmm.entry j).orderedPages (usedPages s) = [] := by
      intro j hj
      have hn := hbefore j hj
      cases hact : (s.pmm.entry j).active with
      | false => simp [PmmCtrlPtr.orderedPages_inactive hact, idle]
      | true => exact h.idle_full (by simpa [hact] using hn)
    obtain ⟨k, hk, blk, hblk, hhead⟩ := h.idle_head hi hf
    have hnone : before.findSome? (fun j =>
        (idle (s.pmm.entry j).orderedPages (usedPages s)).head?) = none := by
      rw [List.findSome?_eq_none_iff]
      intro j hj
      simp [hskip j hj]
    rw [hsplit, List.findSome?_append, hnone, Option.none_or, List.findSome?_cons, hhead]
    simp only [pmmAllocatePage, hs, hblk, bind, Except.bind, pure, Except.pure, Except.map,
      pageSize_mul_setWidth hk]
    rfl

def allocatePages : Nat → Machine → Except Fault (List Physical × Machine)
  | 0, s => .ok ([], s)
  | n + 1, s => do
    let (p, s) ← pmmAllocatePage s
    let (ps, s) ← allocatePages n s
    return (p :: ps, s)

theorem PmmOk.idle_nil {s : Machine} (h : PmmOk s)
    (hidle : idle s.pmm.orderedPages (usedPages s) = []) : pmmAllocatePage s = .ok (0#64, s) := by
  have hhead := pmmAllocatePage_head h
  rcases pmmAllocatePage_spec h with ⟨-, he⟩ | ⟨p, t, he, ha⟩
  · exact he
  · have hz : p = 0#64 := by simpa [hidle, he, Except.map] using hhead
    exact absurd hz (h.managed_ne_zero (h.free_subset_managed ha.was_free))

theorem PmmOk.idle_cons {s : Machine} (h : PmmOk s) {p : Physical} {rest : List Physical}
    (hidle : idle s.pmm.orderedPages (usedPages s) = p :: rest) :
    ∃ t, pmmAllocatePage s = .ok (p, t) ∧ Allocated s p t ∧
      idle t.pmm.orderedPages (usedPages t) = rest := by
  have hhead := pmmAllocatePage_head h
  rcases pmmAllocatePage_spec h with ⟨hempty, he⟩ | ⟨q, t, he, ha⟩
  · have hp : p ∈ idle s.pmm.orderedPages (usedPages s) := by simp [hidle]
    rw [mem_idle, Pmm.mem_orderedPages, usedPages, hempty, Finset.sdiff_empty] at hp
    exact absurd hp.1 hp.2
  · have hq : q = p := by simpa [hidle, he, Except.map] using hhead
    subst q
    refine ⟨t, he, ha, ?_⟩
    rw [ha.orderedPages_eq, ha.used_eq h]
    exact idle_insert h.orderedPages_nodup hidle

theorem allocatePages_spec {s : Machine} {R : List PmmRange} {L : Finset Physical}
    (h : PmmRun s R L) (n : Nat) :
    ∃ t, allocatePages n s = .ok ((idle s.pmm.orderedPages L).take n ++
        List.replicate (n - (idle s.pmm.orderedPages L).length) 0#64, t) ∧
      PmmRun t R (L ∪ ((idle s.pmm.orderedPages L).take n).toFinset) := by
  induction n generalizing s L with
  | zero => exact ⟨s, by simp [allocatePages], by simpa using h⟩
  | succ n ih =>
    have hi := h.invariant
    have hL := hi.live
    cases hidle : idle s.pmm.orderedPages L with
    | nil =>
      obtain ⟨t, ht, hrun⟩ := ih h
      have hfail := hi.ok.idle_nil (by rw [hL, hidle])
      refine ⟨t, ?_, by simpa [hidle] using hrun⟩
      simp [allocatePages, hfail, ht, hidle, bind, Except.bind, pure, Except.pure,
        List.replicate_succ]
    | cons p rest =>
      obtain ⟨t, ht, ha, hrest⟩ := hi.ok.idle_cons (by rw [hL, hidle])
      have hp := hi.ok.managed_ne_zero (hi.ok.free_subset_managed ha.was_free)
      rw [ha.used_eq hi.ok, hL] at hrest
      obtain ⟨u, hu, hrun⟩ := ih (h.take hp ht)
      rw [hrest] at hu hrun
      refine ⟨u, ?_, ?_⟩
      · simp [allocatePages, ht, hu, bind, Except.bind, pure, Except.pure]
      · simpa [Finset.union_insert, Finset.insert_union] using hrun

def plannedChunks (R : List PmmRange) : List (Physical × Chunk) :=
  R.reverse.flatMap (fun r => (keptChunks (r.size.toNat / 4096)).map (fun c => (r.start, c)))

def Chunk.usable (c : Chunk) (start : Physical) : List Physical :=
  (List.range (c.pages - 1)).map (fun k => c.page start (k + 1))

def plannedPages (R : List PmmRange) : List Physical :=
  ((plannedChunks R).take 168).flatMap (fun q => q.2.usable q.1)

def plannedEntry (R : List PmmRange) (i : Nat) : PmmCtrlPtr :=
  ((plannedChunks R)[i]?).elim emptyEntry (fun q => q.2.entry q.1)

theorem plannedChunks_cons (r : PmmRange) (R : List PmmRange) :
    plannedChunks (r :: R) =
      plannedChunks R ++ (keptChunks (r.size.toNat / 4096)).map (fun c => (r.start, c)) := by
  simp [plannedChunks]

theorem plannedEntry_active {R : List PmmRange} {i : Nat} :
    (plannedEntry R i).active = decide (i < (plannedChunks R).length) := by
  rw [plannedEntry]
  by_cases hi : i < (plannedChunks R).length
  · simp [hi, Chunk.entry]
  · simp [hi, emptyEntry]

/-- Every entry has the block that the ranges plan for it. -/
def Filled (s : Machine) (R : List PmmRange) : Prop :=
  ∀ i : Fin 168, s.pmm.entry i =
    { plannedEntry R i.val with freePages := (s.pmm.entry i).freePages }

theorem Filled.active {s : Machine} {R : List PmmRange} (h : Filled s R) (i : Fin 168) :
    (s.pmm.entry i).active = decide (i.val < (plannedChunks R).length) := by
  rw [h i]
  exact plannedEntry_active

theorem Filled.frame {s t : Machine} {R : List PmmRange} (h : Filled s R) (hf : PmmFrame s t) :
    Filled t R := by
  intro i
  rw [hf.entry_eq i, h i]

theorem filter_finRange_ge (n m : Nat) :
    (List.finRange n).filter (fun i => decide (m ≤ i.val)) = (List.finRange n).drop m := by
  have hsplit := List.take_append_drop m (List.finRange n)
  have hfront : ((List.finRange n).take m).filter (fun i => decide (m ≤ i.val)) = [] := by
    rw [List.filter_eq_nil_iff]
    intro i hi
    obtain ⟨k, hk, rfl⟩ := List.mem_take_iff_getElem.mp hi
    simp only [List.getElem_finRange, Fin.val_cast, decide_eq_true_eq]
    omega
  have hback : ((List.finRange n).drop m).filter (fun i => decide (m ≤ i.val)) =
      (List.finRange n).drop m := by
    rw [List.filter_eq_self]
    intro i hi
    obtain ⟨k, hk, rfl⟩ := List.mem_drop_iff_getElem.mp hi
    simp
  calc
    (List.finRange n).filter (fun i => decide (m ≤ i.val)) =
        ((List.finRange n).take m ++ (List.finRange n).drop m).filter
          (fun i => decide (m ≤ i.val)) := by rw [hsplit]
    _ = (List.finRange n).drop m := by rw [List.filter_append, hfront, hback, List.nil_append]

theorem Filled.inactive {s : Machine} {R : List PmmRange} (h : Filled s R) :
    inactiveEntries s.pmm = (List.finRange 168).drop (plannedChunks R).length := by
  rw [inactiveEntries, ← filter_finRange_ge]
  apply List.filter_congr
  intro i _
  by_cases hlt : i.val < (plannedChunks R).length
  · simp [h.active i, hlt]
  · simp [h.active i, hlt, Nat.le_of_not_lt hlt]

theorem Filled.mem_placements {s : Machine} {R : List PmmRange} (h : Filled s R) {n : Nat}
    {i : Fin 168} {c : Chunk} : (i, c) ∈ placements s.pmm n ↔
      (plannedChunks R).length ≤ i.val ∧
        (keptChunks n)[i.val - (plannedChunks R).length]? = some c := by
  rw [placements, h.inactive, List.mem_iff_getElem?]
  constructor
  · intro hin
    obtain ⟨k, hk⟩ := hin
    obtain ⟨hi, hc⟩ := List.getElem?_zip_eq_some.mp hk
    rw [List.getElem?_drop, List.getElem?_eq_some_iff] at hi
    obtain ⟨hlt, he⟩ := hi
    simp only [List.getElem_finRange] at he
    subst he
    simpa using hc
  · intro hin
    refine ⟨i.val - (plannedChunks R).length, List.getElem?_zip_eq_some.mpr ⟨?_, hin.2⟩⟩
    simp [Nat.add_sub_cancel' hin.1]

theorem Filled.add {s s' : Machine} {R : List PmmRange} {r : PmmRange} (h : Filled s R)
    (hp : Placed r.start (placements s.pmm (r.size.toNat / 4096)) s s') : Filled s' (r :: R) := by
  intro i
  by_cases hlt : i.val < (plannedChunks R).length
  · have hout : i ∉ (placements s.pmm (r.size.toNat / 4096)).map Prod.fst := by
      intro hin
      obtain ⟨q, hq, rfl⟩ := List.mem_map.mp hin
      have hle := (h.mem_placements.mp hq).1
      omega
    rw [hp.kept i hout, h i]
    simp [plannedEntry, plannedChunks_cons, List.getElem?_append_left hlt]
  · have hge := Nat.le_of_not_lt hlt
    cases hc : (keptChunks (r.size.toNat / 4096))[i.val - (plannedChunks R).length]? with
    | some c =>
      rw [hp.entry (i, c) (h.mem_placements.mpr ⟨hge, hc⟩)]
      simp [plannedEntry, plannedChunks_cons, List.getElem?_append_right hge, hc, Chunk.entry]
    | none =>
      have hout : i ∉ (placements s.pmm (r.size.toNat / 4096)).map Prod.fst := by
        intro hin
        obtain ⟨q, hq, rfl⟩ := List.mem_map.mp hin
        have hsome := (h.mem_placements.mp hq).2
        simp [hc] at hsome
      rw [hp.kept i hout, h i]
      simp [plannedEntry, plannedChunks_cons, List.getElem?_append_right hge, hc,
        List.getElem?_eq_none hge]

theorem Filled.new {controlPage : Physical} {pmm : Pmm} (mem : Memory) (cr3 : Physical)
    (h : pmmNew controlPage = .ok pmm) : Filled ⟨mem, pmm, cr3⟩ [] := by
  cases hr : requirePageAligned controlPage with
  | error e => simp [pmmNew, hr, bind, Except.bind] at h
  | ok u =>
    simp only [pmmNew, hr, bind, Except.bind, pure, Except.pure, Except.ok.injEq] at h
    subst h
    intro i
    rfl

theorem PmmRun.filled {s : Machine} {R : List PmmRange} {L : Finset Physical}
    (h : PmmRun s R L) : Filled s R := by
  induction h with
  | new mem cr3 h => exact Filled.new mem cr3 h
  | @add s s' R L r prior hwrap hdisj h ih =>
    have ha : Aligned r.start := by
      by_contra hn
      rw [pmmAdd, requirePageAligned_error hn] at h
      contradiction
    obtain ⟨t, ht, hp⟩ := pmmAdd_placed ha hwrap
    rw [h] at ht
    cases ht
    exact ih.add hp
  | take prior hp h ih =>
    exact ih.frame (pmmAllocatePage_moved prior.invariant.ok hp h).1.toPmmFrame
  | fail prior h ih =>
    rw [pmmAllocatePage_failed prior.invariant.ok h]
    exact ih
  | free prior hp h ih =>
    have hi := prior.invariant
    exact ih.frame (pmmFreePage_moved hi.ok (hi.live ▸ hp) h).1.toPmmFrame
  | write prior hp i value ih => exact ih

theorem flatMap_finRange_elim {α β : Type*} (n : Nat) (l : List α) (g : α → List β) :
    (List.finRange n).flatMap (fun i => (l[i.val]?).elim [] g) = (l.take n).flatMap g := by
  induction n generalizing l with
  | zero => simp
  | succ n ih =>
    cases l with
    | nil => simp
    | cons a l =>
      have hrest := ih l
      simp only [List.finRange_succ, List.flatMap_cons, List.flatMap_map, List.take_succ_cons]
      simp [hrest]

theorem mem_plannedChunks {R : List PmmRange} {q : Physical × Chunk} (h : q ∈ plannedChunks R) :
    q.2.pages ≤ 32768 := by
  simp only [plannedChunks, List.mem_flatMap, List.mem_map] at h
  obtain ⟨r, -, c, hc, rfl⟩ := h
  exact (mem_keptChunks hc).2.1

theorem Chunk.entry_orderedPages {c : Chunk} (hmax : c.pages ≤ 32768) (start : Physical) :
    (c.entry start).orderedPages = c.usable start := by
  have hpages : (c.entry start).maxPages.toNat = c.pages - 1 := by
    rw [Chunk.entry, BitVec.toNat_ofNat]
    omega
  have hactive : (c.entry start).active = true := rfl
  rw [PmmCtrlPtr.orderedPages, if_pos hactive, hpages, Chunk.usable]
  exact List.map_congr_left (fun k _ => c.entry_pageAt start k)

theorem plannedEntry_orderedPages (R : List PmmRange) (i : Nat) :
    (plannedEntry R i).orderedPages =
      ((plannedChunks R)[i]?).elim [] (fun q => q.2.usable q.1) := by
  rw [plannedEntry]
  cases hq : (plannedChunks R)[i]? with
  | none => rfl
  | some q =>
    exact Chunk.entry_orderedPages (mem_plannedChunks (List.mem_of_getElem? hq)) q.1

theorem Filled.orderedPages {s : Machine} {R : List PmmRange} (h : Filled s R) :
    s.pmm.orderedPages = plannedPages R := by
  rw [plannedPages, ← flatMap_finRange_elim, Pmm.orderedPages]
  congr 1
  funext i
  rw [h i, ← plannedEntry_orderedPages]
  rfl

/-- The allocator is an ordered list of pages, whatever calls came before: `n` calls return the
first `n` pages of the added ranges that are not out, and zero when the list is over. -/
theorem pmm_hands_out_in_order {s : Machine} {R : List PmmRange} {L : Finset Physical}
    (h : PmmRun s R L) (n : Nat) :
    ∃ t, allocatePages n s = .ok ((idle (plannedPages R) L).take n ++
        List.replicate (n - (idle (plannedPages R) L).length) 0#64, t) ∧
      PmmRun t R (L ∪ ((idle (plannedPages R) L).take n).toFinset) := by
  have hspec := allocatePages_spec h n
  rw [h.filled.orderedPages] at hspec
  exact hspec

theorem pmm_hands_out_in_order_example : ∃ s t, PmmRun s [exampleRange] {0x101000#64} ∧
    allocatePages 2 s = .ok ([0x102000#64, 0x103000#64], t) := by
  obtain ⟨s, hs⟩ := exampleRange_taken
  obtain ⟨t, ht, -⟩ := pmm_hands_out_in_order hs 2
  have hnext : (idle (plannedPages [exampleRange]) {0x101000#64}).take 2 ++
      List.replicate (2 - (idle (plannedPages [exampleRange]) {0x101000#64}).length) 0#64 =
      [0x102000#64, 0x103000#64] := by decide +kernel
  rw [hnext] at ht
  exact ⟨s, t, hs, ht⟩

end Ukulele
