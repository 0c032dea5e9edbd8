import Ukulele.PmmRuns

/-! How `pmm_add` cuts a range: into which chunks, and which entries they take.
Chunks are counted in pages of the range.
-/

set_option autoImplicit false

namespace Ukulele

/-- A part of a range: how many pages come before it, and how many it has. -/
structure Chunk where
  first : Nat
  pages : Nat
  deriving DecidableEq, Repr

/-- Consecutive chunks of 32768 pages; the last one has what remains. -/
def chunks (n : Nat) : List Chunk :=
  (List.range ((n + 32767) / 32768)).map (fun j => ⟨32768 * j, min 32768 (n - 32768 * j)⟩)

def keptChunks (n : Nat) : List Chunk := (chunks n).filter (fun c => decide (64 ≤ c.pages))

def inactiveEntries (pmm : Pmm) : List (Fin 168) :=
  (List.finRange 168).filter (fun i => !(pmm.entry i).active)

/-- Entries and chunks in order; a chunk with no entry left has no place. -/
def placements (pmm : Pmm) (n : Nat) : List (Fin 168 × Chunk) :=
  (inactiveEntries pmm).zip (keptChunks n)

def Chunk.page (c : Chunk) (start : Physical) (k : Nat) : Physical :=
  start + BitVec.ofNat 64 (4096 * (c.first + k))

def Chunk.ctrl (c : Chunk) (start : Physical) : Physical := c.page start 0

def Chunk.entry (c : Chunk) (start : Physical) : PmmCtrlPtr :=
  ⟨c.page start 1, c.ctrl start, BitVec.ofNat 16 (c.pages - 1), BitVec.ofNat 16 (c.pages - 1), true⟩

def Chunk.shift (m : Nat) (c : Chunk) : Chunk := ⟨c.first + m, c.pages⟩

theorem chunks_cons {n : Nat} (h : 0 < n) :
    chunks n = ⟨0, min 32768 n⟩ :: (chunks (n - 32768)).map (Chunk.shift 32768) := by
  have hcount : (n + 32767) / 32768 = (n - 32768 + 32767) / 32768 + 1 := by omega
  rw [chunks, hcount, List.range_succ_eq_map, List.map_cons, List.map_map, chunks, List.map_map]
  have hrest : ∀ j, Chunk.mk (32768 * (j + 1)) (min 32768 (n - 32768 * (j + 1))) =
      Chunk.shift 32768 ⟨32768 * j, min 32768 (n - 32768 - 32768 * j)⟩ := by
    intro j
    simp only [Chunk.shift, Chunk.mk.injEq]
    omega
  simp [hrest]

theorem keptChunks_of_lt {n : Nat} (h : n < 64) : keptChunks n = [] := by
  by_cases hz : n = 0
  · subst hz
    rfl
  · have hlast : n - 32768 = 0 := by omega
    have hmin : ¬ 64 ≤ min 32768 n := by omega
    rw [keptChunks, chunks_cons (by omega), hlast, List.filter_cons_of_neg (by simpa using hmin)]
    rfl

theorem keptChunks_cons {n : Nat} (h : 64 ≤ n) :
    keptChunks n = ⟨0, min 32768 n⟩ :: (keptChunks (n - 32768)).map (Chunk.shift 32768) := by
  have hmin : 64 ≤ min 32768 n := by omega
  rw [keptChunks, chunks_cons (by omega), List.filter_cons_of_pos (by simpa using hmin),
    List.filter_map]
  rfl

theorem chunks_full {n : Nat} {c : Chunk} (h : c ∈ chunks n) :
    0 < c.pages ∧ c.first + c.pages ≤ n ∧ (c.pages = 32768 ∨ c.first + c.pages = n) := by
  simp only [chunks, List.mem_map, List.mem_range] at h
  obtain ⟨j, hj, rfl⟩ := h
  simp only
  omega

theorem mem_keptChunks {n : Nat} {c : Chunk} (h : c ∈ keptChunks n) :
    64 ≤ c.pages ∧ c.pages ≤ 32768 ∧ c.first + c.pages ≤ n := by
  obtain ⟨hmem, hmin⟩ := List.mem_filter.mp h
  obtain ⟨-, hle, hfull⟩ := chunks_full hmem
  simp only [chunks, List.mem_map, List.mem_range] at hmem
  obtain ⟨j, hj, rfl⟩ := hmem
  simp only [decide_eq_true_eq] at hmin hle ⊢
  omega

theorem Chunk.shift_page (c : Chunk) (start : Physical) (m k : Nat) :
    (c.shift m).page start k = c.page (start + BitVec.ofNat 64 (4096 * m)) k := by
  have hsum : 4096 * (c.first + m + k) = 4096 * m + 4096 * (c.first + k) := by omega
  simp only [Chunk.page, Chunk.shift, hsum, BitVec.ofNat_add, BitVec.add_assoc]

theorem Chunk.shift_entry (c : Chunk) (start : Physical) (m : Nat) :
    (c.shift m).entry start = c.entry (start + BitVec.ofNat 64 (4096 * m)) := by
  simp only [Chunk.entry, Chunk.ctrl, Chunk.shift_page]
  rfl

theorem Chunk.toNat_ctrl (c : Chunk) {start : Physical}
    (h : start.toNat + 4096 * c.first < 2 ^ 64) :
    (c.ctrl start).toNat = start.toNat + 4096 * c.first := by
  rw [Chunk.ctrl, Chunk.page, BitVec.toNat_add, BitVec.toNat_ofNat]
  omega

theorem Chunk.ctrl_ne {start : Physical} {c d : Chunk} (hlt : c.first < d.first)
    (h : start.toNat + 4096 * d.first < 2 ^ 64) : c.ctrl start ≠ d.ctrl start := by
  intro he
  have hc := @Chunk.toNat_ctrl c start (by omega)
  have hd := d.toNat_ctrl h
  rw [he] at hc
  omega

theorem inactiveEntries_nodup (pmm : Pmm) : (inactiveEntries pmm).Nodup :=
  (List.nodup_finRange 168).filter _

theorem mem_inactiveEntries {pmm : Pmm} {i : Fin 168} :
    i ∈ inactiveEntries pmm ↔ (pmm.entry i).active = false := by
  simp [inactiveEntries]

theorem inactiveEntry_eq (pmm : Pmm) : inactiveEntry pmm = (inactiveEntries pmm).head? := by
  rw [inactiveEntry, inactiveEntries, List.head?_filter]

theorem inactiveEntries_update {pmm : Pmm} {i : Fin 168} {is : List (Fin 168)} {p : PmmCtrlPtr}
    (h : inactiveEntries pmm = i :: is) (hp : p.active = true) :
    inactiveEntries ⟨Function.update pmm.entry i p⟩ = is := by
  have hnodup := inactiveEntries_nodup pmm
  rw [h, List.nodup_cons] at hnodup
  calc
    inactiveEntries ⟨Function.update pmm.entry i p⟩ =
        (List.finRange 168).filter (fun j => decide (j ≠ i) && !(pmm.entry j).active) := by
      apply List.filter_congr
      intro j _
      by_cases hj : j = i
      · subst j
        simp [hp]
      · simp [hj]
    _ = (inactiveEntries pmm).filter (fun j => decide (j ≠ i)) := by
      rw [inactiveEntries, List.filter_filter]
    _ = is := by
      rw [h, List.filter_cons_of_neg (by simp), List.filter_eq_self]
      intro j hj
      simp only [decide_eq_true_eq]
      rintro rfl
      exact hnodup.1 hj

def Pmm.pages (pmm : Pmm) : Nat := ∑ i, (pmm.entry i).pages

theorem Pmm.pages_update {pmm : Pmm} {i : Fin 168} (hi : (pmm.entry i).active = false)
    (p : PmmCtrlPtr) :
    Pmm.pages ⟨Function.update pmm.entry i p⟩ = pmm.pages + p.pages := by
  have hcomp : (fun j => (Function.update pmm.entry i p j).pages) =
      Function.update (fun j => (pmm.entry j).pages) i p.pages :=
    Function.comp_update PmmCtrlPtr.pages pmm.entry i p
  have hzero : (pmm.entry i).pages = 0 := by simp [PmmCtrlPtr.pages, hi]
  have hsplit := Finset.sum_eq_add_sum_sdiff_singleton_of_mem (Finset.mem_univ i)
    (fun j => (pmm.entry j).pages)
  simp only [Pmm.pages, hcomp, Finset.sum_update_of_mem (Finset.mem_univ i), hsplit, hzero]
  omega

theorem count_foldl_total (pmm : Pmm) (is : List (Fin 168)) (stat : PmmStat)
    (hb : stat.total.toNat + 65536 * is.length < 2 ^ 64) :
    (is.foldl (fun stat i => stat.addEntry (pmm.entry i)) stat).total.toNat =
      stat.total.toNat + (is.map fun i => (pmm.entry i).pages).sum := by
  induction is generalizing stat with
  | nil => simp
  | cons i is ih =>
    rw [List.length_cons, Nat.mul_succ] at hb
    have htotal := stat.addEntry_total (pmm.entry i)
      (Nat.lt_of_le_of_lt (Nat.add_le_add_left (Nat.le_add_left _ _) _) hb)
    have hpages := (pmm.entry i).pages_le
    rw [List.foldl_cons, ih _ (by omega), htotal, List.map_cons, List.sum_cons]
    omega

theorem pmmCountPages_total (pmm : Pmm) : (pmmCountPages pmm).total.toNat = 1 + pmm.pages := by
  rw [pmmCountPages, count_foldl_total _ _ _ (by simp), Pmm.pages, ← List.ofFn_eq_map,
    List.sum_ofFn]
  rfl

/-- The chunks `P` are in their entries, with every page after the control page free, and
nothing else has changed. -/
structure Placed (start : Physical) (P : List (Fin 168 × Chunk)) (s s' : Machine) : Prop where
  entry : ∀ q ∈ P, s'.pmm.entry q.1 = q.2.entry start
  bits : ∀ q ∈ P, Bitset.members (s'.mem (q.2.ctrl start)) = Finset.range (q.2.pages - 1)
  kept : ∀ i ∉ P.map Prod.fst, s'.pmm.entry i = s.pmm.entry i
  mem_eq : ∀ p : Physical, (∀ q ∈ P, p ≠ q.2.ctrl start) → s'.mem p = s.mem p
  cr3_eq : s'.cr3 = s.cr3
  pages : s'.pmm.pages = s.pmm.pages + (P.map fun q => q.2.pages).sum

theorem Placed.nil (start : Physical) (s : Machine) : Placed start [] s s := by
  constructor <;> simp

theorem Placed.cons {start : Physical} {i : Fin 168} {c : Chunk} {m : Nat}
    {P : List (Fin 168 × Chunk)} {s t u : Machine}
    (h : Placed start [(i, c)] s t) (hrest : Placed (start + BitVec.ofNat 64 (4096 * m)) P t u)
    (hi : i ∉ P.map Prod.fst) (hctrl : ∀ q ∈ P, c.ctrl start ≠ (q.2.shift m).ctrl start) :
    Placed start ((i, c) :: P.map (Prod.map id (Chunk.shift m))) s u := by
  have hshift : ∀ q : Fin 168 × Chunk, (q.2.shift m).ctrl start =
      q.2.ctrl (start + BitVec.ofNat 64 (4096 * m)) := fun q => q.2.shift_page start m 0
  have hfst : (P.map (Prod.map id (Chunk.shift m))).map Prod.fst = P.map Prod.fst := by
    simp [Function.comp_def]
  refine ⟨?_, ?_, ?_, ?_, hrest.cr3_eq.trans h.cr3_eq, ?_⟩
  · intro q hq
    rcases List.mem_cons.mp hq with rfl | hq
    · exact (hrest.kept i hi).trans (h.entry (i, c) (by simp))
    · obtain ⟨r, hr, rfl⟩ := List.mem_map.mp hq
      exact (hrest.entry r hr).trans (r.2.shift_entry start m).symm
  · intro q hq
    rcases List.mem_cons.mp hq with rfl | hq
    · rw [hrest.mem_eq _ (fun q hq => hshift q ▸ hctrl q hq)]
      exact h.bits (i, c) (by simp)
    · obtain ⟨r, hr, rfl⟩ := List.mem_map.mp hq
      have hbits := hrest.bits r hr
      rw [← hshift r] at hbits
      exact hbits
  · intro j hj
    rw [List.map_cons, hfst, List.mem_cons, not_or] at hj
    rw [hrest.kept j hj.2, h.kept j (by simpa using hj.1)]
  · intro p hp
    have htail : ∀ q ∈ P, p ≠ q.2.ctrl (start + BitVec.ofNat 64 (4096 * m)) := by
      intro q hq
      rw [← hshift q]
      exact hp _ (List.mem_cons_of_mem _ (List.mem_map_of_mem hq))
    rw [hrest.mem_eq p htail, h.mem_eq p (by simpa using hp (i, c) (by simp))]
  · rw [hrest.pages, h.pages]
    simp [Function.comp_def, Chunk.shift, Nat.add_assoc]

theorem pmmSetupEntry_placed {s : Machine} {i : Fin 168} (hi : (s.pmm.entry i).active = false)
    {start : Physical} (ha : Aligned start) {size : Size} {n : Nat}
    (hsize : size.toNat = 4096 * n) (hmin : 0 < n) (hmax : n ≤ 32768) :
    ∃ s', pmmSetupEntry s i start size = .ok s' ∧ Placed start [(i, ⟨0, n⟩)] s s' ∧
      s'.pmm = ⟨Function.update s.pmm.entry i (Chunk.entry ⟨0, n⟩ start)⟩ := by
  have hs : pageSize.toNat = 4096 := by decide
  have hpages : ((size - pageSize) / pageSize).setWidth 16 = BitVec.ofNat 16 (n - 1) := by
    apply BitVec.eq_of_toNat_eq
    rw [BitVec.toNat_setWidth, BitVec.toNat_udiv, hs, BitVec.toNat_sub_of_le, hs,
      BitVec.toNat_ofNat]
    · congr 1
      omega
    · rw [BitVec.le_def, hs]
      omega
  have hlt : (BitVec.ofNat 16 (n - 1)).toNat = n - 1 := by
    rw [BitVec.toNat_ofNat]
    omega
  have hle : (BitVec.ofNat 16 (n - 1)).toNat ≤ 32767 := by omega
  obtain ⟨blk, hblk, hbits⟩ := pmmCtrlInitialise_spec s.mem ha hle
  have hctrl : Chunk.ctrl ⟨0, n⟩ start = start := by simp [Chunk.ctrl, Chunk.page]
  have hentry : Chunk.entry ⟨0, n⟩ start =
      ⟨start + pageSize, start, BitVec.ofNat 16 (n - 1), BitVec.ofNat 16 (n - 1), true⟩ := by
    simp [Chunk.entry, hctrl, Chunk.page, pageSize]
  refine ⟨⟨Function.update s.mem start blk, ⟨Function.update s.pmm.entry i
    (Chunk.entry ⟨0, n⟩ start)⟩, s.cr3⟩, ?_, ?_, rfl⟩
  · rw [pmmSetupEntry]
    simp only [hpages, hblk, hentry, bind, Except.bind, pure, Except.pure]
  · constructor
    · simp
    · simp [hctrl, hbits, hlt]
    · intro j hj
      simp only [List.map_cons, List.map_nil, List.mem_singleton] at hj
      exact Function.update_of_ne hj ..
    · intro p hp
      simp only [List.mem_singleton, forall_eq, hctrl] at hp
      exact Function.update_of_ne hp ..
    · rfl
    · have hone : 1 + (n - 1) = n := by omega
      simp [Pmm.pages_update hi, PmmCtrlPtr.pages, Chunk.entry, hlt, hone]

theorem mem_placements {pmm : Pmm} {n : Nat} {q : Fin 168 × Chunk} (h : q ∈ placements pmm n) :
    (pmm.entry q.1).active = false ∧ q.2 ∈ keptChunks n :=
  ⟨mem_inactiveEntries.mp (List.of_mem_zip h).1, (List.of_mem_zip h).2⟩

theorem placements_cons {pmm : Pmm} {i : Fin 168} {is : List (Fin 168)} {n : Nat}
    {p : PmmCtrlPtr} (h : inactiveEntries pmm = i :: is) (hn : 64 ≤ n) (hp : p.active = true) :
    placements pmm n = (i, ⟨0, min 32768 n⟩) ::
      (placements ⟨Function.update pmm.entry i p⟩ (n - 32768)).map
        (Prod.map id (Chunk.shift 32768)) := by
  rw [placements, h, keptChunks_cons hn, List.zip_cons_cons, List.zip_map_right, placements,
    inactiveEntries_update h hp]

theorem Placed.notMem {start : Physical} {i : Fin 168} {c : Chunk} {s t : Machine}
    (h : Placed start [(i, c)] s t) (n : Nat) : i ∉ (placements t.pmm n).map Prod.fst := by
  intro hi
  obtain ⟨q, hq, rfl⟩ := List.mem_map.mp hi
  have hinact := (mem_placements hq).1
  rw [h.entry _ (List.mem_singleton_self _)] at hinact
  contradiction

theorem placements_of_le {pmm : Pmm} {n : Nat} (h : n < 64 ∨ inactiveEntry pmm = none) :
    placements pmm n = [] := by
  cases h with
  | inl h => rw [placements, keptChunks_of_lt h, List.zip_nil_right]
  | inr h =>
    rw [inactiveEntry_eq, List.head?_eq_none_iff] at h
    rw [placements, h, List.zip_nil_left]

theorem placements_room {pmm : Pmm} {start bytes : Nat} {q : Fin 168 × Chunk}
    (hq : q ∈ placements pmm (bytes / 4096 - 32768)) (hwrap : start + bytes ≤ 2 ^ 64) :
    start + 4096 * (q.2.shift 32768).first < 2 ^ 64 := by
  obtain ⟨hmin, -, hle⟩ := mem_keptChunks (mem_placements hq).2
  simp only [Chunk.shift]
  omega

theorem pmmAdd_placed {s : Machine} {start : Physical} {size : Size} (ha : Aligned start)
    (hwrap : start.toNat + size.toNat ≤ 2 ^ 64) :
    ∃ s', pmmAdd s start size = .ok s' ∧
      Placed start (placements s.pmm (size.toNat / 4096)) s s' := by
  induction hbytes : size.toNat using Nat.strong_induction_on generalizing s start size with
  | _ bytes ih =>
    subst hbytes
    rcases @pmmAdd_cases s start size _ rfl ha hwrap with
      ⟨hnone, hend⟩ | ⟨i, first, hi, hn, hfirst, hrun⟩
    · rw [placements_of_le hnone]
      exact ⟨s, hend, Placed.nil start s⟩
    obtain ⟨is, his⟩ : ∃ is, inactiveEntries s.pmm = i :: is := by
      rw [inactiveEntry_eq] at hi
      exact List.head?_eq_some_iff.mp hi
    obtain ⟨t, ht, hplaced, htp⟩ :=
      pmmSetupEntry_placed (inactiveEntry_some hi) ha hfirst (by omega) (by omega)
    rw [placements_cons his hn (rfl : (Chunk.entry ⟨0, _⟩ start).active = true), ← htp]
    rcases hrun with ⟨hle, hrun⟩ | ⟨rest, hgt, hrest, halign, hnext, hrun⟩
    · have hover : size.toNat / 4096 - 32768 < 64 := by omega
      rw [placements_of_le (Or.inl hover)]
      exact ⟨t, hrun.trans ht, hplaced⟩
    · have hpages : rest.toNat / 4096 = size.toNat / 4096 - 32768 := by omega
      obtain ⟨u, hu, hmore⟩ := @ih rest.toNat (by omega) t _ rest halign (by omega) rfl
      have hfull : first = BitVec.ofNat 64 (4096 * 32768) := by
        apply BitVec.eq_of_toNat_eq
        rw [hfirst, BitVec.toNat_ofNat]
        omega
      rw [ht] at hrun
      rw [hpages, hfull] at hmore
      exact ⟨u, hrun.trans hu, hplaced.cons hmore (hplaced.notMem _)
        (fun q hq => Chunk.ctrl_ne (by simp [Chunk.shift]) (placements_room hq hwrap))⟩

theorem Chunk.entry_pageAt (c : Chunk) (start : Physical) (k : Nat) :
    (c.entry start).pageAt k = c.page start (k + 1) := by
  have hsum : 4096 * (c.first + (k + 1)) = 4096 * (c.first + 1) + 4096 * k := by omega
  simp only [PmmCtrlPtr.pageAt, Chunk.entry, Chunk.page, hsum, BitVec.ofNat_add, BitVec.add_assoc]

theorem Placed.mem_freePages_iff {start : Physical} {P : List (Fin 168 × Chunk)} {s s' : Machine}
    (h : Placed start P s s') (hinact : ∀ q ∈ P, (s.pmm.entry q.1).active = false)
    (hmem : ∀ i, (s.pmm.entry i).active = true →
      s'.mem (s.pmm.entry i).ctrl = s.mem (s.pmm.entry i).ctrl) (p : Physical) :
    p ∈ freePages s' ↔ p ∈ freePages s ∨
      ∃ q ∈ P, ∃ k, 0 < k ∧ k < q.2.pages ∧ q.2.page start k = p := by
  have hnot : ∀ i, (s.pmm.entry i).active = true → i ∉ P.map Prod.fst := by
    intro i hi hin
    obtain ⟨q, hq, rfl⟩ := List.mem_map.mp hin
    simp [hinact q hq] at hi
  rw [mem_freePages, mem_freePages]
  constructor
  · rintro ⟨i, hi, k, hk, rfl⟩
    by_cases hin : i ∈ P.map Prod.fst
    · obtain ⟨q, hq, rfl⟩ := List.mem_map.mp hin
      rw [h.entry q hq] at hk ⊢
      have hlt := Finset.mem_range.mp (h.bits q hq ▸ hk)
      exact Or.inr ⟨q, hq, k + 1, by omega, by omega, (q.2.entry_pageAt start k).symm⟩
    · rw [h.kept i hin] at hi hk ⊢
      rw [hmem i hi] at hk
      exact Or.inl ⟨i, hi, k, hk, rfl⟩
  · rintro (⟨i, hi, k, hk, rfl⟩ | ⟨q, hq, k, hpos, hlt, rfl⟩)
    · refine ⟨i, ?_⟩
      rw [h.kept i (hnot i hi), hmem i hi]
      exact ⟨hi, k, hk, rfl⟩
    · refine ⟨q.1, ?_⟩
      have hk : k - 1 ∈ Bitset.members (s'.mem (q.2.ctrl start)) := by
        rw [h.bits q hq, Finset.mem_range]
        omega
      have hpage := q.2.entry_pageAt start (k - 1)
      rw [Nat.sub_add_cancel hpos] at hpage
      rw [h.entry q hq]
      exact ⟨rfl, k - 1, hk, hpage⟩

/-- `pmm_add` puts the chunks of the range in the inactive entries in order. In each the first
page becomes the control block and the other pages become free; the blocks held before stay as
they were, and the total grows by the pages of the placed chunks. -/
theorem pmm_add_places_chunks {s : Machine} {start : Physical} {size : Size} (ha : Aligned start)
    (hwrap : start.toNat + size.toNat ≤ 2 ^ 64)
    (hout : Outside s start.toNat (start.toNat + size.toNat)) :
    ∃ s', pmmAdd s start size = .ok s' ∧
      (∀ q ∈ placements s.pmm (size.toNat / 4096), s'.pmm.entry q.1 = q.2.entry start ∧
        Bitset.members (s'.mem (q.2.ctrl start)) = Finset.range (q.2.pages - 1)) ∧
      (∀ i ∉ (placements s.pmm (size.toNat / 4096)).map Prod.fst,
        s'.pmm.entry i = s.pmm.entry i) ∧
      (∀ i, (s.pmm.entry i).active = true → s'.pmm.entry i = s.pmm.entry i ∧
        s'.mem (s.pmm.entry i).ctrl = s.mem (s.pmm.entry i).ctrl) ∧
      (∀ p, p ∈ freePages s' ↔ p ∈ freePages s ∨
        ∃ q ∈ placements s.pmm (size.toNat / 4096), ∃ k, 0 < k ∧ k < q.2.pages ∧
          q.2.page start k = p) ∧
      (pmmCountPages s'.pmm).total.toNat = (pmmCountPages s.pmm).total.toNat +
        ((placements s.pmm (size.toNat / 4096)).map fun q => q.2.pages).sum := by
  obtain ⟨s', hs', hplaced⟩ := @pmmAdd_placed s start size ha hwrap
  have hinact : ∀ q ∈ placements s.pmm (size.toNat / 4096), (s.pmm.entry q.1).active = false :=
    fun q hq => (mem_placements hq).1
  have hmem : ∀ i, (s.pmm.entry i).active = true →
      s'.mem (s.pmm.entry i).ctrl = s.mem (s.pmm.entry i).ctrl := by
    intro i hi
    apply hplaced.mem_eq
    intro q hq he
    obtain ⟨hmin, -, hle⟩ := mem_keptChunks (mem_placements hq).2
    have hctrl := @Chunk.toNat_ctrl q.2 start (by omega)
    have ho := hout i hi
    rw [PmmCtrlPtr.blockEnd, he, hctrl] at ho
    omega
  refine ⟨s', hs', fun q hq => ⟨hplaced.entry q hq, hplaced.bits q hq⟩, hplaced.kept, ?_,
    hplaced.mem_freePages_iff hinact hmem, ?_⟩
  · intro i hi
    refine ⟨hplaced.kept i ?_, hmem i hi⟩
    intro hin
    obtain ⟨q, hq, rfl⟩ := List.mem_map.mp hin
    simp [hinact q hq] at hi
  · rw [pmmCountPages_total, pmmCountPages_total, hplaced.pages, Nat.add_assoc]

theorem pmm_add_places_chunks_example : ∃ s', pmmAdd bareMachine 0x100000#64 0x8060000#64 = .ok s' ∧
    s'.pmm.entry 1 = ⟨0x8101000#64, 0x8100000#64, 95#16, 95#16, true⟩ ∧
    (pmmCountPages s'.pmm).total.toNat = 32865 := by
  have hP : placements bareMachine.pmm ((0x8060000#64 : Size).toNat / 4096) =
      [(0, ⟨0, 32768⟩), (1, ⟨32768, 96⟩)] := by decide +kernel
  have hout : ∀ lo hi, Outside bareMachine lo hi := by
    intro lo hi i hact
    simp [bareMachine, emptyEntry] at hact
  obtain ⟨s', hs', hentry, -, -, -, htotal⟩ :=
    pmm_add_places_chunks (by decide : Aligned 0x100000#64)
      (by decide : (0x100000#64 : Physical).toNat + (0x8060000#64 : Size).toNat ≤ 2 ^ 64) (hout _ _)
  have hbare : (pmmCountPages bareMachine.pmm).total = 1#64 := by decide +kernel
  have hchunk : Chunk.entry ⟨32768, 96⟩ 0x100000#64 =
      ⟨0x8101000#64, 0x8100000#64, 95#16, 95#16, true⟩ := by decide
  rw [hP] at hentry
  rw [hP, hbare] at htotal
  refine ⟨s', hs', ?_, by simpa using htotal⟩
  rw [← hchunk]
  exact (hentry _ (List.mem_cons_of_mem _ (List.mem_singleton_self _))).1

end Ukulele
