import Ukulele.MmuTableCount

/-! When `mmu_assign` runs out of tables: exactly if the new map needs more of them than there
are free pages.
-/

set_option autoImplicit false

namespace Outcome

variable {ε α : Type} {bad bad' : ε → Prop} {post post' : α → Prop} {r : Except ε α}

theorem and (h : Outcome bad post r) (h' : Outcome bad' post' r) :
    Outcome (fun e => bad e ∧ bad' e) (fun a => post a ∧ post' a) r := by
  cases r with
  | ok a => exact ⟨h, h'⟩
  | error e => exact ⟨h, h'⟩

end Outcome

namespace Ukulele
open RadixTree

theorem TreeStep.card {s s' : Machine} {t : Physical} {n : Nat} {T T' : PageTree n}
    (h : TreeStep s s' t T T') (ht : TreeOk s t T) :
    (freePages s').card + (tables T').card = (freePages s).card + (tables T).card := by
  have hd : Disjoint (freePages s) (tables T) := by
    rw [Finset.disjoint_right]
    exact fun p hp => ht.not_free p (Finset.mem_insert_of_mem hp)
  have hd' : Disjoint (freePages s') (tables T') := by
    rw [Finset.disjoint_right]
    exact fun p hp => h.tree.not_free p (Finset.mem_insert_of_mem hp)
  rw [← Finset.card_union_of_disjoint hd, ← Finset.card_union_of_disjoint hd', h.pool]

variable {loc : NodeCommandLoc} {n B a b : Nat} {s : Machine}

def entryLack (x : Slot (BitVec 64) (PageTree n)) (a b : Nat) (i : Fin 512) : Nat :=
  slotLack entryCoding 0#64 n x (lower a (span 512 n) i) (upper b (span 512 n) i)

theorem allocate_empty (hp : PmmOk s) :
    Outcome (fun _ => freePages s = ∅) (fun _ => True) (allocate s) := by
  unfold allocate
  rcases pmmAllocatePage_spec hp with ⟨hempty, he⟩ | ⟨p, u, he, ha⟩
  · rw [he]
    exact hempty
  · rw [he]
    have hz : p ≠ 0#64 := hp.managed_ne_zero (hp.free_subset_managed ha.was_free)
    simp only [bind, Except.bind, hz, ne_eq, not_false_eq_true, decide_true, assert_true]
    trivial

theorem reserveEntry_empty {t : Physical} {T : PageTree (n + 1)} (h : TreeOk s t T) (hp : PmmOk s)
    (loc : NodeCommandLoc) (i : Fin 512) :
    Outcome (fun _ => freePages s = ∅ ∧ ∃ v, T i = .absent v) (fun _ => True)
      (reserveEntry loc ⟨t, i⟩ s) := by
  unfold reserveEntry
  cases hi : T i with
  | absent v =>
    obtain ⟨hentry, hpresent⟩ := h.absent_entry hi
    have hload : s.load ⟨t, i⟩ &&& mmuRegPresent = 0#64 := by
      rw [Machine.load, hentry]
      exact not_present_iff.mp hpresent
    rw [if_pos hload]
    apply ((allocate_empty hp).mono (fun e he => ⟨he, v, rfl⟩) (fun r hr => hr)).bind
    intro r _
    trivial
  | table w c =>
    obtain ⟨hentry, hpresent, -⟩ := h.entry hi
    have hload : ¬ s.load ⟨t, i⟩ &&& mmuRegPresent = 0#64 := by
      rw [Machine.load, hentry]
      exact present_iff.mp hpresent
    rw [if_neg hload]
    trivial

/-- Below a table of height `n` the pass fails only if there are fewer free pages than tables that
the range lacks. -/
def FailsShort (n fuel : Nat) : Prop :=
  ∀ {loc : NodeCommandLoc} {B a b : Nat} {s : Machine} {T : PageTree n}, LocAt loc n B a b →
    TreeOk s loc.page.page T → PmmOk s → PmmLow s → NoEmpty entryCoding n T →
    Outcome (fun _ => (freePages s).card < lack entryCoding n T a b) (fun _ => True)
      (reserveBelow fuel loc s)

theorem reserve_visit_short {fuel : Nat} (hbelow : FailsShort n fuel)
    (hloc : LocAt loc (n + 1) B a b) {i : Fin 512} (hm : Meets a b (span 512 n) i)
    {T : PageTree (n + 1)} (htree : TreeOk s loc.page.page T) (hp : PmmOk s) (hlow : PmmLow s)
    (hn : ∀ w c, T i = .table w c → NoEmpty entryCoding n c) :
    Outcome (fun _ => (freePages s).card < entryLack (T i) a b i) (fun _ => True)
      (nodeCallbackReserve fuel (loc.child i.val (s.load ⟨loc.page.page, i⟩))
        ⟨loc.page.page, i⟩ s) := by
  rw [nodeCallbackReserve_eq]
  have hentry := (reserveEntry_spec htree hp hlow
    (loc.child i.val (s.load ⟨loc.page.page, i⟩)) i).and (reserveEntry_empty htree hp _ i)
  apply (hentry.mono ?_ (fun r hr => hr)).bind
  · intro r hr
    obtain ⟨loc', s₁⟩ := r
    obtain ⟨⟨w, c, hloc', hstep, hslot⟩, -⟩ := hr
    simp only at hloc' hstep ⊢
    have hchild := (hloc.child hm (s.load ⟨loc.page.page, i⟩)).withPage (entryCoding.addr w)
    rw [← hloc'] at hchild
    have hpage : loc'.page.page = entryCoding.addr w := by rw [hloc']
    have hself : (T.set i (.table w c)) i = .table w c := Tree.set_self ..
    have htree₁ := hstep.tree.child hself
    rw [← hpage] at htree₁
    have hno : NoEmpty entryCoding n c := by
      rcases hslot with hT | ⟨-, -, rfl⟩
      · exact hn w c hT
      · exact noEmpty_blank entryCoding
    have hcard := hstep.card htree
    have hset : (tables (T.set i (.table w c))).card + (slotTables (T i)).card =
        (tables T).card + (slotTables (.table w c : Slot (BitVec 64) (PageTree n))).card :=
      card_pages_set entryCoding htree.separated hstep.tree.separated
    apply (hbelow hchild htree₁ hstep.pmm (hlow.congr hstep.managed_eq) hno).mono ?_
      (fun _ _ => trivial)
    intro e he
    unfold entryLack
    rcases hslot with hT | ⟨⟨v, hT⟩, -, rfl⟩
    · rw [hT] at hset
      rw [hT, slotLack]
      omega
    · have hone : (slotTables (.table w (blank 0#64 n) : Slot (BitVec 64) (PageTree n))).card =
          1 := by
        rw [slotTables_table, tables, pages_blank entryCoding not_present_zero]
        simp
      rw [hT, slotTables_absent, hone, Finset.card_empty] at hset
      rw [hT, slotLack]
      omega
  · intro e he
    obtain ⟨-, hempty, v, hT⟩ := he
    rw [hempty, hT]
    simp [entryLack, slotLack]

theorem lack_upTo {T T₁ : PageTree (n + 1)} (hs : Separated entryCoding (n + 1) T)
    (hs₁ : Separated entryCoding (n + 1) T₁) (hn : NoEmpty entryCoding (n + 1) T) (hab : a < b)
    (hb : b ≤ span 512 (n + 1)) {i : Fin 512} (hm : Meets a b (span 512 n) i)
    (hslots : SlotsUpTo a b (fun j x => ReservedSlot a b j (T j) x) T T₁ i) :
    (tables T₁).card + entryLack (T i) a b i ≤
      (tables T).card + lack entryCoding (n + 1) T a b := by
  have hcounts : ReservesLack (F := 512) entryCoding 0#64 TableEntry n :=
    reservesLack entryCoding (by decide) not_present_zero n
  have hslot : ∀ j, (slotTables (T₁ j)).card + (if j = i then entryLack (T i) a b i else 0) ≤
      (slotTables (T j)).card + if Meets a b (span 512 n) j then entryLack (T j) a b j else 0 := by
    intro j
    obtain ⟨hmet, hother⟩ := hslots j
    by_cases hj : j.val < i.val ∧ Meets a b (span 512 n) j
    · have hne : j ≠ i := fun he => Nat.lt_irrefl i.val (he ▸ hj.1)
      obtain ⟨w, t, t', hT', hres, hT⟩ := hmet hj
      have hcount := hcounts.slot entryCoding not_present_zero hs hs₁
        (fun w t ht => (hn j w t ht).2) hab hj.2 hT' hres hT (by decide)
      rw [if_neg hne, if_pos hj.2, Nat.add_zero]
      exact Nat.le_of_eq hcount
    · rw [hother hj]
      by_cases he : j = i
      · subst he
        rw [if_pos rfl, if_pos hm]
      · rw [if_neg he]
        omega
  have htotal := Finset.sum_le_sum (fun j (_ : j ∈ Finset.univ) => hslot j)
  rw [Finset.sum_add_distrib, Finset.sum_add_distrib, Finset.sum_ite_eq' Finset.univ i,
    if_pos (Finset.mem_univ i)] at htotal
  have hT := card_pages_succ entryCoding hs
  have hT₁ := card_pages_succ entryCoding hs₁
  have hlack := lack_succ entryCoding (by decide : 0 < 512) not_present_zero hn hab hb
  rw [tables, tables, hT, hT₁, hlack]
  exact htotal

theorem reserveBelow_short (n : Nat) : ∀ {fuel : Nat}, n ≤ fuel → FailsShort n fuel := by
  induction n with
  | zero =>
    intro fuel _ loc B a b s T hloc htree hp _ _
    have hdepth := hloc.depth
    unfold reserveBelow
    rw [if_neg (by unfold pageMapDepthBottom; omega)]
    trivial
  | succ n ih =>
    intro fuel hfuel loc B a b s T hloc htree hp hlow hn
    cases fuel with
    | zero => omega
    | succ fuel =>
      have hdepth := hloc.depth
      have hfuel' := Nat.le_of_succ_le_succ hfuel
      unfold reserveBelow
      rw [if_pos (by unfold pageMapDepthBottom; omega)]
      have hrun : Outcome (fun _ => (freePages s).card < lack entryCoding (n + 1) T a b) _
          (applyNodes loc _ s) :=
        hloc.slotsUpTo htree hp (fun i x => ReservedSlot a b i (T i) x)
          (by
            intro i hm s₁ T₁ hstep hslots hold
            have hlow₁ := hlow.congr hstep.managed_eq
            have hvisit := reserve_visit (reserveBelow_spec n hfuel') hloc hm hstep.tree hstep.pmm
              hlow₁
            have hshort := reserve_visit_short (ih hfuel') hloc hm hstep.tree hstep.pmm hlow₁
              (fun w c hc => (hn i w c (hold ▸ hc)).2)
            rw [hold] at hvisit hshort
            apply (hvisit.and hshort).mono ?_ (fun r hr => hr.1)
            intro e he
            have hcard := hstep.card htree
            have hup := lack_upTo htree.separated hstep.tree.separated hn hloc.lt hloc.le hm hslots
            have hfree := he.2
            omega)
      exact hrun.mono (fun e he => he) (fun _ _ => trivial)

section Calls

variable {s' : Machine} {top : MmuPageMapPart} {t : Physical} {T : PageTree 3} {m : FrameMap}
  {address : Uintptr} {size : Size} {flags : BitVec 32} {page : Physical}

theorem mmuAssign_short (h : TopOk s top t T) (hlow : PmmLow s) (hn : NoEmpty entryCoding 3 T)
    (hc : EntryChecks s ⟨top, address, address + size⟩) (hend : address + size ≤ lastEntryStart)
    (flags : BitVec 32) (page : Physical) :
    Outcome (fun _ => (freePages s).card <
        lack entryCoding 3 T (pageKey address) (pageKey (address + size))) (fun _ => True)
      (mmuAssign s top flags address size page) := by
  have hloc := hc.locAt t (below_lastEntry hend)
  have henter := hc.enters h.resolved
  have hfuel : 3 ≤ walkFuel := by decide
  have hfuel' : 3 ≤ walkFuel + 1 := by decide
  have habove : 0 < pageMapDepthBottom := by decide
  have hreserve := (reserveBelow_spec 3 hfuel' hloc h.tree h.pmm hlow).and
    (reserveBelow_short 3 hfuel' hloc h.tree h.pmm hlow hn)
  have hbelow : reserveBelow (walkFuel + 1) ⟨⟨t, 0⟩, address, address + size⟩ s =
      applyNodesEntry ⟨top, address, address + size⟩ (nodeCallbackReserve walkFuel) s := by
    rw [henter _ s rfl, reserveBelow, if_pos habove]
  rw [hbelow] at hreserve
  unfold mmuAssign
  apply (hreserve.mono (fun e he => he.2) (fun r hr => hr.1)).bind
  intro s₁ hs₁
  obtain ⟨T₁, hstep, hres⟩ := hs₁
  have hcov : ∀ k, pageKey address ≤ k → k < pageKey (address + size) → Covered 3 T₁ k :=
    fun k ha hb => hres.covered (by decide) ha hb (Nat.lt_of_lt_of_le hb hloc.le)
  have hleaf := leaf_spec (assign_storesAt flags address page) 3 hfuel hloc hstep.tree hstep.pmm
    hcov
  obtain ⟨s₂, hrun, -⟩ := hleaf.returns
  apply Outcome.of_eq (a := s₂) ?_ trivial
  rw [henter _ s₁ hstep.cr3_eq]
  exact hrun

theorem blocks_assign (h : TopOk s top t T) (hf : Follows s top m)
    (hc : EntryChecks s ⟨top, address, address + size⟩) (l : Nat) :
    mappedBlocks (m.call (.assign flags address size page)) (span 512 l) =
      (blocks 512 l (Finset.Ico (pageKey address) (pageKey (address + size))) ∪
        blocks 512 l (keys entryCoding 3 T) : Finset Nat) := by
  have hmapped : ∀ v, mmuIsCanonicalAddress v = true →
      (m.call (.assign flags address size page) (pageOf v) ≠ none ↔
        InRange address size v ∨ m (pageOf v) ≠ none) := by
    intro v hv
    rw [hc.pageOf_iff hv, FrameMap.call]
    by_cases hin : address ≤ pageOf v ∧ pageOf v < address + size
    · simp [hin]
    · simp [hin]
  have hkeys : ((blocks 512 l (keys entryCoding 3 T) : Finset Nat) : Set Nat) =
      mappedBlocks m (span 512 l) := hf.blocks_eq h _
  rw [Finset.coe_union, hkeys]
  ext b
  simp only [mappedBlocks, Set.mem_ofPred_eq, Set.mem_union, blocks, Finset.mem_coe,
    Finset.mem_image, Finset.mem_Ico]
  constructor
  · rintro ⟨v, hv, hm, rfl⟩
    rcases (hmapped v hv).mp hm with hin | hold
    · exact Or.inl ⟨pageKey v, (hc.key_iff hv).mp hin, rfl⟩
    · exact Or.inr ⟨v, hv, hold, rfl⟩
  · rintro (⟨k, ⟨hlo, hhi⟩, rfl⟩ | ⟨v, hv, hm, rfl⟩)
    · obtain ⟨v, hin, rfl⟩ := hc.exists_address hlo hhi
      exact ⟨v, hin.1, (hmapped v hin.1).mpr (Or.inl hin), rfl⟩
    · exact ⟨v, hv, (hmapped v hv).mpr (Or.inr hm), rfl⟩

theorem tableCount_assign (h : TablesOk s top t T) (hf : Follows s top m)
    (hc : EntryChecks s ⟨top, address, address + size⟩) :
    tableCount (m.call (.assign flags address size page)) = tableCount m +
      lack entryCoding 3 T (pageKey address) (pageKey (address + size)) := by
  have hcount : ∀ l,
      (mappedBlocks (m.call (.assign flags address size page)) (span 512 l)).ncard =
      (blocks 512 l (Finset.Ico (pageKey address) (pageKey (address + size))) \
        blocks 512 l (keys entryCoding 3 T)).card + (mappedBlocks m (span 512 l)).ncard := by
    intro l
    have hkeys : ((blocks 512 l (keys entryCoding 3 T) : Finset Nat) : Set Nat) =
        mappedBlocks m (span 512 l) := hf.blocks_eq h.topOk _
    rw [blocks_assign h.topOk hf hc, Set.ncard_coe_finset, ← hkeys, Set.ncard_coe_finset,
      Finset.card_sdiff_add_card]
  have h0 := hcount 0
  have h1 := hcount 1
  have h2 := hcount 2
  have hspan0 : span 512 0 = 512 := rfl
  have hspan1 : span 512 1 = 512 ^ 2 := rfl
  have hspan2 : span 512 2 = 512 ^ 3 := rfl
  rw [hspan0] at h0
  rw [hspan1] at h1
  rw [hspan2] at h2
  rw [tableCount, tableCount, lack, Finset.sum_range_succ, Finset.sum_range_succ,
    Finset.sum_range_succ, Finset.sum_range_zero, h0, h1, h2]
  omega

theorem TablesOk.assign_free (hT : TablesOk s top t T) (hf : Follows s top m)
    (ha : Admitted s top m (.assign flags address size page))
    (hrun : mmuAssign s top flags address size page = .ok s') :
    (freePages s').card + tableCount (m.call (.assign flags address size page)) =
      (freePages s).card + tableCount m := by
  obtain ⟨T', hT', hstep, hf'⟩ := (hT.assign hf ha).of_ok hrun
  have hcard := hstep.card hT.topOk.tree
  rw [hT.card_tables hf, hT'.card_tables hf'] at hcard
  exact hcard

theorem TablesOk.assign_returns (hT : TablesOk s top t T) (hf : Follows s top m)
    (ha : Admitted s top m (.assign flags address size page))
    (hle : tableCount (m.call (.assign flags address size page)) ≤
      tableCount m + (freePages s).card) :
    ∃ s', mmuAssign s top flags address size page = .ok s' := by
  have hcheck := ha.1
  simp only [MmuCall.range] at hcheck
  have hshort := mmuAssign_short hT.topOk hT.low hT.noEmpty hcheck ha.2.1 flags page
  have hneed : tableCount (m.call (.assign flags address size page)) = _ :=
    tableCount_assign hT hf hcheck
  cases hrun : mmuAssign s top flags address size page with
  | ok s' => exact ⟨s', rfl⟩
  | error e =>
    rw [hrun] at hshort
    have hless : (freePages s).card <
      lack entryCoding 3 T (pageKey address) (pageKey (address + size)) := hshort
    omega

/-- After every run a call of `mmu_assign` succeeds exactly if the free pages cover the tables
that the new map needs and the old one does not. -/
theorem mmu_assign_needs_pages {s₀ : Machine} {m₀ : FrameMap} {T₀ : PageTree 3}
    (h : MmuRun top s₀ m₀ s m) (h₀ : TablesOk s₀ top t T₀) (hf₀ : Follows s₀ top m₀)
    (ha : Admitted s top m (.assign flags address size page)) :
    (∃ s', mmuAssign s top flags address size page = .ok s') ↔
      tableCount (m.call (.assign flags address size page)) ≤
        tableCount m + (freePages s).card := by
  obtain ⟨T, hT, hf, -⟩ := h.invariant h₀ hf₀
  constructor
  · intro hok
    obtain ⟨s', hs'⟩ := hok
    have hfree := hT.assign_free hf ha hs'
    omega
  · exact hT.assign_returns hf ha

/-- The call that maps the first page returns, since there are three free pages. -/
theorem mmu_assign_needs_pages_example : ∃ s₀, Follows s₀ exampleTop (fun _ => none) ∧
    3 ≤ (freePages s₀).card ∧
    ∃ s', mmuAssign s₀ exampleTop memoryWrite 0x200000#64 0x1000#64 0x7000#64 = .ok s' := by
  obtain ⟨s₀, s, h₀, hf₀, ha, hrun⟩ := exampleCall_start
  have hneeds := mmu_assign_needs_pages MmuRun.start h₀ hf₀ ha
  have htables := exampleCall_tables
  unfold exampleCall at htables
  rw [htables, tableCount_none, Nat.zero_add] at hneeds
  exact ⟨s₀, hf₀, hneeds.mp ⟨s, hrun⟩, s, hrun⟩

end Calls

end Ukulele
