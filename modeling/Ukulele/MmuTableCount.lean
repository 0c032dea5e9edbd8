import Ukulele.MmuRuns
import Ukulele.RadixCount

/-! How many pages the page tables take: the map alone decides it.
-/

set_option autoImplicit false

namespace Ukulele
open RadixTree

/-- The blocks of so many pages that hold a mapped page. -/
def mappedBlocks (m : FrameMap) (pages : Nat) : Set Nat :=
  { b | ∃ v, mmuIsCanonicalAddress v = true ∧ m (pageOf v) ≠ none ∧ pageKey v / pages = b }

/-- A table for every 2 MiB, every 1 GiB and every 512 GiB with a mapped page. -/
noncomputable def tableCount (m : FrameMap) : Nat :=
  (mappedBlocks m 512).ncard + (mappedBlocks m (512 ^ 2)).ncard + (mappedBlocks m (512 ^ 3)).ncard

variable {s s' : Machine} {top : MmuPageMapPart} {t : Physical} {T T' : PageTree 3} {m : FrameMap}

theorem exists_canonical {k : Nat} (hk : k < span 512 3) :
    ∃ v, mmuIsCanonicalAddress v = true ∧ pageKey v = k := by
  rw [span_three] at hk
  by_cases hlow : k < 2 ^ 35
  · have hn : (BitVec.ofNat 64 (4096 * k)).toNat = 4096 * k := by
      rw [BitVec.toNat_ofNat]
      omega
    refine ⟨BitVec.ofNat 64 (4096 * k), ?_, ?_⟩
    · rw [canonical_iff, hn]
      omega
    · rw [pageKey, span_three, hn]
      omega
  · have hn : (BitVec.ofNat 64 (2 ^ 64 - 2 ^ 48 + 4096 * k)).toNat = 2 ^ 64 - 2 ^ 48 + 4096 * k := by
      rw [BitVec.toNat_ofNat]
      omega
    refine ⟨BitVec.ofNat 64 (2 ^ 64 - 2 ^ 48 + 4096 * k), ?_, ?_⟩
    · rw [canonical_iff, hn]
      omega
    · rw [pageKey, span_three, hn]
      omega

theorem Follows.isSome_iff (hf : Follows s top m) (h : TopOk s top t T) {v : Uintptr}
    (hv : mmuIsCanonicalAddress v = true) :
    (get entryCoding 3 T (pageKey v)).isSome = true ↔ m (pageOf v) ≠ none := by
  have htr := h.translate_eq v
  rw [hf v hv, Except.ok.injEq] at htr
  cases hget : get entryCoding 3 T (pageKey v) with
  | some w =>
    cases hm : m (pageOf v) with
    | some p => simp
    | none => simp [hget, hm, frameResult, lookupResult, pageMapDepthMemory, pageMapDepthInvalid] at htr
  | none =>
    cases hm : m (pageOf v) with
    | some p => simp [hget, hm, frameResult, lookupResult, pageMapDepthMemory, pageMapDepthInvalid] at htr
    | none => simp

theorem Follows.blocks_eq (hf : Follows s top m) (h : TopOk s top t T) (pages : Nat) :
    (((keys entryCoding 3 T).image (· / pages) : Finset Nat) : Set Nat) = mappedBlocks m pages := by
  ext b
  simp only [Finset.coe_image, Set.mem_image, Finset.mem_coe, mem_keys, mappedBlocks,
    Set.mem_ofPred_eq]
  constructor
  · rintro ⟨k, ⟨hk, hget⟩, rfl⟩
    obtain ⟨v, hv, rfl⟩ := exists_canonical hk
    exact ⟨v, hv, (hf.isSome_iff h hv).mp hget, rfl⟩
  · rintro ⟨v, hv, hm, rfl⟩
    exact ⟨pageKey v, ⟨pageKey_lt v, (hf.isSome_iff h hv).mpr hm⟩, rfl⟩

theorem TablesOk.card_tables (h : TablesOk s top t T) (hf : Follows s top m) :
    (tables T).card = tableCount m := by
  have hblocks : ∀ l, (blocks 512 l (keys entryCoding 3 T)).card =
      (mappedBlocks m (span 512 l)).ncard := by
    intro l
    rw [← hf.blocks_eq h.topOk, Set.ncard_coe_finset, blocks]
  rw [card_pages entryCoding (by decide) h.topOk.tree.separated h.noEmpty, tableCount]
  simp only [Finset.sum_range_succ, Finset.sum_range_zero, hblocks, Nat.zero_add]
  rfl

/-- After every run, the page tables take a page for each block of 2 MiB, 1 GiB and 512 GiB that
holds a mapped page, and no other: the map that is left decides how many pages are in use. -/
theorem mmu_pages_follow_map {s₀ : Machine} {m₀ : FrameMap} {T₀ : PageTree 3}
    (h : MmuRun top s₀ m₀ s m) (h₀ : TablesOk s₀ top t T₀) (hf₀ : Follows s₀ top m₀) :
    (usedPages s).card + tableCount m₀ = (usedPages s₀).card + tableCount m := by
  obtain ⟨T, hT, hf, hused⟩ := h.invariant h₀ hf₀
  rw [← h₀.card_tables hf₀, ← hT.card_tables hf]
  exact hT.card_eq h₀ hused

theorem mappedBlocks_none (pages : Nat) : mappedBlocks (fun _ => none) pages = ∅ := by
  simp [mappedBlocks]

theorem mappedBlocks_page {u : Uintptr} (hu : mmuIsCanonicalAddress u = true)
    (hpage : pageOf u = u) (hm : ∀ v, m (pageOf v) ≠ none ↔ pageOf v = u) (pages : Nat) :
    mappedBlocks m pages = {pageKey u / pages} := by
  have hkey : ∀ v, pageOf v = u → pageKey v = pageKey u := by
    intro v hv
    have hn := toNat_pageOf v
    rw [hv] at hn
    unfold pageKey
    rw [hn, Nat.mul_div_cancel _ (by decide)]
  ext b
  simp only [mappedBlocks, Set.mem_ofPred_eq, Set.mem_singleton_iff, hm]
  constructor
  · rintro ⟨v, -, hv, rfl⟩
    rw [hkey v hv]
  · rintro rfl
    exact ⟨u, hu, hpage, rfl⟩

theorem tableCount_none : tableCount (fun _ => none) = 0 := by
  simp [tableCount, mappedBlocks_none]

theorem tableCount_page {u : Uintptr} (hu : mmuIsCanonicalAddress u = true)
    (hpage : pageOf u = u) (hm : ∀ v, m (pageOf v) ≠ none ↔ pageOf v = u) :
    tableCount m = 3 := by
  simp [tableCount, mappedBlocks_page hu hpage hm]

def exampleCall : MmuCall := .assign memoryWrite 0x200000#64 0x1000#64 0x7000#64

theorem exampleCall_tables : tableCount (FrameMap.call (fun _ => none) exampleCall) = 3 := by
  apply tableCount_page (by decide : mmuIsCanonicalAddress 0x200000#64 = true) (by decide)
  intro v
  have hn := toNat_pageOf v
  rw [← BitVec.toNat_inj]
  simp only [exampleCall, FrameMap.call, BitVec.le_def, BitVec.lt_def, ne_eq, ite_eq_right_iff,
    reduceCtorEq, imp_false, not_not, BitVec.toNat_add, BitVec.toNat_ofNat]
  omega

theorem exampleCall_start : ∃ s₀ s, TablesOk s₀ exampleTop 0x5000#64 (blank 0#64 3) ∧
    Follows s₀ exampleTop (fun _ => none) ∧ Admitted s₀ exampleTop (fun _ => none) exampleCall ∧
    mmuCall s₀ exampleTop exampleCall = .ok s := by
  obtain ⟨s₀, s, _, _, htop, hok, hrun, _⟩ := exampleTop_mapped
  have hnone : tables (blank 0#64 3 : PageTree 3) = ∅ := pages_blank entryCoding not_present_zero
  have hf₀ : Follows s₀ exampleTop (fun _ => none) := by
    intro v _
    rw [htop.translate_eq, get_empty entryCoding (empty_blank entryCoding not_present_zero)]
    rfl
  refine ⟨s₀, s, ⟨htop, hok.low (by decide), noEmpty_blank entryCoding, ?_⟩, hf₀, ?_, hrun⟩
  · rw [hnone]
    exact Finset.empty_subset _
  · exact ⟨exampleTop_checks htop, by decide, by decide, by decide⟩

/-- The first page below an empty top table takes three tables. -/
theorem mmu_pages_follow_map_example : ∃ s₀ s m,
    MmuRun exampleTop s₀ (fun _ => none) s m ∧ m 0x200000#64 = some 0x7000#64 ∧
    (usedPages s).card = (usedPages s₀).card + 3 := by
  obtain ⟨s₀, s, h₀, hf₀, ha, hrun⟩ := exampleCall_start
  have hr := MmuRun.start.call ha hrun
  have hcount := mmu_pages_follow_map hr h₀ hf₀
  rw [tableCount_none, exampleCall_tables] at hcount
  exact ⟨s₀, s, _, hr, by decide, hcount⟩

end Ukulele
