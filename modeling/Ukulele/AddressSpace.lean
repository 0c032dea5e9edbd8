import Ukulele.MmuRemove
import Ukulele.MmuExhaustion
import Ukulele.Meminfo

/-! What the page tables and the allocator are for: pages at virtual addresses. The clients of the
physical allocator map their pages, in any order and as often as they like, and write to them.
-/

set_option autoImplicit false

namespace Ukulele
open RadixTree

/-- The pages that clients hold, with what was stored in them. -/
abbrev Held := Physical → Option RawPage

/-- Calls of the physical allocator by clients, calls that map and unmap, and stores of clients to
pages that they hold, in any order. A page is given back by its holder, whether it is mapped or
not. -/
inductive SpaceRun (top : MmuPageMapPart) (s₀ : Machine) (m₀ : FrameMap) :
    Machine → FrameMap → Held → Prop where
  | start : SpaceRun top s₀ m₀ s₀ m₀ fun _ => none
  | take {s s' : Machine} {m : FrameMap} {held : Held} {p : Physical} :
      SpaceRun top s₀ m₀ s m held → pmmAllocatePage s = .ok (p, s') → p ≠ 0#64 →
      SpaceRun top s₀ m₀ s' m (Function.update held p (some (s'.mem p)))
  | give {s s' : Machine} {m : FrameMap} {held : Held} {p : Physical} :
      SpaceRun top s₀ m₀ s m held → held p ≠ none → pmmFreePage s p = .ok s' →
      SpaceRun top s₀ m₀ s' m (Function.update held p none)
  | call {s s' : Machine} {m : FrameMap} {held : Held} {c : MmuCall} :
      SpaceRun top s₀ m₀ s m held → Admitted s top m c → mmuCall s top c = .ok s' →
      SpaceRun top s₀ m₀ s' (m.call c) held
  | store {s : Machine} {m : FrameMap} {held : Held} {p : Physical} {page : RawPage}
      {i : Fin 512} {w : BitVec 64} :
      SpaceRun top s₀ m₀ s m held → held p = some page →
      SpaceRun top s₀ m₀ (s.store p i w) m
        (Function.update held p (some (Function.update page i w)))

section Space

variable {s s' : Machine} {top : MmuPageMapPart} {t : Physical} {T T' : PageTree 3} {m : FrameMap}
  {held : Held}

theorem TablesOk.keep (h : TablesOk s top t T) (hf : Follows s top m) (hpmm : PmmOk s')
    (hman : s'.pmm.managedPages = s.pmm.managedPages)
    (hctrl : s'.pmm.controlPages = s.pmm.controlPages) (hcr3 : s'.cr3 = s.cr3)
    (hmem : ∀ p ∈ insert t (tables T), s'.mem p = s.mem p)
    (hfree : ∀ p ∈ insert t (tables T), p ∉ freePages s') :
    TablesOk s' top t T ∧ Follows s' top m := by
  have hread : pageTree s' 3 t = T := by
    rw [← h.topOk.tree.read_eq]
    apply read_congr
    intro q hq
    apply hmem
    rw [← h.topOk.tree.read_eq]
    exact hq
  have htop : TopOk s' top t T := by
    refine ⟨?_, h.topOk.aligned, ⟨hread, h.topOk.tree.separated, h.topOk.tree.root, hfree, ?_⟩,
      h.topOk.entries, hpmm⟩
    · have hr := h.topOk.resolved
      unfold resolve getCurrentPageMapTop at hr ⊢
      rwa [hcr3]
    · rw [hctrl]
      exact h.topOk.tree.not_control
  refine ⟨⟨htop, h.low.congr hman, h.noEmpty, ?_⟩, ?_⟩
  · intro p hp
    rw [usedPages, Finset.mem_sdiff, hman]
    exact ⟨(Finset.mem_sdiff.mp (h.used hp)).1, hfree p (Finset.mem_insert_of_mem hp)⟩
  · intro v hv
    rw [htop.translate_eq, ← h.topOk.translate_eq]
    exact hf v hv

/-- The pages in use are the tables, those from before the run, and the clients' pages. -/
structure SpaceOk (top : MmuPageMapPart) (t : Physical) (before : Finset Physical) (s : Machine)
    (m : FrameMap) (held : Held) (T : PageTree 3) (out : Finset Physical) : Prop where
  tablesOk : TablesOk s top t T
  follows : Follows s top m
  used : usedPages s \ tables T = before ∪ out
  fresh : Disjoint before out
  root : t ∉ out
  mem_out : ∀ p, p ∈ out ↔ held p ≠ none
  contents : ∀ p page, held p = some page → s.mem p = page

variable {before out : Finset Physical}

theorem SpaceOk.out_used (h : SpaceOk top t before s m held T out) {p : Physical} (hp : p ∈ out) :
    p ∈ usedPages s ∧ p ∉ insert t (tables T) ∧ p ∉ s.pmm.controlPages := by
  have hin : p ∈ usedPages s \ tables T := by
    rw [h.used]
    exact Finset.mem_union_right before hp
  obtain ⟨hu, ht⟩ := Finset.mem_sdiff.mp hin
  refine ⟨hu, ?_, ?_⟩
  · rw [Finset.mem_insert, not_or]
    exact ⟨fun he => h.root (he ▸ hp), ht⟩
  · exact Finset.disjoint_left.mp h.tablesOk.topOk.pmm.managed_disjoint_control
      (Finset.mem_sdiff.mp hu).1

theorem SpaceOk.held_used (h : SpaceOk top t before s m held T out) {p : Physical}
    (hp : held p ≠ none) :
    p ∈ usedPages s ∧ p ∉ insert t (tables T) ∧ p ∉ s.pmm.controlPages :=
  h.out_used ((h.mem_out p).mpr hp)

theorem SpaceOk.held_managed (h : SpaceOk top t before s m held T out) {p : Physical}
    (hp : held p ≠ none) : p ∈ s.pmm.managedPages :=
  (Finset.mem_sdiff.mp (h.held_used hp).1).1

theorem not_free_of_used {q : Physical} (hs' : PmmOk s')
    (hman : s'.pmm.managedPages = s.pmm.managedPages) (hkeep : q ∈ usedPages s → q ∈ usedPages s')
    (hq : q ∉ freePages s) : q ∉ freePages s' := by
  intro hfree
  have hm := hs'.free_subset_managed hfree
  rw [hman] at hm
  exact (Finset.mem_sdiff.mp (hkeep (Finset.mem_sdiff.mpr ⟨hm, hq⟩))).2 hfree

theorem SpaceOk.take (h : SpaceOk top t before s m held T out) {p : Physical}
    (hrun : pmmAllocatePage s = .ok (p, s')) (hp : p ≠ 0#64) :
    SpaceOk top t before s' m (Function.update held p (some (s'.mem p))) T
      (insert p out) := by
  have htop := h.tablesOk.topOk
  obtain ⟨hmoved, hused, hfresh⟩ := pmmAllocatePage_moved htop.pmm hp hrun
  have hman := hmoved.managed_eq
  have hpused : p ∈ usedPages s' := by
    rw [hused]
    exact Finset.mem_insert_self p (usedPages s)
  have hpman : p ∈ s.pmm.managedPages := by
    rw [← hman]
    exact (Finset.mem_sdiff.mp hpused).1
  have hpfree : p ∈ freePages s := by
    by_contra hn
    exact hfresh (Finset.mem_sdiff.mpr ⟨hpman, hn⟩)
  have hptree : p ∉ insert t (tables T) := fun hin => htop.tree.not_free p hin hpfree
  have hpout : p ∉ out := fun hin => hfresh (h.out_used hin).1
  have hkeep : ∀ q ∉ s.pmm.controlPages, s'.mem q = s.mem q := hmoved.mem_eq
  obtain ⟨hT, hf⟩ := h.tablesOk.keep h.follows hmoved.ok hman hmoved.control_eq hmoved.cr3_eq
    (fun q hq => hkeep q (htop.tree.not_control q hq))
    (fun q hq => not_free_of_used hmoved.ok hman
      (fun hu => hused ▸ Finset.mem_insert_of_mem hu) (htop.tree.not_free q hq))
  refine ⟨hT, hf, ?_, ?_, ?_, ?_, ?_⟩
  · rw [hused, Finset.insert_sdiff_of_notMem _ fun hin => hptree (Finset.mem_insert_of_mem hin),
      h.used, Finset.union_insert]
  · rw [Finset.disjoint_insert_right]
    refine ⟨fun hb => hfresh ?_, h.fresh⟩
    have hin : p ∈ usedPages s \ tables T := h.used ▸ Finset.mem_union_left out hb
    exact (Finset.mem_sdiff.mp hin).1
  · rw [Finset.mem_insert, not_or]
    exact ⟨fun he => hptree (by rw [← he]; exact Finset.mem_insert_self t _), h.root⟩
  · intro q
    by_cases hq : q = p
    · simp [hq]
    · simp [hq, h.mem_out]
  · intro q page hq
    by_cases hqp : q = p
    · subst hqp
      simpa using hq
    · rw [Function.update_of_ne hqp] at hq
      rw [hkeep q (h.held_used (by simp [hq])).2.2]
      exact h.contents q page hq

theorem SpaceOk.give (h : SpaceOk top t before s m held T out) {p : Physical}
    (hp : held p ≠ none) (hrun : pmmFreePage s p = .ok s') :
    SpaceOk top t before s' m (Function.update held p none) T (out.erase p) := by
  have htop := h.tablesOk.topOk
  have hin := (h.mem_out p).mpr hp
  obtain ⟨hpused, hptree, -⟩ := h.out_used hin
  obtain ⟨hmoved, hused⟩ := pmmFreePage_moved htop.pmm hpused hrun
  have hman := hmoved.managed_eq
  have hkeep : ∀ q ∉ s.pmm.controlPages, s'.mem q = s.mem q := hmoved.mem_eq
  obtain ⟨hT, hf⟩ := h.tablesOk.keep h.follows hmoved.ok hman hmoved.control_eq hmoved.cr3_eq
    (fun q hq => hkeep q (htop.tree.not_control q hq))
    (fun q hq => not_free_of_used hmoved.ok hman
      (fun hu => hused ▸ Finset.mem_erase.mpr ⟨fun he => hptree (he ▸ hq), hu⟩)
      (htop.tree.not_free q hq))
  refine ⟨hT, hf, ?_, ?_, ?_, ?_, ?_⟩
  · have hnot : p ∉ before := Finset.disjoint_right.mp h.fresh hin
    rw [hused, Finset.erase_sdiff_comm, h.used, Finset.erase_union_distrib,
      Finset.erase_eq_of_notMem hnot]
  · exact Finset.disjoint_of_subset_right (Finset.erase_subset p out) h.fresh
  · exact fun hr => h.root (Finset.mem_of_mem_erase hr)
  · intro q
    by_cases hq : q = p
    · simp [hq]
    · simp [hq, h.mem_out]
  · intro q page hq
    by_cases hqp : q = p
    · subst hqp
      simp at hq
    · rw [Function.update_of_ne hqp] at hq
      rw [hkeep q (h.held_used (by simp [hq])).2.2]
      exact h.contents q page hq

theorem SpaceOk.call (h : SpaceOk top t before s m held T out) {c : MmuCall}
    (ha : Admitted s top m c) (hrun : mmuCall s top c = .ok s') :
    ∃ T', SpaceOk top t before s' (m.call c) held T' out := by
  obtain ⟨T', hT', hstep, hf'⟩ := (h.tablesOk.call h.follows ha).of_ok hrun
  have hused := hstep.used_sdiff.trans h.used
  refine ⟨T', hT', hf', hused, h.fresh, h.root, h.mem_out, ?_⟩
  intro q page hq
  have hin := (h.mem_out q).mpr (by simp [hq])
  obtain ⟨-, htree, hctrl⟩ := h.out_used hin
  rw [Finset.mem_insert, not_or] at htree
  have hnew : q ∉ tables T' := by
    have hq' : q ∈ usedPages s' \ tables T' := hused ▸ Finset.mem_union_right before hin
    exact (Finset.mem_sdiff.mp hq').2
  rw [hstep.mem_eq q htree.1 htree.2 hnew hctrl]
  exact h.contents q page hq

theorem SpaceOk.store (h : SpaceOk top t before s m held T out) {p : Physical} {page : RawPage}
    (hheld : held p = some page) (i : Fin 512) (w : BitVec 64) :
    SpaceOk top t before (s.store p i w) m
      (Function.update held p (some (Function.update page i w))) T out := by
  have htop := h.tablesOk.topOk
  have hin := (h.mem_out p).mpr (by simp [hheld])
  obtain ⟨-, hptree, hctrl⟩ := h.out_used hin
  obtain ⟨hok, hfree⟩ := htop.pmm.withPage hctrl (Function.update (s.mem p) i w)
  obtain ⟨hT, hf⟩ := h.tablesOk.keep h.follows hok rfl rfl rfl
    (fun q hq => withPage_mem_ne s (fun he : q = p => hptree (he ▸ hq)) _)
    (fun q hq => by rw [hfree]; exact htop.tree.not_free q hq)
  have hused : usedPages (s.store p i w) = usedPages s :=
    congrArg (fun free => s.pmm.managedPages \ free) hfree
  refine ⟨hT, hf, by rw [hused, h.used], h.fresh, h.root, ?_, ?_⟩
  · intro q
    by_cases hq : q = p
    · simp [hq, hin]
    · simp [hq, h.mem_out]
  · intro q page' hq
    by_cases hqp : q = p
    · subst hqp
      rw [Function.update_self, Option.some.injEq] at hq
      rw [← hq, ← h.contents q page hheld]
      exact assign_mem s q i w
    · rw [Function.update_of_ne hqp] at hq
      exact (assign_mem_ne s i w hqp).trans (h.contents q page' hq)

theorem SpaceRun.invariant {s₀ : Machine} {m₀ : FrameMap} {T₀ : PageTree 3}
    (h : SpaceRun top s₀ m₀ s m held) (h₀ : TablesOk s₀ top t T₀) (hf₀ : Follows s₀ top m₀) :
    ∃ T out, SpaceOk top t (usedPages s₀ \ tables T₀) s m held T out := by
  induction h with
  | start => exact ⟨T₀, ∅, h₀, hf₀, by simp, by simp, by simp, by simp, by simp⟩
  | take prior hrun hp ih =>
    obtain ⟨T, out, hok⟩ := ih
    exact ⟨T, _, hok.take hrun hp⟩
  | give prior hp hrun ih =>
    obtain ⟨T, out, hok⟩ := ih
    exact ⟨T, _, hok.give hp hrun⟩
  | call prior ha hrun ih =>
    obtain ⟨T, out, hok⟩ := ih
    obtain ⟨T', hok'⟩ := hok.call ha hrun
    exact ⟨T', out, hok'⟩
  | store prior hheld ih =>
    obtain ⟨T, out, hok⟩ := ih
    exact ⟨T, out, hok.store hheld _ _⟩

structure PageRange (w : Uintptr) : Prop where
  aligned : Aligned w
  order : w < w + 0x1000#64
  canonical : mmuIsCanonicalAddress w = true
  half : w &&& mmuHigherHalfMin = (w + 0x1000#64) &&& mmuHigherHalfMin
  below : w + 0x1000#64 ≤ lastEntryStart

theorem PageRange.checks {w : Uintptr} (hw : PageRange w) {T : PageTree 3} (h : TopOk s top t T) :
    EntryChecks s ⟨top, w, w + 0x1000#64⟩ := by
  have hnext : Aligned (w + 0x1000#64) := by
    have ha := hw.aligned
    simp only [Aligned, BitVec.toNat_add, BitVec.toNat_ofNat] at ha ⊢
    omega
  exact h.checks hw.aligned hnext hw.order hw.canonical hw.half

theorem PageRange.pageOf_iff {w : Uintptr} (hw : PageRange w) (v : Uintptr) :
    (w ≤ pageOf v ∧ pageOf v < w + 0x1000#64) ↔ pageOf v = w := by
  have hn := toNat_pageOf v
  have ha := hw.aligned
  have hord := hw.order
  simp only [Aligned, BitVec.le_def, BitVec.lt_def, BitVec.toNat_add, BitVec.toNat_ofNat,
    ← BitVec.toNat_inj] at *
  omega

theorem PageRange.lack_le {w : Uintptr} (hw : PageRange w) (h : TopOk s top t T) :
    lack entryCoding 3 T (pageKey w) (pageKey (w + 0x1000#64)) ≤ 3 := by
  have hone : Finset.Ico (pageKey w) (pageKey (w + 0x1000#64)) ⊆ {pageKey w} := by
    intro k hk
    obtain ⟨hlo, hhi⟩ := Finset.mem_Ico.mp hk
    obtain ⟨v, hin, rfl⟩ := (hw.checks h).exists_address hlo hhi
    have hof := (hw.pageOf_iff v).mp (((hw.checks h).pageOf_iff hin.1).mp hin)
    have hn := toNat_pageOf v
    rw [Finset.mem_singleton, pageKey, pageKey, ← hof, hn, Nat.mul_div_cancel _ (by decide)]
  have hblock : ∀ l ∈ Finset.range 3,
      (blocks 512 l (Finset.Ico (pageKey w) (pageKey (w + 0x1000#64))) \
        blocks 512 l (keys entryCoding 3 T)).card ≤ 1 := by
    intro l _
    have hsub : blocks 512 l (Finset.Ico (pageKey w) (pageKey (w + 0x1000#64))) ⊆
        blocks 512 l {pageKey w} := Finset.image_subset_image hone
    apply (Finset.card_le_card (Finset.sdiff_subset.trans hsub)).trans
    simp [blocks]
  have hsum := Finset.sum_le_card_nsmul (Finset.range 3) _ 1 hblock
  simpa [lack] using hsum

theorem SpaceOk.admits (h : SpaceOk top t before s m held T out) {w : Uintptr} (hw : PageRange w)
    {p : Physical} (hp : held p ≠ none) (flags : BitVec 32) :
    Admitted s top m (.assign flags w 0x1000#64 p) := by
  have hT := h.tablesOk
  have hman := h.held_managed hp
  have hlow := hT.low p hman
  have hpage : p.toNat % 4096 = 0 := hT.topOk.pmm.managed_aligned hman
  refine ⟨hw.checks hT.topOk, hw.below, hpage, ?_⟩
  simp only [BitVec.toNat_ofNat]
  omega

theorem SpaceRun.window {s₀ : Machine} {m₀ : FrameMap} {T₀ : PageTree 3}
    (h : SpaceRun top s₀ m₀ s m held) (h₀ : TablesOk s₀ top t T₀) (hf₀ : Follows s₀ top m₀)
    {w : Uintptr} (hw : PageRange w) {p : Physical} (hp : held p ≠ none) (flags : BitVec 32)
    (hfree : 3 ≤ (freePages s).card) :
    ∃ s', mmuAssign s top flags w 0x1000#64 p = .ok s' ∧
      SpaceRun top s₀ m₀ s' (m.call (.assign flags w 0x1000#64 p)) held ∧
      (freePages s).card ≤ (freePages s').card + 3 := by
  obtain ⟨T, out, hok⟩ := h.invariant h₀ hf₀
  have hT := hok.tablesOk
  have ha := hok.admits hw hp flags
  have hcount : tableCount (m.call (.assign flags w 0x1000#64 p)) = _ :=
    tableCount_assign hT hok.follows ha.1
  have hlack := hw.lack_le hT.topOk
  obtain ⟨s', hrun⟩ := hT.assign_returns hok.follows ha (by omega)
  have hcard := hT.assign_free hok.follows ha hrun
  exact ⟨s', hrun, h.call ha hrun, by omega⟩

theorem pageRange_write : PageRange 0x12345000#64 := by
  constructor <;> decide

theorem pageRange_read : PageRange 0x98765000#64 := by
  constructor <;> decide

theorem exampleRange_free {s₀ : Machine}
    (hadd : pmmAdd bareMachine exampleRange.start exampleRange.size = .ok s₀)
    (hok : PmmRunOk s₀ [exampleRange] ∅) : (freePages s₀).card = 63 := by
  have hrun := PmmRun.add exampleRange bareMachine_run (by decide) (by simp) hadd
  have hplan : (plannedPages [exampleRange]).length = 63 := by decide +kernel
  rw [← hok.ok.idle_length, hok.live, hrun.filled.orderedPages, ← hplan]
  simp [idle]

theorem exampleSpace_start : ∃ s₀, TablesOk s₀ exampleTop 0x5000#64 (blank 0#64 3) ∧
    Follows s₀ exampleTop (fun _ => none) ∧ (freePages s₀).card = 63 := by
  obtain ⟨s₀, hadd, hok, htop⟩ := exampleTop_ok
  have hnone : tables (blank 0#64 3 : PageTree 3) = ∅ := pages_blank entryCoding not_present_zero
  refine ⟨s₀, ⟨htop, hok.low (by decide), noEmpty_blank entryCoding, ?_⟩, ?_,
    exampleRange_free hadd hok⟩
  · rw [hnone]
    exact Finset.empty_subset _
  · intro v _
    rw [htop.translate_eq, get_empty entryCoding (empty_blank entryCoding not_present_zero)]
    rfl

def twoWindows (p : Physical) : FrameMap :=
  FrameMap.call (FrameMap.call (fun _ => none) (.assign memoryWrite 0x12345000#64 0x1000#64 p))
    (.assign 0#32 0x98765000#64 0x1000#64 p)

theorem twoWindows_run : ∃ s₀ s p page, TablesOk s₀ exampleTop 0x5000#64 (blank 0#64 3) ∧
    Follows s₀ exampleTop (fun _ => none) ∧
    SpaceRun exampleTop s₀ (fun _ => none) s (twoWindows p)
      (Function.update (fun _ => none) p (some page)) := by
  obtain ⟨s₀, h₀, hf₀, hfree⟩ := exampleSpace_start
  rcases pmmAllocatePage_spec h₀.topOk.pmm with ⟨hempty, -⟩ | ⟨p, s₁, htake, ha⟩
  · simp [hempty] at hfree
  · have hman := h₀.topOk.pmm.free_subset_managed ha.was_free
    have hstart : SpaceRun exampleTop s₀ (fun _ => none) s₀ (fun _ => none) (fun _ => none) :=
      SpaceRun.start
    have hrun := hstart.take htake (h₀.topOk.pmm.managed_ne_zero hman)
    have hcard : (freePages s₁).card + 1 = 63 := by
      rw [ha.free_eq, Finset.card_erase_add_one ha.was_free, hfree]
    obtain ⟨s₂, -, hrun₂, hfree₂⟩ := hrun.window h₀ hf₀ pageRange_write (p := p) (by simp)
      memoryWrite (by omega)
    obtain ⟨s₃, -, hrun₃, -⟩ := hrun₂.window h₀ hf₀ pageRange_read (p := p) (by simp) 0#32
      (by omega)
    exact ⟨s₀, s₃, p, _, h₀, hf₀, hrun₃⟩

theorem SpaceOk.card {s₀ : Machine} {m₀ : FrameMap} {T₀ : PageTree 3}
    (h : SpaceOk top t (usedPages s₀ \ tables T₀) s m held T out) (h₀ : TablesOk s₀ top t T₀)
    (hf₀ : Follows s₀ top m₀) :
    (usedPages s).card + tableCount m₀ = (usedPages s₀).card + tableCount m + out.card := by
  have hcard := Finset.card_sdiff_add_card_eq_card h.tablesOk.used
  have hcard₀ := Finset.card_sdiff_add_card_eq_card h₀.used
  have hsplit := Finset.card_union_of_disjoint h.fresh
  rw [← h.used] at hsplit
  rw [← h₀.card_tables hf₀, ← h.tablesOk.card_tables h.follows]
  omega

/-- Each address leads to the page that is mapped there, or nowhere, and each page that a client
holds has in it what was last stored there, whatever else was mapped, unmapped, taken, given back or
stored. No such page is a table, and the allocator hands out neither. -/
theorem address_space_keeps_pages {s₀ : Machine} {m₀ : FrameMap} {T₀ : PageTree 3}
    (h : SpaceRun top s₀ m₀ s m held) (h₀ : TablesOk s₀ top t T₀) (hf₀ : Follows s₀ top m₀) :
    (∀ v, mmuIsCanonicalAddress v = true →
      translate s top v = .ok (frameResult (m (pageOf v)))) ∧
    (∀ p page, held p = some page →
      s.mem p = page ∧ p ∉ insert t (tables (pageTree s 3 t))) ∧
    ∀ p s', pmmAllocatePage s = .ok (p, s') → p ≠ 0#64 →
      held p = none ∧ p ∉ insert t (tables (pageTree s 3 t)) := by
  obtain ⟨T, out, hok⟩ := h.invariant h₀ hf₀
  have htop := hok.tablesOk.topOk
  rw [htop.tree.read_eq]
  refine ⟨hok.follows, ?_, ?_⟩
  · intro p page hp
    exact ⟨hok.contents p page hp, (hok.held_used (by simp [hp])).2.1⟩
  · intro p s' hrun hp
    obtain ⟨hmoved, hused, hfresh⟩ := pmmAllocatePage_moved htop.pmm hp hrun
    have hin : p ∈ usedPages s' := by
      rw [hused]
      exact Finset.mem_insert_self p (usedPages s)
    have hman := (Finset.mem_sdiff.mp hin).1
    rw [hmoved.managed_eq] at hman
    constructor
    · by_contra hheld
      exact hfresh (hok.held_used hheld).1
    · intro hin
      exact hfresh (Finset.mem_sdiff.mpr ⟨hman, htop.tree.not_free p hin⟩)

/-- What is stored in the page is behind both of its addresses. -/
theorem address_space_keeps_pages_example : ∃ s p, s.mem p 5 = 7#64 ∧
    translate s exampleTop 0x12345abc#64 = .ok ⟨p, pageMapDepthMemory⟩ ∧
    translate s exampleTop 0x98765abc#64 = .ok ⟨p, pageMapDepthMemory⟩ := by
  obtain ⟨s₀, s, p, page, h₀, hf₀, hrun⟩ := twoWindows_run
  have hp : ∀ v ∈ [0x12345abc#64, 0x98765abc#64], twoWindows p (pageOf v) = some p := by
    simp [twoWindows, FrameMap.call, pageOf, roundDownP2, pageSize]
  have hheld : (Function.update (fun _ => none) p (some page) : Held) p = some page := by simp
  have hstored := hrun.store (i := 5) (w := 7#64) hheld
  obtain ⟨hfollows, hcontents, -⟩ := address_space_keeps_pages hstored h₀ hf₀
  have hfirst := hfollows 0x12345abc#64 (by decide)
  have hsecond := hfollows 0x98765abc#64 (by decide)
  rw [hp _ (by simp)] at hfirst hsecond
  have hword := congrFun (hcontents p (Function.update page 5 7#64) (by simp)).1 5
  exact ⟨_, p, hword.trans (Function.update_self 5 7#64 page), hfirst, hsecond⟩

/-- No page is lost: in every run the pages in use are those from the start, the tables that the map
needs now instead of those it needed then, and the pages that clients hold. -/
theorem address_space_loses_no_page {s₀ : Machine} {m₀ : FrameMap} {T₀ : PageTree 3}
    (h : SpaceRun top s₀ m₀ s m held) (h₀ : TablesOk s₀ top t T₀) (hf₀ : Follows s₀ top m₀) :
    ∃ out : Finset Physical, (∀ p, p ∈ out ↔ held p ≠ none) ∧
      (usedPages s).card + tableCount m₀ =
        (usedPages s₀).card + tableCount m + out.card := by
  obtain ⟨T, out, hok⟩ := h.invariant h₀ hf₀
  exact ⟨out, hok.mem_out, hok.card h₀ hf₀⟩

theorem address_space_loses_no_page_example : ∃ s₀ s p, ∃ out : Finset Physical, p ∈ out ∧
    (usedPages s).card = (usedPages s₀).card + tableCount (twoWindows p) + out.card := by
  obtain ⟨s₀, s, p, page, h₀, hf₀, hrun⟩ := twoWindows_run
  obtain ⟨out, hout, hcard⟩ := address_space_loses_no_page hrun h₀ hf₀
  rw [tableCount_none, Nat.add_zero] at hcard
  exact ⟨s₀, s, p, out, (hout p).mpr (by simp), hcard⟩

end Space

end Ukulele
