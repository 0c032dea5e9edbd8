import Ukulele.AddressSpace
import Ukulele.MmuChecks
import Ukulele.MmuOverlay

/-! The page tables of the boot loader after `clear_map_lower_half`. The lower half of the address
space is free for programs, and the higher half, huge pages and all, stays as the boot loader left
it whatever is mapped below.
-/

set_option autoImplicit false

namespace Ukulele
open RadixTree Transport

def mmuTopPage : MmuPageMapPart := ⟨0#64, 0⟩

def clearMapLowerHalf (s : Machine) : Machine :=
  let pml4 := s.cr3
  (List.finRange 256).foldl (fun s i => s.store pml4 (i.castLE (by decide)) 0#64) s

section Clear

theorem clear_foldl (t : Physical) (l : List (Fin 256)) : ∀ s : Machine,
    l.foldl (fun s i => s.store t (i.castLE (by decide)) 0#64) s =
      s.withPage t fun i => if i.val ∈ l.map Fin.val then 0#64 else s.mem t i := by
  induction l with
  | nil =>
    intro s
    unfold Machine.withPage
    simp
  | cons j l ih =>
    intro s
    have hword : ∀ i, (s.store t (j.castLE (by decide)) 0#64).mem t i =
        if i.val = j.val then 0#64 else s.mem t i := by
      intro i
      have hrow := congrFun (assign_mem s t (j.castLE (by decide)) 0#64) i
      rw [Function.update_apply] at hrow
      simp only [Fin.ext_iff, Fin.val_castLE] at hrow
      exact hrow
    rw [List.foldl_cons, ih]
    unfold Machine.withPage
    simp only [hword]
    unfold Machine.store
    simp only [Function.update_idem]
    congr 2
    funext i
    by_cases hj : i.val = j.val
    · simp [hj]
    · simp [hj]

theorem clearMapLowerHalf_eq (s : Machine) :
    clearMapLowerHalf s = (s.withPage s.cr3 zeroPage).overlay s.cr3 (s.mem s.cr3) := by
  unfold clearMapLowerHalf
  simp only [clear_foldl]
  unfold Machine.overlay
  unfold Machine.withPage
  simp only [Function.update_self, Function.update_idem]
  congr 2
  funext i
  have hmem : i.val ∈ (List.finRange 256).map Fin.val ↔ i.val < 256 := by
    simp only [List.mem_map, List.mem_finRange, true_and]
    exact ⟨fun ⟨j, hj⟩ => hj ▸ j.isLt, fun hi => ⟨⟨i.val, hi⟩, rfl⟩⟩
  simp only [hmem]
  rfl

end Clear

section Lookups

variable {s s' : Machine} {top : MmuPageMapPart} {t : Physical} {T : PageTree 3} {u : RawPage}
  {v : Uintptr}

theorem toNat_slotOf_top (v : Uintptr) : (slotOf 2 v).val = v.toNat / 2 ^ 39 % 512 := by
  have hspan : span 512 3 = 2 ^ 36 ∧ span 512 2 = 2 ^ 27 := by decide
  simp only [slotOf, partKey, hspan]
  omega

theorem TopOk.overlay_translate (h : TopOk s top t T) (hv : v.toNat ∈ lowerHalf) :
    translate (s.overlay t u) top v = translate s top v := by
  have hr : resolve (s.overlay t u) top = ⟨t, 0⟩ := h.resolved
  have hslot := toNat_slotOf_top v
  have hlow : v.toNat < 2 ^ 47 := hv
  have hword : (s.overlay t u).mem t (slotOf 2 v) = s.mem t (slotOf 2 v) := by
    rw [overlay_mem_top, if_pos (by omega)]
  have hpart : v.toNat / 4096 % span 512 3 / width 512 3 = (slotOf 2 v).val := rfl
  have hstep : mmuLookupStep (s.overlay t u) top v = mmuLookupStep s top v := by
    rw [mmuLookupStep_eq hr rfl h.aligned v hpart,
      mmuLookupStep_eq h.resolved rfl h.aligned v hpart, hword]
  unfold translate
  rw [mmuLookup, mmuLookup, hstep]
  cases hi : T (slotOf 2 v) with
  | absent w =>
    rw [lookupStep_absent h.resolved rfl h.aligned h.tree.read_eq hi]
    rfl
  | table w c =>
    obtain ⟨hw, hbelow⟩ := h.entries _ w c hi
    obtain ⟨hout, hne⟩ := h.elsewhere.child hi
    have hchild : pageTree s 2 (entryCoding.addr w) = c := (h.tree.entry hi).2.2
    have hover : pageTree (s.overlay t u) 2 (entryCoding.addr w) = c := by
      rw [← hchild]
      apply read_congr
      intro q hq
      apply overlay_mem_ne
      rintro rfl
      rcases Finset.mem_insert.mp hq with he | hq
      · exact hne he.symm
      · exact hout.not_table (hchild ▸ hq)
    have hat : resolve s ⟨entryCoding.addr w, 1⟩ = ⟨entryCoding.addr w, 1⟩ := if_neg hw.2
    have hat' : resolve (s.overlay t u) ⟨entryCoding.addr w, 1⟩ = ⟨entryCoding.addr w, 1⟩ :=
      if_neg hw.2
    have ha : Aligned (entryCoding.addr w) := aligned_and_physAddressMask w
    rw [lookupStep_table h.resolved rfl h.aligned h.tree.read_eq hi hw]
    have hrun := lookup_spec 2 v (by decide : 2 < 3) hat rfl ha hchild hbelow
    have hrun' := lookup_spec 2 v (by decide : 2 < 3) hat' rfl ha hover hbelow
    exact hrun'.trans hrun.symm

def NamesTable (w : BitVec 64) : Prop := w &&& mmuRegPresent ≠ 0#64 ∧ w &&& mmuRegPageSize = 0#64

theorem stepResult_names {w : BitVec 64} (h : NamesTable w) (d : Nat) :
    stepResult w d = ⟨w &&& mmuRegPhysAddressMask, d + 1⟩ :=
  stepResult_table (present_iff.mpr h.1) h.2 d

theorem stepResult_ends {w : BitVec 64} (h : ¬ NamesTable w) (d : Nat) :
    ¬ (stepResult w d).depth < pageMapDepthMemory := by
  unfold stepResult
  by_cases hp : w &&& mmuRegPresent = 0#64
  · rw [if_pos hp]
    decide
  · rw [if_neg hp, if_pos fun hs => h ⟨hp, hs⟩]
    exact Nat.lt_irrefl _

/-- The tables of the boot loader behind the upper half of the top table, by their depth: pages that
are neither the allocator's nor the top table. -/
structure KernelTables (s : Machine) (K : Nat → Set Physical) : Prop where
  top : ∀ i : Fin 512, 256 ≤ i.val → NamesTable (s.mem s.cr3 i) →
    s.mem s.cr3 i &&& mmuRegPhysAddressMask ∈ K 1
  below : ∀ d < 3, ∀ p ∈ K d, ∀ i, NamesTable (s.mem p i) →
    s.mem p i &&& mmuRegPhysAddressMask ∈ K (d + 1)
  pages : ∀ d, ∀ p ∈ K d, Aligned p ∧ p ≠ 0#64 ∧ p ≠ s.cr3
  apart : ∀ d, ∀ p ∈ K d, p ∉ s.pmm.managedPages ∧ p ∉ s.pmm.controlPages

variable {K : Nat → Set Physical}

theorem KernelTables.lookup_eq (h : KernelTables s K) (hmem : ∀ d, ∀ p ∈ K d, s'.mem p = s.mem p)
    (v : Uintptr) (fuel : Nat) : ∀ {d n : Nat} {p : Physical}, d + n = 3 → p ∈ K d →
    mmuLookup s' v fuel ⟨p, d⟩ = mmuLookup s v fuel ⟨p, d⟩ := by
  induction fuel with
  | zero => exact fun _ _ => rfl
  | succ fuel ih =>
    intro d n p hd hp
    obtain ⟨ha, hz, -⟩ := h.pages d p hp
    have hr : ∀ s : Machine, resolve s ⟨p, d⟩ = ⟨p, d⟩ := fun _ => if_neg hz
    have hlt : v.toNat / 4096 % span 512 n / width 512 n < 512 := by
      have hspan := key_lt_span (v.toNat / 4096) n
      rw [span_eq_mul_width, Nat.mul_comm] at hspan
      rw [span_eq_mul_width, Nat.mul_comm 512]
      exact Nat.div_lt_of_lt_mul hspan
    have hstep : ∀ s : Machine, mmuLookupStep s ⟨p, d⟩ v = .ok (stepResult (s.mem p ⟨_, hlt⟩) d) :=
      fun s => mmuLookupStep_eq (hr s) hd ha v rfl
    rw [mmuLookup, mmuLookup, hstep, hstep, hmem d p hp]
    by_cases hw : NamesTable (s.mem p ⟨_, hlt⟩)
    · rw [stepResult_names hw]
      cases n with
      | zero =>
        obtain rfl : d = 3 := hd
        rfl
      | succ n =>
        have hdeep : d + 1 < pageMapDepthMemory := by
          unfold pageMapDepthMemory
          omega
        simp only [hdeep, if_true]
        have hnext : d + 1 + n = 3 := by omega
        exact ih hnext (h.below d (by omega) p hp _ hw)
    · simp only [stepResult_ends hw, if_false]

theorem KernelTables.translate_eq (h : KernelTables s K) (hr : resolve s top = ⟨s.cr3, 0⟩)
    (hr' : resolve s' top = ⟨s.cr3, 0⟩) (ha : Aligned s.cr3)
    (hmem : ∀ d, ∀ p ∈ K d, s'.mem p = s.mem p)
    (htop : ∀ i : Fin 512, 256 ≤ i.val → s'.mem s.cr3 i = s.mem s.cr3 i)
    (hv : v.toNat ∈ higherHalf) : translate s' top v = translate s top v := by
  obtain ⟨hlo, hhi⟩ := hv
  have hslot := toNat_slotOf_top v
  have hup : 256 ≤ (slotOf 2 v).val := by omega
  have hpart : v.toNat / 4096 % span 512 3 / width 512 3 = (slotOf 2 v).val := rfl
  unfold translate
  rw [mmuLookup, mmuLookup, mmuLookupStep_eq hr' rfl ha v hpart, mmuLookupStep_eq hr rfl ha v hpart,
    htop _ hup]
  by_cases hw : NamesTable (s.mem s.cr3 (slotOf 2 v))
  · rw [stepResult_names hw]
    exact h.lookup_eq hmem v 3 (by decide : 1 + 2 = 3) (h.top _ hup hw)
  · simp only [stepResult_ends hw, if_false]

end Lookups

/-- Calls of the physical allocator, calls that map and unmap in the lower half, and stores to pages
that clients hold, in any order, from a lower half in which nothing is mapped. -/
inductive UserRun (top : MmuPageMapPart) (s₀ : Machine) : Machine → FrameMap → Held → Prop where
  | start : UserRun top s₀ s₀ (fun _ => none) (fun _ => none)
  | take {s s' : Machine} {m : FrameMap} {held : Held} {p : Physical} :
      UserRun top s₀ s m held → pmmAllocatePage s = .ok (p, s') → p ≠ 0#64 →
      UserRun top s₀ s' m (Function.update held p (some (s'.mem p)))
  | give {s s' : Machine} {m : FrameMap} {held : Held} {p : Physical} :
      UserRun top s₀ s m held → held p ≠ none → pmmFreePage s p = .ok s' →
      UserRun top s₀ s' m (Function.update held p none)
  | call {s s' : Machine} {m : FrameMap} {held : Held} {c : MmuCall} :
      UserRun top s₀ s m held → Admitted s top m c → c.range.1.toNat ∈ lowerHalf →
      mmuCall s top c = .ok s' → UserRun top s₀ s' (m.call c) held
  | store {s : Machine} {m : FrameMap} {held : Held} {p : Physical} {page : RawPage}
      {i : Fin 512} {w : BitVec 64} :
      UserRun top s₀ s m held → held p = some page →
      UserRun top s₀ (s.store p i w) m
        (Function.update held p (some (Function.update page i w)))

section Runs

variable {s₀ s s' r : Machine} {top : MmuPageMapPart} {t : Physical} {T₀ T : PageTree 3}
  {u : RawPage} {m m₀ : FrameMap} {held : Held}

/-- Nothing but the allocator's pages and the top table changes. -/
structure Untouched (t : Physical) (s₀ s : Machine) : Prop where
  managed_eq : s.pmm.managedPages = s₀.pmm.managedPages
  control_eq : s.pmm.controlPages = s₀.pmm.controlPages
  cr3_eq : s.cr3 = s₀.cr3
  mem_eq : ∀ q ∉ s₀.pmm.managedPages, q ∉ s₀.pmm.controlPages → q ≠ t → s.mem q = s₀.mem q

theorem Untouched.trans (h : Untouched t s₀ s) (h' : Untouched t s s') : Untouched t s₀ s' where
  managed_eq := h'.managed_eq.trans h.managed_eq
  control_eq := h'.control_eq.trans h.control_eq
  cr3_eq := h'.cr3_eq.trans h.cr3_eq
  mem_eq := by
    intro q hm hc ht
    rw [h'.mem_eq q (h.managed_eq ▸ hm) (h.control_eq ▸ hc) ht, h.mem_eq q hm hc ht]

theorem PmmFrame.untouched (h : PmmFrame s s') : Untouched t s s' :=
  ⟨h.managed_eq, h.control_eq, h.cr3_eq, fun q _ hc _ => h.mem_eq q hc⟩

theorem TreeStep.untouched {T T' : PageTree 3} (h : TreeStep s s' t T T') (hp : PmmOk s)
    (hused : tables T ⊆ usedPages s) : Untouched t s s' := by
  refine ⟨h.managed_eq, h.control_eq, h.cr3_eq, ?_⟩
  intro q hm hc ht
  apply h.mem_eq q ht
  · exact fun hq => hm (Finset.mem_sdiff.mp (hused hq)).1
  · intro hq
    have hin := (Finset.mem_sdiff.mp (h.tables_used hp hused hq)).1
    rw [h.managed_eq] at hin
    exact hm hin
  · exact hc

theorem SpaceRun.untouched (h : SpaceRun top s₀ m₀ s m held) (h₀ : TablesOk s₀ top t T₀)
    (hf₀ : Follows s₀ top m₀) : Untouched t s₀ s := by
  induction h with
  | start => exact ⟨rfl, rfl, rfl, fun _ _ _ _ => rfl⟩
  | take prior hrun hp ih =>
    obtain ⟨T, out, hok⟩ := prior.invariant h₀ hf₀
    exact ih.trans (pmmAllocatePage_moved hok.tablesOk.topOk.pmm hp hrun).1.toPmmFrame.untouched
  | give prior hp hrun ih =>
    obtain ⟨T, out, hok⟩ := prior.invariant h₀ hf₀
    have hused := (hok.held_used hp).1
    exact ih.trans (pmmFreePage_moved hok.tablesOk.topOk.pmm hused hrun).1.toPmmFrame.untouched
  | call prior ha hrun ih =>
    obtain ⟨T, out, hok⟩ := prior.invariant h₀ hf₀
    obtain ⟨T', -, hstep, -⟩ := (hok.tablesOk.call hok.follows ha).of_ok hrun
    exact ih.trans (hstep.untouched hok.tablesOk.topOk.pmm hok.tablesOk.used)
  | @store s m held p page i w prior hheld ih =>
    obtain ⟨T, out, hok⟩ := prior.invariant h₀ hf₀
    have hman := hok.held_managed (p := p) (by simp [hheld])
    refine ih.trans ⟨rfl, rfl, rfl, ?_⟩
    intro q hm _ _
    have hne : q ≠ p := by
      rintro rfl
      exact hm hman
    exact assign_mem_ne s i w hne

theorem Admitted.overlay {c : MmuCall} (h : Admitted (s.overlay t u) top m c) :
    Admitted s top m c := ⟨h.1.congr rfl, h.2⟩

/-- The driver does with the tables of the boot loader what it does with a top table whose upper
half is empty. -/
theorem UserRun.refines {r₀ : Machine} (h : UserRun top r₀ r m held) (hr₀ : r₀ = s₀.overlay t u)
    (h₀ : TablesOk s₀ top t T₀) (hf₀ : Follows s₀ top fun _ => none)
    (ht : t ∉ s₀.pmm.managedPages) :
    ∃ s, SpaceRun top s₀ (fun _ => none) s m held ∧ r = s.overlay t u := by
  induction h with
  | start => exact ⟨s₀, SpaceRun.start, hr₀⟩
  | @take r r' m held p prior hrun hp ih =>
    obtain ⟨s, hs, rfl⟩ := ih
    obtain ⟨T, out, hok⟩ := hs.invariant h₀ hf₀
    have htop := hok.tablesOk.topOk
    obtain ⟨⟨p', s'⟩, hrun', hpair⟩ :=
      (pmmAllocatePage_carries htop.elsewhere.not_control).exists_ok hrun
    cases hpair
    obtain ⟨hmoved, hused, -⟩ := pmmAllocatePage_moved htop.pmm hp hrun'
    have hne : p' ≠ t := by
      rintro rfl
      have hin : p' ∈ usedPages s' := hused ▸ Finset.mem_insert_self _ _
      have hman := (Finset.mem_sdiff.mp hin).1
      rw [hmoved.managed_eq, (hs.untouched h₀ hf₀).managed_eq] at hman
      exact ht hman
    have hnext := hs.take hrun' hp
    rw [← overlay_mem_ne (u := u) hne] at hnext
    exact ⟨s', hnext, rfl⟩
  | give prior hp hrun ih =>
    obtain ⟨s, hs, rfl⟩ := ih
    obtain ⟨T, out, hok⟩ := hs.invariant h₀ hf₀
    obtain ⟨s', hrun', rfl⟩ :=
      (pmmFreePage_carries hok.tablesOk.topOk.elsewhere.not_control _).exists_ok hrun
    exact ⟨s', hs.give hp hrun', rfl⟩
  | call prior ha hlow hrun ih =>
    obtain ⟨s, hs, rfl⟩ := ih
    obtain ⟨T, out, hok⟩ := hs.invariant h₀ hf₀
    obtain ⟨s', hrun', rfl⟩ :=
      (mmuCall_carries hok.tablesOk hok.follows ha.overlay hlow).exists_ok hrun
    exact ⟨s', hs.call ha.overlay hrun', rfl⟩
  | @store r m held p page i w prior hheld ih =>
    obtain ⟨s, hs, rfl⟩ := ih
    obtain ⟨T, out, hok⟩ := hs.invariant h₀ hf₀
    have hne : p ≠ t := by
      rintro rfl
      have hman := hok.held_managed (p := p) (by simp [hheld])
      rw [(hs.untouched h₀ hf₀).managed_eq] at hman
      exact ht hman
    have hrow : (s.overlay t u).mem p = s.mem p := overlay_mem_ne hne
    have hsame : (s.overlay t u).store p i w = (s.store p i w).overlay t u :=
      calc (s.overlay t u).store p i w
          = (s.overlay t u).withPage p (Function.update ((s.overlay t u).mem p) i w) := rfl
        _ = (s.overlay t u).withPage p (Function.update (s.mem p) i w) := by rw [hrow]
        _ = (s.store p i w).overlay t u := overlay_withPage hne _
    exact ⟨s.store p i w, hs.store hheld, hsame⟩

end Runs

/-- The boot loader's top table is current, and no page of the allocator's. -/
structure BootTables (s : Machine) (top : MmuPageMapPart) : Prop where
  pmm : PmmOk s
  low : PmmLow s
  resolved : resolve s top = ⟨s.cr3, 0⟩
  aligned : Aligned s.cr3
  nonzero : s.cr3 ≠ 0#64
  not_managed : s.cr3 ∉ s.pmm.managedPages
  not_control : s.cr3 ∉ s.pmm.controlPages

section Boot

variable {r₀ r : Machine} {top : MmuPageMapPart} {K : Nat → Set Physical} {m : FrameMap}
  {held : Held}

theorem BootTables.emptied (hb : BootTables r₀ top) :
    TablesOk (r₀.withPage r₀.cr3 zeroPage) top r₀.cr3 (blank 0#64 3) ∧
    Follows (r₀.withPage r₀.cr3 zeroPage) top (fun _ => none) ∧
    usedPages (r₀.withPage r₀.cr3 zeroPage) = usedPages r₀ := by
  obtain ⟨hok, hfree⟩ := hb.pmm.withPage hb.not_control zeroPage
  have hblank := TopOk.of_zeroPage hok hb.nonzero hb.aligned hb.not_managed hb.not_control
    (withPage_mem r₀ r₀.cr3 zeroPage)
  have htop : TopOk (r₀.withPage r₀.cr3 zeroPage) top r₀.cr3 (blank 0#64 3) :=
    ⟨hb.resolved, hb.aligned, hblank.tree, hblank.entries, hok⟩
  have hnone : tables (blank 0#64 3 : PageTree 3) = ∅ := pages_blank entryCoding not_present_zero
  refine ⟨⟨htop, hb.low.congr rfl, noEmpty_blank entryCoding, ?_⟩, ?_, ?_⟩
  · rw [hnone]
    exact Finset.empty_subset _
  · intro v _
    rw [htop.translate_eq, get_empty entryCoding (empty_blank entryCoding not_present_zero)]
    rfl
  · rw [usedPages, hfree]
    rfl

theorem BootTables.run (hb : BootTables r₀ top)
    (h : UserRun top (clearMapLowerHalf r₀) r m held) :
    ∃ s, SpaceRun top (r₀.withPage r₀.cr3 zeroPage) (fun _ => none) s m held ∧
      r = s.overlay r₀.cr3 (r₀.mem r₀.cr3) := by
  obtain ⟨h₀, hf₀, -⟩ := hb.emptied
  exact h.refines (clearMapLowerHalf_eq r₀) h₀ hf₀ hb.not_managed

end Boot

def bootWords : RawPage := fun i =>
  if i.val = 0 then 0x6003#64 else if i.val = 511 then 0x9003#64 else 0#64

def kernelWords : RawPage := fun i => if i.val = 511 then 0x40000083#64 else 0#64

def kernelPages : Nat → Set Physical := fun d => if d = 1 then {0x9000#64} else ∅

def bootMachine (s : Machine) : Machine :=
  { (s.withPage 0x5000#64 bootWords).withPage 0x9000#64 kernelWords with cr3 := 0x5000#64 }

section Example

variable {s : Machine}

theorem bootMachine_top (s : Machine) : (bootMachine s).mem 0x5000#64 = bootWords :=
  (withPage_mem_ne (s.withPage 0x5000#64 bootWords) (by decide : 0x5000#64 ≠ 0x9000#64)
    kernelWords).trans (withPage_mem s 0x5000#64 bootWords)

theorem bootMachine_kernel (s : Machine) : (bootMachine s).mem 0x9000#64 = kernelWords :=
  withPage_mem (s.withPage 0x5000#64 bootWords) 0x9000#64 kernelWords

theorem bootMachine_tables (hm : 0x9000#64 ∉ s.pmm.managedPages)
    (hc : 0x9000#64 ∉ s.pmm.controlPages) : KernelTables (bootMachine s) kernelPages := by
  have hzero : ¬ NamesTable 0#64 := fun h => h.1 (by decide)
  have hmem : ∀ d, ∀ p ∈ kernelPages d, d = 1 ∧ p = 0x9000#64 := by
    intro d p hp
    unfold kernelPages at hp
    split at hp
    · exact ⟨by assumption, hp⟩
    · exact absurd hp (Set.notMem_empty p)
  refine ⟨?_, ?_, ?_, ?_⟩
  · intro i hi hw
    change NamesTable ((bootMachine s).mem 0x5000#64 i) at hw
    change (bootMachine s).mem 0x5000#64 i &&& mmuRegPhysAddressMask ∈ kernelPages 1
    rw [bootMachine_top, bootWords, if_neg (by omega)] at hw ⊢
    by_cases h : i.val = 511
    · rw [if_pos h]
      exact (by decide : 0x9003#64 &&& mmuRegPhysAddressMask = 0x9000#64)
    · rw [if_neg h] at hw
      exact absurd hw hzero
  · intro d _ p hp i hw
    obtain ⟨rfl, rfl⟩ := hmem d p hp
    rw [bootMachine_kernel, kernelWords] at hw
    by_cases h : i.val = 511
    · rw [if_pos h] at hw
      exact absurd hw.2 (by decide)
    · rw [if_neg h] at hw
      exact absurd hw hzero
  · intro d p hp
    obtain ⟨rfl, rfl⟩ := hmem d p hp
    exact ⟨by decide, by decide, (by decide : 0x9000#64 ≠ 0x5000#64)⟩
  · intro d p hp
    obtain ⟨rfl, rfl⟩ := hmem d p hp
    exact ⟨hm, hc⟩

theorem bootMachine_translate (s : Machine) :
    translate (bootMachine s) mmuTopPage 0xffffffffc0000000#64 =
      .ok ⟨0x40000000#64, pageMapDepthMemory⟩ := by
  have hr : resolve (bootMachine s) mmuTopPage = ⟨0x5000#64, 0⟩ := rfl
  have hr' : resolve (bootMachine s) ⟨0x9000#64, 1⟩ = ⟨0x9000#64, 1⟩ := rfl
  have hfirst := mmuLookupStep_eq hr (rfl : 0 + 3 = 3) (by decide) 0xffffffffc0000000#64
    (i := 511) (by decide)
  have hsecond := mmuLookupStep_eq hr' (rfl : 1 + 2 = 3) (by decide) 0xffffffffc0000000#64
    (i := 511) (by decide)
  rw [bootMachine_top, show stepResult (bootWords 511) 0 = ⟨0x9000#64, 1⟩ by decide] at hfirst
  rw [bootMachine_kernel, show stepResult (kernelWords 511) 1 = ⟨0x40000000#64, 4⟩ by decide]
    at hsecond
  unfold translate
  rw [mmuLookup, hfirst]
  simp only [show 1 < pageMapDepthMemory by decide, if_true]
  rw [mmuLookup, hsecond]
  rfl

theorem bootMachine_ok : ∃ r₀, BootTables r₀ mmuTopPage ∧ KernelTables r₀ kernelPages ∧
    3 < (freePages r₀).card ∧
    translate r₀ mmuTopPage 0xffffffffc0000000#64 = .ok ⟨0x40000000#64, pageMapDepthMemory⟩ := by
  obtain ⟨s, hadd, hok, -⟩ := exampleTop_ok
  obtain ⟨hm, hc⟩ := hok.below (t := 0x5000#64) (by decide)
  obtain ⟨hm', hc'⟩ := hok.below (t := 0x9000#64) (by decide)
  have hcount := exampleRange_free hadd hok
  have hpmm : PmmOk (bootMachine s) ∧ freePages (bootMachine s) = freePages s := by
    refine hok.ok.congr rfl ?_
    intro q hq
    have hne : q ≠ 0x9000#64 := fun he => hc' (he ▸ hq)
    have hne' : q ≠ 0x5000#64 := fun he => hc (he ▸ hq)
    exact (withPage_mem_ne (s.withPage 0x5000#64 bootWords) hne kernelWords).trans
      (withPage_mem_ne s hne' bootWords)
  refine ⟨bootMachine s, ⟨hpmm.1, (hok.low (by decide)).congr rfl, rfl,
    (by decide : Aligned 0x5000#64), (by decide : 0x5000#64 ≠ 0#64), hm, hc⟩,
    bootMachine_tables hm' hc', ?_, bootMachine_translate s⟩
  rw [hpmm.2, hcount]
  decide

def oneWindow (p : Physical) : FrameMap :=
  FrameMap.call (fun _ => none) (.assign memoryWrite 0x12345000#64 0x1000#64 p)

theorem oneWindow_run : ∃ r₀ r p page, BootTables r₀ mmuTopPage ∧ KernelTables r₀ kernelPages ∧
    translate r₀ mmuTopPage 0xffffffffc0000000#64 = .ok ⟨0x40000000#64, pageMapDepthMemory⟩ ∧
    UserRun mmuTopPage (clearMapLowerHalf r₀) r (oneWindow p)
      (Function.update (fun _ => none) p (some page)) := by
  obtain ⟨r₀, hb, hk, hcount, htr⟩ := bootMachine_ok
  obtain ⟨h₀, hf₀, -⟩ := hb.emptied
  have hfree := (hb.pmm.withPage hb.not_control zeroPage).2
  rcases pmmAllocatePage_spec h₀.topOk.pmm with ⟨hempty, -⟩ | ⟨p, s₁, htake, ha⟩
  · rw [hfree] at hempty
    simp [hempty] at hcount
  have hz := h₀.topOk.pmm.managed_ne_zero (h₀.topOk.pmm.free_subset_managed ha.was_free)
  have hstart : SpaceRun mmuTopPage (r₀.withPage r₀.cr3 zeroPage) (fun _ => none)
    (r₀.withPage r₀.cr3 zeroPage) (fun _ => none) (fun _ => none) := SpaceRun.start
  have hrun₁ := hstart.take htake hz
  have hcard := Finset.card_erase_add_one ha.was_free
  rw [← ha.free_eq, hfree] at hcard
  obtain ⟨s₂, hassign, -, -⟩ := hrun₁.window h₀ hf₀ pageRange_write (p := p) (by simp) memoryWrite
    (by omega)
  obtain ⟨T, out, hok⟩ := hrun₁.invariant h₀ hf₀
  have hT := hok.tablesOk
  have hadmitted := hok.admits pageRange_write (p := p) (by simp) memoryWrite
  have hlower : (MmuCall.assign memoryWrite 0x12345000#64 0x1000#64 p).range.1.toNat ∈ lowerHalf :=
    (by decide : (0x12345000#64).toNat < 2 ^ 47)
  -- the same two calls on the boot loader's tables
  have htake' := (pmmAllocatePage_carries h₀.topOk.elsewhere.not_control
    (u := r₀.mem r₀.cr3)).ok htake
  have hassign' := (mmuCall_carries (u := r₀.mem r₀.cr3) hT hok.follows hadmitted hlower).ok hassign
  rw [← clearMapLowerHalf_eq] at htake'
  have hreal := (UserRun.start.take htake' hz).call
    ⟨hadmitted.1.congr rfl, hadmitted.2⟩ hlower hassign'
  exact ⟨r₀, _, p, _, hb, hk, htr, hreal⟩

end Example

section Halves

variable {r₀ r : Machine} {top : MmuPageMapPart} {K : Nat → Set Physical} {m : FrameMap}
  {held : Held}

/-- From the clearing on the lower half is free for programs: each of its addresses leads to the page
that is mapped there, or nowhere, whatever the boot loader had there, and each page that a client
holds has in it what was last stored there. Calls on it return, unless no page is left for a table,
and the pages in use are those from before, the tables of the map and the pages that clients hold. -/
theorem user_half_follows_calls (hb : BootTables r₀ top)
    (h : UserRun top (clearMapLowerHalf r₀) r m held) :
    (∀ v : Uintptr, v.toNat ∈ lowerHalf →
      translate r top v = .ok (frameResult (m (pageOf v)))) ∧
    (∀ p page, held p = some page → r.mem p = page) ∧
    (∀ c, Admitted r top m c → c.range.1.toNat ∈ lowerHalf →
      (∃ r', mmuCall r top c = .ok r') ∨ mmuCall r top c = .error outOfTables ∧
        ∃ flags address size page, c = .assign flags address size page) ∧
    ∃ out : Finset Physical, (∀ p, p ∈ out ↔ held p ≠ none) ∧
      (usedPages r).card = (usedPages r₀).card + tableCount m + out.card := by
  obtain ⟨h₀, hf₀, hused₀⟩ := hb.emptied
  obtain ⟨s, hs, rfl⟩ := hb.run h
  obtain ⟨T, out, hok⟩ := hs.invariant h₀ hf₀
  have htop := hok.tablesOk.topOk
  refine ⟨?_, ?_, ?_, out, hok.mem_out, ?_⟩
  · intro v hv
    have hlow : v.toNat < 2 ^ 47 := hv
    have hcanon : mmuIsCanonicalAddress v = true := (canonical_iff v).mpr (by omega)
    exact (htop.overlay_translate hv).trans (hok.follows v hcanon)
  · intro p page hheld
    have hne : p ≠ r₀.cr3 := by
      rintro rfl
      have hman := hok.held_managed (p := r₀.cr3) (by simp [hheld])
      rw [(hs.untouched h₀ hf₀).managed_eq] at hman
      exact hb.not_managed hman
    rw [overlay_mem_ne hne]
    exact hok.contents p page hheld
  · intro c ha hlow
    have hcarry := mmuCall_carries (u := r₀.mem r₀.cr3) hok.tablesOk hok.follows ha.overlay hlow
    have hcall := hok.tablesOk.call hok.follows ha.overlay
    cases hrun : mmuCall s top c with
    | ok s' => exact Or.inl ⟨_, hcarry.ok hrun⟩
    | error e =>
      rw [hrun] at hcall
      obtain ⟨rfl, hassign⟩ := hcall
      exact Or.inr ⟨hcarry.error hrun, hassign⟩
  · have hcard := hok.card h₀ hf₀
    obtain ⟨-, hfree⟩ := htop.pmm.withPage htop.elsewhere.not_control
      (fun i => if i.val < 256 then s.mem r₀.cr3 i else r₀.mem r₀.cr3 i)
    have hover : usedPages (s.overlay r₀.cr3 (r₀.mem r₀.cr3)) = usedPages s := by
      rw [usedPages, usedPages, Machine.overlay, hfree]
      rfl
    rw [hused₀, tableCount_none, Nat.add_zero] at hcard
    rw [hover, hcard]

/-- A page is mapped and stored to, and beside it there is nothing. -/
theorem user_half_follows_calls_example : ∃ (r₀ r : Machine) (p : Physical) (held : Held),
    UserRun mmuTopPage (clearMapLowerHalf r₀) r (oneWindow p) held ∧ r.mem p 5 = 7#64 ∧
    translate r mmuTopPage 0x12345abc#64 = .ok ⟨p, pageMapDepthMemory⟩ ∧
    translate r mmuTopPage 0x98765abc#64 = .ok ⟨0#64, pageMapDepthInvalid⟩ := by
  obtain ⟨r₀, r, p, page, hb, -, -, hrun⟩ := oneWindow_run
  have hheld : (Function.update (fun _ => none) p (some page) : Held) p = some page := by simp
  have hstored := hrun.store (i := 5) (w := 7#64) hheld
  obtain ⟨hlookup, hcontents, -⟩ := user_half_follows_calls hb hstored
  have hmapped := hlookup 0x12345abc#64 (by decide : (0x12345abc#64).toNat < 2 ^ 47)
  have hother := hlookup 0x98765abc#64 (by decide : (0x98765abc#64).toNat < 2 ^ 47)
  have hmap : oneWindow p (pageOf 0x12345abc#64) = some p := by
    simp [oneWindow, FrameMap.call, pageOf, roundDownP2, pageSize]
  have hnone : oneWindow p (pageOf 0x98765abc#64) = none := by
    simp [oneWindow, FrameMap.call, pageOf, roundDownP2, pageSize]
  rw [hmap] at hmapped
  rw [hnone] at hother
  have hword := congrFun (hcontents p (Function.update page 5 7#64) (by simp)) 5
  exact ⟨r₀, _, p, _, hstored, hword.trans (Function.update_self 5 7#64 page), hmapped, hother⟩

/-- Whatever programs map, unmap and store below, the addresses of the higher half lead where the
boot loader had them lead, and memory outside the allocator's pages is as it was, but for the lower
half of the top table. -/
theorem kernel_half_stays (hb : BootTables r₀ top) (hk : KernelTables r₀ K)
    (h : UserRun top (clearMapLowerHalf r₀) r m held) :
    (∀ v : Uintptr, v.toNat ∈ higherHalf → translate r top v = translate r₀ top v) ∧
    (∀ i : Fin 512, 256 ≤ i.val → r.mem r₀.cr3 i = r₀.mem r₀.cr3 i) ∧
    ∀ q ∉ r₀.pmm.managedPages, q ∉ r₀.pmm.controlPages → q ≠ r₀.cr3 → r.mem q = r₀.mem q := by
  obtain ⟨h₀, hf₀, -⟩ := hb.emptied
  obtain ⟨s, hs, rfl⟩ := hb.run h
  have hkeep := hs.untouched h₀ hf₀
  have hpage : ∀ q ∉ r₀.pmm.managedPages, q ∉ r₀.pmm.controlPages → q ≠ r₀.cr3 →
      (s.overlay r₀.cr3 (r₀.mem r₀.cr3)).mem q = r₀.mem q := by
    intro q hm hc hne
    rw [overlay_mem_ne hne, hkeep.mem_eq q hm hc hne, withPage_mem_ne r₀ hne]
  have hup : ∀ i : Fin 512, 256 ≤ i.val →
      (s.overlay r₀.cr3 (r₀.mem r₀.cr3)).mem r₀.cr3 i = r₀.mem r₀.cr3 i := by
    intro i hi
    rw [overlay_mem_top, if_neg (Nat.not_lt.mpr hi)]
  refine ⟨?_, hup, hpage⟩
  intro v hv
  have hr : resolve (s.overlay r₀.cr3 (r₀.mem r₀.cr3)) top = ⟨r₀.cr3, 0⟩ := by
    have hr₀ := hb.resolved
    have hcr3 : s.cr3 = r₀.cr3 := hkeep.cr3_eq
    unfold resolve getCurrentPageMapTop at hr₀ ⊢
    rwa [overlay_cr3, hcr3]
  apply hk.translate_eq hb.resolved hr hb.aligned _ hup hv
  intro d p hp
  obtain ⟨hm, hc⟩ := hk.apart d p hp
  exact hpage p hm hc (hk.pages d p hp).2.2

/-- The kernel stays mapped by its huge page. -/
theorem kernel_half_stays_example : ∃ (r₀ r : Machine) (p : Physical) (held : Held),
    UserRun mmuTopPage (clearMapLowerHalf r₀) r (oneWindow p) held ∧
    translate r mmuTopPage 0xffffffffc0000000#64 = .ok ⟨0x40000000#64, pageMapDepthMemory⟩ := by
  obtain ⟨r₀, r, p, page, hb, hk, htr, hrun⟩ := oneWindow_run
  have hhigh : (0xffffffffc0000000#64 : Uintptr).toNat ∈ higherHalf :=
    ⟨(by decide : 2 ^ 64 - 2 ^ 47 ≤ (0xffffffffc0000000#64 : Uintptr).toNat),
      (by decide : (0xffffffffc0000000#64 : Uintptr).toNat < 2 ^ 64)⟩
  exact ⟨r₀, r, p, _, hrun, ((kernel_half_stays hb hk hrun).1 _ hhigh).trans htr⟩

end Halves

end Ukulele
