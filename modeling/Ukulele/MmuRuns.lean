import Ukulele.MmuEffects

/-! Runs of `mmu_assign` and `mmu_remove` below one top table, beside a map from virtual pages
to frames that the same calls update.
-/

set_option autoImplicit false

namespace Ukulele
open RadixTree

/-- What the page tables are for: the frame of a virtual page. -/
abbrev FrameMap := Uintptr → Option Physical

inductive MmuCall where
  | assign : BitVec 32 → Uintptr → Size → Physical → MmuCall
  | remove : Uintptr → Size → MmuCall

def MmuCall.range : MmuCall → Uintptr × Size
  | .assign _ address size _ => (address, size)
  | .remove address size => (address, size)

def FrameMap.call (m : FrameMap) : MmuCall → FrameMap
  | .assign _ address size page, u =>
    if address ≤ u ∧ u < address + size then some (page + (u - address)) else m u
  | .remove address size, u => if address ≤ u ∧ u < address + size then none else m u

def mmuCall (s : Machine) (top : MmuPageMapPart) : MmuCall → Except Fault Machine
  | .assign flags address size page => mmuAssign s top flags address size page
  | .remove address size => mmuRemove s top address size

/-- What the caller of `c` sees to: the checks pass, the range is below the last entry of the top
table, new frames are physical pages, and what is removed is mapped. -/
def Admitted (s : Machine) (top : MmuPageMapPart) (m : FrameMap) (c : MmuCall) : Prop :=
  EntryChecks s ⟨top, c.range.1, c.range.1 + c.range.2⟩ ∧
  c.range.1 + c.range.2 ≤ lastEntryStart ∧
  match c with
  | .assign _ _ size page => Aligned page ∧ page.toNat + size.toNat ≤ 2 ^ 52
  | .remove address size => ∀ v, InRange address size v → m (pageOf v) ≠ none

/-- The states and maps after any number of calls. -/
inductive MmuRun (top : MmuPageMapPart) (s₀ : Machine) (m₀ : FrameMap) :
    Machine → FrameMap → Prop where
  | start : MmuRun top s₀ m₀ s₀ m₀
  | call {s s' : Machine} {m : FrameMap} {c : MmuCall} (prior : MmuRun top s₀ m₀ s m)
      (ha : Admitted s top m c) (h : mmuCall s top c = .ok s') :
      MmuRun top s₀ m₀ s' (m.call c)

def frameResult (frame : Option Physical) : MmuPageMapPart :=
  match frame with
  | some p => ⟨p, pageMapDepthMemory⟩
  | none => ⟨0#64, pageMapDepthInvalid⟩

/-- The lookups find what the map says. -/
def Follows (s : Machine) (top : MmuPageMapPart) (m : FrameMap) : Prop :=
  ∀ v, mmuIsCanonicalAddress v = true → translate s top v = .ok (frameResult (m (pageOf v)))

/-- No table is empty, and all of them are pages in use. -/
structure TablesOk (s : Machine) (top : MmuPageMapPart) (t : Physical) (T : PageTree 3) : Prop where
  topOk : TopOk s top t T
  low : PmmLow s
  noEmpty : NoEmpty entryCoding 3 T
  used : tables T ⊆ usedPages s

section Calls

variable {s s' : Machine} {top : MmuPageMapPart} {t : Physical} {T T' : PageTree 3}
  {m : FrameMap} {address : Uintptr} {size : Size}

theorem TablesOk.step (h : TablesOk s top t T) (hstep : TreeStep s s' t T T')
    (htop : TopOk s' top t T') (hn : NoEmpty entryCoding 3 T') : TablesOk s' top t T' :=
  ⟨htop, h.low.congr hstep.managed_eq, hn, hstep.tables_used h.topOk.pmm h.used⟩

theorem EntryChecks.pageOf_iff (hc : EntryChecks s ⟨top, address, address + size⟩) {v : Uintptr}
    (hv : mmuIsCanonicalAddress v = true) :
    InRange address size v ↔ address ≤ pageOf v ∧ pageOf v < address + size := by
  obtain ⟨h₁, h₂, -⟩ := hc.toNat
  simp only at h₁ h₂
  have hof := toNat_pageOf v
  have hadd : ∀ x : Uintptr, address + size = x → x.toNat % 4096 = 0 →
      (v < x ↔ pageOf v < x) := by
    intro x _ hx
    rw [BitVec.lt_def, BitVec.lt_def, hof]
    omega
  unfold InRange
  rw [hadd _ rfl h₂, BitVec.le_def, BitVec.le_def, hof]
  constructor
  · rintro ⟨_, hlo, hhi⟩
    exact ⟨by omega, hhi⟩
  · rintro ⟨hlo, hhi⟩
    exact ⟨hv, by omega, hhi⟩

theorem covered_of_follows (h : TopOk s top t T) (hf : Follows s top m) {v : Uintptr}
    (hv : mmuIsCanonicalAddress v = true) (hm : m (pageOf v) ≠ none) :
    Covered 3 T (pageKey v) := by
  have htr := h.translate_eq v
  rw [hf v hv, Except.ok.injEq] at htr
  cases hget : get entryCoding 3 T (pageKey v) with
  | some w => exact covered_of_get entryCoding hget
  | none =>
    rw [hget] at htr
    cases hfr : m (pageOf v) with
    | none => exact absurd hfr hm
    | some p =>
      rw [hfr] at htr
      simp [frameResult, lookupResult, pageMapDepthMemory, pageMapDepthInvalid] at htr

theorem TablesOk.assign (h : TablesOk s top t T) (hf : Follows s top m) {flags : BitVec 32}
    {page : Physical} (ha : Admitted s top m (.assign flags address size page)) :
    Outcome (fun e => e = outOfTables)
      (fun s' => ∃ T', TablesOk s' top t T' ∧ TreeStep s s' t T T' ∧
        Follows s' top (m.call (.assign flags address size page)))
      (mmuAssign s top flags address size page) := by
  obtain ⟨hc, hend, hpage, hfit⟩ := ha
  simp only [MmuCall.range] at hc hend
  apply (mmuAssign_assigned h.topOk h.low hc hend flags page).mono (fun e he => he)
  intro s' ⟨T₁, f, hr, hs⟩
  refine ⟨_, h.step hs.step hs.topOk (hs.noEmpty h.noEmpty), hs.step, ?_⟩
  intro v hv
  rw [hs.translate_eq v hv]
  by_cases hin : InRange address size v
  · rw [if_pos hin, hc.frame_eq hin hpage hfit, FrameMap.call, if_pos ((hc.pageOf_iff hv).mp hin)]
    rfl
  · rw [if_neg hin, hf v hv, FrameMap.call, if_neg (fun hk => hin ((hc.pageOf_iff hv).mpr hk))]

theorem TablesOk.remove (h : TablesOk s top t T) (hf : Follows s top m)
    (ha : Admitted s top m (.remove address size)) :
    ∃ s', mmuRemove s top address size = .ok s' ∧
      ∃ T', TablesOk s' top t T' ∧ TreeStep s s' t T T' ∧
        Follows s' top (m.call (.remove address size)) := by
  obtain ⟨hc, hend, hmapped⟩ := ha
  simp only [MmuCall.range] at hc hend
  have hcov : ∀ k, pageKey address ≤ k → k < pageKey (address + size) → Covered 3 T k := by
    intro k hlo hhi
    obtain ⟨v, hv, rfl⟩ := hc.exists_address hlo hhi
    exact covered_of_follows h.topOk hf hv.1 (hmapped v hv)
  have hman : ∀ p ∈ tables T,
      p ∉ tables (removed T (pageKey address) (pageKey (address + size))) →
      p ∈ s.pmm.managedPages := fun p hp _ => (Finset.mem_sdiff.mp (h.used hp)).1
  obtain ⟨s', hrun, hs⟩ := mmuRemove_removed h.topOk hc hend hcov hman
  refine ⟨s', hrun, _, h.step hs.step hs.topOk (h.noEmpty.prune_setRange entryCoding _),
    hs.step, ?_⟩
  intro v hv
  rw [hs.translate_eq v hv]
  by_cases hin : InRange address size v
  · rw [if_pos hin, FrameMap.call, if_pos ((hc.pageOf_iff hv).mp hin)]
    rfl
  · rw [if_neg hin, hf v hv, FrameMap.call, if_neg (fun hk => hin ((hc.pageOf_iff hv).mpr hk))]

theorem TablesOk.call (h : TablesOk s top t T) (hf : Follows s top m) {c : MmuCall}
    (ha : Admitted s top m c) :
    Outcome (fun e => e = outOfTables ∧ ∃ flags address size page,
        c = .assign flags address size page)
      (fun s' => ∃ T', TablesOk s' top t T' ∧ TreeStep s s' t T T' ∧ Follows s' top (m.call c))
      (mmuCall s top c) := by
  cases c with
  | assign flags address size page =>
    exact (h.assign hf ha).mono (fun e he => ⟨he, flags, address, size, page, rfl⟩)
      (fun s' hs => hs)
  | remove address size =>
    obtain ⟨s', hrun, hs⟩ := h.remove hf ha
    exact Outcome.of_eq hrun hs

theorem TablesOk.card_eq {s₀ : Machine} {T₀ : PageTree 3} (h : TablesOk s top t T)
    (h₀ : TablesOk s₀ top t T₀)
    (he : usedPages s \ tables T = usedPages s₀ \ tables T₀) :
    (usedPages s).card + (tables T₀).card = (usedPages s₀).card + (tables T).card := by
  have hcard := congrArg Finset.card he
  rw [Finset.card_sdiff_of_subset h.used, Finset.card_sdiff_of_subset h₀.used] at hcard
  have hle := Finset.card_le_card h.used
  have hle₀ := Finset.card_le_card h₀.used
  omega

theorem MmuRun.invariant {s₀ : Machine} {m₀ : FrameMap} {T₀ : PageTree 3}
    (h : MmuRun top s₀ m₀ s m) (h₀ : TablesOk s₀ top t T₀) (hf₀ : Follows s₀ top m₀) :
    ∃ T, TablesOk s top t T ∧ Follows s top m ∧
      usedPages s \ tables T = usedPages s₀ \ tables T₀ := by
  induction h with
  | start => exact ⟨T₀, h₀, hf₀, rfl⟩
  | call prior ha h ih =>
    obtain ⟨T, hT, hf, hused⟩ := ih
    obtain ⟨T', hT', hstep, hf'⟩ := (hT.call hf ha).of_ok h
    exact ⟨T', hT', hf', hstep.used_sdiff.trans hused⟩

/-- After every run the lookups agree with the map, the tables are distinct pages in use of which
none is empty, and their number accounts for the pages taken; and every further call returns,
unless it finds no page for a table. -/
theorem mmu_calls_follow_map {s₀ : Machine} {m₀ : FrameMap} {T₀ : PageTree 3}
    (h : MmuRun top s₀ m₀ s m) (h₀ : TablesOk s₀ top t T₀) (hf₀ : Follows s₀ top m₀) :
    Follows s top m ∧
    (∃ T, TopOk s top t T ∧ NoEmpty entryCoding 3 T ∧ tables T ⊆ usedPages s ∧
      (usedPages s).card + (tables T₀).card = (usedPages s₀).card + (tables T).card) ∧
    ∀ c, Admitted s top m c → (∃ s', mmuCall s top c = .ok s') ∨
      mmuCall s top c = .error outOfTables ∧
        ∃ flags address size page, c = .assign flags address size page := by
  obtain ⟨T, hT, hf, hused⟩ := h.invariant h₀ hf₀
  refine ⟨hf, ⟨T, hT.topOk, hT.noEmpty, hT.used, hT.card_eq h₀ hused⟩, ?_⟩
  intro c ha
  have hcall := hT.call hf ha
  cases hrun : mmuCall s top c with
  | ok s' => exact Or.inl ⟨s', rfl⟩
  | error e =>
    rw [hrun] at hcall
    obtain ⟨he, hassign⟩ := hcall
    exact Or.inr ⟨congrArg Except.error he, hassign⟩

theorem mmu_calls_follow_map_example : ∃ s₀ s m T,
    MmuRun exampleTop s₀ (fun _ => none) s m ∧ m 0x8000000000#64 = some 0x9000#64 ∧
    translate s exampleTop 0x7fffffeabc#64 = .ok ⟨0x7000#64, pageMapDepthMemory⟩ ∧
    translate s exampleTop 0x8000001abc#64 = .ok ⟨0xa000#64, pageMapDepthMemory⟩ ∧
    TopOk s exampleTop 0x5000#64 T ∧ (usedPages s).card = (usedPages s₀).card + (tables T).card ∧
    ∃ s', mmuRemove s exampleTop 0x7fffffe000#64 0x4000#64 = .ok s' := by
  obtain ⟨s₀, s, htop, hok, hrun⟩ := exampleSpread_mapped
  have hnone : tables (blank 0#64 3 : PageTree 3) = ∅ := pages_blank entryCoding not_present_zero
  have h₀ : TablesOk s₀ exampleTop 0x5000#64 (blank 0#64 3) := by
    refine ⟨htop, hok.low (by decide), noEmpty_blank entryCoding, ?_⟩
    rw [hnone]
    exact Finset.empty_subset _
  have hf₀ : Follows s₀ exampleTop (fun _ => none) := by
    intro v _
    rw [htop.translate_eq, get_empty entryCoding (empty_blank entryCoding not_present_zero)]
    rfl
  let c : MmuCall := .assign memoryWrite 0x7fffffe000#64 0x4000#64 0x7000#64
  have hassign : Admitted s₀ exampleTop (fun _ => none) c :=
    ⟨exampleSpread_checks htop, by decide, by decide, by decide⟩
  have hr := MmuRun.start.call hassign hrun
  obtain ⟨hf, ⟨T, hT, _, _, hcard⟩, hnext⟩ := mmu_calls_follow_map hr h₀ hf₀
  rw [hnone, Finset.card_empty, Nat.add_zero] at hcard
  have hremove : Admitted s exampleTop (FrameMap.call (fun _ => none) c)
      (.remove 0x7fffffe000#64 0x4000#64) := by
    refine ⟨exampleSpread_checks hT, by decide, ?_⟩
    intro v hv
    rw [FrameMap.call, if_pos (((exampleSpread_checks hT).pageOf_iff hv.1).mp hv)]
    exact Option.some_ne_none _
  refine ⟨s₀, s, _, T, hr, by decide, ?_, ?_, hT, hcard, ?_⟩
  · rw [hf _ (by decide)]
    decide
  · rw [hf _ (by decide)]
    decide
  · cases hnext _ hremove with
    | inl hs => exact hs
    | inr he =>
      obtain ⟨_, flags, address, size, page, heq⟩ := he
      contradiction

end Calls

end Ukulele
