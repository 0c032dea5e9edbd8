import Ukulele.PmmHandout

/-! The memory map at boot: which ranges the allocator gets, and what the printed counts say.
-/

set_option autoImplicit false

namespace Ukulele

inductive LimineMemmapType where
  | usable
  | reserved
  | acpiReclaimable
  | acpiNvs
  | badMemory
  | bootloaderReclaimable
  | kernelAndModules
  | framebuffer
  deriving DecidableEq, Repr

structure LimineMemmapEntry where
  base : Physical
  length : Size
  type : LimineMemmapType
  deriving DecidableEq, Repr

/-- `largestAddr` has no value before the first range of some length. -/
structure Meminfo where
  freeMemory : Size
  reclaimable : Size
  largestAddr : Option Physical
  largestSize : Size
  deriving DecidableEq, Repr

def Meminfo.start : Meminfo := ⟨0#64, 0#64, none, 0#64⟩

def Meminfo.usable (info : Meminfo) (mem : LimineMemmapEntry) : Meminfo :=
  { info with
    freeMemory := info.freeMemory + mem.length
    largestAddr := if info.largestSize < mem.length then some mem.base else info.largestAddr
    largestSize := if info.largestSize < mem.length then mem.length else info.largestSize }

def Meminfo.reclaim (info : Meminfo) (mem : LimineMemmapEntry) : Meminfo :=
  { info with reclaimable := info.reclaimable + mem.length }

def meminfoEntry (s : Machine) (info : Meminfo) (mem : LimineMemmapEntry) :
    Except Fault (Machine × Meminfo) := do
  let s ← if mem.type = .usable then pmmAdd s mem.base mem.length else .ok s
  let info := if mem.type = .usable then info.usable mem else info
  let info := if mem.type = .bootloaderReclaimable then info.reclaim mem else info
  return (s, info)

def meminfoEntries (s : Machine) (info : Meminfo) :
    List LimineMemmapEntry → Except Fault (Machine × Meminfo)
  | [] => .ok (s, info)
  | mem :: entries => do
    let (s, info) ← meminfoEntry s info mem
    meminfoEntries s info entries

/-- `print_meminfo`: the machine that it leaves, and the numbers that it prints. The source counts the
entries in an `int`, which holds every number below `2 ^ 31` of them. -/
def printMeminfo (rwpmmpg : Physical) (mem : Memory) (cr3 : Physical)
    (entries : List LimineMemmapEntry) : Except Fault (Machine × Meminfo × PmmStat) := do
  let pmm ← pmmNew rwpmmpg
  let (s, info) ← meminfoEntries ⟨mem, pmm, cr3⟩ Meminfo.start entries
  return (s, info, pmmCountPages s.pmm)

def LimineMemmapEntry.range (mem : LimineMemmapEntry) : PmmRange := ⟨mem.base, mem.length⟩

def usableRanges (entries : List LimineMemmapEntry) : List PmmRange :=
  (entries.filter fun mem => decide (mem.type = .usable)).map LimineMemmapEntry.range

/-- The printed range is the first of the longest, if one has any length. -/
structure Meminfo.Counts (info : Meminfo) (R : List PmmRange) : Prop where
  free : info.freeMemory.toNat = (R.map fun r => r.size.toNat).sum % 2 ^ 64
  longest : ∀ r ∈ R, r.size ≤ info.largestSize
  first : (info.largestAddr = none ∧ info.largestSize = 0#64) ∨
    ∃ before t after, R = before ++ t :: after ∧ info.largestAddr = some t.start ∧
      info.largestSize = t.size ∧ ∀ r ∈ before, r.size < t.size

@[simp] theorem usableRanges_nil : usableRanges [] = [] := rfl

theorem usableRanges_cons_usable {mem : LimineMemmapEntry} (h : mem.type = .usable)
    (entries : List LimineMemmapEntry) :
    usableRanges (mem :: entries) = mem.range :: usableRanges entries := by
  simp [usableRanges, h]

theorem usableRanges_cons_other {mem : LimineMemmapEntry} (h : mem.type ≠ .usable)
    (entries : List LimineMemmapEntry) :
    usableRanges (mem :: entries) = usableRanges entries := by
  simp [usableRanges, h]

theorem meminfoEntry_usable {s t : Machine} {mem : LimineMemmapEntry} (h : mem.type = .usable)
    (hadd : pmmAdd s mem.base mem.length = .ok t) (info : Meminfo) :
    meminfoEntry s info mem = .ok (t, info.usable mem) := by
  simp [meminfoEntry, h, hadd, bind, Except.bind, pure, Except.pure]

theorem meminfoEntry_other {mem : LimineMemmapEntry} (h : mem.type ≠ .usable) (s : Machine)
    {info : Meminfo} {R : List PmmRange} (hinfo : info.Counts R) :
    ∃ info', meminfoEntry s info mem = .ok (s, info') ∧ info'.Counts R := by
  by_cases hr : mem.type = .bootloaderReclaimable
  · exact ⟨info.reclaim mem, by simp [meminfoEntry, hr, bind, Except.bind, pure, Except.pure],
      hinfo.free, hinfo.longest, hinfo.first⟩
  · exact ⟨info, by simp [meminfoEntry, h, hr, bind, Except.bind, pure, Except.pure], hinfo⟩

theorem Meminfo.counts_start : Meminfo.start.Counts [] :=
  ⟨rfl, by simp, Or.inl ⟨rfl, rfl⟩⟩

theorem Meminfo.Counts.usable {info : Meminfo} {R : List PmmRange} (h : info.Counts R)
    (mem : LimineMemmapEntry) : (info.usable mem).Counts (R ++ [mem.range]) := by
  have hfree : (info.usable mem).freeMemory.toNat =
      ((R ++ [mem.range]).map fun r => r.size.toNat).sum % 2 ^ 64 := by
    simp [Meminfo.usable, LimineMemmapEntry.range, h.free]
  by_cases hlt : info.largestSize < mem.length
  · have hall : ∀ r ∈ R, r.size < mem.length :=
      fun r hr => Std.lt_of_le_of_lt (h.longest r hr) hlt
    refine ⟨hfree, ?_, Or.inr ⟨R, mem.range, [], rfl, ?_, ?_, hall⟩⟩
    · intro r hr
      simp only [Meminfo.usable, hlt, if_true]
      rcases List.mem_append.mp hr with hr | hr
      · exact BitVec.le_of_lt (hall r hr)
      · rw [List.mem_singleton.mp hr]
        exact BitVec.le_refl _
    · simp [Meminfo.usable, hlt, LimineMemmapEntry.range]
    · simp [Meminfo.usable, hlt, LimineMemmapEntry.range]
  · refine ⟨hfree, ?_, ?_⟩
    · intro r hr
      simp only [Meminfo.usable, hlt, if_false]
      rcases List.mem_append.mp hr with hr | hr
      · exact h.longest r hr
      · rw [List.mem_singleton.mp hr]
        exact BitVec.not_lt.mp hlt
    · simp only [Meminfo.usable, hlt, if_false]
      rcases h.first with hnone | ⟨before, t, after, rfl, haddr, hsize, hbefore⟩
      · exact Or.inl hnone
      · exact Or.inr ⟨before, t, after ++ [mem.range], by simp, haddr, hsize, hbefore⟩

/-- What the boot loader sees to: usable ranges start at pages, end in the address space, and do not
overlap. -/
structure UsableApart (entries : List LimineMemmapEntry) : Prop where
  aligned : ∀ r ∈ usableRanges entries, Aligned r.start
  fits : ∀ r ∈ usableRanges entries, r.stop ≤ 2 ^ 64
  apart : (usableRanges entries).Pairwise PmmRange.Disjoint

theorem PmmRange.Disjoint.symm {r t : PmmRange} (h : r.Disjoint t) : t.Disjoint r := Or.symm h

theorem meminfoEntries_run {entries : List LimineMemmapEntry} (h : UsableApart entries)
    {s : Machine} {R : List PmmRange} (hrun : PmmRun s R ∅)
    (hR : ∀ r ∈ usableRanges entries, ∀ t ∈ R, r.Disjoint t) {info : Meminfo}
    (hinfo : info.Counts R.reverse) :
    ∃ s' info', meminfoEntries s info entries = .ok (s', info') ∧
      PmmRun s' ((usableRanges entries).reverse ++ R) ∅ ∧
      info'.Counts (R.reverse ++ usableRanges entries) := by
  induction entries generalizing s R info with
  | nil => exact ⟨s, info, rfl, by simpa using hrun, by simpa using hinfo⟩
  | cons mem entries ih =>
    by_cases hu : mem.type = .usable
    · have hcons := usableRanges_cons_usable hu entries
      obtain ⟨haligned, hfits, hapart⟩ := h
      rw [hcons] at haligned hfits hapart hR
      obtain ⟨ha, haligned⟩ := List.forall_mem_cons.mp haligned
      obtain ⟨hf, hfits⟩ := List.forall_mem_cons.mp hfits
      obtain ⟨hone, hapart⟩ := List.pairwise_cons.mp hapart
      obtain ⟨hmem, hR⟩ := List.forall_mem_cons.mp hR
      obtain ⟨t, ht, -⟩ := @pmmAdd_placed s mem.range.start mem.range.size ha hf
      have hadd := PmmRun.add mem.range hrun hf hmem ht
      have hnext : ∀ r ∈ usableRanges entries, ∀ u ∈ mem.range :: R, r.Disjoint u := by
        intro r hr u hu
        rcases List.mem_cons.mp hu with rfl | hu
        · exact (hone r hr).symm
        · exact hR r hr u hu
      have hcounts := hinfo.usable mem
      rw [← List.reverse_cons] at hcounts
      obtain ⟨s', info', hrest, hlast, hall⟩ := ih ⟨haligned, hfits, hapart⟩ hadd hnext hcounts
      refine ⟨s', info', ?_, ?_, ?_⟩
      · have hstep := meminfoEntry_usable hu ht info
        simp [meminfoEntries, hstep, hrest, bind, Except.bind]
      · rw [hcons]
        simpa using hlast
      · rw [hcons]
        simpa using hall
    · have hcons := usableRanges_cons_other hu entries
      obtain ⟨haligned, hfits, hapart⟩ := h
      rw [hcons] at haligned hfits hapart hR
      obtain ⟨info₁, hstep, hcounts⟩ := meminfoEntry_other hu s hinfo
      obtain ⟨s', info', hrest, hlast, hall⟩ := ih ⟨haligned, hfits, hapart⟩ hrun hR hcounts
      rw [hcons]
      exact ⟨s', info', by simp [meminfoEntries, hstep, hrest, bind, Except.bind], hlast, hall⟩

theorem PmmStat.addEntry_free (stat : PmmStat) (p : PmmCtrlPtr)
    (hb : stat.free.toNat + 65536 < 2 ^ 64) :
    (stat.addEntry p).free.toNat =
      stat.free.toNat + if p.active then p.freePages.toNat else 0 := by
  have hmax := p.freePages.isLt
  cases ha : p.active with
  | false => simp [PmmStat.addEntry, ha]
  | true =>
    simp only [PmmStat.addEntry, ha, if_true, BitVec.toNat_add, BitVec.toNat_setWidth]
    omega

theorem count_foldl_free (pmm : Pmm) (is : List (Fin 168)) (stat : PmmStat)
    (hb : stat.free.toNat + 65536 * is.length < 2 ^ 64) :
    (is.foldl (fun stat i => stat.addEntry (pmm.entry i)) stat).free.toNat =
      stat.free.toNat + (is.map fun i => if (pmm.entry i).active then
        (pmm.entry i).freePages.toNat else 0).sum := by
  induction is generalizing stat with
  | nil => simp
  | cons i is ih =>
    have hmax := (pmm.entry i).freePages.isLt
    rw [List.length_cons, Nat.mul_succ] at hb
    have hone := stat.addEntry_free (pmm.entry i)
      (Nat.lt_of_le_of_lt (Nat.add_le_add_left (Nat.le_add_left _ _) _) hb)
    have hle : (if (pmm.entry i).active then (pmm.entry i).freePages.toNat else 0) ≤ 65536 := by
      split <;> omega
    rw [List.foldl_cons, ih _ (by omega), hone, List.map_cons, List.sum_cons, Nat.add_assoc]

theorem freePages_card {s : Machine} (h : PmmOk s) : (freePages s).card =
    ∑ i ∈ s.pmm.activeEntries, (s.pmm.entry i).freePages.toNat := by
  rw [freePages, Finset.card_biUnion]
  · apply Finset.sum_congr rfl
    intro i hi
    have hb := h.block i (mem_activeEntries.mp hi)
    rw [Finset.card_image_of_injOn, hb.count]
    intro k hk l hl he
    exact hb.pageAt_inj (hb.bits_lt k hk) (hb.bits_lt l hl) he
  · intro i hi j hj hij
    rw [Finset.mem_coe, mem_activeEntries] at hi hj
    rw [Function.onFun, Finset.disjoint_left]
    intro p hp hq
    obtain ⟨k, hk, rfl⟩ := Finset.mem_image.mp hp
    obtain ⟨l, hl, he⟩ := Finset.mem_image.mp hq
    exact hij (h.pageAt_unique hi hj ((h.block i hi).bits_lt k hk)
      ((h.block j hj).bits_lt l hl) he.symm).1

theorem pmmCountPages_free {s : Machine} (h : PmmOk s) :
    (pmmCountPages s.pmm).free.toNat = (freePages s).card := by
  rw [pmmCountPages, count_foldl_free _ _ _ (by simp), freePages_card h, Pmm.activeEntries,
    Finset.sum_filter, ← List.ofFn_eq_map, List.sum_ofFn]
  simp

theorem PmmOk.idle_length {s : Machine} (h : PmmOk s) :
    (idle s.pmm.orderedPages (usedPages s)).length = (freePages s).card := by
  rw [← List.toFinset_card_of_nodup (idle_nodup h.orderedPages_nodup _)]
  congr 1
  ext p
  rw [List.mem_toFinset, mem_idle, Pmm.mem_orderedPages, usedPages, Finset.mem_sdiff]
  constructor
  · intro hp
    by_contra hn
    exact hp.2 ⟨hp.1, hn⟩
  · intro hp
    exact ⟨h.free_subset_managed hp, fun hu => hu.2 hp⟩

/-- The free count is how many pages can still be taken: so many calls return pages, all different,
and the next one returns none. -/
def CountsFree (stat : PmmStat) (s : Machine) : Prop :=
  ∃ pages t, allocatePages stat.free.toNat s = .ok (pages, t) ∧ pages.Nodup ∧
    pages.length = stat.free.toNat ∧ 0#64 ∉ pages ∧ pmmAllocatePage t = .ok (0#64, t)

theorem PmmRun.countsFree {s : Machine} {R : List PmmRange} {L : Finset Physical}
    (h : PmmRun s R L) : CountsFree (pmmCountPages s.pmm) s := by
  have hi := h.invariant
  have hlen := hi.ok.idle_length
  rw [← pmmCountPages_free hi.ok, hi.live] at hlen
  obtain ⟨t, ht, hrun⟩ := allocatePages_spec h (pmmCountPages s.pmm).free.toNat
  have hall : (idle s.pmm.orderedPages L).take (pmmCountPages s.pmm).free.toNat =
      idle s.pmm.orderedPages L := by
    rw [← hlen, List.take_length]
  rw [hall, hlen, Nat.sub_self, List.replicate_zero, List.append_nil] at ht
  rw [hall] at hrun
  refine ⟨_, t, ht, idle_nodup hi.ok.orderedPages_nodup L, hlen, ?_, ?_⟩
  · intro hz
    rw [mem_idle, Pmm.mem_orderedPages] at hz
    exact hi.ok.managed_ne_zero hz.1 rfl
  · have hfilled := hrun.filled.orderedPages.trans h.filled.orderedPages.symm
    apply hrun.invariant.ok.idle_nil
    rw [hrun.invariant.live, hfilled, List.eq_nil_iff_forall_not_mem]
    intro p hp
    rw [mem_idle, Finset.mem_union, not_or] at hp
    exact hp.2.2 (List.mem_toFinset.mpr (mem_idle.mpr ⟨hp.1, hp.2.1⟩))

/-- For every memory map of a boot loader, the boot adds the usable ranges to the allocator and
prints right numbers: how much memory is usable, the first of the longest usable ranges, and how
many pages there are to take. -/
theorem print_meminfo_counts {rwpmmpg : Physical} (ha : Aligned rwpmmpg)
    {entries : List LimineMemmapEntry} (h : UsableApart entries) (mem : Memory) (cr3 : Physical) :
    ∃ s info stat, printMeminfo rwpmmpg mem cr3 entries = .ok (s, info, stat) ∧
      PmmRun s (usableRanges entries).reverse ∅ ∧ info.Counts (usableRanges entries) ∧
      stat.used = 0#64 ∧ CountsFree stat s ∧
      stat.free.toNat = (plannedPages (usableRanges entries).reverse).length ∧
      stat.total.toNat = stat.free.toNat + stat.overhead.toNat := by
  have hnew : pmmNew rwpmmpg = .ok ⟨fun _ => emptyEntry⟩ := by
    simp [pmmNew, requirePageAligned_ok ha, bind, Except.bind, pure, Except.pure]
  obtain ⟨s, info, hrun, hlast, hinfo⟩ := meminfoEntries_run h (PmmRun.new mem cr3 hnew)
    (by simp) Meminfo.counts_start
  rw [List.append_nil] at hlast
  rw [List.reverse_nil, List.nil_append] at hinfo
  have hi := hlast.invariant
  have hcount := pmmCountPages_spec hi.ok
  rw [hi.live, Finset.card_empty] at hcount
  have hlen := hi.ok.idle_length
  rw [hi.live, hlast.filled.orderedPages] at hlen
  refine ⟨s, info, pmmCountPages s.pmm, ?_, hlast, hinfo, ?_, hlast.countsFree, ?_, ?_⟩
  · simp [printMeminfo, hnew, hrun, bind, Except.bind, pure, Except.pure]
  · exact BitVec.eq_of_toNat_eq (by simpa using hcount.1)
  · rw [pmmCountPages_free hi.ok, ← hlen]
    simp [idle]
  · omega

def exampleEntries : List LimineMemmapEntry :=
  [⟨0x0#64, 0x1000#64, .reserved⟩, ⟨0x100000#64, 0x40000#64, .usable⟩,
    ⟨0x140000#64, 0x1000#64, .kernelAndModules⟩, ⟨0x141000#64, 0x50000#64, .usable⟩,
    ⟨0x191000#64, 0x2000#64, .bootloaderReclaimable⟩]

/-- Two usable ranges of 64 and 80 pages; each loses one to its control block. -/
theorem print_meminfo_counts_example : ∃ s info stat,
    printMeminfo 0x1000#64 (fun _ => zeroPage) 0#64 exampleEntries = .ok (s, info, stat) ∧
    stat.free.toNat = 142 ∧ CountsFree stat s := by
  have hapart : UsableApart exampleEntries := by
    refine ⟨by decide, by decide, ?_⟩
    simp [exampleEntries, usableRanges, LimineMemmapEntry.range, PmmRange.Disjoint, PmmRange.stop]
  have hplan : (plannedPages (usableRanges exampleEntries).reverse).length = 142 := by
    decide +kernel
  have haligned : Aligned 0x1000#64 := by decide
  obtain ⟨s, info, stat, hrun, -, -, -, hfree, hlen, -⟩ :=
    print_meminfo_counts haligned hapart (fun _ => zeroPage) 0#64
  exact ⟨s, info, stat, hrun, hlen.trans hplan, hfree⟩

end Ukulele
