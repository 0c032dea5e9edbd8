import Ukulele.Machine
import Ukulele.Bitset

/-! The physical memory manager. One descriptor for each block; the first page of a
block is its control block, a bitset of the free pages after it.
-/

set_option autoImplicit false

namespace Ukulele

/-- `ctrl` is kept as the physical page behind the pointer of the source. -/
structure PmmCtrlPtr where
  physicalStart : Physical
  ctrl : Physical
  maxPages : BitVec 16
  freePages : BitVec 16
  active : Bool
  deriving DecidableEq, Repr

structure Pmm where
  entry : Fin 168 → PmmCtrlPtr

/-- What the memory code shares: physical memory, the allocator that manages it and
the control register that names the current top page table. -/
structure Machine where
  mem : Memory
  pmm : Pmm
  cr3 : Physical

def minBlockSizeBytes : Size := 64#64 * pageSize
def maxBlockSizeBytes : Size := (512#64 * 64#64) * pageSize

def emptyEntry : PmmCtrlPtr := ⟨0#64, 0#64, 0#16, 0#16, false⟩

def pmmNew (controlPage : Physical) : Except Fault Pmm := do
  requirePageAligned controlPage
  return ⟨fun _ => emptyEntry⟩

def pmmCtrlInitialise (mem : Memory) (ctrl : Physical) (pages : BitVec 16) :
    Except Fault Memory := do
  requirePageAligned ctrl
  let fullEntries := pages.toNat / 64
  let extraBits := pages.toNat % 64
  if 512 < fullEntries then .error (.indexOutOfBounds 512)
  let blk : RawPage := fun i => if i.val < fullEntries then BitVec.allOnes 64 else 0#64
  if extraBits = 0 then return Function.update mem ctrl blk
  let j ← entryIndex fullEntries
  let last := BitVec.allOnes 64 >>> (64 - extraBits)
  return Function.update mem ctrl (Function.update blk j last)

def pmmSetupEntry (s : Machine) (i : Fin 168) (start : Physical) (size : Size) :
    Except Fault Machine := do
  -- First page becomes control block
  let ctrl := start
  let start := start + pageSize
  let size := size - pageSize
  let pages := (size / pageSize).setWidth 16
  let mem ← pmmCtrlInitialise s.mem ctrl pages
  let p : PmmCtrlPtr := ⟨start, ctrl, pages, pages, true⟩
  return { s with mem := mem, pmm := ⟨Function.update s.pmm.entry i p⟩ }

def splitBlock (size : Size) : Size × Size :=
  if maxBlockSizeBytes < size then (maxBlockSizeBytes, size - maxBlockSizeBytes)
  else (size, 0#64)

def inactiveEntry (pmm : Pmm) : Option (Fin 168) :=
  (List.finRange 168).find? (fun i => !(pmm.entry i).active)

theorem splitBlock_remaining_lt {size : Size} (h : (splitBlock size).2 ≠ 0#64) :
    (splitBlock size).2.toNat < size.toNat := by
  unfold splitBlock at h ⊢
  split at h
  · rename_i hlt
    rw [if_pos hlt]
    have hm : maxBlockSizeBytes.toNat = 134217728 := by decide
    have hl := BitVec.lt_def.mp hlt
    simp only [BitVec.toNat_sub]
    omega
  · exact absurd rfl h

theorem toNat_roundDown (val : BitVec 64) :
    (roundDown val pageSize).toNat = val.toNat / 4096 * 4096 := by
  have hv := val.isLt
  have hp : pageSize.toNat = 4096 := by decide
  rw [roundDown, BitVec.toNat_mul, BitVec.toNat_udiv, hp]
  omega

def pmmAdd (s : Machine) (start : Physical) (size : Size) : Except Fault Machine :=
  match requirePageAligned start with
  | .error e => .error e
  | .ok () =>
    let whole := roundDown size pageSize
    -- "too small"
    if whole < minBlockSizeBytes then .ok s
    else
      match inactiveEntry s.pmm with
      -- "out of resources"
      | none => .ok s
      | some i =>
        match pmmSetupEntry s i start (splitBlock whole).1 with
        | .error e => .error e
        | .ok s =>
          if _h : (splitBlock whole).2 ≠ 0#64 then
            pmmAdd s (start + (splitBlock whole).1) (splitBlock whole).2
          else .ok s
termination_by size.toNat
decreasing_by
  have hr := toNat_roundDown size
  have hs : _ < (roundDown size pageSize).toNat := splitBlock_remaining_lt _h
  exact Nat.lt_of_lt_of_le hs (by omega)

def pmmCtrlAlloc (blk : RawPage) : Except Fault (BitVec 16 × RawPage) :=
  match Bitset.firstWord blk with
  | some i =>
    let bit := (blk i).ctz.toNat
    .ok (BitVec.ofNat 16 (64 * i.val + bit), Bitset.clear blk i bit)
  | none => .error .shouldHaveSpace

def spaceEntry (pmm : Pmm) : Option (Fin 168) :=
  (List.finRange 168).find?
    (fun i => (pmm.entry i).active && decide ((pmm.entry i).freePages ≠ 0#16))

def pmmAllocatePage (s : Machine) : Except Fault (Physical × Machine) :=
  match spaceEntry s.pmm with
  | some i => do
    let p := s.pmm.entry i
    let (idx, blk) ← pmmCtrlAlloc (s.mem p.ctrl)
    let q := { p with freePages := p.freePages - 1#16 }
    return (p.physicalStart + pageSize * idx.setWidth 64,
      { s with mem := Function.update s.mem p.ctrl blk,
               pmm := ⟨Function.update s.pmm.entry i q⟩ })
  | none => .ok (0#64, s)

def owningEntry (pmm : Pmm) (physical : Physical) : Option (Fin 168) :=
  (List.finRange 168).find? (fun i =>
    let p := pmm.entry i
    p.active && decide (p.physicalStart ≤ physical) &&
      decide (physical < p.physicalStart + pageSize * p.maxPages.setWidth 64))

def pmmFreePage (s : Machine) (physical : Physical) : Except Fault Machine :=
  if physical = 0#64 then .ok s
  else
    match owningEntry s.pmm physical with
    | some i => do
      let p := s.pmm.entry i
      let pageindex := ((physical - p.physicalStart) / pageSize).toNat
      let entry ← entryIndex (pageindex / 64 : Nat)
      let bit := pageindex % 64
      if s.mem p.ctrl entry &&& (1#64 <<< bit) ≠ 0#64 then .error (.doubleFree physical)
      let q := { p with freePages := p.freePages + 1#16 }
      return { s with
        mem := Function.update s.mem p.ctrl (Bitset.insert (s.mem p.ctrl) entry bit),
        pmm := ⟨Function.update s.pmm.entry i q⟩ }
    | none => .error (.badFree physical)

structure PmmStat where
  free : Size
  total : Size
  used : Size
  overhead : Size
  deriving DecidableEq, Repr

def PmmStat.addEntry (stat : PmmStat) (p : PmmCtrlPtr) : PmmStat :=
  if p.active then
    { overhead := stat.overhead + 1#64
      free := stat.free + p.freePages.setWidth 64
      used := stat.used + (p.maxPages.setWidth 64 - p.freePages.setWidth 64)
      total := stat.total + (1#64 + p.maxPages.setWidth 64) }
  else stat

def pmmCountPages (pmm : Pmm) : PmmStat :=
  (List.finRange 168).foldl (fun stat i => stat.addEntry (pmm.entry i))
    { free := 0#64, total := 1#64, used := 0#64, overhead := 1#64 }

/-- The owner of a page stores a word in it. -/
def Machine.store (s : Machine) (page : Physical) (i : Fin 512) (value : BitVec 64) : Machine :=
  { s with mem := Function.update s.mem page (Function.update (s.mem page) i value) }

end Ukulele
