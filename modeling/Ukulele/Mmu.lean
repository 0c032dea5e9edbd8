import Ukulele.Pmm

/-! The page table driver. A walk over the entries of a table calls back for each entry, and
the callbacks go on with the table behind it.
-/

set_option autoImplicit false

namespace Ukulele

def mmuRegPresent : BitVec 64 := 0x01#64
def mmuRegWrite : BitVec 64 := 0x02#64
def mmuRegUser : BitVec 64 := 0x04#64
def mmuRegWriteThrough : BitVec 64 := 0x08#64
def mmuRegPageSize : BitVec 64 := 0x80#64
def mmuRegNoExecute : BitVec 64 := 1#64 <<< 63
def mmuRegPhysAddressMask : BitVec 64 := 0x000ffffffffff000#64
def mmuRegVirtMask : BitVec 64 := 0x1ff#64
def mmuRegPageMapEntryCount : BitVec 64 := 512#64

def mmuHigherHalfMin : BitVec 64 := 0xffff800000000000#64

def memoryUser : BitVec 32 := 1#32 <<< 0
def memoryExec : BitVec 32 := 1#32 <<< 1
def memoryWrite : BitVec 32 := 1#32 <<< 2
def memoryCacheWriteThrough : BitVec 32 := 1#32 <<< 3

def pageMapDepthTop : Nat := 0
def pageMapDepthBottom : Nat := 3
def pageMapDepthMemory : Nat := 4
def pageMapDepthInvalid : Nat := 5

structure MmuPageMapPart where
  page : Physical
  depth : Nat
  deriving DecidableEq, Repr

def mmuIsCanonicalAddress (address : Uintptr) : Bool :=
  let address := address &&& mmuHigherHalfMin
  address = 0#64 || address = mmuHigherHalfMin

def getCurrentPageMapTop (s : Machine) : MmuPageMapPart := ⟨s.cr3, pageMapDepthTop⟩

def depthShiftSize : Nat → Nat
  | 0 => 39
  | 1 => 30
  | 2 => 21
  | _ => 12

def convertFlags (flags : BitVec 32) : BitVec 64 :=
  let f := mmuRegPresent
  let f := if flags &&& memoryUser ≠ 0#32 then f ||| mmuRegUser else f
  let f := if flags &&& memoryCacheWriteThrough ≠ 0#32 then f ||| mmuRegWriteThrough else f
  let f := if flags &&& memoryWrite ≠ 0#32 then f ||| mmuRegWrite else f
  if flags &&& memoryExec = 0#32 then f ||| mmuRegNoExecute else f

def pmPerms : BitVec 64 := mmuRegUser ||| mmuRegWrite ||| mmuRegPresent

def allocate (s : Machine) : Except Fault (Physical × Machine) := do
  let (page, s) ← pmmAllocatePage s
  assert (page ≠ 0#64) "Failed to allocate page table"
  return (page, { s with mem := Function.update s.mem page zeroPage })

structure NodeCommandLoc where
  page : MmuPageMapPart
  start : Uintptr
  endAt : Uintptr
  deriving DecidableEq, Repr

structure EntryPtr where
  table : Physical
  index : Fin 512
  deriving DecidableEq, Repr

def Machine.load (s : Machine) (entry : EntryPtr) : BitVec 64 := s.mem entry.table entry.index

def Machine.assign (s : Machine) (entry : EntryPtr) (value : BitVec 64) : Machine :=
  s.store entry.table entry.index value

abbrev NodeCallback := NodeCommandLoc → EntryPtr → Machine → Except Fault Machine

def tableIndex (i : Int) : Except Fault (Fin 512) :=
  if h : 0 ≤ i ∧ i < 512 then .ok ⟨i.toNat, toNat_lt_512 h⟩ else .error (.tableIndexOutOfBounds i)

/-- Conversion of an unsigned 64-bit value to `int`. -/
def toInt (x : BitVec 64) : Int := (x.setWidth 32).toInt

def shiftl (shift : Nat) (i : Int) : BitVec 64 := BitVec.ofInt 64 i <<< shift

def NodeCommandLoc.shift (loc : NodeCommandLoc) : Nat := depthShiftSize loc.page.depth

def NodeCommandLoc.base (loc : NodeCommandLoc) : Uintptr :=
  roundDownP2 loc.start (mmuRegPageMapEntryCount <<< loc.shift)

def NodeCommandLoc.startIdx (loc : NodeCommandLoc) : Int :=
  toInt ((roundDownP2 loc.start (1#64 <<< loc.shift) - loc.base) >>> loc.shift)

def NodeCommandLoc.endIdx (loc : NodeCommandLoc) : Int :=
  toInt ((roundUpP2 loc.endAt (1#64 <<< loc.shift) - loc.base) >>> loc.shift)

def NodeCommandLoc.child (loc : NodeCommandLoc) (i : Int) (entry : BitVec 64) :
    NodeCommandLoc :=
  let blkStart := shiftl loc.shift i + loc.base
  let blkEnd := shiftl loc.shift (i + 1) + loc.base
  { page := ⟨entry &&& mmuRegPhysAddressMask, loc.page.depth + 1⟩
    start := maxMacro loc.start blkStart
    endAt := minMacro loc.endAt blkEnd }

/-- The rounds of the loop from entry `i` on. -/
def applyNodesLoop (loc : NodeCommandLoc) (visit : NodeCallback) :
    Nat → Int → Machine → Except Fault Machine
  | 0, _, s => .ok s
  | n + 1, i, s => do
    let j ← tableIndex i
    let entry : EntryPtr := ⟨loc.page.page, j⟩
    let s ← visit (loc.child i (s.load entry)) entry s
    applyNodesLoop loc visit n (i + 1) s

def applyNodes (loc : NodeCommandLoc) (visit : NodeCallback) (s : Machine) :
    Except Fault Machine :=
  applyNodesLoop loc visit (loc.endIdx - loc.startIdx).toNat loc.startIdx s

def reserveEntry (loc : NodeCommandLoc) (entry : EntryPtr) (s : Machine) :
    Except Fault (NodeCommandLoc × Machine) :=
  if s.load entry &&& mmuRegPresent = 0#64 then do
    let (next, s) ← allocate s
    return ({ loc with page := { loc.page with page := next } }, s.assign entry (next ||| pmPerms))
  else .ok (loc, s)

def nodeCallbackReserve : Nat → NodeCallback
  | fuel, loc, entry, s => do
    let (loc, s) ← reserveEntry loc entry s
    if loc.page.depth < pageMapDepthBottom then
      match fuel with
      | 0 => .error .outOfFuel
      | fuel + 1 => applyNodes loc (nodeCallbackReserve fuel) s
    else .ok s

def emptyTable (table : RawPage) : Bool :=
  (List.finRange 512).all (fun i => decide (table i &&& mmuRegPresent = 0#64))

def nodeCallbackGc : Nat → NodeCallback
  | fuel, loc, entry, s =>
    if s.load entry &&& mmuRegPresent = 0#64 then .ok s
    else
      let below : Except Fault Machine :=
        if loc.page.depth < pageMapDepthBottom then
          match fuel with
          | 0 => .error .outOfFuel
          | fuel + 1 => applyNodes loc (nodeCallbackGc fuel) s
        else .ok s
      below >>= fun s =>
        if emptyTable (s.mem loc.page.page) then pmmFreePage (s.assign entry 0#64) loc.page.page
        else .ok s

abbrev LeafCallback := Uintptr → EntryPtr → Machine → Except Fault Machine

def nodeCallbackLeaf (callback : LeafCallback) : Nat → NodeCallback
  | fuel, loc, entry, s =>
    if loc.page.depth ≤ pageMapDepthBottom then
      match fuel with
      | 0 => .error .outOfFuel
      | fuel + 1 => applyNodes loc (nodeCallbackLeaf callback fuel) s
    else callback loc.start entry s

def leafCallbackAssignLinear (pBase : Physical) (vBase : Uintptr) (flags : BitVec 64) :
    LeafCallback :=
  fun virtAddr entry s => .ok (s.assign entry (virtAddr - vBase + pBase ||| flags))

def leafCallbackClear : LeafCallback := fun _ entry s => .ok (s.assign entry 0#64)

def applyNodesEntry (loc : NodeCommandLoc) (visit : NodeCallback) (s : Machine) :
    Except Fault Machine := do
  let loc := if loc.page.page = 0#64 then { loc with page := getCurrentPageMapTop s } else loc
  requirePageAligned loc.page.page
  requirePageAligned loc.start
  requirePageAligned loc.endAt
  assert (pageMapDepthTop ≤ loc.page.depth && loc.page.depth ≤ pageMapDepthBottom)
    "Invalid page_map_depth"
  assert (loc.start < loc.endAt) "Negative MMU allocation"
  assert (mmuIsCanonicalAddress loc.start) "Non-canonical address"
  assert (loc.start &&& mmuHigherHalfMin = loc.endAt &&& mmuHigherHalfMin)
    "Start and end not in same half"
  applyNodes loc visit s

def walkFuel : Nat := 4

def mmuAssign (s : Machine) (top : MmuPageMapPart) (flags : BitVec 32) (address : Uintptr)
    (size : Size) (page : Physical) : Except Fault Machine := do
  let loc : NodeCommandLoc := ⟨top, address, address + size⟩
  let leaves := leafCallbackAssignLinear page address (convertFlags flags)
  let s ← applyNodesEntry loc (nodeCallbackReserve walkFuel) s
  applyNodesEntry loc (nodeCallbackLeaf leaves walkFuel) s

def mmuRemove (s : Machine) (top : MmuPageMapPart) (address : Uintptr) (size : Size) :
    Except Fault Machine := do
  let loc : NodeCommandLoc := ⟨top, address, address + size⟩
  let s ← applyNodesEntry loc (nodeCallbackLeaf leafCallbackClear walkFuel) s
  applyNodesEntry loc (nodeCallbackGc walkFuel) s

def extractPageMapIndex (top : MmuPageMapPart) (address : Uintptr) : BitVec 64 :=
  (address >>> depthShiftSize top.depth) &&& mmuRegVirtMask

def mmuLookupStep (s : Machine) (top : MmuPageMapPart) (address : Uintptr) :
    Except Fault MmuPageMapPart := do
  let top := if top.page = 0#64 then getCurrentPageMapTop s else top
  requirePageAligned top.page
  assert (top.depth < pageMapDepthMemory) "In too deep"
  let idx ← tableIndex (toInt (extractPageMapIndex top address))
  let entry := s.load ⟨top.page, idx⟩
  if entry &&& mmuRegPresent = 0#64 then return ⟨0#64, pageMapDepthInvalid⟩
  let phys := entry &&& mmuRegPhysAddressMask
  if entry &&& mmuRegPageSize ≠ 0#64 then return ⟨phys, pageMapDepthMemory⟩
  return ⟨phys, top.depth + 1⟩

/-- Iterating the lookup from a part, until it arrives at memory or nowhere. -/
def mmuLookup (s : Machine) (address : Uintptr) :
    Nat → MmuPageMapPart → Except Fault MmuPageMapPart
  | 0, _ => .error .outOfFuel
  | fuel + 1, part =>
    match mmuLookupStep s part address with
    | .error e => .error e
    | .ok next =>
      if next.depth < pageMapDepthMemory then mmuLookup s address fuel next else .ok next

end Ukulele
