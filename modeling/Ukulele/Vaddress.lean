import Ukulele.Machine
import Ukulele.Chain
import Ukulele.Intervals

/-! The virtual address space manager: a linked list of used regions, with nodes from
storage blocks that take one page each. Pages are numbered in the order in which the
physical allocator hands them out, so page `pages` is the next fresh one.
-/

set_option autoImplicit false

namespace Ukulele

def regionsPerBlock : Nat := 100

/-- A slot of a storage block. -/
structure Node where
  page : Nat
  slot : Nat
  deriving DecidableEq, Repr

structure AddressRegion where
  next : Option Node
  beginAt : Uintptr
  endAt : Uintptr
  deriving DecidableEq, Repr

structure StorageBlock where
  next : Option Nat
  entries : Nat
  deriving DecidableEq, Repr

/-- The structure of the source together with the memory its pointers lead to. -/
structure VaddressSpace where
  storage : Option Nat
  allocated : Option Node
  unused : Option Node
  spaceBegin : Uintptr
  spaceEnd : Uintptr
  block : Nat → StorageBlock
  region : Node → AddressRegion
  pages : Nat

/-- A pointer to a link: the list head, or the link of a node. -/
inductive Link where
  | head : Link
  | next : Node → Link
  deriving DecidableEq, Repr

def VaddressSpace.setRegion (s : VaddressSpace) (a : Node) (r : AddressRegion) : VaddressSpace :=
  { s with region := Function.update s.region a r }

def VaddressSpace.setLink (s : VaddressSpace) (prev : Link) (target : Option Node) :
    VaddressSpace :=
  match prev with
  | .head => { s with allocated := target }
  | .next a => s.setRegion a { s.region a with next := target }

/-- The space itself takes the first page; the contents of the others are arbitrary. -/
def vaddressSpaceNew (block : Nat → StorageBlock) (region : Node → AddressRegion)
    (spaceBegin spaceEnd : Uintptr) : VaddressSpace :=
  { storage := none, allocated := none, unused := none, spaceBegin := spaceBegin,
    spaceEnd := spaceEnd, block := block, region := region, pages := 1 }

def zeroRegion : AddressRegion := ⟨none, 0#64, 0#64⟩

/-- The first storage block with unused entries; `none` when the fuel runs out. -/
def findBlock (block : Nat → StorageBlock) : Nat → Option Nat → Option (Option Nat)
  | 0, _ => none
  | _ + 1, none => some none
  | fuel + 1, some blk =>
    if (block blk).entries < regionsPerBlock then some (some blk)
    else findBlock block fuel (block blk).next

def VaddressSpace.takeEntry (s : VaddressSpace) (blk : Nat) : VaddressSpace :=
  let b := s.block blk
  { s with block := Function.update s.block blk { b with entries := b.entries + 1 } }

/-- No space: a new page becomes the first storage block, with one entry in use. There is always a
page: the assertion of `new_page` is left out. -/
def VaddressSpace.takePage (s : VaddressSpace) : VaddressSpace :=
  { s with
    block := Function.update s.block s.pages ⟨s.storage, 1⟩
    storage := some s.pages
    pages := s.pages + 1 }

def findFreeNode (s : VaddressSpace) : Option (Node × VaddressSpace) :=
  match s.unused with
  | some node => some (node, { s with unused := (s.region node).next }.setRegion node zeroRegion)
  | none =>
    match findBlock s.block (s.pages + 1) s.storage with
    | none => none
    | some (some blk) =>
      let node : Node := ⟨blk, (s.block blk).entries⟩
      some (node, (s.takeEntry blk).setRegion node zeroRegion)
    | some none =>
      let node : Node := ⟨s.pages, 0⟩
      some (node, s.takePage.setRegion node zeroRegion)

def nextBegin (s : VaddressSpace) (next : Option Node) : Uintptr :=
  match next with
  | some a => (s.region a).beginAt
  | none => s.spaceEnd

def vaddressAllocateLoop (s : VaddressSpace) (size : Size) :
    Nat → Option Node → Option (Uintptr × VaddressSpace)
  | 0, _ => none
  | _ + 1, none => some (0#64, s)
  | fuel + 1, some a =>
    let r := s.region a
    if size ≤ nextBegin s r.next - r.endAt then
      -- Extend
      some (r.endAt, s.setRegion a { r with endAt := r.endAt + size })
    else vaddressAllocateLoop s size fuel r.next

/-- A list of distinct nodes is no longer than this. -/
def VaddressSpace.slots (s : VaddressSpace) : Nat := regionsPerBlock * s.pages

def vaddressAllocate (s : VaddressSpace) (size : Size) : Option (Uintptr × VaddressSpace) :=
  let freeBegin := s.spaceBegin
  if size ≤ nextBegin s s.allocated - freeBegin then
    match findFreeNode s with
    | none => none
    | some (region, t) =>
      -- Push head
      some (freeBegin, { t.setRegion region ⟨t.allocated, freeBegin, freeBegin + size⟩ with
        allocated := some region })
  else vaddressAllocateLoop s size (s.slots + 1) s.allocated

def vaddressFreeLoop (address addressEnd : Uintptr) :
    Nat → Link → Option Node → VaddressSpace → Option VaddressSpace
  | 0, _, _, _ => none
  | _ + 1, _, none, s => some s
  | fuel + 1, prev, some a, s =>
    let r := s.region a
    if addressEnd < r.beginAt then some s
    else if r.endAt < address then
      vaddressFreeLoop address addressEnd fuel (.next a) r.next s
    else if address ≤ r.beginAt ∧ r.endAt ≤ addressEnd then
      -- Delete whole region
      let t := s.setLink prev r.next
      let u := { t.setRegion a { t.region a with next := t.unused } with unused := some a }
      vaddressFreeLoop address addressEnd fuel prev r.next u
    else if address ≤ r.beginAt then
      -- Shift block start
      vaddressFreeLoop address addressEnd fuel (.next a) r.next
        (s.setRegion a { r with endAt := addressEnd })
    else if r.endAt ≤ addressEnd then
      -- Shift block end
      vaddressFreeLoop address addressEnd fuel (.next a) r.next
        (s.setRegion a { r with endAt := address })
    else
      -- Split block
      match findFreeNode s with
      | none => none
      | some (region, t) =>
        let u := t.setRegion region ⟨r.next, addressEnd, (t.region a).endAt⟩
        let v := u.setRegion a { u.region a with endAt := address, next := some region }
        vaddressFreeLoop address addressEnd fuel (.next region) r.next v

def vaddressFree (s : VaddressSpace) (address : Uintptr) (size : Size) : Option VaddressSpace :=
  vaddressFreeLoop address (address + size) (s.slots + 1) .head s.allocated s

/-- The counts of the report, and the assertion at its end. -/
def vaddressPrint (s : VaddressSpace) : Except Fault Unit :=
  let next := fun a => (s.region a).next
  let regions := Chain.loop (fun b => (s.block b).next)
    (fun n b => n + BitVec.ofNat 32 (s.block b).entries) (s.pages + 1) s.storage 0#32
  let regionsUnused := Chain.loop next (fun n _ => n + 1#32) (s.slots + 1) s.unused 0#32
  let regionsUsed := Chain.loop next (fun n _ => n + 1#32) (s.slots + 1) s.allocated 0#32
  match regions, regionsUsed, regionsUnused with
  | some regions, some regionsUsed, some regionsUnused =>
    assert (regions == regionsUsed + regionsUnused) "Region lost from vaddr!"
  | _, _, _ => .error .outOfFuel

def allocatedNodes (s : VaddressSpace) : List Node :=
  Chain.walk (fun a => (s.region a).next) s.slots s.allocated

def bounds (s : VaddressSpace) (a : Node) : Nat × Nat :=
  ((s.region a).beginAt.toNat, (s.region a).endAt.toNat)

def allocatedRegions (s : VaddressSpace) : List (Nat × Nat) :=
  (allocatedNodes s).map (bounds s)

end Ukulele
