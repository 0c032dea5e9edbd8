import Ukulele.Allocator
import Ukulele.Pmm

/-! The arena allocator. Its pages are a linked list: the first word of each page points to the
next one. The first page also holds the arena itself.
-/

set_option autoImplicit false

namespace Ukulele

/-- Eight bytes at any physical address, little endian. -/
def Memory.load (mem : Memory) (a : Physical) : BitVec 64 :=
  let word (b : Physical) : BitVec 64 := mem (roundDown b pageSize) ⟨b.toNat % 4096 / 8, by omega⟩
  let shift := 8 * (a.toNat % 8)
  if shift = 0 then word a else word a >>> shift ||| word (a + 8#64) <<< (64 - shift)

/-- The shifts are those of the source for `p2` below 32, the width of its `unsigned`. -/
def alignP2 (val : BitVec 32) (p2 : Nat) : BitVec 32 :=
  (val + (1#32 <<< p2) - 1#32) >>> p2 <<< p2

/-- The fields of the arena in the order of its first four words; `next` is its page header. The
two `int` fields share a word. -/
structure ArenaPmm where
  next : Uintptr
  currentPage : Uintptr
  currentOffset : BitVec 32
  p2align : BitVec 32
  pmm : Uintptr
  deriving DecidableEq, Repr

def sizeofArenaPmm : BitVec 32 := 32#32
def sizeofArenaPmmPageHeader : BitVec 32 := 8#32

def readArena (page : RawPage) : ArenaPmm :=
  { next := page 0
    currentPage := page 1
    currentOffset := (page 2).setWidth 32
    p2align := (page 2 >>> 32).setWidth 32
    pmm := page 3 }

def Machine.storeOffset (s : Machine) (home : Physical) (p2align offset : BitVec 32) : Machine :=
  s.store home 2 (p2align ++ offset)

def Machine.storeArena (s : Machine) (home : Physical) (arena : ArenaPmm) : Machine :=
  (((s.store home 0 arena.next).store home 1 arena.currentPage).storeOffset home arena.p2align
    arena.currentOffset).store home 3 arena.pmm

section Hhdm

-- where the boot loader maps physical memory
variable (globalHhdmOffset : BitVec 64)

def hhdmPointer (page : Physical) : Uintptr := page + globalHhdmOffset
def hhdmPhysical (page : Uintptr) : Physical := page - globalHhdmOffset

def arenaTakeBlk (home : Physical) (size : Size) (s : Machine) : Blk × Machine :=
  let arena := readArena (s.mem home)
  let offset := arena.currentOffset.signExtend 64
  (⟨arena.currentPage + offset, size⟩,
    s.storeOffset home arena.p2align ((offset + size).setWidth 32))

/-- The header of the new page is left as it is. -/
def arenaAddPage (home : Physical) (page : Physical) (s : Machine) : Machine :=
  let arena := readArena (s.mem home)
  let hdr := hhdmPointer globalHhdmOffset page
  let s := s.store (hhdmPhysical globalHhdmOffset arena.currentPage) 0 hdr
  let s := s.store home 1 hdr
  s.storeOffset home arena.p2align (alignP2 sizeofArenaPmmPageHeader arena.p2align.toNat)

def arenaPmmAlloc (self : Uintptr) (size : Size) (s : Machine) : Except Fault (Blk × Machine) :=
  let home := hhdmPhysical globalHhdmOffset self
  let arena := readArena (s.mem home)
  let size := (alignP2 (size.setWidth 32) arena.p2align.toNat).setWidth 64
  if pageSize ≤ size then .ok (nullBlk, s)
  else if pageSize < arena.currentOffset.signExtend 64 + size then
    -- Out of space, get another page
    match pmmAllocatePage s with
    | .error e => .error e
    | .ok (page, s) =>
      if page = 0#64 then .ok (nullBlk, s)
      else .ok (arenaTakeBlk home size (arenaAddPage globalHhdmOffset home page s))
  else .ok (arenaTakeBlk home size s)

def arenaPmmVtbl : AllocatorVtbl Machine :=
  { alloc := some (arenaPmmAlloc globalHhdmOffset)
    realloc := none
    free := none }

/-- The pointer `pmm` is kept and passed on; there is one allocator that it can lead to. -/
def makeArenaPmmAllocator (pmm : Uintptr) (p2align : BitVec 32) (s : Machine) :
    Except Fault (Allocator Machine × Machine) :=
  match pmmAllocatePage s with
  | .error e => .error e
  | .ok (page, s) =>
    if page = 0#64 then .ok (⟨0#64, none⟩, s)
    else
      let arena := hhdmPointer globalHhdmOffset page
      .ok (⟨arena, some (arenaPmmVtbl globalHhdmOffset)⟩,
        s.storeArena page
          { next := 0#64
            currentPage := arena
            currentOffset := alignP2 sizeofArenaPmm p2align.toNat
            p2align := p2align
            pmm := pmm })

/-- The loop from the page at `page` on. The list is that of the calls to `pmm_free_page`. -/
def arenaPmmDelLoop : Nat → Uintptr → Machine → Except Fault (List Physical × Machine)
  | fuel, page, s =>
    if page = 0#64 then .ok ([], s)
    else
      match fuel with
      | 0 => .error .outOfFuel
      | fuel + 1 =>
        let phy := hhdmPhysical globalHhdmOffset page
        let next := s.mem.load phy
        match pmmFreePage s phy with
        | .error e => .error e
        | .ok s =>
          match arenaPmmDelLoop fuel next s with
          | .error e => .error e
          | .ok (freed, s) => .ok (phy :: freed, s)

def arenaPmmDel (fuel : Nat) (self : Uintptr) (s : Machine) :
    Except Fault (List Physical × Machine) :=
  arenaPmmDelLoop globalHhdmOffset fuel self s

end Hhdm

end Ukulele
