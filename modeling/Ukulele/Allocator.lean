import Ukulele.LibkString

/-! The allocator interface: a type-erased allocator, and the wrapper that callers use. -/

set_option autoImplicit false

namespace Ukulele

structure Blk where
  ptr : Uintptr
  size : Size
  deriving DecidableEq, Repr

def nullBlk : Blk := ⟨0#64, 0#64⟩

/-- The functions of an allocator that works on states of type `σ`. A function that an
allocator does not have is a null pointer in the source. -/
structure AllocatorVtbl (σ : Type) where
  alloc : Option (Uintptr → Size → σ → Except Fault (Blk × σ))
  realloc : Option (Uintptr → Blk → Size → σ → Except Fault (Blk × σ))
  free : Option (Uintptr → Blk → σ → Except Fault σ)

structure Allocator (σ : Type) where
  self : Uintptr
  vtbl : Option (AllocatorVtbl σ)

variable {σ : Type}

def doalloc (alloc : Allocator σ) (size : Size) (s : σ) : Except Fault (Blk × σ) :=
  match alloc.vtbl with
  | none => .error .nullPointer
  | some vtbl =>
    match vtbl.alloc with
    | none => .error .nullPointer
    | some f => f alloc.self size s

def kalloc (alloc : Allocator σ) (size : Size) (s : σ) : Except Fault (Blk × σ) :=
  if size = 0#64 then .ok (nullBlk, s) else doalloc alloc size s

def dofree (alloc : Allocator σ) (blk : Blk) (s : σ) : Except Fault σ :=
  match alloc.vtbl with
  | none => .error .nullPointer
  | some vtbl =>
    match vtbl.free with
    | none => .ok s
    | some f => f alloc.self blk s

def kfree (alloc : Allocator σ) (mem : Blk) (s : σ) : Except Fault σ :=
  if mem.ptr = 0#64 then .ok s else dofree alloc mem s

/-- Memory, and apart from it what an allocator keeps for itself. -/
structure Heap (α : Type) where
  bytes : ByteMemory
  own : α

variable {α : Type}

/-- The fall back for an allocator without `realloc`, up to the call that frees the old block. -/
def kreallocCopy (alloc : Allocator (Heap α)) (mem : Blk) (size : Size) (s : Heap α) :
    Except Fault (Blk × Heap α) :=
  match doalloc alloc size s with
  | .error e => .error e
  | .ok (blk, s) =>
    if blk.ptr = 0#64 then .ok (nullBlk, s)
    else .ok (blk, { s with bytes := memcpy s.bytes blk.ptr mem.ptr mem.size })

def krealloc (alloc : Allocator (Heap α)) (mem : Blk) (size : Size) (s : Heap α) :
    Except Fault (Blk × Heap α) :=
  if size = 0#64 then
    match kfree alloc mem s with
    | .error e => .error e
    | .ok s => .ok (nullBlk, s)
  else if mem.ptr = 0#64 then doalloc alloc size s
  else
    match alloc.vtbl with
    | none => .error .nullPointer
    | some vtbl =>
      match vtbl.realloc with
      | some f => f alloc.self mem size s
      | none =>
        match kreallocCopy alloc mem size s with
        | .error e => .error e
        | .ok (blk, s) =>
          if blk.ptr = 0#64 then .ok (nullBlk, s)
          else
            match dofree alloc mem s with
            | .error e => .error e
            | .ok s => .ok (blk, s)

end Ukulele
