import Ukulele.LibkString

/-! Tar archives in memory: each file is a header block and the data blocks that its size takes.
The fields of a header that are used here are `file_size`, at offset 124, and `typeflag`, at 156.
-/

set_option autoImplicit false

namespace Ukulele

def tarBlockSize : BitVec 32 := 512#32

def tarTypeReg : Byte := 0x30#8

structure MmFile where
  data : Uintptr
  size : Size
  deriving DecidableEq, Repr

def tarReadOctalLoop (c : Byte) : Nat → BitVec 32 → BitVec 32
  | 0, val => val
  | len + 1, val => tarReadOctalLoop c len (val * 8#32 + (c.signExtend 32 - 0x30#32))

/-- The loop reads the first byte each time. -/
def tarReadOctal (mem : ByteMemory) (str : Uintptr) (len : Size) : BitVec 32 :=
  tarReadOctalLoop (mem str) (strnlen mem str len).toNat 0#32

def fileSizeField (head : Uintptr) : Uintptr := head + 124#64
def sizeofFileSize : Size := 12#64
def typeflagField (head : Uintptr) : Uintptr := head + 156#64

section Entries

-- what is read from a field of octal digits
variable (readOctal : ByteMemory → Uintptr → Size → BitVec 32) (mem : ByteMemory)

/-- The bytes of the header's size, as an `unsigned`. -/
def tarBytes (head : Uintptr) : BitVec 32 := readOctal mem (fileSizeField head) sizeofFileSize

def tarNextEntry (head : Uintptr) : Uintptr :=
  let bytes := tarBytes readOctal mem head
  let blocks := (bytes + tarBlockSize - 1#32) / tarBlockSize
  head + (blocks * tarBlockSize).setWidth 64

def tarFileContents (head : Uintptr) : MmFile :=
  if mem (typeflagField head) ≠ tarTypeReg then ⟨0#64, 0#64⟩
  else ⟨head + tarBlockSize.setWidth 64, (tarBytes readOctal mem head).setWidth 64⟩

structure TarEntry where
  typeflag : Byte
  data : List Byte

def TarEntry.blocks (e : TarEntry) : Nat := (e.data.length + 511) / 512

def TarEntry.span (e : TarEntry) : Nat := 512 * (1 + e.blocks)

/-- The header at an address that describes the entry, and the data after it. -/
structure TarEntry.At (e : TarEntry) (head : Uintptr) : Prop where
  size_lt : e.data.length < 2 ^ 31
  size_eq : readOctal mem (fileSizeField head) sizeofFileSize = BitVec.ofNat 32 e.data.length
  flag_eq : mem (typeflagField head) = e.typeflag
  data_eq : ∀ i (h : i < e.data.length), mem (head + 512#64 + BitVec.ofNat 64 i) = e.data[i]

/-- Where the header of an entry lies, or for their number where the archive ends. -/
def entryAddress (start : Uintptr) (entries : List TarEntry) (k : Nat) : Uintptr :=
  start + BitVec.ofNat 64 ((entries.take k).map TarEntry.span).sum

def ArchiveAt (start : Uintptr) (entries : List TarEntry) : Prop :=
  ∀ k (h : k < entries.length), (entries[k]).At readOctal mem (entryAddress start entries k)

def MmFile.Holds (file : MmFile) (data : List Byte) : Prop :=
  file.size.toNat = data.length ∧
    ∀ i (h : i < data.length), mem (file.data + BitVec.ofNat 64 i) = data[i]

/-- The walk goes from header to header up to the end, and the regular files have their bytes. -/
structure TarWalkOk (start : Uintptr) (entries : List TarEntry) : Prop where
  visits : ∀ k ≤ entries.length,
    (tarNextEntry readOctal mem)^[k] start = entryAddress start entries k
  contents : ∀ k (h : k < entries.length), (entries[k]).typeflag = tarTypeReg →
    (tarFileContents readOctal mem (entryAddress start entries k)).Holds mem (entries[k]).data

end Entries

section Walk

variable {readOctal : ByteMemory → Uintptr → Size → BitVec 32} {mem : ByteMemory}
  {head start : Uintptr} {e : TarEntry} {entries : List TarEntry}

theorem TarEntry.At.next_eq (h : e.At readOctal mem head) :
    tarNextEntry readOctal mem head = head + BitVec.ofNat 64 (512 * e.blocks) := by
  have hlt := h.size_lt
  have hsum : (BitVec.ofNat 32 e.data.length + tarBlockSize - 1#32).toNat =
      e.data.length + 511 := by
    simp only [tarBlockSize, BitVec.toNat_sub, BitVec.toNat_add, BitVec.toNat_ofNat]
    omega
  have hblocks : ((BitVec.ofNat 32 e.data.length + tarBlockSize - 1#32) / tarBlockSize *
      tarBlockSize).toNat = 512 * e.blocks := by
    have h512 : tarBlockSize.toNat = 512 := rfl
    rw [BitVec.toNat_mul, BitVec.toNat_udiv, hsum, h512, TarEntry.blocks]
    omega
  have hword : ((BitVec.ofNat 32 e.data.length + tarBlockSize - 1#32) / tarBlockSize *
      tarBlockSize).setWidth 64 = BitVec.ofNat 64 (512 * e.blocks) := by
    apply BitVec.eq_of_toNat_eq
    rw [BitVec.toNat_setWidth, hblocks, BitVec.toNat_ofNat]
  unfold tarNextEntry tarBytes
  rw [h.size_eq]
  exact congrArg (head + ·) hword

theorem TarEntry.At.next_ne (h : e.At readOctal mem head) :
    tarNextEntry readOctal mem head ≠ head + BitVec.ofNat 64 e.span := by
  have hlt := h.size_lt
  rw [h.next_eq]
  intro he
  have hcancel := (BitVec.add_right_inj head).mp he
  have hnat := congrArg BitVec.toNat hcancel
  simp only [BitVec.toNat_ofNat, TarEntry.span, TarEntry.blocks] at hnat
  omega

theorem TarEntry.At.contents (h : e.At readOctal mem head) (hreg : e.typeflag = tarTypeReg) :
    (tarFileContents readOctal mem head).Holds mem e.data := by
  have hlt := h.size_lt
  have hflag : mem (typeflagField head) = tarTypeReg := h.flag_eq.trans hreg
  unfold tarFileContents tarBytes
  rw [if_neg (fun hne => hne hflag), h.size_eq]
  constructor
  · rw [BitVec.toNat_setWidth, BitVec.toNat_ofNat]
    omega
  · exact h.data_eq

/-- The contents of each file are right, but the walk does not find the files: it is right for an
archive without entries only. -/
theorem tar_walk_of_empty (h : ArchiveAt readOctal mem start entries) :
    (TarWalkOk readOctal mem start entries ↔ entries = []) ∧
    ∀ k (hk : k < entries.length), (entries[k]).typeflag = tarTypeReg →
      (tarFileContents readOctal mem (entryAddress start entries k)).Holds mem
        (entries[k]).data := by
  refine ⟨?_, fun k hk => (h k hk).contents⟩
  constructor
  · intro hwalk
    cases entries with
    | nil => rfl
    | cons e entries =>
      have hfirst := h 0 (Nat.succ_pos _)
      have hstart : entryAddress start (e :: entries) 0 = start := by simp [entryAddress]
      have hnext := hwalk.visits 1 (Nat.succ_le_succ (Nat.zero_le _))
      rw [hstart] at hfirst
      have hspan : entryAddress start (e :: entries) 1 = start + BitVec.ofNat 64 e.span := by
        simp [entryAddress]
      rw [hspan] at hnext
      exact absurd hnext hfirst.next_ne
  · rintro rfl
    refine ⟨?_, fun k hk => absurd hk (Nat.not_lt_zero k)⟩
    intro k hk
    obtain rfl : k = 0 := Nat.le_zero.mp hk
    simp [entryAddress]

end Walk

/-- All bytes are the digit zero: an archive of empty files. -/
def zeroDigits : ByteMemory := fun _ => 0x30#8

/-- A file of two bytes, and an empty one behind it. -/
def twoFiles : ByteMemory := fun a =>
  if a = 0x107c#64 then 0x32#8
  else if a = 0x109c#64 ∨ a = 0x147c#64 ∨ a = 0x149c#64 then 0x30#8
  else if a = 0x1200#64 then 0x4f#8
  else if a = 0x1201#64 then 0x4b#8
  else 0#8

def emptyFile : TarEntry := ⟨tarTypeReg, []⟩

def shortFile : TarEntry := ⟨tarTypeReg, [0x4f#8, 0x4b#8]⟩

theorem emptyFile_at {mem : ByteMemory} {head : Uintptr}
    (h : tarReadOctal mem (fileSizeField head) sizeofFileSize = 0#32)
    (hflag : mem (typeflagField head) = tarTypeReg) : emptyFile.At tarReadOctal mem head :=
  ⟨by decide, h, hflag, fun i hi => absurd hi (Nat.not_lt_zero i)⟩

theorem zeroDigits_archive :
    ArchiveAt tarReadOctal zeroDigits 0x1000#64 [emptyFile, emptyFile] := by
  intro k hk
  cases k with
  | zero => exact emptyFile_at (by decide) rfl
  | succ k =>
    cases k with
    | zero => exact emptyFile_at (by decide) rfl
    | succ k => simp at hk

theorem shortFile_at : shortFile.At tarReadOctal twoFiles 0x1000#64 := by
  refine ⟨by decide, by decide, by decide, ?_⟩
  intro i hi
  have hlt : i < 2 := hi
  interval_cases i <;> rfl

theorem twoFiles_archive : ArchiveAt tarReadOctal twoFiles 0x1000#64 [shortFile, emptyFile] := by
  intro k hk
  cases k with
  | zero => exact shortFile_at
  | succ k =>
    cases k with
    | zero => exact emptyFile_at (by decide) (by decide)
    | succ k => simp at hk

theorem tar_walk_of_empty_example :
    ¬ TarWalkOk tarReadOctal twoFiles 0x1000#64 [shortFile, emptyFile] ∧
    (tarFileContents tarReadOctal twoFiles 0x1000#64).Holds twoFiles [0x4f#8, 0x4b#8] := by
  obtain ⟨hwalk, hcontents⟩ := tar_walk_of_empty twoFiles_archive
  constructor
  · intro h
    exact absurd (hwalk.mp h) (List.cons_ne_nil _ _)
  · have hstart : entryAddress 0x1000#64 [shortFile, emptyFile] 0 = 0x1000#64 := by decide
    have hfirst := hcontents 0 (by decide) rfl
    rw [hstart] at hfirst
    exact hfirst

/-- The walk stands still at the first empty file. -/
theorem tar_walk_stands_still :
    ArchiveAt tarReadOctal zeroDigits 0x1000#64 [emptyFile, emptyFile] ∧
    (∀ k, (tarNextEntry tarReadOctal zeroDigits)^[k] 0x1000#64 = 0x1000#64) ∧
    entryAddress 0x1000#64 [emptyFile, emptyFile] 1 = 0x1200#64 ∧
    ¬ TarWalkOk tarReadOctal zeroDigits 0x1000#64 [emptyFile, emptyFile] := by
  have hnext : tarNextEntry tarReadOctal zeroDigits 0x1000#64 = 0x1000#64 := by decide
  have hstill : ∀ k, (tarNextEntry tarReadOctal zeroDigits)^[k] 0x1000#64 = 0x1000#64 :=
    fun k => Function.iterate_fixed hnext k
  refine ⟨zeroDigits_archive, hstill, by decide, ?_⟩
  intro hwalk
  have hfirst := hwalk.visits 1 (by decide)
  rw [hstill] at hfirst
  exact absurd hfirst (by decide)

end Ukulele
