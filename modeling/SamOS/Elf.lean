import SamOS.Vmm
import SamOS.Lib.Result

/-! Loading a program (`load_elf_into_as` and `map_user_stack` of `process.c`): the file headers, the pages of each
    segment, the bytes copied into them, and the user stack. A function that returns `-1` returns `none` here, with
    whatever it has done until then. -/

namespace SamOS
open Result

def userLowerLimit : Nat := 0x400000
/-- `USER_UPPER_LIMIT`, which `syscall.c` calls `USER_TOP`. -/
def userUpperLimit : Nat := 0x800000000000
def processStackVirt : Nat := 0x7FFFFFFFE000
def processStackPages : Nat := 4

/-- An image: the pointer `elf_data`, the byte at each distance from it modulo `2 ^ 64`, and `size`. -/
structure Image where
  addr : Nat
  byte : Nat → BitVec 8
  size : Nat

/-- `Elf64_Phdr`, the fields the loader reads. -/
structure Phdr where
  type : Nat
  flags : Nat
  offset : Nat
  vaddr : Nat
  filesz : Nat
  memsz : Nat
  deriving DecidableEq, Repr

namespace Image

/-- The little-endian number in the `n` bytes from `off` on. -/
def read (img : Image) : Nat → Nat → Nat
  | _, 0 => 0
  | off, n + 1 => (img.byte (off % 2 ^ 64)).toNat + 256 * img.read (off + 1) n

def entry (img : Image) : Nat := img.read 24 8
def phoff (img : Image) : Nat := img.read 32 8
def phnum (img : Image) : Nat := img.read 56 2

/-- `phdrs[i]`. -/
def phdr (img : Image) (i : Nat) : Phdr :=
  let at_ := img.phoff + 56 * i
  { type := img.read at_ 4, flags := img.read (at_ + 4) 4, offset := img.read (at_ + 8) 8
    vaddr := img.read (at_ + 16) 8, filesz := img.read (at_ + 32) 8, memsz := img.read (at_ + 40) 8 }

/-- The checks before the loop over the program headers. -/
def headerOk (img : Image) : Bool :=
  img.addr ≠ 0 && 64 ≤ img.size &&
  (img.byte 0 == 0x7F && img.byte 1 == 0x45 && img.byte 2 == 0x4C && img.byte 3 == 0x46) &&
  (userLowerLimit ≤ img.entry && img.entry < userUpperLimit) &&
  (img.phoff + img.phnum * 56) % 2 ^ 64 ≤ img.size

end Image

namespace Phdr

def segStart (ph : Phdr) : Nat := ph.vaddr / 4096 * 4096

def segEnd (ph : Phdr) : Nat := (ph.vaddr + ph.memsz + 0xFFF) % 2 ^ 64 / 4096 * 4096

/-- The number of iterations of the loop from `seg_start` to `seg_end`. -/
def pages (ph : Phdr) : Nat := (ph.segEnd - ph.segStart) / 4096

/-- The flags that the pages of the segment are mapped with: `PF_W` is bit 1 and `PF_X` bit 0. -/
def mapFlags (ph : Phdr) : Word :=
  flagPresent ||| flagUser ||| (if ph.flags.testBit 1 then flagWrite else 0) ||| (if ph.flags.testBit 0 then 0
    else flagNx)

/-- The checks of a `PT_LOAD` header. -/
def ok (ph : Phdr) (size : Nat) : Bool :=
  ph.filesz ≤ ph.memsz && (ph.offset + ph.filesz) % 2 ^ 64 ≤ size &&
  (userLowerLimit ≤ ph.segStart && ph.segEnd < userUpperLimit)

end Phdr

namespace Machine

/-- A zeroed page from the PMM is mapped at `va`; `false` when there is none. -/
def mapNewPage (as : AsPtr) (va : Nat) (flags : Word) (s : Machine) : Except String (Bool × Machine) :=
  let (page, s) := s.allocPage
  if page = 0 then .ok (false, s)
  else do
    let s ← { s with mem := s.mem.zeroPage page }.vmmMap as va (page * 4096) flags
    .ok (true, s)

/-- The loop body for the page at `va` of a segment. -/
def loadPage (as : AsPtr) (flags : Word) (va : Nat) (s : Machine) : Except String (Bool × Machine) :=
  if s.vmmVirtToPhys as va ≠ 0 then .ok (true, s) else s.mapNewPage as va flags

/-- The loop body for byte `off` of a segment. -/
def loadByte (img : Image) (as : AsPtr) (ph : Phdr) (off : Nat) (s : Machine) : Except String (Bool × Machine) :=
  let phys := s.vmmVirtToPhys as ((ph.vaddr + off) % 2 ^ 64)
  if phys = 0 then .ok (false, s)
  else .ok (true, { s with mem := s.mem.writeByte phys (img.byte ((ph.offset + off) % 2 ^ 64)) })

/-- The loop body for one program header. -/
def loadSegment (img : Image) (as : AsPtr) (ph : Phdr) (s : Machine) : Except String (Bool × Machine) :=
  if ph.type ≠ 1 then .ok (true, s)
  else if ¬ph.ok img.size then .ok (false, s)
  else do
    let (ok, s) ← forWhile (fun i s => s.loadPage as ph.mapFlags (ph.segStart + i * 4096)) 0 ph.pages s
    if ok then forWhile (fun off s => s.loadByte img as ph off) 0 ph.filesz s else .ok (false, s)

/-- `load_elf_into_as`: `out_entry`. -/
def loadElfIntoAs (s : Machine) (as : AsPtr) (img : Image) : Except String (Option Nat × Machine) :=
  if as = .null ∨ ¬img.headerOk then .ok (none, s)
  else do
    let (ok, s) ← forWhile (fun i s => s.loadSegment img as (img.phdr i)) 0 img.phnum s
    .ok (if ok then some img.entry else none, s)

/-- The flags of the user stack. -/
def stackFlags : Word := flagPresent ||| flagWrite ||| flagUser ||| flagNx

/-- `map_user_stack`: `out_rsp`. -/
def mapUserStack (s : Machine) (as : AsPtr) : Except String (Option Nat × Machine) :=
  if as = .null then .ok (none, s)
  else if processStackVirt - processStackPages * 4096 < userLowerLimit ∨
    userUpperLimit ≤ processStackVirt then .ok (none, s)
  else do
    let (ok, s) ← forWhile (fun i s => s.mapNewPage as (processStackVirt - (i + 1) * 4096) stackFlags) 0
      processStackPages s
    .ok (if ok then some processStackVirt else none, s)

end Machine
end SamOS
