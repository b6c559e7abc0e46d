import SamOS.Boot
import SamOS.Lib.Loop
import Mathlib.Logic.Function.Basic

/-! The physical memory manager (`pmm.c`): a bitmap with one bit a page, set when the page is used. `pmm_init` builds
    it from the memory map, `pmm_alloc_page` and `pmm_alloc_pages` search it from the bottom, `pmm_free_page` clears
    one bit. A page pointer is modelled by its page number, its address divided by `PAGE_SIZE`, with `0` for
    `NULL`. -/

namespace SamOS
open Loop

/-- The static state of `pmm.c`. -/
structure Pmm where
  bitmap : Nat → BitVec 8
  bitmapSize : Nat
  totalPages : Nat
  freePages : BitVec 64

namespace Pmm

/-! ### Bitmap helpers -/

def bitmapSet (s : Pmm) (page : Nat) : Pmm :=
  { s with bitmap := Function.update s.bitmap (page / 8) (s.bitmap (page / 8) ||| (1#8 <<< (page % 8))) }

def bitmapClear (s : Pmm) (page : Nat) : Pmm :=
  { s with bitmap := Function.update s.bitmap (page / 8) (s.bitmap (page / 8) &&& ~~~(1#8 <<< (page % 8))) }

def bitmapTest (s : Pmm) (page : Nat) : Bool := s.bitmap (page / 8) &&& (1#8 <<< (page % 8)) != 0#8

/-! ### Reserving -/

def reservePage (s : Pmm) (page : Nat) : Pmm :=
  if page ≥ s.totalPages then s
  else if s.bitmapTest page then s
  else { s.bitmapSet page with freePages := s.freePages - 1 }

/-- The loop `for (p = lo; p < hi; p++) reserve_page(p)`. -/
def reservePages (s : Pmm) (lo hi : Nat) : Pmm := forRange lo hi (fun p s => s.reservePage p) s

def reserveRange (s : Pmm) (start bytes : Nat) : Pmm :=
  if bytes = 0 then s
  else s.reservePages (start / 4096) ((start + bytes + 4095) % 2 ^ 64 / 4096)

/-! ### Initialisation -/

/-- The end of the highest descriptor. -/
def maxAddr (mmap : List Descriptor) : Nat :=
  mmap.foldl (fun m d => if d.endAddr > m then d.endAddr else m) 0

/-- `bitmap_clear(page); free_pages++`. -/
def releasePage (s : Pmm) (page : Nat) : Pmm :=
  { s.bitmapClear page with freePages := s.freePages + 1 }

/-- Free the pages of one descriptor when it is conventional memory. -/
def freeConventional (s : Pmm) (d : Descriptor) : Pmm :=
  if d.type ≠ 7 then s
  else forRange 0 d.numberOfPages (fun p s => s.releasePage (d.physicalStart / 4096 + p)) s

/-- The descriptor types that `pmm_init` reserves explicitly: runtime, ACPI and MMIO. -/
def reservedType (t : Nat) : Bool := t == 5 || t == 6 || t == 9 || t == 10 || t == 11

def reserveDescriptor (s : Pmm) (d : Descriptor) : Pmm :=
  if reservedType d.type then s.reserveRange d.physicalStart (d.numberOfPages * 4096 % 2 ^ 64) else s

/-- The bitmap with every page marked used. The bytes past `bitmap_size` are not part of it. -/
def allUsed (mmap : List Descriptor) (memory : Nat → BitVec 8) : Pmm :=
  let totalPages := maxAddr mmap / 4096
  let bitmapSize := (totalPages + 7) / 8
  { bitmap := fun i => if i < bitmapSize then 0xFF#8 else memory i
    bitmapSize, totalPages, freePages := 0 }

/-- `fb_bytes`. -/
def framebufferBytes (boot : BootInfo) : Nat := boot.height * boot.pixelsPerScanline * 4 % 2 ^ 64

/-- `pmm_init`, where `arenaEnd` is `paging_arena_end` and `memory` the bytes found at the bitmap. -/
def pmmInit (boot : BootInfo) (img : KernelImage) (arenaEnd : Nat) (memory : Nat → BitVec 8) : Pmm :=
  let s := boot.memoryMap.foldl freeConventional (allUsed boot.memoryMap memory)
  let kEnd := (img.endPhys + 4095) / 4096
  let s := s.reservePages (kernelPhysBase / 4096) kEnd
  let s := s.reservePages kEnd (arenaEnd / 4096)
  let s := s.reservePages (arenaEnd / 4096) ((arenaEnd + s.bitmapSize + 4095) / 4096)
  let s := s.reservePage 0
  let s := s.reservePages 1 16
  let s := s.reserveRange boot.framebuffer (framebufferBytes boot)
  let s := s.reserveRange boot.rsdp 4096
  boot.memoryMap.foldl reserveDescriptor s

/-! ### Allocation and release -/

/-- The search of `pmm_alloc_page` over the pages `page, …, page + fuel - 1`. -/
def findFree (s : Pmm) : Nat → Nat → Option Nat
  | 0, _ => none
  | fuel + 1, page => if s.bitmapTest page then s.findFree fuel (page + 1) else some page

def takePage (s : Pmm) (page : Nat) : Pmm := { s.bitmapSet page with freePages := s.freePages - 1 }

/-- `pmm_alloc_page`: the lowest free page, `0` when there is none. -/
def pmmAllocPage (s : Pmm) : Nat × Pmm :=
  match s.findFree s.totalPages 0 with
  | none => (0, s)
  | some page => (page, s.takePage page)

/-- The inner loop of `pmm_alloc_pages`: the first used page among `page, …, page + count - 1`. -/
def findUsed (s : Pmm) : Nat → Nat → Option Nat
  | 0, _ => none
  | count + 1, page => if s.bitmapTest page then some page else s.findUsed count (page + 1)

/-- The outer loop of `pmm_alloc_pages` from start `i`, cut off after `fuel` iterations: `none` if the loop has not
    ended by then, else what it found. A used page `j` of the window restarts the search at `j + 1`. -/
def findRun (s : Pmm) (count : Nat) : Nat → Nat → Option (Option Nat)
  | 0, _ => none
  | fuel + 1, i =>
    if i ≤ s.totalPages - count then
      match s.findUsed count i with
      | some j => s.findRun count fuel (j + 1)
      | none => some (some i)
    else some none

/-- `pmm_alloc_pages`: the lowest run of `count` free pages from page 1 on, `0` when there is none. The loop ends
    within `total_pages + 1` iterations (`findRun_ends`). -/
def pmmAllocPages (s : Pmm) (count : Nat) : Nat × Pmm :=
  if count = 0 ∨ count > s.totalPages then (0, s)
  else
    match s.findRun count (s.totalPages + 1) 1 with
    | some (some i) => (i, forRange i (i + count) (fun j s => s.takePage j) s)
    | _ => (0, s)

/-- `pmm_free_page` of the page numbered `page`. -/
def pmmFreePage (s : Pmm) (page : Nat) : Pmm :=
  if page = 0 ∨ page ≥ s.totalPages then s
  else if s.bitmapTest page then s.releasePage page
  else s

end Pmm
end SamOS
