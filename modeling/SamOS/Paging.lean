import SamOS.Boot
import SamOS.Memory

/-! The kernel's own page tables (`paging.c`): an identity map of 2 MiB pages over all memory the kernel may touch,
    and the higher-half map of the first GiB. The tables are taken one after the other from the arena that starts at
    the first page after the kernel image. -/

namespace SamOS

/-- The table arena while `paging_init` runs: physical memory and `next_free_table`. -/
structure Arena where
  mem : Mem
  nextFreeTable : Nat

/-- `alloc_table`: the next page of the arena, zeroed. -/
def Arena.allocTable (a : Arena) : Nat × Arena :=
  (a.nextFreeTable, { mem := a.mem.zeroPage a.nextFreeTable, nextFreeTable := a.nextFreeTable + 1 })

namespace Paging

/-- The end of the highest conventional descriptor. -/
def ramTop (mmap : List Descriptor) : Nat :=
  mmap.foldl (fun top d => if d.type = 7 then (if d.endAddr > top then d.endAddr else top) else top) 0

/-- `fb_end`; the size of the framebuffer is computed in 32 bits. -/
def framebufferEnd (boot : BootInfo) : Nat :=
  (boot.framebuffer + boot.height * boot.pixelsPerScanline * 4 % 2 ^ 32) % 2 ^ 64

/-- `max_memory` before rounding: at least 4 GiB, for the MMIO windows of LAPIC and IOAPIC. -/
def memoryTop (boot : BootInfo) : Nat :=
  max (max (ramTop boot.memoryMap) (framebufferEnd boot)) (2 ^ 32)

/-- `max_memory`, rounded up to 2 MiB. -/
def maxMemory (boot : BootInfo) : Nat := (memoryTop boot + 0x1FFFFF) % 2 ^ 64 / 0x200000 * 0x200000

/-- The entry of the identity map for the 2 MiB page at `addr`. -/
def identityEntry (addr : Nat) : Word :=
  let flags := flagPresent ||| flagWrite ||| flagHuge ||| flagNx
  let flags := if addr = 0xFEC00000 ∨ addr = 0xFEE00000 then flags ||| flagPcd else flags
  BitVec.ofNat 64 addr ||| flags

/-- The inner loop over `pd_i`, with the running `addr`. -/
def fillPd (maxMemory pd : Nat) : Nat → Nat → Nat → Mem → Mem × Nat
  | 0, _, addr, m => (m, addr)
  | fuel + 1, pdI, addr, m =>
    if addr < maxMemory then
      fillPd maxMemory pd fuel (pdI + 1) (addr + 0x200000) (m.write pd pdI (identityEntry addr))
    else (m, addr)

/-- The outer loop over `pdpt_i`: one page directory for each GiB below `maxMemory`. -/
def fillPdpt (maxMemory pdpt : Nat) : Nat → Nat → Nat → Arena → Arena
  | 0, _, _, a => a
  | fuel + 1, pdptI, addr, a =>
    if addr < maxMemory then
      let (pd, a) := a.allocTable
      let m := a.mem.write pdpt pdptI (entry pd (flagPresent ||| flagWrite))
      let (m, addr) := fillPd maxMemory pd 512 0 addr m
      fillPdpt maxMemory pdpt fuel (pdptI + 1) addr { a with mem := m }
    else a

/-- The page directory of the higher half: 512 pages of 2 MiB from physical address 0 on. -/
def fillHigh (pd : Nat) : Nat → Nat → Nat → Mem → Mem
  | 0, _, _, m => m
  | fuel + 1, i, phys, m => fillHigh pd fuel (i + 1) (phys + 0x200000) (m.write pd i (BitVec.ofNat 64 phys ||| 0x83#64))

/-- The first page of the arena. -/
def arenaStart (img : KernelImage) : Nat := (img.endPhys + 4095) / 4096

theorem endPhys_le_arenaStart (img : KernelImage) : img.endPhys ≤ arenaStart img * 4096 := by
  unfold arenaStart
  omega

/-- `paging_init`: the tables, and the page number of the PML4. The arena ends at `nextFreeTable`. -/
def pagingInit (boot : BootInfo) (img : KernelImage) (mem : Mem) : Nat × Arena :=
  let (pml4, a) := Arena.allocTable { mem, nextFreeTable := arenaStart img }
  let (pdpt, a) := a.allocTable
  let a := { a with mem := a.mem.write pml4 0 (entry pdpt 0x3#64) }
  let a := fillPdpt (maxMemory boot) pdpt 512 0 0 a
  let (pdptHi, a) := a.allocTable
  let a := { a with mem := a.mem.write pml4 511 (entry pdptHi 0x3#64) }
  let (pdHi, a) := a.allocTable
  let a := { a with mem := a.mem.write pdptHi 510 (entry pdHi 0x3#64) }
  (pml4, { a with mem := fillHigh pdHi 512 0 0 a.mem })

/-- `paging_arena_end`, as a page number. -/
def arenaEnd (boot : BootInfo) (img : KernelImage) (mem : Mem) : Nat := (pagingInit boot img mem).2.nextFreeTable

/-! ### The extent of the arena -/

theorem fillPdpt_nextFreeTable (maxMemory pdpt : Nat) (fuel pdptI addr : Nat) (a : Arena) :
    a.nextFreeTable ≤ (fillPdpt maxMemory pdpt fuel pdptI addr a).nextFreeTable ∧
    (fillPdpt maxMemory pdpt fuel pdptI addr a).nextFreeTable ≤ a.nextFreeTable + fuel := by
  induction fuel generalizing pdptI addr a with
  | zero => exact ⟨Nat.le_refl _, Nat.le_refl _⟩
  | succ n ih =>
    unfold fillPdpt
    split
    · obtain ⟨h1, h2⟩ := ih (pdptI + 1) (fillPd maxMemory a.nextFreeTable 512 0 addr
        ((a.mem.zeroPage a.nextFreeTable).write pdpt pdptI (entry a.nextFreeTable (flagPresent ||| flagWrite)))).2
        { mem := (fillPd maxMemory a.nextFreeTable 512 0 addr ((a.mem.zeroPage a.nextFreeTable).write pdpt pdptI
            (entry a.nextFreeTable (flagPresent ||| flagWrite)))).1, nextFreeTable := a.nextFreeTable + 1 }
      simp only [Arena.allocTable] at h1 h2 ⊢
      omega
    · exact ⟨Nat.le_refl _, Nat.le_add_right _ _⟩

/-- The arena holds four tables and at most 512 page directories. -/
theorem arenaEnd_bounds (boot : BootInfo) (img : KernelImage) (mem : Mem) :
    arenaStart img ≤ arenaEnd boot img mem ∧ arenaEnd boot img mem ≤ arenaStart img + 516 := by
  unfold arenaEnd pagingInit
  simp only [Arena.allocTable]
  have h := fillPdpt_nextFreeTable (maxMemory boot) (arenaStart img + 1) 512 0 0
    { mem := ((mem.zeroPage (arenaStart img)).zeroPage (arenaStart img + 1)).write (arenaStart img) 0
        (entry (arenaStart img + 1) 0x3#64), nextFreeTable := arenaStart img + 1 + 1 }
  simp only at h
  omega

end Paging
end SamOS
