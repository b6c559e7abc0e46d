import SamOS.Memory
import SamOS.Pmm

/-! The virtual memory manager (`vmm.c`): address spaces as trees of page tables. Every address space shares the
    tables below entries 0 and 511 of the kernel's PML4: the identity map and the higher half. A panic or a failed
    `kassert` is an error with its text. -/

namespace SamOS
open Loop

/-- An address space was made, or was passed to `vmm_destroy_address_space`. -/
inductive AsEvent where
  | create (as : Nat)
  | destroy (as : Nat)
  deriving DecidableEq, Repr

/-- Physical memory, its manager and `kernel_address_space.pml4`. `log` records, last first, the address spaces made
    and destroyed; no code reads it. -/
structure Machine where
  mem : Mem
  pmm : Pmm
  kernelPml4 : Nat
  log : List AsEvent

/-! ### Walking the tables -/

/-- The index into the table of level `n` (0 for the PML4, 3 for the page table): `(virt >> (39 - 9n)) & 0x1FF`. -/
def pageIndex (n virt : Nat) : Nat := virt / 2 ^ (39 - 9 * n) % 512

/-- `vmm_virt_to_phys` for the PML4 in page `pml4`. It follows a present page-directory entry whether or not the entry
    maps a 2 MiB page. -/
def Mem.virtToPhys (m : Mem) (pml4 virt : Nat) : Nat :=
  if ¬(m pml4 (pageIndex 0 virt)).present then 0
  else
    let pdpt := (m pml4 (pageIndex 0 virt)).frame
    if ¬(m pdpt (pageIndex 1 virt)).present then 0
    else
      let pd := (m pdpt (pageIndex 1 virt)).frame
      if ¬(m pd (pageIndex 2 virt)).present then 0
      else
        let pt := (m pd (pageIndex 2 virt)).frame
        if ¬(m pt (pageIndex 3 virt)).present then 0
        else (m pt (pageIndex 3 virt)).frame * 4096 + virt % 4096

namespace Machine

/-- `as->pml4`. An `AddressSpace` holds the address of its PML4 in its first word. -/
def pml4 (s : Machine) : AsPtr → Nat
  | .null => 0
  | .kernel => s.kernelPml4
  | .page a => (s.mem a 0).toNat / 4096

def vmmVirtToPhys (s : Machine) (as : AsPtr) (virt : Nat) : Nat := s.mem.virtToPhys (s.pml4 as) virt

def allocPage (s : Machine) : Nat × Machine := (s.pmm.pmmAllocPage.1, { s with pmm := s.pmm.pmmAllocPage.2 })

/-! ### Making tables -/

/-- `alloc_page_table`: a zeroed page. -/
def allocPageTable (s : Machine) : Except String (Nat × Machine) :=
  let (pt, s) := s.allocPage
  if pt = 0 then .error "VMM: out of memory allocating page table"
  else .ok (pt, { s with mem := s.mem.zeroPage pt })

def getOrCreateTable (s : Machine) (table index : Nat) (flags : Word) : Except String (Nat × Machine) :=
  if (s.mem table index).present then
    let s := if flags.user then { s with mem := s.mem.write table index (s.mem table index ||| flagUser) } else s
    .ok ((s.mem table index).frame, s)
  else do
    let (newTable, s) ← s.allocPageTable
    .ok (newTable, { s with mem := s.mem.write table index (entry newTable (flags ||| flagPresent)) })

/-! ### Address spaces -/

/-- `vmm_create_address_space`: the page of the new address space, `none` for `NULL`. -/
def vmmCreateAddressSpace (s : Machine) : Except String (Option Nat × Machine) :=
  let (as, s) := s.allocPage
  if as = 0 then .ok (none, s)
  else do
    let (pml4, s) ← s.allocPageTable
    let mem := s.mem.write as 0 (BitVec.ofNat 64 (pml4 * 4096))
    let mem := mem.zeroPage pml4
    let mem := mem.write pml4 0 (mem s.kernelPml4 0 ||| flagUser)
    let mem := mem.write pml4 511 (mem s.kernelPml4 511)
    .ok (some as, { s with mem, log := .create as :: s.log })

/-- The loop over `pd_i` of `vmm_destroy_address_space`: the page tables of one page directory. -/
def destroyPd (m : Mem) (pd : Nat) (pmm : Pmm) : Pmm :=
  forRange 0 512 (fun i pmm => if (m pd i).present then pmm.pmmFreePage (m pd i).frameLow else pmm) pmm

/-- The loop over `pdpt_i`. -/
def destroyPdpt (m : Mem) (pdpt : Nat) (pmm : Pmm) : Pmm :=
  forRange 0 512 (fun i pmm =>
    if (m pdpt i).present then (destroyPd m (m pdpt i).frameLow pmm).pmmFreePage (m pdpt i).frameLow else pmm) pmm

/-- The loop over `pml4_i`. Entries 0 and 511 are shared with the kernel. -/
def destroyPml4 (m : Mem) (pml4 : Nat) (pmm : Pmm) : Pmm :=
  forRange 1 511 (fun i pmm =>
    if (m pml4 i).present then (destroyPdpt m (m pml4 i).frameLow pmm).pmmFreePage (m pml4 i).frameLow else pmm) pmm

/-- `vmm_destroy_address_space`, for an address space in page `as`. -/
def vmmDestroyAddressSpace (s : Machine) (as : Nat) : Machine :=
  { s with
    pmm := ((destroyPml4 s.mem (s.pml4 (.page as)) s.pmm).pmmFreePage (s.pml4 (.page as))).pmmFreePage as
    log := .destroy as :: s.log }

/-! ### Mapping -/

/-- `table_flags` of `vmm_map`. -/
def tableFlags (flags : Word) : Word := flagPresent ||| flagWrite ||| (if flags.user then flagUser else 0)

def vmmMap (s : Machine) (as : AsPtr) (virt phys : Nat) (flags : Word) : Except String Machine :=
  if as = .null then .error "vmm_map: null address space"
  else if virt % 4096 ≠ 0 then .error "vmm_map: virtual address is not page aligned"
  else if phys % 4096 ≠ 0 then .error "vmm_map: physical address is not page aligned"
  else do
    let (pdpt, s) ← s.getOrCreateTable (s.pml4 as) (pageIndex 0 virt) (tableFlags flags)
    let (pd, s) ← s.getOrCreateTable pdpt (pageIndex 1 virt) (tableFlags flags)
    if (s.mem pd (pageIndex 2 virt)).huge then .error "vmm_map: cannot map through a huge page"
    else do
      let (pt, s) ← s.getOrCreateTable pd (pageIndex 2 virt) (tableFlags flags)
      if (s.mem pt (pageIndex 3 virt)).present then .error "vmm_map: virtual page is already mapped"
      else .ok { s with mem := s.mem.write pt (pageIndex 3 virt) (entry (phys / 4096) (flags ||| flagPresent)) }

/-- The table that `vmm_unmap` clears an entry of, unless it returns before. It takes whatever a present
    page-directory entry leads to for a page table. -/
def unmapTable (s : Machine) (as : AsPtr) (virt : Nat) : Option Nat :=
  if ¬(s.mem (s.pml4 as) (pageIndex 0 virt)).present then none
  else
    let pdpt := (s.mem (s.pml4 as) (pageIndex 0 virt)).frameLow
    if ¬(s.mem pdpt (pageIndex 1 virt)).present then none
    else
      let pd := (s.mem pdpt (pageIndex 1 virt)).frameLow
      if ¬(s.mem pd (pageIndex 2 virt)).present then none else some (s.mem pd (pageIndex 2 virt)).frameLow

/-- `vmm_unmap`, but for the `tlb_flush` after the write. -/
def vmmUnmap (s : Machine) (as : AsPtr) (virt : Nat) : Except String Machine :=
  if as = .null then .error "vmm_unmap: null address space"
  else if virt % 4096 ≠ 0 then .error "vmm_unmap: virtual address is not page aligned"
  else match s.unmapTable as virt with
    | none => .ok s
    | some pt => .ok { s with mem := s.mem.write pt (pageIndex 3 virt) 0 }

end Machine
end SamOS
