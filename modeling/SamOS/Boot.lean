import Mathlib.Algebra.Group.Nat.Defs
import Mathlib.Data.List.Basic

/-! The boot contract (`bootinfo.h`, `types.h`, `paging.h`): what the firmware and the bootloader hand to
    `kernel_main`, and where the linker script puts the kernel image. Addresses are natural numbers; sums that the
    code computes in `uint64_t` are taken modulo `2 ^ 64`. -/

namespace SamOS

/-- `EFI_MEMORY_DESCRIPTOR`, the fields the kernel reads. -/
structure Descriptor where
  type : Nat
  physicalStart : Nat
  numberOfPages : Nat
  deriving DecidableEq, Repr

/-- `desc->PhysicalStart + desc->NumberOfPages * PAGE_SIZE`. -/
def Descriptor.endAddr (d : Descriptor) : Nat := (d.physicalStart + d.numberOfPages * 4096) % 2 ^ 64

/-- `BootInfo`, the fields the memory managers read. The memory map is the sequence of descriptors that the loops over
    `memory_map_size` and `memory_map_descriptor_size` visit. -/
structure BootInfo where
  framebuffer : Nat
  height : Nat
  pixelsPerScanline : Nat
  memoryMap : List Descriptor
  rsdp : Nat
  deriving Repr

/-- A `BootInfo` as firmware hands it over: page-aligned descriptors, and no range that wraps around the 64-bit
    address space, its last page included. -/
structure Firmware extends BootInfo where
  aligned : ∀ d ∈ memoryMap, d.physicalStart % 4096 = 0
  noWrap : ∀ d ∈ memoryMap, d.physicalStart + d.numberOfPages * 4096 < 2 ^ 64
  framebuffer_le : framebuffer + height * pixelsPerScanline * 4 + 4096 ≤ 2 ^ 64
  rsdp_le : rsdp + 4096 + 4096 ≤ 2 ^ 64

def kernelVirtBase : Nat := 0xFFFFFFFF80000000
def kernelPhysBase : Nat := 0x100000

/-- The linked kernel image: `_kernel_end`, at or after the load address and inside the top 2 GiB. -/
structure KernelImage where
  kernelEnd : Nat
  base_le : kernelVirtBase + kernelPhysBase ≤ kernelEnd
  lt : kernelEnd < 2 ^ 64

/-- `kernel_end_virt - KERNEL_VIRT_BASE + KERNEL_PHYS_BASE`. -/
def KernelImage.endPhys (img : KernelImage) : Nat := img.kernelEnd - kernelVirtBase + kernelPhysBase

theorem KernelImage.endPhys_bounds (img : KernelImage) : 0x200000 ≤ img.endPhys ∧ img.endPhys < 2 ^ 32 := by
  have hb := img.base_le
  have hl := img.lt
  simp only [endPhys, kernelVirtBase, kernelPhysBase] at *
  omega

end SamOS
