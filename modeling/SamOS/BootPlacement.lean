import SamOS.KernelMap
import SamOS.PmmCount

/-! Two agreements between `paging_init` and `pmm_init` that nothing checks. Every page the memory manager hands out
    is used through the identity map, which ends at 512 GiB. And the table arena and the bitmap are put after the
    kernel image without a look at what the memory map says is there. -/

namespace SamOS
open Paging

/-! ### Pages that can be handed out are mapped -/

/-- All of the page can be read and written at its physical address. -/
def Mem.IdentityMapped (m : Mem) (pml4 page : Nat) : Prop :=
  ∀ o < 4096, (m.hardwareWalk pml4 (page * 4096 + o)).map Prod.fst = some (page * 4096 + o) ∧
    m.writableAt pml4 (page * 4096 + o) = true

namespace KernelMap
variable {s n maxMemory virt : Nat} {m : Mem}

/-- The walk leads an address to itself exactly below the end of the identity map. -/
theorem walk_self_iff (h : KernelMap s n maxMemory m) (hal : maxMemory % 0x200000 = 0) :
    (m.hardwareWalk s virt).map Prod.fst = some virt ↔ virt < maxMemory ∧ virt < 0x8000000000 := by
  have haddr := pd_address virt
  by_cases h0 : pageIndex 0 virt = 0
  · by_cases hlt : (pageIndex 1 virt * 512 + pageIndex 2 virt) * 0x200000 < maxMemory
    · rw [h.walk_low h0 hlt, Option.map_some, Option.some.injEq]
      show virt % 0x8000000000 = virt ↔ _
      omega
    · rw [h.walk_low_none h0 hlt, Option.map_none]
      constructor
      · exact nofun
      · omega
  · have hge : ¬virt < 0x8000000000 := fun hlt => h0 (by simp only [pageIndex]; omega)
    by_cases h1 : pageIndex 0 virt = 511 ∧ pageIndex 1 virt = 510
    · rw [h.walk_high h1.1 h1.2, Option.map_some, Option.some.injEq]
      show virt % 0x40000000 = virt ↔ _
      omega
    · rw [h.walk_none h0 h1, Option.map_none]
      exact ⟨nofun, fun hlt => absurd hlt.2 hge⟩

theorem writable_low (h : KernelMap s n maxMemory m) (hlt : virt < maxMemory) (h39 : virt < 0x8000000000) :
    m.writableAt s virt = true := by
  have h0 : pageIndex 0 virt = 0 := by
    simp only [pageIndex]
    omega
  have hi := pageIndex_lt 2 virt
  have hj := pageIndex_lt 1 virt
  have hr := h.range
  have hpd : (pageIndex 1 virt * 512 + pageIndex 2 virt) * 0x200000 < maxMemory := by
    rw [pd_page h39]
    omega
  have hn : pageIndex 1 virt < n := (h.map.count _).mpr (by omega)
  obtain ⟨h₀, hwalk⟩ := h.low_walk h0
  rw [if_pos hn] at hwalk
  obtain ⟨h₁, h₂⟩ := hwalk
  rw [identityPd, if_pos ⟨hi, hpd⟩, identityEntry_eq] at h₂
  obtain ⟨-, -, hh, -, hw⟩ := identityFlags_spec ((pageIndex 1 virt * 512 + pageIndex 2 virt) * 0x200000)
  have hf₁ : (entry (s + 1) 3#64).frame = s + 1 := frame_entry (by omega) (LowFlags.flagsOnly rfl)
  have hf₂ : (entry (s + 2 + pageIndex 1 virt) 3#64).frame = s + 2 + pageIndex 1 virt :=
    frame_entry (by omega) (LowFlags.flagsOnly rfl)
  have h3 : Word.writable 3#64 = true := by decide
  simp only [Mem.writableAt, h₀, hf₁, h₁, hf₂, h₂, writable_entry, huge_entry, h3, hh, hw, Bool.true_or, Bool.and_true,
    Bool.or_true]

theorem page_lt {page o top : Nat} (ht : top % 4096 = 0) (h : page * 4096 < top) (ho : o < 4096) :
    page * 4096 + o < top := by
  obtain ⟨k, rfl⟩ := Nat.dvd_of_mod_eq_zero ht
  rw [Nat.mul_comm] at h
  have hk := Nat.lt_of_mul_lt_mul_left h
  calc page * 4096 + o < (page + 1) * 4096 := by rw [Nat.succ_mul]; exact Nat.add_lt_add_left ho _
    _ ≤ k * 4096 := Nat.mul_le_mul_right _ hk
    _ = 4096 * k := Nat.mul_comm _ _

theorem identityMapped_iff (h : KernelMap s n maxMemory m) (hal : maxMemory % 0x200000 = 0) {p : Nat} :
    m.IdentityMapped s p ↔ p * 4096 < maxMemory ∧ p * 4096 < 0x8000000000 := by
  have hpage : maxMemory % 4096 = 0 := Nat.mod_eq_zero_of_dvd
    (Nat.dvd_trans (show 4096 ∣ 0x200000 from ⟨512, rfl⟩) (Nat.dvd_of_mod_eq_zero hal))
  constructor
  · intro hm
    have hself := (hm 0 (by decide)).1
    rw [Nat.add_zero] at hself
    exact (h.walk_self_iff hal).mp hself
  · rintro ⟨hlt, h39⟩ o ho
    have hlt' := page_lt hpage hlt ho
    have h39' := page_lt (show 0x8000000000 % 4096 = 0 from rfl) h39 ho
    exact ⟨(h.walk_self_iff hal).mpr ⟨hlt', h39'⟩, h.writable_low hlt' h39'⟩

end KernelMap

namespace Pmm

/-- All runs after `pmm_init` of callers that free only what they hold, for any boot information. -/
def holders (boot : BootInfo) (img : KernelImage) (mem : Mem) (memory : Nat → BitVec 8) : Lts.System Ledger Op where
  init l := l.pmm = pmmInit boot img (arenaEnd boot img mem * 4096) memory ∧ l.held = ∅
  step := Ledger.step

theorem exists_alloc {S : Lts.System Ledger Op} (hS : S.step = Ledger.step) {l : Ledger} {p : Nat} (hl : S.Reachable l)
    (hp : l.pmm.Free p) (h0 : p ≠ 0) : ∃ l', S.Reachable l' ∧ p ∈ (l'.pmm.exec .allocPage).1 := by
  -- induction on the number of free pages below `p`
  induction hk : Nat.count (fun q => l.pmm.bitmapTest q = false) p generalizing l with
  | zero =>
    refine ⟨l, hl, ?_⟩
    rcases l.pmm.pmmAllocPage_cases with ⟨q, hq, hleast, he⟩ | ⟨hnone, -⟩
    · have hqp : q = p := by
        rcases Nat.lt_trichotomy q p with hlt | heq | hgt
        · exact absurd hq.2 (Nat.count_iff_forall_not.mp hk q hlt)
        · exact heq
        · exact absurd hp (hleast p hgt)
      simp only [exec, he, hqp, if_neg h0, List.mem_singleton]
    · exact absurd hp (hnone p)
  | succ k ih =>
    obtain ⟨q, hq, hfree⟩ := Nat.count_ne_iff_exists.mp (by rw [hk]; exact Nat.succ_ne_zero k)
    rcases l.pmm.pmmAllocPage_cases with ⟨x, hx, hleast, he⟩ | ⟨hnone, -⟩
    · have hxp : x < p := Nat.lt_of_not_le fun hle =>
        hleast q (by omega) ⟨Nat.lt_trans hq hp.1, hfree⟩
      let l' : Ledger := ⟨(l.pmm.exec .allocPage).2, l.held ∪ {y | y ∈ (l.pmm.exec .allocPage).1}⟩
      have hpmm : l'.pmm = l.pmm.takePage x := congrArg Prod.snd he
      refine ih (hl.step (e := .allocPage) (t := l') (hS ▸ ⟨rfl, rfl⟩)) ?_ ?_
      · rw [hpmm]
        exact free_takePage_iff.mpr ⟨hp, by omega⟩
      · have hone := Count.count_insert (P := fun q => (l.pmm.takePage x).bitmapTest q = false)
          (Q := fun q => l.pmm.bitmapTest q = false) hxp (by simp) hx.2 fun i hi => by simp [hi]
        rw [hpmm]
        omega
    · exact absurd hp (hnone p)

section Mapped
variable (boot : BootInfo) (img : KernelImage) (mem : Mem) (memory : Nat → BitVec 8)

/-- The pages that runs hand out are those free after `pmm_init`. -/
theorem handed_out_iff {p : Nat} : (∃ l op, (holders boot img mem memory).Reachable l ∧ p ∈ (l.pmm.exec op).1) ↔
    (pmmInit boot img (arenaEnd boot img mem * 4096) memory).Free p := by
  constructor
  · rintro ⟨l, op, hl, hp⟩
    have hw : l.Within (pmmInit boot img (arenaEnd boot img mem * 4096) memory).Free := by
      refine hl.invariant ?_ fun h hs => h.step hs
      rintro l ⟨hpmm, hheld⟩
      exact ⟨fun q hq => hpmm ▸ hq, by simp [hheld], by simp [hheld]⟩
    exact hw.free p (exec_alloc hp).1
  · intro hp
    have hinit : (holders boot img mem memory).Reachable ⟨pmmInit boot img (arenaEnd boot img mem * 4096) memory, ∅⟩ :=
      .init ⟨rfl, rfl⟩
    obtain ⟨l, hl, hret⟩ := exists_alloc rfl hinit hp fun h0 => not_free_zero_pmmInit boot img _ memory (h0 ▸ hp)
    exact ⟨l, .allocPage, hl, hret⟩

/-- Every page that a run hands out is identity-mapped. -/
def HandsOutMapped : Prop :=
  ∀ l op, (holders boot img mem memory).Reachable l → ∀ p ∈ (l.pmm.exec op).1,
    (pagingInit boot img mem).2.mem.IdentityMapped (pagingInit boot img mem).1 p

/-- Every page that a run hands out is identity-mapped exactly when every page free after `pmm_init` lies below
    `max_memory` and below 512 GiB; on a well-formed memory map these are the conventional pages that nothing
    reserves. -/
theorem allocatable_mapped_iff :
    (HandsOutMapped boot img mem memory ↔ ∀ p, (pmmInit boot img (arenaEnd boot img mem * 4096) memory).Free p →
      p * 4096 < maxMemory boot ∧ p * 4096 < 2 ^ 39) ∧
    ∀ fw : Firmware, HandsOutMapped fw.toBootInfo img mem memory ↔
      ∀ p, Allocatable fw img (arenaEnd fw.toBootInfo img mem) ((maxAddr fw.memoryMap / 4096 + 7) / 8) p →
        p * 4096 < maxMemory fw.toBootInfo ∧ p * 4096 < 2 ^ 39 := by
  have hmapped : ∀ boot, HandsOutMapped boot img mem memory ↔
      ∀ p, (pmmInit boot img (arenaEnd boot img mem * 4096) memory).Free p → p * 4096 < maxMemory boot ∧
        p * 4096 < 2 ^ 39 := by
    intro boot
    obtain ⟨n, hmap, hpml4, -⟩ := kernelMap_pagingInit boot img mem
    unfold HandsOutMapped
    rw [hpml4]
    have hiff := fun p => hmap.identityMapped_iff (p := p) (maxMemory_aligned boot)
    constructor
    · intro h p hp
      obtain ⟨l, op, hl, hret⟩ := (handed_out_iff boot img mem memory).mpr hp
      exact (hiff p).mp (h l op hl p hret)
    · intro h l op hl p hp
      exact (hiff p).mpr (h p ((handed_out_iff boot img mem memory).mp ⟨l, op, hl, hp⟩))
  refine ⟨hmapped boot, fun fw => (hmapped fw.toBootInfo).trans (forall_congr' fun p => ?_)⟩
  rw [free_pmmInit_iff fw img memory (arenaEnd_bounds fw.toBootInfo img mem).1]

end Mapped

/-- A machine whose memory lies above 512 GiB. -/
def highFirmware : Firmware where
  framebuffer := 0x80000000
  height := 768
  pixelsPerScanline := 1024
  memoryMap := [{ type := 7, physicalStart := 0x8000000000, numberOfPages := 0x100 }]
  rsdp := 0xE0000
  aligned := by decide
  noWrap := by decide
  framebuffer_le := Pmm.sampleFirmware.framebuffer_le
  rsdp_le := Pmm.sampleFirmware.rsdp_le

/-- An allocation on that machine returns a page that the identity map does not reach. -/
theorem high_page_unmapped : ∃ l op,
    (holders highFirmware.toBootInfo sampleImage (fun _ _ => 0#64) fun _ => 0#8).Reachable l ∧
    0x8000000 ∈ (l.pmm.exec op).1 ∧
    ¬(pagingInit highFirmware.toBootInfo sampleImage fun _ _ => 0#64).2.mem.IdentityMapped
      (pagingInit highFirmware.toBootInfo sampleImage fun _ _ => 0#64).1 0x8000000 := by
  obtain ⟨n, hmap, hpml4, -⟩ := kernelMap_pagingInit highFirmware.toBootInfo sampleImage fun _ _ => 0#64
  obtain ⟨hlo, hhi⟩ := arenaEnd_bounds highFirmware.toBootInfo sampleImage fun _ _ => 0#64
  have hstart : arenaStart sampleImage = 0x220 := by decide
  have hend : sampleImage.endPhys = 0x220000 := by decide
  have hfree : (pmmInit highFirmware.toBootInfo sampleImage
      (arenaEnd highFirmware.toBootInfo sampleImage (fun _ _ => 0#64) * 4096) fun _ => 0#8).Free 0x8000000 := by
    refine (free_pmmInit_iff highFirmware sampleImage _ hlo).mpr
      ⟨⟨_, List.mem_singleton_self _, rfl, by decide, by decide⟩, by decide, ?_, ?_, ?_, by decide, by decide, ?_⟩
    · rw [hend]
      decide
    · unfold Overlaps
      omega
    · rw [show (maxAddr highFirmware.memoryMap / 4096 + 7) / 8 = 0x1000020 by decide]
      unfold Overlaps
      omega
    · intro d hd ht
      rw [List.mem_singleton.mp hd] at ht
      cases ht
  obtain ⟨l, op, hl, hret⟩ := (handed_out_iff _ _ _ _).mpr hfree
  refine ⟨l, op, hl, hret, fun hm => ?_⟩
  rw [hpml4] at hm
  exact absurd ((hmap.identityMapped_iff (maxMemory_aligned _)).mp hm).2 (by decide)

end Pmm

/-! ### Where boot puts its tables and its bitmap -/

/-- The buffers of the loader that the kernel still reads: `BootInfo` and the memory map. -/
structure LoaderBuffers where
  bootInfo : Nat
  memoryMap : Nat
  memoryMapSize : Nat

/-- `sizeof(BootInfo)`. -/
def bootInfoSize : Nat := 56

/-- The types whose memory is the kernel's after boot: loader code and data, boot-services code and data, and
    conventional memory. -/
def releasedType (t : Nat) : Bool := t == 1 || t == 2 || t == 3 || t == 4 || t == 7

/-- The byte range `[lo, hi)` belongs to somebody else. -/
inductive Protected (boot : BootInfo) (buffers : LoaderBuffers) : Nat → Nat → Prop
  | descriptor {d : Descriptor} (hd : d ∈ boot.memoryMap) (ht : releasedType d.type = false) :
    Protected boot buffers d.physicalStart (d.physicalStart + d.numberOfPages * 4096)
  | framebuffer : Protected boot buffers boot.framebuffer (boot.framebuffer + boot.height * boot.pixelsPerScanline * 4)
  | bootInfo : Protected boot buffers buffers.bootInfo (buffers.bootInfo + bootInfoSize)
  | memoryMap : Protected boot buffers buffers.memoryMap (buffers.memoryMap + buffers.memoryMapSize)

/-- The byte ranges `[lo, hi)` and `[lo', hi')` have a byte in common. -/
def Meets (lo hi lo' hi' : Nat) : Prop := max lo lo' < min hi hi'

instance (lo hi lo' hi' : Nat) : Decidable (Meets lo hi lo' hi') := inferInstanceAs (Decidable (_ < _))

/-- `paging_arena_end`, from the memory map alone: four tables and one page directory for each GiB. -/
theorem arenaEnd_eq (boot : BootInfo) (img : KernelImage) (mem : Mem) :
    arenaEnd boot img mem = arenaStart img + 4 + min 512 ((maxMemory boot + 0x3FFFFFFF) / 0x40000000) := by
  obtain ⟨n, hmap, -, hnext⟩ := kernelMap_pagingInit boot img mem
  have hlast := hmap.map.count n
  have hprev := hmap.map.count (n - 1)
  have hn : n = min 512 ((maxMemory boot + 0x3FFFFFFF) / 0x40000000) := by omega
  rw [← hn]
  exact hnext

/-- The end of what boot writes after the kernel image: the tables, then one bit for each page up to the end of the
    highest descriptor. -/
def placementEnd (boot : BootInfo) (img : KernelImage) : Nat :=
  (arenaStart img + 4 + min 512 ((maxMemory boot + 0x3FFFFFFF) / 0x40000000)) * 4096 +
    (Pmm.maxAddr boot.memoryMap / 4096 + 7) / 8

/-- `paging_init` writes nothing outside the arena, and the arena and the bitmap overwrite nobody's memory exactly
    when nobody's memory meets the range from the first page after the kernel to `placementEnd`. -/
theorem placement_spares_iff (boot : BootInfo) (img : KernelImage) (mem : Mem) (memory : Nat → BitVec 8)
    (buffers : LoaderBuffers) :
    (∀ f, f < arenaStart img ∨ arenaEnd boot img mem ≤ f → (pagingInit boot img mem).2.mem f = mem f) ∧
    ((∀ lo hi, Protected boot buffers lo hi →
      ¬Meets lo hi (arenaStart img * 4096) (arenaEnd boot img mem * 4096) ∧
      ¬Meets lo hi (arenaEnd boot img mem * 4096) (arenaEnd boot img mem * 4096 +
        (Pmm.pmmInit boot img (arenaEnd boot img mem * 4096) memory).bitmapSize)) ↔
      ∀ lo hi, Protected boot buffers lo hi → ¬Meets lo hi (arenaStart img * 4096) (placementEnd boot img)) := by
  have hle := (arenaEnd_bounds boot img mem).1
  have hend : placementEnd boot img = arenaEnd boot img mem * 4096 +
      (Pmm.pmmInit boot img (arenaEnd boot img mem * 4096) memory).bitmapSize := by
    rw [(Pmm.pmmInit_totalPages ..).2, arenaEnd_eq]
    rfl
  refine ⟨fun f => pagingInit_outside, forall_congr' fun lo => forall_congr' fun hi => imp_congr_right fun _ => ?_⟩
  rw [hend]
  unfold Meets
  omega

/-- A machine with an ACPI table in the page at 0x224000. -/
def acpiFirmware : Firmware where
  framebuffer := 0x80000000
  height := 768
  pixelsPerScanline := 1024
  memoryMap := [{ type := 7, physicalStart := 0x10000000, numberOfPages := 0x10000 },
    { type := 9, physicalStart := 0x224000, numberOfPages := 1 }]
  rsdp := 0xE0000
  aligned := by decide
  noWrap := by decide
  framebuffer_le := Pmm.sampleFirmware.framebuffer_le
  rsdp_le := Pmm.sampleFirmware.rsdp_le

/-- `paging_init` puts a page directory over the ACPI table. -/
theorem arena_overwrites_acpi :
    Protected acpiFirmware.toBootInfo ⟨0x10000000, 0x10001000, 96⟩ 0x224000 0x225000 ∧
    Meets 0x224000 0x225000 (arenaStart Pmm.sampleImage * 4096)
      (arenaEnd acpiFirmware.toBootInfo Pmm.sampleImage (fun _ _ => 0#64) * 4096) := by
  refine ⟨Protected.descriptor (d := { type := 9, physicalStart := 0x224000, numberOfPages := 1 }) ?_ rfl, ?_⟩
  · exact List.mem_cons_of_mem _ (List.mem_singleton_self _)
  · rw [arenaEnd_eq]
    decide

end SamOS
