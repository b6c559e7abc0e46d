import SamOS.BootTables
import SamOS.Bootloader
import SamOS.Translation

/-! What the tables of `paging_init` map: every address below the end of memory to itself, nothing else in the lower
    half, and the first GiB at `KERNEL_VIRT_BASE`, where the bootloader's tables have it too. -/

namespace SamOS
open Paging

/-! ### Walks that end at a 2 MiB page -/

section Walk
variable {m : Mem} {r t₁ t₂ c virt : Nat} {fl₂ : Word}

theorem Mem.hardwareWalk_leaf (h₀ : m r (pageIndex 0 virt) = entry t₁ 3#64)
    (h₁ : m t₁ (pageIndex 1 virt) = entry t₂ 3#64) (h₂ : m t₂ (pageIndex 2 virt) = entry (c * 512) fl₂)
    (ht₁ : t₁ < 2 ^ 40) (ht₂ : t₂ < 2 ^ 40) (hc : c < 2 ^ 31) (hfl : FlagsOnly fl₂) (hp : fl₂.present = true)
    (hh : fl₂.huge = true) (hu : fl₂.user = false) :
    m.hardwareWalk r virt = some (c * 0x200000 + virt % 0x200000, false) := by
  have hf₁ : (entry t₁ 3#64).frame = t₁ := frame_entry ht₁ (LowFlags.flagsOnly rfl)
  have hf₂ : (entry t₂ 3#64).frame = t₂ := frame_entry ht₂ (LowFlags.flagsOnly rfl)
  have h3 : Word.present 3#64 = true ∧ Word.huge 3#64 = false ∧ Word.user 3#64 = false := by decide
  simp only [hardwareWalk, h₀, hf₁, h₁, hf₂, h₂, present_entry, huge_entry, user_entry, h3, hp, hh, hu,
    frame_entry (show c * 512 < 2 ^ 40 by omega) hfl, not_true_eq_false, if_false, if_true, Bool.false_eq_true,
    Bool.and_false, show (2 : Nat) ^ 9 = 512 from rfl, Nat.mul_div_cancel c (show 0 < 512 by decide)]
  rfl

theorem Mem.hardwareWalk_no_pdpt (h₀ : m r (pageIndex 0 virt) = 0) : m.hardwareWalk r virt = none := by
  simp [hardwareWalk, h₀, Word.present]

theorem Mem.hardwareWalk_no_pd (h₀ : m r (pageIndex 0 virt) = entry t₁ 3#64) (h₁ : m t₁ (pageIndex 1 virt) = 0)
    (ht₁ : t₁ < 2 ^ 40) : m.hardwareWalk r virt = none := by
  have hf₁ : (entry t₁ 3#64).frame = t₁ := frame_entry ht₁ (LowFlags.flagsOnly rfl)
  simp [hardwareWalk, h₀, hf₁, h₁, Word.present]

theorem Mem.hardwareWalk_no_page (h₀ : m r (pageIndex 0 virt) = entry t₁ 3#64)
    (h₁ : m t₁ (pageIndex 1 virt) = entry t₂ 3#64) (h₂ : m t₂ (pageIndex 2 virt) = 0) (ht₁ : t₁ < 2 ^ 40)
    (ht₂ : t₂ < 2 ^ 40) : m.hardwareWalk r virt = none := by
  have hf₁ : (entry t₁ 3#64).frame = t₁ := frame_entry ht₁ (LowFlags.flagsOnly rfl)
  have hf₂ : (entry t₂ 3#64).frame = t₂ := frame_entry ht₂ (LowFlags.flagsOnly rfl)
  have h3 : Word.huge 3#64 = false := by decide
  simp [hardwareWalk, h₀, hf₁, h₁, hf₂, h₂, h3, Word.present]

end Walk

/-! ### The entries of the boot tables -/

/-- The flags of the identity map: uncached over the two APICs. -/
def identityFlags (addr : Nat) : Word :=
  if addr = 0xFEC00000 ∨ addr = 0xFEE00000 then flagPresent ||| flagWrite ||| flagHuge ||| flagNx ||| flagPcd
  else flagPresent ||| flagWrite ||| flagHuge ||| flagNx

theorem identityEntry_eq (c : Nat) : identityEntry (c * 0x200000) = entry (c * 512) (identityFlags (c * 0x200000)) := by
  unfold identityEntry identityFlags entry
  rw [Nat.mul_assoc]

theorem highEntry_eq (i : Nat) : highEntry i = entry (i * 512) 0x83#64 := by
  unfold highEntry entry
  rw [Nat.mul_assoc]

theorem identityFlags_spec (addr : Nat) : FlagsOnly (identityFlags addr) ∧ (identityFlags addr).present = true ∧
    (identityFlags addr).huge = true ∧ (identityFlags addr).user = false ∧ (identityFlags addr).writable = true := by
  unfold identityFlags FlagsOnly
  split <;> decide

/-- The tables of `paging_init` at their places, with page numbers that fit an entry. -/
structure KernelMap (s n maxMemory : Nat) (m : Mem) : Prop where
  tables : BootTables s n m
  map : BootMap s n maxMemory m
  range : s + 4 + n < 2 ^ 40

theorem kernelMap_pagingInit (boot : BootInfo) (img : KernelImage) (mem : Mem) :
    ∃ n, KernelMap (arenaStart img) n (maxMemory boot) (pagingInit boot img mem).2.mem ∧
      (pagingInit boot img mem).1 = arenaStart img ∧
      (pagingInit boot img mem).2.nextFreeTable = arenaStart img + 4 + n := by
  obtain ⟨n, hn, ht, hm, -, hpml4, hnext⟩ := pagingInit_tables boot img mem
  have hb := img.endPhys_bounds
  refine ⟨n, ⟨ht, hm, ?_⟩, hpml4, hnext⟩
  unfold arenaStart
  omega

theorem pagingInit_outside {boot : BootInfo} {img : KernelImage} {mem : Mem} {f : Nat}
    (h : f < arenaStart img ∨ arenaEnd boot img mem ≤ f) : (pagingInit boot img mem).2.mem f = mem f := by
  obtain ⟨n, -, -, -, hout, -, hnext⟩ := pagingInit_tables boot img mem
  exact hout f (by rwa [← hnext])

namespace KernelMap
variable {s n maxMemory virt : Nat} {m : Mem}

theorem low_walk (h : KernelMap s n maxMemory m) (h0 : pageIndex 0 virt = 0) :
    m s (pageIndex 0 virt) = entry (s + 1) 3#64 ∧
    if pageIndex 1 virt < n then
      m (s + 1) (pageIndex 1 virt) = entry (s + 2 + pageIndex 1 virt) 3#64 ∧
      m (s + 2 + pageIndex 1 virt) (pageIndex 2 virt) = identityPd maxMemory (pageIndex 1 virt) (pageIndex 2 virt)
    else m (s + 1) (pageIndex 1 virt) = 0 := by
  refine ⟨by rw [h.tables.pml4, if_pos h0], ?_⟩
  split
  · rename_i hj
    exact ⟨by rw [h.tables.pdpt, if_pos hj], h.map.pd _ hj _⟩
  · rename_i hj
    rw [h.tables.pdpt, if_neg hj]

theorem pd_address (virt : Nat) :
    (pageIndex 1 virt * 512 + pageIndex 2 virt) * 0x200000 + virt % 0x200000 = virt % 0x8000000000 := by
  simp only [pageIndex]
  omega

theorem pd_page {virt : Nat} (h : virt < 0x8000000000) :
    (pageIndex 1 virt * 512 + pageIndex 2 virt) * 0x200000 = virt / 0x200000 * 0x200000 := by
  congr 1
  simp only [pageIndex]
  omega

/-- Below the end of memory the identity map leads to the address itself. -/
theorem walk_low (h : KernelMap s n maxMemory m) (h0 : pageIndex 0 virt = 0)
    (hlt : (pageIndex 1 virt * 512 + pageIndex 2 virt) * 0x200000 < maxMemory) :
    m.hardwareWalk s virt = some (virt % 0x8000000000, false) := by
  have hi := pageIndex_lt 2 virt
  have hj := pageIndex_lt 1 virt
  have hn : pageIndex 1 virt < n := (h.map.count _).mpr (by omega)
  have hr := h.range
  obtain ⟨h₀, hwalk⟩ := h.low_walk h0
  rw [if_pos hn] at hwalk
  obtain ⟨hfl, hp, hh, hu, -⟩ := identityFlags_spec ((pageIndex 1 virt * 512 + pageIndex 2 virt) * 0x200000)
  have h₂ := hwalk.2
  rw [identityPd, if_pos ⟨hi, hlt⟩, identityEntry_eq] at h₂
  have hc : pageIndex 1 virt * 512 + pageIndex 2 virt < 2 ^ 31 := by
    clear hlt h₂
    omega
  rw [Mem.hardwareWalk_leaf h₀ hwalk.1 h₂ (by omega) (by omega) hc hfl hp hh hu, pd_address]

theorem walk_low_none (h : KernelMap s n maxMemory m) (h0 : pageIndex 0 virt = 0)
    (hge : ¬(pageIndex 1 virt * 512 + pageIndex 2 virt) * 0x200000 < maxMemory) : m.hardwareWalk s virt = none := by
  have hr := h.range
  obtain ⟨h₀, hwalk⟩ := h.low_walk h0
  split at hwalk
  · have h₂ := hwalk.2
    rw [identityPd, if_neg (fun hc => hge hc.2)] at h₂
    exact Mem.hardwareWalk_no_page h₀ hwalk.1 h₂ (by omega) (by omega)
  · exact Mem.hardwareWalk_no_pd h₀ hwalk (by omega)

theorem walk_high (h : KernelMap s n maxMemory m) (h0 : pageIndex 0 virt = 511) (h1 : pageIndex 1 virt = 510) :
    m.hardwareWalk s virt = some (virt % 0x40000000, false) := by
  have hr := h.range
  have hi := pageIndex_lt 2 virt
  have h₀ : m s (pageIndex 0 virt) = entry (s + 2 + n) 3#64 := by
    rw [h.tables.pml4, h0, if_neg (by decide), if_pos rfl]
  have h₁ : m (s + 2 + n) (pageIndex 1 virt) = entry (s + 3 + n) 3#64 := by rw [h.tables.pdptHi, if_pos h1]
  have h₂ := h.map.pdHi _ hi
  rw [highEntry_eq] at h₂
  have haddr : pageIndex 2 virt * 0x200000 + virt % 0x200000 = virt % 0x40000000 := by
    simp only [pageIndex]
    omega
  rw [Mem.hardwareWalk_leaf h₀ h₁ h₂ (by omega) (by omega) (by omega) (LowFlags.flagsOnly rfl) (by decide) (by decide)
    (by decide), haddr]

theorem walk_none (h : KernelMap s n maxMemory m) (h0 : pageIndex 0 virt ≠ 0)
    (h1 : ¬(pageIndex 0 virt = 511 ∧ pageIndex 1 virt = 510)) : m.hardwareWalk s virt = none := by
  have hr := h.range
  by_cases h511 : pageIndex 0 virt = 511
  · have h₀ : m s (pageIndex 0 virt) = entry (s + 2 + n) 3#64 := by
      rw [h.tables.pml4, if_neg h0, if_pos h511]
    refine Mem.hardwareWalk_no_pd h₀ ?_ (by omega)
    rw [h.tables.pdptHi, if_neg fun hc => h1 ⟨h511, hc⟩]
  · refine Mem.hardwareWalk_no_pdpt ?_
    rw [h.tables.pml4, if_neg h0, if_neg h511]

theorem pdEntry_low (h : KernelMap s n maxMemory m) (h0 : pageIndex 0 virt = 0)
    (hlt : (pageIndex 1 virt * 512 + pageIndex 2 virt) * 0x200000 < maxMemory) :
    m.pdEntry s virt = some (entry ((pageIndex 1 virt * 512 + pageIndex 2 virt) * 512)
      (identityFlags ((pageIndex 1 virt * 512 + pageIndex 2 virt) * 0x200000))) := by
  have hi := pageIndex_lt 2 virt
  have hj := pageIndex_lt 1 virt
  have hr := h.range
  have hn : pageIndex 1 virt < n := (h.map.count _).mpr (by omega)
  obtain ⟨h₀, hwalk⟩ := h.low_walk h0
  rw [if_pos hn] at hwalk
  obtain ⟨h₁, h₂⟩ := hwalk
  rw [identityPd, if_pos ⟨hi, hlt⟩, identityEntry_eq] at h₂
  have ht₁ : m.tableAt s virt 1 = some (s + 1) := by
    rw [Mem.tableAt_succ rfl, h₀]
    exact link_entry (by omega)
  have ht₂ : m.tableAt s virt 2 = some (s + 2 + pageIndex 1 virt) := by
    rw [Mem.tableAt_succ ht₁, h₁]
    exact link_entry (by omega)
  rw [Mem.pdEntry, ht₂, Option.map_some, h₂]

theorem tableAt_bootNode (h : KernelMap s n maxMemory m) {k t : Nat} (ht : m.tableAt s virt k = some t) :
    k ≤ 2 ∧ BootNode s n t (pagePath virt k) := by
  induction k generalizing t with
  | zero =>
    cases ht
    exact ⟨by decide, .pml4⟩
  | succ k ih =>
    obtain ⟨t', ht', hl⟩ := Mem.tableAt_eq_some ht
    obtain ⟨-, hnode⟩ := ih ht'
    rw [← pagePath_length virt k] at hl
    obtain ⟨hchild, -, hlen⟩ := h.tables.link h.range hnode hl
    rw [pagePath_length] at hlen hl
    rw [pagePath_length] at hchild
    exact ⟨by omega, hchild⟩

theorem tableAt_two_eq_none (h : KernelMap s n maxMemory m)
    (h0 : pageIndex 0 virt = 0 → maxMemory ≤ pageIndex 1 virt * 0x40000000) (h511 : pageIndex 0 virt ≠ 511) :
    m.tableAt s virt 2 = none := by
  cases ht : m.tableAt s virt 2 with
  | none => rfl
  | some t =>
    obtain ⟨-, hnode⟩ := h.tableAt_bootNode ht
    generalize hp : pagePath virt 2 = p at hnode
    cases hnode with
    | pd hj =>
      have h1 : pageIndex 1 virt = _ := (List.cons.inj hp).1
      have := ((h.map.count _).mp hj).2
      have := h0 (List.cons.inj (List.cons.inj hp).2).1
      rw [h1] at this
      omega
    | pdHi => exact absurd (List.cons.inj (List.cons.inj hp).2).1 h511
    | pml4 | pdpt | pdptHi => exact absurd (congrArg List.length hp) (by rw [pagePath_length]; decide)

end KernelMap

/-! ### The end of the identity map -/

/-- The end of the highest conventional descriptor, `0` when there is none. -/
def conventionalEnd (mmap : List Descriptor) : Nat :=
  (mmap.filter fun d => d.type = 7).foldr (fun d top => max (d.physicalStart + d.numberOfPages * 4096) top) 0

/-- Where the identity map should end: after all conventional memory, the framebuffer and the first 4 GiB, on a 2 MiB
    boundary, and within the first slot of the PML4. -/
def identityEnd (boot : BootInfo) : Nat :=
  min ((max (max (conventionalEnd boot.memoryMap) (boot.framebuffer + boot.height * boot.pixelsPerScanline * 4))
    (2 ^ 32) + 0x1FFFFF) / 0x200000 * 0x200000) (2 ^ 39)

/-- Descriptors and framebuffer lie in the physical address space, and the framebuffer's size fits 32 bits. -/
structure PhysicalBounds (boot : BootInfo) : Prop where
  pixels : boot.height * boot.pixelsPerScanline * 4 < 2 ^ 32
  ends : ∀ d ∈ boot.memoryMap, d.physicalStart + d.numberOfPages * 4096 ≤ 2 ^ 52
  framebuffer : boot.framebuffer + boot.height * boot.pixelsPerScanline * 4 ≤ 2 ^ 52

theorem ramTop_eq {mmap : List Descriptor} (h : ∀ d ∈ mmap, d.physicalStart + d.numberOfPages * 4096 ≤ 2 ^ 52) :
    ramTop mmap = conventionalEnd mmap := by
  have hfold : ∀ top, mmap.foldl (fun top d => if d.type = 7 then (if d.endAddr > top then d.endAddr else top)
    else top) top =
      max top (conventionalEnd mmap) := by
    induction mmap with
    | nil => intro top; simp [conventionalEnd]
    | cons d l ih =>
      intro top
      have hd := h d List.mem_cons_self
      rw [List.foldl_cons, ih fun e he => h e (List.mem_cons_of_mem _ he)]
      by_cases ht : d.type = 7
      · have hend : d.endAddr = d.physicalStart + d.numberOfPages * 4096 := Nat.mod_eq_of_lt (by omega)
        have hcons : conventionalEnd (d :: l) = max (d.physicalStart + d.numberOfPages * 4096) (conventionalEnd l) := by
          simp [conventionalEnd, ht]
        rw [if_pos ht, hcons, hend]
        split <;> omega
      · have hcons : conventionalEnd (d :: l) = conventionalEnd l := by simp [conventionalEnd, ht]
        rw [if_neg ht, hcons]
  exact (hfold 0).trans (Nat.zero_max _)

theorem conventionalEnd_le {mmap : List Descriptor} {b : Nat}
    (h : ∀ d ∈ mmap, d.physicalStart + d.numberOfPages * 4096 ≤ b) : conventionalEnd mmap ≤ b := by
  induction mmap with
  | nil => exact Nat.zero_le _
  | cons d l ih =>
    have hl := ih fun e he => h e (List.mem_cons_of_mem _ he)
    have hd := h d List.mem_cons_self
    by_cases ht : d.type = 7
    · simp only [conventionalEnd, ht, decide_true, List.filter_cons_of_pos, List.foldr_cons] at hl ⊢
      omega
    · simp only [conventionalEnd, ht, decide_false, Bool.false_eq_true, not_false_eq_true,
        List.filter_cons_of_neg] at hl ⊢
      exact hl

theorem PhysicalBounds.identityEnd_eq {boot : BootInfo} (h : PhysicalBounds boot) :
    identityEnd boot = min (maxMemory boot) (2 ^ 39) := by
  have hconv := conventionalEnd_le h.ends
  have hfb := h.framebuffer
  have hpix : boot.height * boot.pixelsPerScanline * 4 % 2 ^ 32 = boot.height * boot.pixelsPerScanline * 4 :=
    Nat.mod_eq_of_lt h.pixels
  unfold identityEnd maxMemory memoryTop framebufferEnd
  rw [ramTop_eq h.ends, hpix, Nat.mod_eq_of_lt (show _ < 2 ^ 64 by omega), Nat.mod_eq_of_lt (show _ < 2 ^ 64 by omega)]

/-! ### The whole map -/

theorem maxMemory_aligned (boot : BootInfo) : maxMemory boot % 0x200000 = 0 := Nat.mul_mod_left _ _

/-- The processor reaches physical address `pa` at `va`, and may write there. -/
def Mem.Maps (m : Mem) (pml4 va pa : Nat) : Prop :=
  m.hardwareWalk pml4 va = some (pa, false) ∧ m.writableAt pml4 va = true

namespace Bootloader
variable {n va : Nat} {m : Mem}

theorem maps_leaf {t₁ t₂ c : Nat} (h₀ : m ptBase (pageIndex 0 va) = entry t₁ 3#64)
    (h₁ : m t₁ (pageIndex 1 va) = entry t₂ 3#64) (h₂ : m t₂ (pageIndex 2 va) = entry (c * 512) 0x83#64)
    (ht₁ : t₁ < 2 ^ 40) (ht₂ : t₂ < 2 ^ 40) (hc : c < 2 ^ 31) :
    m.Maps ptBase va (c * 0x200000 + va % 0x200000) := by
  refine ⟨Mem.hardwareWalk_leaf h₀ h₁ h₂ ht₁ ht₂ hc (LowFlags.flagsOnly rfl) (by decide) (by decide) (by decide), ?_⟩
  have hf₁ : (entry t₁ 3#64).frame = t₁ := frame_entry ht₁ (LowFlags.flagsOnly rfl)
  have hf₂ : (entry t₂ 3#64).frame = t₂ := frame_entry ht₂ (LowFlags.flagsOnly rfl)
  have h3 : Word.writable 3#64 = true ∧ Word.writable 0x83#64 = true ∧ Word.huge 0x83#64 = true := by decide
  simp only [Mem.writableAt, h₀, hf₁, h₁, hf₂, h₂, writable_entry, huge_entry, h3, Bool.true_or, Bool.and_true,
    Bool.or_true]

theorem Built.maps_high (h : Built n m) (h0 : pageIndex 0 va = 511) (h1 : pageIndex 1 va = 510) :
    m.Maps ptBase va (va % 0x40000000) := by
  have hi := pageIndex_lt 2 va
  have haddr : pageIndex 2 va * 0x200000 + va % 0x200000 = va % 0x40000000 := by
    simp only [pageIndex]
    omega
  rw [← haddr]
  exact maps_leaf (by rw [h.pml4, if_neg (by omega), if_pos h0]) (by rw [h.pdptHi, if_pos h1]) (h.pdHi _ hi)
    (by decide) (by decide)
    (by omega)

/-- The first GiB at `KERNEL_VIRT_BASE`, where the tables of `paging_init` have it too. -/
theorem Built.maps_kernel (h : Built n m) {o : Nat} (ho : o < 2 ^ 30) : m.Maps ptBase (kernelVirtBase + o) o := by
  have hmaps : m.Maps ptBase (kernelVirtBase + o) _ :=
    h.maps_high (by simp only [pageIndex, kernelVirtBase]; omega) (by simp only [pageIndex, kernelVirtBase]; omega)
  rwa [show (kernelVirtBase + o) % 0x40000000 = o by simp only [kernelVirtBase]; omega] at hmaps

end Bootloader

section Map
variable {boot : BootInfo} {img : KernelImage} {mem : Mem} {pml4 : Nat} {a : Arena}

/-- `paging_init` maps exactly the identity map and the higher half, caches neither APIC window, and takes every table
    from the arena, each for one place. -/
theorem kernel_tables_map (hb : PhysicalBounds boot) (h : pagingInit boot img mem = (pml4, a)) :
    (∀ va < identityEnd boot, a.mem.hardwareWalk pml4 va = some (va, false)) ∧
    (∀ va, identityEnd boot ≤ va → va < 2 ^ 47 → a.mem.hardwareWalk pml4 va = none) ∧
    (∀ o < 2 ^ 30, a.mem.hardwareWalk pml4 (kernelVirtBase + o) = some (o, false) ∧
      ∀ before : Mem, (Bootloader.buildTables boot before).2.hardwareWalk (Bootloader.buildTables boot before).1
        (kernelVirtBase + o) = some (o, false)) ∧
    (∀ va, va / 0x200000 * 0x200000 = 0xFEC00000 ∨ va / 0x200000 * 0x200000 = 0xFEE00000 →
      ∃ e, a.mem.pdEntry pml4 va = some e ∧ e.present = true ∧ e.huge = true ∧ e.uncached = true) ∧
    ∀ va k t, a.mem.tableAt pml4 va k = some t → img.endPhys ≤ t * 4096 ∧
      (t + 1) * 4096 ≤ arenaEnd boot img mem * 4096 ∧
      ∀ va' k', a.mem.tableAt pml4 va' k' = some t → pagePath va k = pagePath va' k' := by
  obtain ⟨n, hmap, hpml4, hnext⟩ := kernelMap_pagingInit boot img mem
  have hend : arenaEnd boot img mem = arenaStart img + 4 + n := hnext
  rw [h] at hmap hpml4
  dsimp only at hmap hpml4
  subst hpml4
  have hal := maxMemory_aligned boot
  have htop : 2 ^ 32 ≤ maxMemory boot := by
    have := hb.identityEnd_eq
    have : 2 ^ 32 ≤ identityEnd boot := by
      unfold identityEnd
      omega
    omega
  have hslot : ∀ {va}, va < 2 ^ 39 → pageIndex 0 va = 0 := fun {va} hva => by
    simp only [pageIndex]
    omega
  rw [hb.identityEnd_eq]
  refine ⟨fun va hva => ?_, fun va hva hlow => ?_,
    fun o ho => ⟨?_, fun before => ((Bootloader.buildTables_built boot before).1.maps_kernel ho).1⟩, fun va hva => ?_,
      fun va k t ht => ?_⟩
  · have haddr := KernelMap.pd_address va
    rw [hmap.walk_low (hslot (by omega)) (by omega), Nat.mod_eq_of_lt (by omega)]
  · by_cases h39 : va < 2 ^ 39
    · have haddr := KernelMap.pd_address va
      exact hmap.walk_low_none (hslot h39) (by omega)
    · refine hmap.walk_none ?_ ?_ <;> simp only [pageIndex] <;> omega
  · rw [hmap.walk_high]
    · simp only [kernelVirtBase]
      rw [show (0xFFFFFFFF80000000 + o) % 0x40000000 = o by omega]
    · simp only [pageIndex, kernelVirtBase]
      omega
    · simp only [pageIndex, kernelVirtBase]
      omega
  · have haddr := KernelMap.pd_address va
    have hpage := KernelMap.pd_page (show va < 0x8000000000 by omega)
    refine ⟨_, hmap.pdEntry_low (hslot (by omega)) (by rw [hpage]; omega), ?_⟩
    obtain ⟨-, hp, hh, -, -⟩ := identityFlags_spec ((pageIndex 1 va * 512 + pageIndex 2 va) * 0x200000)
    rw [present_entry, huge_entry, uncached_entry]
    refine ⟨hp, hh, ?_⟩
    rw [hpage, identityFlags, if_pos hva]
    decide
  · obtain ⟨-, hnode⟩ := hmap.tableAt_bootNode ht
    have hbounds := hnode.bounds
    refine ⟨Nat.le_trans (endPhys_le_arenaStart img) (Nat.mul_le_mul_right _ hbounds.1), by omega, fun va' k' ht' => ?_⟩
    · obtain ⟨-, hnode'⟩ := hmap.tableAt_bootNode ht'
      exact hnode.path_unique hnode'

end Map

/-- On the sample machine the tables map the last byte below 4 GiB to itself, and the byte after it nowhere. -/
theorem kernel_tables_map_sample : ∃ pml4 a,
    pagingInit Pmm.sampleFirmware.toBootInfo Pmm.sampleImage (fun _ _ => 0#64) = (pml4, a) ∧
    a.mem.hardwareWalk pml4 0xFFFFFFFF = some (0xFFFFFFFF, false) ∧ a.mem.hardwareWalk pml4 0x100000000 = none := by
  have hb : PhysicalBounds Pmm.sampleFirmware.toBootInfo := ⟨by decide, by decide, by decide⟩
  have hend : identityEnd Pmm.sampleFirmware.toBootInfo = 0x100000000 := by decide
  obtain ⟨hlow, hnone, -⟩ := kernel_tables_map hb (rfl : pagingInit _ Pmm.sampleImage (fun _ _ => 0#64) = _)
  rw [hend] at hlow hnone
  exact ⟨_, _, rfl, hlow _ (by decide), hnone _ (by decide) (by decide)⟩

end SamOS
