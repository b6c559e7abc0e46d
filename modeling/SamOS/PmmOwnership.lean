import SamOS.PmmBitmap
import SamOS.Paging
import SamOS.Lib.Lts
import Mathlib.Data.Set.Basic

/-! Who owns a physical page. After `pmm_init` only conventional pages outside every reserved range are free, and an
    allocation takes a free page while a release gives back a held one, so every page handed out is conventional,
    unreserved and not held by anybody else. -/

namespace SamOS.Pmm
open Loop Paging

/-! ### Initialisation -/

/-- Page `p` lies in a conventional descriptor. -/
def Conventional (mmap : List Descriptor) (p : Nat) : Prop :=
  ∃ d ∈ mmap, d.type = 7 ∧ d.physicalStart ≤ p * 4096 ∧ (p + 1) * 4096 ≤ d.physicalStart + d.numberOfPages * 4096

theorem le_maxAddr_foldl (mmap : List Descriptor) (m : Nat) :
    m ≤ mmap.foldl (fun m d => if d.endAddr > m then d.endAddr else m) m ∧
    ∀ d ∈ mmap, d.endAddr ≤ mmap.foldl (fun m d => if d.endAddr > m then d.endAddr else m) m := by
  induction mmap generalizing m with
  | nil => simp
  | cons x l ih =>
    obtain ⟨h1, h2⟩ := ih (if x.endAddr > m then x.endAddr else m)
    simp only [List.foldl_cons]
    refine ⟨Nat.le_trans (by split <;> omega) h1, fun d hd => ?_⟩
    rcases List.mem_cons.mp hd with rfl | hd
    · exact Nat.le_trans (by split <;> omega) h1
    · exact h2 d hd

variable {mmap : List Descriptor} {s : Pmm} {q p : Nat} {op : Op}

theorem endAddr_le_maxAddr {d : Descriptor} (hd : d ∈ mmap) : d.endAddr ≤ maxAddr mmap :=
  (le_maxAddr_foldl mmap 0).2 d hd

@[simp] theorem freeConventional_totalPages (s : Pmm) (d : Descriptor) :
    (s.freeConventional d).totalPages = s.totalPages := by
  unfold freeConventional
  split
  · rfl
  · exact forRange_keeps (P := fun t : Pmm => t.totalPages = s.totalPages) rfl fun _ _ _ _ ht => ht

@[simp] theorem freeConventional_bitmapSize (s : Pmm) (d : Descriptor) :
    (s.freeConventional d).bitmapSize = s.bitmapSize := by
  unfold freeConventional
  split
  · rfl
  · exact forRange_keeps (P := fun t : Pmm => t.bitmapSize = s.bitmapSize) rfl fun _ _ _ _ ht => ht

/-- A conventional descriptor frees exactly its pages; any other descriptor frees none. -/
theorem free_freeConventional_iff {d : Descriptor} (ha : d.physicalStart % 4096 = 0)
    (hle : d.physicalStart + d.numberOfPages * 4096 ≤ s.totalPages * 4096) :
    (s.freeConventional d).Free q ↔ s.Free q ∨ Conventional [d] q := by
  unfold freeConventional
  split
  · rename_i ht
    simp [Conventional, ht]
  · rename_i ht
    have hloop : ∀ n ≤ d.numberOfPages,
      (forRange 0 n (fun p s => s.releasePage (d.physicalStart / 4096 + p)) s).Free q ↔
        s.Free q ∨ (d.physicalStart / 4096 ≤ q ∧ q < d.physicalStart / 4096 + n) := by
      intro n hn
      refine (forRange_invariant (P := fun i (t : Pmm) => t.totalPages = s.totalPages ∧
        (t.Free q ↔ s.Free q ∨ (d.physicalStart / 4096 ≤ q ∧ q < d.physicalStart / 4096 + i))) (Nat.zero_le n) ?_ ?_).2
      · exact ⟨rfl, ⟨Or.inl, fun h => h.elim id fun h => absurd h (by omega)⟩⟩
      · rintro i t - hi ⟨htot, ih⟩
        refine ⟨htot, ?_⟩
        rw [free_releasePage_iff (by omega), ih, or_assoc]
        refine or_congr_right ?_
        omega
    rw [hloop _ (Nat.le_refl _)]
    refine or_congr_right ?_
    simp only [Conventional, List.mem_singleton, exists_eq_left]
    omega

theorem freeAll_totalPages (mmap : List Descriptor) (s : Pmm) :
    (mmap.foldl freeConventional s).totalPages = s.totalPages ∧
    (mmap.foldl freeConventional s).bitmapSize = s.bitmapSize := by
  induction mmap generalizing s with
  | nil => exact ⟨rfl, rfl⟩
  | cons d l ih => simpa using ih (s.freeConventional d)

theorem free_freeAll_iff (ha : ∀ d ∈ mmap, d.physicalStart % 4096 = 0)
    (hle : ∀ d ∈ mmap, d.physicalStart + d.numberOfPages * 4096 ≤ s.totalPages * 4096) :
    (mmap.foldl freeConventional s).Free q ↔ s.Free q ∨ Conventional mmap q := by
  induction mmap generalizing s with
  | nil => simp [Conventional]
  | cons d l ih =>
    rw [List.foldl_cons, ih (fun x hx => ha x (List.mem_cons_of_mem _ hx))
      (fun x hx => by simpa using hle x (List.mem_cons_of_mem _ hx)),
      free_freeConventional_iff (ha d List.mem_cons_self) (hle d List.mem_cons_self), or_assoc]
    refine or_congr_right ?_
    simp [Conventional]

theorem bitmapTest_allUsed {memory : Nat → BitVec 8}
    (hp : p < (allUsed mmap memory).bitmapSize * 8) : (allUsed mmap memory).bitmapTest p = true := by
  have hbyte : p / 8 < (maxAddr mmap / 4096 + 7) / 8 := by
    have : (allUsed mmap memory).bitmapSize = (maxAddr mmap / 4096 + 7) / 8 := rfl
    omega
  have hones : ∀ k : Fin 8, (0xFF#8).getLsbD k = true := by decide
  rw [bitmapTest_eq]
  simp only [allUsed, hbyte, if_true]
  exact hones ⟨p % 8, Nat.mod_lt _ (by decide)⟩

theorem not_free_allUsed (mmap : List Descriptor) (memory : Nat → BitVec 8) (q : Nat) :
    ¬(allUsed mmap memory).Free q := by
  rintro ⟨hlt, hq⟩
  have hsize : (allUsed mmap memory).bitmapSize = ((allUsed mmap memory).totalPages + 7) / 8 := rfl
  rw [bitmapTest_allUsed (by omega)] at hq
  cases hq

theorem reserveDescriptors_totalPages (mmap : List Descriptor) (s : Pmm) :
    (mmap.foldl reserveDescriptor s).totalPages = s.totalPages ∧
    (mmap.foldl reserveDescriptor s).bitmapSize = s.bitmapSize := by
  induction mmap generalizing s with
  | nil => exact ⟨rfl, rfl⟩
  | cons d l ih =>
    have h := ih (s.reserveDescriptor d)
    rw [List.foldl_cons]
    unfold reserveDescriptor at h ⊢
    split at h <;> simp_all

theorem free_reserveDescriptors_iff
    (ha : ∀ d ∈ mmap, d.physicalStart % 4096 = 0)
    (hw : ∀ d ∈ mmap, d.physicalStart + d.numberOfPages * 4096 < 2 ^ 64) :
    (mmap.foldl reserveDescriptor s).Free q ↔ s.Free q ∧ ∀ d ∈ mmap, reservedType d.type = true →
      ¬Overlaps q d.physicalStart (d.physicalStart + d.numberOfPages * 4096) := by
  induction mmap generalizing s with
  | nil => simp
  | cons d l ih =>
    have hd := ha d List.mem_cons_self
    have hdw := hw d List.mem_cons_self
    rw [List.foldl_cons, ih (fun x hx => ha x (List.mem_cons_of_mem _ hx)) fun x hx => hw x (List.mem_cons_of_mem _ hx)]
    simp only [List.mem_cons, forall_eq_or_imp]
    unfold reserveDescriptor
    split
    · rename_i ht
      rw [Nat.mod_eq_of_lt (by omega), free_reserveRange_iff (by omega), and_assoc]
      simp [ht]
    · rename_i ht
      simp [ht]

/-- A page that may ever be handed out. -/
structure Allocatable (fw : Firmware) (img : KernelImage) (arenaEnd bitmapSize p : Nat) : Prop where
  conventional : Conventional fw.memoryMap p
  lowMemory : 16 ≤ p
  kernel : ¬Overlaps p kernelPhysBase img.endPhys
  arena : ¬Overlaps p (arenaStart img * 4096) (arenaEnd * 4096)
  bitmap : ¬Overlaps p (arenaEnd * 4096) (arenaEnd * 4096 + bitmapSize)
  framebuffer : ¬Overlaps p fw.framebuffer (fw.framebuffer + fw.height * fw.pixelsPerScanline * 4)
  rsdp : ¬Overlaps p fw.rsdp (fw.rsdp + 4096)
  reserved : ∀ d ∈ fw.memoryMap, reservedType d.type = true →
    ¬Overlaps p d.physicalStart (d.physicalStart + d.numberOfPages * 4096)

theorem pmmInit_totalPages (boot : BootInfo) (img : KernelImage) (arenaEnd : Nat) (memory : Nat → BitVec 8) :
    (pmmInit boot img arenaEnd memory).totalPages = maxAddr boot.memoryMap / 4096 ∧
    (pmmInit boot img arenaEnd memory).bitmapSize = (maxAddr boot.memoryMap / 4096 + 7) / 8 := by
  unfold pmmInit
  simp only [reserveDescriptors_totalPages, reserveRange_totalPages, reserveRange_bitmapSize, reservePages_totalPages,
    reservePages_bitmapSize, reservePage_totalPages, reservePage_bitmapSize, freeAll_totalPages]
  exact ⟨rfl, rfl⟩

section Init
variable (fw : Firmware) (img : KernelImage) (memory : Nat → BitVec 8)

theorem maxAddr_eq_of_noWrap {fw : Firmware} {d : Descriptor} (hd : d ∈ fw.memoryMap) :
    d.physicalStart + d.numberOfPages * 4096 ≤ maxAddr fw.memoryMap / 4096 * 4096 := by
  have hle := endAddr_le_maxAddr hd
  have hw := fw.noWrap d hd
  have ha := fw.aligned d hd
  rw [Descriptor.endAddr, Nat.mod_eq_of_lt hw] at hle
  omega

/-- The free pages after `pmm_init` are exactly the allocatable ones. -/
theorem free_pmmInit_iff {arenaEnd p : Nat} (ha : arenaStart img ≤ arenaEnd) :
    (pmmInit fw.toBootInfo img (arenaEnd * 4096) memory).Free p ↔
      Allocatable fw img arenaEnd ((maxAddr fw.memoryMap / 4096 + 7) / 8) p := by
  have hfb := fw.framebuffer_le
  have hrsdp := fw.rsdp_le
  have hle : ∀ d ∈ fw.memoryMap, d.physicalStart + d.numberOfPages * 4096 ≤
      (allUsed fw.memoryMap memory).totalPages * 4096 := fun d hd => maxAddr_eq_of_noWrap hd
  have hbytes : framebufferBytes fw.toBootInfo = fw.height * fw.pixelsPerScanline * 4 :=
    Nat.mod_eq_of_lt (by omega)
  unfold pmmInit
  simp only [free_reserveDescriptors_iff fw.aligned fw.noWrap,
    free_reserveRange_iff (show fw.rsdp + 4096 + 4095 < 2 ^ 64 by omega), hbytes,
      free_reserveRange_iff (show fw.framebuffer + fw.height * fw.pixelsPerScanline * 4 + 4095 < 2 ^ 64 by omega),
    free_reservePages_iff, free_reservePage_iff, free_freeAll_iff fw.aligned hle, reservePages_bitmapSize,
      freeAll_totalPages,
    not_free_allUsed, false_or]
  simp only [show (allUsed fw.memoryMap memory).bitmapSize = (maxAddr fw.memoryMap / 4096 + 7) / 8 from rfl]
  have hends := img.endPhys_bounds
  unfold arenaStart at ha
  constructor
  · rintro ⟨⟨⟨⟨⟨⟨⟨⟨hconv, hk⟩, hpt⟩, hbm⟩, h0⟩, h1⟩, hf⟩, hr⟩, hd⟩
    refine ⟨hconv, by omega, ?_, ?_, ?_, hf, hr, hd⟩ <;> unfold Overlaps
    · simp only [kernelPhysBase] at hk ⊢
      omega
    · unfold arenaStart
      omega
    · omega
  · rintro ⟨hconv, hlow, hk, hpt, hbm, hf, hr, hd⟩
    unfold Overlaps at hk hpt hbm
    unfold arenaStart at hpt
    simp only [kernelPhysBase] at hk ⊢
    refine ⟨⟨⟨⟨⟨⟨⟨⟨hconv, by omega⟩, by omega⟩, ?_⟩, by omega⟩, by omega⟩, hf⟩, hr⟩, hd⟩
    omega

end Init

/-! ### Runs -/

/-- The calls other kernel code makes; `freePage` names any address in the page by its page number. -/
inductive Op where
  | allocPage
  | allocPages (count : Nat)
  | freePage (page : Nat)
  deriving DecidableEq, Repr

/-- The pages a call returns, and the state after it. A null pointer returns no page. -/
def exec (s : Pmm) : Op → List Nat × Pmm
  | .allocPage => (if s.pmmAllocPage.1 = 0 then [] else [s.pmmAllocPage.1], s.pmmAllocPage.2)
  | .allocPages count =>
    (if (s.pmmAllocPages count).1 = 0 then [] else List.range' (s.pmmAllocPages count).1 count,
      (s.pmmAllocPages count).2)
  | .freePage page => ([], s.pmmFreePage page)

/-- The memory manager together with the pages its callers hold. -/
structure Ledger where
  pmm : Pmm
  held : Set Nat

/-- A call, by callers that only free what they hold. -/
def Ledger.step (l : Ledger) (op : Op) (l' : Ledger) : Prop :=
  l'.pmm = (l.pmm.exec op).2 ∧
  match op with
  | .freePage page => page ∈ l.held ∧ l'.held = l.held \ {page}
  | _ => l'.held = l.held ∪ {p | p ∈ (l.pmm.exec op).1}

/-- All runs after `pmm_init`, on the arena that `paging_init` leaves. -/
def ledgers (fw : Firmware) (img : KernelImage) (mem : Mem) (memory : Nat → BitVec 8) : Lts.System Ledger Op where
  init l := l.pmm = pmmInit fw.toBootInfo img (arenaEnd fw.toBootInfo img mem * 4096) memory ∧ l.held = ∅
  step := Ledger.step

theorem exists_ledger (fw : Firmware) (img : KernelImage) (mem : Mem) (memory : Nat → BitVec 8) :
    ∃ l, (ledgers fw img mem memory).init l := ⟨⟨_, ∅⟩, rfl, rfl⟩

theorem exec_alloc (h : p ∈ (s.exec op).1) : s.Free p ∧ ¬(s.exec op).2.Free p := by
  cases op with
  | allocPage =>
    simp only [exec] at h ⊢
    rcases s.pmmAllocPage_cases with ⟨q, hq, -, he⟩ | ⟨-, he⟩
    · rw [he] at h ⊢
      split at h
      · cases h
      · rw [List.mem_singleton.mp h]
        exact ⟨hq, fun hf => (free_takePage_iff.mp hf).2 rfl⟩
    · rw [he, if_pos rfl] at h
      cases h
  | allocPages count =>
    simp only [exec] at h ⊢
    rcases s.pmmAllocPages_cases count with ⟨i, hi, -, hfree, he⟩ | he
    · rw [he, if_neg (by simp; omega)] at h
      rw [he]
      have hp := List.mem_range'_1.mp h
      exact ⟨hfree p hp.1 hp.2, fun hf => ((free_takePages_iff (Nat.le_add_right _ _)).mp hf).2 hp⟩
    · rw [he, if_pos rfl] at h
      cases h
  | freePage page => cases h

theorem exec_free (h : (s.exec op).2.Free q) : s.Free q ∨ op = .freePage q := by
  cases op with
  | allocPage =>
    simp only [exec] at h
    rcases s.pmmAllocPage_cases with ⟨p, -, -, he⟩ | ⟨-, he⟩ <;> rw [he] at h
    · exact Or.inl (free_takePage_iff.mp h).1
    · exact Or.inl h
  | allocPages count =>
    simp only [exec] at h
    rcases s.pmmAllocPages_cases count with ⟨i, -, -, -, he⟩ | he <;> rw [he] at h
    · exact Or.inl ((free_takePages_iff (Nat.le_add_right _ _)).mp h).1
    · exact Or.inl h
  | freePage page =>
    rcases free_pmmFreePage_iff.mp h with h | ⟨rfl, -⟩
    · exact Or.inl h
    · exact Or.inr rfl

/-- Held pages and free pages are among `P`, and no page is both. -/
structure Ledger.Within (P : Nat → Prop) (l : Ledger) : Prop where
  free : ∀ p, l.pmm.Free p → P p
  held : ∀ p ∈ l.held, P p
  apart : ∀ p ∈ l.held, ¬l.pmm.Free p

theorem Ledger.Within.step {P : Nat → Prop} {l l' : Ledger} (h : l.Within P) (hs : l.step op l') :
    l'.Within P := by
  obtain ⟨hpmm, hheld⟩ := hs
  have alloc : ∀ op, l'.pmm = (l.pmm.exec op).2 → (∀ q, op ≠ .freePage q) →
      l'.held = l.held ∪ {p | p ∈ (l.pmm.exec op).1} → l'.Within P := by
    intro op hpmm hop hheld
    have back : ∀ p, l'.pmm.Free p → l.pmm.Free p := fun p hp => by
      rw [hpmm] at hp
      exact (exec_free hp).resolve_right (hop p)
    refine ⟨fun p hp => h.free p (back p hp), fun p hp => ?_, fun p hp hf => ?_⟩ <;> rw [hheld] at hp
    · rcases hp with hp | hp
      · exact h.held p hp
      · exact h.free p (exec_alloc hp).1
    · rcases hp with hp | hp
      · exact h.apart p hp (back p hf)
      · exact (exec_alloc hp).2 (hpmm ▸ hf)
  cases op with
  | allocPage => exact alloc .allocPage hpmm (by simp) hheld
  | allocPages count => exact alloc (.allocPages count) hpmm (by simp) hheld
  | freePage page =>
    obtain ⟨hpage, hheld⟩ := hheld
    refine ⟨fun p hp => ?_, fun p hp => ?_, fun p hp hf => ?_⟩
    · rw [hpmm] at hp
      rcases exec_free hp with hp | hp
      · exact h.free p hp
      · cases hp
        exact h.held page hpage
    · rw [hheld] at hp
      exact h.held p hp.1
    · rw [hheld] at hp
      rw [hpmm] at hf
      rcases exec_free hf with hf | hf
      · exact h.apart p hp.1 hf
      · cases hf
        exact hp.2 rfl

/-- Held pages and free pages are allocatable, and no page is both. -/
theorem owned_of_reachable {fw : Firmware} {img : KernelImage} {mem : Mem} {memory : Nat → BitVec 8} {l : Ledger}
    (h : (ledgers fw img mem memory).Reachable l) :
    l.Within (Allocatable fw img (arenaEnd fw.toBootInfo img mem) ((maxAddr fw.memoryMap / 4096 + 7) / 8)) := by
  refine h.invariant ?_ fun hl hs => hl.step hs
  rintro l ⟨hpmm, hheld⟩
  refine ⟨fun p hp => ?_, by simp [hheld], by simp [hheld]⟩
  rw [hpmm] at hp
  exact (free_pmmInit_iff fw img memory (arenaEnd_bounds fw.toBootInfo img mem).1).mp hp

/-- Every page an allocation returns is held by nobody, conventional, and outside everything reserved. -/
theorem alloc_returns_owned_pages (fw : Firmware) (img : KernelImage) (mem : Mem) (memory : Nat → BitVec 8) {l : Ledger}
    (h : (ledgers fw img mem memory).Reachable l) (op : Op) : ∀ p ∈ (l.pmm.exec op).1, p ∉ l.held ∧
      Allocatable fw img (arenaEnd fw.toBootInfo img mem) ((maxAddr fw.memoryMap / 4096 + 7) / 8) p := by
  intro p hp
  have inv := owned_of_reachable h
  have hfree := (exec_alloc hp).1
  exact ⟨fun hheld => inv.apart p hheld hfree, inv.free p hfree⟩

/-- A machine with 256 MiB of conventional memory at 256 MiB. -/
def sampleFirmware : Firmware where
  framebuffer := 0x80000000
  height := 768
  pixelsPerScanline := 1024
  memoryMap := [{ type := 7, physicalStart := 0x10000000, numberOfPages := 0x10000 }]
  rsdp := 0xE0000
  aligned := by simp
  noWrap := by simp
  framebuffer_le := by decide
  rsdp_le := by decide

/-- A kernel image of 128 KiB. -/
def sampleImage : KernelImage where
  kernelEnd := 0xFFFFFFFF80120000
  base_le := by decide
  lt := by decide

theorem allocatable_sample_iff {arenaEnd : Nat} (ha : arenaEnd ≤ arenaStart sampleImage + 516) :
    Allocatable sampleFirmware sampleImage arenaEnd ((maxAddr sampleFirmware.memoryMap / 4096 + 7) / 8) p ↔
      0x10000 ≤ p ∧ p < 0x20000 := by
  have hstart : arenaStart sampleImage = 0x220 := by decide
  have hmax : (maxAddr sampleFirmware.memoryMap / 4096 + 7) / 8 = 0x4000 := by decide
  have hend : sampleImage.endPhys = 0x220000 := by decide
  rw [hmax]
  constructor
  · rintro ⟨⟨d, hd, -, h1, h2⟩, -⟩
    rw [List.mem_singleton.mp hd] at h1 h2
    simp only at h1 h2
    omega
  · intro hp
    refine ⟨⟨_, List.mem_singleton_self _, rfl, ?_, ?_⟩, by omega, ?_, ?_, ?_, ?_, ?_, ?_⟩
    · simp only
      omega
    · simp only
      omega
    · simp only [Overlaps, hend]
      omega
    · simp only [Overlaps, hstart]
      omega
    · simp only [Overlaps]
      omega
    · simp only [Overlaps, sampleFirmware]
      omega
    · simp only [Overlaps, sampleFirmware]
      omega
    · intro d hd ht
      rw [List.mem_singleton.mp hd] at ht
      cases ht

/-- On the sample machine the first allocation returns the first conventional page. -/
theorem alloc_returns_owned_pages_sample :
    ∃ l, (ledgers sampleFirmware sampleImage (fun _ _ => 0#64) fun _ => 0#8).Reachable l ∧
      (l.pmm.exec .allocPage).1 = [0x10000] ∧ 0x10000 ∉ l.held := by
  obtain ⟨l, hinit⟩ := exists_ledger sampleFirmware sampleImage (fun _ _ => 0#64) fun _ => 0#8
  obtain ⟨hlo, hhi⟩ := arenaEnd_bounds sampleFirmware.toBootInfo sampleImage fun _ _ => 0#64
  have hfree : ∀ p, l.pmm.Free p ↔ 0x10000 ≤ p ∧ p < 0x20000 := fun p => by
    rw [hinit.1]
    exact (free_pmmInit_iff sampleFirmware sampleImage _ hlo).trans (allocatable_sample_iff hhi)
  have hret : (l.pmm.exec .allocPage).1 = [0x10000] := by
    simp only [exec]
    rcases l.pmm.pmmAllocPage_cases with ⟨p, hp, hleast, he⟩ | ⟨hnone, -⟩
    · have hp' := (hfree p).mp hp
      have : ¬0x10000 < p := fun hlt => hleast 0x10000 hlt ((hfree 0x10000).mpr (by omega))
      have : p = 0x10000 := by omega
      rw [he, this]
      rfl
    · exact absurd ((hfree 0x10000).mpr (by omega)) (hnone 0x10000)
  have hmem : 0x10000 ∈ (l.pmm.exec .allocPage).1 := by
    rw [hret]
    exact List.mem_singleton_self _
  have hl := Lts.System.Reachable.init hinit
  exact ⟨l, hl, hret, (alloc_returns_owned_pages sampleFirmware sampleImage _ _ hl .allocPage 0x10000 hmem).1⟩

end SamOS.Pmm
