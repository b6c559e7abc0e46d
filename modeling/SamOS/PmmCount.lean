import SamOS.PmmOwnership
import SamOS.Lib.Count

/-! The free-page counter. `free_pages` is changed next to every change of the bitmap, at some places under a test of
    the bit and at others without one. It stays the number of clear bits because an untested decrement comes after a
    search that found the bit clear, and the untested increments of `pmm_init` meet only set bits as long as no two
    conventional descriptors share a page. -/

namespace SamOS

/-- Page `p` is one that the loop of `pmm_init` over the pages of a descriptor visits. -/
def Descriptor.Covers (d : Descriptor) (p : Nat) : Prop :=
  d.physicalStart / 4096 ≤ p ∧ p < d.physicalStart / 4096 + d.numberOfPages

/-- Two conventional descriptors do not overlap. -/
def Descriptor.Apart (d e : Descriptor) : Prop :=
  d.type = 7 → e.type = 7 → d.physicalStart + d.numberOfPages * 4096 ≤ e.physicalStart ∨
    e.physicalStart + e.numberOfPages * 4096 ≤ d.physicalStart

theorem Descriptor.Apart.not_covers {d e : Descriptor} (h : d.Apart e) (hd : d.type = 7) (he : e.type = 7) {p : Nat}
    (hp : d.Covers p) : ¬e.Covers p := by
  have h := h hd he
  unfold Covers at hp ⊢
  omega

namespace Pmm
open Loop Paging

/-- The number of clear bits among the pages `[0, total_pages)`. -/
def freeCount (s : Pmm) : Nat := Nat.count (fun p => s.bitmapTest p = false) s.totalPages

/-- The counter agrees with the bitmap, and no bit past `total_pages` is clear. -/
structure Counted (s : Pmm) : Prop where
  size : s.bitmapSize = (s.totalPages + 7) / 8
  lt : s.totalPages < 2 ^ 64
  count : s.freePages.toNat = s.freeCount
  padding : ∀ p, s.totalPages ≤ p → p < s.bitmapSize * 8 → s.bitmapTest p = true

/-! ### One page -/

section Page
variable {s : Pmm} {p : Nat}

theorem freeCount_takePage (hp : s.Free p) : s.freeCount = (s.takePage p).freeCount + 1 :=
  Count.count_insert hp.1 (by simp) hp.2 fun i hi => by simp [hi]

theorem freeCount_pos_iff : 0 < s.freeCount ↔ ∃ p, s.Free p := by
  rw [Nat.pos_iff_ne_zero, freeCount, Nat.count_ne_iff_exists]
  rfl

theorem le_freeCount {lo k : Nat} (h : ∀ q, lo ≤ q → q < lo + k → s.Free q) : k ≤ s.freeCount := by
  rcases Nat.eq_zero_or_pos k with rfl | hk
  · exact Nat.zero_le _
  have hlast := (h (lo + k - 1) (by omega) (by omega)).1
  have hrun : Nat.count (fun i => s.bitmapTest (lo + i) = false) k = k :=
    Nat.count_of_forall fun i hi => (h _ (by omega) (by omega)).2
  have hsum := Nat.count_add (fun p => s.bitmapTest p = false) lo k
  have hle := Nat.count_monotone (fun p => s.bitmapTest p = false) (show lo + k ≤ s.totalPages by omega)
  unfold freeCount
  omega

theorem freeCount_releasePage (hp : p < s.totalPages) (hused : s.bitmapTest p = true) :
    (s.releasePage p).freeCount = s.freeCount + 1 :=
  Count.count_insert hp (by simp [hused]) (by simp) fun i hi => by simp [hi]

theorem Counted.takePage (h : s.Counted) (hp : s.Free p) : (s.takePage p).Counted := by
  refine ⟨h.size, h.lt, ?_, fun q hq hq' => ?_⟩
  · have hcount := freeCount_takePage hp
    have hone : (1#64).toNat = 1 := rfl
    have hlt := s.freePages.isLt
    show (s.freePages - 1#64).toNat = _
    rw [BitVec.toNat_sub, h.count, hone]
    have := h.count
    omega
  · rw [bitmapTest_takePage, h.padding q hq hq', Bool.true_or]

theorem Counted.releasePage (h : s.Counted) (hp : p < s.totalPages) (hused : s.bitmapTest p = true) :
    (s.releasePage p).Counted := by
  have hcount := freeCount_releasePage hp hused
  have hle : (s.releasePage p).freeCount ≤ s.totalPages := Nat.count_le _
  have hlt := h.lt
  refine ⟨h.size, h.lt, ?_, fun q hq hq' => ?_⟩
  · have hone : (1#64).toNat = 1 := rfl
    show (s.freePages + 1#64).toNat = _
    rw [BitVec.toNat_add, h.count, hone, Nat.mod_eq_of_lt (by omega), hcount]
  · have hne : q ≠ p := by
      have : s.totalPages ≤ q := hq
      omega
    rw [bitmapTest_releasePage, h.padding q hq hq']
    simp [hne]

theorem Counted.reservePage (h : s.Counted) : (s.reservePage p).Counted := by
  unfold Pmm.reservePage
  split
  · exact h
  · split
    · exact h
    · rename_i hlt hfree
      exact h.takePage ⟨by omega, by simpa using hfree⟩

theorem Counted.reservePages (h : s.Counted) (lo hi : Nat) : (s.reservePages lo hi).Counted :=
  forRange_keeps h fun _ _ _ _ ht => ht.reservePage

theorem Counted.reserveRange (h : s.Counted) (start bytes : Nat) : (s.reserveRange start bytes).Counted := by
  unfold Pmm.reserveRange
  split
  · exact h
  · exact h.reservePages _ _

theorem Counted.reserveDescriptors (h : s.Counted) (mmap : List Descriptor) :
    (mmap.foldl reserveDescriptor s).Counted := by
  induction mmap generalizing s with
  | nil => exact h
  | cons d l ih =>
    refine ih ?_
    unfold reserveDescriptor
    split
    · exact h.reserveRange _ _
    · exact h

end Page

/-! ### Initialisation -/

section Init
variable {s : Pmm}

/-- A conventional descriptor whose pages are all marked used frees them. -/
theorem Counted.freeConventional {d : Descriptor} (h : s.Counted)
    (hle : d.type = 7 → d.physicalStart / 4096 + d.numberOfPages ≤ s.totalPages)
    (hused : d.type = 7 → ∀ p, d.Covers p → s.bitmapTest p = true) :
    (s.freeConventional d).Counted ∧
    ∀ q, ¬(d.type = 7 ∧ d.Covers q) → (s.freeConventional d).bitmapTest q = s.bitmapTest q := by
  unfold Pmm.freeConventional
  split
  · exact ⟨h, fun _ _ => rfl⟩
  · rename_i ht
    have ht : d.type = 7 := by simpa using ht
    have hle := hle ht
    have hused := hused ht
    have hloop := forRange_invariant (f := fun p s => Pmm.releasePage s (d.physicalStart / 4096 + p)) (s := s)
      (P := fun i (t : Pmm) => t.Counted ∧ t.totalPages = s.totalPages ∧
        ∀ q, ¬(d.physicalStart / 4096 ≤ q ∧ q < d.physicalStart / 4096 + i) → t.bitmapTest q = s.bitmapTest q)
      (Nat.zero_le d.numberOfPages) ⟨h, rfl, fun _ _ => rfl⟩ ?_
    · exact ⟨hloop.1, fun q hq => hloop.2.2 q fun hc => hq ⟨ht, hc⟩⟩
    · rintro i t - hi ⟨hcount, htot, hsame⟩
      refine ⟨hcount.releasePage (by omega) ?_, htot, fun q hq => ?_⟩
      · rw [hsame _ (by omega)]
        exact hused _ ⟨by omega, by omega⟩
      · rw [bitmapTest_releasePage, hsame q (by omega)]
        have hne : q ≠ d.physicalStart / 4096 + i := by omega
        simp [hne]

theorem Counted.freeAll {mmap : List Descriptor} (h : s.Counted) (hapart : mmap.Pairwise Descriptor.Apart)
    (hle : ∀ d ∈ mmap, d.type = 7 → d.physicalStart / 4096 + d.numberOfPages ≤ s.totalPages)
    (hused : ∀ d ∈ mmap, d.type = 7 → ∀ p, d.Covers p → s.bitmapTest p = true) :
    (mmap.foldl Pmm.freeConventional s).Counted := by
  induction mmap generalizing s with
  | nil => exact h
  | cons d l ih =>
    obtain ⟨hd, hl⟩ := List.pairwise_cons.mp hapart
    obtain ⟨hcount, hsame⟩ := h.freeConventional (hle d List.mem_cons_self) (hused d List.mem_cons_self)
    refine ih hcount hl (fun e he hte => ?_) fun e he hte p hp => ?_
    · rw [freeConventional_totalPages]
      exact hle e (List.mem_cons_of_mem _ he) hte
    · -- the pages of a later descriptor are none of those just freed
      rw [hsame p fun hc => (hd e he).not_covers hc.1 hte hc.2 hp]
      exact hused e (List.mem_cons_of_mem _ he) hte p hp

theorem maxAddr_lt (mmap : List Descriptor) : maxAddr mmap < 2 ^ 64 := by
  have hfold : ∀ (l : List Descriptor) (m : Nat), m < 2 ^ 64 →
      l.foldl (fun m d => if d.endAddr > m then d.endAddr else m) m < 2 ^ 64 := by
    intro l
    induction l with
    | nil => exact fun _ h => h
    | cons d l ih =>
      intro m hm
      refine ih _ ?_
      show (if d.endAddr > m then d.endAddr else m) < 2 ^ 64
      split
      · exact Nat.mod_lt _ (by decide)
      · exact hm
  exact hfold mmap 0 (by decide)

theorem counted_allUsed (mmap : List Descriptor) (memory : Nat → BitVec 8) : (allUsed mmap memory).Counted := by
  refine ⟨rfl, ?_, ?_, fun p _ hp => bitmapTest_allUsed hp⟩
  · have := maxAddr_lt mmap
    show maxAddr mmap / 4096 < 2 ^ 64
    omega
  · refine (Nat.count_iff_forall_not.mpr fun p hp hfree => ?_).symm
    exact not_free_allUsed mmap memory p ⟨hp, hfree⟩

/-- `pmm_init` leaves an exact count when no two conventional descriptors overlap. -/
theorem counted_pmmInit {boot : BootInfo} (img : KernelImage) (arenaEnd : Nat) (memory : Nat → BitVec 8)
    (hapart : boot.memoryMap.Pairwise Descriptor.Apart)
    (hwrap : ∀ d ∈ boot.memoryMap, d.type = 7 → d.physicalStart + d.numberOfPages * 4096 < 2 ^ 64) :
    (pmmInit boot img arenaEnd memory).Counted := by
  have hle : ∀ d ∈ boot.memoryMap, d.type = 7 →
      d.physicalStart / 4096 + d.numberOfPages ≤ (allUsed boot.memoryMap memory).totalPages := by
    intro d hd ht
    have hend := endAddr_le_maxAddr hd
    rw [Descriptor.endAddr, Nat.mod_eq_of_lt (hwrap d hd ht)] at hend
    show _ ≤ maxAddr boot.memoryMap / 4096
    omega
  have hfree := (counted_allUsed boot.memoryMap memory).freeAll hapart hle fun d hd ht p hp =>
    bitmapTest_allUsed (by
      have := hle d hd ht
      have := hp.2
      have := (counted_allUsed boot.memoryMap memory).size
      omega)
  exact ((((hfree.reservePages _ _).reservePages _ _ |>.reservePages _ _).reservePage.reservePages _ _
    |>.reserveRange _ _).reserveRange _ _).reserveDescriptors _

theorem not_free_zero_pmmInit (boot : BootInfo) (img : KernelImage) (arenaEnd : Nat) (memory : Nat → BitVec 8) :
    ¬(pmmInit boot img arenaEnd memory).Free 0 := by
  have reserve : ∀ {t : Pmm} {p : Nat}, ¬t.Free 0 → ¬(t.reservePage p).Free 0 := fun h hf =>
    h (free_reservePage_iff.mp hf).1
  have pages : ∀ {t : Pmm} {lo hi : Nat}, ¬t.Free 0 → ¬(t.reservePages lo hi).Free 0 := fun h hf =>
    h (free_reservePages_iff.mp hf).1
  have range : ∀ {t : Pmm} {start bytes : Nat}, ¬t.Free 0 → ¬(t.reserveRange start bytes).Free 0 := by
    intro t start bytes h
    unfold Pmm.reserveRange
    split
    · exact h
    · exact pages h
  have descriptors : ∀ (l : List Descriptor) {t : Pmm}, ¬t.Free 0 → ¬(l.foldl reserveDescriptor t).Free 0 := by
    intro l
    induction l with
    | nil => exact fun h => h
    | cons d l ih =>
      intro t h
      refine ih ?_
      unfold reserveDescriptor
      split
      · exact range h
      · exact h
  refine descriptors _ (range (range (pages fun h => ?_)))
  exact (free_reservePage_iff.mp h).2 rfl

end Init

/-! ### Runs -/

/-- All runs of the three calls after `pmm_init`, with any arguments. -/
def calls (boot : BootInfo) (img : KernelImage) (mem : Mem) (memory : Nat → BitVec 8) : Lts.System Pmm Op where
  init s := s = pmmInit boot img (arenaEnd boot img mem * 4096) memory
  step s op s' := s' = (s.exec op).2

variable {s : Pmm}

theorem Counted.takePages (h : s.Counted) {i count : Nat}
    (hfree : ∀ q, i ≤ q → q < i + count → s.Free q) :
    (forRange i (i + count) (fun j s => Pmm.takePage s j) s).Counted ∧
    (forRange i (i + count) (fun j s => Pmm.takePage s j) s).freeCount + count = s.freeCount := by
  have hloop := forRange_invariant (f := fun j s => Pmm.takePage s j) (s := s)
    (P := fun n (t : Pmm) => t.Counted ∧ t.freeCount + (n - i) = s.freeCount ∧ ∀ q, n ≤ q → (s.Free q → t.Free q))
    (Nat.le_add_right i count) ⟨h, by omega, fun _ _ hq => hq⟩ ?_
  · exact ⟨hloop.1, by have := hloop.2.1; omega⟩
  · rintro n t hlo hhi ⟨hcount, hsum, hsame⟩
    have hn := hsame n (Nat.le_refl _) (hfree n hlo hhi)
    have hone := freeCount_takePage hn
    refine ⟨hcount.takePage hn, by omega, fun q hq hf => ?_⟩
    exact free_takePage_iff.mpr ⟨hsame q (by omega) hf, by omega⟩

theorem Counted.alloc (h : s.Counted) (h0 : ¬s.Free 0) {op : Op} (hop : ∀ p, op ≠ .freePage p) :
    (s.exec op).2.Counted ∧ (s.exec op).2.freeCount + (s.exec op).1.length = s.freeCount := by
  cases op with
  | allocPage =>
    simp only [exec]
    rcases s.pmmAllocPage_cases with ⟨p, hp, -, he⟩ | ⟨-, he⟩
    · have hne : p ≠ 0 := fun hz => h0 (hz ▸ hp)
      rw [he, if_neg hne]
      exact ⟨h.takePage hp, (freeCount_takePage hp).symm⟩
    · rw [he, if_pos rfl]
      exact ⟨h, rfl⟩
  | allocPages count =>
    simp only [exec]
    rcases s.pmmAllocPages_cases count with ⟨i, hi, -, hfree, he⟩ | he
    · rw [he, if_neg (by simp; omega), List.length_range']
      exact h.takePages hfree
    · rw [he, if_pos rfl]
      exact ⟨h, rfl⟩
  | freePage page => exact absurd rfl (hop page)

theorem Counted.freePage (h : s.Counted) (p : Nat) : (s.pmmFreePage p).Counted := by
  rcases s.pmmFreePage_cases p with ⟨-, hlt, hused, he⟩ | ⟨-, he⟩ <;> rw [he]
  · exact h.releasePage hlt hused
  · exact h

theorem Counted.exec (h : s.Counted) (h0 : ¬s.Free 0) (op : Op) : (s.exec op).2.Counted := by
  cases op with
  | allocPage => exact (h.alloc h0 (by simp)).1
  | allocPages count => exact (h.alloc h0 (by simp)).1
  | freePage page => exact h.freePage page

theorem not_free_zero_exec (h0 : ¬s.Free 0) (op : Op) : ¬(s.exec op).2.Free 0 := by
  intro hf
  rcases exec_free hf with hf | rfl
  · exact h0 hf
  · rcases free_pmmFreePage_iff.mp hf with hf | ⟨-, hne, -⟩
    · exact h0 hf
    · exact hne rfl

section Calls
variable {boot : BootInfo} {img : KernelImage} {mem : Mem} {memory : Nat → BitVec 8} {s : Pmm}

theorem counted_of_reachable (hapart : boot.memoryMap.Pairwise Descriptor.Apart)
    (hwrap : ∀ d ∈ boot.memoryMap, d.type = 7 → d.physicalStart + d.numberOfPages * 4096 < 2 ^ 64)
    (h : (calls boot img mem memory).Reachable s) : s.Counted ∧ ¬s.Free 0 := by
  refine h.invariant (I := fun s => s.Counted ∧ ¬s.Free 0) ?_ ?_
  · rintro s rfl
    exact ⟨counted_pmmInit img _ memory hapart hwrap, not_free_zero_pmmInit boot img _ memory⟩
  · rintro s op s' ⟨hcount, h0⟩ rfl
    exact ⟨hcount.exec h0 op, not_free_zero_exec h0 op⟩

/-- In every state the calls can reach, `free_pages` is the number of clear bits, an allocation lowers it by what it
    returns, page 0 and the padding bits are set, and a null pointer means that no page is free. -/
theorem free_count_exact (hapart : boot.memoryMap.Pairwise Descriptor.Apart)
    (hwrap : ∀ d ∈ boot.memoryMap, d.type = 7 → d.physicalStart + d.numberOfPages * 4096 < 2 ^ 64)
    (h : (calls boot img mem memory).Reachable s) :
    s.freePages.toNat = s.freeCount ∧
    (∀ op, (∀ p, op ≠ .freePage p) → (s.exec op).2.freePages.toNat + (s.exec op).1.length = s.freePages.toNat) ∧
    (∀ p, p < s.bitmapSize * 8 → p = 0 ∨ s.totalPages ≤ p → s.bitmapTest p = true) ∧
    (s.pmmAllocPage.1 = 0 → ∀ p < s.totalPages, s.bitmapTest p = true) := by
  obtain ⟨hcount, h0⟩ := counted_of_reachable hapart hwrap h
  refine ⟨hcount.count, fun op hop => ?_, fun p hp hpad => ?_, fun hnull p hp => ?_⟩
  · obtain ⟨hnext, hsum⟩ := hcount.alloc h0 hop
    rw [hnext.count, hcount.count, hsum]
  · rcases hpad with rfl | hpad
    · have := hcount.size
      by_contra hclear
      exact h0 ⟨by omega, by simpa using hclear⟩
    · exact hcount.padding p hpad hp
  · rcases s.pmmAllocPage_cases with ⟨q, hq, -, he⟩ | ⟨hnone, -⟩
    · rw [he] at hnull
      exact absurd (show q = 0 from hnull) fun hz => h0 (hz ▸ hq)
    · by_contra hclear
      exact hnone p ⟨hp, by simpa using hclear⟩

end Calls

/-- The sample machine starts with all its conventional pages free, and one page less after an allocation. -/
theorem free_count_exact_sample :
    ∃ s s', (calls sampleFirmware.toBootInfo sampleImage (fun _ _ => 0#64) fun _ => 0#8).Reachable s ∧
      (s.exec .allocPage).2 = s' ∧ s'.freePages.toNat + 1 = s.freePages.toNat ∧ s.freePages.toNat = s.freeCount := by
  have hapart : sampleFirmware.memoryMap.Pairwise Descriptor.Apart := List.pairwise_singleton _ _
  obtain ⟨hlo, hhi⟩ := arenaEnd_bounds sampleFirmware.toBootInfo sampleImage fun _ _ => 0#64
  obtain ⟨s, hs⟩ : ∃ s, (calls sampleFirmware.toBootInfo sampleImage (fun _ _ => 0#64) fun _ => 0#8).init s := ⟨_, rfl⟩
  have hfree : ∀ p, s.Free p ↔ 0x10000 ≤ p ∧ p < 0x20000 := fun p => by
    rw [show s = _ from hs]
    exact (free_pmmInit_iff sampleFirmware sampleImage _ hlo).trans (allocatable_sample_iff hhi)
  have hinit := Lts.System.Reachable.init hs
  obtain ⟨hcount, hdown, -, -⟩ := free_count_exact hapart (fun d hd _ => sampleFirmware.noWrap d hd) hinit
  have hone : (s.exec .allocPage).1.length = 1 := by
    simp only [exec]
    rcases s.pmmAllocPage_cases with ⟨p, hp, -, he⟩ | ⟨hnone, -⟩
    · have hp := (hfree p).mp hp
      rw [he, if_neg (show p ≠ 0 by omega)]
      rfl
    · exact absurd ((hfree 0x10000).mpr (by omega)) (hnone 0x10000)
  exact ⟨s, _, hinit, rfl, hone ▸ hdown .allocPage (by simp), hcount⟩

end Pmm
end SamOS
