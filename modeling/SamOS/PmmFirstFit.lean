import SamOS.PmmBitmap

/-! `pmm_alloc_pages` is a complete first fit. The search restarts after the used page that it meets, which skips only
    starts whose window holds that page. -/

namespace SamOS
open Loop

namespace Pmm

/-- Pages `i, …, i + count - 1` are free pages of the bitmap. -/
structure FitsAt (s : Pmm) (count i : Nat) : Prop where
  pos : 0 < count
  start : 1 ≤ i
  inside : i + count ≤ s.totalPages
  free : ∀ q, i ≤ q → q < i + count → s.bitmapTest q = false

/-- What an allocation of the pages from `i` on returns and does. -/
structure Takes (s : Pmm) (count i : Nat) (result : Nat × Pmm) : Prop where
  page : result.1 = i
  bits : ∀ q, result.2.bitmapTest q = (s.bitmapTest q || decide (i ≤ q ∧ q < i + count))
  freePages : result.2.freePages = s.freePages - BitVec.ofNat 64 count
  totalPages : result.2.totalPages = s.totalPages
  bitmapSize : result.2.bitmapSize = s.bitmapSize

theorem takes_takePages (s : Pmm) (count i : Nat) :
    s.Takes count i (i, forRange i (i + count) (fun j s => takePage s j) s) := by
  refine ⟨rfl, fun q => ?_, ?_, takePages_totalPages s i (i + count), ?_⟩
  · refine forRange_invariant (P := fun n (t : Pmm) => t.bitmapTest q = (s.bitmapTest q || decide (i ≤ q ∧ q < n)))
      (Nat.le_add_right i count) ?_ ?_
    · rw [decide_eq_false (by omega), Bool.or_false]
    · intro n t hin _ ht
      rw [bitmapTest_takePage, ht, Bool.or_assoc, ← Bool.decide_or]
      congr 2
      exact propext (by omega)
  · have hloop : (forRange i (i + count) (fun j s => takePage s j) s).freePages = s.freePages - BitVec.ofNat 64
        (i + count - i) := by
      refine forRange_invariant (P := fun n (t : Pmm) => t.freePages = s.freePages - BitVec.ofNat 64 (n - i))
        (Nat.le_add_right i count) ?_ ?_
      · simp
      · intro n t hin _ ht
        show t.freePages - 1 = _
        rw [ht, Nat.succ_sub hin, ← Nat.add_one, BitVec.ofNat_add, BitVec.sub_sub]
        rfl
    rwa [Nat.add_sub_cancel_left] at hloop
  · exact forRange_keeps (P := fun t : Pmm => t.bitmapSize = s.bitmapSize) rfl fun _ _ _ _ ht => ht

/-- The loop of `pmm_alloc_pages(count)` comes to its end within `total_pages + 1` iterations, and the call takes the
    pages from the least start where `count` free pages lie, or changes nothing when there is no such start. Page
    numbers stand for their addresses. -/
theorem pmm_alloc_pages_first_fit (s : Pmm) (count : Nat) :
    (∃ r, ∀ fuel, s.totalPages < fuel → s.findRun count fuel 1 = some r) ∧
    (∀ i, s.FitsAt count i → (∀ j < i, ¬s.FitsAt count j) → s.Takes count i (s.pmmAllocPages count)) ∧
    ((∀ i, ¬s.FitsAt count i) → s.pmmAllocPages count = (0, s)) := by
  obtain ⟨r, hends⟩ := findRun_ends (show s.totalPages - count < 1 + s.totalPages by omega)
  refine ⟨⟨r, hends⟩, fun i hi hleast => ?_, fun hnone => ?_⟩
  · obtain ⟨hpos, hstart, hinside, hfree⟩ := hi
    have hr := hends _ (Nat.lt_succ_self _)
    -- No start before `i` has a run, and the search does not pass over `i`.
    obtain rfl : r = some i := by
      have hfound : ¬∀ k ∈ r, i < k := fun hk => by
        obtain ⟨q, h1, h2, hused⟩ := findRun_passes hr hstart (by omega) hk
        rw [hfree q h1 h2] at hused
        cases hused
      cases r with
      | none => exact absurd (by simp) hfound
      | some k =>
        obtain ⟨h1, h2, h3⟩ := findRun_eq_some hr
        rcases Nat.lt_trichotomy k i with hlt | he | hgt
        · exact absurd ⟨hpos, h1, by omega, h3⟩ (hleast k hlt)
        · rw [he]
        · exact absurd (by simpa using hgt) hfound
    unfold pmmAllocPages
    rw [if_neg (by omega), hr]
    exact s.takes_takePages count i
  · rcases s.pmmAllocPages_cases count with ⟨i, hi, hpos, hfree, -⟩ | he
    · have hlast := (hfree (i + count - 1) (by omega) (by omega)).1
      exact absurd ⟨hpos, hi, by omega, fun q h1 h2 => (hfree q h1 h2).2⟩ (hnone i)
    · exact he

/-- Eight pages, of which page 2 is used: three pages are found from page 3 on. -/
theorem pmm_alloc_pages_first_fit_sample :
    (⟨fun _ => 0x04#8, 1, 8, 7#64⟩ : Pmm).Takes 3 3 ((⟨fun _ => 0x04#8, 1, 8, 7#64⟩ : Pmm).pmmAllocPages 3) := by
  refine (pmm_alloc_pages_first_fit ⟨fun _ => 0x04#8, 1, 8, 7#64⟩ 3).2.1 3 ⟨by decide, by decide, by decide, ?_⟩ ?_
  · intro q h1 h2
    have hq : q = 3 ∨ q = 4 ∨ q = 5 := by omega
    rcases hq with rfl | rfl | rfl <;> decide
  · rintro j hj ⟨-, h1, -, hfree⟩
    have hused := hfree 2 (by omega) (by omega)
    exact absurd hused (by decide)

end Pmm
end SamOS
