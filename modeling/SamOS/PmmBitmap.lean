import SamOS.Pmm
import SamOS.Lib.Bits

/-! What each operation of the physical memory manager does to the bits: one lemma for each operation says which bit
    it reads or writes, and the later modules use only these. -/

namespace SamOS.Pmm
open Loop

/-- A page that `pmm_alloc_page` may hand out. -/
def Free (s : Pmm) (page : Nat) : Prop := page < s.totalPages ∧ s.bitmapTest page = false

theorem bitmapTest_eq (s : Pmm) (page : Nat) : s.bitmapTest page = (s.bitmap (page / 8)).getLsbD (page % 8) :=
  Bits.and_bit_ne_zero _ (Nat.mod_lt _ (by decide))

@[simp] theorem bitmapTest_bitmapSet (s : Pmm) (p q : Nat) :
    (s.bitmapSet p).bitmapTest q = (s.bitmapTest q || decide (q = p)) := by
  simp only [bitmapTest_eq, bitmapSet, Function.update_apply]
  by_cases hb : q / 8 = p / 8
  · have hbit : q % 8 = p % 8 ↔ q = p := by omega
    rw [if_pos hb, Bits.getLsbD_or_bit _ (Nat.mod_lt _ (by decide)), hb]
    simp [hbit]
  · have hne : q ≠ p := fun h => hb (h ▸ rfl)
    rw [if_neg hb]
    simp [hne]

@[simp] theorem bitmapTest_bitmapClear (s : Pmm) (p q : Nat) :
    (s.bitmapClear p).bitmapTest q = (s.bitmapTest q && decide (q ≠ p)) := by
  simp only [bitmapTest_eq, bitmapClear, Function.update_apply]
  by_cases hb : q / 8 = p / 8
  · have hbit : q % 8 = p % 8 ↔ q = p := by omega
    rw [if_pos hb, Bits.getLsbD_and_not_bit _ (Nat.mod_lt _ (by decide)), hb]
    simp [hbit]
  · have hne : q ≠ p := fun h => hb (h ▸ rfl)
    rw [if_neg hb]
    simp [hne]

@[simp] theorem bitmapSet_totalPages (s : Pmm) (p : Nat) : (s.bitmapSet p).totalPages = s.totalPages := rfl
@[simp] theorem bitmapSet_bitmapSize (s : Pmm) (p : Nat) : (s.bitmapSet p).bitmapSize = s.bitmapSize := rfl
@[simp] theorem bitmapClear_totalPages (s : Pmm) (p : Nat) : (s.bitmapClear p).totalPages = s.totalPages := rfl
@[simp] theorem bitmapClear_bitmapSize (s : Pmm) (p : Nat) : (s.bitmapClear p).bitmapSize = s.bitmapSize := rfl

@[simp] theorem releasePage_totalPages (s : Pmm) (p : Nat) : (s.releasePage p).totalPages = s.totalPages := rfl
@[simp] theorem releasePage_bitmapSize (s : Pmm) (p : Nat) : (s.releasePage p).bitmapSize = s.bitmapSize := rfl
@[simp] theorem takePage_totalPages (s : Pmm) (p : Nat) : (s.takePage p).totalPages = s.totalPages := rfl
@[simp] theorem takePage_bitmapSize (s : Pmm) (p : Nat) : (s.takePage p).bitmapSize = s.bitmapSize := rfl

@[simp] theorem bitmapTest_releasePage (s : Pmm) (p q : Nat) :
    (s.releasePage p).bitmapTest q = (s.bitmapTest q && decide (q ≠ p)) := bitmapTest_bitmapClear s p q

@[simp] theorem bitmapTest_takePage (s : Pmm) (p q : Nat) :
    (s.takePage p).bitmapTest q = (s.bitmapTest q || decide (q = p)) := bitmapTest_bitmapSet s p q

variable {s : Pmm} {p q fuel page count j i : Nat}

theorem free_takePage_iff : (s.takePage p).Free q ↔ s.Free q ∧ q ≠ p := by
  simp [Free, and_assoc]

theorem free_releasePage_iff (hp : p < s.totalPages) :
    (s.releasePage p).Free q ↔ s.Free q ∨ q = p := by
  simp only [Free, releasePage_totalPages, bitmapTest_releasePage, Bool.and_eq_false_iff]
  constructor
  · rintro ⟨hlt, h | h⟩
    · exact Or.inl ⟨hlt, h⟩
    · exact Or.inr (by simpa using h)
  · rintro (⟨hlt, h⟩ | rfl)
    · exact ⟨hlt, Or.inl h⟩
    · exact ⟨hp, Or.inr (by simp)⟩

/-! ### Reserving -/

@[simp] theorem reservePage_totalPages (s : Pmm) (p : Nat) : (s.reservePage p).totalPages = s.totalPages := by
  unfold reservePage
  split
  · rfl
  · split <;> rfl

@[simp] theorem reservePage_bitmapSize (s : Pmm) (p : Nat) : (s.reservePage p).bitmapSize = s.bitmapSize := by
  unfold reservePage
  split
  · rfl
  · split <;> rfl

/-- Reserving a page below `total_pages` makes it used, and changes no other page. -/
theorem free_reservePage_iff : (s.reservePage p).Free q ↔ s.Free q ∧ q ≠ p := by
  unfold reservePage
  split
  · rename_i hp
    exact ⟨fun h => ⟨h, fun hq => absurd h.1 (by omega)⟩, fun h => h.1⟩
  · split
    · rename_i hused
      refine ⟨fun h => ⟨h, ?_⟩, fun h => h.1⟩
      rintro rfl
      rw [h.2] at hused
      cases hused
    · exact free_takePage_iff

@[simp] theorem reservePages_totalPages (s : Pmm) (lo hi : Nat) : (s.reservePages lo hi).totalPages = s.totalPages :=
  forRange_keeps (P := fun t : Pmm => t.totalPages = s.totalPages) rfl fun _ t _ _ ht => by simpa using ht

@[simp] theorem reservePages_bitmapSize (s : Pmm) (lo hi : Nat) : (s.reservePages lo hi).bitmapSize = s.bitmapSize :=
  forRange_keeps (P := fun t : Pmm => t.bitmapSize = s.bitmapSize) rfl fun _ t _ _ ht => by simpa using ht

theorem free_reservePages_iff {lo hi : Nat} :
    (s.reservePages lo hi).Free q ↔ s.Free q ∧ ¬(lo ≤ q ∧ q < hi) := by
  unfold reservePages
  rcases Nat.le_total hi lo with h | h
  · rw [forRange_of_le h]
    exact ⟨fun hf => ⟨hf, by omega⟩, fun hf => hf.1⟩
  · apply forRange_invariant (P := fun i (t : Pmm) => t.Free q ↔ s.Free q ∧ ¬(lo ≤ q ∧ q < i)) h
    · exact ⟨fun hf => ⟨hf, by omega⟩, fun hf => hf.1⟩
    · intro i t hlo _ ih
      rw [free_reservePage_iff, ih, and_assoc]
      refine and_congr_right fun _ => ?_
      omega

@[simp] theorem reserveRange_totalPages (s : Pmm) (start bytes : Nat) :
    (s.reserveRange start bytes).totalPages = s.totalPages := by
  unfold reserveRange
  split
  · rfl
  · exact reservePages_totalPages ..

@[simp] theorem reserveRange_bitmapSize (s : Pmm) (start bytes : Nat) :
    (s.reserveRange start bytes).bitmapSize = s.bitmapSize := by
  unfold reserveRange
  split
  · rfl
  · exact reservePages_bitmapSize ..

/-- Page `p` and the byte range `[lo, hi)` have a byte in common. -/
def Overlaps (p lo hi : Nat) : Prop := lo < hi ∧ lo < (p + 1) * 4096 ∧ p * 4096 < hi

instance (p lo hi : Nat) : Decidable (Overlaps p lo hi) := inferInstanceAs (Decidable (_ ∧ _))

/-- Where the rounded end does not wrap, `reserve_range` takes exactly the pages that overlap the range. -/
theorem free_reserveRange_iff {start bytes : Nat} (h : start + bytes + 4095 < 2 ^ 64) :
    (s.reserveRange start bytes).Free q ↔ s.Free q ∧ ¬Overlaps q start (start + bytes) := by
  unfold reserveRange Overlaps
  split
  · rename_i hb
    exact ⟨fun hf => ⟨hf, by omega⟩, fun hf => hf.1⟩
  · rw [free_reservePages_iff, Nat.mod_eq_of_lt h]
    refine and_congr_right fun _ => ?_
    omega

/-! ### Allocation -/

theorem findFree_eq_some (h : s.findFree fuel page = some p) :
    page ≤ p ∧ p < page + fuel ∧ s.bitmapTest p = false ∧ ∀ q, page ≤ q → q < p → s.bitmapTest q = true := by
  induction fuel generalizing page with
  | zero => cases h
  | succ n ih =>
    unfold findFree at h
    split at h
    · rename_i hused
      obtain ⟨h1, h2, h3, h4⟩ := ih h
      refine ⟨by omega, by omega, h3, fun q hq hqp => ?_⟩
      rcases Nat.eq_or_lt_of_le hq with rfl | hlt
      · exact hused
      · exact h4 q hlt hqp
    · rename_i hfree
      cases h
      exact ⟨Nat.le_refl _, by omega, by simpa using hfree, fun q hq hqp => absurd hqp (by omega)⟩

theorem findFree_eq_none (h : s.findFree fuel page = none) :
    ∀ q, page ≤ q → q < page + fuel → s.bitmapTest q = true := by
  induction fuel generalizing page with
  | zero => intro q h1 h2; omega
  | succ n ih =>
    unfold findFree at h
    split at h
    · rename_i hused
      intro q h1 h2
      rcases Nat.eq_or_lt_of_le h1 with rfl | hlt
      · exact hused
      · exact ih h q hlt (by omega)
    · cases h

/-- `pmm_alloc_page` takes the lowest free page, or returns `0` and changes nothing when none is free. -/
theorem pmmAllocPage_cases (s : Pmm) :
    (∃ p, s.Free p ∧ (∀ q < p, ¬s.Free q) ∧ s.pmmAllocPage = (p, s.takePage p)) ∨
    ((∀ q, ¬s.Free q) ∧ s.pmmAllocPage = (0, s)) := by
  unfold pmmAllocPage
  cases h : s.findFree s.totalPages 0 with
  | none =>
    refine Or.inr ⟨fun q hq => ?_, rfl⟩
    have hused := findFree_eq_none h q (Nat.zero_le _) (by have := hq.1; omega)
    rw [hq.2] at hused
    cases hused
  | some p =>
    obtain ⟨-, hlt, hfree, hleast⟩ := findFree_eq_some h
    refine Or.inl ⟨p, ⟨by omega, hfree⟩, fun q hq hf => ?_, rfl⟩
    have hused := hleast q (Nat.zero_le _) hq
    rw [hf.2] at hused
    cases hused

theorem pmmAllocPage_of_least (hp : s.Free p) (hleast : ∀ q < p, ¬s.Free q) :
    s.pmmAllocPage = (p, s.takePage p) := by
  rcases s.pmmAllocPage_cases with ⟨p', hp', hleast', heq⟩ | ⟨hnone, -⟩
  · rcases Nat.lt_trichotomy p p' with hlt | rfl | hlt
    · exact absurd hp (hleast' p hlt)
    · exact heq
    · exact absurd hp' (hleast p' hlt)
  · exact absurd hp (hnone p)

theorem findUsed_eq_none (h : s.findUsed count page = none) :
    ∀ q, page ≤ q → q < page + count → s.bitmapTest q = false := by
  induction count generalizing page with
  | zero => intro q h1 h2; omega
  | succ n ih =>
    unfold findUsed at h
    split at h
    · cases h
    · rename_i hfree
      intro q h1 h2
      rcases Nat.eq_or_lt_of_le h1 with rfl | hlt
      · simpa using hfree
      · exact ih h q hlt (by omega)

theorem findUsed_eq_some (h : s.findUsed count page = some j) :
    page ≤ j ∧ j < page + count ∧ s.bitmapTest j = true := by
  induction count generalizing page with
  | zero => cases h
  | succ n ih =>
    unfold findUsed at h
    split at h
    · rename_i hused
      cases h
      exact ⟨Nat.le_refl _, by omega, hused⟩
    · obtain ⟨h1, h2, h3⟩ := ih h
      exact ⟨by omega, by omega, h3⟩

theorem findRun_eq_some {r : Nat} (h : s.findRun count fuel i = some (some r)) :
    i ≤ r ∧ r ≤ s.totalPages - count ∧ ∀ q, r ≤ q → q < r + count → s.bitmapTest q = false := by
  induction fuel generalizing i with
  | zero => cases h
  | succ n ih =>
    unfold findRun at h
    split at h
    · rename_i hi
      split at h
      · rename_i j hj
        obtain ⟨h1, h2, h3⟩ := ih h
        have := (findUsed_eq_some hj).1
        exact ⟨by omega, h2, h3⟩
      · rename_i hnone
        cases h
        exact ⟨Nat.le_refl _, hi, findUsed_eq_none hnone⟩
    · cases h

/-- The search comes to its end, as each iteration starts at a later page, and any larger bound gives the same
    result. -/
theorem findRun_ends {n : Nat} (h : s.totalPages - count < i + n) :
    ∃ r, ∀ fuel, n < fuel → s.findRun count fuel i = some r := by
  induction n generalizing i with
  | zero =>
    refine ⟨none, fun fuel hf => ?_⟩
    obtain ⟨fuel, rfl⟩ := Nat.exists_eq_add_of_lt hf
    rw [findRun, if_neg (by omega)]
  | succ n ih =>
    by_cases hi : i ≤ s.totalPages - count
    · cases hused : s.findUsed count i with
      | none =>
        refine ⟨some i, fun fuel hf => ?_⟩
        obtain ⟨fuel, rfl⟩ := Nat.exists_eq_add_of_lt hf
        rw [findRun, if_pos hi, hused]
      | some u =>
        have hu := (findUsed_eq_some hused).1
        obtain ⟨r, hr⟩ := ih (i := u + 1) (by omega)
        refine ⟨r, fun fuel hf => ?_⟩
        obtain ⟨fuel, rfl⟩ := Nat.exists_eq_add_of_lt hf
        rw [findRun, if_pos hi, hused]
        exact hr _ (by omega)
    · refine ⟨none, fun fuel hf => ?_⟩
      obtain ⟨fuel, rfl⟩ := Nat.exists_eq_add_of_lt hf
      rw [findRun, if_neg hi]

/-- The starts that the search passes over have a used page in their window. -/
theorem findRun_passes {r : Option Nat} (h : s.findRun count fuel i = some r) (hij : i ≤ j)
    (hj : j ≤ s.totalPages - count) (hr : ∀ k ∈ r, j < k) : ∃ q, j ≤ q ∧ q < j + count ∧ s.bitmapTest q = true := by
  induction fuel generalizing i with
  | zero => cases h
  | succ n ih =>
    rw [findRun, if_pos (by omega)] at h
    cases hused : s.findUsed count i with
    | none =>
      rw [hused] at h
      cases h
      have := hr i rfl
      omega
    | some u =>
      rw [hused] at h
      obtain ⟨h1, h2, h3⟩ := findUsed_eq_some hused
      rcases Nat.lt_or_ge u j with hlt | hge
      · exact ih h hlt
      · exact ⟨u, hge, by omega, h3⟩

theorem free_takePages_iff {lo hi : Nat} (h : lo ≤ hi) :
    (forRange lo hi (fun j s => takePage s j) s).Free q ↔ s.Free q ∧ ¬(lo ≤ q ∧ q < hi) := by
  apply forRange_invariant (P := fun i (t : Pmm) => t.Free q ↔ s.Free q ∧ ¬(lo ≤ q ∧ q < i)) h
  · exact ⟨fun hf => ⟨hf, by omega⟩, fun hf => hf.1⟩
  · intro i t hlo _ ih
    rw [free_takePage_iff, ih, and_assoc]
    refine and_congr_right fun _ => ?_
    omega

@[simp] theorem takePages_totalPages (s : Pmm) (lo hi : Nat) :
    (forRange lo hi (fun j s => takePage s j) s).totalPages = s.totalPages :=
  forRange_keeps (P := fun t : Pmm => t.totalPages = s.totalPages) rfl fun _ _ _ _ ht => ht

/-- `pmm_alloc_pages` takes a run of `count` free pages, or returns `0` and changes nothing. -/
theorem pmmAllocPages_cases (s : Pmm) (count : Nat) :
    (∃ i, 1 ≤ i ∧ 0 < count ∧ (∀ q, i ≤ q → q < i + count → s.Free q) ∧
      s.pmmAllocPages count = (i, forRange i (i + count) (fun j s => takePage s j) s)) ∨
    s.pmmAllocPages count = (0, s) := by
  unfold pmmAllocPages
  split
  · exact Or.inr rfl
  · rename_i hcount
    split
    · rename_i i h
      obtain ⟨h1, h2, h3⟩ := findRun_eq_some h
      exact Or.inl ⟨i, h1, by omega, fun q hq hq' => ⟨by omega, h3 q hq hq'⟩, rfl⟩
    · exact Or.inr rfl

theorem pmmAllocPages_of_run (hc : 0 < count) (hj : 1 ≤ j) (hfree : ∀ q, j ≤ q → q < j + count → s.Free q) :
    ∃ i, 1 ≤ i ∧ (∀ q, i ≤ q → q < i + count → s.Free q) ∧
      s.pmmAllocPages count = (i, forRange i (i + count) (fun j s => takePage s j) s) := by
  have hlast := (hfree (j + count - 1) (by omega) (by omega)).1
  obtain ⟨r, hr⟩ := findRun_ends (show s.totalPages - count < 1 + s.totalPages by omega)
  have hr := hr _ (Nat.lt_succ_self _)
  cases r with
  | none =>
    obtain ⟨q, h1, h2, h3⟩ := findRun_passes hr hj (by omega) (by simp)
    rw [(hfree q h1 h2).2] at h3
    cases h3
  | some r =>
    have hr0 := (findRun_eq_some hr).1
    rcases s.pmmAllocPages_cases count with ⟨i, h1, -, h2, h3⟩ | h
    · exact ⟨i, h1, h2, h3⟩
    · unfold pmmAllocPages at h
      rw [if_neg (by omega), hr] at h
      have := congrArg Prod.fst h
      dsimp only at this
      omega

/-! ### Release -/

/-- `pmm_free_page` frees a used page other than page 0, and ignores every other argument. -/
theorem pmmFreePage_cases (s : Pmm) (p : Nat) :
    (p ≠ 0 ∧ p < s.totalPages ∧ s.bitmapTest p = true ∧ s.pmmFreePage p = s.releasePage p) ∨
    ((p = 0 ∨ s.totalPages ≤ p ∨ s.Free p) ∧ s.pmmFreePage p = s) := by
  unfold pmmFreePage
  split
  · rename_i hp
    refine Or.inr ⟨?_, rfl⟩
    rcases hp with hp | hp
    · exact Or.inl hp
    · exact Or.inr (Or.inl hp)
  · rename_i hp
    split
    · rename_i hused
      exact Or.inl ⟨by omega, by omega, hused, rfl⟩
    · rename_i hfree
      exact Or.inr ⟨Or.inr (Or.inr ⟨by omega, by simpa using hfree⟩), rfl⟩

@[simp] theorem pmmFreePage_totalPages (s : Pmm) (p : Nat) : (s.pmmFreePage p).totalPages = s.totalPages := by
  rcases s.pmmFreePage_cases p with ⟨-, -, -, h⟩ | ⟨-, h⟩ <;> rw [h]
  rfl

theorem free_pmmFreePage_iff :
    (s.pmmFreePage p).Free q ↔ s.Free q ∨ (q = p ∧ p ≠ 0 ∧ p < s.totalPages) := by
  rcases s.pmmFreePage_cases p with ⟨h0, hlt, hused, h⟩ | ⟨hp, h⟩ <;> rw [h]
  · rw [free_releasePage_iff hlt]
    exact or_congr_right ⟨fun hq => ⟨hq, h0, hlt⟩, fun hq => hq.1⟩
  · refine ⟨Or.inl, ?_⟩
    rintro (hq | ⟨rfl, h0, hlt⟩)
    · exact hq
    · rcases hp with hp | hp | hp
      · exact absurd hp h0
      · exact absurd hlt (by omega)
      · exact hp

end SamOS.Pmm
