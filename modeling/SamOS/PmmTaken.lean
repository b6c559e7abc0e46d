import SamOS.PmmBitmap
import Mathlib.Data.Finset.Card

/-! The exact account of the physical memory manager between two moments: which pages were taken, and that giving
    every one of them back restores the bitmap and the counter. -/

namespace SamOS
namespace Pmm
variable {s₀ s t : Pmm} {T U : Finset Nat} {p : Nat}

theorem free_freeEach_iff (l : List Nat) (s : Pmm) (q : Nat) :
    (l.foldl pmmFreePage s).Free q ↔ s.Free q ∨ (q ∈ l ∧ q ≠ 0 ∧ q < s.totalPages) := by
  induction l generalizing s with
  | nil => simp
  | cons p l ih =>
    rw [List.foldl_cons, ih, free_pmmFreePage_iff, pmmFreePage_totalPages, List.mem_cons, or_assoc]
    refine or_congr_right ?_
    constructor
    · rintro (⟨rfl, h⟩ | ⟨hq, h⟩)
      · exact ⟨Or.inl rfl, h⟩
      · exact ⟨Or.inr hq, h⟩
    · rintro ⟨rfl | hq, h⟩
      · exact Or.inl ⟨rfl, h⟩
      · exact Or.inr ⟨hq, h⟩

theorem freeEach_totalPages (l : List Nat) (s : Pmm) : (l.foldl pmmFreePage s).totalPages = s.totalPages := by
  induction l generalizing s with
  | nil => rfl
  | cons p l ih => rw [List.foldl_cons, ih, pmmFreePage_totalPages]

/-- `s` is `s₀` with the pages of `T` taken. -/
structure Taken (s₀ : Pmm) (T : Finset Nat) (s : Pmm) : Prop where
  bitmapSize : s.bitmapSize = s₀.bitmapSize
  totalPages : s.totalPages = s₀.totalPages
  bit : ∀ p, s.bitmapTest p = (s₀.bitmapTest p || decide (p ∈ T))
  free : ∀ p ∈ T, s₀.Free p
  count : s.freePages + BitVec.ofNat 64 T.card = s₀.freePages

namespace Taken

theorem refl (s : Pmm) : s.Taken ∅ s := ⟨rfl, rfl, by simp, by simp, by simp⟩

theorem free_iff (h : s₀.Taken T s) : s.Free p ↔ s₀.Free p ∧ p ∉ T := by
  unfold Free
  rw [h.totalPages, h.bit]
  simp [and_assoc]

theorem mem_iff (h : s₀.Taken T s) : p ∈ T ↔ s₀.Free p ∧ ¬s.Free p := by
  rw [h.free_iff]
  constructor
  · intro hp
    exact ⟨h.free p hp, fun hn => hn.2 hp⟩
  · rintro ⟨hf, hn⟩
    by_contra hp
    exact hn ⟨hf, hp⟩

theorem take (h : s₀.Taken T s) (hp : s.Free p) : s₀.Taken (insert p T) (s.takePage p) := by
  have hfree := h.free_iff.mp hp
  refine ⟨h.bitmapSize, h.totalPages, fun q => ?_, fun q hq => ?_, ?_⟩
  · rw [bitmapTest_takePage, h.bit]
    by_cases hqp : q = p <;> simp [hqp]
  · rcases Finset.mem_insert.mp hq with rfl | hq
    · exact hfree.1
    · exact h.free q hq
  · rw [Finset.card_insert_of_notMem hfree.2, ← h.count, takePage, BitVec.ofNat_add]
    show s.freePages - 1#64 + _ = _
    rw [BitVec.add_comm (BitVec.ofNat 64 T.card), ← BitVec.add_assoc, BitVec.sub_add_cancel]

theorem give (h : s₀.Taken T s) (hp : p ∈ T) (h0 : p ≠ 0) : s₀.Taken (T.erase p) (s.pmmFreePage p) := by
  have hfree := h.free p hp
  have hused : s.bitmapTest p = true := by simp [h.bit, hp]
  have hcard : T.card = (T.erase p).card + 1 := (Finset.card_erase_add_one hp).symm
  have hcount := h.count
  rw [pmmFreePage, if_neg (by rw [h.totalPages]; have := hfree.1; omega), if_pos hused]
  refine ⟨h.bitmapSize, h.totalPages, fun q => ?_, fun q hq => h.free q (Finset.mem_of_mem_erase hq), ?_⟩
  · rw [bitmapTest_releasePage, h.bit]
    by_cases hqp : q = p
    · simp [hqp, hfree.2]
    · simp [hqp]
  · rw [hcard, BitVec.ofNat_add] at hcount
    rw [← hcount, releasePage, BitVec.add_assoc]
    show s.freePages + (1 + _) = _
    rw [BitVec.add_comm 1]
    rfl

theorem giveAll (h : s₀.Taken T s) {l : List Nat} (hl : l.Nodup) (hT : ∀ p ∈ l, p ∈ T ∧ p ≠ 0) :
    s₀.Taken (T \ l.toFinset) (l.foldl pmmFreePage s) := by
  induction l generalizing s T with
  | nil => simpa using h
  | cons p l ih =>
    obtain ⟨hpl, hl⟩ := List.nodup_cons.mp hl
    obtain ⟨hp, h0⟩ := hT p (by simp)
    have hrest := ih (h.give hp h0) hl fun q hq => by
      have hqp : q ≠ p := by rintro rfl; exact hpl hq
      obtain ⟨hqT, hq0⟩ := hT q (List.mem_cons_of_mem _ hq)
      exact ⟨Finset.mem_erase.mpr ⟨hqp, hqT⟩, hq0⟩
    have hset : T.erase p \ l.toFinset = T \ (p :: l).toFinset := by
      ext q
      simp only [Finset.mem_sdiff, Finset.mem_erase, List.mem_toFinset, List.mem_cons]
      tauto
    rwa [hset] at hrest

theorem trans (h : s₀.Taken T s) (h' : s.Taken U t) : s₀.Taken (T ∪ U) t := by
  have hdisj : Disjoint T U := Finset.disjoint_left.mpr fun q hq hq' => (h.free_iff.mp (h'.free q hq')).2 hq
  refine ⟨h'.bitmapSize.trans h.bitmapSize, h'.totalPages.trans h.totalPages, fun q => ?_, fun q hq => ?_, ?_⟩
  · rw [h'.bit, h.bit, Bool.or_assoc]
    simp
  · rcases Finset.mem_union.mp hq with hq | hq
    · exact h.free q hq
    · exact (h.free_iff.mp (h'.free q hq)).1
  · rw [Finset.card_union_of_disjoint hdisj, Nat.add_comm, BitVec.ofNat_add, ← BitVec.add_assoc, h'.count, h.count]

theorem eq_of_empty (h : s₀.Taken ∅ s) : s = s₀ := by
  have hbitmap : s.bitmap = s₀.bitmap := by
    funext b
    apply BitVec.eq_of_getLsbD_eq
    intro k hk
    have hbit := h.bit (8 * b + k)
    rw [bitmapTest_eq, bitmapTest_eq, show (8 * b + k) / 8 = b by omega, show (8 * b + k) % 8 = k by omega] at hbit
    simpa using hbit
  have hcount : s.freePages = s₀.freePages := by simpa using h.count
  calc s = ⟨s.bitmap, s.bitmapSize, s.totalPages, s.freePages⟩ := rfl
    _ = s₀ := by rw [hbitmap, h.bitmapSize, h.totalPages, hcount]

end Taken
end Pmm
end SamOS
