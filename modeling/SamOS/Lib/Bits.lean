import Mathlib.Data.Nat.Bitwise

/-! Single bits of machine words: testing, setting and clearing bit `k` by a mask `1 << k`. -/

namespace Bits
variable {w : Nat}

theorem getLsbD_one_shiftLeft (k i : Nat) : (1#w <<< k).getLsbD i = (decide (i < w) && decide (i = k)) := by
  simp only [BitVec.getLsbD_shiftLeft, BitVec.getLsbD_one]
  by_cases hw : i < w <;> by_cases hk : i = k <;> simp [hw, hk] <;> omega

/-- `b & (1 << k)` is non-zero exactly when bit `k` is set. -/
theorem and_bit_ne_zero (b : BitVec w) {k : Nat} (hk : k < w) : (b &&& 1#w <<< k != 0#w) = b.getLsbD k := by
  cases h : b.getLsbD k
  · have hz : b &&& 1#w <<< k = 0#w := by
      apply BitVec.eq_of_getLsbD_eq
      intro i _
      by_cases hi : i = k
      · simp only [BitVec.getLsbD_and, hi, h, Bool.false_and, BitVec.getLsbD_zero]
      · simp only [BitVec.getLsbD_and, getLsbD_one_shiftLeft, hi, decide_false, Bool.and_false, BitVec.getLsbD_zero]
    simp [hz]
  · rw [bne_iff_ne]
    intro hz
    have hbit := congrArg (fun v => BitVec.getLsbD v k) hz
    simp only [BitVec.getLsbD_and, getLsbD_one_shiftLeft, h, hk, BitVec.getLsbD_zero, decide_true, Bool.and_self,
      Bool.true_eq_false] at hbit

/-- `b | (1 << k)` sets bit `k` and keeps the others. -/
theorem getLsbD_or_bit (b : BitVec w) {k i : Nat} (hi : i < w) :
    (b ||| 1#w <<< k).getLsbD i = (b.getLsbD i || decide (i = k)) := by
  simp only [BitVec.getLsbD_or, getLsbD_one_shiftLeft, hi, decide_true, Bool.true_and]

/-- `b & ~(1 << k)` clears bit `k` and keeps the others. -/
theorem getLsbD_and_not_bit (b : BitVec w) {k i : Nat} (hi : i < w) :
    (b &&& ~~~(1#w <<< k)).getLsbD i = (b.getLsbD i && decide (i ≠ k)) := by
  simp only [BitVec.getLsbD_and, BitVec.getLsbD_not, getLsbD_one_shiftLeft, hi, decide_true, Bool.true_and, decide_not]

end Bits
