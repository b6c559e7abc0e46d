import Mathlib.Data.Nat.Count

/-! Counting the numbers below a bound that meet a predicate: what changing the predicate at one point does to the
    count, and how long a run a count near the bound leaves. -/

namespace Count
variable {P Q : Nat → Prop} [DecidablePred P] [DecidablePred Q] {n : Nat}

theorem count_congr (h : ∀ i < n, P i ↔ Q i) : Nat.count P n = Nat.count Q n :=
  Nat.le_antisymm (Nat.count_mono_left fun i hi hp => (h i hi).mp hp)
    (Nat.count_mono_left fun i hi hq => (h i hi).mpr hq)

theorem count_insert {p : Nat} (hp : p < n) (hnot : ¬P p) (hin : Q p) (hne : ∀ i, i ≠ p → (P i ↔ Q i)) :
    Nat.count Q n = Nat.count P n + 1 := by
  induction n with
  | zero => omega
  | succ n ih =>
    rw [Nat.count_succ, Nat.count_succ]
    rcases Nat.lt_or_ge p n with hlt | hge
    · rw [ih hlt, if_congr (hne n (by omega)) rfl rfl]
      omega
    · obtain rfl : p = n := by omega
      rw [if_pos hin, if_neg hnot, count_congr fun i hi => hne i (by omega)]

/-- Where at most `k` of `(k + 1) * n` numbers in a row are missing, `n` in a row are there. -/
theorem exists_run {k lo : Nat} (h : (k + 1) * n ≤ Nat.count (fun i => P (lo + i)) ((k + 1) * n) + k) :
    ∃ j, lo ≤ j ∧ ∀ q, j ≤ q → q < j + n → P q := by
  by_cases hfull : Nat.count (fun i => P (lo + i)) n = n
  · refine ⟨lo, Nat.le_refl _, fun q h1 h2 => ?_⟩
    have := Nat.count_iff_forall.mp hfull (q - lo) (by omega)
    rwa [Nat.add_sub_cancel' h1] at this
  have hle : Nat.count (fun i => P (lo + i)) n ≤ n := Nat.count_le _
  cases k with
  | zero =>
    rw [Nat.zero_add, Nat.one_mul] at h
    omega
  | succ k =>
    -- The first `n` numbers miss one at least, so the others miss one less.
    rw [Nat.succ_mul, Nat.add_comm _ n, Nat.count_add] at h
    simp only [← Nat.add_assoc] at h
    obtain ⟨j, hj, hrun⟩ : ∃ j, lo + n ≤ j ∧ ∀ q, j ≤ q → q < j + n → P q := exists_run (k := k) (by omega)
    exact ⟨j, by omega, hrun⟩

end Count
