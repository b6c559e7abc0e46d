import Mathlib.Data.List.Nodup
import Mathlib.Tactic.SplitIfs

/-! Places on a cycle. Whoever goes round a cycle and never passes a place `t` comes to each place at most once. -/

namespace Cycle
variable {n a b j t : Nat}

/-- How many places one goes forward from `a` to come to `b`, on a cycle of `n` places. -/
def ahead (n a b : Nat) : Nat := if a ≤ b then b - a else b + n - a

theorem forward_eq (ha : a < n) (hj : j < n) : (a + j) % n = if a + j < n then a + j else a + j - n := by
  split
  · rename_i h
    exact Nat.mod_eq_of_lt h
  · rename_i h
    rw [Nat.mod_eq_sub_mod (by omega), Nat.mod_eq_of_lt (by omega)]

theorem ahead_lt (ha : a < n) (hb : b < n) : ahead n a b < n := by
  unfold ahead
  split <;> omega

theorem ahead_forward (ha : a < n) (hj : j < n) : ahead n a ((a + j) % n) = j := by
  rw [forward_eq ha hj]
  unfold ahead
  split <;> split <;> omega

theorem forward_ahead (ha : a < n) (hb : b < n) : (a + ahead n a b) % n = b := by
  rw [forward_eq ha (ahead_lt ha hb)]
  unfold ahead
  split <;> split <;> omega

theorem ahead_move (ha : a < n) (hb : b < n) (hj : j < n) :
    ahead n (((a + j) % n + 1) % n) b = if j < ahead n a b then ahead n a b - (j + 1)
      else ahead n a b + n - (j + 1) := by
  have hlt : (a + j) % n < n := Nat.mod_lt _ (by omega)
  rw [show ((a + j) % n + 1) % n = if (a + j) % n + 1 < n then (a + j) % n + 1 else 0 from ?_, forward_eq ha hj]
  · unfold ahead
    split_ifs <;> omega
  · split
    · rename_i h
      exact Nat.mod_eq_of_lt h
    · rename_i h
      rw [show (a + j) % n + 1 = n by omega, Nat.mod_self]

theorem ahead_succ (ha : a < n) : ahead n ((a + 1) % n) a = n - 1 := by
  have hmove := ahead_move (j := 0) ha ha (by omega)
  have hself : ahead n a a = 0 := by simp [ahead]
  rw [show a + 0 = a from rfl, Nat.mod_eq_of_lt ha, hself, if_neg (by omega)] at hmove
  omega

/-- The places visited so far, where the next move starts from `a`: they are distinct, and `t` comes before any of
    them comes again. -/
structure Passed (n a t : Nat) (visited : List Nat) : Prop where
  nodup : visited.Nodup
  bound : ∀ p ∈ visited, p < n
  beyond : ∀ p ∈ visited, ahead n a t ≤ ahead n a p

theorem Passed.nil : Passed n a t [] := ⟨List.nodup_nil, nofun, nofun⟩

theorem Passed.move {visited : List Nat} (h : Passed n a t visited) (ha : a < n) (ht : t < n) (hj : j < ahead n a t) :
    Passed n (((a + j) % n + 1) % n) t ((a + j) % n :: visited) := by
  have hlt := ahead_lt ha ht
  have hjn : j < n := by omega
  have hplace : (a + j) % n < n := Nat.mod_lt _ (by omega)
  refine ⟨List.nodup_cons.mpr ⟨fun hmem => ?_, h.nodup⟩, fun p hp => ?_, fun p hp => ?_⟩
  · have := h.beyond _ hmem
    rw [ahead_forward ha hjn] at this
    omega
  · rcases List.mem_cons.mp hp with rfl | hp
    · exact hplace
    · exact h.bound p hp
  · rw [ahead_move ha ht hjn, if_pos hj]
    rcases List.mem_cons.mp hp with rfl | hp
    · rw [ahead_move ha hplace hjn, ahead_forward ha hjn, if_neg (by omega)]
      omega
    · have := h.beyond p hp
      rw [ahead_move ha (h.bound p hp) hjn, if_pos (by omega)]
      omega

end Cycle
