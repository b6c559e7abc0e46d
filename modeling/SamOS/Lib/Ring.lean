import Mathlib.Data.List.Basic
import Mathlib.Data.Nat.ModEq

/-! Rings of `n` cells: the cells from a start on, in order, where the index wraps at `n`, and a ring that keeps the
    last `n` entries. -/

namespace Ring
open Function
variable {α : Type} {buf buf' : Nat → α} {n start len : Nat}

/-- The `len` cells from `start` on. -/
def window (buf : Nat → α) (n start len : Nat) : List α := (List.range len).map fun i => buf ((start + i) % n)

@[simp] theorem length_window : (window buf n start len).length = len := by
  simp [window]

theorem window_mod : window buf n (start % n) len = window buf n start len := by
  simp only [window, Nat.mod_add_mod]

theorem window_congr (h : ∀ i < len, buf ((start + i) % n) = buf' ((start + i) % n)) :
    window buf n start len = window buf' n start len :=
  List.map_congr_left fun i hi => h i (List.mem_range.mp hi)

theorem window_succ : window buf n start (len + 1) = window buf n start len ++ [buf ((start + len) % n)] := by
  simp [window, List.range_succ]

theorem window_cons : window buf n start (len + 1) = buf (start % n) :: window buf n ((start + 1) % n) len := by
  unfold window
  rw [List.range_succ_eq_map, List.map_cons, List.map_map]
  refine congrArg (List.cons _) (List.map_congr_left fun i _ => ?_)
  show buf ((start + (i + 1)) % n) = buf (((start + 1) % n + i) % n)
  rw [Nat.mod_add_mod, Nat.add_assoc, Nat.add_comm 1 i]

theorem drop_window (k : Nat) : (window buf n start len).drop k = window buf n ((start + k) % n) (len - k) := by
  apply List.ext_getElem
  · rw [List.length_drop, length_window, length_window]
  · intro i h1 h2
    simp only [window, List.getElem_drop, List.getElem_map, List.getElem_range, Nat.mod_add_mod, Nat.add_assoc]

theorem cell_ne {i j : Nat} (hij : i < j) (hj : j < n) : (start + i) % n ≠ (start + j) % n := by
  intro h
  have hmod : i % n = j % n := Nat.ModEq.add_left_cancel' start h
  rw [Nat.mod_eq_of_lt (hij.trans hj), Nat.mod_eq_of_lt hj] at hmod
  exact Nat.ne_of_lt hij hmod

theorem window_update (hlen : len < n) (c : α) :
    window (update buf ((start + len) % n) c) n start (len + 1) = window buf n start len ++ [c] := by
  rw [window_succ, update_self]
  refine congrArg (· ++ [c]) (window_congr fun i hi => ?_)
  exact update_of_ne (cell_ne hi hlen) ..

/-- In a full ring the new cell takes the place of the first one. -/
theorem window_overwrite (hn : 0 < n) (c : α) :
    window (update buf (start % n) c) n ((start + 1) % n) n = (window buf n start n).drop 1 ++ [c] := by
  obtain ⟨m, rfl⟩ : ∃ m, n = m + 1 := ⟨n - 1, by omega⟩
  have hcell : start % (m + 1) = ((start + 1) % (m + 1) + m) % (m + 1) := by
    rw [Nat.mod_add_mod, Nat.add_assoc, Nat.add_comm 1 m, Nat.add_mod_right]
  rw [hcell, window_update (Nat.lt_succ_self m), drop_window]
  rfl

/-! ### The last `n` entries -/

/-- The cell of the oldest entry that is kept of `count` entries. -/
def oldest (n count : Nat) : Nat := (count % n + n - min count n) % n

theorem oldest_of_le {count : Nat} (h : count ≤ n) : oldest n count = 0 := by
  unfold oldest
  rw [Nat.min_eq_left h]
  rcases Nat.lt_or_eq_of_le h with hlt | rfl
  · rw [Nat.mod_eq_of_lt hlt, Nat.add_sub_cancel_left, Nat.mod_self]
  · rw [Nat.add_sub_cancel, Nat.mod_mod, Nat.mod_self]

theorem oldest_of_ge {count : Nat} (h : n ≤ count) : oldest n count = count % n := by
  rw [oldest, Nat.min_eq_right h, Nat.add_sub_cancel, Nat.mod_mod]

/-- A ring that keeps the last `n` entries of a list keeps those of the longer list after the next entry is written. -/
theorem window_push {l : List α} (hn : 0 < n)
    (h : window buf n (oldest n l.length) (min l.length n) = l.drop (l.length - n)) (c : α) :
    window (update buf (l.length % n) c) n (oldest n (l.length + 1)) (min (l.length + 1) n) =
      (l ++ [c]).drop (l.length + 1 - n) := by
  rcases Nat.lt_or_ge l.length n with hlt | hge
  · -- the ring is not full: the entry takes the next cell
    rw [oldest_of_le hlt.le, Nat.min_eq_left hlt.le, Nat.sub_eq_zero_of_le hlt.le] at h
    rw [oldest_of_le hlt, Nat.min_eq_left hlt, Nat.sub_eq_zero_of_le hlt]
    have hcell : window (update buf ((0 + l.length) % n) c) n 0 (l.length + 1) =
        window buf n 0 l.length ++ [c] :=
      window_update hlt c
    rwa [h, Nat.zero_add] at hcell
  · -- the ring is full: the entry takes the cell of the oldest one
    rw [oldest_of_ge hge, Nat.min_eq_right hge, window_mod] at h
    rw [oldest_of_ge (by omega), Nat.min_eq_right (by omega), window_overwrite hn, h, List.drop_drop,
      ← List.drop_append_of_le_length (by omega), Nat.sub_add_comm hge]

end Ring
