import Mathlib.Algebra.Notation.Defs
import Mathlib.Data.List.TakeWhile
import Mathlib.Logic.Function.Basic

/-! Zero-terminated strings in buffers: the string that a buffer holds, and the loop that copies one into another
    buffer. -/

namespace CString
open Function
variable {α : Type} [Zero α] {buf buf' : Nat → α} {l l' : List α}

/-- The buffer starts with the string and a zero after it. -/
structure Holds (buf : Nat → α) (l : List α) : Prop where
  chars : ∀ i (h : i < l.length), buf i = l[i]
  nonzero : ∀ c ∈ l, c ≠ 0
  ends : buf l.length = 0

theorem Holds.congr (h : Holds buf l) (hc : ∀ i ≤ l.length, buf' i = buf i) : Holds buf' l :=
  ⟨fun i hi => (hc i (Nat.le_of_lt hi)).trans (h.chars i hi), h.nonzero, (hc _ (Nat.le_refl _)).trans h.ends⟩

theorem Holds.eq_zero_iff (h : Holds buf l) {i : Nat} (hi : i ≤ l.length) : buf i = 0 ↔ i = l.length := by
  refine ⟨fun h0 => ?_, fun he => he ▸ h.ends⟩
  by_contra hne
  have hlt : i < l.length := Nat.lt_of_le_of_ne hi hne
  exact h.nonzero l[i] (List.getElem_mem hlt) ((h.chars i hlt).symm.trans h0)

theorem Holds.unique (h : Holds buf l) (h' : Holds buf l') : l = l' := by
  have hlen : l.length = l'.length := by
    rcases Nat.le_total l.length l'.length with hle | hle
    · exact (h'.eq_zero_iff hle).mp h.ends
    · exact ((h.eq_zero_iff hle).mp h'.ends).symm
  exact List.ext_getElem hlen fun i h1 h2 => (h.chars i h1).symm.trans (h'.chars i h2)

theorem Holds.map_range (h : Holds buf l) : (List.range l.length).map buf = l :=
  List.ext_getElem (by simp) fun i h1 h2 => by
    rw [List.getElem_map, List.getElem_range, h.chars i h2]

variable [DecidableEq α]

/-- The string in a buffer of `size` cells. -/
def read (size : Nat) (buf : Nat → α) : List α := ((List.range size).map buf).takeWhile (· ≠ 0)

theorem Holds.read_eq (h : Holds buf l) {size : Nat} (hs : l.length < size) : read size buf = l := by
  obtain ⟨rest, rfl⟩ := Nat.exists_eq_add_of_lt hs
  unfold read
  rw [Nat.add_assoc, List.range_add, List.map_append, h.map_range, List.range_succ_eq_map, List.map_cons,
    List.map_cons, Nat.add_zero, h.ends, List.takeWhile_append_of_pos fun c hc => by simpa using h.nonzero c hc]
  simp

/-- `for (; src[i] && i < n; i++) dst[i] = src[i]; dst[i] = 0`, where `fuel` is `n - i`: the last `i`, and `dst`. -/
def copyFrom (src : Nat → α) : Nat → Nat → (Nat → α) → Nat × (Nat → α)
  | 0, i, dst => (i, update dst i 0)
  | fuel + 1, i, dst =>
    if src i = 0 then (i, update dst i 0) else copyFrom src fuel (i + 1) (update dst i (src i))

theorem copyFrom_spec {src : Nat → α} (h : Holds src l) (fuel i : Nat) (dst : Nat → α) (hi : i ≤ l.length)
    (hn : l.length ≤ i + fuel) (hd : ∀ j < i, dst j = src j) :
    (copyFrom src fuel i dst).1 = l.length ∧ Holds (copyFrom src fuel i dst).2 l := by
  -- the zero is written at the end of the string
  have hend (dst : Nat → α) (hd : ∀ j < l.length, dst j = src j) : Holds (update dst l.length 0) l := by
    refine h.congr fun j hj => ?_
    by_cases he : j = l.length
    · rw [he, update_self, h.ends]
    · rw [update_of_ne he, hd j (by omega)]
  induction fuel generalizing i dst with
  | zero =>
    obtain rfl : i = l.length := by omega
    exact ⟨rfl, hend dst hd⟩
  | succ fuel ih =>
    unfold copyFrom
    by_cases h0 : src i = 0
    · obtain rfl := (h.eq_zero_iff hi).mp h0
      rw [if_pos h0]
      exact ⟨rfl, hend dst hd⟩
    · have hne : i ≠ l.length := fun he => h0 ((h.eq_zero_iff hi).mpr he)
      rw [if_neg h0]
      refine ih (i + 1) _ (by omega) (by omega) fun j hj => ?_
      by_cases he : j = i
      · rw [he, update_self]
      · rw [update_of_ne he, hd j (by omega)]

end CString
