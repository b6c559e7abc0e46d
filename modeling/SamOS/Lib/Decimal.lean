import Mathlib.Data.BitVec
import Mathlib.Data.Nat.Digits.Lemmas

/-! Numbers as decimal text in bytes: the digits of a number with none to spare, and those of a fixed width, and what
    they denote. -/

namespace Decimal

/-- The character of the last digit. -/
def digit (n : Nat) : BitVec 8 := BitVec.ofNat 8 (0x30 + n % 10)

/-- The number that the digits denote, the first digit being the highest. -/
def value (l : List (BitVec 8)) : Nat := l.foldl (fun n c => n * 10 + (c.toNat - 0x30)) 0

/-- The digits, none for 0. -/
def digits (n : Nat) : List (BitVec 8) := ((Nat.digits 10 n).map digit).reverse

/-- The digits without a leading zero, except for 0. -/
def text (n : Nat) : List (BitVec 8) := if n = 0 then [digit 0] else digits n

/-- The last `w` digits. -/
def fixed : Nat → Nat → List (BitVec 8)
  | 0, _ => []
  | w + 1, n => fixed w (n / 10) ++ [digit n]

variable {n w : Nat}

theorem toNat_digit (n : Nat) : (digit n).toNat = 0x30 + n % 10 := by
  rw [digit, BitVec.toNat_ofNat]
  omega

theorem digit_mod (n : Nat) : digit (n % 10) = digit n := by
  rw [digit, Nat.mod_mod, digit]

theorem digit_setWidth (hw : 8 ≤ w) (v : BitVec w) : (0x30 + v % 10).setWidth 8 = digit v.toNat := by
  have hpow : 2 ^ 8 ≤ 2 ^ w := Nat.pow_le_pow_right (by decide) hw
  have hbase : (0x30 : BitVec w).toNat = 0x30 := Nat.mod_eq_of_lt (Nat.lt_of_lt_of_le (by decide) hpow)
  have hten : (10 : BitVec w).toNat = 10 := Nat.mod_eq_of_lt (Nat.lt_of_lt_of_le (by decide) hpow)
  apply BitVec.eq_of_toNat_eq
  rw [BitVec.toNat_setWidth, BitVec.toNat_add, BitVec.toNat_umod, hbase, hten, toNat_digit,
    Nat.mod_eq_of_lt (b := 2 ^ w) (by omega)]
  omega

theorem digit_ne_zero (n : Nat) : digit n ≠ 0 := by
  intro h
  have hzero := congrArg BitVec.toNat h
  rw [toNat_digit] at hzero
  exact absurd hzero (by simp)

@[simp] theorem value_nil : value [] = 0 := rfl

theorem value_append_digit (l : List (BitVec 8)) (n : Nat) : value (l ++ [digit n]) = value l * 10 + n % 10 := by
  unfold value
  rw [List.foldl_append, List.foldl_cons, List.foldl_nil, toNat_digit, Nat.add_sub_cancel_left]

theorem digits_zero : digits 0 = [] := by
  rw [digits, Nat.digits_zero]
  rfl

theorem digits_of_pos (h : 0 < n) : digits n = digits (n / 10) ++ [digit n] := by
  unfold digits
  rw [Nat.digits_def' (by decide) h, List.map_cons, List.reverse_cons, digit_mod]

theorem length_digits_le_iff : (digits n).length ≤ w ↔ n < 10 ^ w := by
  rw [digits, List.length_reverse, List.length_map, Nat.digits_length_le_iff (by decide)]

theorem value_digits (n : Nat) : value (digits n) = n := by
  induction n using Nat.strongRecOn with
  | ind n ih =>
    rcases Nat.eq_zero_or_pos n with rfl | hn
    · rw [digits_zero, value_nil]
    · rw [digits_of_pos hn, value_append_digit, ih _ (Nat.div_lt_self hn (by decide)), Nat.mul_comm, Nat.div_add_mod]

theorem head_digits_ne (n : Nat) : (digits n).head? ≠ some (digit 0) := by
  induction n using Nat.strongRecOn with
  | ind n ih =>
    rcases Nat.eq_zero_or_pos n with rfl | hn
    · rw [digits_zero]
      exact (Option.some_ne_none _).symm
    rw [digits_of_pos hn, List.head?_append]
    rcases Nat.eq_zero_or_pos (n / 10) with hdiv | hdiv
    · rw [hdiv, digits_zero]
      intro h
      have hdigit := congrArg BitVec.toNat (Option.some.inj h)
      rw [toNat_digit, toNat_digit] at hdigit
      omega
    · have hne := ih (n / 10) (Nat.div_lt_self hn (by decide))
      rw [digits_of_pos hdiv, List.head?_append] at hne ⊢
      cases hhead : (digits (n / 10 / 10)).head? with
      | none => rwa [hhead] at hne
      | some c => rwa [hhead] at hne

theorem value_text (n : Nat) : value (text n) = n := by
  unfold text
  split
  · rename_i h
    rw [h]
    rfl
  · exact value_digits n

theorem text_ne_nil (n : Nat) : text n ≠ [] := by
  unfold text
  split
  · exact List.cons_ne_nil _ _
  · rename_i h
    rw [digits_of_pos (Nat.pos_of_ne_zero h)]
    exact List.append_ne_nil_of_right_ne_nil _ (List.cons_ne_nil _ _)

theorem eq_digit_of_mem_text {c : BitVec 8} (h : c ∈ text n) : ∃ k, c = digit k := by
  unfold text at h
  split at h
  · exact ⟨0, List.mem_singleton.mp h⟩
  · obtain ⟨k, -, hk⟩ := List.mem_map.mp (List.mem_reverse.mp h)
    exact ⟨k, hk.symm⟩

theorem eq_digit_of_mem_fixed {c : BitVec 8} (h : c ∈ fixed w n) : ∃ k, c = digit k := by
  induction w generalizing n with
  | zero => cases h
  | succ w ih =>
    rcases List.mem_append.mp h with h | h
    · exact ih h
    · exact ⟨n, List.mem_singleton.mp h⟩

theorem value_fixed (w n : Nat) : value (fixed w n) = n % 10 ^ w := by
  induction w generalizing n with
  | zero => rw [fixed, value_nil, Nat.pow_zero, Nat.mod_one]
  | succ w ih => rw [fixed, value_append_digit, ih, Nat.pow_succ', Nat.mod_mul, Nat.add_comm, Nat.mul_comm]

end Decimal
