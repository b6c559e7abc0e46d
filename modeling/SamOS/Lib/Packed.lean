import Mathlib.Data.BitVec
import Mathlib.Data.List.GetD

/-! Packed structures in memory: bytes and little-endian words, one after the other. -/

namespace Packed

/-- `bs` from address `a` up. -/
def put (a : Nat) (bs : List (BitVec 8)) (m : Nat → BitVec 8) (x : Nat) : BitVec 8 :=
  if a ≤ x ∧ x < a + bs.length then bs.getD (x - a) 0 else m x

def le16 (v : BitVec 16) : List (BitVec 8) := [v.extractLsb' 0 8, v.extractLsb' 8 8]

def le32 (v : BitVec 32) : List (BitVec 8) := le16 (v.extractLsb' 0 16) ++ le16 (v.extractLsb' 16 16)

def le64 (v : BitVec 64) : List (BitVec 8) := le32 (v.extractLsb' 0 32) ++ le32 (v.extractLsb' 32 32)

def u16 (m : Nat → BitVec 8) (a : Nat) : BitVec 16 := m (a + 1) ++ m a

def u32 (m : Nat → BitVec 8) (a : Nat) : BitVec 32 := u16 m (a + 2) ++ u16 m a

def u64 (m : Nat → BitVec 8) (a : Nat) : BitVec 64 := u32 m (a + 4) ++ u32 m a

section Put
variable {m : Nat → BitVec 8} {a k x : Nat} {bs : List (BitVec 8)}

theorem put_add (h : k < bs.length) : put a bs m (a + k) = bs.getD k 0 := by
  rw [put, if_pos ⟨Nat.le_add_right a k, Nat.add_lt_add_left h a⟩, Nat.add_sub_cancel_left]

theorem put_of_not (h : ¬(a ≤ x ∧ x < a + bs.length)) : put a bs m x = m x := if_neg h

theorem put_zeros {n : Nat} (h : k < n) : put a (List.replicate n 0) m (a + k) = 0 := by
  rw [put_add (List.length_replicate.symm ▸ h), List.getD_eq_getElem?_getD, List.getElem?_replicate, if_pos h]
  rfl

theorem append_extract {n : Nat} (v : BitVec (n + n)) : v.extractLsb' n n ++ v.extractLsb' 0 n = v := by
  apply BitVec.eq_of_getLsbD_eq
  intro i hi
  rw [BitVec.getLsbD_append]
  split
  · simp_all
  · rw [BitVec.getLsbD_extractLsb', Nat.add_sub_cancel' (by omega), decide_eq_true (by omega), Bool.true_and]

/-- The bytes of a field are read as the field. -/
theorem u16_of_bytes {v : BitVec 16} (h : ∀ i < 2, m (a + i) = (le16 v).getD i 0) : u16 m a = v := by
  rw [u16, h 1 (by decide), show m a = _ from h 0 (by decide)]
  exact append_extract (n := 8) v

theorem u32_of_bytes {v : BitVec 32} (h : ∀ i < 4, m (a + i) = (le32 v).getD i 0) : u32 m a = v := by
  have hlow : u16 m a = v.extractLsb' 0 16 := u16_of_bytes fun i hi => by
    rw [h i (by omega), le32, List.getD_append _ _ _ _ hi]
  have hhigh : u16 m (a + 2) = v.extractLsb' 16 16 := u16_of_bytes fun i hi => by
    rw [Nat.add_assoc, h (2 + i) (by omega), le32, List.getD_append_right _ _ _ _ (Nat.le_add_right 2 i)]
    exact congrArg (fun j => (le16 (v.extractLsb' 16 16)).getD j 0) (Nat.add_sub_cancel_left ..)
  rw [u32, hlow, hhigh]
  exact append_extract (n := 16) v

theorem u64_of_bytes {v : BitVec 64} (h : ∀ i < 8, m (a + i) = (le64 v).getD i 0) : u64 m a = v := by
  have hlow : u32 m a = v.extractLsb' 0 32 := u32_of_bytes fun i hi => by
    rw [h i (by omega), le64, List.getD_append _ _ _ _ hi]
  have hhigh : u32 m (a + 4) = v.extractLsb' 32 32 := u32_of_bytes fun i hi => by
    rw [Nat.add_assoc, h (4 + i) (by omega), le64, List.getD_append_right _ _ _ _ (Nat.le_add_right 4 i)]
    exact congrArg (fun j => (le32 (v.extractLsb' 32 32)).getD j 0) (Nat.add_sub_cancel_left ..)
  rw [u64, hlow, hhigh]
  exact append_extract (n := 32) v

end Put

end Packed
