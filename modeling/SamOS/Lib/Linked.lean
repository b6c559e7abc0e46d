import Mathlib.Data.List.Perm.Subperm

/-! Singly linked lists in memory. `node a` is what memory holds at address `a`: a node and the address of the next
    one, 0 at the end. -/

namespace Linked
variable {α : Type*} (addr : α → Nat) (node : Nat → α × Nat)

/-- The nodes from `a` on are those of the list, up to the address `e`. -/
def Seg : Nat → List α → Nat → Prop
  | a, [], e => a = e
  | a, x :: l, e => a ≠ 0 ∧ addr x = a ∧ (node a).1 = x ∧ Seg (node a).2 l e

/-- The address of the first node with `p`, if there is one. The bound is on the nodes that are visited. -/
def find (p : α → Bool) : Nat → Nat → Option (Option Nat)
  | 0, _ => none
  | n + 1, a => if a = 0 then some none else if p (node a).1 then some (some a) else find p n (node a).2

/-- The address of the last node. -/
def last : Nat → Nat → Option Nat
  | 0, _ => none
  | n + 1, a => if (node a).2 = 0 then some a else last n (node a).2

variable {addr node} {node' : Nat → α × Nat} {a e n : Nat} {x : α} {l l' : List α}

theorem seg_append : Seg addr node a (l ++ l') e ↔ ∃ b, Seg addr node a l b ∧ Seg addr node b l' e := by
  induction l generalizing a with
  | nil => simp [Seg]
  | cons x l ih => simp [Seg, ih, and_assoc]

theorem Seg.congr (h : Seg addr node a l e) (hn : ∀ x ∈ l, node' (addr x) = node (addr x)) : Seg addr node' a l e := by
  induction l generalizing a with
  | nil => exact h
  | cons x l ih =>
    obtain ⟨h0, ha, hx, h⟩ := h
    have hnode := hn x List.mem_cons_self
    rw [ha] at hnode
    refine ⟨h0, ha, ?_, ?_⟩ <;> rw [hnode]
    · exact hx
    · exact ih h fun y hy => hn y (List.mem_cons_of_mem x hy)

/-- A list that ends is what memory says. -/
theorem Seg.unique (h : Seg addr node a l 0) (h' : Seg addr node a l' 0) : l = l' := by
  induction l generalizing a l' with
  | nil =>
    cases l' with
    | nil => rfl
    | cons y l' => exact absurd h h'.1
  | cons x l ih =>
    cases l' with
    | nil => exact absurd h' h.1
    | cons y l' =>
      obtain ⟨-, -, rfl, h⟩ := h
      obtain ⟨-, -, rfl, h'⟩ := h'
      rw [ih h h']

theorem Seg.find (h : Seg addr node a l 0) (p : α → Bool) (hn : l.length < n) :
    find node p n a = some ((l.find? p).map addr) := by
  induction l generalizing a n with
  | nil =>
    obtain ⟨n, rfl⟩ : ∃ m, n = m + 1 := ⟨n - 1, by omega⟩
    obtain rfl : a = 0 := h
    rfl
  | cons x l ih =>
    obtain ⟨h0, ha, hx, h⟩ := h
    obtain ⟨n, rfl⟩ : ∃ m, n = m + 1 := ⟨n - 1, by omega⟩
    rw [List.length_cons] at hn
    rw [Linked.find, if_neg h0, hx, List.find?_cons]
    cases p x with
    | true => simp [ha]
    | false => exact ih h (by omega)

theorem Seg.last (h : Seg addr node a (l ++ [x]) 0) (hn : l.length < n) : last node n a = some (addr x) := by
  induction l generalizing a n with
  | nil =>
    obtain ⟨-, ha, -, hend⟩ := h
    obtain ⟨n, rfl⟩ : ∃ m, n = m + 1 := ⟨n - 1, by omega⟩
    rw [Linked.last, if_pos (show (node a).2 = 0 from hend), ha]
  | cons y l ih =>
    obtain ⟨-, -, -, h⟩ := h
    obtain ⟨n, rfl⟩ : ∃ m, n = m + 1 := ⟨n - 1, by omega⟩
    rw [List.length_cons] at hn
    have hnext : (node a).2 ≠ 0 := by
      cases l with
      | nil => exact h.1
      | cons z l => exact h.1
    rw [Linked.last, if_neg hnext]
    exact ih h (by omega)

/-- A list of nodes with different addresses below `n` is shorter than that. -/
theorem length_le_of_nodup (hnodup : (l.map addr).Nodup) (hlt : ∀ x ∈ l, addr x < n) : l.length ≤ n := by
  have hsub : l.map addr ⊆ List.range n := by
    intro a ha
    obtain ⟨x, hx, rfl⟩ := List.mem_map.mp ha
    exact List.mem_range.mpr (hlt x hx)
  have hle := (hnodup.subperm hsub).length_le
  rwa [List.length_map, List.length_range] at hle

end Linked
