import Mathlib.Logic.Function.Basic
import Mathlib.Data.List.Basic

/-! Writes to registers, made one after the other: the last write to a register decides. -/

namespace Writes
open Function
variable {κ α : Type} [DecidableEq κ] {f : κ → α} {ws ws' : List (κ × α)} {k : κ} {v : α}

/-- The registers after the writes. -/
def apply (f : κ → α) (ws : List (κ × α)) : κ → α := ws.foldl (fun f w => update f w.1 w.2) f

theorem apply_append : apply f (ws ++ ws') = apply (apply f ws) ws' := List.foldl_append

theorem apply_of_not_mem (h : ∀ w ∈ ws, w.1 ≠ k) : apply f ws k = f k := by
  induction ws generalizing f with
  | nil => rfl
  | cons w ws ih =>
    have hne := h w List.mem_cons_self
    refine (ih fun w' hw' => h w' (List.mem_cons_of_mem _ hw')).trans ?_
    exact update_of_ne (Ne.symm hne) ..

/-- The write of `v` is the last one to `k`. -/
def Last (ws : List (κ × α)) (k : κ) (v : α) : Prop := ∃ l₁ l₂, ws = l₁ ++ (k, v) :: l₂ ∧ ∀ w ∈ l₂, w.1 ≠ k

theorem Last.apply (h : Last ws k v) : apply f ws k = v := by
  obtain ⟨l₁, l₂, rfl, hlast⟩ := h
  rw [apply_append]
  refine (apply_of_not_mem (f := update (Writes.apply f l₁) k v) hlast).trans ?_
  exact update_self ..

theorem exists_last (h : ∃ w ∈ ws, w.1 = k) : ∃ v, Last ws k v := by
  induction ws with
  | nil =>
    obtain ⟨w, hw, -⟩ := h
    cases hw
  | cons w ws ih =>
    by_cases hrest : ∃ w' ∈ ws, w'.1 = k
    · obtain ⟨v, l₁, l₂, rfl, hlast⟩ := ih hrest
      exact ⟨v, w :: l₁, l₂, rfl, hlast⟩
    · obtain ⟨w', hw', rfl⟩ := h
      rcases List.mem_cons.mp hw' with rfl | hw'
      · exact ⟨w'.2, [], ws, rfl, fun u hu he => hrest ⟨u, hu, he⟩⟩
      · exact absurd ⟨w', hw', rfl⟩ hrest

/-- A register keeps its value exactly when the last write to it, if there is one, writes that value. -/
theorem apply_eq_iff : apply f ws k = f k ↔ ∀ v, Last ws k v → f k = v := by
  constructor
  · intro h v hlast
    rw [← h, hlast.apply]
  · intro h
    by_cases hw : ∃ w ∈ ws, w.1 = k
    · obtain ⟨v, hlast⟩ := exists_last hw
      rw [hlast.apply, h v hlast]
    · exact apply_of_not_mem fun w hmem he => hw ⟨w, hmem, he⟩

end Writes
