import Mathlib.Data.List.Basic
import Mathlib.Data.Nat.Init

/-! The counted loop `for (i = lo; i < hi; i++)` over a state, and its invariant rule. -/

namespace Loop
variable {σ : Type}

/-- `for (i = lo; i < hi; i++) s = f i s`. -/
def forRange (lo hi : Nat) (f : Nat → σ → σ) (s : σ) : σ :=
  (List.range' lo (hi - lo)).foldl (fun s i => f i s) s

variable {lo hi : Nat}

theorem forRange_of_le (h : hi ≤ lo) (f : Nat → σ → σ) (s : σ) : forRange lo hi f s = s := by
  simp [forRange, Nat.sub_eq_zero_of_le h]

theorem forRange_succ (h : lo ≤ hi) (f : Nat → σ → σ) (s : σ) :
    forRange lo (hi + 1) f s = f hi (forRange lo hi f s) := by
  have hlen : hi + 1 - lo = (hi - lo) + 1 := by omega
  have hlast : lo + (hi - lo) = hi := by omega
  simp [forRange, hlen, List.range'_concat, List.foldl_append, hlast]

/-- The loop invariant rule: `P i` holds before the iteration of `i`. -/
theorem forRange_invariant {f : Nat → σ → σ} {s : σ} {P : Nat → σ → Prop} (h : lo ≤ hi)
    (init : P lo s) (step : ∀ i t, lo ≤ i → i < hi → P i t → P (i + 1) (f i t)) :
    P hi (forRange lo hi f s) := by
  induction hi, h using Nat.le_induction with
  | base => rw [forRange_of_le (Nat.le_refl _)]; exact init
  | succ n hn ih =>
    rw [forRange_succ hn]
    exact step n _ hn (Nat.lt_succ_self n) (ih fun i t hi hin => step i t hi (Nat.lt_succ_of_lt hin))

theorem forRange_keeps {f : Nat → σ → σ} {s : σ} {P : σ → Prop} (init : P s)
    (step : ∀ i t, lo ≤ i → i < hi → P t → P (f i t)) : P (forRange lo hi f s) := by
  rcases Nat.le_total lo hi with h | h
  · exact forRange_invariant (P := fun _ => P) h init step
  · rw [forRange_of_le h]; exact init

theorem forRange_id (lo hi : Nat) (s : σ) : forRange lo hi (fun _ s => s) s = s :=
  forRange_keeps (P := (· = s)) rfl fun _ _ _ _ h => h

/-- A view of the state that the bodies agree on. -/
theorem forRange_map {τ : Type} {π : σ → τ} {f : Nat → σ → σ} {g : Nat → τ → τ} (h : ∀ i s, π (f i s) = g i (π s))
    (lo hi : Nat) (s : σ) :
    π (forRange lo hi f s) = forRange lo hi g (π s) :=
  (List.foldl_hom π fun s i => (h i s).symm).symm

end Loop
