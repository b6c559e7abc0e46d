import Mathlib.Logic.Basic

/-! Labelled transition systems: paths, runs, reachable states, and the rule that turns a step lemma into a statement
    about every run. A guard keeps only the steps that meet a condition on the state before them. -/

namespace Lts

/-- A transition system with initial states and labelled steps. -/
structure System (σ ε : Type) where
  init : σ → Prop
  step : σ → ε → σ → Prop

namespace System
variable {σ ε : Type} {S : System σ ε}

/-- `t` is reached from `s` by the events of the list, the last one first. -/
inductive Path (S : System σ ε) (s : σ) : List ε → σ → Prop
  | nil : Path S s [] s
  | snoc {es : List ε} {e : ε} {t u : σ} : Path S s es t → S.step t e u → Path S s (e :: es) u

/-- A run of the system: a path from an initial state. -/
def Run (S : System σ ε) (es : List ε) (s : σ) : Prop := ∃ s₀, S.init s₀ ∧ S.Path s₀ es s

def Reachable (S : System σ ε) (s : σ) : Prop := ∃ es, S.Run es s

/-- The system restricted to the steps whose state and event meet `ok`. -/
def guard (S : System σ ε) (ok : σ → ε → Prop) : System σ ε where
  init := S.init
  step s e t := ok s e ∧ S.step s e t

theorem Run.init {s : σ} (h : S.init s) : S.Run [] s := ⟨s, h, .nil⟩

theorem Run.snoc {s t : σ} {e : ε} {es : List ε} (h : S.Run es s) (hs : S.step s e t) : S.Run (e :: es) t := by
  obtain ⟨s₀, h₀, hp⟩ := h
  exact ⟨s₀, h₀, hp.snoc hs⟩

theorem Reachable.init {s : σ} (h : S.init s) : S.Reachable s := ⟨[], .init h⟩

theorem Reachable.step {s t : σ} {e : ε} (h : S.Reachable s) (hs : S.step s e t) : S.Reachable t := by
  obtain ⟨es, hr⟩ := h
  exact ⟨e :: es, hr.snoc hs⟩

theorem Path.reachable {s t : σ} {es : List ε} (hp : S.Path s es t) (hs : S.Reachable s) : S.Reachable t := by
  induction hp with
  | nil => exact hs
  | snoc _ hstep ih => exact ih.step hstep

theorem Path.append {s t u : σ} {es es' : List ε} (h : S.Path s es t) (h' : S.Path t es' u) :
    S.Path s (es' ++ es) u := by
  induction h' with
  | nil => exact h
  | snoc _ hs ih => exact ih.snoc hs

/-- What a step keeps, a path keeps. -/
theorem Path.invariant {I : σ → Prop} {s t : σ} {es : List ε} (hp : S.Path s es t)
    (step : ∀ {s e t}, I s → S.step s e t → I t) (h : I s) : I t := by
  induction hp with
  | nil => exact h
  | snoc _ hs ih => exact step ih hs

/-- What holds initially and is kept by every step holds in every reachable state. -/
theorem Reachable.invariant {I : σ → Prop} {s : σ} (h : S.Reachable s) (init : ∀ {s}, S.init s → I s)
    (step : ∀ {s e t}, I s → S.step s e t → I t) : I s := by
  obtain ⟨es, s₀, h₀, hp⟩ := h
  exact hp.invariant step (init h₀)

/-- The rule for runs, where the invariant may read the events so far. -/
theorem Run.invariant {I : List ε → σ → Prop} {s : σ} {es : List ε} (h : S.Run es s)
    (init : ∀ {s}, S.init s → I [] s)
    (step : ∀ {es s e t}, I es s → S.step s e t → I (e :: es) t) : I es s := by
  obtain ⟨s₀, h₀, hp⟩ := h
  induction hp with
  | nil => exact init h₀
  | snoc _ hs ih => exact step ih hs

theorem Path.of_guard {ok : σ → ε → Prop} {s t : σ} {es : List ε} (hp : (S.guard ok).Path s es t) :
    S.Path s es t := by
  induction hp with
  | nil => exact .nil
  | snoc _ hs ih => exact ih.snoc hs.2

end System
end Lts
