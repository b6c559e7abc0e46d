import SamOS.Lib.Loop
import Mathlib.Control.Monad.Basic

/-! Computations that note what they do besides their value: the reads of a scan, the accesses of a drawing routine.
    The rules say what all notes of a sequence or a loop satisfy, in terms of those of its parts. -/

/-- A value with the notes made on the way to it. -/
structure Logged (ε α : Type) where
  value : α
  log : List ε

namespace Logged
variable {ε α β σ : Type} {P : ε → Prop}

instance : Monad (Logged ε) where
  pure a := ⟨a, []⟩
  bind x f := ⟨(f x.value).value, x.log ++ (f x.value).log⟩

def note (e : ε) : Logged ε Unit := ⟨(), [e]⟩

@[simp] theorem value_pure (a : α) : (pure a : Logged ε α).value = a := rfl
@[simp] theorem log_pure (a : α) : (pure a : Logged ε α).log = [] := rfl
@[simp] theorem value_bind (x : Logged ε α) (f : α → Logged ε β) : (x >>= f).value = (f x.value).value := rfl
@[simp] theorem log_bind (x : Logged ε α) (f : α → Logged ε β) : (x >>= f).log = x.log ++ (f x.value).log := rfl
@[simp] theorem log_note (e : ε) : (note e).log = [e] := rfl

/-- All notes meet `P`. -/
def All (P : ε → Prop) (x : Logged ε α) : Prop := ∀ e ∈ x.log, P e

@[simp] theorem all_pure (a : α) : All P (pure a) := fun _ he => absurd he List.not_mem_nil

@[simp] theorem all_note {e : ε} : All P (note e) ↔ P e := List.forall_mem_singleton

@[simp] theorem all_bind {x : Logged ε α} {f : α → Logged ε β} : All P (x >>= f) ↔ All P x ∧ All P (f x.value) :=
  List.forall_mem_append

/-! ### Loops -/

/-- `for (i = lo; i < hi; i++) s = f i s`. -/
def forRange (lo hi : Nat) (f : Nat → σ → Logged ε σ) (s : σ) : Logged ε σ :=
  (List.range' lo (hi - lo)).foldlM (fun s i => f i s) s

section Range
variable {lo hi : Nat} {f : Nat → σ → Logged ε σ} {s : σ}

theorem value_forRange (lo hi : Nat) (f : Nat → σ → Logged ε σ) (s : σ) :
    (forRange lo hi f s).value = Loop.forRange lo hi (fun i s => (f i s).value) s := by
  unfold forRange Loop.forRange
  generalize List.range' lo (hi - lo) = is
  induction is generalizing s with
  | nil => rfl
  | cons i is ih => exact ih (f i s).value

/-- The notes of a loop: `I i` holds before the iteration of `i`. -/
theorem all_forRange {I : Nat → σ → Prop} (init : I lo s)
    (step : ∀ i t, lo ≤ i → i < hi → I i t → All P (f i t) ∧ I (i + 1) (f i t).value) :
    All P (forRange lo hi f s) := by
  unfold forRange
  obtain ⟨n, hn⟩ : ∃ n, hi - lo = n := ⟨_, rfl⟩
  rw [hn]
  replace hn : n = 0 ∨ lo + n = hi := by omega
  induction n generalizing lo s with
  | zero => exact all_pure s
  | succ n ih =>
    obtain ⟨hall, hnext⟩ := step lo s (Nat.le_refl lo) (by omega) init
    rw [List.range'_succ, List.foldlM_cons, all_bind]
    exact ⟨hall, ih hnext (fun i t h1 h2 => step i t (by omega) h2) (by omega)⟩

theorem log_forRange_unit (lo hi : Nat) (f : Nat → Logged ε Unit) :
    (forRange lo hi (fun i _ => f i) ()).log = (List.range' lo (hi - lo)).flatMap fun i => (f i).log := by
  unfold forRange
  generalize List.range' lo (hi - lo) = is
  induction is with
  | nil => rfl
  | cons i is ih => rw [List.foldlM_cons, log_bind, ih, List.flatMap_cons]

/-- What an iteration notes in any state, the loop notes. -/
theorem mem_log_forRange {e : ε} {i : Nat} (hlo : lo ≤ i) (hhi : i < hi) (he : ∀ t, e ∈ (f i t).log) :
    e ∈ (forRange lo hi f s).log := by
  unfold forRange
  have hmem : i ∈ List.range' lo (hi - lo) := List.mem_range'_1.mpr ⟨hlo, by omega⟩
  generalize List.range' lo (hi - lo) = is at hmem
  induction is generalizing s with
  | nil => cases hmem
  | cons j is ih =>
    rw [List.foldlM_cons, log_bind, List.mem_append]
    rcases List.mem_cons.mp hmem with rfl | hmem
    · exact Or.inl (he s)
    · exact Or.inr (ih hmem)

end Range

section List
variable {f : σ → α → Logged ε σ}

theorem value_foldlM (l : List α) (s : σ) : (l.foldlM f s).value = l.foldl (fun s a => (f s a).value) s := by
  induction l generalizing s with
  | nil => rfl
  | cons a l ih => exact ih (f s a).value

/-- The notes of a loop over a list, for a condition `ok` on each element in the state before it. -/
theorem all_foldlM {I : σ → Prop} {ok : σ → α → Prop} (step : ∀ s a, I s → (All P (f s a) ↔ ok s a) ∧ I (f s a).value)
    {s : σ} (h : I s) (l : List α) :
    All P (l.foldlM f s) ↔ ∀ pre a post, l = pre ++ a :: post → ok (pre.foldl (fun s a => (f s a).value) s) a := by
  induction l generalizing s with
  | nil => exact ⟨fun _ pre a post he => absurd he.symm
    (List.append_ne_nil_of_right_ne_nil pre (List.cons_ne_nil a post)), fun _ => all_pure s⟩
  | cons a l ih =>
    obtain ⟨hok, hI⟩ := step s a h
    rw [List.foldlM_cons, all_bind, hok, ih hI]
    constructor
    · rintro ⟨ha, hl⟩ pre b post he
      cases pre with
      | nil =>
        cases he
        exact ha
      | cons a' pre =>
        obtain ⟨rfl, hrest⟩ := List.cons.inj he
        exact hl pre b post hrest
    · intro hall
      exact ⟨hall [] a l rfl, fun pre b post he => hall (a :: pre) b post (by rw [he, List.cons_append])⟩

end List

/-- A loop whose body goes on with a new state or leaves with a result, cut off after `fuel` iterations. -/
def loop (body : σ → Logged ε (σ ⊕ α)) : Nat → σ → Logged ε (Option α)
  | 0, _ => pure none
  | fuel + 1, s => do
    match ← body s with
    | .inl s => loop body fuel s
    | .inr a => pure (some a)

/-- A loop whose iterations lower a measure ends by itself. -/
theorem loop_ends {body : σ → Logged ε (σ ⊕ α)} {I : σ → Prop} {Q : α → Prop} (m : σ → Nat) {s : σ} {fuel : Nat}
    (init : I s) (hfuel : m s < fuel) (log : ∀ t, I t → All P (body t))
    (next : ∀ t t', I t → (body t).value = .inl t' → I t' ∧ m t' < m t)
    (leave : ∀ t a, I t → (body t).value = .inr a → Q a) :
    All P (loop body fuel s) ∧ ∃ a, (loop body fuel s).value = some a ∧ Q a := by
  induction fuel generalizing s with
  | zero => exact absurd hfuel (Nat.not_lt_zero _)
  | succ fuel ih =>
    unfold loop
    rw [all_bind, value_bind]
    cases hb : (body s).value with
    | inl t =>
      obtain ⟨ht, hm⟩ := next s t init hb
      obtain ⟨hall, hres⟩ := ih ht (by omega)
      exact ⟨⟨log s init, hall⟩, hres⟩
    | inr a => exact ⟨⟨log s init, all_pure _⟩, a, rfl, leave s a init hb⟩

/-! ### Giving up -/

/-- The notes meet `P`, and a computation that does not give up comes to a value that meets `Q`. -/
def Sat (P : ε → Prop) (Q : α → Prop) (x : OptionT (Logged ε) α) : Prop := All P x.run ∧ ∀ a, x.run.value = some a → Q a

section Sat
variable {Q : α → Prop} {R : β → Prop}

@[simp] theorem value_run_bind (x : OptionT (Logged ε) α) (f : α → OptionT (Logged ε) β) :
    (x >>= f).run.value = x.run.value.bind fun a => (f a).run.value := by
  rw [OptionT.run_bind, Option.elimM, value_bind]
  cases x.run.value <;> rfl

@[simp] theorem value_run_pure (a : α) : (pure a : OptionT (Logged ε) α).run.value = some a := rfl

@[simp] theorem value_run_lift (x : Logged ε α) : (OptionT.lift x).run.value = some x.value := rfl

@[simp] theorem value_run_guard (c : Prop) [Decidable c] :
    (guard c : OptionT (Logged ε) Unit).run.value = if c then some () else none := by
  unfold guard
  split <;> rfl

theorem Sat.of_pure {a : α} (h : Q a) : Sat P Q (pure a : OptionT (Logged ε) α) :=
  ⟨all_pure _, fun _ he => Option.some.inj he ▸ h⟩

theorem Sat.imp {Q' : α → Prop} {x : OptionT (Logged ε) α} (h : Sat P Q x) (hq : ∀ a, Q a → Q' a) : Sat P Q' x :=
  ⟨h.1, fun a ha => hq a (h.2 a ha)⟩

theorem Sat.bind {x : OptionT (Logged ε) α} {f : α → OptionT (Logged ε) β} (h : Sat P Q x)
    (hf : ∀ a, Q a → Sat P R (f a)) :
    Sat P R (x >>= f) := by
  refine ⟨?_, fun b hb => ?_⟩
  · rw [OptionT.run_bind, Option.elimM, all_bind]
    refine ⟨h.1, ?_⟩
    cases hx : x.run.value with
    | none => exact all_pure _
    | some a => exact (hf a (h.2 a hx)).1
  · rw [value_run_bind] at hb
    obtain ⟨a, hx, hb⟩ := Option.bind_eq_some_iff.mp hb
    exact (hf a (h.2 a hx)).2 b hb

theorem Sat.of_guard (c : Prop) [Decidable c] : Sat P (fun _ => c) (guard c : OptionT (Logged ε) Unit) := by
  refine ⟨?_, fun _ h => ?_⟩
  · unfold guard
    split <;> exact all_pure _
  · rw [value_run_guard] at h
    by_contra hc
    rw [if_neg hc] at h
    cases h

theorem Sat.of_lift {x : Logged ε α} (h : All P x) (hq : Q x.value) : Sat P Q (OptionT.lift x) := by
  refine ⟨all_bind.mpr ⟨h, all_pure _⟩, fun a ha => ?_⟩
  rw [value_run_lift] at ha
  exact Option.some.inj ha ▸ hq

end Sat

/-- The computation does not give up, and its value meets `Q`. -/
def Finds (Q : α → Prop) (x : OptionT (Logged ε) α) : Prop := ∃ a, x.run.value = some a ∧ Q a

section Finds
variable {Q : α → Prop} {R : β → Prop}

theorem Finds.of_pure {a : α} (h : Q a) : Finds Q (pure a : OptionT (Logged ε) α) := ⟨a, rfl, h⟩

theorem Finds.of_lift {x : Logged ε α} (h : Q x.value) : Finds Q (OptionT.lift x) := ⟨x.value, rfl, h⟩

theorem Finds.of_guard {c : Prop} [Decidable c] (h : c) : Finds (fun _ => True) (guard c : OptionT (Logged ε) Unit) :=
  ⟨(), by rw [value_run_guard, if_pos h], trivial⟩

theorem Finds.bind {x : OptionT (Logged ε) α} {f : α → OptionT (Logged ε) β} (h : Finds Q x)
    (hf : ∀ a, Q a → Finds R (f a)) :
    Finds R (x >>= f) := by
  obtain ⟨a, ha, hq⟩ := h
  obtain ⟨b, hb, hr⟩ := hf a hq
  exact ⟨b, by rw [value_run_bind, ha, Option.bind_some, hb], hr⟩

end Finds
end Logged
