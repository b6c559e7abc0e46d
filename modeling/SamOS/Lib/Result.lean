import Mathlib.Data.Nat.Init

/-! Computations that may stop with an error: what a sequence that succeeds did, and loops whose body may leave them
    early. -/

namespace Result
variable {ε α β σ : Type}

/-- A sequence succeeds when both of its parts do. -/
theorem of_bind_eq_ok {x : Except ε α} {f : α → Except ε β} {b : β} (h : x >>= f = .ok b) :
    ∃ a, x = .ok a ∧ f a = .ok b := by
  cases x with
  | error e => cases h
  | ok a => exact ⟨a, rfl, h⟩

/-- How a computation ends: with a result that meets `P`, or with an error that meets `Q`. -/
def Ends (P : α → Prop) (Q : ε → Prop) : Except ε α → Prop
  | .ok a => P a
  | .error e => Q e

theorem Ends.bind {P : α → Prop} {P' : β → Prop} {Q : ε → Prop} {x : Except ε α} {f : α → Except ε β} (h : Ends P Q x)
    (hf : ∀ a, P a → Ends P' Q (f a)) : Ends P' Q (x >>= f) := by
  cases x with
  | error e => exact h
  | ok a => exact hf a h

variable {lo n : Nat}

/-- The loop rule for a loop that an error leaves: `P i` holds before the iteration of `i`. -/
theorem Ends.foldlM_range' {f : σ → Nat → Except ε σ} {P : Nat → σ → Prop} {Q : ε → Prop} {s : σ} (init : P lo s)
    (next : ∀ i t, lo ≤ i → i < lo + n → P i t → Ends (P (i + 1)) Q (f t i)) :
    Ends (P (lo + n)) Q ((List.range' lo n).foldlM f s) := by
  induction n generalizing lo s with
  | zero => exact init
  | succ n ih =>
    rw [List.range'_succ, List.foldlM_cons]
    refine (next lo s (Nat.le_refl lo) (by omega) init).bind fun t ht => ?_
    have hrest := ih ht fun i t h1 h2 => next i t (by omega) (by omega)
    rwa [show lo + 1 + n = lo + (n + 1) by omega] at hrest

/-- `for (i = lo; i < lo + n; i++)` with a body that returns `false` to leave the loop at once. The result says
    whether the loop ran to its end. -/
def forWhile (f : Nat → σ → Except ε (Bool × σ)) : Nat → Nat → σ → Except ε (Bool × σ)
  | _, 0, s => .ok (true, s)
  | lo, n + 1, s =>
    match f lo s with
    | .error e => .error e
    | .ok (false, s) => .ok (false, s)
    | .ok (true, s) => forWhile f (lo + 1) n s

theorem forWhile_true {f : Nat → σ → Except ε (Bool × σ)} {s s' : σ} (h : f lo s = .ok (true, s')) :
    forWhile f lo (n + 1) s = forWhile f (lo + 1) n s' := by
  rw [forWhile, h]

theorem forWhile_error {f : Nat → σ → Except ε (Bool × σ)} {s : σ} {e : ε} (h : f lo s = .error e) :
    forWhile f lo (n + 1) s = .error e := by
  rw [forWhile, h]

/-- The loop rule: `P i` holds before the iteration of `i`, and `Q` when the body leaves the loop. -/
theorem forWhile_invariant {f : Nat → σ → Except ε (Bool × σ)} {P : Nat → σ → Prop} {Q : σ → Prop}
    {s s' : σ} {b : Bool} (h : forWhile f lo n s = .ok (b, s')) (init : P lo s)
    (next : ∀ i t t', lo ≤ i → i < lo + n → P i t → f i t = .ok (true, t') → P (i + 1) t')
    (leave : ∀ i t t', lo ≤ i → i < lo + n → P i t → f i t = .ok (false, t') → Q t') :
    if b then P (lo + n) s' else Q s' := by
  induction n generalizing lo s with
  | zero =>
    cases h
    exact init
  | succ n ih =>
    unfold forWhile at h
    cases hf : f lo s with
    | error e =>
      rw [hf] at h
      cases h
    | ok r =>
      obtain ⟨c, t⟩ := r
      rw [hf] at h
      cases c with
      | false =>
        cases h
        exact leave lo s _ (Nat.le_refl _) (by omega) init hf
      | true =>
        have hrest := ih h (next lo s t (Nat.le_refl _) (by omega) init hf)
          (fun i t t' h1 h2 => next i t t' (by omega) (by omega))
          (fun i t t' h1 h2 => leave i t t' (by omega) (by omega))
        rwa [show lo + 1 + n = lo + (n + 1) by omega] at hrest

/-! ### The points of a loop -/

/-- The loop comes to iteration `i`, with the state `t`. -/
def Reaches (f : Nat → σ → Except ε (Bool × σ)) (lo n : Nat) (s : σ) (i : Nat) (t : σ) : Prop :=
  lo ≤ i ∧ i < lo + n ∧ forWhile f lo (i - lo) s = .ok (true, t)

section Reaches
variable {f : Nat → σ → Except ε (Bool × σ)} {lo n i : Nat} {s t : σ}

theorem forWhile_add (f : Nat → σ → Except ε (Bool × σ)) (lo m n : Nat) (s : σ) :
    forWhile f lo (m + n) s = match forWhile f lo m s with
      | .ok (true, t) => forWhile f (lo + m) n t
      | r => r := by
  induction m generalizing lo s with
  | zero => rw [Nat.zero_add]; rfl
  | succ m ih =>
    rw [Nat.succ_add]
    simp only [forWhile]
    split
    · rfl
    · rfl
    · rw [ih, show lo + 1 + m = lo + (m + 1) by omega]

theorem Reaches.cons {s' : σ} (h : Reaches f (lo + 1) n s' i t) (hf : f lo s = .ok (true, s')) :
    Reaches f lo (n + 1) s i t := by
  obtain ⟨hlo, hi, ht⟩ := h
  refine ⟨by omega, by omega, ?_⟩
  rw [show i - lo = i - (lo + 1) + 1 by omega, forWhile_true hf]
  exact ht

/-- The loop rule with its points: `P i` holds when the loop comes to `i`, and `Q` when the body leaves the loop. -/
theorem forWhile_points {P : Nat → σ → Prop} {Q : σ → Prop} {s' : σ} {b : Bool} (h : forWhile f lo n s = .ok (b, s'))
    (init : P lo s) (next : ∀ i t t', Reaches f lo n s i t → P i t → f i t = .ok (true, t') → P (i + 1) t')
    (leave : ∀ i t t', Reaches f lo n s i t → P i t → f i t = .ok (false, t') → Q t') :
    if b then P (lo + n) s' else Q s' := by
  have hinv := forWhile_invariant (P := fun i t => forWhile f lo (i - lo) s = .ok (true, t) ∧ P i t) (Q := Q) h
    ⟨by rw [Nat.sub_self]; rfl, init⟩ (fun i t t' hlo hi ht hf => ⟨?_, next i t t' ⟨hlo, hi, ht.1⟩ ht.2 hf⟩)
    fun i t t' hlo hi ht hf => leave i t t' ⟨hlo, hi, ht.1⟩ ht.2 hf
  · cases b
    · exact hinv
    · exact hinv.2
  · rw [Nat.sub_add_comm hlo, forWhile_add, ht.1]
    dsimp only
    rw [Nat.add_sub_cancel' hlo, forWhile_true hf]
    rfl

/-- What every iteration keeps holds at each iteration that the loop comes to. -/
theorem Reaches.invariant {P : Nat → σ → Prop} (h : Reaches f lo n s i t) (init : P lo s)
    (next : ∀ i t t', Reaches f lo n s i t → P i t → f i t = .ok (true, t') → P (i + 1) t') : P i t := by
  have hinv := forWhile_points (P := P) (Q := fun _ => True) h.2.2 init
    (fun j u u' hj => next j u u' ⟨hj.1, by have := hj.2.1; have := h.2.1; omega, hj.2.2⟩) fun _ _ _ _ _ _ => trivial
  have hi : lo + (i - lo) = i := Nat.add_sub_cancel' h.1
  rwa [if_pos rfl, hi] at hinv

/-- What every iteration keeps, the loop keeps. -/
theorem forWhile_keeps {P : σ → Prop} {s' : σ} {b : Bool} (h : forWhile f lo n s = .ok (b, s')) (init : P s)
    (step : ∀ i t b t', Reaches f lo n s i t → P t → f i t = .ok (b, t') → P t') : P s' := by
  have hinv := forWhile_points (P := fun _ => P) (Q := P) h init (fun i t t' => step i t true t') fun i t t' =>
    step i t false t'
  cases b <;> exact hinv

/-- What iteration `i` brings about and the others keep holds at the end. -/
theorem forWhile_visits {P : σ → Prop} {s' : σ} (h : forWhile f lo n s = .ok (true, s')) (hlo : lo ≤ i)
    (hi : i < lo + n) (visit : ∀ t t', Reaches f lo n s i t → f i t = .ok (true, t') → P t')
    (keep : ∀ j t t', Reaches f lo n s j t → P t → f j t = .ok (true, t') → P t') : P s' := by
  have hinv := forWhile_points (P := fun j t => i < j → P t) (Q := fun _ => True) h (fun hlt => absurd hlt (by omega))
    (fun j t t' hj ht hf hlt => ?_) fun _ _ _ _ _ _ => trivial
  · exact hinv hi
  · rcases Nat.lt_succ_iff_lt_or_eq.mp hlt with hlt | rfl
    · exact keep j t t' hj (ht hlt) hf
    · exact visit t t' hj hf

/-- A loop that ran to its end came to every iteration, and each of them went on. -/
theorem forWhile_reaches {s' : σ} (h : forWhile f lo n s = .ok (true, s')) (hlo : lo ≤ i) (hi : i < lo + n) :
    ∃ t t', Reaches f lo n s i t ∧ f i t = .ok (true, t') := by
  rw [show n = (i - lo) + ((n - (i - lo) - 1) + 1) by omega, forWhile_add] at h
  rcases hpre : forWhile f lo (i - lo) s with e | ⟨b, t⟩
  · rw [hpre] at h
    cases h
  · rw [hpre] at h
    cases b with
    | false => cases h
    | true =>
      dsimp only at h
      rw [Nat.add_sub_cancel' hlo] at h
      unfold forWhile at h
      rcases hf : f i t with e | ⟨b, t'⟩
      · rw [hf] at h
        cases h
      · rw [hf] at h
        cases b with
        | false => cases h
        | true => exact ⟨t, t', ⟨hlo, hi, hpre⟩, hf⟩

theorem forWhile_total {P : Nat → σ → Prop} (init : P lo s)
    (next : ∀ i t, lo ≤ i → i < lo + n → P i t → ∃ t', f i t = .ok (true, t') ∧ P (i + 1) t') :
    ∃ t, forWhile f lo n s = .ok (true, t) ∧ P (lo + n) t := by
  induction n generalizing lo s with
  | zero => exact ⟨s, rfl, init⟩
  | succ n ih =>
    obtain ⟨t, hf, ht⟩ := next lo s (Nat.le_refl lo) (by omega) init
    obtain ⟨u, hu, hP⟩ := ih ht fun i t h1 h2 => next i t (by omega) (by omega)
    refine ⟨u, (forWhile_true hf).trans hu, ?_⟩
    rwa [show lo + (n + 1) = lo + 1 + n by omega]

/-- The loop comes to iteration `i` if the ones before it all go on. -/
theorem exists_reaches {P : Nat → σ → Prop} (init : P lo s) (hlo : lo ≤ i) (hi : i < lo + n)
    (next : ∀ j t, lo ≤ j → j < i → P j t → ∃ t', f j t = .ok (true, t') ∧ P (j + 1) t') :
    ∃ t, Reaches f lo n s i t ∧ P i t := by
  obtain ⟨t, ht, hP⟩ := forWhile_total (n := i - lo) init fun j t h1 h2 => next j t h1 (by omega)
  rw [Nat.add_sub_cancel' hlo] at hP
  exact ⟨t, ⟨hlo, hi, ht⟩, hP⟩

end Reaches

/-! ### Two computations side by side -/

section Simulates
variable {τ σ' τ' α' β' : Type} {view : α → β} {view' : α' → β'} {R : α → σ → τ → Prop} {R' : α' → σ' → τ' → Prop}

/-- Both computations stop with an error, or both return: the second one gives what `view` makes of the answer of the
    first one, and their states are related. -/
inductive Simulates (view : α → β) (R : α → σ → τ → Prop) : Except ε (α × σ) → Except ε (β × τ) → Prop
  | ok {a : α} {s : σ} {t : τ} (h : R a s t) : Simulates view R (.ok (a, s)) (.ok (view a, t))
  | error {e e' : ε} : Simulates view R (.error e) (.error e')

theorem Simulates.bind {x : Except ε (α × σ)} {y : Except ε (β × τ)} {f : α × σ → Except ε (α' × σ')}
    {g : β × τ → Except ε (β' × τ')} (h : Simulates view R x y)
    (hfg : ∀ a s t, R a s t → Simulates view' R' (f (a, s)) (g (view a, t))) :
    Simulates view' R' (x >>= f) (y >>= g) := by
  cases h with
  | ok h => exact hfg _ _ _ h
  | error => exact .error

theorem Simulates.map {x : Except ε (α × σ)} {y : Except ε (β × τ)} {f : α × σ → Except ε (α' × σ')}
    {R' : α' → σ' → τ → Prop} {view' : α' → β} (h : Simulates view R x y)
    (hf : ∀ a s t, R a s t → ∃ a' s', f (a, s) = .ok (a', s') ∧ view' a' = view a ∧ R' a' s' t) :
    Simulates view' R' (x >>= f) y := by
  cases h with
  | @ok a s t h =>
    obtain ⟨a', s', he, hv, h'⟩ := hf a s t h
    show Simulates view' R' (f (a, s)) _
    rw [he, ← hv]
    exact .ok h'
  | error => exact .error

theorem Simulates.isOk_iff {x : Except ε (α × σ)} {y : Except ε (β × τ)} (h : Simulates view R x y) :
    (∃ r, x = .ok r) ↔ ∃ r, y = .ok r := by
  cases h with
  | ok h => exact ⟨fun _ => ⟨_, rfl⟩, fun _ => ⟨_, rfl⟩⟩
  | error => exact ⟨(fun ⟨_, h⟩ => by cases h), fun ⟨_, h⟩ => by cases h⟩

/-- The related states are those that the first computation ends in. -/
theorem Simulates.self {x : Except ε (α × σ)} {y : Except ε (β × τ)} (h : Simulates view R x y) :
    Simulates view (fun a s t => R a s t ∧ x = .ok (a, s)) x y := by
  cases h with
  | ok h => exact .ok ⟨h, rfl⟩
  | error => exact .error

theorem Simulates.of_left_ok {y : Except ε (β × τ)} {a : α} {s : σ} (h : Simulates view R (.ok (a, s)) y) :
    ∃ t, y = .ok (view a, t) ∧ R a s t := by
  cases h with
  | ok h => exact ⟨_, rfl, h⟩

theorem Simulates.of_ok {x : Except ε (α × σ)} {b : β} {t : τ} (h : Simulates view R x (.ok (b, t))) :
    ∃ a s, x = .ok (a, s) ∧ view a = b ∧ R a s t := by
  cases h with
  | ok h => exact ⟨_, _, rfl, rfl, h⟩

/-- Loops whose bodies go side by side. -/
theorem Simulates.forWhile {R : σ → τ → Prop} {f : Nat → σ → Except ε (Bool × σ)} {g : Nat → τ → Except ε (Bool × τ)}
    {lo n : Nat} {s : σ} {t : τ} (h : R s t)
    (step : ∀ i u v, Reaches f lo n s i u → R u v → Simulates id (fun _ => R) (f i u) (g i v)) :
    Simulates id (fun _ => R) (forWhile f lo n s) (forWhile g lo n t) := by
  induction n generalizing lo s t with
  | zero => exact .ok h
  | succ n ih =>
    have hbody := step lo s t ⟨Nat.le_refl _, by omega, by rw [Nat.sub_self]; rfl⟩ h
    unfold Result.forWhile
    generalize hx : f lo s = x at hbody
    generalize g lo t = y at hbody
    cases hbody with
    | error => exact .error
    | @ok b s' t' h' =>
      cases b with
      | false => exact .ok h'
      | true => exact ih h' fun i u v hi => step i u v (hi.cons hx)

end Simulates
end Result
