import Mathlib.Data.List.Basic

/-! Forests kept in memory. A page leads to other pages by an index; a page of the forest is labelled with the root of
    its tree and the indices that lead to it, the last one first. Pages deeper than a fixed depth are not part of the
    forest. -/

namespace Forest
variable {P I : Type}

/-- The labels agree with the links. The first argument of `next` is the depth of the page. -/
structure IsForest (depth : Nat) (next : Nat → P → I → Option P) (node : P → P → List I → Prop) : Prop where
  label : ∀ {f r r' p p'}, node f r p → node f r' p' → r = r' ∧ p = p'
  root : ∀ {f r}, node f r [] → f = r
  child : ∀ {f r p i g}, node f r p → p.length < depth → next p.length f i = some g → node g r (i :: p)
  parent : ∀ {g r i p}, node g r (i :: p) → p.length < depth ∧ ∃ f, node f r p ∧ next p.length f i = some g

/-- The page that the indices `idx 0, idx 1, …` lead to after `n` links. -/
def walk (next : Nat → P → I → Option P) (root : P) (idx : Nat → I) : Nat → Option P
  | 0 => some root
  | n + 1 => (walk next root idx n).bind fun f => next n f (idx n)

/-- The first `n` indices, the last one first. -/
def path (idx : Nat → I) : Nat → List I
  | 0 => []
  | n + 1 => idx n :: path idx n

@[simp] theorem length_path (idx : Nat → I) (n : Nat) : (path idx n).length = n := by
  induction n with
  | zero => rfl
  | succ n ih => rw [path, List.length_cons, ih]

namespace IsForest
variable {depth : Nat} {next next' : Nat → P → I → Option P} {node node' : P → P → List I → Prop}
variable {f g r t : P} {i : I} {p : List I}

theorem unique (h : IsForest depth next node) (hf : node f r p) (hg : node g r p) : f = g := by
  induction p generalizing f g with
  | nil => rw [h.root hf, h.root hg]
  | cons i p ih =>
    obtain ⟨-, x, hx, hf⟩ := h.parent hf
    obtain ⟨-, y, hy, hg⟩ := h.parent hg
    rw [ih hx hy] at hf
    exact Option.some.inj (hf.symm.trans hg)

theorem length_le (h : IsForest depth next node) (hf : node f r p) : p.length ≤ depth := by
  cases p with
  | nil => exact Nat.zero_le _
  | cons i p => exact (h.parent hf).1

theorem ancestor (h : IsForest depth next node) {p' : List I} (hf : node f r (p' ++ p)) : ∃ x, node x r p := by
  induction p' generalizing f with
  | nil => exact ⟨f, hf⟩
  | cons i p' ih =>
    obtain ⟨-, x, hx, -⟩ := h.parent hf
    exact ih hx

theorem next_of_child (h : IsForest depth next node) (ht : node t r p) (hg : node g r (i :: p)) :
    next p.length t i = some g := by
  obtain ⟨-, x, hx, hlink⟩ := h.parent hg
  rwa [h.unique ht hx]

/-- A walk reaches the node of its indices, and every node is reached by the walk of its indices. -/
theorem walk_eq_some_iff (h : IsForest depth next node) (hr : node r r []) {idx : Nat → I} {n : Nat} (hn : n ≤ depth) :
    walk next r idx n = some g ↔ node g r (path idx n) := by
  induction n generalizing g with
  | zero =>
    constructor
    · intro hg
      cases hg
      exact hr
    · intro hg
      rw [h.root hg]
      rfl
  | succ n ih =>
    constructor
    · intro hg
      obtain ⟨f, hf, hlink⟩ := Option.bind_eq_some_iff.mp hg
      exact h.child ((ih (by omega)).mp hf) (by rw [length_path]; exact hn) (by rwa [length_path])
    · intro hg
      obtain ⟨-, f, hf, hlink⟩ := h.parent hg
      rw [length_path] at hlink
      exact Option.bind_eq_some_iff.mpr ⟨f, (ih (by omega)).mpr hf, hlink⟩

/-! ### What keeps a forest -/

/-- Only the links of the nodes above the lowest level matter. -/
theorem congr (h : IsForest depth next node) (hnode : ∀ f r p, node' f r p ↔ node f r p)
    (hnext : ∀ {f r p i}, node f r p → p.length < depth → next' p.length f i = next p.length f i) :
    IsForest depth next' node' where
  label hf hf' := h.label ((hnode ..).mp hf) ((hnode ..).mp hf')
  root hf := h.root ((hnode ..).mp hf)
  child hf hl hg := by
    have hf := (hnode ..).mp hf
    rw [hnext hf hl] at hg
    exact (hnode ..).mpr (h.child hf hl hg)
  parent hg := by
    obtain ⟨hl, f, hf, hlink⟩ := h.parent ((hnode ..).mp hg)
    exact ⟨hl, f, (hnode ..).mpr hf, by rwa [hnext hf hl]⟩

theorem label_add (h : IsForest depth next node) (hg : ∀ r p, ¬node g r p)
    (hnode : ∀ x r' q, node' x r' q ↔ node x r' q ∨ (x = g ∧ r' = r ∧ q = p)) {x r₁ r₂ q₁ q₂} (hx : node' x r₁ q₁)
    (hx' : node' x r₂ q₂) : r₁ = r₂ ∧ q₁ = q₂ := by
  rcases (hnode ..).mp hx with hx | ⟨rfl, rfl, rfl⟩ <;> rcases (hnode ..).mp hx' with hx' | ⟨hxg, rfl, rfl⟩
  · exact h.label hx hx'
  · exact (hg _ _ (hxg ▸ hx)).elim
  · exact (hg _ _ hx').elim
  · exact ⟨rfl, rfl⟩

/-- A page without a label and without links becomes the node of an unused index. -/
theorem install (h : IsForest depth next node) (ht : node t r p) (hl : p.length < depth) (hn : next p.length t i = none)
    (hg : ∀ r p, ¬node g r p) (hnode : ∀ x r' q, node' x r' q ↔ node x r' q ∨ (x = g ∧ r' = r ∧ q = i :: p))
    (hentry : next' p.length t i = some g)
    (hnext : ∀ {x r' q j}, node x r' q → q.length < depth → ¬(x = t ∧ j = i) → next' q.length x j = next q.length x j)
    (hempty : ∀ j, next' (p.length + 1) g j = none) : IsForest depth next' node' where
  label := h.label_add hg hnode
  root hx := by
    rcases (hnode ..).mp hx with hx | ⟨-, -, hp⟩
    · exact h.root hx
    · cases hp
  child {x r' q j y} hx hq hy := by
    rcases (hnode ..).mp hx with hx | ⟨rfl, rfl, rfl⟩
    · by_cases hxt : x = t ∧ j = i
      · obtain ⟨rfl, rfl⟩ := hxt
        obtain ⟨rfl, rfl⟩ := h.label hx ht
        obtain rfl := Option.some.inj (hentry.symm.trans hy)
        exact (hnode ..).mpr (Or.inr ⟨rfl, rfl, rfl⟩)
      · rw [hnext hx hq hxt] at hy
        exact (hnode ..).mpr (Or.inl (h.child hx hq hy))
    · rw [List.length_cons, hempty] at hy
      cases hy
  parent {y r' j q} hy := by
    rcases (hnode ..).mp hy with hy | ⟨rfl, rfl, hq⟩
    · obtain ⟨hq, x, hx, hlink⟩ := h.parent hy
      have hxt : ¬(x = t ∧ j = i) := by
        rintro ⟨rfl, rfl⟩
        obtain ⟨-, rfl⟩ := h.label hx ht
        cases hn.symm.trans hlink
      exact ⟨hq, x, (hnode ..).mpr (Or.inl hx), by rwa [hnext hx hq hxt]⟩
    · obtain ⟨rfl, rfl⟩ := List.cons.inj hq
      exact ⟨hl, t, (hnode ..).mpr (Or.inl ht), hentry⟩

/-- A page without a label and without links becomes the root of a tree. -/
theorem addRoot (h : IsForest depth next node) (hg : ∀ r p, ¬node g r p)
    (hnode : ∀ x r' q, node' x r' q ↔ node x r' q ∨ (x = g ∧ r' = g ∧ q = []))
    (hnext : ∀ {x r' q j}, node x r' q → q.length < depth → next' q.length x j = next q.length x j)
    (hempty : ∀ j, next' 0 g j = none) : IsForest depth next' node' where
  label := h.label_add hg hnode
  root hx := by
    rcases (hnode ..).mp hx with hx | ⟨rfl, rfl, -⟩
    · exact h.root hx
    · rfl
  child {x r' q j y} hx hq hy := by
    rcases (hnode ..).mp hx with hx | ⟨rfl, rfl, rfl⟩
    · rw [hnext hx hq] at hy
      exact (hnode ..).mpr (Or.inl (h.child hx hq hy))
    · rw [List.length_nil, hempty] at hy
      cases hy
  parent hy := by
    rcases (hnode ..).mp hy with hy | ⟨-, -, hq⟩
    · obtain ⟨hq, x, hx, hlink⟩ := h.parent hy
      exact ⟨hq, x, (hnode ..).mpr (Or.inl hx), by rwa [hnext hx hq]⟩
    · cases hq

theorem removeTree (h : IsForest depth next node) (hnode : ∀ x r' q, node' x r' q ↔ node x r' q ∧ r' ≠ r) :
    IsForest depth next node' where
  label hx hx' := h.label ((hnode ..).mp hx).1 ((hnode ..).mp hx').1
  root hx := h.root ((hnode ..).mp hx).1
  child hx hq hy := (hnode ..).mpr ⟨h.child ((hnode ..).mp hx).1 hq hy, ((hnode ..).mp hx).2⟩
  parent hy := by
    obtain ⟨hy, hr⟩ := (hnode ..).mp hy
    obtain ⟨hq, x, hx, hlink⟩ := h.parent hy
    exact ⟨hq, x, (hnode ..).mpr ⟨hx, hr⟩, hlink⟩

end IsForest
end Forest
