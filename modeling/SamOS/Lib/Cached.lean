import Mathlib.Logic.Basic

/-! A cache of a lookup that changes under it, as a translation buffer is one of page tables: it is filled at any
    time, and entries leave it only when they are flushed. -/

namespace Cached

/-- The cached answers. -/
abbrev Cache (α β : Type) := α → β → Prop

variable {α β : Type} {look look' : α → Option β} {cache : Cache α β} {set : α → Prop}

/-- Every cached answer is the present one. -/
def Coherent (look : α → Option β) (cache : Cache α β) : Prop := ∀ a b, cache a b → look a = some b

def empty : Cache α β := fun _ _ => False

/-- The answers for a set are taken into the cache. -/
def fill (look : α → Option β) (set : α → Prop) (cache : Cache α β) : Cache α β :=
  fun a b => cache a b ∨ set a ∧ look a = some b

/-- The answers for a set leave the cache. -/
def flush (set : α → Prop) (cache : Cache α β) : Cache α β := fun a b => cache a b ∧ ¬set a

theorem coherent_empty (look : α → Option β) : Coherent look empty := fun _ _ h => h.elim

theorem Coherent.fill (h : Coherent look cache) : Coherent look (fill look set cache) := by
  rintro a b (hc | ⟨-, hb⟩)
  · exact h a b hc
  · exact hb

/-- The lookup may change where the cache is flushed. -/
theorem Coherent.flush (h : Coherent look cache) (hl : ∀ a, ¬set a → look' a = look a) :
    Coherent look' (flush set cache) :=
  fun a b ⟨hc, ha⟩ => (hl a ha).trans (h a b hc)

theorem Coherent.congr (h : Coherent look cache) (hl : ∀ a, look' a = look a) : Coherent look' cache :=
  fun a b hc => (hl a).trans (h a b hc)

end Cached
