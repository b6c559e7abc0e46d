import Mathlib.Data.BitVec

/-! Programs that call an interface (the ports of a device, the services of a firmware), and the servers that answer.
    A server may answer in several ways and may change by itself between two calls, so a property of a program is one
    of all its executions. -/

namespace Interact

/-- The calls that a program can make, with what is answered to each. -/
structure Interface where
  Call : Type
  Answer : Call → Type

inductive Prog (I : Interface) (α : Type) : Type
  | ret (a : α)
  | call (c : I.Call) (next : I.Answer c → Prog I α)

/-- From which state a call can be answered in which way, and the state after it. -/
def Server (I : Interface) (σ : Type) : Type := σ → (c : I.Call) → I.Answer c → σ → Prop

variable {I : Interface} {σ α β : Type}

namespace Prog

def bind (m : Prog I α) (f : α → Prog I β) : Prog I β :=
  match m with
  | .ret a => f a
  | .call c next => .call c fun r => (next r).bind f

instance : Monad (Prog I) where
  pure := .ret
  bind := bind

/-- A loop whose body goes on with a new value or leaves with a result, cut off after `rounds` rounds. -/
def loop (body : β → Prog I (β ⊕ α)) : Nat → β → Prog I (Option α)
  | 0, _ => pure none
  | rounds + 1, b => body b >>= Sum.elim (loop body rounds) fun a => pure (some a)

/-- Every execution from `s` that ends does so with a result and a state that meet `Q`. -/
def Ensures (E : Server I σ) : Prog I α → σ → (α → σ → Prop) → Prop
  | .ret a, s, Q => Q a s
  | .call c next, s, Q => ∀ r t, E s c r t → (next r).Ensures E t Q

/-- An execution from `s` ends with `a` in `t`. -/
def Ends (E : Server I σ) : Prog I α → σ → α → σ → Prop
  | .ret a, s, b, t => b = a ∧ t = s
  | .call c next, s, b, u => ∃ r t, E s c r t ∧ (next r).Ends E t b u

section Rules
variable {E : Server I σ} {m : Prog I α} {f : α → Prog I β} {s : σ} {Q Q' : α → σ → Prop}

theorem Ensures.of_ends (h : m.Ensures E s Q) {a : α} {t : σ} (he : m.Ends E s a t) : Q a t := by
  induction m generalizing s with
  | ret b =>
    obtain ⟨rfl, rfl⟩ := he
    exact h
  | call c next ih =>
    obtain ⟨r, u, hr, he⟩ := he
    exact ih r (h r u hr) he

/-- A program ends when every call is answered. -/
theorem exists_ends (hE : ∀ s c, ∃ r t, E s c r t) (m : Prog I α) (s : σ) : ∃ a t, m.Ends E s a t := by
  induction m generalizing s with
  | ret a => exact ⟨a, s, rfl, rfl⟩
  | call c next ih =>
    obtain ⟨r, t, hr⟩ := hE s c
    obtain ⟨a, u, hu⟩ := ih r t
    exact ⟨a, u, r, t, hr, hu⟩

@[simp] theorem ensures_pure {a : α} : (pure a : Prog I α).Ensures E s Q ↔ Q a s := Iff.rfl

@[simp] theorem ensures_bind {Q : β → σ → Prop} :
    (m >>= f).Ensures E s Q ↔ m.Ensures E s fun a t => (f a).Ensures E t Q := by
  show (m.bind f).Ensures E s Q ↔ _
  induction m generalizing s with
  | ret a => rfl
  | call c next ih => exact forall_congr' fun r => forall_congr' fun t => imp_congr_right fun _ => ih r

theorem Ensures.imp (h : m.Ensures E s Q) (hq : ∀ a t, Q a t → Q' a t) : m.Ensures E s Q' := by
  induction m generalizing s with
  | ret a => exact hq a s h
  | call c next ih => exact fun r t hr => ih r (h r t hr)

theorem ensures_keeps {P : σ → Prop} (step : ∀ {s c r t}, P s → E s c r t → P t) (m : Prog I α) (h : P s) :
    m.Ensures E s fun _ t => P t := by
  induction m generalizing s with
  | ret a => exact h
  | call c next ih => exact fun r t hr => ih r (step h hr)

/-- The rule for loops, with an invariant that may depend on the rounds that are left. -/
theorem ensures_loop {body : β → Prog I (β ⊕ α)} {Q : Option α → σ → Prop} (J : Nat → β → σ → Prop)
    (step : ∀ n b s, J (n + 1) b s → (body b).Ensures E s fun x t => Sum.elim (fun b' => J n b' t)
      (fun a => Q (some a) t) x)
    (stop : ∀ b s, J 0 b s → Q none s) {rounds : Nat} {b : β} (h : J rounds b s) :
    (loop body rounds b).Ensures E s Q := by
  induction rounds generalizing b s with
  | zero => exact stop b s h
  | succ n ih =>
    rw [loop, ensures_bind]
    refine (step n b s h).imp fun x t hx => ?_
    cases x with
    | inl b' => exact ih hx
    | inr a => exact hx

end Rules
end Prog

/-! ### Ports -/

inductive PortCall where
  | inb (port : BitVec 16)
  | outb (port : BitVec 16) (v : BitVec 8)
  | inw (port : BitVec 16)
  | outw (port : BitVec 16) (v : BitVec 16)

def PortCall.Answer : PortCall → Type
  | .inb _ => BitVec 8
  | .outb .. => Unit
  | .inw _ => BitVec 16
  | .outw .. => Unit

def ports : Interface := ⟨PortCall, PortCall.Answer⟩

def inb (port : BitVec 16) : Prog ports (BitVec 8) := .call (PortCall.inb port) .ret

def outb (port : BitVec 16) (v : BitVec 8) : Prog ports Unit := .call (PortCall.outb port v) .ret

def inw (port : BitVec 16) : Prog ports (BitVec 16) := .call (PortCall.inw port) .ret

def outw (port : BitVec 16) (v : BitVec 16) : Prog ports Unit := .call (PortCall.outw port v) .ret

/-- Writes, one after the other. -/
def outs : List (BitVec 16 × BitVec 8) → Prog ports Unit
  | [] => pure ()
  | w :: ws => do
    outb w.1 w.2
    outs ws

section Ports
variable {E : Server ports σ} {s : σ} {port : BitVec 16}

@[simp] theorem ensures_inb {Q : BitVec 8 → σ → Prop} :
    (inb port).Ensures E s Q ↔ ∀ r t, E s (.inb port) r t → Q r t := Iff.rfl

@[simp] theorem ensures_outb {v : BitVec 8} {Q : Unit → σ → Prop} :
    (outb port v).Ensures E s Q ↔ ∀ t, E s (.outb port v) () t → Q () t :=
  ⟨fun h t ht => h () t ht, fun h _ t ht => h t ht⟩

@[simp] theorem ensures_inw {Q : BitVec 16 → σ → Prop} :
    (inw port).Ensures E s Q ↔ ∀ r t, E s (.inw port) r t → Q r t := Iff.rfl

@[simp] theorem ensures_outw {v : BitVec 16} {Q : Unit → σ → Prop} :
    (outw port v).Ensures E s Q ↔ ∀ t, E s (.outw port v) () t → Q () t :=
  ⟨fun h t ht => h () t ht, fun h _ t ht => h t ht⟩

end Ports
end Interact
