import SamOS.Memory
import Mathlib.Tactic.IntervalCases

/-! Interrupt entry and return (`isr.S`, `idt.h`): the processor pushes `ss`, `rsp`, `rflags`, `cs` and `rip`, the
    stub pushes the error code, the vector and the general registers, and what is then on the stack is an
    `InterruptFrame`. Stack memory is a function of the address; all its addresses are multiples of 8. -/

namespace SamOS
open Function

/-- The registers of interrupted code. -/
structure Regs where
  r15 : Word
  r14 : Word
  r13 : Word
  r12 : Word
  r11 : Word
  r10 : Word
  r9 : Word
  r8 : Word
  rbp : Word
  rdi : Word
  rsi : Word
  rdx : Word
  rcx : Word
  rbx : Word
  rax : Word
  rip : Word
  cs : Word
  rflags : Word
  rsp : Word
  ss : Word
  deriving DecidableEq, Repr

/-- Whether the code runs in ring 3: the privilege level in the code selector. -/
def Regs.ring3 (r : Regs) : Bool := r.cs &&& 3#64 == 3#64

structure InterruptFrame extends Regs where
  vector : Word
  errorCode : Word
  deriving DecidableEq, Repr

namespace InterruptFrame

/-- The fields in memory order, from the lowest address. -/
def words (f : InterruptFrame) : List Word :=
  [f.r15, f.r14, f.r13, f.r12, f.r11, f.r10, f.r9, f.r8, f.rbp, f.rdi, f.rsi, f.rdx, f.rcx, f.rbx, f.rax,
    f.vector, f.errorCode, f.rip, f.cs, f.rflags, f.rsp, f.ss]

/-- `sizeof(InterruptFrame)`. -/
def size : Nat := 176

/-- The frame at address `a`. -/
def load (m : Nat → Word) (a : Nat) : InterruptFrame where
  r15 := m a
  r14 := m (a + 8)
  r13 := m (a + 16)
  r12 := m (a + 24)
  r11 := m (a + 32)
  r10 := m (a + 40)
  r9 := m (a + 48)
  r8 := m (a + 56)
  rbp := m (a + 64)
  rdi := m (a + 72)
  rsi := m (a + 80)
  rdx := m (a + 88)
  rcx := m (a + 96)
  rbx := m (a + 104)
  rax := m (a + 112)
  vector := m (a + 120)
  errorCode := m (a + 128)
  rip := m (a + 136)
  cs := m (a + 144)
  rflags := m (a + 152)
  rsp := m (a + 160)
  ss := m (a + 168)

/-- Memory with the frame at address `a`. -/
def store (m : Nat → Word) (a : Nat) (f : InterruptFrame) : Nat → Word := fun x =>
  if a ≤ x ∧ x < a + size ∧ (x - a) % 8 = 0 then f.words.getD ((x - a) / 8) 0 else m x

variable {m : Nat → Word} {a : Nat} {f : InterruptFrame}

theorem store_of_outside {x : Nat} (h : x < a ∨ a + size ≤ x) : store m a f x = m x :=
  if_neg (by omega)

theorem store_field {k : Nat} (h : k < 22) :
    store m a f (a + 8 * k) = f.words.getD k 0 := by
  unfold store size
  rw [if_pos (by omega)]
  congr 1
  omega

theorem load_eq (h : ∀ k < 22, m (a + 8 * k) = f.words.getD k 0) : load m a = f := by
  unfold load
  rw [show m a = _ from h 0 (by decide), show m (a + 8) = _ from h 1 (by decide),
    show m (a + 16) = _ from h 2 (by decide), show m (a + 24) = _ from h 3 (by decide),
      show m (a + 32) = _ from h 4 (by decide), show m (a + 40) = _ from h 5 (by decide),
    show m (a + 48) = _ from h 6 (by decide), show m (a + 56) = _ from h 7 (by decide),
      show m (a + 64) = _ from h 8 (by decide),
    show m (a + 72) = _ from h 9 (by decide), show m (a + 80) = _ from h 10 (by decide),
      show m (a + 88) = _ from h 11 (by decide),
    show m (a + 96) = _ from h 12 (by decide), show m (a + 104) = _ from h 13 (by decide),
      show m (a + 112) = _ from h 14 (by decide),
    show m (a + 120) = _ from h 15 (by decide), show m (a + 128) = _ from h 16 (by decide),
      show m (a + 136) = _ from h 17 (by decide),
    show m (a + 144) = _ from h 18 (by decide), show m (a + 152) = _ from h 19 (by decide),
      show m (a + 160) = _ from h 20 (by decide),
    show m (a + 168) = _ from h 21 (by decide)]
  rfl

@[simp] theorem load_store (m : Nat → Word) (a : Nat) (f : InterruptFrame) :
    load (store m a f) a = f := load_eq fun _ => store_field

theorem load_congr {m' : Nat → Word} (h : ∀ x, a ≤ x → x < a + size → m' x = m x) : load m' a = load m a := by
  have h' : ∀ k < 176, m' (a + k) = m (a + k) := fun k hk => h _ (by omega) (by unfold size; omega)
  have h0 : m' a = m a := h' 0 (by decide)
  unfold load
  rw [h0]
  congr 2 <;> exact h' _ (by decide)

/-- `frame->rax = ret`. -/
def storeRax (m : Nat → Word) (a : Nat) (ret : Word) : Nat → Word := update m (a + 112) ret

theorem load_storeRax (m : Nat → Word) (a : Nat) (ret : Word) :
    load (storeRax m a ret) a = { load m a with rax := ret } := by
  simp [load, storeRax]

theorem storeRax_of_outside {x : Nat} {ret : Word} (h : x < a ∨ a + size ≤ x) : storeRax m a ret x = m x :=
  update_of_ne (by unfold size at h; omega) _ _

end InterruptFrame

/-! ### Entry -/

/-- `push`, once for each word of the list. -/
def pushAll : List Word → (Nat → Word) × Nat → (Nat → Word) × Nat
  | [], s => s
  | w :: ws, (m, rsp) => pushAll ws (update m (rsp - 8) w, rsp - 8)

/-- What the processor pushes on an interrupt without an error code. -/
def cpuPushes (r : Regs) : List Word := [r.ss, r.rsp, r.rflags, r.cs, r.rip]

/-- What `isr32`, and `isr33` or `isr128` with `isr_common`, push. -/
def stubPushes (vector : Word) (r : Regs) : List Word :=
  [0, vector, r.rax, r.rbx, r.rcx, r.rdx, r.rsi, r.rdi, r.rbp, r.r8, r.r9, r.r10, r.r11, r.r12, r.r13, r.r14, r.r15]

/-- The stack and `rsp` when the handler is called, for a stack that starts at `top`. -/
def interruptEntry (m : Nat → Word) (top : Nat) (vector : Word) (r : Regs) : (Nat → Word) × Nat :=
  pushAll (cpuPushes r ++ stubPushes vector r) (m, top)

theorem pushAll_eq (ws : List Word) (m : Nat → Word) (rsp : Nat) (h : 8 * ws.length ≤ rsp) :
    (pushAll ws (m, rsp)).2 = rsp - 8 * ws.length ∧
    ∀ x, (pushAll ws (m, rsp)).1 x =
      if rsp - 8 * ws.length ≤ x ∧ x < rsp ∧ (rsp - x) % 8 = 0 then ws.getD ((rsp - x) / 8 - 1) 0 else m x := by
  induction ws generalizing m rsp with
  | nil => exact ⟨rfl, fun x => by simp only [pushAll, List.length_nil]; rw [if_neg (by omega)]⟩
  | cons w ws ih =>
    simp only [List.length_cons] at h ⊢
    obtain ⟨h1, h2⟩ := ih (update m (rsp - 8) w) (rsp - 8) (by omega)
    refine ⟨by rw [pushAll, h1]; omega, fun x => ?_⟩
    rw [pushAll, h2]
    by_cases hx : x = rsp - 8
    · -- The first word pushed.
      subst hx
      rw [if_neg (by omega), if_pos (by omega), update_self, show (rsp - (rsp - 8)) / 8 - 1 = 0 by omega]
      rfl
    · rw [update_of_ne hx]
      by_cases hin : rsp - 8 - 8 * ws.length ≤ x ∧ x < rsp - 8 ∧ (rsp - 8 - x) % 8 = 0
      · rw [if_pos hin, if_pos (by omega), show (rsp - x) / 8 - 1 = (rsp - 8 - x) / 8 - 1 + 1 by omega,
          List.getD_cons_succ]
      · rw [if_neg hin, if_neg (by omega)]

/-- Interrupt entry leaves the frame of the interrupted registers below `top`. -/
theorem interruptEntry_eq (m : Nat → Word) {top : Nat} (vector : Word) (r : Regs) (h : InterruptFrame.size ≤ top) :
    interruptEntry m top vector r =
      (InterruptFrame.store m (top - InterruptFrame.size) { r with vector, errorCode := 0 },
        top - InterruptFrame.size) := by
  have hlen : (cpuPushes r ++ stubPushes vector r).length = 22 := rfl
  unfold InterruptFrame.size at *
  obtain ⟨h1, h2⟩ := pushAll_eq (cpuPushes r ++ stubPushes vector r) m top (by rw [hlen]; exact h)
  rw [hlen] at h1 h2
  unfold interruptEntry
  refine Prod.ext (funext fun x => ?_) h1
  rw [h2]
  unfold InterruptFrame.store InterruptFrame.size
  by_cases hx : top - 8 * 22 ≤ x ∧ x < top ∧ (top - x) % 8 = 0
  · rw [if_pos hx]
    simp only
    rw [if_pos (by omega)]
    -- Word `k` from below is the one pushed `21 - k` words before the last.
    obtain ⟨k, hk, rfl⟩ : ∃ k, k < 22 ∧ x = top - 176 + 8 * k := ⟨(x - (top - 176)) / 8, by omega, by omega⟩
    rw [show (top - (top - 176 + 8 * k)) / 8 - 1 = 21 - k by omega,
      show (top - 176 + 8 * k - (top - 176)) / 8 = k by omega]
    clear hx h h1 h2 hlen
    interval_cases k <;> rfl
  · rw [if_neg hx]
    simp only
    rw [if_neg (by omega)]

/-- The registers after the stub has popped the frame at `a` and returned with `iretq`. -/
def interruptReturn (m : Nat → Word) (a : Nat) : Regs := (InterruptFrame.load m a).toRegs

end SamOS
