import Mathlib.Data.BitVec
import Mathlib.Logic.Function.Basic

/-! The stack of x86-64: words in memory from the stack pointer up, the instructions that push and pop them, and the
    delivery of interrupts with the return by `iretq`. Addresses wrap around. Memory is a function of the address; all
    accesses are to whole words at addresses that differ by multiples of 8. -/

namespace X64
open Function

/-- The words in memory from address `a` up. -/
def Holds (m : Nat → BitVec 64) : BitVec 64 → List (BitVec 64) → Prop
  | _, [] => True
  | a, w :: ws => m a.toNat = w ∧ Holds m (a + 8) ws

/-- `push`, once for each word of the list, on memory and the stack pointer. -/
def pushWords : List (BitVec 64) → (Nat → BitVec 64) × BitVec 64 → (Nat → BitVec 64) × BitVec 64
  | [], s => s
  | w :: ws, s => pushWords ws (update s.1 (s.2 - 8).toNat w, s.2 - 8)

/-- Words stored one after the other, from address `a` up. -/
def storeWords : BitVec 64 → List (BitVec 64) → (Nat → BitVec 64) → Nat → BitVec 64
  | _, [], m => m
  | a, w :: ws, m => storeWords (a + 8) ws (update m a.toNat w)

section Words
variable {m m' : Nat → BitVec 64} {a : BitVec 64} {w : BitVec 64} {ws : List (BitVec 64)}

theorem add_eight_mul (a : BitVec 64) (k : Nat) :
    a + 8 + BitVec.ofNat 64 (8 * k) = a + BitVec.ofNat 64 (8 * (k + 1)) := by
  rw [Nat.mul_succ, Nat.add_comm (8 * k), BitVec.ofNat_add, BitVec.add_assoc]
  rfl

theorem holds_iff : Holds m a ws ↔ ∀ k < ws.length, m (a + BitVec.ofNat 64 (8 * k)).toNat = ws.getD k 0 := by
  induction ws generalizing a with
  | nil => exact ⟨fun _ k hk => absurd hk (Nat.not_lt_zero k), fun _ => trivial⟩
  | cons w ws ih =>
    rw [Holds, ih]
    constructor
    · rintro ⟨hw, hws⟩ k hk
      cases k with
      | zero => exact (congrArg (fun b : BitVec 64 => m b.toNat) (BitVec.add_zero a)).trans hw
      | succ k =>
        rw [← add_eight_mul, hws k (Nat.lt_of_succ_lt_succ hk)]
        rfl
    · intro h
      refine ⟨(congrArg (fun b : BitVec 64 => m b.toNat) (BitVec.add_zero a)).symm.trans (h 0 (Nat.zero_lt_succ _)),
        fun k hk => ?_⟩
      rw [add_eight_mul, h (k + 1) (Nat.succ_lt_succ hk)]
      rfl

theorem Holds.congr (h : Holds m a ws)
    (hm : ∀ k < ws.length, m' (a + BitVec.ofNat 64 (8 * k)).toNat = m (a + BitVec.ofNat 64 (8 * k)).toNat) :
    Holds m' a ws :=
  holds_iff.mpr fun k hk => (hm k hk).trans (holds_iff.mp h k hk)

theorem Holds.append {ws' : List (BitVec 64)} (h : Holds m a (ws ++ ws')) :
    Holds m (a + BitVec.ofNat 64 (8 * ws.length)) ws' := by
  induction ws generalizing a with
  | nil =>
    show Holds m (a + 0#64) ws'
    rwa [BitVec.add_zero]
  | cons w ws ih =>
    rw [List.length_cons, ← add_eight_mul]
    exact ih h.2

/-- A pushed word does not reach those above it. -/
theorem Holds.push (h : Holds m a ws) (w : BitVec 64) (hlen : 8 * ws.length + 8 < 2 ^ 64) :
    Holds (update m (a - 8).toNat w) (a - 8) (w :: ws) := by
  refine ⟨update_self .., ?_⟩
  rw [BitVec.sub_add_cancel]
  refine h.congr fun k hk => update_of_ne ?_ _ _
  rw [BitVec.toNat_add, BitVec.toNat_sub, BitVec.toNat_ofNat]
  show _ ≠ (2 ^ 64 - 8 + a.toNat) % 2 ^ 64
  omega

theorem pushWords_append (ws ws' : List (BitVec 64)) (s : (Nat → BitVec 64) × BitVec 64) :
    pushWords (ws ++ ws') s = pushWords ws' (pushWords ws s) := by
  induction ws generalizing s with
  | nil => rfl
  | cons w ws ih => exact ih _

theorem holds_pushWords {ws' : List (BitVec 64)} {s : (Nat → BitVec 64) × BitVec 64} (h : Holds s.1 s.2 ws')
    (hlen : 8 * (ws.length + ws'.length) < 2 ^ 64) :
    Holds (pushWords ws s).1 (pushWords ws s).2 (ws.reverse ++ ws') := by
  induction ws generalizing s ws' with
  | nil => exact h
  | cons w ws ih =>
    rw [List.length_cons] at hlen
    rw [List.reverse_cons, List.append_assoc]
    exact ih (h.push w (by omega)) (by rw [List.length_append, List.length_singleton]; omega)

theorem storeWords_of_ne {x : Nat} (h : ∀ k < ws.length, x ≠ (a + BitVec.ofNat 64 (8 * k)).toNat) :
    storeWords a ws m x = m x := by
  induction ws generalizing a m with
  | nil => rfl
  | cons w ws ih =>
    have h0 : x ≠ a.toNat := by simpa using h 0 (Nat.zero_lt_succ _)
    rw [storeWords, ih fun k hk => add_eight_mul a k ▸ h (k + 1) (Nat.succ_lt_succ hk), update_of_ne h0]

theorem holds_storeWords (hlen : 8 * ws.length ≤ 2 ^ 64) : Holds (storeWords a ws m) a ws := by
  induction ws generalizing a m with
  | nil => trivial
  | cons w ws ih =>
    rw [List.length_cons] at hlen
    refine ⟨?_, ih (by omega)⟩
    rw [storeWords, storeWords_of_ne fun k hk => ?_, update_self]
    rw [add_eight_mul, BitVec.toNat_add, BitVec.toNat_ofNat]
    omega

end Words

/-! ### Instructions -/

/-- What `push` takes. -/
inductive Operand (R : Type) where
  | imm (w : BitVec 64)
  | reg (r : R)

inductive Instr (R : Type) where
  | push (o : Operand R)
  | pop (r : R)
  | addSp (n : BitVec 64)
  | iretq

/-- The processor, with the general registers `R` other than the stack pointer. -/
structure Cpu (R : Type) where
  gpr : R → BitVec 64
  sp : BitVec 64
  ip : BitVec 64
  cs : BitVec 64
  flags : BitVec 64
  ss : BitVec 64
  mem : Nat → BitVec 64

/-- The flags after an addition and after a test, from those before and the operands. -/
structure Alu where
  add : BitVec 64 → BitVec 64 → BitVec 64 → BitVec 64
  test : BitVec 64 → BitVec 64 → BitVec 64 → BitVec 64

variable {R : Type}

def Operand.value (gpr : R → BitVec 64) : Operand R → BitVec 64
  | .imm w => w
  | .reg r => gpr r

variable [DecidableEq R]

/-- One instruction. The instruction pointer is that of the code that `iretq` returns to; straight-line code needs
    none. -/
def Instr.step (alu : Alu) (c : Cpu R) : Instr R → Cpu R
  | .push o => { c with sp := c.sp - 8, mem := update c.mem (c.sp - 8).toNat (o.value c.gpr) }
  | .pop r => { c with gpr := update c.gpr r (c.mem c.sp.toNat), sp := c.sp + 8 }
  | .addSp n => { c with sp := c.sp + n, flags := alu.add c.flags c.sp n }
  | .iretq =>
    { c with
      ip := c.mem c.sp.toNat
      cs := c.mem (c.sp + 8).toNat
      flags := c.mem (c.sp + 16).toNat
      sp := c.mem (c.sp + 24).toNat
      ss := c.mem (c.sp + 32).toNat }

def run (alu : Alu) (code : List (Instr R)) (c : Cpu R) : Cpu R := code.foldl (Instr.step alu) c

/-- The registers `rs` with the words `ws`. -/
def assign : List R → List (BitVec 64) → (R → BitVec 64) → R → BitVec 64
  | r :: rs, w :: ws, gpr => assign rs ws (update gpr r w)
  | _, _, gpr => gpr

variable {alu : Alu} {c : Cpu R}

theorem run_append (code code' : List (Instr R)) (c : Cpu R) :
    run alu (code ++ code') c = run alu code' (run alu code c) := List.foldl_append

theorem run_push (os : List (Operand R)) (c : Cpu R) :
    run alu (os.map .push) c =
      { c with
        sp := (pushWords (os.map (Operand.value c.gpr)) (c.mem, c.sp)).2
        mem := (pushWords (os.map (Operand.value c.gpr)) (c.mem, c.sp)).1 } := by
  induction os generalizing c with
  | nil => rfl
  | cons o os ih => exact ih _

theorem run_pop {rs : List R} {ws ws' : List (BitVec 64)} (h : Holds c.mem c.sp (ws ++ ws'))
    (hlen : rs.length = ws.length) :
    run alu (rs.map .pop) c = { c with gpr := assign rs ws c.gpr, sp := c.sp + BitVec.ofNat 64 (8 * ws.length) } := by
  induction rs generalizing c ws with
  | nil =>
    obtain rfl : ws = [] := List.eq_nil_of_length_eq_zero hlen.symm
    show c = { c with sp := c.sp + 0#64 }
    rw [BitVec.add_zero]
  | cons r rs ih =>
    cases ws with
    | nil => cases hlen
    | cons w ws =>
      obtain ⟨hw, hws⟩ := h
      subst hw
      rw [List.length_cons, ← add_eight_mul]
      exact ih (c := Instr.step alu c (.pop r)) hws (Nat.succ.inj hlen)

/-- A return frame that is taken off after the registers and two more words. -/
theorem run_return {rs : List R} {ws : List (BitVec 64)} {x y ip cs flags sp ss : BitVec 64}
    (h : Holds c.mem c.sp (ws ++ [x, y, ip, cs, flags, sp, ss])) (hlen : rs.length = ws.length) :
    run alu (rs.map .pop ++ [.addSp 16, .iretq]) c =
      { gpr := assign rs ws c.gpr, sp, ip, cs, flags, ss, mem := c.mem } := by
  obtain ⟨-, -, hip, hcs, hflags, hsp, hss, -⟩ := h.append
  rw [run_append, run_pop h hlen]
  generalize c.sp + BitVec.ofNat 64 (8 * ws.length) = a at hip hcs hflags hsp hss
  simp only [BitVec.add_assoc, BitVec.reduceAdd] at hip hcs hflags hsp hss
  simp only [run, List.foldl_cons, List.foldl_nil, Instr.step, BitVec.add_assoc, BitVec.ofNat_eq_ofNat,
    BitVec.reduceAdd]
  rw [hip, hcs, hflags, hsp, hss]

/-! ### Interrupts -/

/-- What the processor loads for a handler, from the descriptor tables: the stack, the code, the flags. -/
structure Gate where
  sp : BitVec 64
  ip : BitVec 64
  cs : BitVec 64
  flags : BitVec 64
  ss : BitVec 64

/-- The exceptions with an error code. -/
def hasErrorCode (vector : Nat) : Bool := vector ∈ [8, 10, 11, 12, 13, 14, 17, 21, 29, 30]

/-- The words that the processor pushes. -/
def delivered (c : Cpu R) (vector : Nat) (error : BitVec 64) : List (BitVec 64) :=
  [c.ss, c.sp, c.flags, c.cs, c.ip] ++ if hasErrorCode vector then [error] else []

theorem toNat_align (a : BitVec 64) : (a &&& ~~~0xF#64).toNat = a.toNat / 16 * 16 := by
  have hmask : ∀ i : Fin 64, (~~~0xF#64).getLsbD i = decide (4 ≤ i.val) := by decide
  have hshift : a &&& ~~~0xF#64 = a >>> 4 <<< 4 := by
    apply BitVec.eq_of_getLsbD_eq
    intro i hi
    rw [BitVec.getLsbD_and, hmask ⟨i, hi⟩, BitVec.getLsbD_shiftLeft, BitVec.getLsbD_ushiftRight]
    rcases Nat.lt_or_ge i 4 with hlt | hge
    · simp [hlt]
    · simp [hi, hge, Nat.not_lt_of_le hge]
  have hlt := a.isLt
  rw [hshift, BitVec.toNat_shiftLeft, BitVec.toNat_ushiftRight, Nat.shiftLeft_eq, Nat.shiftRight_eq_div_pow]
  omega

/-- The delivery of an interrupt, on a stack that is aligned to 16 bytes. -/
def deliver (g : Gate) (vector : Nat) (error : BitVec 64) (c : Cpu R) : Cpu R :=
  let s := pushWords (delivered c vector error) (c.mem, g.sp &&& ~~~0xF#64)
  { gpr := c.gpr, sp := s.2, ip := g.ip, cs := g.cs, flags := g.flags, ss := g.ss, mem := s.1 }

end X64
