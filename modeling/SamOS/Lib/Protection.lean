import SamOS.Lib.Packed
import SamOS.Lib.X64

/-! Protection in the 64-bit mode of x86-64: how the processor reads its descriptor tables when it delivers an
    interrupt, when it returns with `iretq`, when the task register is loaded and when a port is used. Code segments
    are not conforming. -/

namespace Protection
open Packed

/-- The tables as bytes from their bases up, with their limits (the last valid offset). -/
structure SystemTables where
  idt : Nat → BitVec 8
  idtLimit : Nat
  gdt : Nat → BitVec 8
  gdtLimit : Nat
  tss : Nat → BitVec 8
  tssLimit : Nat

/-- A general protection fault, or a segment or gate that is not present. -/
inductive Fault where
  | generalProtection
  | notPresent
  deriving DecidableEq, Repr

/-- The access byte of a descriptor: present, privilege level, code or data, executable, writable. -/
def present (access : BitVec 8) : Bool := access.getLsbD 7
def dpl (access : BitVec 8) : Nat := access.toNat / 32 % 4
def isCode (access : BitVec 8) : Bool := access.getLsbD 4 && access.getLsbD 3
def isWritableData (access : BitVec 8) : Bool := access.getLsbD 4 && !access.getLsbD 3 && access.getLsbD 1

/-- The requested privilege level of a selector. -/
def rpl (sel : BitVec 16) : Nat := sel.toNat % 4

/-- A 64-bit code segment of the privilege level, from the access byte and the flags of its descriptor. -/
def checkCode (level : Nat) : Option (BitVec 8 × BitVec 8) → Except Fault Unit
  | none => .error .generalProtection
  | some (access, flags) =>
    if isCode access = false ∨ dpl access ≠ level ∨ flags &&& 0x60 ≠ 0x20 then .error .generalProtection
    else if present access then .ok ()
    else .error .notPresent

/-- A stack segment of the privilege level; the null selector is one outside of ring 3. -/
def checkStack (level : Nat) (sel : BitVec 16) : Option (BitVec 8 × BitVec 8) → Except Fault Unit
  | none => if sel.toNat / 4 = 0 ∧ rpl sel = level ∧ level ≠ 3 then .ok () else .error .generalProtection
  | some (access, _) =>
    if isWritableData access = false ∨ dpl access ≠ level ∨ rpl sel ≠ level then .error .generalProtection
    else if present access then .ok ()
    else .error .notPresent

namespace SystemTables
variable (t : SystemTables)

/-- The access byte and the flags of the descriptor of a selector, if it is inside the table and not the null
    descriptor. There is no local table for the selectors with bit 2. -/
def descriptor (sel : BitVec 16) : Option (BitVec 8 × BitVec 8) :=
  let a := sel.toNat / 8 * 8
  if a = 0 ∨ sel.getLsbD 2 = true ∨ t.gdtLimit < a + 7 then none else some (t.gdt (a + 5), t.gdt (a + 6))

def cpl {R : Type} (c : X64.Cpu R) : Nat := c.cs.toNat % 4

/-- The flags in a handler: without trap, nested task, resume and virtual-8086, and without interrupts through an
    interrupt gate. -/
def handlerFlags (attr : BitVec 8) (flags : BitVec 64) : BitVec 64 :=
  if attr &&& 1 = 0 then flags &&& ~~~0x34300#64 else flags &&& ~~~0x34100#64

/-- The stack of a handler in ring 0: one of the interrupt stacks if the gate names one, the one for ring 0 if the
    privilege level changes, and otherwise the current one. -/
def handlerStack {R : Type} (c : X64.Cpu R) (ist : Nat) : BitVec 64 :=
  if ist ≠ 0 then u64 t.tss (28 + 8 * ist) else if cpl c = 0 then c.sp else u64 t.tss 4

/-- The state of the processor in the handler of a gate. -/
def handlerState {R : Type} (c : X64.Cpu R) (vector : Nat) : X64.Gate where
  sp := t.handlerStack c ((t.idt (16 * vector + 4)).toNat % 8)
  ip := u32 t.idt (16 * vector + 8) ++ u16 t.idt (16 * vector + 6) ++ u16 t.idt (16 * vector)
  cs := (u16 t.idt (16 * vector + 2) &&& 0xFFFC).setWidth 64
  flags := handlerFlags (t.idt (16 * vector + 5)) c.flags
  ss := if cpl c = 0 then c.ss else 0

/-- The delivery of an interrupt to a handler in ring 0; `software` for the instruction `int n`, that needs the
    privilege level of the gate. -/
def deliver {R : Type} (c : X64.Cpu R) (vector : Nat) (software : Bool) : Except Fault X64.Gate :=
  let attr := t.idt (16 * vector + 5)
  if t.idtLimit < 16 * vector + 15 ∨ attr &&& 0x1E ≠ 0x0E ∨ software = true ∧
    dpl attr < cpl c then .error .generalProtection
  else if present attr = false then .error .notPresent
  else (checkCode 0 (t.descriptor (u16 t.idt (16 * vector + 2)))).map fun _ => t.handlerState c vector

/-- The return to a code and a stack segment from ring 0: both are of the level that the selectors request. -/
def returnTo (cs ss : BitVec 16) : Except Fault Unit :=
  match checkCode (rpl cs) (t.descriptor cs) with
  | .error fault => .error fault
  | .ok _ => checkStack (rpl cs) ss (t.descriptor ss)

/-- The base and the limit of a task-state segment that is free; loading it makes it busy. -/
def loadTask (sel : BitVec 16) : Except Fault (BitVec 64 × BitVec 16) :=
  let a := sel.toNat / 8 * 8
  if a = 0 ∨ sel.getLsbD 2 = true ∨ t.gdtLimit < a + 15 then .error .generalProtection
  else if t.gdt (a + 5) &&& 0x1F ≠ 0x09 then .error .generalProtection
  else if present (t.gdt (a + 5)) = false then .error .notPresent
  else .ok (u32 t.gdt (a + 8) ++ (t.gdt (a + 7) ++ (t.gdt (a + 4) ++ u16 t.gdt (a + 2))), u16 t.gdt a)

/-- A port may be used at a privilege level up to the one in the flags, and above it if its bit in the map of the task
    is clear. -/
def portAllowed (level iopl : Nat) (port : BitVec 16) : Bool :=
  let a := (u16 t.tss 102).toNat + port.toNat / 8
  decide (level ≤ iopl) || decide (a + 1 ≤ t.tssLimit) && !(t.tss a).getLsbD (port.toNat % 8)

/-- A gate that the instruction may use, to a code segment of ring 0. -/
theorem deliver_eq_ok {R : Type} {c : X64.Cpu R} {vector : Nat} {software : Bool}
    (hlimit : 16 * vector + 15 ≤ t.idtLimit) (htype : t.idt (16 * vector + 5) &&& 0x9E = 0x8E)
    (hlevel : software = true → cpl c ≤ dpl (t.idt (16 * vector + 5)))
    (hcode : checkCode 0 (t.descriptor (u16 t.idt (16 * vector + 2))) = .ok ()) :
    t.deliver c vector software = .ok (t.handlerState c vector) := by
  have hbits : ∀ attr : BitVec 8, attr &&& 0x9E = 0x8E → attr &&& 0x1E = 0x0E ∧ present attr = true := by decide +kernel
  obtain ⟨hgate, hpresent⟩ := hbits _ htype
  rw [deliver, if_neg, hpresent, if_neg Bool.true_eq_false_eq_False, hcode]
  · rfl
  · rintro (h | h | ⟨h, hlt⟩)
    · omega
    · exact h hgate
    · exact absurd (hlevel h) (by omega)

theorem returnTo_eq_ok {cs ss : BitVec 16} : t.returnTo cs ss = .ok () ↔
    checkCode (rpl cs) (t.descriptor cs) = .ok () ∧ checkStack (rpl cs) ss (t.descriptor ss) = .ok () := by
  rw [returnTo]
  cases checkCode (rpl cs) (t.descriptor cs) with
  | error fault => simp
  | ok _ => simp

theorem loadTask_eq_ok {sel : BitVec 16} {a : Nat} (hsel : sel.toNat / 8 * 8 = a) (h0 : a ≠ 0)
    (hlocal : sel.getLsbD 2 = false) (hlimit : a + 15 ≤ t.gdtLimit) (haccess : t.gdt (a + 5) = 0x89) :
    t.loadTask sel = .ok (u32 t.gdt (a + 8) ++ (t.gdt (a + 7) ++ (t.gdt (a + 4) ++ u16 t.gdt (a + 2))),
      u16 t.gdt a) := by
  subst hsel
  rw [loadTask, if_neg, haccess]
  · rfl
  · rw [hlocal]
    rintro (h | h | h)
    exacts [h0 h, Bool.false_ne_true h, absurd hlimit (by omega)]

theorem portAllowed_of_limit {level iopl : Nat} (hlevel : iopl < level) (hmap : t.tssLimit ≤ (u16 t.tss 102).toNat)
    (port : BitVec 16) :
    t.portAllowed level iopl port = false := by
  rw [portAllowed, decide_eq_false (by omega), decide_eq_false (by omega)]
  rfl

end SystemTables
end Protection
