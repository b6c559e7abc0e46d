import SamOS.Irq
import SamOS.Lib.I8259
import SamOS.Lib.Lts

/-! The legacy interrupt controllers at their ports (`pic.c`), the calls of `irq.c` that reach them, and the dispatch
    of interrupts (`interrupt_handler` in `idt.c`, `timer_tick` in `timer.c`). The state of `irq.c` is passed
    along. -/

namespace SamOS
namespace Pic
open Interact I8259

def ioWait : Prog ports Unit := outb 0x80 0

def picInit : Prog ports Unit := do
  let mask1 ← inb 0x21
  let mask2 ← inb 0xA1
  outb 0x20 0x11
  ioWait
  outb 0xA0 0x11
  ioWait
  outb 0x21 0x20
  ioWait
  outb 0xA1 0x28
  ioWait
  outb 0x21 0x04
  ioWait
  outb 0xA1 0x02
  ioWait
  outb 0x21 0x01
  ioWait
  outb 0xA1 0x01
  ioWait
  outb 0x21 mask1
  outb 0xA1 mask2
  outb 0x21 0xFF
  outb 0xA1 0xFF

def picSendEoi (irq : BitVec 8) : Prog ports Unit := do
  if 8 ≤ irq then outb 0xA0 0x20
  outb 0x20 0x20

/-- The data port of the chip that has the line, and the bit of the line. -/
def line (irq : BitVec 8) : BitVec 16 × BitVec 8 :=
  (if irq < 8 then 0x21 else 0xA1, 1#8 <<< (if 8 ≤ irq then irq - 8 else irq).toNat)

def picMask (irq : BitVec 8) : Prog ports Unit := do
  let masks ← inb (line irq).1
  outb (line irq).1 (masks ||| (line irq).2)

def picUnmask (irq : BitVec 8) : Prog ports Unit := do
  let masks ← inb (line irq).1
  outb (line irq).1 (masks &&& ~~~(line irq).2)

/-- `pic_is_spurious_irq7`: line 7 is not in service. -/
def picIsSpuriousIrq7 : Prog ports Bool := do
  outb 0x20 0x0B
  let isr ← inb 0x20
  pure (isr &&& 0x80 == 0)

/-! ### `irq.c` -/

def irqUnmask (s : Irq) (irq : BitVec 8) : Prog ports Irq :=
  if 16 ≤ irq then pure s
  else if s.backend = .apic then pure (s.apicSetIrqMask (s.gsi irq.toNat) false)
  else do
    picUnmask irq
    pure s

def irqMask (s : Irq) (irq : BitVec 8) : Prog ports Irq :=
  if 16 ≤ irq then pure s
  else if s.backend = .apic then pure (s.apicSetIrqMask (s.gsi irq.toNat) true)
  else do
    picMask irq
    pure s

/-- `irq_send_eoi`. The command to the local APIC is not sent through a port. -/
def irqSendEoi (s : Irq) (irq : BitVec 8) : Prog ports Irq := do
  if s.backend = .pic then picSendEoi irq
  pure (s.irqSendEoi irq.toNat)

def irqIsSpurious (s : Irq) (irq : BitVec 8) : Prog ports (Bool × Irq) :=
  if s.backend = .pic ∧ irq = 7 then do
    let spurious ← picIsSpuriousIrq7
    let count := if spurious then s.stats.spuriousIrqCount + 1 else s.stats.spuriousIrqCount
    pure (spurious, { s with stats := { s.stats with spuriousIrqCount := count } })
  else pure (false, s)

def irqNoteKeyboardIrq (s : Irq) : Irq :=
  { s with stats := { s.stats with keyboardIrqCount := s.stats.keyboardIrqCount + 1 } }

/-! ### The handlers -/

/-- What becomes of an interrupt: a failed assertion or an exception halts the machine, a system call goes to
    `syscall_dispatch`, a byte from the keyboard is decoded, and the other interrupts are only acknowledged. -/
inductive Dispatch where
  | failed
  | exception
  | syscall
  | spurious
  | keyboard (scancode : BitVec 8)
  | served
  deriving DecidableEq, Repr

def interruptHandler (s : Irq) (vector : BitVec 64) : Prog ports (Dispatch × Irq) :=
  if 256 ≤ vector then pure (.failed, s)
  else if vector < 32 then pure (.exception, s)
  else if vector = 128 then pure (.syscall, s)
  else do
    let irq : BitVec 8 := (vector - 32).setWidth 8
    let (spurious, s) ← irqIsSpurious s irq
    if spurious then pure (.spurious, s)
    else if irq = 1 then do
      let scancode ← inb 0x60
      let s ← irqSendEoi (irqNoteKeyboardIrq s) irq
      pure (.keyboard scancode, s)
    else if irq ≠ 0 then do
      let s ← irqSendEoi s irq
      pure (.served, s)
    else pure (.served, s)

/-- `timer_tick`, before the ticks and the scheduler. -/
def timerTick (s : Irq) : Prog ports Irq := do
  let s ← irqSendEoi s 0
  pure s.irqNoteTimerIrq

/-- The stub of vector 32 calls `timer_tick`, all others `interrupt_handler`. -/
def entry (s : Irq) (vector : BitVec 8) : Prog ports (Dispatch × Irq) :=
  if vector = 32 then do
    let s ← timerTick s
    pure (.served, s)
  else interruptHandler s (vector.setWidth 64)

end Pic
end SamOS
