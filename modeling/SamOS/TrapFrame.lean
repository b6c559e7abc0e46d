import SamOS.Context
import SamOS.Lib.X64

/-! The layout of trap frames. The code lays it out in six places: the structure `InterruptFrame`, the pushes of
    `isr32` and of `isr_common` after those of the processor, the pops of both and of `schedule`, and
    `setup_initial_frame`. Here the instructions are run on the stack machine, for any address of the stack, and agree
    with the frames of the layer above. -/

namespace SamOS
namespace Trap
open X64

inductive Gpr where
  | rax | rbx | rcx | rdx | rsi | rdi | rbp | r8 | r9 | r10 | r11 | r12 | r13 | r14 | r15
  deriving DecidableEq, Repr

/-- The registers under the names that `InterruptFrame` has for them. -/
def regs (c : Cpu Gpr) : Regs where
  r15 := c.gpr .r15
  r14 := c.gpr .r14
  r13 := c.gpr .r13
  r12 := c.gpr .r12
  r11 := c.gpr .r11
  r10 := c.gpr .r10
  r9 := c.gpr .r9
  r8 := c.gpr .r8
  rbp := c.gpr .rbp
  rdi := c.gpr .rdi
  rsi := c.gpr .rsi
  rdx := c.gpr .rdx
  rcx := c.gpr .rcx
  rbx := c.gpr .rbx
  rax := c.gpr .rax
  rip := c.ip
  cs := c.cs
  rflags := c.flags
  rsp := c.sp
  ss := c.ss

/-- The field of a general register. -/
def gpr (r : Regs) : Gpr → Word
  | .rax => r.rax
  | .rbx => r.rbx
  | .rcx => r.rcx
  | .rdx => r.rdx
  | .rsi => r.rsi
  | .rdi => r.rdi
  | .rbp => r.rbp
  | .r8 => r.r8
  | .r9 => r.r9
  | .r10 => r.r10
  | .r11 => r.r11
  | .r12 => r.r12
  | .r13 => r.r13
  | .r14 => r.r14
  | .r15 => r.r15

theorem gpr_regs (c : Cpu Gpr) : gpr (regs c) = c.gpr := by
  funext r
  cases r <;> rfl

/-- `(InterruptFrame*)a`. -/
def frameAt (m : Nat → Word) (a : Word) : InterruptFrame := .load (fun k => m (a + BitVec.ofNat 64 k).toNat) 0

/-! ### `isr.S` -/

/-- The code of a stub before and after the call of its handler. -/
structure Stub where
  save : List (Instr Gpr)
  restore : List (Instr Gpr)

def isr32 : Stub where
  save :=
    [.push (.imm 0), .push (.imm 32), .push (.reg .rax), .push (.reg .rbx), .push (.reg .rcx), .push (.reg .rdx),
      .push (.reg .rsi), .push (.reg .rdi), .push (.reg .rbp), .push (.reg .r8), .push (.reg .r9), .push (.reg .r10),
        .push (.reg .r11), .push (.reg .r12),
      .push (.reg .r13), .push (.reg .r14), .push (.reg .r15)]
  restore :=
    [.pop .r15, .pop .r14, .pop .r13, .pop .r12, .pop .r11, .pop .r10, .pop .r9, .pop .r8, .pop .rbp, .pop .rdi,
      .pop .rsi, .pop .rdx, .pop .rcx, .pop .rbx, .pop .rax, .addSp 16, .iretq]

def isrCommon : Stub where
  save :=
    [.push (.reg .rax), .push (.reg .rbx), .push (.reg .rcx), .push (.reg .rdx), .push (.reg .rsi), .push (.reg .rdi),
      .push (.reg .rbp), .push (.reg .r8), .push (.reg .r9), .push (.reg .r10), .push (.reg .r11), .push (.reg .r12),
        .push (.reg .r13), .push (.reg .r14),
      .push (.reg .r15)]
  restore :=
    [.pop .r15, .pop .r14, .pop .r13, .pop .r12, .pop .r11, .pop .r10, .pop .r9, .pop .r8, .pop .rbp, .pop .rdi,
      .pop .rsi, .pop .rdx, .pop .rcx, .pop .rbx, .pop .rax, .addSp 16, .iretq]

/-- `pushq $0; pushq $vector; jmp isr_common`. -/
def isrPlain (vector : Nat) : Stub :=
  { isrCommon with save := .push (.imm 0) :: .push (.imm (BitVec.ofNat 64 vector)) :: isrCommon.save }

/-- `pushq $vector; jmp isr_common`. -/
def isrWithCode (vector : Nat) : Stub :=
  { isrCommon with save := .push (.imm (BitVec.ofNat 64 vector)) :: isrCommon.save }

/-- The stub that `idt_init` sets for a vector. -/
def isr (vector : Nat) : Option Stub :=
  if vector = 32 then some isr32
  else if vector ∈ [8, 10, 11, 12, 13, 14, 17] then some (isrWithCode vector)
  else if vector ≤ 20 ∨ 33 ≤ vector ∧ vector ≤ 47 ∨ vector = 128 then some (isrPlain vector)
  else none

/-- The inline assembly of `schedule` after `movq %0, %%rsp`. -/
def scheduleRestore : List (Instr Gpr) :=
  [.pop .r15, .pop .r14, .pop .r13, .pop .r12, .pop .r11, .pop .r10, .pop .r9, .pop .r8, .pop .rbp, .pop .rdi,
    .pop .rsi, .pop .rdx, .pop .rcx, .pop .rbx, .pop .rax, .addSp 16, .iretq]

/-- `movq %rsp, %rdi`, before the call. -/
def passFrame (c : Cpu Gpr) : Cpu Gpr := { c with gpr := Function.update c.gpr .rdi c.sp }

/-- `testq %rax, %rax`, a jump over the next instruction if it is zero, and `movq %rax, %rsp`. -/
def switchStack (alu : Alu) (c : Cpu Gpr) : Cpu Gpr :=
  { c with
    flags := alu.test c.flags (c.gpr .rax) (c.gpr .rax)
    sp := if c.gpr .rax = 0 then c.sp else c.gpr .rax }

/-- The state at the call of the handler. -/
def Stub.enter (s : Stub) (alu : Alu) (c : Cpu Gpr) : Cpu Gpr := passFrame (run alu s.save c)

/-- The state that the handler leaves is turned into the one that the stub returns to. -/
def Stub.leave (s : Stub) (alu : Alu) (c : Cpu Gpr) : Cpu Gpr := run alu s.restore (switchStack alu c)

/-- `movq %0, %%rsp` and what follows. -/
def scheduleTo (alu : Alu) (nextRsp : Word) (c : Cpu Gpr) : Cpu Gpr := run alu scheduleRestore { c with sp := nextRsp }

/-! ### `task.c` -/

/-- `((uint64_t)(stack + TASK_STACK_SIZE)) & ~0xFULL`. -/
def kernelStackTop (stack : Word) : Word := (stack + 16384) &&& ~~~0xF#64

/-- The fields that `setup_initial_frame` writes. -/
def initialFrame (rip rsp cs ss : Word) : InterruptFrame where
  r15 := 0
  r14 := 0
  r13 := 0
  r12 := 0
  r11 := 0
  r10 := 0
  r9 := 0
  r8 := 0
  rbp := 0
  rdi := 0
  rsi := 0
  rdx := 0
  rcx := 0
  rbx := 0
  rax := 0
  vector := 0
  errorCode := 0
  rip
  cs
  rflags := 0x202
  rsp
  ss

/-- `setup_initial_frame`: memory, and the address of the frame. -/
def setupInitialFrame (top rip rsp cs ss : Word) (m : Nat → Word) : (Nat → Word) × Word :=
  (storeWords (top - 176) (initialFrame rip rsp cs ss).words m, top - 176)

/-! ### Frames in memory -/

variable {m : Nat → Word} {a : Word} {f : InterruptFrame} {c : Cpu Gpr} {alu : Alu} {vector : Nat} {s : Stub}

theorem holds_frameAt (m : Nat → Word) (a : Word) : Holds m a (frameAt m a).words := by
  refine holds_iff.mpr fun k hk => ?_
  replace hk : k < 22 := hk
  interval_cases k <;> rfl

theorem frameAt_eq (h : Holds m a f.words) : frameAt m a = f := by
  refine InterruptFrame.load_eq fun k hk => ?_
  rw [Nat.zero_add]
  exact holds_iff.mp h k hk

/-- The order of the pops, in all three places. -/
def popped : List Gpr := [.r15, .r14, .r13, .r12, .r11, .r10, .r9, .r8, .rbp, .rdi, .rsi, .rdx, .rcx, .rbx, .rax]

theorem run_restore (alu : Alu) (c : Cpu Gpr) :
    regs (run alu (popped.map .pop ++ [.addSp 16, .iretq]) c) = (frameAt c.mem c.sp).toRegs ∧
      (run alu (popped.map .pop ++ [.addSp 16, .iretq]) c).mem = c.mem := by
  have h := holds_frameAt c.mem c.sp
  generalize frameAt c.mem c.sp = f at h
  replace h : Holds c.mem c.sp ([f.r15, f.r14, f.r13, f.r12, f.r11, f.r10, f.r9, f.r8, f.rbp, f.rdi, f.rsi, f.rdx,
    f.rcx, f.rbx, f.rax] ++
    [f.vector, f.errorCode, f.rip, f.cs, f.rflags, f.rsp, f.ss]) := h
  have hrun : run alu (popped.map .pop ++ [.addSp 16, .iretq]) c = _ := run_return h rfl
  rw [hrun]
  exact ⟨rfl, rfl⟩

/-! ### Entry -/

/-- The registers in the frame that an interrupt leaves. -/
def savedFrame (c : Cpu Gpr) (vector : Nat) (error : Word) : InterruptFrame :=
  { regs c with vector := BitVec.ofNat 64 vector, errorCode := if hasErrorCode vector then error else 0 }

/-- What the stubs push after the processor, without the error code and the vector. -/
def pushed : List (Operand Gpr) :=
  [.reg .rax, .reg .rbx, .reg .rcx, .reg .rdx, .reg .rsi, .reg .rdi, .reg .rbp, .reg .r8, .reg .r9, .reg .r10,
    .reg .r11, .reg .r12, .reg .r13, .reg .r14, .reg .r15]

/-- The three kinds of stubs. The processor has pushed an error code exactly for those that push none. -/
theorem isr_cases (h : isr vector = some s) :
    (vector = 32 ∧ s = isr32) ∨ (hasErrorCode vector = true ∧ s = isrWithCode vector) ∨
    (hasErrorCode vector = false ∧ s = isrPlain vector) := by
  unfold isr at h
  split at h
  · rename_i hv
    exact Or.inl ⟨hv, (Option.some.inj h).symm⟩
  split at h
  · rename_i hv
    refine Or.inr (Or.inl ⟨?_, (Option.some.inj h).symm⟩)
    simp only [hasErrorCode, List.mem_cons, List.not_mem_nil, or_false, decide_eq_true_eq] at hv ⊢
    omega
  split at h
  · rename_i hne hv
    refine Or.inr (Or.inr ⟨?_, (Option.some.inj h).symm⟩)
    simp only [hasErrorCode, List.mem_cons, List.not_mem_nil, or_false, decide_eq_false_iff_not] at hne ⊢
    omega
  · cases h

/-- The pushes of a stub and those of the processor make up a frame, whether there is an error code or not. -/
theorem isr_save (h : isr vector = some s) : ∃ os : List (Operand Gpr), s.save = os.map .push ∧
    ∀ c error, delivered c vector error ++ os.map (Operand.value c.gpr) =
      (savedFrame c vector error).words.reverse := by
  rcases isr_cases h with ⟨rfl, rfl⟩ | ⟨hcode, rfl⟩ | ⟨hcode, rfl⟩
  · exact ⟨.imm 0 :: .imm 32 :: pushed, rfl, fun c error => rfl⟩
  · refine ⟨.imm (BitVec.ofNat 64 vector) :: pushed, rfl, fun c error => ?_⟩
    rw [delivered, savedFrame, hcode]
    rfl
  · refine ⟨.imm 0 :: .imm (BitVec.ofNat 64 vector) :: pushed, rfl, fun c error => ?_⟩
    rw [delivered, savedFrame, hcode]
    rfl

theorem isr_restore (h : isr vector = some s) : s.restore = popped.map .pop ++ [.addSp 16, .iretq] := by
  rcases isr_cases h with ⟨-, rfl⟩ | ⟨-, rfl⟩ | ⟨-, rfl⟩ <;> rfl

/-- At the call of the handler the words of the frame have been pushed, from the last one on. -/
theorem enter_eq (h : isr vector = some s) (alu : Alu) (g : Gate) (error : Word) (c : Cpu Gpr) :
    ((s.enter alu (deliver g vector error c)).mem, (s.enter alu (deliver g vector error c)).sp) =
      pushWords (savedFrame c vector error).words.reverse (c.mem, g.sp &&& ~~~0xF#64) := by
  obtain ⟨os, hos, hwords⟩ := isr_save h
  rw [← hwords, pushWords_append, Stub.enter, hos, run_push]
  rfl

theorem enter_holds (h : isr vector = some s) (alu : Alu) (g : Gate) (error : Word) (c : Cpu Gpr) :
    Holds (s.enter alu (deliver g vector error c)).mem (s.enter alu (deliver g vector error c)).sp
      (savedFrame c vector error).words := by
  have heq := enter_eq h alu g error c
  have hnil : Holds c.mem (g.sp &&& ~~~0xF#64) [] := trivial
  have hpush : Holds _ _ ((savedFrame c vector error).words.reverse.reverse ++ []) :=
    holds_pushWords (s := (c.mem, g.sp &&& ~~~0xF#64)) hnil (show 8 * (22 + 0) < 2 ^ 64 by decide)
  rwa [← heq, List.reverse_reverse, List.append_nil] at hpush

theorem passFrame_rdi (c : Cpu Gpr) : (passFrame c).gpr .rdi = (passFrame c).sp := by
  simp only [passFrame, Function.update_self]

/-! ### Return -/

/-- The return through the frame at an address: by a stub, to the frame that its handler names or else to its own one,
    or by `schedule`. -/
inductive Resumes (alu : Alu) : Word → Cpu Gpr → Cpu Gpr → Prop
  | isr {vector : Nat} {s : Stub} (h : isr vector = some s) (c : Cpu Gpr) :
    Resumes alu (if c.gpr .rax = 0 then c.sp else c.gpr .rax) c (s.leave alu c)
  | schedule (nextRsp : Word) (c : Cpu Gpr) : Resumes alu nextRsp c (scheduleTo alu nextRsp c)

theorem Resumes.regs_eq {c' : Cpu Gpr} (h : Resumes alu a c c') :
    regs c' = (frameAt c.mem a).toRegs ∧ c'.mem = c.mem := by
  cases h with
  | isr h c =>
    rw [Stub.leave, isr_restore h]
    exact run_restore alu _
  | schedule nextRsp c => exact run_restore alu _

/-! ### Initial frames -/

theorem setupInitialFrame_holds (top rip rsp cs ss : Word) (m : Nat → Word) :
    Holds (setupInitialFrame top rip rsp cs ss m).1 (setupInitialFrame top rip rsp cs ss m).2
      (initialFrame rip rsp cs ss).words :=
  holds_storeWords (show 8 * 22 ≤ 2 ^ 64 by decide)

/-- The frame is inside the stack, also for a stack at the end of the address space. -/
theorem initialFrame_inside (stack : Word) {k : Nat} (hk : k < 176) :
    ∃ j < 16384, kernelStackTop stack - 176 + BitVec.ofNat 64 k = stack + BitVec.ofNat 64 j := by
  refine ⟨16384 - stack.toNat % 16 - 176 + k, by omega, ?_⟩
  have halign : (kernelStackTop stack).toNat = (stack.toNat + 16384) % 2 ^ 64 / 16 * 16 := toNat_align _
  have hlt := stack.isLt
  apply BitVec.eq_of_toNat_eq
  rw [BitVec.toNat_add, BitVec.toNat_sub, halign, BitVec.toNat_ofNat, BitVec.toNat_add, BitVec.toNat_ofNat]
  show ((2 ^ 64 - 176 + _) % 2 ^ 64 + _) % 2 ^ 64 = _
  omega

/-! ### The layer above -/

theorem toNat_field {k : Nat} (ha : a.toNat + InterruptFrame.size ≤ 2 ^ 64) (hk : k < 22) :
    (a + BitVec.ofNat 64 (8 * k)).toNat = a.toNat + 8 * k := by
  unfold InterruptFrame.size at ha
  rw [BitVec.toNat_add, BitVec.toNat_ofNat]
  omega

/-- A frame that does not wrap around is one of the layer above. -/
theorem frameAt_eq_load (m : Nat → Word) {a : Word} (ha : a.toNat + InterruptFrame.size ≤ 2 ^ 64) :
    frameAt m a = .load m a.toNat := by
  refine InterruptFrame.load_eq fun k hk => ?_
  rw [Nat.zero_add, toNat_field ha hk]
  interval_cases k <;> rfl

theorem pushWords_eq_pushAll {ws : List Word} {sp : Word} (h : 8 * ws.length ≤ sp.toNat) (m : Nat → Word) :
    ((pushWords ws (m, sp)).1, (pushWords ws (m, sp)).2.toNat) = pushAll ws (m, sp.toNat) := by
  induction ws generalizing m sp with
  | nil => rfl
  | cons w ws ih =>
    rw [List.length_cons] at h
    have hle : (8 : Word) ≤ sp := BitVec.le_def.mpr (show 8 ≤ sp.toNat by omega)
    have hsub : (sp - 8).toNat = sp.toNat - 8 := BitVec.toNat_sub_of_le hle
    rw [pushWords, ih (show 8 * ws.length ≤ (sp - 8).toNat by omega), pushAll, hsub]

/-- The entry of an interrupt without an error code is that of the layer above. -/
theorem enter_refines (h : isr vector = some s) (hcode : hasErrorCode vector = false) (alu : Alu) (g : Gate)
    (error : Word) (c : Cpu Gpr) (hroom : InterruptFrame.size ≤ g.sp.toNat / 16 * 16) :
    ((s.enter alu (deliver g vector error c)).mem, (s.enter alu (deliver g vector error c)).sp.toNat) =
      interruptEntry c.mem (g.sp.toNat / 16 * 16) (BitVec.ofNat 64 vector) (regs c) := by
  have heq := enter_eq h alu g error c
  have hwords : (savedFrame c vector error).words.reverse = cpuPushes (regs c) ++ stubPushes (BitVec.ofNat 64 vector)
      (regs c) := by
    unfold savedFrame
    rw [hcode]
    rfl
  rw [interruptEntry, ← toNat_align, ← hwords, ← pushWords_eq_pushAll (by rw [toNat_align]; exact hroom), ← heq]

/-- The return through a frame that does not wrap around is that of the layer above. -/
theorem Resumes.refines {c' : Cpu Gpr} (h : Resumes alu a c c') (ha : a.toNat + InterruptFrame.size ≤ 2 ^ 64) :
    regs c' = interruptReturn c.mem a.toNat := by
  rw [interruptReturn, ← frameAt_eq_load c.mem ha]
  exact h.regs_eq.1

theorem toNat_kernelStackTop (stack : Word) : (kernelStackTop stack).toNat = Sched.stackTop stack.toNat := toNat_align _

theorem toNat_setupInitialFrame (stack rip rsp cs ss : Word) (m : Nat → Word) :
    (setupInitialFrame (kernelStackTop stack) rip rsp cs ss m).2.toNat = Sched.initialRsp stack.toNat := by
  show (kernelStackTop stack - 176).toNat = _
  rw [BitVec.toNat_sub, toNat_kernelStackTop, Sched.initialRsp]
  show (2 ^ 64 - 176 + _) % 2 ^ 64 = _
  omega

/-- Words that are stored without wrapping around are the frame of the layer above. -/
theorem storeWords_eq_store (f : InterruptFrame) (m : Nat → Word) {a : Word}
    (ha : a.toNat + InterruptFrame.size ≤ 2 ^ 64) :
    storeWords a f.words m = InterruptFrame.store m a.toNat f := by
  have hholds : Holds (storeWords a f.words m) a f.words := holds_storeWords (show 8 * 22 ≤ 2 ^ 64 by decide)
  funext x
  by_cases hx : ∃ k < 22, x = a.toNat + 8 * k
  · obtain ⟨k, hk, rfl⟩ := hx
    rw [InterruptFrame.store_field hk, ← toNat_field ha hk]
    exact holds_iff.mp hholds k hk
  · have hout : InterruptFrame.store m a.toNat f x = m x := by
      refine if_neg fun hin => hx ⟨(x - a.toNat) / 8, ?_, ?_⟩ <;> unfold InterruptFrame.size at hin <;> omega
    rw [hout]
    exact storeWords_of_ne fun k hk he => hx ⟨k, hk, he.trans (toNat_field ha hk)⟩

/-- The stack of a new task, as the layer above has it. -/
theorem newStack_eq (n : NewTask) (m : Nat → Word) {stack : Word} (h : stack.toNat + 16384 < 2 ^ 64) :
    Context.newStack m stack.toNat (n.frame stack.toNat) =
      (setupInitialFrame (kernelStackTop stack) n.entry (if n.isUser then n.userRsp else kernelStackTop stack)
        (if n.isUser then 0x1B else 0x08)
        (if n.isUser then 0x23 else 0x10) fun a => if stack.toNat ≤ a ∧ a < stack.toNat + 16384 then 0 else m a).1 := by
  have htop : BitVec.ofNat 64 (Sched.stackTop stack.toNat) = kernelStackTop stack := by
    rw [← toNat_kernelStackTop, BitVec.ofNat_toNat, BitVec.setWidth_eq]
  have hframe : n.frame stack.toNat = initialFrame n.entry (if n.isUser then n.userRsp else kernelStackTop stack)
      (if n.isUser then 0x1B else 0x08) (if n.isUser then 0x23 else 0x10) := by
    rw [← htop]
    rfl
  have hrsp : (kernelStackTop stack - 176).toNat = Sched.initialRsp stack.toNat :=
    toNat_setupInitialFrame stack 0 0 0 0 m
  have hroom : Sched.initialRsp stack.toNat + InterruptFrame.size ≤ 2 ^ 64 := by
    unfold Sched.initialRsp Sched.stackTop InterruptFrame.size
    omega
  rw [Context.newStack, hframe, setupInitialFrame, storeWords_eq_store _ _ (hrsp ▸ hroom), hrsp]

/-! ### Agreement -/

/-- The frame that a stub finds on the stack has the registers, the vector and the error code in the fields of their
    names, and its address is passed on. When the handler returns 0, the registers are loaded from this frame again,
    in which the words that the handler left alone are still those. All returns load the registers from the frame that
    they are given. A frame from `setup_initial_frame` is inside the stack of the task and starts it as requested. -/
theorem trap_frames_agree (alu : Alu) :
    (∀ vector s g error c, isr vector = some s →
      let entered := s.enter alu (deliver g vector error c)
      frameAt entered.mem entered.sp = savedFrame c vector error ∧ entered.gpr .rdi = entered.sp ∧
      ∀ left : Cpu Gpr, left.sp = entered.sp → left.gpr .rax = 0 →
        regs (s.leave alu left) = (frameAt left.mem entered.sp).toRegs ∧
        ∀ k < 22, left.mem (entered.sp + BitVec.ofNat 64 (8 * k)).toNat = entered.mem
          (entered.sp + BitVec.ofNat 64 (8 * k)).toNat →
          (frameAt left.mem entered.sp).words.getD k 0 = (savedFrame c vector error).words.getD k 0) ∧
    (∀ a c c', Resumes alu a c c' → regs c' = (frameAt c.mem a).toRegs ∧ c'.mem = c.mem) ∧
    ∀ stack rip rsp cs ss m,
      let frame := setupInitialFrame (kernelStackTop stack) rip rsp cs ss m
      (∀ k < 176, ∃ j < 16384, frame.2 + BitVec.ofNat 64 k = stack + BitVec.ofNat 64 j) ∧
      ∀ c c', Resumes alu frame.2 c c' → c.mem = frame.1 →
        c'.ip = rip ∧ c'.sp = rsp ∧ c'.cs = cs ∧ c'.ss = ss ∧ c'.flags = 0x202 ∧ ∀ r, c'.gpr r = 0 := by
  refine ⟨fun vector s g error c h => ?_, fun a c c' h => h.regs_eq, fun stack rip rsp cs ss m => ?_⟩
  · have hholds := enter_holds h alu g error c
    refine ⟨frameAt_eq hholds, passFrame_rdi _, fun left hsp hrax => ⟨?_, fun k hk hkept => ?_⟩⟩
    · have hres : Resumes alu _ left (s.leave alu left) := .isr h left
      rw [if_pos hrax, hsp] at hres
      exact hres.regs_eq.1
    · rw [← holds_iff.mp (holds_frameAt left.mem _) k hk, hkept, holds_iff.mp hholds k hk]
  · refine ⟨fun k hk => initialFrame_inside stack hk, fun c c' hres hm => ?_⟩
    have hregs := hres.regs_eq.1
    rw [hm, frameAt_eq (setupInitialFrame_holds ..)] at hregs
    refine ⟨congrArg Regs.rip hregs, congrArg Regs.rsp hregs, congrArg Regs.cs hregs, congrArg Regs.ss hregs,
      congrArg Regs.rflags hregs, fun r => ?_⟩
    rw [← gpr_regs, hregs]
    cases r <;> rfl

end Trap
end SamOS
