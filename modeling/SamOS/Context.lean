import SamOS.Interrupt
import SamOS.Scheduler
import SamOS.HeapRuns

/-! Saved contexts: the stacks that interrupts push their frames on, the frames that suspended tasks leave there, and
    every step that reads or writes them. `tss_init` points `TSS.rsp0` at the top of `kernel_irq_stack` and nothing
    ever calls `tss_set_rsp0`, so all interrupts from ring 3 use that one stack; interrupts from ring 0 push on the
    stack of the interrupted code. -/

namespace SamOS
open Heap

/-- The static stacks of the kernel: `kernel_irq_stack`, and the stack that `kernel_main` runs on. -/
structure KernelStacks where
  irqTop : Nat
  bootBase : Nat
  bootTop : Nat
  aligned : irqTop % 16 = 0
  room : 8192 ≤ irqTop
  apart : bootTop ≤ irqTop - 8192 ∨ irqTop ≤ bootBase

/-- The page runs of the heap lie apart from the static stacks and below the end of the address space. -/
def KernelStacks.Clear (ks : KernelStacks) (runs : List PageRun) : Prop :=
  ∀ r ∈ runs, r.stop < 2 ^ 64 ∧ (r.stop ≤ ks.irqTop - 8192 ∨ ks.irqTop ≤ r.base) ∧
    (r.stop ≤ ks.bootBase ∨ ks.bootTop ≤ r.base)

/-- The arguments of `task_create_kernel` and `task_create_user`. -/
structure NewTask where
  pid : Int
  isUser : Bool
  addressSpace : AsPtr
  pml4 : Nat
  entry : Word
  userRsp : Word

def NewTask.frame (n : NewTask) (stack : Nat) : InterruptFrame where
  r15 := 0
  r14 := 0
  r13 := 0
  r12 := 0
  r11 := 0
  r10 := 0
  r9 := 0
  r8 := 0
  rbp := 0
  rdi := 0
  rsi := 0
  rdx := 0
  rcx := 0
  rbx := 0
  rax := 0
  vector := 0
  errorCode := 0
  rip := n.entry
  cs := if n.isUser then 0x1B else 0x08
  rflags := 0x202
  rsp := if n.isUser then n.userRsp else BitVec.ofNat 64 (Sched.stackTop stack)
  ss := if n.isUser then 0x23 else 0x10

/-- The machine as far as saved contexts go: the scheduler, the heap that task stacks come from, the stack memory, the
    registers of the running code, and for each task the frame of its last suspension, or its initial frame. -/
structure Context where
  sched : Sched
  heap : HeapRun
  mem : Nat → Word
  cpu : Regs
  saved : Nat → InterruptFrame

namespace Context

/-- The lowest address of the stack that the current ring-0 code runs on. -/
def stackBase (ks : KernelStacks) (c : Context) : Nat :=
  if c.sched.currentTid < 0 then ks.bootBase else (c.sched.tasks c.sched.current).kernelStack

/-- The address after that stack. -/
def stackTop (ks : KernelStacks) (c : Context) : Nat :=
  if c.sched.currentTid < 0 then ks.bootTop else (c.sched.tasks c.sched.current).kernelStackTop

/-- Where the processor starts to push: `TSS.rsp0` from ring 3, else `rsp` aligned down to 16 bytes. -/
def frameTop (ks : KernelStacks) (c : Context) : Nat :=
  if c.cpu.ring3 then ks.irqTop else c.cpu.rsp.toNat / 16 * 16

/-- The lowest address of the stack that a handler runs on. -/
def handlerBase (ks : KernelStacks) (c : Context) : Nat :=
  if c.cpu.ring3 then ks.irqTop - 8192 else c.stackBase ks

/-- An interrupt with its frame at `base`: the frame is pushed, and the handler uses the stack below it. -/
structure Interrupted (ks : KernelStacks) (c : Context) (vector : Word) (base : Nat) (c' : Context) : Prop where
  base_eq : base = (interruptEntry c.mem (c.frameTop ks) vector c.cpu).2
  scratch : ∀ a, ¬(c.handlerBase ks ≤ a ∧ a < base) → c'.mem a = (interruptEntry c.mem (c.frameTop ks) vector c.cpu).1 a
  sched : c'.sched = c.sched
  heap : c'.heap = c.heap
  saved : c'.saved = c.saved

/-- The return from an interrupt whose frame is at `base`: `next` is what the handler returned. -/
def resume (c : Context) (s : Sched) (base next : Nat) : Context where
  sched := s
  heap := c.heap
  mem := c.mem
  cpu := interruptReturn c.mem (if next = 0 then base else next)
  saved := if 0 ≤ c.sched.currentTid then Function.update c.saved c.sched.current (.load c.mem base) else c.saved

/-- The stack memory after a new stack is cleared and its initial frame written. -/
def newStack (m : Nat → Word) (stack : Nat) (f : InterruptFrame) : Nat → Word :=
  InterruptFrame.store (fun a => if stack ≤ a ∧ a < stack + 16384 then 0 else m a) (Sched.initialRsp stack) f

/-- A task creation, where `page` is what `pmm_alloc_pages` returns should the heap grow. -/
def Creates (ks : KernelStacks) (c : Context) (n : NewTask) (page : Nat) (c' : Context) : Prop :=
  match c.sched.findFreeSlot with
  | none => c' = c
  | some (slot, freed, _) =>
    ∃ h₁ h₂ ptr, (if freed = 0 then h₁ = c.heap else c.heap.step (.free freed) h₁) ∧
      h₁.step (.malloc 16384 page) h₂ ∧ h₁.heap.kmalloc 16384 page = .ok (ptr, h₂.heap) ∧ ks.Clear h₂.runs ∧
      c' =
        { c with
          sched := (c.sched.taskCreate ptr n.pid n.pml4 n.isUser n.addressSpace).2.2
          heap := h₂
          mem := if ptr = 0 then c.mem else newStack c.mem ptr (n.frame ptr)
          saved := if ptr = 0 then c.saved else Function.update c.saved slot (n.frame ptr) }

end Context

/-- The system calls: `sys_exit`, a `sys_spawn` that reaches `task_create_user`, and the others, which only return. -/
inductive SysCall where
  | exit (code : Int)
  | spawn (n : NewTask) (page : Nat) (ret : Word)
  | other (ret : Word)

/-- What happens between two states. `tick` is the timer and `int $0x20`; `keyboard` is the only other IRQ, and wakes
    the shell; `sleep`, `exit` and `kill` are the calls up to their `int $0x20`. -/
inductive ContextEvent where
  | run
  | create (n : NewTask) (page : Nat)
  | schedule
  | tick
  | keyboard (tid : Int)
  | syscall (call : SysCall)
  | sleep
  | exit (code : Int)
  | kill (pid code : Int)

namespace Context

/-- The code of the current task, or of `kernel_main`, runs on: user code reaches no kernel stack, kernel code only
    its own, on which it leaves room for an interrupt frame. -/
structure Runs (ks : KernelStacks) (c c' : Context) : Prop where
  sched : c'.sched = c.sched
  heap : c'.heap = c.heap
  saved : c'.saved = c.saved
  ring : c'.cpu.cs = c.cpu.cs
  mem : ∀ a, c.cpu.ring3 = true ∨ a < c.stackBase ks ∨ c.stackTop ks ≤ a → c'.mem a = c.mem a
  room : c.cpu.ring3 = false →
    c.stackBase ks + 176 ≤ c'.cpu.rsp.toNat / 16 * 16 ∧ c'.cpu.rsp.toNat ≤ c.stackTop ks

/-- Calls are made by code of the current task that is not ending, or by `kernel_main`. -/
def CanCreate (c : Context) : Prop := c.sched.currentTid < 0 ∨ (c.sched.tasks c.sched.current).state = .running

/-- The work of a system call on the state after the entry, and its result. -/
def Serves (ks : KernelStacks) (c : Context) : SysCall → Context → Word → Prop
  | .exit code, c', ret => c' = { c with sched := c.sched.sysExit code } ∧ ret = Sched.retErr 11
  | .spawn n page ret', c', ret => c.CanCreate ∧ c.Creates ks n page c' ∧ ret = ret'
  | .other ret', c', ret => c' = c ∧ ret = ret'

def step (ks : KernelStacks) (kernelPml4 : Nat) (c : Context) : ContextEvent → Context → Prop
  | .run, c' => Runs ks c c'
  | .create n page, c' => c.CanCreate ∧ c.Creates ks n page c'
  | .schedule, c' =>
    c.sched.currentTid < 0 ∧ ∃ next s, c.sched.schedule kernelPml4 = .ok (next, s) ∧
      c' = { c with sched := s, cpu := if next = 0 then c.cpu else interruptReturn c.mem next }
  | .tick, c' =>
    ∃ base c₁ next s, Interrupted ks c 32 base c₁ ∧ c₁.sched.scheduleOnTick kernelPml4 base = .ok (next, s) ∧
      c' = c₁.resume s base next
  | .keyboard tid, c' => ∃ base c₁, Interrupted ks c 33 base c₁ ∧ c' = c₁.resume (c₁.sched.taskWake tid) base 0
  | .syscall call, c' =>
    ∃ base c₁ c₂ c₃ ret next s, Interrupted ks c 128 base c₁ ∧ Serves ks c₁ call c₂ ret ∧
      c₃ = { c₂ with mem := InterruptFrame.storeRax c₂.mem base ret } ∧
      c₃.sched.syscallReturn kernelPml4 base ret = .ok (next, s) ∧ c' = c₃.resume s base next
  | .sleep, c' => ∃ s, c.sched.taskSleep = .ok s ∧ c' = { c with sched := s }
  | .exit code, c' => ∃ s, c.sched.taskExit code = .ok s ∧ c' = { c with sched := s }
  | .kill pid code, c' => c' = { c with sched := (c.sched.taskKillPid pid code).2 }

end Context

/-- All runs from `task_init` on, after `kmalloc_init`. `kernel_main` runs in ring 0 on its own stack. -/
def contexts (ks : KernelStacks) (kernelPml4 : Nat) : Lts.System Context ContextEvent where
  init c := (∃ cr3, c.sched = Sched.taskInit cr3) ∧ heapRuns.init c.heap ∧ ks.Clear c.heap.runs ∧
    c.cpu.ring3 = false ∧ ks.bootBase + 176 ≤ c.cpu.rsp.toNat / 16 * 16 ∧ c.cpu.rsp.toNat ≤ ks.bootTop
  step := Context.step ks kernelPml4

namespace Context

/-- The event is an interrupt. -/
def Interrupts : ContextEvent → Prop
  | .tick | .keyboard _ | .syscall _ => True
  | _ => False

/-- The event creates a task, which may free the stack of an ended one. -/
def MayCreate : ContextEvent → Prop
  | .create _ _ | .syscall (.spawn _ _ _) => True
  | _ => False

/-- An interrupt from ring 3 finds no other live task's frame at the top of `kernel_irq_stack`, and a creation frees
    no stack that would be merged with a block of another page run. -/
structure Spares (ks : KernelStacks) (c : Context) (e : ContextEvent) : Prop where
  irqStack : Interrupts e → c.cpu.ring3 = true → ∀ t < maxTasks, (c.sched.tasks t).Live →
    (t : Int) ≠ c.sched.currentTid → (c.sched.tasks t).kernelRsp ≠ ks.irqTop - 176
  heap : MayCreate e → ∀ slot freed s, c.sched.findFreeSlot = some (slot, freed, s) → freed ≠ 0 →
    c.heap.MergesInside (.free freed)

end Context
end SamOS
