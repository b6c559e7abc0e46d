import Mathlib.Data.List.Basic
import SamOS.Memory

/-! The task table and its scheduler (`task.c`), and the part of `syscall_dispatch` that reschedules. A slot number is
    the `tid` of its task. `trapframe` repeats `kernel_rsp` and is left out. `context_switch_from` first calls
    `process_reap_deferred`, which writes no task; that call is part of the kernel model. -/

namespace SamOS

inductive TaskState where
  | new
  | runnable
  | running
  | waiting
  | zombie
  deriving DecidableEq, Repr

/-- A `Task`. `cr3` is the page number of the PML4 and `kernelStack` is `0` for `NULL`. -/
structure Task where
  pid : Int
  state : TaskState
  kernelRsp : Nat
  kernelStackTop : Nat
  cr3 : Nat
  timeslice : BitVec 32
  exitCode : Int
  isUser : Bool
  addressSpace : AsPtr
  kernelStack : Nat
  deriving DecidableEq, Repr

/-- A task slot after `task_init`. -/
def Task.blank : Task :=
  { pid := 0, state := .new, kernelRsp := 0, kernelStackTop := 0, cr3 := 0, timeslice := 0, exitCode := 0
    isUser := false, addressSpace := .null, kernelStack := 0 }

/-- `RUNNABLE`, `RUNNING` or `WAITING`. -/
def Task.Live (t : Task) : Prop := t.state = .runnable ∨ t.state = .running ∨ t.state = .waiting

instance (t : Task) : Decidable t.Live := inferInstanceAs (Decidable (_ ∨ _ ∨ _))

def maxTasks : Nat := 16

/-- The static state of `task.c`, and the register CR3 that a switch loads. -/
structure Sched where
  tasks : Nat → Task
  currentTid : Int
  sliceTicks : Nat
  switchCount : BitVec 64
  cr3 : Nat

namespace Sched

/-- The slot `current_tid`, where it is not negative. -/
def current (s : Sched) : Nat := s.currentTid.toNat

def modify (s : Sched) (i : Nat) (f : Task → Task) : Sched :=
  { s with tasks := Function.update s.tasks i (f (s.tasks i)) }

/-- The first slot that meets `p`, in slot order. -/
def firstSlot (p : Nat → Bool) : Option Nat := (List.range maxTasks).find? p

/-- `task_init`, where `cr3` is the register as it stands. -/
def taskInit (cr3 : Nat) : Sched :=
  { tasks := fun _ => .blank, currentTid := -1, sliceTicks := 0, switchCount := 0, cr3 }

/-! ### Slots -/

/-- `find_free_slot`: the slot, the stack passed to `kfree` (`0` when there is none), and the state after. -/
def findFreeSlot (s : Sched) : Option (Nat × Nat × Sched) :=
  match firstSlot fun i =>
    decide ((s.tasks i).state = .zombie ∨ (s.tasks i).state = .new) && decide ((s.tasks i).kernelStack = 0) with
  | some i => some (i, 0, s)
  | none =>
    match firstSlot fun i => decide ((s.tasks i).kernelStack = 0) && decide ((s.tasks i).state = .new) with
    | some i => some (i, 0, s)
    | none =>
      match firstSlot fun i => decide ((s.tasks i).state = .zombie) with
      | some i => some (i, (s.tasks i).kernelStack, s.modify i fun t => { t with kernelStack := 0 })
      | none => none

/-- `(uint64_t)(stack + TASK_STACK_SIZE) & ~0xF`. -/
def stackTop (stack : Nat) : Nat := (stack + 16384) % 2 ^ 64 / 16 * 16

/-- `stackTop` less the size of an `InterruptFrame`: what `setup_initial_frame` returns. -/
def initialRsp (stack : Nat) : Nat := (stackTop stack + 2 ^ 64 - 176) % 2 ^ 64

/-- What the two `task_create` functions write into their slot. -/
def created (stack : Nat) (pid : Int) (cr3 : Nat) (isUser : Bool) (addressSpace : AsPtr) : Task :=
  { pid, state := .runnable, kernelRsp := initialRsp stack, kernelStackTop := stackTop stack, cr3, timeslice := 0
    exitCode := 0, isUser, addressSpace, kernelStack := stack }

def install (s : Sched) (slot stack : Nat) (pid : Int) (cr3 : Nat) (isUser : Bool) (addressSpace : AsPtr) : Sched :=
  s.modify slot fun _ => created stack pid cr3 isUser addressSpace

/-- The common body of `task_create_kernel` and `task_create_user`, where `stack` is what `kmalloc` returns: the `tid`
    or `-1`, and the stack that was passed to `kfree`. -/
def taskCreate (s : Sched) (stack : Nat) (pid : Int) (cr3 : Nat) (isUser : Bool) (addressSpace : AsPtr) :
    Int × Nat × Sched :=
  match s.findFreeSlot with
  | none => (-1, 0, s)
  | some (slot, freed, s) =>
    if stack = 0 then (-1, freed, s) else (slot, freed, s.install slot stack pid cr3 isUser addressSpace)

def taskCreateKernel (s : Sched) (kernelPml4 stack : Nat) : Int × Nat × Sched :=
  s.taskCreate stack 0 kernelPml4 false .kernel

def taskCreateUser (s : Sched) (stack : Nat) (pid : Int) (as : AsPtr) (pml4 : Nat) : Int × Nat × Sched :=
  s.taskCreate stack pid pml4 true as

/-! ### Switching -/

def pickNextRunnable (s : Sched) : Option Nat :=
  let start := if s.currentTid < 0 then 0 else (s.current + 1) % maxTasks
  (firstSlot fun i =>
    decide ((s.tasks ((start + i) % maxTasks)).state = .runnable ∨
      (s.tasks ((start + i) % maxTasks)).state = .running)).map fun i => (start + i) % maxTasks

/-- `task_switch_address_space`: the CR3 it loads. -/
def switchAddressSpace (t : Task) (kernelPml4 : Nat) : Except String Nat :=
  if t.isUser then
    if t.addressSpace = .null then .error "user task has null address space"
    else if t.cr3 = 0 then .error "user task has null CR3"
    else .ok t.cr3
  else if kernelPml4 = 0 then .error "kernel address space missing"
  else .ok kernelPml4

/-- The suspension of the current task at the start of `context_switch_from`. -/
def suspend (s : Sched) (rsp : Nat) : Sched :=
  if 0 ≤ s.currentTid then
    s.modify s.current fun t =>
      { t with kernelRsp := rsp, state := if t.state = .running then .runnable else t.state }
  else s

def setRunning (s : Sched) (i : Nat) : Sched := s.modify i fun t => { t with state := .running }

/-- `context_switch_from`: the stack pointer to resume from, `0` for none, and the state after. -/
def contextSwitchFrom (s : Sched) (kernelPml4 rsp : Nat) : Except String (Nat × Sched) :=
  let s := s.suspend rsp
  match s.pickNextRunnable with
  | none => .ok (0, if 0 ≤ s.currentTid then s.setRunning s.current else s)
  | some next =>
    if (next : Int) = s.currentTid then .ok (0, s.setRunning next)
    else do
      let s := { s with currentTid := (next : Int) }
      let s := s.modify next fun t => { t with state := .running, timeslice := t.timeslice + 1 }
      let cr3 ← switchAddressSpace (s.tasks next) kernelPml4
      .ok ((s.tasks next).kernelRsp, { s with cr3, switchCount := s.switchCount + 1 })

def ticksPerSlice : Nat := 5

/-- A tick inside the time slice of the running task, which `schedule_on_tick` counts. -/
def InSlice (s : Sched) : Prop :=
  0 ≤ s.currentTid ∧ (s.tasks s.current).state = .running ∧ (s.sliceTicks + 1) % 2 ^ 32 < ticksPerSlice

def scheduleOnTick (s : Sched) (kernelPml4 rsp : Nat) : Except String (Nat × Sched) :=
  if 0 ≤ s.currentTid ∧ (s.tasks s.current).state = .running then
    let s := { s with sliceTicks := (s.sliceTicks + 1) % 2 ^ 32 }
    if s.sliceTicks < ticksPerSlice then .ok (0, s)
    else { s with sliceTicks := 0 }.contextSwitchFrom kernelPml4 rsp
  else { s with sliceTicks := 0 }.contextSwitchFrom kernelPml4 rsp

def taskScheduleFromInterrupt (s : Sched) (kernelPml4 frame : Nat) : Except String (Nat × Sched) :=
  if frame = 0 then .error "task_schedule_from_interrupt: null frame" else s.contextSwitchFrom kernelPml4 frame

/-- `schedule`: as `context_switch_from(0)`; the frame it resumes is popped by the assembly after it. -/
def schedule (s : Sched) (kernelPml4 : Nat) : Except String (Nat × Sched) := s.contextSwitchFrom kernelPml4 0

/-! ### Task calls -/

/-- `task_sleep`, up to its `int $0x20`. -/
def taskSleep (s : Sched) : Except String Sched :=
  if s.currentTid < 0 then .error "task_sleep called without current task"
  else if (s.tasks s.current).isUser then .error "task_sleep called from user task"
  else .ok (s.modify s.current fun t => { t with state := .waiting })

def taskWake (s : Sched) (tid : Int) : Sched :=
  if tid < 0 ∨ tid ≥ maxTasks then s
  else if (s.tasks tid.toNat).state = .waiting then s.modify tid.toNat fun t => { t with state := .runnable }
  else s

/-- `task_exit`, up to its `int $0x20`. -/
def taskExit (s : Sched) (code : Int) : Except String Sched :=
  if s.currentTid < 0 then .error "task_exit called without current task"
  else .ok (s.modify s.current fun t => { t with exitCode := code, state := .zombie })

/-- The slot that `task_kill_pid(pid)` ends: the first one with the pid that is neither `NEW` nor `ZOMBIE`. -/
def killSlot (s : Sched) (pid : Int) : Option Nat :=
  firstSlot fun i =>
    decide ((s.tasks i).pid = pid) && !decide ((s.tasks i).state = .new ∨ (s.tasks i).state = .zombie)

/-- `task_kill_pid`. The current task is ended by `task_exit`, which writes the same fields and then raises
    `int $0x20`. -/
def taskKillPid (s : Sched) (pid code : Int) : Int × Sched :=
  if pid ≤ 0 then (-1, s)
  else
    match s.killSlot pid with
    | none => (-1, s)
    | some i => (0, s.modify i fun t => { t with exitCode := code, state := .zombie })

def taskCurrentPid (s : Sched) : Int := if s.currentTid < 0 then -1 else (s.tasks s.current).pid

def taskSelfCheck (s : Sched) : Bool :=
  ((List.range maxTasks).all fun i =>
    !((s.tasks i).isUser && decide ((s.tasks i).state ≠ .new) &&
      (decide ((s.tasks i).addressSpace = .null) || decide ((s.tasks i).cr3 = 0)))) &&
  decide (((List.range maxTasks).countP fun i => decide ((s.tasks i).state = .running)) ≤ 1) &&
  (decide (s.currentTid < 0) ||
    (decide (s.currentTid < maxTasks) && decide ((s.tasks s.current).state = .running)))

/-! ### The system-call path -/

def retErr (errno : BitVec 64) : BitVec 64 := 0 - errno

/-- The task side of `sys_exit`. -/
def sysExit (s : Sched) (code : Int) : Sched :=
  if s.currentTid < 0 then s else s.modify s.current fun t => { t with exitCode := code, state := .zombie }

/-- The results that reschedule. -/
def Reschedules (ret : BitVec 64) : Prop := ret = retErr 11 ∨ ret = 0

instance (ret : BitVec 64) : Decidable (Reschedules ret) := inferInstanceAs (Decidable (_ ∨ _))

/-- What `syscall_dispatch` writes to the current task before it reschedules. -/
def offered (s : Sched) : Sched :=
  if 0 ≤ s.currentTid ∧ (s.tasks s.current).state ≠ .waiting ∧ (s.tasks s.current).state ≠ .zombie then
    s.modify s.current fun t => { t with state := .runnable }
  else s

/-- The end of `syscall_dispatch`: `ret` is stored in `frame->rax`, and `0` and `-11` reschedule. -/
def syscallReturn (s : Sched) (kernelPml4 frame : Nat) (ret : BitVec 64) : Except String (Nat × Sched) :=
  if Reschedules ret then s.offered.taskScheduleFromInterrupt kernelPml4 frame else .ok (0, s)

end Sched
end SamOS
