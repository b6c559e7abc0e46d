import Mathlib.Tactic.Simps.Basic
import SamOS.Elf
import SamOS.Context

/-! Processes (`process.c`) over the whole kernel: physical memory, the heap that task stacks come from, the task
    table and the process table. The heap's block headers and the task stacks lie in physical memory and are written
    there; the static variables of the kernel do not. -/

namespace SamOS
open Heap Loop

/-! ### Heap memory -/

namespace Mem

/-- `*(uint64_t*)a = w`, for an aligned address. -/
def store (m : Mem) (a : Nat) (w : Word) : Mem := m.write (a / 4096) (a % 4096 / 8) w

/-- The words are stored one after the other from `a` on. -/
def storeAll (m : Mem) : Nat → List Word → Mem
  | _, [] => m
  | a, w :: ws => (m.store a w).storeAll (a + 8) ws

/-- The loop that clears the `n` bytes from `a` on, for aligned `a` and `n`. -/
def clear (m : Mem) (a n : Nat) : Mem := fun f i =>
  if i < 512 ∧ a ≤ f * 4096 + 8 * i ∧ f * 4096 + 8 * i < a + n then 0 else m f i

/-- The header of each block of the list: `size`, `free` and `next`. -/
def storeHeaders (m : Mem) : List KBlock → Mem
  | [] => m
  | b :: rest =>
    (m.storeAll b.addr [BitVec.ofNat 64 b.size, if b.free then 1 else 0,
      BitVec.ofNat 64 ((rest.head?.map (·.addr)).getD 0)]).storeHeaders rest

/-- The cleared stack of a new task with its initial frame. -/
def newStack (m : Mem) (stack : Nat) (f : InterruptFrame) : Mem := fun p i =>
  if i < 512 then Context.newStack (fun a => m (a / 4096) (a % 4096 / 8)) stack f (p * 4096 + 8 * i) else m p i

end Mem

/-! ### The kernel -/

/-- A `Process`. `addressSpace` is the page of its address space, `none` for `NULL`. -/
structure Process where
  used : Bool
  pid : Int
  addressSpace : Option Nat
  mainTid : Int
  entry : Nat
  userRsp : Nat
  exited : Bool
  exitCode : Int
  reapPending : Bool
  deriving DecidableEq, Repr

/-- An entry after `process_init`. -/
def Process.blank : Process :=
  { used := false, pid := 0, addressSpace := none, mainTid := -1, entry := 0, userRsp := 0, exited := false
    exitCode := 0, reapPending := false }

def maxProcesses : Nat := 16

/-- Where the shell stands in a call that an interrupt has stopped. The shell runs with interrupts on, so the timer
    may come at any of these points: `process_spawn_from_elf` has a task and is about to fill the entry;
    `process_kill` has ended the task and is about to mark the entry; `process_reap_deferred` comes to an entry, or
    has destroyed its address space and is about to clear it. -/
inductive ShellCall where
  | idle
  | record (slot : Nat) (p : Process)
  | mark (slot : Nat) (code : Int)
  | reap (slot : Nat) (current : AsPtr)
  | clear (slot : Nat) (current : AsPtr)
  deriving DecidableEq, Repr

/-- The kernel: memory, heap, tasks, processes and the call that the shell is in. -/
structure Kernel where
  machine : Machine
  heap : HeapRun
  sched : Sched
  procs : Nat → Process
  nextPid : BitVec 32
  shell : ShellCall

namespace Kernel

@[simps -fullyApplied] def setProc (k : Kernel) (i : Nat) (p : Process) :
    Kernel := { k with procs := Function.update k.procs i p }
@[simps -fullyApplied] def withMachine (k : Kernel) (machine : Machine) : Kernel := { k with machine }
@[simps -fullyApplied] def withSched (k : Kernel) (sched : Sched) : Kernel := { k with sched }
@[simps -fullyApplied] def withShell (k : Kernel) (shell : ShellCall) : Kernel := { k with shell }

/-! ### Tasks -/

def kfree (k : Kernel) (ptr : Nat) : Kernel :=
  if ptr = 0 then k
  else
    { k with
      heap := { k.heap with heap := k.heap.heap.kfree ptr, live := k.heap.live.filter fun a => a.1 ≠ ptr }
      machine := { k.machine with mem := k.machine.mem.storeHeaders (k.heap.heap.kfree ptr).blocks } }

/-- What `expand_heap` gets from the PMM when `kmalloc(size)` calls it. -/
def expandHeap (k : Kernel) (size : Nat) : Nat × Pmm :=
  if k.heap.heap.needsPages size then k.machine.pmm.pmmAllocPages (expandPages (alignUp size 16))
  else (0, k.machine.pmm)

def kmalloc (k : Kernel) (size : Nat) : Except String (Nat × Kernel) := do
  let (page, pmm) := k.expandHeap size
  let (ptr, heap) ← k.heap.heap.kmalloc size page
  .ok (ptr,
    { k with
      heap :=
        { heap, runs := k.heap.grow size page, live := if ptr = 0 then k.heap.live else (ptr, size) :: k.heap.live }
      machine := { k.machine with pmm, mem := k.machine.mem.storeHeaders heap.blocks } })

def kzalloc (k : Kernel) (size : Nat) : Except String (Nat × Kernel) := do
  let (ptr, k) ← k.kmalloc size
  .ok (ptr, if ptr = 0 then k else { k with machine := { k.machine with mem := k.machine.mem.clear ptr size } })

/-- `task_create_kernel` and `task_create_user`: the `tid`, `none` for `-1`. -/
def taskCreate (k : Kernel) (n : NewTask) : Except String (Option Nat × Kernel) :=
  match k.sched.findFreeSlot with
  | none => .ok (none, k)
  | some (slot, freed, sched) => do
    let (stack, k) ← ((k.withSched sched).kfree freed).kmalloc 16384
    if stack = 0 then .ok (none, k)
    else
      .ok (some slot,
        { k with
          sched := k.sched.install slot stack n.pid n.pml4 n.isUser n.addressSpace
          machine := { k.machine with mem := k.machine.mem.newStack stack (n.frame stack) } })

/-! ### The process table -/

def firstProc (p : Nat → Bool) : Option Nat := (List.range maxProcesses).find? p

def allocProcessSlot (k : Kernel) : Option Nat :=
  firstProc fun i =>
    !(k.procs i).used || ((k.procs i).exited && (k.procs i).addressSpace.isNone && decide ((k.procs i).mainTid < 0))

def findProcessByPid (k : Kernel) (pid : Int) : Option Nat :=
  firstProc fun i => (k.procs i).used && decide ((k.procs i).pid = pid)

/-- `p->exited = 1; p->exit_code = code; p->reap_pending = 1`. -/
def markExited (k : Kernel) (i : Nat) (code : Int) : Kernel :=
  k.setProc i { k.procs i with exited := true, exitCode := code, reapPending := true }

def processTaskExited (k : Kernel) (pid code : Int) : Kernel :=
  match k.findProcessByPid pid with
  | none => k
  | some i => k.markExited i code

/-- `process_wait_poll`, with what it stores in `*out_code`. -/
def processWaitPoll (k : Kernel) (pid : Int) : (Int × Option Int) × Kernel :=
  match k.findProcessByPid pid with
  | none => ((-1, none), k)
  | some i =>
    let p := k.procs i
    if ¬p.exited then ((0, none), k)
    else if ¬p.reapPending ∧ p.addressSpace = none then
      ((1, some p.exitCode), k.setProc i
        { p with used := false, pid := 0, mainTid := -1, entry := 0, userRsp := 0, exitCode := 0, exited := false })
    else ((1, some p.exitCode), k)

def processCountActive (k : Kernel) : Nat :=
  (List.range maxProcesses).countP fun i => (k.procs i).used && !(k.procs i).exited

/-! ### Spawning -/

/-- A program in a new address space: the page of the space, the entry point and the stack pointer. -/
structure Program where
  space : Nat
  entry : Nat
  userRsp : Nat

end Kernel

/-- `process_spawn_from_elf` up to `next_pid++`: the new address space with the image and its stack, or `none` where
    the function returns `-1`. -/
def Machine.loadProgram (s : Machine) (img : Image) : Except String (Option Kernel.Program × Machine) := do
  let (as, s) ← s.vmmCreateAddressSpace
  match as with
  | none => .ok (none, s)
  | some a =>
    let (entry, s) ← s.loadElfIntoAs (.page a) img
    match entry with
    | none => .ok (none, s.vmmDestroyAddressSpace a)
    | some entry =>
      let (userRsp, s) ← s.mapUserStack (.page a)
      match userRsp with
      | none => .ok (none, s.vmmDestroyAddressSpace a)
      | some userRsp => .ok (some { space := a, entry, userRsp }, s)

namespace Kernel

/-- The arguments of `task_create_user` for a program. -/
def Program.newTask (prog : Program) (pid : Int) (pml4 : Nat) : NewTask :=
  { pid, isUser := true, addressSpace := .page prog.space, pml4, entry := BitVec.ofNat 64 prog.entry
    userRsp := BitVec.ofNat 64 prog.userRsp }

/-- The entry of a new process. -/
def Program.process (prog : Program) (pid : Int) (tid : Nat) : Process :=
  { used := true, pid, addressSpace := some prog.space, mainTid := tid, entry := prog.entry, userRsp := prog.userRsp
    exited := false, exitCode := 0, reapPending := false }

/-- `process_spawn_from_elf` from `next_pid++` up to the writes to `proc_table[slot]`: the entry to be written. -/
def startTask (k : Kernel) (prog : Program) : Except String (Option Process × Kernel) := do
  let pid := k.nextPid.toInt
  let (tid, k) ← { k with nextPid := k.nextPid + 1 }.taskCreate (prog.newTask pid (k.machine.pml4 (.page prog.space)))
  match tid with
  | none => .ok (none, k.withMachine (k.machine.vmmDestroyAddressSpace prog.space))
  | some tid => .ok (some (prog.process pid tid), k)

/-- `process_spawn_from_elf` up to the writes to the process table: the slot and what goes there. -/
def prepareSpawn (k : Kernel) (img : Image) : Except String (Option (Nat × Process) × Kernel) :=
  match k.allocProcessSlot with
  | none => .ok (none, k)
  | some slot => do
    let (prog, machine) ← k.machine.loadProgram img
    match prog with
    | none => .ok (none, k.withMachine machine)
    | some prog =>
      let (p, k) ← (k.withMachine machine).startTask prog
      .ok (p.map fun p => (slot, p), k)

/-- `process_spawn_from_elf`: the pid or `-1`. -/
def processSpawnFromElf (k : Kernel) (img : Image) : Except String (Int × Kernel) := do
  let (found, k) ← k.prepareSpawn img
  match found with
  | none => .ok (-1, k)
  | some (slot, p) => .ok (p.pid, k.setProc slot p)

/-! ### Killing and reaping -/

/-- `process_kill` up to the marking of the entry: the result, and the entry to be marked. -/
def beginKill (k : Kernel) (pid code : Int) : Int × Option Nat × Kernel :=
  match k.findProcessByPid pid with
  | none => (-1, none, k)
  | some i =>
    if (k.procs i).exited then (1, none, k)
    else if (k.sched.taskKillPid pid code).1 < 0 then (-1, none, k.withSched (k.sched.taskKillPid pid code).2)
    else (0, some i, k.withSched (k.sched.taskKillPid pid code).2)

def processKill (k : Kernel) (pid code : Int) : Int × Kernel :=
  match k.beginKill pid code with
  | (res, none, k) => (res, k)
  | (res, some i, k) => (res, k.markExited i code)

/-- `current_as` of `process_reap_deferred`. -/
def currentAs (k : Kernel) : AsPtr :=
  if k.sched.currentTid < 0 then .null else (k.sched.tasks k.sched.current).addressSpace

/-- `p->reap_pending = 0; p->main_tid = -1` and, after the address space is destroyed, `p->address_space = 0`. -/
def clearEntry (k : Kernel) (i : Nat) : Kernel :=
  k.setProc i { k.procs i with addressSpace := none, reapPending := false, mainTid := -1 }

/-- The loop body of `process_reap_deferred` up to `vmm_destroy_address_space`: whether the entry is cleared next. -/
def reapSpace (k : Kernel) (current : AsPtr) (i : Nat) : Bool × Kernel :=
  if ¬(k.procs i).used ∨ ¬(k.procs i).reapPending then (false, k)
  else
    match (k.procs i).addressSpace with
    | none => (true, k)
    | some a =>
      if current = .page a then (false, k)
      else (true, k.withMachine (k.machine.vmmDestroyAddressSpace a))

/-- The loop body of `process_reap_deferred`. -/
def reapEntry (k : Kernel) (current : AsPtr) (i : Nat) : Kernel :=
  match k.reapSpace current i with
  | (true, k) => k.clearEntry i
  | (false, k) => k

def processReapDeferred (k : Kernel) : Kernel :=
  forRange 0 maxProcesses (fun i k' => k'.reapEntry k.currentAs i) k

end Kernel
end SamOS
