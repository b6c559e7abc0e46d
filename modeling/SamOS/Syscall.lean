import SamOS.Process
import SamOS.Translation
import SamOS.Paging

/-! The kernel as a system: context switches that reap, the system calls (`syscall.c`), the calls of the shell and
    what `kernel_main` does before the first switch. -/

namespace SamOS
open Heap

namespace Kernel

/-! ### Switching -/

def contextSwitchFrom (k : Kernel) (rsp : Nat) : Except String (Nat × Kernel) := do
  let k := k.processReapDeferred
  let (next, sched) ← k.sched.contextSwitchFrom k.machine.kernelPml4 rsp
  .ok (next, k.withSched sched)

def scheduleOnTick (k : Kernel) (rsp : Nat) : Except String (Nat × Kernel) :=
  if 0 ≤ k.sched.currentTid ∧ (k.sched.tasks k.sched.current).state = .running then
    let k := k.withSched { k.sched with sliceTicks := (k.sched.sliceTicks + 1) % 2 ^ 32 }
    if k.sched.sliceTicks < Sched.ticksPerSlice then .ok (0, k)
    else (k.withSched { k.sched with sliceTicks := 0 }).contextSwitchFrom rsp
  else (k.withSched { k.sched with sliceTicks := 0 }).contextSwitchFrom rsp

def taskScheduleFromInterrupt (k : Kernel) (frame : Nat) : Except String (Nat × Kernel) :=
  if frame = 0 then .error "task_schedule_from_interrupt: null frame" else k.contextSwitchFrom frame

/-! ### System calls -/

def userRangeValid (k : Kernel) (as : AsPtr) (start len : Nat) : Bool :=
  if as = .null then false
  else if len = 0 then true
  else if userUpperLimit ≤ start then false
  else if (start + len) % 2 ^ 64 < start then false
  else if userUpperLimit < (start + len) % 2 ^ 64 then false
  else
    let first := start / 4096
    let last := (start + len - 1) / 4096
    (List.range (last + 1 - first)).all fun i => k.machine.vmmVirtToPhys as ((first + i) * 4096) ≠ 0

/-- What kernel code reads at a virtual address; `none` is a page fault. -/
def readVirtual (k : Kernel) (virt : Nat) : Option (BitVec 8) :=
  (k.machine.mem.hardwareWalk k.sched.cr3 virt).map fun walk => k.machine.mem.readByte walk.1

/-- `sys_write`: the result, and the bytes that it prints. -/
def sysWrite (k : Kernel) (ptr len : Nat) : Word × List (Option (BitVec 8)) :=
  if k.sched.currentTid < 0 ∨ ¬(k.sched.tasks k.sched.current).isUser then (Sched.retErr 1, [])
  else if 4096 < len then (Sched.retErr 22, [])
  else if ¬k.userRangeValid (k.sched.tasks k.sched.current).addressSpace ptr len then (Sched.retErr 14, [])
  else (BitVec.ofNat 64 len, (List.range len).map fun i => k.readVirtual (ptr + i))

def sysExit (k : Kernel) (code : Int) : Kernel :=
  let k := k.processTaskExited k.sched.taskCurrentPid code
  k.withSched (k.sched.sysExit code)

/-- `sys_spawn`, where `none` is an image number that `process_spawn_builtin` does not know. -/
def sysSpawn (k : Kernel) : Option Image → Except String (Word × Kernel)
  | none => .ok (Sched.retErr 12, k)
  | some img => do
    let (pid, k) ← k.processSpawnFromElf img
    .ok (if pid < 0 then Sched.retErr 12 else BitVec.ofInt 64 pid, k)

def sysGetpid (k : Kernel) : Word :=
  if k.sched.taskCurrentPid < 0 then Sched.retErr 3 else BitVec.ofInt 64 k.sched.taskCurrentPid

/-- The end of `syscall_dispatch`: `ret` is stored in `frame->rax`, and `0` and `-11` reschedule. -/
def syscallReturn (k : Kernel) (frame : Nat) (ret : Word) : Except String (Nat × Kernel) :=
  if Sched.Reschedules ret then (k.withSched k.sched.offered).taskScheduleFromInterrupt frame else .ok (0, k)

end Kernel

/-- The system calls. -/
inductive Syscall where
  | write (ptr len : Nat)
  | exit (code : Int)
  | yield
  | spawn (img : Option Image)
  | getpid
  | unknown

namespace Kernel

def syscallDispatch (k : Kernel) (frame : Nat) : Syscall → Except String (Nat × Kernel)
  | .write ptr len => k.syscallReturn frame (k.sysWrite ptr len).1
  | .exit code => (k.sysExit code).syscallReturn frame (Sched.retErr 11)
  | .yield => k.syscallReturn frame 0
  | .spawn img => do
    let (ret, k) ← k.sysSpawn img
    k.syscallReturn frame ret
  | .getpid => k.syscallReturn frame k.sysGetpid
  | .unknown => k.syscallReturn frame (Sched.retErr 38)

/-! ### The shell -/

/-- The next entry of the shell's `process_reap_deferred`. -/
def reapFrom (k : Kernel) (slot : Nat) (current : AsPtr) : Kernel :=
  k.withShell (if slot < maxProcesses then .reap slot current else .idle)

/-- The shell goes on from where it was stopped. -/
def resumeShell (k : Kernel) : Kernel :=
  match k.shell with
  | .idle => k
  | .record slot p => (k.setProc slot p).withShell .idle
  | .mark slot code => (k.markExited slot code).withShell .idle
  | .reap slot current =>
    match k.reapSpace current slot with
    | (true, k) => k.withShell (.clear slot current)
    | (false, k) => k.reapFrom (slot + 1) current
  | .clear slot current => (k.clearEntry slot).reapFrom (slot + 1) current

/-- `process_spawn_from_elf` called by the shell, up to the writes to the process table. -/
def shellSpawn (k : Kernel) (img : Image) : Except String Kernel := do
  let (found, k) ← k.prepareSpawn img
  match found with
  | none => .ok k
  | some (slot, p) => .ok (k.withShell (.record slot p))

/-- `process_kill` called by the shell, up to the marking of the entry. -/
def shellKill (k : Kernel) (pid code : Int) : Kernel :=
  match k.beginKill pid code with
  | (_, none, k) => k
  | (_, some i, k) => k.withShell (.mark i code)

/-! ### Boot -/

/-- The arguments of `task_create_kernel`. -/
def kernelTask (k : Kernel) (entry : Word) : NewTask :=
  { pid := 0, isUser := false, addressSpace := .kernel, pml4 := k.machine.kernelPml4, entry, userRsp := 0 }

/-- `fb_pages` of `init_memory`. -/
def shadowPages (boot : BootInfo) : Nat := (boot.height * boot.pixelsPerScanline * 4 + 4095) % 2 ^ 64 / 4096

/-- `init_memory` on the memory that the bootloader leaves, where `bytes` are those found at the bitmap. -/
def initMemory (boot : BootInfo) (img : KernelImage) (mem : Mem) (bytes : Nat → BitVec 8) : Except String Kernel := do
  let (pml4, arena) := Paging.pagingInit boot img mem
  let pmm := Pmm.pmmInit boot img (arena.nextFreeTable * 4096) bytes
  let (page, pmm) := pmm.pmmAllocPages (expandPages 4096)
  let heap ← kmallocInit { blocks := [], ready := false } page
  let (shadow, pmm) := pmm.pmmAllocPages (shadowPages boot)
  if shadow = 0 then .error "display shadow buffer allocation failed"
  else
    .ok
      { machine := { mem := arena.mem.storeHeaders heap.blocks, pmm, kernelPml4 := pml4, log := [] }
        heap := { heap, runs := [expandRun 4096 page], live := [] }
        sched := Sched.taskInit pml4
        procs := fun _ => .blank
        nextPid := 1
        shell := .idle }

/-- `run_heap_smoke_tests`, where the heap asks the PMM for pages itself. -/
def runHeapSmokeTests (k : Kernel) : Except String Kernel :=
  Heap.runHeapSmokeTests (fun size _ k => k.kmalloc size) (fun size _ k => k.kzalloc size)
    (fun ptr k => .ok (k.kfree ptr)) (fun _ => 0) k

/-- `kernel_main` up to the first process: `shell_id`, `idle_id` and the kernel. -/
def boot (fw : BootInfo) (img : KernelImage) (mem : Mem) (bytes : Nat → BitVec 8) (shellEntry idleEntry : Word) :
    Except String (Option Nat × Option Nat × Kernel) := do
  let k ← initMemory fw img mem bytes
  let k ← k.runHeapSmokeTests
  let (shellId, k) ← k.taskCreate (k.kernelTask shellEntry)
  let (idleId, k) ← k.taskCreate (k.kernelTask idleEntry)
  .ok (shellId, idleId, k)

end Kernel

/-- What happens between two states of the kernel. `bootSpawn`, `createSpace` and `mapPage` are calls of
    `kernel_main`; `store` is an instruction of the running user task; `spawn`, `kill`, `reap`, `wait` and `sleep` are
    calls of the shell, and `resume` is the shell going on with the one it is in. -/
inductive KernelEvent where
  | bootSpawn (img : Image)
  | createSpace
  | mapPage (as virt : Nat) (flags : Word)
  | schedule
  | tick (rsp : Nat)
  | wake (tid : Int)
  | store (virt : Nat) (b : BitVec 8)
  | syscall (frame : Nat) (call : Syscall)
  | spawn (img : Image)
  | kill (pid code : Int)
  | reap
  | wait (pid : Int)
  | sleep
  | resume

namespace Kernel

/-- A user task is running. -/
def InUser (k : Kernel) : Prop :=
  0 ≤ k.sched.currentTid ∧ (k.sched.tasks k.sched.current).isUser = true ∧
  (k.sched.tasks k.sched.current).state = .running

/-- The shell, task 0, is running. -/
def InShell (k : Kernel) : Prop := k.sched.currentTid = 0 ∧ (k.sched.tasks 0).state = .running

/-- One step. The address space given to `mapPage` is one that was made and not destroyed. -/
def step (k : Kernel) : KernelEvent → Kernel → Prop
  | .bootSpawn img, k' => k.sched.currentTid < 0 ∧ ∃ pid, k.processSpawnFromElf img = .ok (pid, k')
  | .createSpace, k' =>
    k.sched.currentTid < 0 ∧ ∃ as machine, k.machine.vmmCreateAddressSpace = .ok (as, machine) ∧
      k' = k.withMachine machine
  | .mapPage as virt flags, k' =>
    k.sched.currentTid < 0 ∧ alive k.machine.log as = true ∧
    ∃ ok machine, k.machine.mapNewPage (.page as) virt flags = .ok (ok, machine) ∧ k' = k.withMachine machine
  | .schedule, k' => k.sched.currentTid < 0 ∧ ∃ next, k.contextSwitchFrom 0 = .ok (next, k')
  | .tick rsp, k' => ∃ next, k.scheduleOnTick rsp = .ok (next, k')
  | .wake tid, k' => k' = k.withSched (k.sched.taskWake tid)
  | .store virt b, k' =>
    k.InUser ∧ ∃ phys, k.machine.mem.hardwareWalk k.sched.cr3 virt = some (phys, true) ∧
      k' = k.withMachine { k.machine with mem := k.machine.mem.writeByte phys b }
  | .syscall frame call, k' => k.InUser ∧ ∃ next, k.syscallDispatch frame call = .ok (next, k')
  | .spawn img, k' => k.InShell ∧ k.shell = .idle ∧ k.shellSpawn img = .ok k'
  | .kill pid code, k' => k.InShell ∧ k.shell = .idle ∧ k' = k.shellKill pid code
  | .reap, k' => k.InShell ∧ k.shell = .idle ∧ k' = k.reapFrom 0 k.currentAs
  | .wait pid, k' => k.InShell ∧ k.shell = .idle ∧ k' = (k.processWaitPoll pid).2
  | .sleep, k' => k.InShell ∧ k.shell = .idle ∧ ∃ sched, k.sched.taskSleep = .ok sched ∧ k' = k.withSched sched
  | .resume, k' => k.InShell ∧ k.shell ≠ .idle ∧ k' = k.resumeShell

end Kernel

/-- A machine: firmware whose memory map stays inside the 52-bit physical address space. -/
structure Platform extends Firmware where
  ends_le : ∀ d ∈ memoryMap, d.physicalStart + d.numberOfPages * 4096 ≤ 2 ^ 52

/-- All runs of the kernel, from any memory contents, once the shell is task 0 and the idle task is task 1. -/
def kernels (fw : Platform) (img : KernelImage) : Lts.System Kernel KernelEvent where
  init k := ∃ mem bytes shellEntry idleEntry,
    Kernel.boot fw.toBootInfo img mem bytes shellEntry idleEntry = .ok (some 0, some 1, k)
  step := Kernel.step

end SamOS
