import SamOS.Syscall
import SamOS.TableAgreement

/-! The process table and the task table over runs of the kernel. As long as no interrupt stops the shell inside a
    call, every entry that is used and not exited stands for one live user task, every live user task has one such
    entry, and the pids in the table are distinct. -/

namespace SamOS

/-! ### The calls -/

namespace Kernel
open Result

/-- Memory and the heap may differ, the tables do not. -/
structure SameTables (k k' : Kernel) : Prop where
  sched : k'.sched = k.sched
  procs : k'.procs = k.procs
  nextPid : k'.nextPid = k.nextPid
  shell : k'.shell = k.shell

variable {k : Kernel}

theorem SameTables.trans {k' k'' : Kernel} (h : SameTables k k') (h' : SameTables k' k'') : SameTables k k'' :=
  ⟨h'.sched.trans h.sched, h'.procs.trans h.procs, h'.nextPid.trans h.nextPid, h'.shell.trans h.shell⟩

section Calls
variable {k k' : Kernel}

theorem sameTables_kfree (k : Kernel) (ptr : Nat) : SameTables k (k.kfree ptr) := by
  unfold kfree
  split <;> exact ⟨rfl, rfl, rfl, rfl⟩

theorem sameTables_kmalloc {size ptr : Nat} (h : k.kmalloc size = .ok (ptr, k')) : SameTables k k' := by
  unfold kmalloc at h
  obtain ⟨⟨p, heap⟩, -, h⟩ := of_bind_eq_ok h
  cases h
  exact ⟨rfl, rfl, rfl, rfl⟩

theorem sameTables_kzalloc {size ptr : Nat} (h : k.kzalloc size = .ok (ptr, k')) : SameTables k k' := by
  obtain ⟨⟨p, k₁⟩, hm, h⟩ := of_bind_eq_ok h
  have hsame := sameTables_kmalloc hm
  cases h
  split
  · exact hsame
  · exact ⟨hsame.sched, hsame.procs, hsame.nextPid, hsame.shell⟩

theorem sameTables_runHeapSmokeTests (h : k.runHeapSmokeTests = .ok k') : SameTables k k' :=
  Heap.runHeapSmokeTests_keeps (P := SameTables k) (fun hs hm => hs.trans (sameTables_kmalloc hm))
    (fun hs hz => hs.trans (sameTables_kzalloc hz)) (fun hs hf => hs.trans (Except.ok.inj hf ▸ sameTables_kfree _ _))
      ⟨rfl, rfl, rfl, rfl⟩ h

variable {n : NewTask} {tid : Option Nat} {next : Int} {img : Image} {i : Nat}

/-- A task creation of the kernel is one of its scheduler, with the stack that `kmalloc` returns. -/
theorem taskCreate_sched (h : k.taskCreate n = .ok (tid, k')) :
    (∃ stack freed, k.sched.taskCreate stack n.pid n.pml4 n.isUser n.addressSpace = (tid.elim (-1) Int.ofNat, freed,
      k'.sched)) ∧
    k'.procs = k.procs ∧ k'.nextPid = k.nextPid ∧ k'.shell = k.shell := by
  unfold taskCreate at h
  unfold Sched.taskCreate
  cases hslot : k.sched.findFreeSlot with
  | none =>
    rw [hslot] at h
    cases h
    exact ⟨⟨0, 0, rfl⟩, rfl, rfl, rfl⟩
  | some found =>
    obtain ⟨t, freed, s⟩ := found
    rw [hslot] at h
    obtain ⟨⟨stack, k₁⟩, hm, h⟩ := of_bind_eq_ok h
    have hsame := (sameTables_kfree _ freed).trans (sameTables_kmalloc hm)
    dsimp only at h
    split at h <;> cases h
    · rename_i hstack
      exact ⟨⟨stack, freed, by simp [hstack, hsame.sched]⟩, hsame.procs, hsame.nextPid, hsame.shell⟩
    · rename_i hstack
      exact ⟨⟨stack, freed, by simp [hstack, hsame.sched]⟩, hsame.procs, hsame.nextPid, hsame.shell⟩

/-- What a task creation does to the task table: nothing, a dead slot loses its stack, or it is filled. -/
inductive Creates (s : Sched) (n : NewTask) : Option Nat → Sched → Prop
  | full : Creates s n none s
  | noStack {t : Nat} (ht : t < maxTasks) (hd : ¬(s.tasks t).Live) :
      Creates s n none (s.modify t fun task => { task with kernelStack := 0 })
  | created {t stack : Nat} (ht : t < maxTasks) (hd : ¬(s.tasks t).Live) (hs : stack ≠ 0) :
      Creates s n (some t) (s.modify t fun _ => Sched.created stack n.pid n.pml4 n.isUser n.addressSpace)

theorem taskCreate_tables (h : k.taskCreate n = .ok (tid, k')) :
    Creates k.sched n tid k'.sched ∧ k'.procs = k.procs ∧ k'.nextPid = k.nextPid ∧ k'.shell = k.shell := by
  obtain ⟨⟨stack, freed, hc⟩, hrest⟩ := taskCreate_sched h
  refine ⟨?_, hrest⟩
  rcases k.sched.taskCreate_cases stack n.pid n.pml4 n.isUser n.addressSpace with
    ⟨-, he⟩ | ⟨i, hi, hd, -, ⟨-, he⟩ | ⟨h0, he⟩⟩ <;>
    rw [he] at hc <;> obtain ⟨htid, hc⟩ := Prod.mk.inj hc <;> rw [← (Prod.mk.inj hc).2]
  · cases tid with
    | none => exact .full
    | some t => cases htid
  · cases tid with
    | none => exact .noStack hi hd
    | some t => cases htid
  · cases tid with
    | none => cases htid
    | some t =>
      obtain rfl : i = t := Int.ofNat.inj htid
      exact .created hi hd h0

/-- What a tick does: it is counted, or it switches. -/
theorem scheduleOnTick_cases {rsp next : Nat} (h : k.scheduleOnTick rsp = .ok (next, k')) :
    (k.sched.InSlice ∧ next = 0 ∧ k' = k.withSched { k.sched with sliceTicks := (k.sched.sliceTicks + 1) % 2 ^ 32 }) ∨
    (¬k.sched.InSlice ∧ (k.withSched { k.sched with sliceTicks := 0 }).contextSwitchFrom rsp = .ok (next, k')) := by
  unfold scheduleOnTick at h
  split at h
  · rename_i hrun
    dsimp only at h
    split at h
    · rename_i hlt
      cases h
      exact Or.inl ⟨⟨hrun.1, hrun.2, hlt⟩, rfl, rfl⟩
    · rename_i hlt
      exact Or.inr ⟨fun hin => hlt hin.2.2, h⟩
  · rename_i hrun
    exact Or.inr ⟨fun hin => hrun ⟨hin.1, hin.2.1⟩, h⟩

theorem syscallReturn_cases {frame next : Nat} {ret : Word} (h : k.syscallReturn frame ret = .ok (next, k')) :
    (Sched.Reschedules ret ∧ frame ≠ 0 ∧ (k.withSched k.sched.offered).contextSwitchFrom frame = .ok (next, k')) ∨
    (¬Sched.Reschedules ret ∧ next = 0 ∧ k' = k) := by
  unfold syscallReturn taskScheduleFromInterrupt at h
  split at h
  · rename_i hret
    split at h
    · cases h
    · rename_i hf
      exact Or.inl ⟨hret, hf, h⟩
  · rename_i hret
    cases h
    exact Or.inr ⟨hret, rfl, rfl⟩

/-- What a spawn does to the tables before the entry is written. -/
inductive Spawns (k : Kernel) : Option (Nat × Process) → Kernel → Prop
  | fails {k' : Kernel} (hs : k.sched.Keeps k'.sched) (hr : k.sched.Ready → k'.sched.Ready)
      (hc : k'.sched.currentTid = k.sched.currentTid) (hcr : k'.sched.cr3 = k.sched.cr3) (hp : k'.procs = k.procs)
      (hn : k'.nextPid = k.nextPid ∨ k'.nextPid = k.nextPid + 1) (hsh : k'.shell = k.shell) : Spawns k none k'
  | starts {k' : Kernel} {slot t stack pml4 : Nat} {prog : Program} (hslot : k.allocProcessSlot = some slot)
      (ht : t < maxTasks) (hd : ¬(k.sched.tasks t).Live)
      (hs : k'.sched = k.sched.modify t fun _ =>
        Sched.created stack k.nextPid.toInt pml4 true (.page prog.space))
      (hp : k'.procs = k.procs) (hn : k'.nextPid = k.nextPid + 1) (hsh : k'.shell = k.shell) :
      Spawns k (some (slot, prog.process k.nextPid.toInt t)) k'

theorem Creates.keeps {s s' : Sched} (h : Creates s n none s') :
    s.Keeps s' ∧ (s.Ready → s'.Ready) ∧ s'.currentTid = s.currentTid ∧ s'.cr3 = s.cr3 := by
  cases h with
  | full => exact ⟨.refl s, id, rfl, rfl⟩
  | noStack ht hd =>
    exact ⟨.modify Iff.rfl rfl rfl rfl rfl, fun hr =>
      hr.modify (hr.ne_of_dead hd).1 (hr.ne_of_dead hd).2 fun hl => absurd hl hd, rfl, rfl⟩

/-- Where a spawn ends before the entry is written: no slot, no program, no task, or all three. -/
inductive Prepares (k : Kernel) (img : Image) : Option (Nat × Process) → Kernel → Prop
  | full (hslot : k.allocProcessSlot = none) : Prepares k img none k
  | noProgram {slot : Nat} {machine : Machine} (hslot : k.allocProcessSlot = some slot)
      (hl : k.machine.loadProgram img = .ok (none, machine)) : Prepares k img none (k.withMachine machine)
  | noTask {slot : Nat} {machine : Machine} {prog : Program} {k' : Kernel} (hslot : k.allocProcessSlot = some slot)
      (hl : k.machine.loadProgram img = .ok (some prog, machine))
      (hc : { k.withMachine machine with nextPid := k.nextPid + 1 }.taskCreate
        (prog.newTask k.nextPid.toInt (machine.pml4 (.page prog.space))) = .ok (none, k')) :
      Prepares k img none (k'.withMachine (k'.machine.vmmDestroyAddressSpace prog.space))
  | task {slot t : Nat} {machine : Machine} {prog : Program} {k' : Kernel} (hslot : k.allocProcessSlot = some slot)
      (hl : k.machine.loadProgram img = .ok (some prog, machine))
      (hc : { k.withMachine machine with nextPid := k.nextPid + 1 }.taskCreate
        (prog.newTask k.nextPid.toInt (machine.pml4 (.page prog.space))) = .ok (some t, k')) :
      Prepares k img (some (slot, prog.process k.nextPid.toInt t)) k'

theorem prepareSpawn_cases {found : Option (Nat × Process)} (h : k.prepareSpawn img = .ok (found, k')) :
    Prepares k img found k' := by
  unfold prepareSpawn at h
  cases hslot : k.allocProcessSlot with
  | none =>
    rw [hslot] at h
    cases h
    exact .full hslot
  | some slot =>
    rw [hslot] at h
    obtain ⟨⟨prog, machine⟩, hl, h⟩ := of_bind_eq_ok h
    cases prog with
    | none =>
      cases h
      exact .noProgram hslot hl
    | some prog =>
      obtain ⟨⟨p, k₁⟩, hstart, h⟩ := of_bind_eq_ok h
      cases h
      obtain ⟨⟨tid, k₂⟩, hc, hstart⟩ := of_bind_eq_ok hstart
      cases tid with
      | none =>
        cases hstart
        exact .noTask hslot hl hc
      | some t =>
        cases hstart
        exact .task hslot hl hc

theorem prepareSpawn_of_loaded {slot : Nat} {machine : Machine} {prog : Program}
    (hslot : k.allocProcessSlot = some slot) (hl : k.machine.loadProgram img = .ok (some prog, machine))
    (hc : { k.withMachine machine with nextPid := k.nextPid + 1 }.taskCreate
      (prog.newTask k.nextPid.toInt (machine.pml4 (.page prog.space))) = .ok (tid, k')) :
    k.prepareSpawn img = match tid with
      | none => .ok (none, k'.withMachine (k'.machine.vmmDestroyAddressSpace prog.space))
      | some t => .ok (some (slot, prog.process k.nextPid.toInt t), k') := by
  have hstart : (k.withMachine machine).startTask prog = match tid with
      | none => .ok (none, k'.withMachine (k'.machine.vmmDestroyAddressSpace prog.space))
      | some t => .ok (some (prog.process k.nextPid.toInt t), k') := by
    unfold startTask
    refine (congrArg (· >>= _) hc).trans ?_
    cases tid <;> rfl
  unfold prepareSpawn
  rw [hslot]
  dsimp only
  rw [hl]
  show ((k.withMachine machine).startTask prog >>= _) = _
  rw [hstart]
  cases tid <;> rfl

theorem prepareSpawn_tables {found : Option (Nat × Process)} (h : k.prepareSpawn img = .ok (found, k')) :
    Spawns k found k' := by
  cases prepareSpawn_cases h with
  | full hslot => exact .fails (.refl _) id rfl rfl rfl (Or.inl rfl) rfl
  | noProgram hslot hl => exact .fails (.refl _) id rfl rfl rfl (Or.inl rfl) rfl
  | noTask hslot hl hc =>
    obtain ⟨hcr, hp, hn, hsh⟩ := taskCreate_tables hc
    obtain ⟨hkeep, hready, hcur, hcr3⟩ := hcr.keeps
    exact .fails hkeep hready hcur hcr3 hp (Or.inr hn) hsh
  | task hslot hl hc =>
    obtain ⟨hcr, hp, hn, hsh⟩ := taskCreate_tables hc
    generalize hs : k'.sched = s' at hcr
    cases hcr with
    | created ht hd hstack => exact .starts hslot ht hd hs hp hn hsh

theorem firstProc_eq_some {q : Nat → Bool} (h : firstProc q = some i) : i < maxProcesses ∧ q i = true := by
  obtain ⟨hq, hi, -⟩ := List.find?_range_eq_some.mp h
  exact ⟨List.mem_range.mp hi, hq⟩

theorem firstProc_eq_none {q : Nat → Bool} (h : firstProc q = none) (hi : i < maxProcesses) : q i = false := by
  simpa using List.find?_range_eq_none.mp h i hi

theorem allocProcessSlot_eq_some {slot : Nat} (h : k.allocProcessSlot = some slot) :
    slot < maxProcesses ∧ ¬(k.procs slot).Active ∧
      ((k.procs slot).used = true → (k.procs slot).addressSpace = none) := by
  obtain ⟨hi, hq⟩ := firstProc_eq_some h
  refine ⟨hi, ?_, ?_⟩ <;>
    simp only [Bool.or_eq_true, Bool.not_eq_true', Bool.and_eq_true, Option.isNone_iff_eq_none, decide_eq_true_eq] at hq
  · rintro ⟨hu, he⟩
    simp [hu, he] at hq
  · intro hu
    rw [hu] at hq
    exact (hq.resolve_left (by simp)).1.2

theorem findProcessByPid_live (h : Agree k.sched k.procs next) {t : Nat} (ht : t < maxTasks)
    (hl : k.sched.LiveUser t) : ∃ i < maxProcesses, k.findProcessByPid (k.sched.tasks t).pid = some i ∧
      (k.procs i).Active ∧ (k.procs i).RunsAs k.sched t := by
  obtain ⟨i, hi, ha, hr⟩ := h.entry_of_live ht hl
  cases hf : k.findProcessByPid (k.sched.tasks t).pid with
  | none =>
    have := firstProc_eq_none hf hi
    simp [ha.1, hr.pid] at this
  | some j =>
    obtain ⟨hj, hq⟩ := firstProc_eq_some hf
    simp only [Bool.and_eq_true, decide_eq_true_eq] at hq
    obtain rfl := h.distinct j hj i hi hq.1 ha.1 (by rw [hq.2, hr.pid])
    exact ⟨j, hj, rfl, ha, hr⟩

/-- What `process_reap_deferred` does with an entry: it passes it by, or it has nothing to destroy, or it destroys its
    address space, which is not the current one. -/
theorem reapSpace_cases (k : Kernel) (current : AsPtr) (i : Nat) :
    k.reapSpace current i = (false, k) ∨
    ((k.procs i).used = true ∧ (k.procs i).reapPending = true ∧
      (((k.procs i).addressSpace = none ∧ k.reapSpace current i = (true, k)) ∨
        ∃ a, (k.procs i).addressSpace = some a ∧ current ≠ .page a ∧
          k.reapSpace current i = (true, k.withMachine (k.machine.vmmDestroyAddressSpace a)))) := by
  unfold reapSpace
  split
  · exact Or.inl rfl
  · rename_i hu
    simp only [Bool.not_eq_true, not_or, Bool.not_eq_false] at hu
    cases ha : (k.procs i).addressSpace with
    | none => exact Or.inr ⟨hu.1, hu.2, Or.inl ⟨rfl, rfl⟩⟩
    | some a =>
      dsimp only
      split
      · exact Or.inl rfl
      · rename_i hc
        exact Or.inr ⟨hu.1, hu.2, Or.inr ⟨a, rfl, hc, rfl⟩⟩

theorem agree_clearEntry (h : Agree k.sched k.procs next) (hi : i < maxProcesses)
    (hu : (k.procs i).used = true) (hr : (k.procs i).reapPending = true) :
    Agree k.sched (k.clearEntry i).procs next := by
  have he := h.reap i hi hu hr
  exact h.update_dead (fun ha => by simp [ha.2] at he) (Or.inr ⟨hu, he, hu, rfl⟩)

theorem agree_reapEntry (h : Agree k.sched k.procs next) (current : AsPtr) (hi : i < maxProcesses) :
    Agree k.sched (k.reapEntry current i).procs next ∧ (k.reapEntry current i).sched = k.sched ∧
    (k.reapEntry current i).nextPid = k.nextPid ∧ (k.reapEntry current i).shell = k.shell := by
  unfold reapEntry
  rcases k.reapSpace_cases current i with he | ⟨hu, hr, ⟨-, he⟩ | ⟨a, -, -, he⟩⟩ <;> rw [he]
  · exact ⟨h, rfl, rfl, rfl⟩
  · exact ⟨agree_clearEntry h hi hu hr, rfl, rfl, rfl⟩
  · exact ⟨agree_clearEntry h hi hu hr, rfl, rfl, rfl⟩

theorem agree_processReapDeferred (h : Agree k.sched k.procs next) :
    Agree k.sched k.processReapDeferred.procs next ∧ k.processReapDeferred.sched = k.sched ∧
    k.processReapDeferred.nextPid = k.nextPid ∧ k.processReapDeferred.shell = k.shell := by
  refine Loop.forRange_keeps (P := fun k' : Kernel => Agree k.sched k'.procs next ∧ k'.sched = k.sched ∧
    k'.nextPid = k.nextPid ∧ k'.shell = k.shell) ⟨h, rfl, rfl, rfl⟩ ?_
  rintro i k' - hi ⟨ha, hs, hn, hsh⟩
  obtain ⟨h1, h2, h3, h4⟩ := agree_reapEntry (k := k') (by rw [hs]; exact ha) k.currentAs hi
  exact ⟨by rw [← hs]; exact h1, h2.trans hs, h3.trans hn, h4.trans hsh⟩

/-- `process_wait_poll` changes nothing, or clears the entry of a process that has exited. -/
theorem processWaitPoll_cases (k : Kernel) (pid : Int) :
    (k.processWaitPoll pid).2 = k ∨ ∃ i, (k.procs i).exited = true ∧
    (k.processWaitPoll pid).2 = k.setProc i
      { k.procs i with used := false, pid := 0, mainTid := -1, entry := 0, userRsp := 0, exitCode := 0, exited := false } := by
  unfold processWaitPoll
  cases k.findProcessByPid pid with
  | none => exact Or.inl rfl
  | some i =>
    dsimp only
    split
    · exact Or.inl rfl
    · rename_i hexited
      split
      · exact Or.inr ⟨i, by simpa using hexited, rfl⟩
      · exact Or.inl rfl

end Calls

/-! ### The invariant -/

/-- The writes to the process table that the shell is about to make are made. -/
def settle (k : Kernel) : Kernel :=
  match k.shell with
  | .record slot p => k.setProc slot p
  | .mark slot code => k.markExited slot code
  | .clear slot _ => k.clearEntry slot
  | _ => k

theorem settle_of_idle (h : k.shell = .idle) : k.settle = k := by
  unfold settle
  rw [h]

/-- Once the shell has finished its call, the tables agree. -/
structure TableInv (k : Kernel) : Prop where
  ready : k.sched.Ready
  current : k.sched.CurrentLive
  agree : Agree k.sched k.settle.procs k.nextPid.toNat
  pos : 0 < k.nextPid.toNat
  slot : ∀ {i current}, k.shell = .reap i current → i < maxProcesses

/-- The event is the shell's next step if the shell is inside a call. -/
def Undisturbed (k : Kernel) (e : KernelEvent) : Prop := k.shell ≠ .idle → e = .resume

namespace TableInv
variable {k k' : Kernel}

theorem agree_of_idle (h : k.TableInv) (hi : k.shell = .idle) : Agree k.sched k.procs k.nextPid.toNat := by
  have := h.agree
  rwa [settle_of_idle hi] at this

theorem of_idle (hi : k'.shell = .idle) (hr : k'.sched.Ready) (hc : k'.sched.CurrentLive)
    (ha : Agree k'.sched k'.procs k'.nextPid.toNat) (hp : 0 < k'.nextPid.toNat) : k'.TableInv :=
  ⟨hr, hc, by rw [settle_of_idle hi]; exact ha, hp, fun h => by rw [hi] at h; cases h⟩

variable {next frame : Nat} {img : Image} {pid : Int}

/-- A context switch, also one in which the current task has just ended. -/
theorem contextSwitchFrom {rsp : Nat} (hr : k.sched.Ready) (ha : Agree k.sched k.procs k.nextPid.toNat)
    (hp : 0 < k.nextPid.toNat) (hi : k.shell = .idle) (hs : k.contextSwitchFrom rsp = .ok (next, k')) :
    k'.TableInv ∧ k'.shell = .idle ∧ k'.nextPid = k.nextPid := by
  unfold Kernel.contextSwitchFrom at hs
  obtain ⟨ha', hsched, hn, hsh⟩ := agree_processReapDeferred ha
  generalize k.processReapDeferred = k₁ at hs ha' hsched hn hsh
  obtain ⟨⟨n, s⟩, hsw, hs⟩ := of_bind_eq_ok hs
  cases hs
  rw [hsched] at hsw
  obtain ⟨hk, hr', hc', -⟩ := hr.contextSwitchFrom hsw
  exact ⟨of_idle (hsh.trans hi) hr' hc' (by rw [withSched_nextPid, hn]; exact ha'.keeps hk)
    (by rw [withSched_nextPid, hn]; exact hp), hsh.trans hi, hn⟩

theorem taskScheduleFromInterrupt (hr : k.sched.Ready) (ha : Agree k.sched k.procs k.nextPid.toNat)
    (hp : 0 < k.nextPid.toNat) (hi : k.shell = .idle) (hs : k.taskScheduleFromInterrupt frame = .ok (next, k')) :
    k'.TableInv ∧ k'.shell = .idle ∧ k'.nextPid = k.nextPid := by
  unfold Kernel.taskScheduleFromInterrupt at hs
  split at hs
  · cases hs
  · exact contextSwitchFrom hr ha hp hi hs

theorem scheduleOnTick (h : k.TableInv) (hi : k.shell = .idle) {rsp : Nat}
    (hs : k.scheduleOnTick rsp = .ok (next, k')) :
    k'.TableInv ∧ k'.shell = .idle ∧ k'.nextPid = k.nextPid := by
  have ha := h.agree_of_idle hi
  have hready : ∀ n, Sched.Ready { k.sched with sliceTicks := n } := fun n =>
    ⟨h.ready.bound, h.ready.shell, h.ready.idle, h.ready.users⟩
  have hagree : ∀ n, Agree { k.sched with sliceTicks := n } k.procs k.nextPid.toNat := fun n => ha.keeps (.of_tasks rfl)
  rcases scheduleOnTick_cases hs with ⟨-, -, rfl⟩ | ⟨-, hs⟩
  · exact ⟨of_idle hi (hready _) h.current (hagree _) h.pos, hi, rfl⟩
  · exact contextSwitchFrom (k := k.withSched { k.sched with sliceTicks := 0 }) (hready 0) (hagree 0) h.pos hi hs

theorem syscallReturn (h : k.TableInv) (hi : k.shell = .idle) (hu : k.InUser) {ret : Word}
    (hs : k.syscallReturn frame ret = .ok (next, k')) : k'.TableInv ∧ k'.shell = .idle ∧ k'.nextPid = k.nextPid := by
  obtain ⟨-, huser, hrun⟩ := hu
  have ha := h.agree_of_idle hi
  rcases syscallReturn_cases hs with ⟨-, -, hs⟩ | ⟨-, -, rfl⟩
  · rcases k.sched.offered_cases with he | ⟨-, -, -, he⟩ <;> rw [he] at hs
    · exact contextSwitchFrom h.ready ha h.pos hi hs
    · have hk : k.sched.Keeps (k.sched.modify k.sched.current fun t => { t with state := .runnable }) :=
        .modify (by simp [Task.Live, hrun]) rfl rfl rfl rfl
      obtain ⟨h0, h1⟩ := h.ready.ne_of_user huser
      exact contextSwitchFrom (k := k.withSched (k.sched.modify k.sched.current fun t => { t with state := .runnable }))
        (h.ready.modify (f := fun t => { t with state := .runnable }) h0 h1 fun _ => huser) (ha.keeps hk) h.pos hi hs
  · exact ⟨h, hi, rfl⟩

theorem current_lt (h : k.TableInv) : k.sched.current < maxTasks := by
  have := h.ready.bound
  unfold Sched.current
  unfold maxTasks at *
  omega

/-- `sys_exit` ends the current task and marks its entry. -/
theorem sysExit_eq (h : k.TableInv) (hi : k.shell = .idle) (hu : k.InUser) (code : Int) :
    ∃ i < maxProcesses, (k.procs i).Active ∧ (k.procs i).RunsAs k.sched k.sched.current ∧
      k.sysExit code = (k.markExited i code).withSched (k.sched.ended k.sched.current code) := by
  obtain ⟨hc, huser, hrun⟩ := hu
  have hl : k.sched.LiveUser k.sched.current := ⟨Or.inr (Or.inl hrun), huser⟩
  obtain ⟨i, hlt, hf, ha, hr⟩ := findProcessByPid_live (h.agree_of_idle hi) h.current_lt hl
  refine ⟨i, hlt, ha, hr, ?_⟩
  have hpid : k.sched.taskCurrentPid = (k.sched.tasks k.sched.current).pid := by
    unfold Sched.taskCurrentPid
    rw [if_neg (by omega)]
  unfold Kernel.sysExit processTaskExited
  rw [hpid, hf]
  dsimp only
  rw [show (k.markExited i code).sched = k.sched from rfl, Sched.sysExit, if_neg (by omega), Sched.ended]

theorem exit (h : k.TableInv) (hi : k.shell = .idle) (hu : k.InUser) (code : Int) :
    (k.sysExit code).sched.Ready ∧ Agree (k.sysExit code).sched (k.sysExit code).procs (k.sysExit code).nextPid.toNat ∧
    (k.sysExit code).shell = .idle ∧ (k.sysExit code).nextPid = k.nextPid := by
  obtain ⟨i, hlt, ha, hr, he⟩ := h.sysExit_eq hi hu code
  obtain ⟨h0, h1⟩ := h.ready.ne_of_user hu.2.1
  rw [he]
  exact ⟨h.ready.ended code h0 h1, (h.agree_of_idle hi).ended code hlt ha hr ha.1 rfl rfl, hi, rfl⟩

theorem exit_return (h : k.TableInv) (hi : k.shell = .idle) (hu : k.InUser) (frame : Nat) (code : Int) :
    k.syscallDispatch frame (.exit code) = (k.sysExit code).taskScheduleFromInterrupt frame := by
  obtain ⟨i, -, -, -, he⟩ := h.sysExit_eq hi hu code
  have hz : ((k.sysExit code).sched.tasks (k.sysExit code).sched.current).state = .zombie := by
    simp [he, Sched.ended]
  have hoff : (k.sysExit code).sched.offered = (k.sysExit code).sched := if_neg fun hc => hc.2.2 hz
  rw [syscallDispatch, Kernel.syscallReturn, if_pos (show Sched.Reschedules _ from Or.inl rfl), hoff]
  rfl

theorem syscallExit (h : k.TableInv) (hi : k.shell = .idle) (hu : k.InUser) {code : Int}
    (hs : k.syscallDispatch frame (.exit code) = .ok (next, k')) :
    k'.TableInv ∧ k'.shell = .idle ∧ k'.nextPid = k.nextPid := by
  obtain ⟨hr, ha, hsh, hn⟩ := h.exit hi hu code
  rw [h.exit_return hi hu] at hs
  obtain ⟨h1, h2, h3⟩ := taskScheduleFromInterrupt hr ha (by rw [hn]; exact h.pos) hsh hs
  exact ⟨h1, h2, h3.trans hn⟩

/-! ### Spawning -/

theorem nextPid_succ (hlt : k.nextPid.toNat < 2 ^ 31 - 1) :
    k.nextPid.toInt = k.nextPid.toNat ∧ (k.nextPid + 1).toNat = k.nextPid.toNat + 1 := by
  refine ⟨BitVec.toInt_eq_toNat_of_lt (by omega), ?_⟩
  rw [BitVec.toNat_add, show (1 : BitVec 32).toNat = 1 from rfl, Nat.mod_eq_of_lt (by omega)]

theorem spawn_none (h : k.TableInv) (hi : k.shell = .idle) (hlt : k.nextPid.toNat < 2 ^ 31 - 1)
    (hs : Spawns k none k') :
    k'.TableInv ∧ k'.shell = .idle ∧ k'.nextPid.toNat ≤ k.nextPid.toNat + 1 := by
  cases hs with
  | fails hk hr hc hcr hp hn hsh =>
    have hnext : k.nextPid.toNat ≤ k'.nextPid.toNat ∧ k'.nextPid.toNat ≤ k.nextPid.toNat + 1 := by
      rcases hn with hn | hn <;> rw [hn]
      · omega
      · rw [(nextPid_succ hlt).2]
        omega
    refine ⟨of_idle (hsh.trans hi) (hr h.ready) (fun hc' => ?_) ?_ (Nat.lt_of_lt_of_le h.pos hnext.1),
      hsh.trans hi, hnext.2⟩
    · rw [hk.live, Sched.current, hc]
      exact h.current (by omega)
    · rw [hp]
      exact ((h.agree_of_idle hi).keeps hk).mono (by exact_mod_cast hnext.1)

theorem spawn_some (h : k.TableInv) (hi : k.shell = .idle) (hlt : k.nextPid.toNat < 2 ^ 31 - 1) {slot : Nat}
    {p : Process} (hs : Spawns k (some (slot, p)) k') :
    k'.sched.Ready ∧ k'.sched.CurrentLive ∧ Agree k'.sched (k'.setProc slot p).procs k'.nextPid.toNat ∧
    k'.shell = .idle ∧ k'.nextPid.toNat = k.nextPid.toNat + 1 := by
  obtain ⟨hpid, hsucc⟩ := nextPid_succ hlt
  cases hs with
  | starts hslot ht hd hs hp hn hsh =>
    rename_i t stack pml4 prog
    obtain ⟨hslot, hdead, -⟩ := allocProcessSlot_eq_some hslot
    obtain ⟨h0, h1⟩ := h.ready.ne_of_dead hd
    have hcur : 0 ≤ k.sched.currentTid → k.sched.current ≠ t := fun hc he => hd (he ▸ h.current hc)
    rw [setProc_procs, hs, hp, hn, hsucc, hpid]
    refine ⟨h.ready.modify h0 h1 fun _ => rfl, fun hc => ?_, ?_, hsh.trans hi, rfl⟩
    · rw [Sched.modify_current, Sched.modify_tasks_of_ne (hcur hc)]
      exact h.current hc
    · refine (h.agree_of_idle hi).spawn (by exact_mod_cast h.pos) hdead hslot ht hd ⟨rfl, rfl⟩ rfl rfl ⟨rfl, ?_, ?_, ?_⟩
      · exact ⟨by rw [Sched.modify_tasks_same]; exact Or.inl rfl, by rw [Sched.modify_tasks_same]; rfl⟩
      · rw [Sched.modify_tasks_same]
        rfl
      · rw [Sched.modify_tasks_same]
        exact ⟨_, rfl, rfl⟩

theorem processSpawnFromElf (h : k.TableInv) (hi : k.shell = .idle) (hlt : k.nextPid.toNat < 2 ^ 31 - 1)
    (hs : k.processSpawnFromElf img = .ok (pid, k')) :
    k'.TableInv ∧ k'.shell = .idle ∧ k'.nextPid.toNat ≤ k.nextPid.toNat + 1 := by
  unfold Kernel.processSpawnFromElf at hs
  obtain ⟨⟨found, k₁⟩, hprep, hs⟩ := of_bind_eq_ok hs
  have hsp := prepareSpawn_tables hprep
  cases found with
  | none =>
    cases hs
    exact h.spawn_none hi hlt hsp
  | some found =>
    obtain ⟨slot, p⟩ := found
    cases hs
    obtain ⟨hr, hc, ha, hsh, hn⟩ := h.spawn_some hi hlt hsp
    exact ⟨of_idle hsh hr hc ha (by rw [setProc_nextPid]; omega), hsh, by rw [setProc_nextPid]; omega⟩

theorem shellSpawn (h : k.TableInv) (hi : k.shell = .idle) (hlt : k.nextPid.toNat < 2 ^ 31 - 1)
    (hs : k.shellSpawn img = .ok k') : k'.TableInv ∧ k'.nextPid.toNat ≤ k.nextPid.toNat + 1 := by
  unfold Kernel.shellSpawn at hs
  obtain ⟨⟨found, k₁⟩, hprep, hs⟩ := of_bind_eq_ok hs
  have hsp := prepareSpawn_tables hprep
  cases found with
  | none =>
    cases hs
    obtain ⟨h1, -, h2⟩ := h.spawn_none hi hlt hsp
    exact ⟨h1, h2⟩
  | some found =>
    obtain ⟨slot, p⟩ := found
    cases hs
    obtain ⟨hr, hc, ha, hsh, hn⟩ := h.spawn_some hi hlt hsp
    exact ⟨⟨hr, hc, ha, by rw [withShell_nextPid]; omega, nofun⟩, by rw [withShell_nextPid]; omega⟩

theorem processSpawnFromElf_pid (hs : k.processSpawnFromElf img = .ok (pid, k')) :
    pid = -1 ∨ pid = k.nextPid.toInt := by
  unfold Kernel.processSpawnFromElf at hs
  obtain ⟨⟨found, k₁⟩, hprep, hs⟩ := of_bind_eq_ok hs
  have hsp := prepareSpawn_tables hprep
  cases found with
  | none =>
    cases hs
    exact Or.inl rfl
  | some found =>
    cases hs
    cases hsp
    exact Or.inr rfl

/-- `sys_spawn` does not reschedule: its result is neither `0` nor `-11`. -/
theorem syscallSpawn (h : k.TableInv) (hlt : k.nextPid.toNat < 2 ^ 31 - 1) {img : Option Image}
    (hs : k.syscallDispatch frame (.spawn img) = .ok (next, k')) :
    (img = none ∧ k' = k) ∨ ∃ img' pid, img = some img' ∧ k.processSpawnFromElf img' = .ok (pid, k') := by
  unfold syscallDispatch at hs
  cases img with
  | none =>
    change k.syscallReturn frame (Sched.retErr 12) = _ at hs
    rw [Kernel.syscallReturn, if_neg (by decide)] at hs
    cases hs
    exact Or.inl ⟨rfl, rfl⟩
  | some img =>
    obtain ⟨⟨ret, k₁⟩, hsp, hs⟩ := of_bind_eq_ok hs
    obtain ⟨⟨pid, k₂⟩, hspawn, hret⟩ := of_bind_eq_ok hsp
    cases hret
    have hne : ¬Sched.Reschedules (if pid < 0 then Sched.retErr 12 else BitVec.ofInt 64 pid) := by
      rcases processSpawnFromElf_pid hspawn with rfl | rfl
      · decide
      · rw [(nextPid_succ hlt).1, if_neg (by omega), BitVec.ofInt_natCast]
        have hpos := h.pos
        have hval : (BitVec.ofNat 64 k.nextPid.toNat).toNat = k.nextPid.toNat := by
          rw [BitVec.toNat_ofNat, Nat.mod_eq_of_lt (by omega)]
        rintro (he | he) <;> rw [he] at hval
        · rw [show (Sched.retErr 11).toNat = 2 ^ 64 - 11 from rfl] at hval
          omega
        · rw [show (0 : Word).toNat = 0 from rfl] at hval
          omega
    change k₁.syscallReturn frame _ = _ at hs
    rw [Kernel.syscallReturn, if_neg hne] at hs
    cases hs
    exact Or.inr ⟨img, pid, rfl, hspawn⟩

/-! ### The shell -/

theorem live_of_killSlot {s : Sched} {t : Nat} (h : s.killSlot pid = some t) :
    t < maxTasks ∧ (s.tasks t).Live ∧ (s.tasks t).pid = pid := by
  obtain ⟨ht, hpid, hnew, hz⟩ := Sched.killSlot_eq_some h
  refine ⟨ht, ?_, hpid⟩
  unfold Task.Live
  cases hst : (s.tasks t).state <;> simp_all

/-- What `process_kill` does: it finds no live user task with the pid, or ends the one there is. -/
theorem beginKill_cases (ha : Agree k.sched k.procs k.nextPid.toNat) (hr : k.sched.Ready) (pid code : Int) :
    (∃ res, res ≠ 0 ∧ k.beginKill pid code = (res, none, k) ∧
      ∀ t < maxTasks, k.sched.LiveUser t → (k.sched.tasks t).pid ≠ pid) ∨
    ∃ i < maxProcesses, ∃ t < maxTasks, (k.procs i).Active ∧ (k.procs i).RunsAs k.sched t ∧ (k.procs i).pid = pid ∧
      k.beginKill pid code = (0, some i, k.withSched (k.sched.ended t code)) := by
  -- A live user task with the pid is found by its entry.
  have hnone : (∀ i < maxProcesses, (k.procs i).pid = pid → ¬(k.procs i).Active) →
      ∀ t < maxTasks, k.sched.LiveUser t → (k.sched.tasks t).pid ≠ pid := by
    rintro hno t ht hl rfl
    obtain ⟨i, hi, hact, hrun⟩ := ha.entry_of_live ht hl
    exact hno i hi hrun.pid.symm hact
  unfold beginKill
  cases hf : k.findProcessByPid pid with
  | none =>
    refine Or.inl ⟨-1, by decide, rfl, hnone fun i hi hpid hact => ?_⟩
    have := firstProc_eq_none hf hi
    simp [hact.1, hpid] at this
  | some i =>
    obtain ⟨hi, hq⟩ := firstProc_eq_some hf
    simp only [Bool.and_eq_true, decide_eq_true_eq] at hq
    obtain ⟨hu, rfl⟩ := hq
    dsimp only
    by_cases he : (k.procs i).exited = true
    · refine Or.inl ⟨1, by decide, if_pos he, hnone fun j hj hpid hact => ?_⟩
      rw [ha.distinct j hj i hi hact.1 hu hpid] at hact
      simp [hact.2] at he
    · have hact : (k.procs i).Active := ⟨hu, by simpa using he⟩
      obtain ⟨t, ht, hrun⟩ := ha.active i hi hact
      have hpos := (ha.range i hi hu).1
      have hslot : k.sched.killSlot (k.procs i).pid = some t := by
        cases hk : k.sched.killSlot (k.procs i).pid with
        | none =>
          have := Sched.firstSlot_eq_none hk t ht
          rcases hrun.live.1 with hst | hst | hst <;> simp [hrun.pid, hst] at this
        | some u =>
          obtain ⟨hu', hlive, hpid⟩ := live_of_killSlot hk
          obtain ⟨h0, h1⟩ := hr.ne_of_pid (hpid ▸ hpos)
          obtain ⟨j, hj, hactj, hrunj⟩ := ha.entry_of_live hu' ⟨hlive, hr.users u h0 h1 hlive⟩
          obtain rfl := ha.distinct j hj i hi hactj.1 hu (by rw [← hrunj.pid, hpid])
          have := hrun.tid
          have := hrunj.tid
          congr 1
          omega
      refine Or.inr ⟨i, hi, t, ht, hact, hrun, rfl, ?_⟩
      have hkill : k.sched.taskKillPid (k.procs i).pid code = (0, k.sched.ended t code) := by
        unfold Sched.taskKillPid
        rw [if_neg (by omega), hslot, Sched.ended]
      rw [if_neg he, hkill, if_neg (by simp)]

theorem shellKill (h : k.TableInv) (hi : k.shell = .idle) (hsh : k.InShell) (pid code : Int) :
    (k.shellKill pid code).TableInv ∧ (k.shellKill pid code).nextPid = k.nextPid := by
  have ha := h.agree_of_idle hi
  unfold Kernel.shellKill
  rcases beginKill_cases ha h.ready pid code with ⟨res, -, he, -⟩ | ⟨i, hlt, t, ht, hact, hrun, -, he⟩ <;> rw [he]
  · exact ⟨h, rfl⟩
  · obtain ⟨h0, h1⟩ := h.ready.ne_of_user hrun.live.2
    have hready := h.ready.ended code h0 h1
    refine ⟨⟨hready, fun _ => ?_, ha.ended code hlt hact hrun hact.1 rfl rfl, h.pos, nofun⟩, rfl⟩
    have hcur : (k.sched.ended t code).current = 0 := by simp [Sched.current, Sched.ended, hsh.1]
    exact hcur.symm ▸ hready.shell.1

theorem processWaitPoll (h : k.TableInv) (hi : k.shell = .idle) (pid : Int) :
    (k.processWaitPoll pid).2.TableInv ∧ (k.processWaitPoll pid).2.nextPid = k.nextPid := by
  rcases k.processWaitPoll_cases pid with he | ⟨i, hexited, he⟩ <;> rw [he]
  · exact ⟨h, rfl⟩
  · refine ⟨of_idle hi h.ready h.current ?_ h.pos, rfl⟩
    exact (h.agree_of_idle hi).update_dead (fun hact => by simp [hact.2] at hexited) (Or.inl ⟨rfl, rfl⟩)

theorem settle_reapFrom (k : Kernel) (slot : Nat) (current : AsPtr) :
    (k.reapFrom slot current).settle = k.reapFrom slot current := by
  unfold reapFrom settle
  by_cases hs : slot < maxProcesses <;> simp [hs]

theorem reapFrom (hr : k.sched.Ready) (hc : k.sched.CurrentLive) (ha : Agree k.sched k.procs k.nextPid.toNat)
    (hp : 0 < k.nextPid.toNat) (slot : Nat) (current : AsPtr) : (k.reapFrom slot current).TableInv := by
  refine ⟨hr, hc, by rw [settle_reapFrom]; exact ha, hp, fun {i c} h => ?_⟩
  simp only [Kernel.reapFrom, withShell_shell] at h
  split at h
  · rename_i hs
    cases h
    exact hs
  · cases h

/-- The shell goes on: the writes that it was about to make are made, and the next ones are prepared. -/
theorem resumeShell (h : k.TableInv) : k.resumeShell.TableInv ∧ k.resumeShell.nextPid = k.nextPid := by
  have ha := h.agree
  unfold settle at ha
  unfold Kernel.resumeShell
  cases hsh : k.shell with
  | idle => exact ⟨h, rfl⟩
  | record slot p =>
    rw [hsh] at ha
    exact ⟨of_idle rfl h.ready h.current ha h.pos, rfl⟩
  | mark slot code =>
    rw [hsh] at ha
    exact ⟨of_idle rfl h.ready h.current ha h.pos, rfl⟩
  | clear slot current =>
    rw [hsh] at ha
    exact ⟨reapFrom (k := k.clearEntry slot) h.ready h.current ha h.pos _ _, rfl⟩
  | reap slot current =>
    rw [hsh] at ha
    dsimp only at ha ⊢
    have hslot := h.slot hsh
    rcases k.reapSpace_cases current slot with he | ⟨hu, hr, ⟨-, he⟩ | ⟨a, -, -, he⟩⟩ <;> rw [he]
    · exact ⟨reapFrom h.ready h.current ha h.pos _ _, rfl⟩
    · exact ⟨⟨h.ready, h.current, agree_clearEntry ha hslot hu hr, h.pos, nofun⟩, rfl⟩
    · exact ⟨⟨h.ready, h.current, agree_clearEntry ha hslot hu hr, h.pos, nofun⟩, rfl⟩

end TableInv

/-! ### Every run -/

/-- The event is a call of `process_spawn_from_elf`. -/
def spawns : KernelEvent → Bool
  | .bootSpawn _ | .spawn _ | .syscall _ (.spawn _) => true
  | _ => false

namespace TableInv
variable {k k' : Kernel}

theorem step {e : KernelEvent} (h : k.TableInv) (hlt : spawns e = true → k.nextPid.toNat < 2 ^ 31 - 1)
    (hok : k.Undisturbed e) (hs : k.step e k') :
    k'.TableInv ∧ k'.nextPid.toNat ≤ k.nextPid.toNat + if spawns e then 1 else 0 := by
  have hidle : e ≠ .resume → k.shell = .idle := fun hne => by
    by_contra hc
    exact hne (hok hc)
  have hsame : ∀ {k' : Kernel}, k'.TableInv ∧ k'.nextPid = k.nextPid →
      k'.TableInv ∧ k'.nextPid.toNat ≤ k.nextPid.toNat + if spawns e then 1 else 0 := by
    rintro k' ⟨h1, h2⟩
    exact ⟨h1, by rw [h2]; omega⟩
  cases e with
  | bootSpawn img =>
    obtain ⟨-, pid, hs⟩ := hs
    obtain ⟨h1, -, h2⟩ := h.processSpawnFromElf (hidle (by simp)) (hlt rfl) hs
    exact ⟨h1, h2⟩
  | createSpace =>
    obtain ⟨-, as, machine, -, rfl⟩ := hs
    have hi := hidle (by simp)
    exact hsame ⟨of_idle hi h.ready h.current (h.agree_of_idle hi) h.pos, rfl⟩
  | mapPage as virt flags =>
    obtain ⟨-, -, ok, machine, -, rfl⟩ := hs
    have hi := hidle (by simp)
    exact hsame ⟨of_idle hi h.ready h.current (h.agree_of_idle hi) h.pos, rfl⟩
  | schedule =>
    obtain ⟨-, next, hs⟩ := hs
    have hi := hidle (by simp)
    obtain ⟨h1, -, h2⟩ := contextSwitchFrom h.ready (h.agree_of_idle hi) h.pos hi hs
    exact hsame ⟨h1, h2⟩
  | tick rsp =>
    obtain ⟨next, hs⟩ := hs
    obtain ⟨h1, -, h2⟩ := h.scheduleOnTick (hidle (by simp)) hs
    exact hsame ⟨h1, h2⟩
  | wake tid =>
    obtain rfl := hs
    have hi := hidle (by simp)
    have hk := Sched.Keeps.taskWake k.sched tid
    have hcur := k.sched.taskWake_currentTid tid
    refine hsame ⟨of_idle hi (h.ready.taskWake tid) (fun hc => (hk.live _).mpr ?_)
      ((h.agree_of_idle hi).keeps hk) h.pos, rfl⟩
    rw [withSched_sched, Sched.current, hcur] at *
    exact h.current hc
  | store virt b =>
    obtain ⟨-, phys, -, rfl⟩ := hs
    have hi := hidle (by simp)
    exact hsame ⟨of_idle hi h.ready h.current (h.agree_of_idle hi) h.pos, rfl⟩
  | syscall frame call =>
    obtain ⟨hu, next, hs⟩ := hs
    have hi := hidle (by simp)
    cases call with
    | exit code =>
      obtain ⟨h1, -, h2⟩ := h.syscallExit hi hu hs
      exact hsame ⟨h1, h2⟩
    | spawn img =>
      rcases h.syscallSpawn (hlt rfl) hs with ⟨-, rfl⟩ | ⟨img', pid, -, hsp⟩
      · exact hsame ⟨h, rfl⟩
      · obtain ⟨h1, -, h2⟩ := h.processSpawnFromElf hi (hlt rfl) hsp
        exact ⟨h1, h2⟩
    | write ptr len | yield | getpid | unknown =>
      obtain ⟨h1, -, h2⟩ := h.syscallReturn hi hu hs
      exact hsame ⟨h1, h2⟩
  | spawn img =>
    obtain ⟨-, hi, hs⟩ := hs
    exact h.shellSpawn hi (hlt rfl) hs
  | kill pid code =>
    obtain ⟨hsh, hi, rfl⟩ := hs
    exact hsame (h.shellKill hi hsh pid code)
  | reap =>
    obtain ⟨-, hi, rfl⟩ := hs
    exact hsame ⟨reapFrom h.ready h.current (h.agree_of_idle hi) h.pos _ _, rfl⟩
  | wait pid =>
    obtain ⟨-, hi, rfl⟩ := hs
    exact hsame (h.processWaitPoll hi pid)
  | sleep =>
    obtain ⟨hsh, hi, sched, hs, rfl⟩ := hs
    obtain ⟨hk, hr, hc⟩ := h.ready.sleep hsh.1 hsh.2 hs
    exact hsame ⟨of_idle hi hr hc ((h.agree_of_idle hi).keeps hk) h.pos, rfl⟩
  | resume =>
    obtain ⟨-, -, rfl⟩ := hs
    exact hsame h.resumeShell

theorem initMemory_tables {boot : BootInfo} {img : KernelImage} {mem : Mem} {bytes : Nat → BitVec 8} {k₀ : Kernel}
    (h : initMemory boot img mem bytes = .ok k₀) (hs : k₀.runHeapSmokeTests = .ok k) :
    (∃ pml4, k.sched = Sched.taskInit pml4) ∧ k.procs = (fun _ => .blank) ∧ k.nextPid = 1 ∧ k.shell = .idle := by
  unfold initMemory at h
  generalize Paging.pagingInit boot img mem = tables at h
  obtain ⟨pml4, arena⟩ := tables
  generalize Pmm.pmmInit boot img (arena.nextFreeTable * 4096) bytes = pmm at h
  dsimp only at h
  obtain ⟨heap, -, h⟩ := of_bind_eq_ok h
  split at h <;> cases h
  obtain ⟨hsched, hprocs, hpid, hshell⟩ := sameTables_runHeapSmokeTests hs
  exact ⟨⟨_, hsched⟩, hprocs, hpid, hshell⟩

theorem boot {fw : BootInfo} {img : KernelImage} {mem : Mem} {bytes : Nat → BitVec 8} {shellEntry idleEntry : Word}
    (h : Kernel.boot fw img mem bytes shellEntry idleEntry = .ok (some 0, some 1, k)) : k.TableInv ∧ k.nextPid = 1 := by
  unfold Kernel.boot at h
  obtain ⟨k₀, h₀, h⟩ := of_bind_eq_ok h
  obtain ⟨k₀', ht₀, h⟩ := of_bind_eq_ok h
  obtain ⟨⟨shellId, k₁⟩, h₁, h⟩ := of_bind_eq_ok h
  obtain ⟨⟨idleId, k₂⟩, h₂, h⟩ := of_bind_eq_ok h
  cases h
  obtain ⟨⟨pml4, hs⟩, hp, hn, hsh⟩ := initMemory_tables h₀ ht₀
  obtain ⟨hc₁, hp₁, hn₁, hsh₁⟩ := taskCreate_tables h₁
  obtain ⟨hc₂, hp₂, hn₂, hsh₂⟩ := taskCreate_tables h₂
  rw [hp₁, hp] at hp₂
  rw [hn₁, hn] at hn₂
  rw [hs] at hc₁
  generalize k₁.sched = s₁ at hc₁ hc₂
  generalize hsched : k.sched = s₂ at hc₂
  cases hc₁ with
  | created ht₁ hd₁ hst₁ =>
    cases hc₂ with
    | created ht₂ hd₂ hst₂ =>
      -- Task 0 is the shell, task 1 the idle task, and the other slots are blank.
      have hblank : ∀ t, t ≠ 0 → t ≠ 1 → k.sched.tasks t = .blank := fun t h0 h1 => by
        rw [hsched, Sched.modify_tasks_of_ne h1, Sched.modify_tasks_of_ne h0]
        rfl
      have hlive : ∀ t, t ≠ 0 → t ≠ 1 → ¬(k.sched.tasks t).Live := fun t h0 h1 hl => by
        rw [hblank t h0 h1] at hl
        simp [Task.Live, Task.blank] at hl
      have hready : k.sched.Ready := by
        refine ⟨by rw [hsched]; simp [Sched.taskInit, maxTasks], ?_, ?_, fun t h0 h1 hl => absurd hl (hlive t h0 h1)⟩
        · rw [hsched, Sched.modify_tasks_of_ne (by decide), Sched.modify_tasks_same]
          exact ⟨Or.inl rfl, rfl, rfl, rfl⟩
        · rw [hsched, Sched.modify_tasks_same]
          exact ⟨Or.inl rfl, rfl, rfl, rfl⟩
      refine ⟨of_idle (by rw [hsh₂, hsh₁, hsh]) hready (fun hc => absurd hc (by rw [hsched]; simp [Sched.taskInit])) ?_
        (by rw [hn₂]; decide), hn₂⟩
      rw [hp₂]
      refine ⟨fun i _ j _ h => by simp [Process.blank] at h, fun i _ _ => rfl,
        fun i _ h => by
          simp [Process.blank] at h, fun i _ h => by
            simp [Process.blank] at h, fun i _ h => by simp [Process.Active, Process.blank] at h,
        fun t ht hl => absurd hl.1 (hlive t ?_ ?_)⟩
      · exact (hready.ne_of_user hl.2).1
      · exact (hready.ne_of_user hl.2).2

end TableInv

/-- The two tables agree: pids are distinct, an entry is used and not exited exactly when `tasks[main_tid]` is a live
    user task with its pid and address space, and each live user task has exactly one such entry. -/
structure TablesAgree (k : Kernel) : Prop where
  distinct : ∀ i < maxProcesses, ∀ j < maxProcesses, (k.procs i).used = true → (k.procs j).used = true →
    (k.procs i).pid = (k.procs j).pid → i = j
  active : ∀ i < maxProcesses, ((k.procs i).used = true ∧ (k.procs i).exited = false) ↔
    ∃ t < maxTasks, (k.procs i).RunsAs k.sched t
  entry : ∀ t < maxTasks, k.sched.LiveUser t →
    ∃! i, i < maxProcesses ∧ (k.procs i).Active ∧ (k.procs i).RunsAs k.sched t
  count : k.processCountActive = (List.range maxTasks).countP fun t => decide (k.sched.LiveUser t)
  kill : ∀ pid code, (k.processKill pid code).1 = 0 ↔ ∃ t < maxTasks, k.sched.LiveUser t ∧ (k.sched.tasks t).pid = pid

theorem TableInv.tablesAgree (h : k.TableInv) (hi : k.shell = .idle) : k.TablesAgree := by
  have ha := h.agree_of_idle hi
  refine ⟨ha.distinct, fun i hlt => ha.active_iff hlt, fun t ht hl => ?_, ha.count_eq, fun pid code => ?_⟩
  · obtain ⟨i, hlt, hact, hrun⟩ := ha.entry_of_live ht hl
    refine ⟨i, ⟨hlt, hact, hrun⟩, ?_⟩
    rintro j ⟨hj, hactj, hrunj⟩
    exact ha.tid_inj hj hlt hactj hact (by rw [hrunj.tid, hrun.tid])
  · unfold processKill
    rcases TableInv.beginKill_cases ha h.ready pid code with
      ⟨res, hres, he, hno⟩ | ⟨i, hlt, t, ht, hact, hrun, hpid, he⟩ <;>
      rw [he]
    · exact ⟨fun h0 => absurd h0 hres, fun ⟨t, ht, hl, hpid⟩ => absurd hpid (hno t ht hl)⟩
    · exact ⟨fun _ => ⟨t, ht, hrun.live, by rw [hrun.pid, hpid]⟩, fun _ => rfl⟩

end Kernel
end SamOS
