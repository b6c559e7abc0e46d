import SamOS.Task
import SamOS.Lib.Lts
import Mathlib.Data.List.Nodup

/-! Scheduler consistency. Whatever the order of task creation, ticks, system calls, sleeps, wakes, kills and exits, a
    task is `RUNNING` only if it is the current one, and each scheduling step that leaves a current task leaves it
    `RUNNING`. -/

namespace SamOS
open Function
namespace Sched

/-! ### Slots and updates -/

variable {i rsp kernelPml4 next : Nat} {s s' : Sched}

theorem firstSlot_eq_some {p : Nat → Bool} (h : firstSlot p = some i) :
    i < maxTasks ∧ p i = true ∧ ∀ j < i, p j = false := by
  obtain ⟨hp, hi, hlt⟩ := List.find?_range_eq_some.mp h
  exact ⟨List.mem_range.mp hi, hp, fun j hj => by simpa using hlt j hj⟩

theorem firstSlot_eq_none {p : Nat → Bool} (h : firstSlot p = none) : ∀ i < maxTasks, p i = false := by
  intro i hi
  simpa using List.find?_range_eq_none.mp h i hi

section Modify
variable (s : Sched) (i j : Nat) (f : Task → Task)

@[simp] theorem modify_currentTid : (s.modify i f).currentTid = s.currentTid := rfl
@[simp] theorem modify_current : (s.modify i f).current = s.current := rfl
@[simp] theorem modify_cr3 : (s.modify i f).cr3 = s.cr3 := rfl

theorem modify_tasks : (s.modify i f).tasks j = if j = i then f (s.tasks i) else s.tasks j := by
  simp only [modify, update_apply]

@[simp] theorem modify_tasks_same : (s.modify i f).tasks i = f (s.tasks i) := by
  simp [modify_tasks]

@[simp] theorem modify_tasks_of_ne {s : Sched} {i j : Nat} {f : Task → Task} (h : j ≠ i) :
    (s.modify i f).tasks j = s.tasks j := by
  simp [modify_tasks, h]

theorem modify_eq_self {s : Sched} {i : Nat} {f : Task → Task} (h : f (s.tasks i) = s.tasks i) : s.modify i f = s := by
  unfold modify
  rw [h, update_eq_self]

end Modify

/-! ### Task calls -/

theorem taskWake_cases (s : Sched) (tid : Int) : s.taskWake tid = s ∨
    (0 ≤ tid ∧ (s.tasks tid.toNat).state = .waiting ∧ s.taskWake tid = s.modify tid.toNat fun t =>
      { t with state := .runnable }) := by
  unfold taskWake
  split
  · exact Or.inl rfl
  · split
    · rename_i hwait
      exact Or.inr ⟨by omega, hwait, rfl⟩
    · exact Or.inl rfl

theorem taskWake_currentTid (s : Sched) (tid : Int) : (s.taskWake tid).currentTid = s.currentTid := by
  rcases s.taskWake_cases tid with he | ⟨-, -, he⟩ <;> rw [he]
  rfl

theorem taskSleep_eq_ok (h : s.taskSleep = .ok s') :
    0 ≤ s.currentTid ∧ s' = s.modify s.current fun t => { t with state := .waiting } := by
  unfold taskSleep at h
  split at h
  · cases h
  · split at h
    · cases h
    · exact ⟨by omega, (Except.ok.inj h).symm⟩

theorem taskExit_eq_ok {code : Int} (h : s.taskExit code = .ok s') :
    0 ≤ s.currentTid ∧ s' = s.modify s.current fun t => { t with exitCode := code, state := .zombie } := by
  unfold taskExit at h
  split at h
  · cases h
  · exact ⟨by omega, (Except.ok.inj h).symm⟩

/-- `task_kill_pid` does nothing, or ends the task with that positive pid. -/
theorem taskKillPid_eq (s : Sched) (pid code : Int) : (s.taskKillPid pid code).2 = s ∨
    ∃ i, 0 < pid ∧ s.killSlot pid = some i ∧
      (s.taskKillPid pid code).2 = s.modify i fun t => { t with exitCode := code, state := .zombie } := by
  unfold taskKillPid
  split
  · exact Or.inl rfl
  · cases hk : s.killSlot pid with
    | none => exact Or.inl rfl
    | some i => exact Or.inr ⟨i, by omega, rfl, rfl⟩

/-- The free slot is not that of a live task, and it gives up its stack. -/
theorem findFreeSlot_eq_some {freed : Nat} (h : s.findFreeSlot = some (i, freed, s')) :
    i < maxTasks ∧ ¬(s.tasks i).Live ∧ freed = (s.tasks i).kernelStack ∧
    s' = s.modify i fun t => { t with kernelStack := 0 } := by
  -- The first two passes find a slot without a stack, where clearing the stack changes nothing.
  have clear : ∀ {i}, (s.tasks i).kernelStack = 0 → s = s.modify i fun t => { t with kernelStack := 0 } := by
    intro i hk
    refine (modify_eq_self ?_).symm
    rw [← hk]
  have dead : ∀ {i}, (s.tasks i).state = .zombie ∨ (s.tasks i).state = .new → ¬(s.tasks i).Live := by
    rintro i hst hl
    rcases hst with hst | hst <;> simp [Task.Live, hst] at hl
  unfold findFreeSlot at h
  split at h
  · rename_i j hj
    obtain ⟨hlt, hp, -⟩ := firstSlot_eq_some hj
    simp only [Bool.and_eq_true, decide_eq_true_eq] at hp
    cases h
    exact ⟨hlt, dead hp.1, hp.2.symm, clear hp.2⟩
  · split at h
    · rename_i j hj
      obtain ⟨hlt, hp, -⟩ := firstSlot_eq_some hj
      simp only [Bool.and_eq_true, decide_eq_true_eq] at hp
      cases h
      exact ⟨hlt, dead (Or.inr hp.2), hp.1.symm, clear hp.1⟩
    · split at h
      · rename_i j hj
        obtain ⟨hlt, hp, -⟩ := firstSlot_eq_some hj
        simp only [decide_eq_true_eq] at hp
        cases h
        exact ⟨hlt, dead (Or.inl hp), rfl, rfl⟩
      · cases h

theorem taskCreate_of_slot {s₁ : Sched} {slot freed stack : Nat} {pid : Int} {cr3 : Nat} {isUser : Bool} {as : AsPtr}
    (h : s.findFreeSlot = some (slot, freed, s₁)) :
    (s.taskCreate stack pid cr3 isUser as).2.2 = if stack = 0 then s₁ else s₁.install slot stack pid cr3 isUser as := by
  unfold taskCreate
  rw [h]
  dsimp only
  split <;> rfl

/-- What a creation does: there is no slot, the slot is cleared and no stack is found, or the slot is filled. -/
theorem taskCreate_cases (s : Sched) (stack : Nat) (pid : Int) (cr3 : Nat) (isUser : Bool) (as : AsPtr) :
    (s.findFreeSlot = none ∧ s.taskCreate stack pid cr3 isUser as = (-1, 0, s)) ∨
    ∃ i < maxTasks, ¬(s.tasks i).Live ∧ (∃ freed s₁, s.findFreeSlot = some (i, freed, s₁)) ∧
      ((stack = 0 ∧ s.taskCreate stack pid cr3 isUser as =
          (-1, (s.tasks i).kernelStack, s.modify i fun t => { t with kernelStack := 0 })) ∨
        (stack ≠ 0 ∧ s.taskCreate stack pid cr3 isUser as =
          ((i : Int), (s.tasks i).kernelStack, s.install i stack pid cr3 isUser as))) := by
  unfold taskCreate
  cases hslot : s.findFreeSlot with
  | none => exact Or.inl ⟨rfl, rfl⟩
  | some found =>
    obtain ⟨i, freed, s'⟩ := found
    obtain ⟨hi, hdead, rfl, rfl⟩ := findFreeSlot_eq_some hslot
    refine Or.inr ⟨i, hi, hdead, ⟨_, _, rfl⟩, ?_⟩
    by_cases h0 : stack = 0
    · exact Or.inl ⟨h0, by simp [h0]⟩
    · refine Or.inr ⟨h0, ?_⟩
      simp only [h0, if_false, install, modify, update_idem]

theorem pickNextRunnable_eq_some (h : s.pickNextRunnable = some i) :
    i < maxTasks ∧ ((s.tasks i).state = .runnable ∨ (s.tasks i).state = .running) := by
  unfold pickNextRunnable at h
  obtain ⟨j, hj, rfl⟩ := Option.map_eq_some_iff.mp h
  obtain ⟨-, hp, -⟩ := firstSlot_eq_some hj
  exact ⟨Nat.mod_lt _ (by decide), by simpa using hp⟩

/-- The search covers every slot. -/
theorem pickNextRunnable_eq_none (h : s.pickNextRunnable = none) (hi : i < maxTasks) :
    (s.tasks i).state ≠ .runnable ∧ (s.tasks i).state ≠ .running := by
  unfold pickNextRunnable at h
  simp only [Option.map_eq_none_iff] at h
  generalize hst : (if s.currentTid < 0 then 0 else (s.current + 1) % maxTasks) = start at h
  have hlt : start < maxTasks := by
    rw [← hst]
    split
    · decide
    · exact Nat.mod_lt _ (by decide)
  -- Slot `i` is the one at distance `i - start` from the start of the search.
  have hp := firstSlot_eq_none h ((i + maxTasks - start) % maxTasks) (Nat.mod_lt _ (by decide))
  have hidx : (start + (i + maxTasks - start) % maxTasks) % maxTasks = i := by
    unfold maxTasks at *
    omega
  rw [hidx] at hp
  simpa using hp

/-! ### The context switch -/

@[simp] theorem suspend_currentTid (s : Sched) (rsp : Nat) : (s.suspend rsp).currentTid = s.currentTid := by
  unfold suspend
  split <;> rfl

@[simp] theorem suspend_current (s : Sched) (rsp : Nat) : (s.suspend rsp).current = s.current := by
  simp [current]

theorem suspend_tasks_of_ne (h : (i : Int) ≠ s.currentTid) :
    (s.suspend rsp).tasks i = s.tasks i := by
  unfold suspend
  split
  · exact modify_tasks_of_ne (by unfold current; omega)
  · rfl

/-- The state after a switch to slot `i`. -/
def switchedTo (s : Sched) (i cr3 : Nat) : Sched where
  tasks := (s.modify i fun t => { t with state := .running, timeslice := t.timeslice + 1 }).tasks
  currentTid := i
  sliceTicks := s.sliceTicks
  switchCount := s.switchCount + 1
  cr3 := cr3

@[simp] theorem switchedTo_currentTid (s : Sched) (i cr3 : Nat) : (s.switchedTo i cr3).currentTid = i := rfl
@[simp] theorem switchedTo_current (s : Sched) (i cr3 : Nat) : (s.switchedTo i cr3).current = i := rfl

@[simp] theorem switchedTo_tasks_same (s : Sched) (i cr3 : Nat) :
    (s.switchedTo i cr3).tasks i = { s.tasks i with state := .running, timeslice := (s.tasks i).timeslice + 1 } := by
  simp [switchedTo]

theorem switchedTo_tasks_of_ne {j cr3 : Nat} (h : j ≠ i) : (s.switchedTo i cr3).tasks j = s.tasks j := by
  simp [switchedTo, h]

/-- What a context switch does: it finds nothing to run, it stays with the current task, or it goes on to another task
    that is runnable after the suspension. -/
theorem contextSwitchFrom_cases
    (h : s.contextSwitchFrom kernelPml4 rsp = .ok (next, s')) :
    ((s.suspend rsp).pickNextRunnable = none ∧ s.currentTid < 0 ∧ next = 0 ∧ s' = s.suspend rsp) ∨
    (((s.suspend rsp).pickNextRunnable = none ∨ (s.suspend rsp).pickNextRunnable = some s.current) ∧
      0 ≤ s.currentTid ∧ next = 0 ∧ s' = (s.suspend rsp).setRunning s.current) ∨
    (∃ i cr3, (s.suspend rsp).pickNextRunnable = some i ∧ (i : Int) ≠ s.currentTid ∧
      switchAddressSpace (s.tasks i) kernelPml4 = .ok cr3 ∧ next = (s.tasks i).kernelRsp ∧
      s' = (s.suspend rsp).switchedTo i cr3) := by
  unfold contextSwitchFrom at h
  simp only at h
  cases hp : (s.suspend rsp).pickNextRunnable with
  | none =>
    simp only [hp, suspend_currentTid, suspend_current] at h
    injection h with h
    injection h with hn hs
    by_cases hc : 0 ≤ s.currentTid
    · rw [if_pos hc] at hs
      exact Or.inr (Or.inl ⟨Or.inl rfl, hc, hn.symm, hs.symm⟩)
    · rw [if_neg hc] at hs
      exact Or.inl ⟨rfl, by omega, hn.symm, hs.symm⟩
  | some i =>
    simp only [hp, suspend_currentTid] at h
    split at h
    · rename_i hi
      have hcur : i = s.current := by
        unfold current
        omega
      injection h with h
      injection h with hn hs
      rw [hcur] at hs
      exact Or.inr (Or.inl ⟨Or.inr (by rw [hcur]), by omega, hn.symm, hs.symm⟩)
    · rename_i hi
      have hti : (s.suspend rsp).tasks i = s.tasks i := suspend_tasks_of_ne hi
      cases hcr : switchAddressSpace (s.tasks i) kernelPml4 with
      | error e =>
        simp only [switchAddressSpace, modify_tasks_same, hti] at h hcr
        simp only [hcr] at h
        cases h
      | ok cr3 =>
        refine Or.inr (Or.inr ⟨i, cr3, rfl, hi, hcr, ?_⟩)
        simp only [switchAddressSpace, modify_tasks_same, hti] at h hcr
        simp only [hcr] at h
        injection h with h
        injection h with hn hs
        exact ⟨hn.symm, hs.symm⟩

/-- What a tick does: it is counted, or it switches. -/
theorem scheduleOnTick_cases (h : s.scheduleOnTick kernelPml4 rsp = .ok (next, s')) :
    (s.InSlice ∧ next = 0 ∧ s' = { s with sliceTicks := (s.sliceTicks + 1) % 2 ^ 32 }) ∨
    (¬s.InSlice ∧ { s with sliceTicks := 0 }.contextSwitchFrom kernelPml4 rsp = .ok (next, s')) := by
  unfold scheduleOnTick at h
  split at h
  · rename_i hrun
    dsimp only at h
    split at h
    · rename_i hlt
      cases h
      exact Or.inl ⟨⟨hrun.1, hrun.2, hlt⟩, rfl, rfl⟩
    · rename_i hlt
      exact Or.inr ⟨fun hin => hlt hin.2.2, h⟩
  · rename_i hrun
    exact Or.inr ⟨fun hin => hrun ⟨hin.1, hin.2.1⟩, h⟩

theorem offered_cases (s : Sched) : s.offered = s ∨ 0 ≤ s.currentTid ∧ (s.tasks s.current).state ≠ .waiting ∧
    (s.tasks s.current).state ≠ .zombie ∧ s.offered = s.modify s.current fun t => { t with state := .runnable } := by
  unfold offered
  split
  · rename_i h
    exact Or.inr ⟨h.1, h.2.1, h.2.2, rfl⟩
  · exact Or.inl rfl

/-- What the end of a system call does: it switches, or it returns to the calling task. -/
theorem syscallReturn_cases {frame : Nat} {ret : BitVec 64}
    (h : s.syscallReturn kernelPml4 frame ret = .ok (next, s')) :
    (Reschedules ret ∧ frame ≠ 0 ∧ s.offered.contextSwitchFrom kernelPml4 frame = .ok (next, s')) ∨
    (¬Reschedules ret ∧ next = 0 ∧ s' = s) := by
  unfold syscallReturn taskScheduleFromInterrupt at h
  split at h
  · rename_i hret
    split at h
    · cases h
    · rename_i hf
      exact Or.inl ⟨hret, hf, h⟩
  · rename_i hret
    cases h
    exact Or.inr ⟨hret, rfl, rfl⟩

/-! ### Runs -/

/-- The scheduler, and whether control is with the code of the current task: a scheduling step handed it over and the
    task has not begun to sleep or exit since. -/
structure SchedRun where
  sched : Sched
  inTask : Bool

/-- The calls of `task.c` in any order. `schedule_on_tick` is reached from the timer and from `int $0x20`; `stack` is
    what `kmalloc` returns, `frame` and `rsp` are where the interrupt left its frame. -/
inductive SchedEvent where
  | createKernel (stack : Nat)
  | createUser (stack : Nat) (pid : Int) (as : AsPtr) (pml4 : Nat)
  | schedule
  | tick (rsp : Nat)
  | syscall (frame : Nat) (ret : BitVec 64)
  | sysExit (frame : Nat) (code : Int)
  | sleep
  | wake (tid : Int)
  | kill (pid code : Int)
  | exit (code : Int)

/-- The result of a scheduling step: control goes to the current task if there is one. -/
def SchedRun.HandsOver (result : Except String (Nat × Sched)) (r : SchedRun) : Prop :=
  ∃ next, result = .ok (next, r.sched) ∧ r.inTask = decide (0 ≤ r.sched.currentTid)

/-- One call. A user task is created with the address space that `vmm_create_address_space` returned. -/
def SchedRun.step (kernelPml4 : Nat) (r : SchedRun) : SchedEvent → SchedRun → Prop
  | .createKernel stack, r' => r' = { r with sched := (r.sched.taskCreateKernel kernelPml4 stack).2.2 }
  | .createUser stack pid as pml4, r' =>
    as ≠ .null ∧ pml4 ≠ 0 ∧ r' = { r with sched := (r.sched.taskCreateUser stack pid as pml4).2.2 }
  | .schedule, r' => r'.HandsOver (r.sched.schedule kernelPml4)
  | .tick rsp, r' => r'.HandsOver (r.sched.scheduleOnTick kernelPml4 rsp)
  | .syscall frame ret, r' =>
    if ret = retErr 11 ∨ ret = 0 then r'.HandsOver (r.sched.syscallReturn kernelPml4 frame ret) else r' = r
  | .sysExit frame code, r' => r'.HandsOver ((r.sched.sysExit code).syscallReturn kernelPml4 frame (retErr 11))
  | .sleep, r' => r.sched.taskSleep = .ok r'.sched ∧ r'.inTask = false
  | .wake tid, r' => r' = { r with sched := r.sched.taskWake tid }
  | .kill pid code, r' =>
    r'.sched = (r.sched.taskKillPid pid code).2 ∧
    r'.inTask = (r.inTask && !decide (0 < pid ∧ r.sched.killSlot pid = some r.sched.current))
  | .exit code, r' => r.sched.taskExit code = .ok r'.sched ∧ r'.inTask = false

/-- All runs from `task_init`. -/
def schedRuns (kernelPml4 : Nat) : Lts.System SchedRun SchedEvent where
  init r := ∃ cr3, r = { sched := taskInit cr3, inTask := false }
  step := SchedRun.step kernelPml4

/-! ### The invariant -/

/-- Only the current task is `RUNNING`, it has been created, and user tasks have an address space. -/
structure Inv (s : Sched) : Prop where
  bound : s.currentTid < maxTasks
  only : ∀ i < maxTasks, (s.tasks i).state = .running → (i : Int) = s.currentTid
  begun : 0 ≤ s.currentTid → (s.tasks s.current).state ≠ .new
  spaces : ∀ i < maxTasks, (s.tasks i).isUser = true → (s.tasks i).state ≠ .new →
    (s.tasks i).addressSpace ≠ .null ∧ (s.tasks i).cr3 ≠ 0

/-- Control is with the current task: it is the `RUNNING` one. -/
structure Consistent (s : Sched) : Prop extends Inv s where
  nonneg : 0 ≤ s.currentTid
  running : (s.tasks s.current).state = .running

section Invariant
variable {s s' : Sched} {kernelPml4 : Nat}

theorem Inv.current_lt (h : s.Inv) : s.current < maxTasks := by
  have := h.bound
  unfold current
  unfold maxTasks at *
  omega

variable {i next : Nat} {f : Task → Task}

theorem current_eq_iff (h : 0 ≤ s.currentTid) : (i : Int) = s.currentTid ↔ i = s.current := by
  unfold current
  omega

/-- A write to one slot that makes no other task `RUNNING` keeps the invariant. -/
theorem Inv.modify (h : s.Inv)
    (hrun : (f (s.tasks i)).state ≠ .running ∨ (i : Int) = s.currentTid)
    (hnew : (i : Int) = s.currentTid → (f (s.tasks i)).state ≠ .new)
    (hspace : i < maxTasks → (f (s.tasks i)).isUser = true → (f (s.tasks i)).state ≠ .new →
      (f (s.tasks i)).addressSpace ≠ .null ∧ (f (s.tasks i)).cr3 ≠ 0) : (s.modify i f).Inv where
  bound := h.bound
  only j hj hr := by
    by_cases hji : j = i
    · subst hji
      rw [modify_tasks_same] at hr
      exact hrun.resolve_left (fun hne => hne hr)
    · rw [modify_tasks_of_ne hji] at hr
      exact h.only j hj hr
  begun hc := by
    rw [modify_current]
    by_cases hci : s.current = i
    · rw [hci, modify_tasks_same]
      exact hnew ((current_eq_iff hc).mpr hci.symm)
    · rw [modify_tasks_of_ne hci]
      exact h.begun hc
  spaces j hj hu hn := by
    by_cases hji : j = i
    · subst hji
      rw [modify_tasks_same] at hu hn ⊢
      exact hspace hj hu hn
    · rw [modify_tasks_of_ne hji] at hu hn ⊢
      exact h.spaces j hj hu hn

theorem Inv.modify_current (h : s.Inv) (hc : 0 ≤ s.currentTid)
    (hnew : (f (s.tasks s.current)).state ≠ .new) (hu : (f (s.tasks s.current)).isUser = (s.tasks s.current).isUser)
    (ha : (f (s.tasks s.current)).addressSpace = (s.tasks s.current).addressSpace)
    (hcr : (f (s.tasks s.current)).cr3 = (s.tasks s.current).cr3) : (s.modify s.current f).Inv :=
  h.modify (Or.inr ((current_eq_iff hc).mpr rfl)) (fun _ => hnew) fun hlt huser _ => by
    rw [ha, hcr]
    exact h.spaces _ hlt (hu ▸ huser) (h.begun hc)

theorem Inv.modify_idle (h : s.Inv) (hi : (s.tasks i).state ≠ .new)
    (hrun : (f (s.tasks i)).state ≠ .running) (hnew : (f (s.tasks i)).state ≠ .new)
    (hu : (f (s.tasks i)).isUser = (s.tasks i).isUser)
    (ha : (f (s.tasks i)).addressSpace = (s.tasks i).addressSpace) (hcr : (f (s.tasks i)).cr3 = (s.tasks i).cr3) :
    (s.modify i f).Inv :=
  h.modify (Or.inl hrun) (fun _ => hnew) fun hlt huser _ => by
    rw [ha, hcr]
    exact h.spaces i hlt (hu ▸ huser) hi

/-- Creation takes the slot of no running task. -/
theorem Inv.taskCreate (h : s.Inv) (stack : Nat) (pid : Int) (cr3 : Nat) (isUser : Bool) (as : AsPtr)
    (hspace : isUser = true → as ≠ .null ∧ cr3 ≠ 0) : (s.taskCreate stack pid cr3 isUser as).2.2.Inv := by
  rcases s.taskCreate_cases stack pid cr3 isUser as with ⟨-, he⟩ | ⟨i, hi, hdead, -, ⟨-, he⟩ | ⟨-, he⟩⟩ <;> rw [he]
  · exact h
  · refine h.modify (f := fun t => { t with kernelStack := 0 }) (Or.inl fun hr => hdead (Or.inr (Or.inl hr)))
      (fun hcur => ?_) fun hlt hu hn => h.spaces i hlt hu hn
    have := h.begun (by omega)
    rwa [← (current_eq_iff (by omega)).mp hcur] at this
  · exact h.modify (i := i) (f := fun _ => created stack pid cr3 isUser as) (Or.inl (by simp [created]))
      (fun _ => by simp [created]) fun _ hu _ => hspace hu

/-- After the suspension nothing is `RUNNING`. -/
theorem Inv.suspend (h : s.Inv) (rsp : Nat) :
    (s.suspend rsp).Inv ∧ ∀ i < maxTasks, ((s.suspend rsp).tasks i).state ≠ .running := by
  unfold Sched.suspend
  split
  · rename_i hc
    refine ⟨h.modify_current hc ?_ rfl rfl rfl, fun i hi hr => ?_⟩
    · simp only
      split
      · simp
      · exact h.begun hc
    · by_cases hcur : i = s.current
      · rw [hcur, modify_tasks_same] at hr
        simp only at hr
        split at hr
        · cases hr
        · contradiction
      · rw [modify_tasks_of_ne hcur] at hr
        exact hcur ((current_eq_iff hc).mp (h.only i hi hr))
  · rename_i hc
    exact ⟨h, fun i hi hr => hc (by have := h.only i hi hr; omega)⟩

/-- A context switch leaves the current task, if there is one, as the `RUNNING` one. -/
theorem Inv.contextSwitchFrom (h : s.Inv) {rsp : Nat} (hs : s.contextSwitchFrom kernelPml4 rsp = .ok (next, s')) :
    s'.Inv ∧ (0 ≤ s'.currentTid → s'.Consistent) := by
  obtain ⟨hsus, hnone⟩ := h.suspend rsp
  rcases contextSwitchFrom_cases hs with ⟨-, hneg, -, rfl⟩ | ⟨-, hc, -, rfl⟩ | ⟨i, cr3, hpick, hi, -, -, rfl⟩
  · exact ⟨hsus, fun hc => absurd hc (by rw [suspend_currentTid]; omega)⟩
  · have hinv : ((s.suspend rsp).setRunning s.current).Inv := by
      rw [← suspend_current s rsp]
      exact hsus.modify_current (by rw [suspend_currentTid]; exact hc) (by simp) rfl rfl rfl
    exact ⟨hinv, fun hc' => ⟨hinv, hc', by simp [setRunning]⟩⟩
  · obtain ⟨hlt, hst⟩ := pickNextRunnable_eq_some hpick
    have hinv : ((s.suspend rsp).switchedTo i cr3).Inv := by
      refine ⟨by simpa using hlt, fun j hj hr => ?_, fun _ => by simp, fun j hj hu hn => ?_⟩
      · by_cases hji : j = i
        · simp [hji]
        · rw [switchedTo_tasks_of_ne hji] at hr
          exact absurd hr (hnone j hj)
      · by_cases hji : j = i
        · subst hji
          simp only [switchedTo_tasks_same] at hu ⊢
          refine hsus.spaces j hj hu ?_
          rcases hst with hst | hst <;> simp [hst]
        · simp only [switchedTo_tasks_of_ne hji] at hu hn ⊢
          exact hsus.spaces j hj hu hn
    exact ⟨hinv, fun _ => ⟨hinv, by simp, by simp⟩⟩

theorem Inv.sliceTicks (h : s.Inv) (n : Nat) : Inv { s with sliceTicks := n } := ⟨h.bound, h.only, h.begun, h.spaces⟩

theorem Inv.scheduleOnTick (h : s.Inv) {rsp : Nat} (hs : s.scheduleOnTick kernelPml4 rsp = .ok (next, s')) :
    s'.Inv ∧ (0 ≤ s'.currentTid → s'.Consistent) := by
  rcases scheduleOnTick_cases hs with ⟨hin, -, rfl⟩ | ⟨-, hs⟩
  · exact ⟨h.sliceTicks _, fun hc => ⟨h.sliceTicks _, hc, hin.2.1⟩⟩
  · exact (h.sliceTicks 0).contextSwitchFrom hs

theorem Inv.syscallReturn (h : s.Inv) {frame : Nat} {ret : BitVec 64} (hret : ret = retErr 11 ∨ ret = 0)
    (hs : s.syscallReturn kernelPml4 frame ret = .ok (next, s')) : s'.Inv ∧ (0 ≤ s'.currentTid → s'.Consistent) := by
  rcases syscallReturn_cases hs with ⟨-, -, hs⟩ | ⟨hno, -⟩
  · rcases s.offered_cases with he | ⟨hc, -, -, he⟩ <;> rw [he] at hs
    · exact h.contextSwitchFrom hs
    · exact (h.modify_current hc (by simp) rfl rfl rfl).contextSwitchFrom hs
  · exact absurd hret hno

theorem Inv.sysExit (h : s.Inv) (code : Int) : (s.sysExit code).Inv := by
  unfold Sched.sysExit
  split
  · exact h
  · rename_i hc
    exact h.modify_current (by omega) (by simp) rfl rfl rfl

theorem Inv.taskSleep (h : s.Inv) (hs : s.taskSleep = .ok s') : s'.Inv := by
  obtain ⟨hc, rfl⟩ := taskSleep_eq_ok hs
  exact h.modify_current hc (by simp) rfl rfl rfl

theorem Inv.taskExit (h : s.Inv) {code : Int} (hs : s.taskExit code = .ok s') : s'.Inv := by
  obtain ⟨hc, rfl⟩ := taskExit_eq_ok hs
  exact h.modify_current hc (by simp) rfl rfl rfl

theorem Inv.taskWake (h : s.Inv) (tid : Int) : (s.taskWake tid).Inv := by
  rcases s.taskWake_cases tid with he | ⟨-, hw, he⟩ <;> rw [he]
  · exact h
  · exact h.modify_idle (by simp [hw]) (by simp) (by simp) rfl rfl rfl

theorem killSlot_eq_some {pid : Int} (h : s.killSlot pid = some i) :
    i < maxTasks ∧ (s.tasks i).pid = pid ∧ (s.tasks i).state ≠ .new ∧ (s.tasks i).state ≠ .zombie := by
  obtain ⟨hi, hp, -⟩ := firstSlot_eq_some h
  simpa [hi] using hp

theorem Inv.taskKillPid (h : s.Inv) (pid code : Int) : (s.taskKillPid pid code).2.Inv := by
  rcases s.taskKillPid_eq pid code with he | ⟨i, -, hk, he⟩ <;> rw [he]
  · exact h
  · exact h.modify_idle (killSlot_eq_some hk).2.2.1 (by simp) (by simp) rfl rfl rfl

theorem Consistent.of_inv (h : s.Consistent) (hinv : s'.Inv) (hcur : s'.currentTid = s.currentTid)
    (hrun : (s'.tasks s.current).state = .running) : s'.Consistent := by
  refine ⟨hinv, hcur ▸ h.nonneg, ?_⟩
  unfold current at *
  rw [hcur]
  exact hrun

theorem Consistent.taskCreate (h : s.Consistent) (stack : Nat) (pid : Int) (cr3 : Nat) (isUser : Bool) (as : AsPtr)
    (hspace : isUser = true → as ≠ .null ∧ cr3 ≠ 0) : (s.taskCreate stack pid cr3 isUser as).2.2.Consistent := by
  have hinv := h.toInv.taskCreate stack pid cr3 isUser as hspace
  rcases s.taskCreate_cases stack pid cr3 isUser as with ⟨-, he⟩ | ⟨i, hi, hdead, -, hcase⟩
  · rw [he]
    exact h
  · have hne : s.current ≠ i := fun hc => hdead (Or.inr (Or.inl (hc ▸ h.running)))
    rcases hcase with ⟨-, he⟩ | ⟨-, he⟩ <;> rw [he] at hinv ⊢
    · exact h.of_inv hinv rfl (by rw [modify_tasks_of_ne hne]; exact h.running)
    · exact h.of_inv hinv rfl (by rw [install, modify_tasks_of_ne hne]; exact h.running)

theorem Consistent.taskWake (h : s.Consistent) (tid : Int) : (s.taskWake tid).Consistent := by
  have hinv := h.toInv.taskWake tid
  rcases s.taskWake_cases tid with he | ⟨-, hw, he⟩ <;> rw [he] at hinv ⊢
  · exact h
  · have hne : s.current ≠ tid.toNat := by
      intro hcur
      rw [← hcur, h.running] at hw
      cases hw
    exact h.of_inv hinv rfl (by rw [modify_tasks_of_ne hne]; exact h.running)

theorem Consistent.taskKillPid (h : s.Consistent) {pid : Int} (code : Int)
    (hne : ¬(0 < pid ∧ s.killSlot pid = some s.current)) : (s.taskKillPid pid code).2.Consistent := by
  have hinv := h.toInv.taskKillPid pid code
  rcases s.taskKillPid_eq pid code with he | ⟨i, hpid, hk, he⟩ <;> rw [he] at hinv ⊢
  · exact h
  · have hi : s.current ≠ i := fun hcur => hne ⟨hpid, by rw [hk, hcur]⟩
    exact h.of_inv hinv rfl (by rw [modify_tasks_of_ne hi]; exact h.running)

/-- The check that the shell runs passes in every consistent state. -/
theorem Consistent.taskSelfCheck (h : s.Consistent) : s.taskSelfCheck = true := by
  unfold Sched.taskSelfCheck
  simp only [Bool.and_eq_true, Bool.or_eq_true, List.all_eq_true, decide_eq_true_eq, List.mem_range]
  refine ⟨⟨fun i hi => ?_, ?_⟩, Or.inr ⟨h.bound, h.running⟩⟩
  · by_cases hu : (s.tasks i).isUser = true ∧ (s.tasks i).state ≠ .new
    · obtain ⟨ha, hc⟩ := h.spaces i hi hu.1 hu.2
      simp [ha, hc]
    · rcases Classical.not_and_iff_not_or_not.mp hu with hu | hu <;> simp at hu <;> simp [hu]
  · -- Every running slot is the current one, and the slots are distinct.
    have hle : (List.range maxTasks).countP (fun i => decide ((s.tasks i).state = .running)) ≤
        (List.range maxTasks).countP (fun i => i == s.current) := by
      refine List.countP_mono_left fun i hi hr => ?_
      simp only [decide_eq_true_eq] at hr
      simpa using (current_eq_iff h.nonneg).mp (h.only i (List.mem_range.mp hi) hr)
    refine Nat.le_trans hle ?_
    exact List.nodup_iff_count_le_one.mp List.nodup_range s.current

end Invariant

/-! ### Every run -/

/-- The invariant of a run: consistent whenever control is with a task. -/
theorem SchedRun.inv_step {r r' : SchedRun} {e : SchedEvent}
    (h : r.sched.Inv ∧ (r.inTask = true → r.sched.Consistent)) (hs : r.step kernelPml4 e r') :
    r'.sched.Inv ∧ (r'.inTask = true → r'.sched.Consistent) := by
  obtain ⟨hinv, hcons⟩ := h
  have handsOver : ∀ {result}, r'.HandsOver result → (∀ {next}, result = .ok (next, r'.sched) →
      r'.sched.Inv ∧ (0 ≤ r'.sched.currentTid → r'.sched.Consistent)) →
      r'.sched.Inv ∧ (r'.inTask = true → r'.sched.Consistent) := by
    rintro result ⟨next, hres, hin⟩ hkeep
    obtain ⟨h1, h2⟩ := hkeep hres
    exact ⟨h1, fun ht => h2 (by simpa [ht] using hin)⟩
  cases e with
  | createKernel stack =>
    obtain rfl := hs
    exact ⟨hinv.taskCreate stack 0 _ false .kernel (by simp), fun ht =>
      (hcons ht).taskCreate stack 0 _ false .kernel (by simp)⟩
  | createUser stack pid as pml4 =>
    obtain ⟨has, hpml4, rfl⟩ := hs
    exact ⟨hinv.taskCreate stack pid pml4 true as fun _ => ⟨has, hpml4⟩, fun ht =>
      (hcons ht).taskCreate stack pid pml4 true as fun _ => ⟨has, hpml4⟩⟩
  | schedule => exact handsOver hs fun hres => hinv.contextSwitchFrom hres
  | tick rsp => exact handsOver hs fun hres => hinv.scheduleOnTick hres
  | syscall frame ret =>
    simp only [SchedRun.step] at hs
    split at hs
    · rename_i hret
      exact handsOver hs fun hres => hinv.syscallReturn hret hres
    · obtain rfl := hs
      exact ⟨hinv, hcons⟩
  | sysExit frame code => exact handsOver hs fun hres => (hinv.sysExit code).syscallReturn (Or.inl rfl) hres
  | sleep => exact ⟨hinv.taskSleep hs.1, fun ht => by simp [hs.2] at ht⟩
  | wake tid =>
    obtain rfl := hs
    exact ⟨hinv.taskWake tid, fun ht => (hcons ht).taskWake tid⟩
  | kill pid code =>
    obtain ⟨hsched, hin⟩ := hs
    rw [hsched, hin]
    refine ⟨hinv.taskKillPid pid code, fun ht => ?_⟩
    simp only [Bool.and_eq_true, Bool.not_eq_true', decide_eq_false_iff_not] at ht
    exact (hcons ht.1).taskKillPid code ht.2
  | exit code => exact ⟨hinv.taskExit hs.1, fun ht => by simp [hs.2] at ht⟩

theorem taskInit_inv (cr3 : Nat) : (taskInit cr3).Inv :=
  ⟨by simp [taskInit, maxTasks], by simp [taskInit, Task.blank], by simp [taskInit], by simp [taskInit, Task.blank]⟩

/-- In every run, whenever control is with a task, the current task is the one that is `RUNNING`, user tasks have
    their address space, and `task_self_check` succeeds. -/
theorem scheduler_consistent {kernelPml4 : Nat} {r : SchedRun} (h : (schedRuns kernelPml4).Reachable r)
    (hin : r.inTask = true) :
    (∀ i < maxTasks, ∀ j < maxTasks, (r.sched.tasks i).state = .running → (r.sched.tasks j).state = .running → i = j) ∧
    (0 ≤ r.sched.currentTid ∧ r.sched.currentTid < maxTasks ∧ (r.sched.tasks r.sched.current).state = .running) ∧
    (∀ i < maxTasks, (r.sched.tasks i).isUser = true → (r.sched.tasks i).state ≠ .new →
      (r.sched.tasks i).addressSpace ≠ .null ∧ (r.sched.tasks i).cr3 ≠ 0) ∧
    r.sched.taskSelfCheck = true := by
  have hinv : r.sched.Inv ∧ (r.inTask = true → r.sched.Consistent) := by
    refine h.invariant ?_ SchedRun.inv_step
    rintro r ⟨cr3, rfl⟩
    exact ⟨taskInit_inv cr3, by simp⟩
  have hc := hinv.2 hin
  refine ⟨fun i hi j hj hri hrj => ?_, ⟨hc.nonneg, hc.bound, hc.running⟩, hc.spaces, hc.taskSelfCheck⟩
  have h1 := hc.only i hi hri
  have h2 := hc.only j hj hrj
  omega

/-- A kernel task and a user task are created, and the first tick hands control to the kernel task. -/
theorem scheduler_consistent_two_tasks :
    ∃ r, (schedRuns 0x220).Run [.tick 0, .createUser 0x10010020 1 (.page 0x10004) 0x10005, .createKernel 0x10000020] r ∧
      r.sched.currentTid = 0 ∧ r.sched.taskSelfCheck = true := by
  let s₁ := ((taskInit 0x220).taskCreateKernel 0x220 0x10000020).2.2
  let s₂ := (s₁.taskCreateUser 0x10010020 1 (.page 0x10004) 0x10005).2.2
  obtain ⟨next, s₃, htick, hcur⟩ : ∃ next s, s₂.scheduleOnTick 0x220 0 = .ok (next, s) ∧ s.currentTid = 0 :=
    ⟨_, _, rfl, rfl⟩
  let S := schedRuns 0x220
  have h₀ : S.init ⟨taskInit 0x220, false⟩ := ⟨0x220, rfl⟩
  have h₁ : S.step ⟨taskInit 0x220, false⟩ (.createKernel 0x10000020) ⟨s₁, false⟩ := rfl
  have h₂ : S.step ⟨s₁, false⟩ (.createUser 0x10010020 1 (.page 0x10004) 0x10005) ⟨s₂, false⟩ :=
    ⟨by simp, by decide, rfl⟩
  have h₃ : S.step ⟨s₂, false⟩ (.tick 0) ⟨s₃, true⟩ := ⟨next, htick, by simp [hcur]⟩
  have h : S.Run [.tick 0, .createUser 0x10010020 1 (.page 0x10004) 0x10005, .createKernel 0x10000020] ⟨s₃, true⟩ :=
    (((Lts.System.Run.init h₀).snoc h₁).snoc h₂).snoc h₃
  exact ⟨⟨s₃, true⟩, h, hcur, (scheduler_consistent ⟨_, h⟩ rfl).2.2.2⟩

end Sched
end SamOS
