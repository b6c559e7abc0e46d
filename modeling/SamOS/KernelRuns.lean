import SamOS.Progress

/-! Steps of a kernel with three tasks, the shell, the idle task and a process: switches in slot order, time slices,
    and the way of a process from its spawn to its reaping. -/

namespace SamOS
open Function Heap Loop Result Lts

/-! ### Three tasks -/

theorem Task.Live.not_ended {t : Task} (h : t.Live) : ¬(t.state = .zombie ∨ t.state = .new) := by
  rcases h with h | h | h <;> rw [h] <;> decide

namespace Sched

theorem contextSwitchFrom_next {s s₁ : Sched} {pml4 rsp next cr3 : Nat} (hs : s.suspend rsp = s₁)
    (hpick : s₁.pickNextRunnable = some next) (hne : (next : Int) ≠ s₁.currentTid)
    (hsp : switchAddressSpace (s₁.tasks next) pml4 = .ok cr3) :
    s.contextSwitchFrom pml4 rsp = .ok ((s₁.tasks next).kernelRsp,
      { s₁.modify next fun t => { t with state := .running, timeslice := t.timeslice + 1 } with
        currentTid := next, cr3, switchCount := s₁.switchCount + 1 }) := by
  unfold contextSwitchFrom
  rw [hs]
  dsimp only
  rw [hpick]
  dsimp only
  rw [if_neg hne]
  have hsame : ∀ f : Task → Task, ({ s₁ with currentTid := (next : Int) }.modify next f).tasks next = f
      (s₁.tasks next) :=
    fun f => modify_tasks_same ..
  rw [hsame]
  have hsp' : switchAddressSpace { s₁.tasks next with state := .running, timeslice := (s₁.tasks next).timeslice + 1 }
    pml4 = .ok cr3 := hsp
  rw [hsp']
  rfl

/-- A task table with the shell, the idle task and a third one. -/
def three (t₀ t₁ t₂ : Task) (currentTid : Int) (sliceTicks : Nat) (switchCount : BitVec 64) (cr3 : Nat) : Sched :=
  { tasks := fun i => if i = 0 then t₀ else if i = 1 then t₁ else if i = 2 then t₂ else .blank
    currentTid, sliceTicks, switchCount, cr3 }

section Three
variable {t₀ t₁ t₂ : Task} {cur : Int} {n cr3 pml4 rsp : Nat} {f : Task → Task} {m : BitVec 64}

theorem modify_three {i : Nat} (hi : i < 3) : (three t₀ t₁ t₂ cur n m cr3).modify i f =
    three (if i = 0 then f t₀ else t₀) (if i = 1 then f t₁ else t₁) (if i = 2 then f t₂ else t₂) cur n m cr3 := by
  unfold three modify
  congr 1
  funext j
  by_cases hj : j = i
  · subst hj
    rw [update_self]
    interval_cases j <;> rfl
  · rw [update_of_ne hj]
    interval_cases i <;> simp [hj]

theorem booted_eq (stack₀ stack₁ : Nat) : booted pml4 stack₀ stack₁ =
    three (created stack₀ 0 pml4 false .kernel) (created stack₁ 0 pml4 false .kernel) .blank (-1) 0 0 pml4 := by
  have hinit : taskInit pml4 = three .blank .blank .blank (-1) 0 0 pml4 := by
    unfold taskInit three
    simp only [ite_self]
  unfold booted install
  rw [hinit, modify_three (by decide), modify_three (by decide)]
  rfl

theorem suspend_three (i : Nat) : (three t₀ t₁ t₂ i n m cr3).suspend rsp = (three t₀ t₁ t₂ i n m cr3).modify i fun t =>
    { t with kernelRsp := rsp, state := if t.state = .running then .runnable else t.state } :=
  if_pos (Int.natCast_nonneg i)

theorem findFreeSlot_three (h₀ : t₀.Live) (h₁ : t₁.Live) :
    (three t₀ t₁ .blank cur n m cr3).findFreeSlot = some (2, 0, three t₀ t₁ .blank cur n m cr3) := by
  have hfirst : (firstSlot fun i => decide (((three t₀ t₁ .blank cur n m cr3).tasks i).state = .zombie ∨
      ((three t₀ t₁ .blank cur n m cr3).tasks i).state = .new) &&
        decide (((three t₀ t₁ .blank cur n m cr3).tasks i).kernelStack = 0)) =
      some 2 := by
    simp [firstSlot, three, maxTasks, List.range_succ, h₀.not_ended, h₁.not_ended, Task.blank]
  unfold findFreeSlot
  rw [hfirst]

theorem findFreeSlot_four (h₀ : t₀.Live) (h₁ : t₁.Live) (h₂ : t₂.Live) :
    (three t₀ t₁ t₂ cur n m cr3).findFreeSlot = some (3, 0, three t₀ t₁ t₂ cur n m cr3) := by
  have hfirst : (firstSlot fun i => decide (((three t₀ t₁ t₂ cur n m cr3).tasks i).state = .zombie ∨
      ((three t₀ t₁ t₂ cur n m cr3).tasks i).state = .new) &&
        decide (((three t₀ t₁ t₂ cur n m cr3).tasks i).kernelStack = 0)) =
      some 3 := by
    simp [firstSlot, three, maxTasks, List.range_succ, h₀.not_ended, h₁.not_ended, h₂.not_ended, Task.blank]
  unfold findFreeSlot
  rw [hfirst]

theorem switch_three {s : Sched} {next : Nat} (hn : next < 3) (hs : s.suspend rsp = three t₀ t₁ t₂ cur n m cr3)
    (hpick : (three t₀ t₁ t₂ cur n m cr3).pickNextRunnable = some next) (hne : (next : Int) ≠ cur) {new : Nat}
    (hsp : switchAddressSpace ((three t₀ t₁ t₂ cur n m cr3).tasks next) pml4 = .ok new) :
    ∃ rsp', s.contextSwitchFrom pml4 rsp = .ok (rsp', three
      (if next = 0 then { t₀ with state := .running, timeslice := t₀.timeslice + 1 } else t₀)
      (if next = 1 then { t₁ with state := .running, timeslice := t₁.timeslice + 1 } else t₁)
      (if next = 2 then { t₂ with state := .running, timeslice := t₂.timeslice + 1 } else t₂) next n (m + 1) new) := by
  have h := contextSwitchFrom_next hs hpick hne hsp
  rw [modify_three hn] at h
  exact ⟨_, h⟩

theorem start_three (h₀ : t₀.state = .runnable) (hu : t₀.isUser = false) (hk : pml4 ≠ 0) :
    ∃ rsp', (three t₀ t₁ t₂ (-1) n m cr3).contextSwitchFrom pml4 rsp =
      .ok (rsp', three { t₀ with state := .running, timeslice := t₀.timeslice + 1 } t₁ t₂ 0 n (m + 1) pml4) := by
  have hpick : (three t₀ t₁ t₂ (-1) n m cr3).pickNextRunnable = some 0 := by
    simp [pickNextRunnable, firstSlot, three, h₀, maxTasks, List.range_succ]
  exact switch_three (by decide) rfl hpick (by decide) (by simp [switchAddressSpace, three, hu, hk])

theorem leave_three_shell (h₁ : t₁.state = .runnable) (hu : t₁.isUser = false) (hk : pml4 ≠ 0) :
    ∃ rsp', (three t₀ t₁ t₂ 0 n m cr3).contextSwitchFrom pml4 rsp =
      .ok (rsp', three { t₀ with kernelRsp := rsp, state := if t₀.state = .running then .runnable else t₀.state }
        { t₁ with state := .running, timeslice := t₁.timeslice + 1 } t₂ 1 n (m + 1) pml4) := by
  have hsus : (three t₀ t₁ t₂ 0 n m cr3).suspend rsp = _ := (suspend_three 0).trans (modify_three (by decide))
  have hpick : ∀ t : Task, (three t t₁ t₂ 0 n m cr3).pickNextRunnable = some 1 := fun t => by
    simp [pickNextRunnable, firstSlot, three, h₁, maxTasks, List.range_succ, current]
  exact switch_three (by decide) hsus (hpick _) (by decide) (by simp [switchAddressSpace, three, hu, hk])

theorem switch_three_idle (h₀ : t₀.state = .running) (h₁ : t₁.state = .runnable) (hu : t₁.isUser = false)
    (hk : pml4 ≠ 0) :
    ∃ rsp', (three t₀ t₁ t₂ 0 n m cr3).contextSwitchFrom pml4 rsp =
      .ok (rsp', three { t₀ with kernelRsp := rsp, state := .runnable }
        { t₁ with state := .running, timeslice := t₁.timeslice + 1 }
        t₂ 1 n (m + 1) pml4) := by
  obtain ⟨rsp', h⟩ := leave_three_shell h₁ hu hk
  rw [if_pos h₀] at h
  exact ⟨rsp', h⟩

theorem switch_three_user (h₁ : t₁.state = .running) (h₂ : t₂.state = .runnable) (hu : t₂.isUser = true)
    (ha : t₂.addressSpace ≠ .null) (hc : t₂.cr3 ≠ 0) :
    ∃ rsp', (three t₀ t₁ t₂ 1 n m cr3).contextSwitchFrom pml4 rsp =
      .ok (rsp', three t₀ { t₁ with kernelRsp := rsp, state := .runnable }
        { t₂ with state := .running, timeslice := t₂.timeslice + 1 }
        2 n (m + 1) t₂.cr3) := by
  have hsus : (three t₀ t₁ t₂ 1 n m cr3).suspend rsp = three t₀ { t₁ with kernelRsp := rsp, state := .runnable } t₂ 1
      n m cr3 := by
    refine (suspend_three 1).trans ?_
    rw [modify_three (by decide)]
    simp [h₁]
  have hpick : (three t₀ { t₁ with kernelRsp := rsp, state := .runnable } t₂ 1 n m cr3).pickNextRunnable = some 2 := by
    simp [pickNextRunnable, firstSlot, three, h₂, maxTasks, List.range_succ, current]
  exact switch_three (by decide) hsus hpick (by decide) (by simp [switchAddressSpace, three, hu, ha, hc])

theorem leave_three_user (h₀ : t₀.state = .runnable) (hu : t₀.isUser = false) (hk : pml4 ≠ 0) :
    ∃ rsp', (three t₀ t₁ t₂ 2 n m cr3).contextSwitchFrom pml4 rsp =
      .ok (rsp', three { t₀ with state := .running, timeslice := t₀.timeslice + 1 } t₁
        { t₂ with kernelRsp := rsp, state := if t₂.state = .running then .runnable else t₂.state } 0 n
          (m + 1) pml4) := by
  have hsus : (three t₀ t₁ t₂ 2 n m cr3).suspend rsp = _ := (suspend_three 2).trans (modify_three (by decide))
  have hpick : ∀ t : Task, (three t₀ t₁ t 2 n m cr3).pickNextRunnable = some 0 := fun t => by
    simp [pickNextRunnable, firstSlot, three, h₀, maxTasks, List.range_succ, current, Task.blank]
  exact switch_three (by decide) hsus (hpick _) (by decide) (by simp [switchAddressSpace, three, hu, hk])

theorem switch_three_shell (h₀ : t₀.state = .runnable) (hu : t₀.isUser = false) (h₂ : t₂.state = .zombie)
    (hk : pml4 ≠ 0) :
    ∃ rsp', (three t₀ t₁ t₂ 2 n m cr3).contextSwitchFrom pml4 rsp =
      .ok (rsp', three { t₀ with state := .running, timeslice := t₀.timeslice + 1 } t₁
        { t₂ with kernelRsp := rsp } 0 n (m + 1) pml4) := by
  obtain ⟨rsp', h⟩ := leave_three_user h₀ hu hk
  rw [if_neg (by rw [h₂]; decide)] at h
  exact ⟨rsp', h⟩

end Three
end Sched

namespace Kernel
variable {k k' : Kernel}

/-! ### Time slices -/

theorem processReapDeferred_of_none (h : ∀ i, ¬((k.procs i).used = true ∧ (k.procs i).reapPending = true)) :
    k.processReapDeferred = k := by
  refine forRange_keeps (P := fun t => t = k) rfl fun i t _ _ ht => ?_
  rw [ht]
  have : k.reapSpace k.currentAs i = (false, k) := if_pos (by have := h i; tauto)
  unfold reapEntry
  rw [this]

variable {rsp next : Nat} {fw : Platform} {img : KernelImage} {current : AsPtr} {t₀ t₁ : Task} {use : Nat → Use}
  {cur : Int}

theorem contextSwitchFrom_of_none (h : ∀ i, ¬((k.procs i).used = true ∧ (k.procs i).reapPending = true)) {s : Sched}
    (hs : k.sched.contextSwitchFrom k.machine.kernelPml4 rsp = .ok (next, s)) :
    k.contextSwitchFrom rsp = .ok (next, k.withSched s) := by
  unfold contextSwitchFrom
  dsimp only
  rw [processReapDeferred_of_none h, hs]
  rfl

theorem scheduleOnTick_in_slice (h : k.sched.InSlice) (rsp : Nat) :
    k.scheduleOnTick rsp = .ok (0, k.withSched { k.sched with sliceTicks := (k.sched.sliceTicks + 1) % 2 ^ 32 }) := by
  unfold scheduleOnTick
  rw [if_pos ⟨h.1, h.2.1⟩]
  exact if_pos h.2.2

theorem tick_in_slice (h : k.sched.InSlice) (rsp : Nat) :
    k.step (.tick rsp) (k.withSched { k.sched with sliceTicks := (k.sched.sliceTicks + 1) % 2 ^ 32 }) :=
  ⟨0, scheduleOnTick_in_slice h rsp⟩

theorem tick_of_lt (h0 : 0 ≤ k.sched.currentTid) (hr : (k.sched.tasks k.sched.current).state = .running)
    (hn : k.sched.sliceTicks + 1 < Sched.ticksPerSlice) (rsp : Nat) :
    k.sched.InSlice ∧ k.step (.tick rsp) (k.withSched { k.sched with sliceTicks := k.sched.sliceTicks + 1 }) := by
  have hmod : (k.sched.sliceTicks + 1) % 2 ^ 32 = k.sched.sliceTicks + 1 :=
    Nat.mod_eq_of_lt (Nat.lt_trans hn (by decide))
  have hin : k.sched.InSlice := ⟨h0, hr, by rw [hmod]; exact hn⟩
  have htick := tick_in_slice hin rsp
  rw [hmod] at htick
  exact ⟨hin, htick⟩

theorem tick_ends (h : ¬k.sched.InSlice)
    (hc : (k.withSched { k.sched with sliceTicks := 0 }).contextSwitchFrom rsp = .ok (next, k')) :
    k.step (.tick rsp) k' := by
  refine ⟨next, ?_⟩
  unfold scheduleOnTick
  split
  · rename_i hrun
    exact (if_neg fun hlt => h ⟨hrun.1, hrun.2, hlt⟩).trans hc
  · exact hc

theorem ticks_in_slice (h0 : 0 ≤ k.sched.currentTid) (hr : (k.sched.tasks k.sched.current).state = .running)
    (rsp : Nat) {n : Nat} (hn : k.sched.sliceTicks + n < Sched.ticksPerSlice) :
    (kernels fw img).Path k (List.replicate n (.tick rsp))
      (k.withSched { k.sched with sliceTicks := k.sched.sliceTicks + n }) := by
  induction n with
  | zero => exact .nil
  | succ n ih =>
    exact (ih (by omega)).snoc
      (tick_of_lt (k := k.withSched { k.sched with sliceTicks := k.sched.sliceTicks + n }) h0 hr hn rsp).2

theorem withSched_sliceTicks (ht : k.sched.sliceTicks = 0) : k.withSched { k.sched with sliceTicks := 0 } = k := by
  rw [← ht]
  rfl

theorem fifth_tick (ht : k.sched.sliceTicks = 0) (hc : k.contextSwitchFrom rsp = .ok (next, k')) :
    ¬(k.withSched { k.sched with sliceTicks := k.sched.sliceTicks + 4 }).sched.InSlice ∧
    (k.withSched { k.sched with sliceTicks := k.sched.sliceTicks + 4 }).step (.tick rsp) k' := by
  have hout : ¬(k.withSched { k.sched with sliceTicks := k.sched.sliceTicks + 4 }).sched.InSlice := fun hin => by
    have : (k.sched.sliceTicks + 4 + 1) % 2 ^ 32 < 5 := hin.2.2
    omega
  have hzero : (k.withSched { k.sched with sliceTicks := 0 }).contextSwitchFrom rsp = .ok (next, k') := by
    rw [withSched_sliceTicks ht]
    exact hc
  exact ⟨hout, tick_ends hout hzero⟩

theorem slice_ends (h0 : 0 ≤ k.sched.currentTid)
    (hr : (k.sched.tasks k.sched.current).state = .running) (ht : k.sched.sliceTicks = 0)
    (hc : k.contextSwitchFrom rsp = .ok (next, k')) : (kernels fw img).Path k (List.replicate 5 (.tick rsp)) k' :=
  (ticks_in_slice h0 hr rsp (n := 4) (by rw [ht]; decide)).snoc (fifth_tick ht hc).2

/-! ### From spawn to reaping -/

/-- A step that neither spawns nor maps only has to leave the shell alone. -/
theorem Orderly.plain {e : KernelEvent} (h : k.Undisturbed e) (hs : spawns e = false) (hi : spawnImage e = none)
    (hm : ∀ as virt flags, e ≠ .mapPage as virt flags) : k.Orderly e :=
  ⟨h, (fun he => by rw [hs] at he; cases he), (fun _ he => by rw [hi] at he; cases he),
    fun as virt flags he => absurd he (hm as virt flags)⟩

/-- A kernel with three tasks and the entry `p` in slot 0 of the process table. -/
structure OneProcess (k : Kernel) (t₀ t₁ t₂ : Task) (cur : Int) (p : Process) : Prop where
  sched : ∃ m cr3, k.sched = .three t₀ t₁ t₂ cur 0 m cr3
  procs : k.procs = update (fun _ => .blank) 0 p

theorem resumeShell_destroyed {k k' : Kernel} {slot : Nat} (hs : k.shell = .reap slot current)
    (hr : k.reapSpace current slot = (true, k')) : k.resumeShell = k'.withShell (.clear slot current) := by
  unfold resumeShell
  rw [hs]
  dsimp only
  rw [hr]

theorem resumeShell_skipped {k k' : Kernel} {slot : Nat} (hs : k.shell = .reap slot current)
    (hr : k.reapSpace current slot = (false, k')) : k.resumeShell = k'.reapFrom (slot + 1) current := by
  unfold resumeShell
  rw [hs]
  dsimp only
  rw [hr]

namespace OneProcess
variable {t₀ t₁ t₂ : Task} {cur : Int} {p : Process}

theorem not_pending (h : k.OneProcess t₀ t₁ t₂ cur p) (hp : p.reapPending = false) (i : Nat) :
    ¬((k.procs i).used = true ∧ (k.procs i).reapPending = true) := by
  rw [h.procs]
  by_cases hi : i = 0
  · rw [hi, update_self, hp]
    exact fun h => by cases h.2
  · rw [update_of_ne hi]
    exact fun h => by cases h.1

/-- A switch of the task table is a switch of the kernel when nothing is to be reaped. -/
theorem switched (h : k.OneProcess t₀ t₁ t₂ cur p) (hp : p.reapPending = false) {t₀' t₁' t₂' : Task} {cur' : Int}
    {rsp cr3' : Nat}
    (hsw : ∀ m cr3, ∃ next, (Sched.three t₀ t₁ t₂ cur 0 m cr3).contextSwitchFrom k.machine.kernelPml4 rsp = .ok (next,
      .three t₀' t₁' t₂' cur' 0 (m + 1) cr3')) :
    ∃ next k', k.contextSwitchFrom rsp = .ok (next, k') ∧ k'.OneProcess t₀' t₁' t₂' cur' p ∧ k'.machine = k.machine ∧
      k'.nextPid = k.nextPid ∧ k'.shell = k.shell := by
  obtain ⟨m, cr3, hs⟩ := h.sched
  obtain ⟨next, hnext⟩ := hsw m cr3
  rw [← hs] at hnext
  exact ⟨next, _, contextSwitchFrom_of_none (h.not_pending hp) hnext, ⟨⟨_, _, rfl⟩, h.procs⟩, rfl, rfl, rfl⟩

theorem schedule (h : k.OneProcess t₀ t₁ t₂ (-1) p) (hp : p.reapPending = false) (h₀ : t₀.state = .runnable)
    (hu : t₀.isUser = false) (hk : k.machine.kernelPml4 ≠ 0) : ∃ k', k.step .schedule k' ∧
      k'.OneProcess { t₀ with state := .running, timeslice := t₀.timeslice + 1 } t₁ t₂ 0 p ∧ k'.machine = k.machine ∧
      k'.nextPid = k.nextPid ∧ k'.shell = k.shell := by
  obtain ⟨next, k', hsw, hrest⟩ := h.switched hp fun _ _ => Sched.start_three h₀ hu hk
  obtain ⟨m, cr3, hs⟩ := h.sched
  have hcur : k.sched.currentTid < 0 := by
    rw [hs]
    show (-1 : Int) < 0
    decide
  exact ⟨k', ⟨hcur, next, hsw⟩, hrest⟩

theorem sleep (h : k.OneProcess t₀ t₁ t₂ 0 p) (hsh : k.shell = .idle) (h₀ : t₀.state = .running)
    (hu : t₀.isUser = false) :
    ∃ k', k.step .sleep k' ∧ k'.OneProcess { t₀ with state := .waiting } t₁ t₂ 0 p ∧ k'.machine = k.machine ∧
      k'.nextPid = k.nextPid ∧ k'.shell = .idle := by
  obtain ⟨m, cr3, hs⟩ := h.sched
  have hw : k.sched.taskSleep = .ok (.three { t₀ with state := .waiting } t₁ t₂ 0 0 m cr3) := by
    have hmod : k.sched.modify 0 (fun t => { t with state := .waiting }) = .three { t₀ with state := .waiting } t₁ t₂
        0 0 m cr3 := by
      rw [hs, Sched.modify_three (by decide)]
      rfl
    have hcur : k.sched.currentTid = 0 := by
      rw [hs]
      rfl
    have huser : (k.sched.tasks 0).isUser = false := by
      rw [hs]
      exact hu
    unfold Sched.taskSleep
    rw [show k.sched.current = 0 by simp [Sched.current, hcur], if_neg (by omega), if_neg (by simp [huser]), hmod]
  refine ⟨_, ⟨?_, hsh, _, hw, rfl⟩, ⟨⟨m, cr3, rfl⟩, h.procs⟩, rfl, rfl, hsh⟩
  unfold InShell
  rw [hs]
  exact ⟨rfl, h₀⟩

variable {fw : Platform} {img : KernelImage} {a : Nat}

theorem toIdle (h : k.OneProcess t₀ t₁ t₂ 0 p) (hp : p.reapPending = false) (h₀ : t₀.state = .running)
    (h₁ : t₁.state = .runnable) (hu : t₁.isUser = false) (hk : k.machine.kernelPml4 ≠ 0) (rsp : Nat) :
    ∃ k', (kernels fw img).Path k (List.replicate 5 (.tick rsp)) k' ∧
      k'.OneProcess { t₀ with kernelRsp := rsp, state := .runnable }
        { t₁ with state := .running, timeslice := t₁.timeslice + 1 } t₂ 1 p ∧
      k'.machine = k.machine ∧ k'.nextPid = k.nextPid ∧ k'.shell = k.shell := by
  obtain ⟨next, k', hsw, hrest⟩ := h.switched hp fun _ _ => Sched.switch_three_idle h₀ h₁ hu hk
  obtain ⟨m, cr3, hs⟩ := h.sched
  exact ⟨k', slice_ends (by rw [hs]; exact Int.le_refl 0) (by rw [hs]; exact h₀) (by rw [hs]; rfl) hsw, hrest⟩

theorem toUser (h : k.OneProcess t₀ t₁ t₂ 1 p) (hp : p.reapPending = false) (h₁ : t₁.state = .running)
    (h₂ : t₂.state = .runnable) (hu : t₂.isUser = true) (ha : t₂.addressSpace ≠ .null) (hc : t₂.cr3 ≠ 0) (rsp : Nat) :
    ∃ k', (kernels fw img).Path k (List.replicate 5 (.tick rsp)) k' ∧
      k'.OneProcess t₀ { t₁ with kernelRsp := rsp, state := .runnable }
        { t₂ with state := .running, timeslice := t₂.timeslice + 1 } 2 p ∧
      k'.machine = k.machine ∧ k'.nextPid = k.nextPid ∧ k'.shell = k.shell := by
  obtain ⟨next, k', hsw, hrest⟩ := h.switched hp fun _ _ => Sched.switch_three_user h₁ h₂ hu ha hc
  obtain ⟨m, cr3, hs⟩ := h.sched
  exact ⟨k', slice_ends (by rw [hs]; exact Int.natCast_nonneg 1) (by rw [hs]; exact h₁) (by rw [hs]; rfl) hsw, hrest⟩

theorem exitUnknown (h : k.OneProcess t₀ t₁ t₂ 2 .blank) (h₀ : t₀.state = .runnable) (hu₀ : t₀.isUser = false)
    (h₂ : t₂.state = .running) (hu₂ : t₂.isUser = true) (hpid : t₂.pid = 1) (hk : k.machine.kernelPml4 ≠ 0)
    {frame : Nat} (hf : frame ≠ 0) (code : Int) : ∃ k', k.step (.syscall frame (.exit code)) k' ∧
      k'.OneProcess { t₀ with state := .running, timeslice := t₀.timeslice + 1 } t₁
        { t₂ with exitCode := code, state := .zombie, kernelRsp := frame } 0 .blank ∧
      k'.machine = k.machine ∧ k'.nextPid = k.nextPid ∧ k'.shell = k.shell := by
  obtain ⟨m, cr3, hs⟩ := h.sched
  have huser : k.InUser := by
    unfold InUser
    rw [hs]
    exact ⟨Int.natCast_nonneg 2, hu₂, h₂⟩
  have hfind : k.findProcessByPid 1 = none := by
    unfold findProcessByPid firstProc
    rw [h.procs, update_eq_self]
    rfl
  have hend : k.sched.sysExit code = .three t₀ t₁ { t₂ with exitCode := code, state := .zombie } 2 0 m cr3 := by
    rw [hs]
    exact (if_neg (by decide : ¬(2 : Int) < 0)).trans (Sched.modify_three (i := 2) (by decide))
  have hexit : k.sysExit code = k.withSched
      (.three t₀ t₁ { t₂ with exitCode := code, state := .zombie } 2 0 m cr3) := by
    have hcur : k.sched.taskCurrentPid = 1 := by
      rw [hs]
      exact hpid
    unfold sysExit processTaskExited
    rw [hcur, hfind]
    dsimp only
    rw [hend]
  have hproc : (k.sysExit code).OneProcess t₀ t₁ { t₂ with exitCode := code, state := .zombie } 2 .blank := by
    rw [hexit]
    exact ⟨⟨m, cr3, rfl⟩, h.procs⟩
  obtain ⟨next, k', hsw, hrest⟩ :=
    hproc.switched rfl fun _ _ => Sched.switch_three_shell h₀ hu₀ rfl (by rw [hexit]; exact hk)
  rw [hexit] at hrest
  refine ⟨k', ⟨huser, next, ?_⟩, hrest⟩
  show (k.sysExit code).syscallReturn frame (Sched.retErr 11) = _
  have hz : ((k.sysExit code).sched.tasks (k.sysExit code).sched.current).state = .zombie := by
    rw [hexit]
    rfl
  have hoff : (k.sysExit code).sched.offered = (k.sysExit code).sched := if_neg fun hc => hc.2.2 hz
  rw [syscallReturn, if_pos (show Sched.Reschedules _ from Or.inl rfl), hoff, taskScheduleFromInterrupt, if_neg hf]
  exact hsw

/-- `process_reap_deferred` destroys the address space of the process and clears its entry. -/
theorem processReapDeferred (h : k.OneProcess t₀ t₁ t₂ cur p) (hp : p.used = true ∧ p.reapPending = true)
    (ha : p.addressSpace = some a) (hcur : k.currentAs ≠ .page a) :
    k.processReapDeferred = (k.withMachine (k.machine.vmmDestroyAddressSpace a)).clearEntry 0 := by
  refine forRange_invariant
    (P := fun i k' => k' = if i = 0 then k else (k.withMachine (k.machine.vmmDestroyAddressSpace a)).clearEntry 0)
    (by decide) rfl fun i k' _ _ hk' => by
    rw [if_neg (Nat.succ_ne_zero i)]
    by_cases hi : i = 0
    · have hspace : k.reapSpace k.currentAs 0 = (true, k.withMachine (k.machine.vmmDestroyAddressSpace a)) := by
        unfold reapSpace
        rw [h.procs, update_self, if_neg (by simp [hp.1, hp.2]), ha]
        exact if_neg hcur
      rw [hk', if_pos hi, hi]
      unfold reapEntry
      rw [hspace]
    · -- The other entries are not used.
      have hnone : ((k.withMachine (k.machine.vmmDestroyAddressSpace a)).clearEntry 0).reapSpace k.currentAs i =
          (false, (k.withMachine (k.machine.vmmDestroyAddressSpace a)).clearEntry 0) := by
        refine if_pos (Or.inl ?_)
        rw [clearEntry, setProc_procs, update_of_ne hi, withMachine_procs, h.procs, update_of_ne hi]
        decide
      rw [hk', if_neg hi]
      unfold reapEntry
      rw [hnone]

theorem beginKill (h : k.OneProcess t₀ t₁ t₂ 0 p) (hp : p.used = true ∧ p.pid = 1 ∧ p.exited = false)
    (hpid : t₀.pid = 0 ∧ t₁.pid = 0 ∧ t₂.pid = 1) (h₂ : t₂.Live) :
    ∃ m cr3, k.beginKill 1 0 =
      (0, some 0, k.withSched (.three t₀ t₁ { t₂ with exitCode := 0, state := .zombie } 0 0 m cr3)) := by
  obtain ⟨m, cr3, hs⟩ := h.sched
  have hfind : k.findProcessByPid 1 = some 0 := by
    unfold findProcessByPid firstProc
    rw [h.procs]
    simp [maxProcesses, List.range_succ, hp.1, hp.2.1]
  have hkill : k.sched.killSlot 1 = some 2 := by
    unfold Sched.killSlot Sched.firstSlot
    rw [hs]
    have : ¬(t₂.state = .new ∨ t₂.state = .zombie) := by
      rcases h₂ with h | h | h <;> rw [h] <;> decide
    simp [Sched.three, maxTasks, List.range_succ, hpid.1, hpid.2.1, hpid.2.2, this]
  have htask : k.sched.taskKillPid 1 0 = (0, .three t₀ t₁ { t₂ with exitCode := 0, state := .zombie } 0 0 m cr3) := by
    unfold Sched.taskKillPid
    rw [if_neg (by decide), hkill, hs]
    dsimp only
    rw [Sched.modify_three (by decide)]
    rfl
  refine ⟨m, cr3, ?_⟩
  unfold Kernel.beginKill
  rw [hfind]
  dsimp only
  rw [h.procs, update_self, hp.2.2, htask]
  rfl

theorem kill (h : k.OneProcess t₀ t₁ t₂ 0 p) (hsh : k.shell = .idle) (h₀ : t₀.state = .running)
    (hp : p.used = true ∧ p.pid = 1 ∧ p.exited = false) (hpid : t₀.pid = 0 ∧ t₁.pid = 0 ∧ t₂.pid = 1) (h₂ : t₂.Live) :
    ∃ k', ((kernels fw img).guard Orderly).Path k [.resume, .kill 1 0] k' ∧
      k'.OneProcess t₀ t₁ { t₂ with exitCode := 0, state := .zombie } 0
        { p with exited := true, exitCode := 0, reapPending := true } ∧
      k'.machine = k.machine ∧ k'.nextPid = k.nextPid ∧ k'.shell = .idle := by
  have hshell : k.InShell := by
    obtain ⟨m, cr3, hs⟩ := h.sched
    unfold InShell
    rw [hs]
    exact ⟨rfl, h₀⟩
  obtain ⟨m, cr3, hkill⟩ := h.beginKill hp hpid h₂
  have hbegin : k.shellKill 1 0 =
      (k.withSched (.three t₀ t₁ { t₂ with exitCode := 0, state := .zombie } 0 0 m cr3)).withShell (.mark 0 0) := by
    unfold shellKill
    rw [hkill]
  have hkilled : ((kernels fw img).guard Orderly).step k (.kill 1 0) (k.shellKill 1 0) :=
    ⟨.plain (fun hne => absurd hsh hne) rfl rfl nofun, hshell, hsh, rfl⟩
  have hmarked : ((kernels fw img).guard Orderly).step (k.shellKill 1 0) .resume (k.shellKill 1 0).resumeShell := by
    rw [hbegin]
    exact ⟨.plain (fun _ => rfl) rfl rfl nofun, ⟨rfl, h₀⟩, nofun, rfl⟩
  refine ⟨_, (Lts.System.Path.nil.snoc hkilled).snoc hmarked, ?_⟩
  rw [hbegin]
  refine ⟨⟨⟨m, cr3, rfl⟩, ?_⟩, rfl, rfl, rfl⟩
  show update k.procs 0 { k.procs 0 with exited := true, exitCode := 0, reapPending := true } = _
  rw [h.procs, update_idem, update_self]

theorem reap (h : k.OneProcess t₀ t₁ t₂ 0 p) (hsh : k.shell = .idle) (h₀ : t₀.state = .running)
    (has : t₀.addressSpace = .kernel) (hp : p.used = true ∧ p.reapPending = true) (ha : p.addressSpace = some a) :
    ((kernels fw img).guard Orderly).Path k [.resume, .reap]
      ((k.withMachine (k.machine.vmmDestroyAddressSpace a)).withShell (.clear 0 .kernel)) := by
  obtain ⟨m, cr3, hs⟩ := h.sched
  have hshell : k.InShell := by
    unfold InShell
    rw [hs]
    exact ⟨rfl, h₀⟩
  have hcur : k.currentAs = .kernel := by
    unfold currentAs
    rw [hs]
    exact has
  have hbegin : k.reapFrom 0 k.currentAs = k.withShell (.reap 0 .kernel) := by
    rw [hcur]
    rfl
  have hfirst : ((kernels fw img).guard Orderly).step k .reap (k.reapFrom 0 k.currentAs) :=
    ⟨.plain (fun hne => absurd hsh hne) rfl rfl nofun, hshell, hsh, rfl⟩
  have hspace : (k.withShell (.reap 0 .kernel)).reapSpace .kernel 0 =
      (true, (k.withShell (.reap 0 .kernel)).withMachine (k.machine.vmmDestroyAddressSpace a)) := by
    unfold reapSpace
    rw [withShell_procs, h.procs, update_self, if_neg (by simp [hp.1, hp.2]), ha]
    rfl
  have hdestroyed : ((kernels fw img).guard Orderly).step (k.reapFrom 0 k.currentAs) .resume
      ((k.withMachine (k.machine.vmmDestroyAddressSpace a)).withShell (.clear 0 .kernel)) := by
    rw [hbegin]
    refine ⟨.plain (fun _ => rfl) rfl rfl nofun, hshell, nofun, ?_⟩
    exact (resumeShell_destroyed rfl hspace).symm
  exact (Lts.System.Path.nil.snoc hfirst).snoc hdestroyed

theorem reapEntry (h : k.OneProcess t₀ t₁ t₂ 0 p) (hsh : k.shell = .idle) (h₀ : t₀.state = .running)
    (has : t₀.addressSpace = .kernel) (hp : p.used = true ∧ p.reapPending = true) (ha : p.addressSpace = some a) :
    ((kernels fw img).guard Orderly).Path k [.resume, .resume, .reap]
      (((k.withMachine (k.machine.vmmDestroyAddressSpace a)).withShell (.clear 0 .kernel)).resumeShell) ∧
    ((k.withMachine (k.machine.vmmDestroyAddressSpace a)).withShell (.clear 0 .kernel)).resumeShell.procs 0 =
      { p with addressSpace := none, reapPending := false, mainTid := -1 } := by
  obtain ⟨m, cr3, hs⟩ := h.sched
  have hshell : ((k.withMachine (k.machine.vmmDestroyAddressSpace a)).withShell (.clear 0 .kernel)).InShell := by
    unfold InShell
    rw [withShell_sched, withMachine_sched, hs]
    exact ⟨rfl, h₀⟩
  have hclear : ((kernels fw img).guard Orderly).step
      ((k.withMachine (k.machine.vmmDestroyAddressSpace a)).withShell (.clear 0 .kernel)) .resume _ :=
    ⟨.plain (fun _ => rfl) rfl rfl nofun, hshell, nofun, rfl⟩
  refine ⟨(h.reap hsh h₀ has hp ha).snoc hclear, ?_⟩
  show update k.procs 0 { k.procs 0 with addressSpace := none, reapPending := false, mainTid := -1 } 0 = _
  rw [update_self, h.procs, update_self]

/-- A slot for a task beside the process that has ended, whose own slot keeps its stack. -/
theorem exists_findFreeSlot (h : k.OneProcess t₀ t₁ t₂ cur p) (h₀ : t₀.Live) (h₁ : t₁.Live) (h₂ : t₂.state = .zombie) :
    ∃ t, t ≠ 0 ∧ k.sched.findFreeSlot = some (t, 0, k.sched) := by
  obtain ⟨m, cr3, hs⟩ := h.sched
  by_cases hstack : t₂.kernelStack = 0
  · refine ⟨2, by decide, ?_⟩
    rw [hs]
    unfold Sched.findFreeSlot
    simp [Sched.firstSlot, Sched.three, maxTasks, List.range_succ, h₀.not_ended, h₁.not_ended, h₂, hstack]
  · refine ⟨3, by decide, ?_⟩
    rw [hs]
    unfold Sched.findFreeSlot
    simp [Sched.firstSlot, Sched.three, maxTasks, List.range_succ, h₀.not_ended, h₁.not_ended, hstack, Task.blank]

end OneProcess

theorem reap_unused (hs : k.InShell) :
    ∀ {n i : Nat}, i + n = maxProcesses → (∀ j, i ≤ j → (k.procs j).used = false) →
      ((kernels fw img).guard Orderly).Path (k.reapFrom i current) (List.replicate n .resume) (k.withShell .idle)
  | 0, i, hn, _ => by
    have hlast : k.reapFrom i current = k.withShell .idle := by
      unfold reapFrom
      rw [if_neg (by omega)]
    rw [hlast]
    exact .nil
  | n + 1, i, hn, hu => by
    have hnext : k.reapFrom i current = k.withShell (.reap i current) := by
      unfold reapFrom
      rw [if_pos (by omega)]
    have hskip : (k.withShell (.reap i current)).reapSpace current i = (false, k.withShell (.reap i current)) :=
      if_pos (Or.inl (by rw [withShell_procs, hu i (Nat.le_refl i)]; decide))
    have hstep : ((kernels fw img).guard Orderly).step (k.reapFrom i current) .resume (k.reapFrom (i + 1) current) := by
      rw [hnext]
      refine ⟨.plain (fun _ => rfl) rfl rfl nofun, hs, nofun, ?_⟩
      exact (resumeShell_skipped rfl hskip).symm
    rw [List.replicate_succ']
    exact (Lts.System.Path.nil.snoc hstep).append (reap_unused hs (by omega) fun j hj => hu j (by omega))

theorem OneProcess.reapAll {t₂ : Task} {p : Process} (h : k.OneProcess t₀ t₁ t₂ 0 p) (hsh : k.shell = .idle)
    (h₀ : t₀.state = .running) (has : t₀.addressSpace = .kernel) (hp : p.used = true ∧ p.reapPending = true) {a : Nat}
    (ha : p.addressSpace = some a) :
    ((kernels fw img).guard Orderly).Path k (List.replicate 15 .resume ++ [.resume, .resume, .reap])
      (((k.withMachine (k.machine.vmmDestroyAddressSpace a)).clearEntry 0).withShell .idle) ∧
    (((k.withMachine (k.machine.vmmDestroyAddressSpace a)).clearEntry 0).withShell .idle).OneProcess t₀ t₁ t₂ 0
      { p with addressSpace := none, reapPending := false, mainTid := -1 } := by
  obtain ⟨m, cr3, hs⟩ := h.sched
  have hprocs : ((k.withMachine (k.machine.vmmDestroyAddressSpace a)).clearEntry 0).procs =
      update (fun _ => .blank) 0 { p with addressSpace := none, reapPending := false, mainTid := -1 } := by
    show update k.procs 0 { k.procs 0 with addressSpace := none, reapPending := false, mainTid := -1 } = _
    rw [h.procs, update_idem, update_self]
  refine ⟨(h.reapEntry hsh h₀ has hp ha).1.append ?_, ⟨m, cr3, hs⟩, hprocs⟩
  refine reap_unused (k := (k.withMachine (k.machine.vmmDestroyAddressSpace a)).clearEntry 0) ?_
    (i := 1) rfl fun j hj => ?_
  · show k.InShell
    unfold InShell
    rw [hs]
    exact ⟨rfl, h₀⟩
  · rw [hprocs, update_of_ne (by omega)]
    rfl

/-- A kernel with a shell, an idle task and no process. -/
structure Idle (k : Kernel) (use : Nat → Use) (t₀ t₁ : Task) (cur : Int) : Prop where
  memory : HeapMemory k use
  room : k.machine.pmm.Room 0x10000 0x20000 780
  sched : ∃ m cr3, k.sched = .three t₀ t₁ .blank cur 0 m cr3
  shell : t₀.Live
  idle : t₁.Live
  procs : k.procs = fun _ => .blank
  nextPid : k.nextPid = 1

theorem Idle.findFreeSlot (h : k.Idle use t₀ t₁ cur) :
    k.sched.findFreeSlot = some (2, 0, k.sched) := by
  obtain ⟨m, cr3, hs⟩ := h.sched
  rw [hs]
  exact Sched.findFreeSlot_three h.shell h.idle

theorem Idle.allocProcessSlot (h : k.Idle use t₀ t₁ cur) : k.allocProcessSlot = some 0 := by
  unfold Kernel.allocProcessSlot
  rw [h.procs]
  rfl

theorem Idle.canSpawn (h : k.Idle use t₀ t₁ cur) {img : Image}
    (hav : k.machine.Avoids img) : k.CanSpawn img :=
  ⟨fun _ => hav, fun _ _ slot freed s hf hne => by
    cases h.findFreeSlot.symm.trans hf
    exact absurd rfl hne⟩

theorem Idle.oneProcess (h : k.Idle use t₀ t₁ cur) :
    k.OneProcess t₀ t₁ .blank cur .blank :=
  ⟨h.sched, h.procs.trans (update_eq_self 0 _).symm⟩

theorem Idle.kernelPml4_ne_zero (h : k.Idle use t₀ t₁ cur) :
    k.machine.kernelPml4 ≠ 0 := by
  have := (h.memory.layout.tables.range h.memory.layout.tables.kernelRoot).1
  omega

theorem Idle.spawn (h : k.Idle use t₀ t₁ cur) :
    ∃ prog r k' use', k.Spawned use bareImage 0 2 { free := k.machine.pmm.freeCount - 9, pages := Budget.stackPages }
      prog r k' use' ∧
      k'.machine.pmm.Room 0x10000 0x20000 794 := by
  have hcount := h.room.count
  obtain ⟨prog, r, k', use', hsp, hroom⟩ := prepareSpawn_of_budget h.memory h.memory.layout.avoids_bare
    h.allocProcessSlot h.findFreeSlot (Budget.loadProgram_bare k.machine.shares_stack (by omega)) h.room
      (by dsimp only; omega)
  exact ⟨prog, r, k', use', hsp, hroom.pos, hroom.inside, by have := hroom.count; dsimp only at this; omega⟩

namespace Spawned
variable {use use' : Nat → Use} {img : Image} {slot t r : Nat} {b : Budget} {prog : Program}

theorem processSpawnFromElf (h : k.Spawned use img slot t b prog r k' use') :
    k.processSpawnFromElf img = .ok (k.nextPid.toInt, k'.setProc slot (prog.process k.nextPid.toInt t)) := by
  unfold Kernel.processSpawnFromElf
  rw [h.prepared]
  rfl

theorem tables (h : k.Spawned use img slot t b prog r k' use') :
    k'.procs = k.procs ∧ k'.nextPid = k.nextPid + 1 ∧ k'.shell = k.shell := by
  have hprep := h.prepared
  generalize prog.process k.nextPid.toInt t = p at hprep
  cases prepareSpawn_tables hprep with
  | starts _ _ _ _ hp hn hsh => exact ⟨hp, hn, hsh⟩

theorem root_ne_zero (h : k.Spawned use img slot t b prog r k' use') : r ≠ 0 := by
  obtain ⟨f, -, hf⟩ := h.program.page
  have := (h.memory.layout.tables.range (h.memory.layout.tables.node_root hf)).1
  omega

/-- The address space of the new process is destroyed: the pages that become free were free before the spawn. -/
theorem room_destroy {lo hi taken taken' : Nat} (h : k.Spawned use img slot t b prog r k' use') (hm : HeapMemory k use)
    (hroom : k.machine.pmm.Room lo hi taken) (hroom' : k'.machine.pmm.Room lo hi taken') :
    (k'.machine.vmmDestroyAddressSpace prog.space).pmm.Room lo hi taken' := by
  have hspace := h.program.space
  have hgrows := hm.layout.grows_destroy h.grows h.program.root_free
  have hfree q := ((h.memory.layout.vmmDestroyAddressSpace hspace).owned.free_iff q).symm
  refine ⟨hroom.pos, fun q hq => hroom.inside q ?_, Nat.le_trans hroom'.count (Nat.add_le_add_right ?_ taken')⟩
  · exact (hm.layout.owned.free_iff q).mp (hgrows.free ((hfree q).mp hq))
  · refine Pmm.freeCount_mono (Layout.destroy_totalPages _ _) fun q hq => (hfree q).mpr ?_
    rw [(h.memory.layout.owned.free_iff q).mpr hq]
    rfl

end Spawned

theorem Idle.bootSpawn {image : KernelImage} {use' : Nat → Use} {b : Budget} {prog : Program} {r : Nat}
    (h : k.Idle use t₀ t₁ (-1)) (hsh : k.shell = .idle) (hsp : k.Spawned use bareImage 0 2 b prog r k' use') :
    ((kernels fw image).guard Orderly).step k (.bootSpawn bareImage)
      (k'.setProc 0 (prog.process k.nextPid.toInt 2)) := by
  obtain ⟨m, cr3, hs⟩ := h.sched
  refine ⟨⟨fun hne => absurd hsh hne, fun _ => by rw [h.nextPid]; decide, ?_, nofun⟩, ?_, _, hsp.processSpawnFromElf⟩
  · intro img himg
    cases himg
    exact h.canSpawn h.memory.layout.avoids_bare
  · rw [hs]
    show (-1 : Int) < 0
    decide

theorem exists_idle (mem : Mem) :
    ∃ k use stack₀ stack₁, Kernel.boot samplePlatform.toBootInfo Pmm.sampleImage mem (fun _ => 0#8) 0 0 =
    .ok (some 0, some 1, k) ∧ k.Idle use (Sched.created stack₀ 0 k.machine.kernelPml4 false .kernel)
      (Sched.created stack₁ 0 k.machine.kernelPml4 false .kernel) (-1) ∧ k.shell = .idle := by
  obtain ⟨k, hb, hbooted⟩ := exists_boot mem
  obtain ⟨use, hi, -⟩ := SpaceInv.boot hb
  obtain ⟨stack₀, stack₁, hs⟩ := hbooted.sched
  rw [Sched.booted_eq] at hs
  exact ⟨k, use, stack₀, stack₁, hb,
    ⟨hi.memory, hbooted.room, ⟨_, _, hs⟩, Or.inl rfl, Or.inl rfl, hbooted.procs, hbooted.nextPid⟩, hbooted.shell⟩

theorem exists_spawned (mem : Mem) : ∃ k₀ k₁ k' stack₀ stack₁ stack r, ∃ prog : Program, sampleKernels.init k₀ ∧
    k₀.prepareSpawn bareImage = .ok (some (0, prog.process 1 2), k') ∧
    (sampleKernels.guard Orderly).step k₀ (.bootSpawn bareImage) k₁ ∧
    k₁.OneProcess (Sched.created stack₀ 0 k₁.machine.kernelPml4 false .kernel)
      (Sched.created stack₁ 0 k₁.machine.kernelPml4 false .kernel)
      (Sched.created stack 1 r true (.page prog.space)) (-1) (prog.process 1 2) ∧ k₁.shell = .idle ∧
    k₁.machine.kernelPml4 ≠ 0 ∧ r ≠ 0 ∧ k₁.nextPid = 2 ∧
    (k₁.machine.vmmDestroyAddressSpace prog.space).pmm.Room 0x10000 0x20000 794 := by
  obtain ⟨k₀, use, stack₀, stack₁, hb, hidle, hsh⟩ := exists_idle mem
  obtain ⟨prog, r, k', use', hsp, hroom⟩ := hidle.spawn
  obtain ⟨m, cr3, hs⟩ := hidle.sched
  obtain ⟨stack, hs'⟩ := hsp.sched
  obtain ⟨hprocs, hpid, hshell⟩ := hsp.tables
  have hone : k₀.nextPid.toInt = 1 := by
    rw [hidle.nextPid]
    decide
  have hprep := hsp.prepared
  rw [hone] at hprep hs'
  have hfirst : (sampleKernels.guard Orderly).step k₀ (.bootSpawn bareImage) _ := hidle.bootSpawn hsh hsp
  rw [hone] at hfirst
  refine ⟨k₀, _, k', stack₀, stack₁, stack, r, prog, sampleKernels_init hb, hprep, hfirst, ⟨⟨m, cr3, ?_⟩, ?_⟩,
    hshell.trans hsh, ?_, hsp.root_ne_zero, ?_, hsp.room_destroy hidle.memory hidle.room hroom⟩
  · rw [setProc_machine, hsp.kernelPml4, setProc_sched, hs', hs, Sched.install, Sched.modify_three (by decide)]
    rfl
  · rw [setProc_procs, hprocs, hidle.procs]
  · rw [setProc_machine, hsp.kernelPml4]
    exact hidle.kernelPml4_ne_zero
  · show k'.nextPid = 2
    rw [hpid, hidle.nextPid]
    rfl

/-- The shell is running and has killed the process. -/
structure Killed (k : Kernel) (prog : Program) (t₀ t₁ t₂ : Task) : Prop where
  process : k.OneProcess t₀ t₁ t₂ 0 { prog.process 1 2 with exited := true, exitCode := 0, reapPending := true }
  shell : k.shell = .idle
  running : t₀.state = .running
  kernelSpace : t₀.addressSpace = .kernel
  idle : t₁.state = .runnable ∧ t₁.isUser = false
  kernelPml4 : k.machine.kernelPml4 ≠ 0
  shellTask : t₀.isUser = false
  ended : t₂.state = .zombie

/-- A run that spawns a process, starts the shell and kills the process. -/
theorem exists_killed (mem : Mem) : ∃ k₀ k₁ k₂ k' prog t₀ t₁ t₂, sampleKernels.init k₀ ∧
    k₀.prepareSpawn bareImage = .ok (some (0, prog.process 1 2), k') ∧
    (sampleKernels.guard Orderly).step k₀ (.bootSpawn bareImage) k₁ ∧
    (sampleKernels.guard Orderly).Path k₁ [.resume, .kill 1 0, .schedule] k₂ ∧ k₂.Killed prog t₀ t₁ t₂ := by
  obtain ⟨k₀, k, k', stack₀, stack₁, stack, r, prog, h₀, hprep, hfirst, hproc, hsh, hk, -⟩ := exists_spawned mem
  obtain ⟨k₁, hstart, hproc₁, hm₁, -, hsh₁⟩ := hproc.schedule rfl rfl rfl hk
  obtain ⟨k₂, hkill, hproc₂, hm₂, -, hidle₂⟩ : ∃ k₂, (sampleKernels.guard Orderly).Path k₁ _ k₂ ∧ _ :=
    hproc₁.kill (hsh₁.trans hsh) rfl ⟨rfl, rfl, rfl⟩ ⟨rfl, rfl, rfl⟩ (Or.inl rfl)
  have hstart' : (sampleKernels.guard Orderly).step k .schedule k₁ :=
    ⟨.plain (fun hne => absurd hsh hne) rfl rfl nofun, hstart⟩
  exact ⟨k₀, k, k₂, k', prog, _, _, _, h₀, hprep, hfirst, (Lts.System.Path.nil.snoc hstart').append hkill,
    hproc₂, hidle₂, rfl, rfl, ⟨rfl, rfl⟩, by rw [hm₂, hm₁]; exact hk, rfl, rfl⟩

/-- A process is running, and the shell and the idle task wait for their turns. -/
structure InProcess (k : Kernel) (t₀ t₁ t₂ : Task) (p : Process) : Prop where
  process : k.OneProcess t₀ t₁ t₂ 2 p
  entry : p.used = true ∧ p.pid = 1 ∧ p.exited = false ∧ p.reapPending = false
  shell : t₀.state = .runnable ∧ t₀.isUser = false ∧ t₀.pid = 0
  idle : t₁.state = .runnable ∧ t₁.isUser = false ∧ t₁.pid = 0
  running : t₂.state = .running ∧ t₂.isUser = true ∧ t₂.pid = 1
  kernelPml4 : k.machine.kernelPml4 ≠ 0
  atRest : k.shell = .idle

/-- A run that spawns a process and lets it run. -/
theorem exists_inProcess (mem : Mem) : ∃ k t₀ t₁ t₂ p, sampleKernels.Reachable k ∧ k.InProcess t₀ t₁ t₂ p := by
  obtain ⟨k₀, k₁, -, stack₀, stack₁, stack, r, prog, h₀, -, hfirst, hproc, hsh, hk, hroot, -⟩ := exists_spawned mem
  obtain ⟨k₂, hstart, hproc₂, hm₂, -, hsh₂⟩ := hproc.schedule rfl rfl rfl hk
  have hr₂ : sampleKernels.Reachable k₂ :=
    ((System.Reachable.init h₀).step hfirst.2).step (show sampleKernels.step k₁ .schedule k₂ from hstart)
  have hk₂ : k₂.machine.kernelPml4 ≠ 0 := hm₂ ▸ hk
  obtain ⟨k₃, hp₃, hproc₃, hm₃, -, hsh₃⟩ : ∃ k₃, sampleKernels.Path _ _ k₃ ∧ _ := hproc₂.toIdle rfl rfl rfl rfl hk₂ 0
  obtain ⟨k₄, hp₄, hproc₄, hm₄, -, hsh₄⟩ : ∃ k₄, sampleKernels.Path _ _ k₄ ∧ _ :=
    hproc₃.toUser rfl rfl rfl rfl nofun hroot 0
  refine ⟨k₄, _, _, _, _, hp₄.reachable (hp₃.reachable hr₂), hproc₄, ⟨rfl, rfl, rfl, rfl⟩, ⟨rfl, rfl, rfl⟩,
    ⟨rfl, rfl, rfl⟩, ⟨rfl, rfl, rfl⟩, ?_, hsh₄.trans (hsh₃.trans (hsh₂.trans hsh))⟩
  rw [hm₄, hm₃]
  exact hk₂

end Kernel
end SamOS
