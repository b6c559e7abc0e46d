import SamOS.KernelRuns

/-! The calls of `context_switch_from` in runs of the kernel. The idle task is always there to be picked, so no switch
    goes back to a task that has ended or sleeps. -/

namespace SamOS
open Lts Result

/-! ### Which changes bring a task back -/

namespace Sched
variable {s s' s'' : Sched} {reused woken : Nat → Prop}

/-- No task that has ended comes back, except in the slots `reused`, and no task stops waiting, except those `woken`. -/
structure Stays (reused woken : Nat → Prop) (s s' : Sched) : Prop where
  zombie : ∀ t < maxTasks, (s.tasks t).state = .zombie → (s'.tasks t).state = .zombie ∨ reused t
  waiting : ∀ t < maxTasks, (s.tasks t).state = .waiting →
    (s'.tasks t).state = .waiting ∨ (s'.tasks t).state = .zombie ∨ woken t

namespace Stays

theorem of_tasks (h : s'.tasks = s.tasks) : Stays reused woken s s' :=
  ⟨fun _ _ hz => Or.inl (h ▸ hz), fun _ _ hw => Or.inl (h ▸ hw)⟩

theorem trans (h : Stays reused woken s s') (h' : Stays (fun _ => False) (fun _ => False) s' s'') :
    Stays reused woken s s'' where
  zombie t ht hz := (h.zombie t ht hz).imp_left fun hz' => (h'.zombie t ht hz').resolve_right id
  waiting t ht hw := by
    rcases h.waiting t ht hw with hw' | hz' | hwoken
    · exact (h'.waiting t ht hw').imp_right fun h => Or.inl (h.resolve_right id)
    · exact Or.inr (Or.inl ((h'.zombie t ht hz').resolve_right id))
    · exact Or.inr (Or.inr hwoken)

theorem modify {i : Nat} {f : Task → Task}
    (hz : (s.tasks i).state = .zombie → (f (s.tasks i)).state = .zombie ∨ reused i)
    (hw : (s.tasks i).state = .waiting → (f (s.tasks i)).state = .waiting ∨ (f (s.tasks i)).state = .zombie ∨ woken i) :
    Stays reused woken s (s.modify i f) := by
  constructor <;> intro t _ hst <;> by_cases hti : t = i
  · subst hti
    rw [modify_tasks_same]
    exact hz hst
  · rw [modify_tasks_of_ne hti]
    exact Or.inl hst
  · subst hti
    rw [modify_tasks_same]
    exact hw hst
  · rw [modify_tasks_of_ne hti]
    exact Or.inl hst

theorem modify_awake {i : Nat} {f : Task → Task} (h : (s.tasks i).state ≠ .zombie ∧ (s.tasks i).state ≠ .waiting) :
    Stays reused woken s (s.modify i f) :=
  modify (fun hz => absurd hz h.1) fun hw => absurd hw h.2

theorem suspend (s : Sched) (rsp : Nat) : Stays reused woken s (s.suspend rsp) := by
  unfold Sched.suspend
  split
  · refine modify (fun hz => Or.inl ?_) fun hw => Or.inl ?_
    · simp [hz]
    · simp [hw]
  · exact of_tasks rfl

theorem contextSwitchFrom {kernelPml4 rsp next : Nat} (hp : (s.suspend rsp).pickNextRunnable ≠ none)
    (h : s.contextSwitchFrom kernelPml4 rsp = .ok (next, s')) : Stays reused woken s s' := by
  have hawake : ∀ {i}, (s.suspend rsp).pickNextRunnable = some i →
      ((s.suspend rsp).tasks i).state ≠ .zombie ∧ ((s.suspend rsp).tasks i).state ≠ .waiting := fun hi => by
    rcases (pickNextRunnable_eq_some hi).2 with hst | hst <;> simp [hst]
  rcases contextSwitchFrom_cases h with ⟨hn, -⟩ | ⟨hcur, -, -, rfl⟩ | ⟨i, cr3, hi, -, -, -, rfl⟩
  · exact absurd hn hp
  · exact (suspend s rsp).trans (modify_awake (hawake (hcur.resolve_left hp)))
  · have hswitch : Stays (fun _ => False) (fun _ => False) (s.suspend rsp)
        ((s.suspend rsp).modify i fun t => { t with state := .running, timeslice := t.timeslice + 1 }) :=
      modify_awake (hawake hi)
    exact (suspend s rsp).trans ⟨hswitch.zombie, hswitch.waiting⟩

end Stays

theorem Ready.of_tasks (h : s.Ready) (ht : s'.tasks = s.tasks) (hc : s'.currentTid = s.currentTid) : s'.Ready :=
  h.keeps (.of_tasks ht) (hc ▸ h.bound) (ht ▸ h.idle.1)

/-- What `task_kill_pid` does: nothing, or it ends a live task with that positive pid. -/
theorem taskKillPid_cases (s : Sched) (pid code : Int) :
    (s.taskKillPid pid code).2 = s ∨
    ∃ t < maxTasks, 0 < (s.tasks t).pid ∧ (s.tasks t).state ≠ .zombie ∧
      (s.taskKillPid pid code).2 = s.ended t code := by
  rcases s.taskKillPid_eq pid code with he | ⟨t, hpos, hk, he⟩
  · exact Or.inl he
  · obtain ⟨ht, hp, -, hz⟩ := killSlot_eq_some hk
    exact Or.inr ⟨t, ht, hp ▸ hpos, hz, he⟩

theorem Stays.ended {t : Nat} (code : Int) (hz : (s.tasks t).state ≠ .zombie) : Stays reused woken s (s.ended t code) :=
  .modify (fun h => absurd h hz) fun _ => Or.inr (Or.inl rfl)

theorem Ready.taskKillPid (h : s.Ready) (pid code : Int) :
    (s.taskKillPid pid code).2.Ready ∧ Stays reused woken s (s.taskKillPid pid code).2 ∧
    (s.taskKillPid pid code).2.currentTid = s.currentTid ∧ (s.taskKillPid pid code).2.sliceTicks = s.sliceTicks := by
  rcases s.taskKillPid_cases pid code with he | ⟨t, -, hpid, hz, he⟩ <;> rw [he]
  · exact ⟨h, .of_tasks rfl, rfl, rfl⟩
  · obtain ⟨h0, h1⟩ := h.ne_of_pid hpid
    exact ⟨h.ended code h0 h1, .ended code hz, rfl, rfl⟩

end Sched

/-! ### The calls of `context_switch_from` -/

namespace Sched

@[simp] theorem offered_currentTid (s : Sched) : s.offered.currentTid = s.currentTid := by
  unfold offered
  split <;> rfl

@[simp] theorem offered_sliceTicks (s : Sched) : s.offered.sliceTicks = s.sliceTicks := by
  unfold offered
  split <;> rfl

theorem Stays.offered (s : Sched) {reused woken : Nat → Prop} : Stays reused woken s s.offered := by
  unfold Sched.offered
  split
  · rename_i h
    exact .modify_awake ⟨h.2.2, h.2.1⟩
  · exact .of_tasks rfl

end Sched

namespace Kernel

/-- `syscall_dispatch` up to the end of its switch statement: the result of the call. -/
def syscallResult (k : Kernel) : Syscall → Except String (Word × Kernel)
  | .write ptr len => .ok ((k.sysWrite ptr len).1, k)
  | .exit code => .ok (Sched.retErr 11, k.sysExit code)
  | .yield => .ok (0, k)
  | .spawn img => k.sysSpawn img
  | .getpid => .ok (k.sysGetpid, k)
  | .unknown => .ok (Sched.retErr 38, k)

/-- In the step `e` from `k`, `context_switch_from(rsp)` is called when the scheduler is in the state `s`. -/
inductive Switches (k : Kernel) : KernelEvent → Sched → Nat → Prop
  | schedule (hc : k.sched.currentTid < 0) : Switches k .schedule k.sched 0
  | tick {rsp : Nat} (hs : ¬k.sched.InSlice) : Switches k (.tick rsp) { k.sched with sliceTicks := 0 } rsp
  | syscall {frame : Nat} {call : Syscall} {ret : Word} {k₁ : Kernel} (hu : k.InUser)
    (hr : k.syscallResult call = .ok (ret, k₁))
      (hret : Sched.Reschedules ret) (hf : frame ≠ 0) : Switches k (.syscall frame call) k₁.sched.offered frame

/-- The slot is one that a spawn is given by `find_free_slot`. -/
def Reuses (k : Kernel) (e : KernelEvent) (t : Nat) : Prop :=
  spawns e = true ∧ ∃ freed s, k.sched.findFreeSlot = some (t, freed, s)

section Calls
variable {k k' k₁ : Kernel}

theorem processReapDeferred_sched (k : Kernel) :
    k.processReapDeferred.sched = k.sched ∧ k.processReapDeferred.machine.kernelPml4 = k.machine.kernelPml4 := by
  unfold processReapDeferred
  refine Loop.forRange_keeps (P := fun k' : Kernel => k'.sched = k.sched ∧ k'.machine.kernelPml4 = k.machine.kernelPml4)
    (And.intro rfl rfl) ?_
  rintro i k' - - h
  unfold reapEntry
  rcases k'.reapSpace_cases k.currentAs i with he | ⟨-, -, ⟨-, he⟩ | ⟨a, -, -, he⟩⟩ <;> rw [he]
  · exact h
  · exact h
  · exact h

variable {rsp next : Nat} {s : Sched} {ret : Word} {e : KernelEvent}

theorem contextSwitchFrom_sched (h : k.contextSwitchFrom rsp = .ok (next, k')) :
    k.sched.contextSwitchFrom k.machine.kernelPml4 rsp = .ok (next, k'.sched) := by
  unfold contextSwitchFrom at h
  obtain ⟨⟨n, s⟩, hsw, h⟩ := of_bind_eq_ok h
  rw [k.processReapDeferred_sched.1, k.processReapDeferred_sched.2] at hsw
  cases h
  exact hsw

theorem contextSwitchFrom_ok (h : k.sched.contextSwitchFrom k.machine.kernelPml4 rsp = .ok (next, s)) :
    ∃ k', k.contextSwitchFrom rsp = .ok (next, k') ∧ k'.sched = s ∧ k'.machine.kernelPml4 = k.machine.kernelPml4 := by
  obtain ⟨hs, hp⟩ := k.processReapDeferred_sched
  unfold contextSwitchFrom
  generalize k.processReapDeferred = k₁ at hs hp
  rw [← hs, ← hp] at h
  exact ⟨k₁.withSched s, congrArg (· >>= _) h, rfl, hp⟩

/-- A tick of the kernel is one of its scheduler. -/
theorem scheduleOnTick_sched (h : k.scheduleOnTick rsp = .ok (next, k')) :
    k.sched.scheduleOnTick k.machine.kernelPml4 rsp = .ok (next, k'.sched) := by
  unfold Sched.scheduleOnTick
  rcases scheduleOnTick_cases h with ⟨⟨h0, hrun, hlt⟩, rfl, rfl⟩ | ⟨hout, h⟩
  · rw [if_pos ⟨h0, hrun⟩]
    exact if_pos hlt
  · have hsw := contextSwitchFrom_sched h
    split
    · rename_i hrun
      exact (if_neg fun hlt => hout ⟨hrun.1, hrun.2, hlt⟩).trans hsw
    · exact hsw

theorem syscallReturn_sched {frame : Nat} (h : k.syscallReturn frame ret = .ok (next, k')) :
    k.sched.syscallReturn k.machine.kernelPml4 frame ret = .ok (next, k'.sched) := by
  rcases syscallReturn_cases h with ⟨hret, hf, h⟩ | ⟨hret, rfl, rfl⟩
  · have hsw := contextSwitchFrom_sched h
    rw [withSched_sched, withSched_machine] at hsw
    rw [Sched.syscallReturn, if_pos hret, Sched.taskScheduleFromInterrupt, if_neg hf, hsw]
  · exact if_neg hret

theorem taskCreate_slot {n : NewTask} {tid : Option Nat} (h : k.taskCreate n = .ok (tid, k')) :
    k'.sched = k.sched ∨ ∃ t freed s f, k.sched.findFreeSlot = some (t, freed, s) ∧ k'.sched = k.sched.modify t f ∧
      ((f (k.sched.tasks t)).Live → (f (k.sched.tasks t)).isUser = n.isUser) := by
  obtain ⟨⟨stack, freed, hc⟩, -⟩ := taskCreate_sched h
  rcases k.sched.taskCreate_cases stack n.pid n.pml4 n.isUser n.addressSpace with
    ⟨-, he⟩ | ⟨i, -, hd, ⟨freed', s, hslot⟩, ⟨-, he⟩ | ⟨-, he⟩⟩ <;>
    rw [he] at hc <;> have hs := (Prod.mk.inj (Prod.mk.inj hc).2).2.symm
  · exact Or.inl hs
  · exact Or.inr ⟨i, freed', s, _, hslot, hs, fun hl => absurd hl hd⟩
  · exact Or.inr ⟨i, freed', s, _, hslot, hs, fun _ => rfl⟩

/-- What a spawn does to the scheduler. -/
structure SpawnsTask (k k' : Kernel) : Prop where
  ready : k'.sched.Ready
  stays : Sched.Stays (fun t => ∃ freed s, k.sched.findFreeSlot = some (t, freed, s)) (fun _ => False) k.sched k'.sched
  currentTid : k'.sched.currentTid = k.sched.currentTid
  sliceTicks : k'.sched.sliceTicks = k.sched.sliceTicks
  live : ∀ t, (k.sched.tasks t).Live → k'.sched.tasks t = k.sched.tasks t

theorem SpawnsTask.of_sched (h : k.sched.Ready) (hs : k'.sched = k.sched) : SpawnsTask k k' :=
  ⟨hs ▸ h, .of_tasks (by rw [hs]), by rw [hs], by rw [hs], fun _ _ => by rw [hs]⟩

theorem taskCreate_spawns {n : NewTask} {tid : Option Nat} (hr : k.sched.Ready) (hn : n.isUser = true)
    (h : k.taskCreate n = .ok (tid, k')) : SpawnsTask k k' := by
  rcases taskCreate_slot h with hs | ⟨t, freed, s, f, hslot, hs, hu⟩
  · exact .of_sched hr hs
  · obtain ⟨-, hd, -⟩ := Sched.findFreeSlot_eq_some hslot
    obtain ⟨h0, h1⟩ := hr.ne_of_dead hd
    refine ⟨hs ▸ hr.modify h0 h1 fun hl => (hu hl).trans hn,
      hs ▸ .modify (fun _ => Or.inr ⟨freed, s, hslot⟩) fun hw => ?_, by rw [hs]; rfl, by rw [hs]; rfl, fun u hl => ?_⟩
    · exact absurd (Or.inr (Or.inr hw)) hd
    · have hne : u ≠ t := fun he => hd (he ▸ hl)
      rw [hs, Sched.modify_tasks_of_ne hne]

theorem prepareSpawn_spawns {img : Image} {found : Option (Nat × Process)} (hr : k.sched.Ready)
    (h : k.prepareSpawn img = .ok (found, k')) : SpawnsTask k k' := by
  cases prepareSpawn_cases h with
  | full hslot => exact .of_sched hr rfl
  | noProgram hslot hl => exact .of_sched hr rfl
  | @noTask _ machine _ k' hslot hl hc =>
    have hsp := taskCreate_spawns
      (show Sched.Ready { k.withMachine machine with nextPid := k.nextPid + 1 }.sched from hr) rfl hc
    exact ⟨hsp.ready, hsp.stays, hsp.currentTid, hsp.sliceTicks, hsp.live⟩
  | @task _ _ machine _ k' hslot hl hc =>
    have hsp := taskCreate_spawns
      (show Sched.Ready { k.withMachine machine with nextPid := k.nextPid + 1 }.sched from hr) rfl hc
    exact ⟨hsp.ready, hsp.stays, hsp.currentTid, hsp.sliceTicks, hsp.live⟩

theorem processSpawnFromElf_spawns {img : Image} {pid : Int} (hr : k.sched.Ready)
    (h : k.processSpawnFromElf img = .ok (pid, k')) : SpawnsTask k k' := by
  unfold processSpawnFromElf at h
  obtain ⟨⟨found, k₁⟩, hprep, h⟩ := of_bind_eq_ok h
  have hsp := prepareSpawn_spawns hr hprep
  cases found with
  | none =>
    cases h
    exact hsp
  | some found =>
    cases h
    exact ⟨hsp.ready, hsp.stays, hsp.currentTid, hsp.sliceTicks, hsp.live⟩

/-- Up to the switch, if there is one, a step keeps the scheduler ready and brings back no task that it does not
    create or wake. -/
structure Leads (k : Kernel) (e : KernelEvent) (s : Sched) : Prop where
  ready : s.Ready
  stays : Sched.Stays (k.Reuses e) (fun t => e = .wake t) k.sched s
  currentTid : s.currentTid = k.sched.currentTid

theorem Leads.of_sched (h : k.sched.Ready) : k.Leads e k.sched := ⟨h, .of_tasks rfl, rfl⟩

theorem Leads.of_spawns (h : SpawnsTask k k') (he : spawns e = true) : k.Leads e k'.sched :=
  ⟨h.ready, ⟨fun t ht hz => (h.stays.zombie t ht hz).imp_right fun hr => ⟨he, hr⟩,
    fun t ht hw => (h.stays.waiting t ht hw).imp_right fun h => Or.inl (h.resolve_right id)⟩, h.currentTid⟩

/-- A system call up to the end of the switch statement. The calling task is still the current one. -/
theorem syscallResult_leads (frame : Nat) {call : Syscall} (hr : k.sched.Ready) (hu : k.InUser)
    (h : k.syscallResult call = .ok (ret, k₁)) :
    k.Leads (.syscall frame call) k₁.sched ∧ k₁.sched.sliceTicks = k.sched.sliceTicks ∧
    (k₁.sched.tasks k.sched.current).isUser = true := by
  obtain ⟨hc, huser, hrun⟩ := hu
  cases call with
  | write ptr len | yield | getpid | unknown =>
    cases h
    exact ⟨.of_sched hr, rfl, huser⟩
  | exit code =>
    cases h
    have hs : (k.sysExit code).sched = k.sched.ended k.sched.current code := by
      have hsame : (k.processTaskExited k.sched.taskCurrentPid code).sched = k.sched := by
        unfold processTaskExited
        split <;> rfl
      unfold sysExit
      rw [withSched_sched, hsame, Sched.sysExit, if_neg (by omega), Sched.ended]
    obtain ⟨h0, h1⟩ := hr.ne_of_user huser
    rw [hs]
    exact ⟨⟨hr.ended code h0 h1, .ended code (by simp [hrun]), rfl⟩, rfl, by simp [Sched.ended, huser]⟩
  | spawn img =>
    cases img with
    | none =>
      cases h
      exact ⟨.of_sched hr, rfl, huser⟩
    | some img =>
      obtain ⟨⟨pid, k₂⟩, hsp, h⟩ := of_bind_eq_ok h
      cases h
      have hsp := processSpawnFromElf_spawns hr hsp
      exact ⟨.of_spawns hsp rfl, hsp.sliceTicks, by rw [hsp.live _ (Or.inr (Or.inl hrun))]; exact huser⟩

theorem Switches.leads (hr : k.sched.Ready) (h : Switches k e s rsp) : k.Leads e s := by
  cases h with
  | schedule hc => exact .of_sched hr
  | tick hs => exact ⟨hr.of_tasks rfl rfl, .of_tasks rfl, rfl⟩
  | @syscall _ _ _ k₁ hu hres hret hf =>
    obtain ⟨hl, -, huser⟩ := syscallResult_leads rsp hr hu hres
    refine ⟨?_, hl.stays.trans (.offered _), by rw [Sched.offered_currentTid]; exact hl.currentTid⟩
    have hcur : k₁.sched.current = k.sched.current := by
      unfold Sched.current
      rw [hl.currentTid]
    unfold Sched.offered
    split
    · rw [hcur]
      obtain ⟨h0, h1⟩ := hl.ready.ne_of_user huser
      exact hl.ready.modify h0 h1 fun _ => huser
    · exact hl.ready

theorem syscallDispatch_eq (k : Kernel) (frame : Nat) (call : Syscall) :
    k.syscallDispatch frame call = k.syscallResult call >>= fun r => r.2.syscallReturn frame r.1 := by
  cases call <;> rfl

theorem syscallReturn_ok {frame : Nat} (hret : Sched.Reschedules ret) (hf : frame ≠ 0)
    (h : (k₁.withSched k₁.sched.offered).contextSwitchFrom frame = .ok (next, k')) :
    k₁.syscallReturn frame ret = .ok (next, k') :=
  (if_pos hret).trans ((if_neg hf).trans h)

theorem shellKill_sched (k : Kernel) (pid code : Int) :
    (k.shellKill pid code).sched = k.sched ∨ (k.shellKill pid code).sched = (k.sched.taskKillPid pid code).2 := by
  unfold shellKill beginKill
  cases k.findProcessByPid pid with
  | none => exact Or.inl rfl
  | some i =>
    dsimp only
    by_cases he : (k.procs i).exited = true
    · rw [if_pos he]
      exact Or.inl rfl
    · rw [if_neg he]
      by_cases hres : (k.sched.taskKillPid pid code).1 < 0
      · rw [if_pos hres]
        exact Or.inr rfl
      · rw [if_neg hres]
        exact Or.inr rfl

theorem processWaitPoll_sched (k : Kernel) (pid : Int) : (k.processWaitPoll pid).2.sched = k.sched := by
  rcases k.processWaitPoll_cases pid with he | ⟨i, -, he⟩ <;> rw [he]
  rfl

theorem resumeShell_sched (k : Kernel) : k.resumeShell.sched = k.sched := by
  unfold resumeShell
  cases k.shell with
  | idle | record slot p | mark slot code | clear slot current => rfl
  | reap slot current =>
    dsimp only
    rcases k.reapSpace_cases current slot with he | ⟨-, -, ⟨-, he⟩ | ⟨a, -, -, he⟩⟩ <;> rw [he] <;> rfl

/-- The event is a timer tick. -/
def ticks : KernelEvent → Bool
  | .tick _ => true
  | _ => false

/-- A step that calls `context_switch_from`, and ends with it. -/
def Switched (k : Kernel) (e : KernelEvent) (k' : Kernel) : Prop :=
  ∃ s rsp pml4 next, Switches k e s rsp ∧ s.contextSwitchFrom pml4 rsp = .ok (next, k'.sched)

/-- A step that does not call `context_switch_from`. -/
structure Passes (k : Kernel) (e : KernelEvent) (k' : Kernel) : Prop where
  leads : k.Leads e k'.sched
  sliceTicks : k'.sched.sliceTicks = if ticks e then (k.sched.sliceTicks + 1) % 2 ^ 32 else k.sched.sliceTicks
  calls : ∀ s rsp, ¬Switches k e s rsp

theorem Passes.of_sched (hr : k.sched.Ready) (hs : k'.sched = k.sched) (ht : ticks e = false)
    (hc : ∀ s rsp, ¬Switches k e s rsp) : Passes k e k' :=
  ⟨hs ▸ .of_sched hr, by rw [hs, ht]; rfl, hc⟩

theorem Passes.of_spawns (h : SpawnsTask k k') (he : spawns e = true) (ht : ticks e = false)
    (hc : ∀ s rsp, ¬Switches k e s rsp) : Passes k e k' :=
  ⟨.of_spawns h he, by rw [h.sliceTicks, ht]; rfl, hc⟩

theorem Passes.wake (hr : k.sched.Ready) (tid : Int) : Passes k (.wake tid) (k.withSched (k.sched.taskWake tid)) := by
  have hready := hr.taskWake tid
  rcases k.sched.taskWake_cases tid with he | ⟨htid, hw, he⟩
  · exact .of_sched hr he rfl nofun
  · rw [he] at hready ⊢
    have hstays : Sched.Stays (k.Reuses (.wake tid)) (fun t => KernelEvent.wake tid = .wake t) k.sched
        (k.sched.modify tid.toNat fun t => { t with state := .runnable }) :=
      .modify (fun hz => by rw [hw] at hz; cases hz) fun _ => Or.inr (Or.inr (by rw [Int.toNat_of_nonneg htid]))
    exact ⟨⟨hready, hstays, rfl⟩, rfl, fun _ _ hsw => by cases hsw⟩

theorem Passes.sleep (hr : k.sched.Ready) (hsh : k.InShell) (h : k.sched.taskSleep = .ok s) :
    Passes k .sleep (k.withSched s) := by
  obtain ⟨-, hready, -⟩ := hr.sleep hsh.1 hsh.2 h
  have hcur : k.sched.current = 0 := by simp [Sched.current, hsh.1]
  unfold Sched.taskSleep at h
  rw [if_neg (by rw [hsh.1]; decide), hcur, if_neg (by simp [hr.shell.2.1])] at h
  cases h
  have hawake : (k.sched.tasks 0).state ≠ .zombie ∧ (k.sched.tasks 0).state ≠ .waiting := by simp [hsh.2]
  have hstays : Sched.Stays (k.Reuses .sleep) (fun t => KernelEvent.sleep = .wake t) k.sched
      (k.sched.modify 0 fun t => { t with state := .waiting }) := .modify_awake hawake
  exact ⟨⟨hready, hstays, rfl⟩, rfl, fun _ _ hsw => by cases hsw⟩

theorem Passes.kill (hr : k.sched.Ready) (pid code : Int) : Passes k (.kill pid code) (k.shellKill pid code) := by
  rcases k.shellKill_sched pid code with hs | hs
  · exact .of_sched hr hs rfl nofun
  · obtain ⟨h1, h2, h3, h4⟩ := hr.taskKillPid pid code
    rw [← hs] at h1 h2 h3 h4
    exact ⟨⟨h1, h2, h3⟩, h4, nofun⟩

/-- A step either ends with a call of `context_switch_from` or does not call it. -/
theorem step_cases (hr : k.sched.Ready) (h : k.step e k') : Switched k e k' ∨ Passes k e k' := by
  cases e with
  | bootSpawn img =>
    obtain ⟨-, pid, h⟩ := h
    exact Or.inr (.of_spawns (processSpawnFromElf_spawns hr h) rfl rfl nofun)
  | createSpace =>
    obtain ⟨-, as, machine, -, rfl⟩ := h
    exact Or.inr (.of_sched hr rfl rfl nofun)
  | mapPage as virt flags =>
    obtain ⟨-, -, ok, machine, -, rfl⟩ := h
    exact Or.inr (.of_sched hr rfl rfl nofun)
  | schedule =>
    obtain ⟨hc, next, h⟩ := h
    exact Or.inl ⟨_, _, _, next, .schedule hc, contextSwitchFrom_sched h⟩
  | tick rsp =>
    obtain ⟨next, h⟩ := h
    rcases Sched.scheduleOnTick_cases (scheduleOnTick_sched h) with ⟨hin, -, hs⟩ | ⟨hin, hsw⟩
    · refine Or.inr ⟨?_, by rw [hs]; rfl, fun _ _ hsw => ?_⟩
      · rw [hs]
        exact ⟨hr.of_tasks rfl rfl, .of_tasks rfl, rfl⟩
      · cases hsw with
        | tick hout => exact hout hin
    · exact Or.inl ⟨_, _, _, next, .tick hin, hsw⟩
  | wake tid =>
    obtain rfl := h
    exact Or.inr (.wake hr tid)
  | store virt b =>
    obtain ⟨-, phys, -, rfl⟩ := h
    exact Or.inr (.of_sched hr rfl rfl nofun)
  | syscall frame call =>
    obtain ⟨hu, next, h⟩ := h
    rw [syscallDispatch_eq] at h
    obtain ⟨⟨ret, k₁⟩, hres, h⟩ := of_bind_eq_ok h
    rcases Sched.syscallReturn_cases (syscallReturn_sched h) with ⟨hret, hf, hsw⟩ | ⟨hret, -, hs⟩
    · exact Or.inl ⟨_, _, _, next, .syscall hu hres hret hf, hsw⟩
    · obtain ⟨hl, hsl, -⟩ := syscallResult_leads frame hr hu hres
      refine Or.inr ⟨hs ▸ hl, hs ▸ hsl, fun _ _ hsw => ?_⟩
      cases hsw with
      | syscall _ hres' hret' _ =>
        rw [hres] at hres'
        cases hres'
        exact hret hret'
  | spawn img =>
    obtain ⟨-, -, h⟩ := h
    unfold shellSpawn at h
    obtain ⟨⟨found, k₁⟩, hprep, h⟩ := of_bind_eq_ok h
    have hsp := prepareSpawn_spawns hr hprep
    refine Or.inr (.of_spawns ?_ rfl rfl nofun)
    cases found with
    | none =>
      cases h
      exact hsp
    | some found =>
      cases h
      exact ⟨hsp.ready, hsp.stays, hsp.currentTid, hsp.sliceTicks, hsp.live⟩
  | kill pid code =>
    obtain ⟨-, -, rfl⟩ := h
    exact Or.inr (.kill hr pid code)
  | reap =>
    obtain ⟨-, -, rfl⟩ := h
    exact Or.inr (.of_sched hr rfl rfl nofun)
  | wait pid =>
    obtain ⟨-, -, rfl⟩ := h
    exact Or.inr (.of_sched hr (k.processWaitPoll_sched pid) rfl nofun)
  | sleep =>
    obtain ⟨hsh, -, s, h, rfl⟩ := h
    exact Or.inr (.sleep hr hsh h)
  | resume =>
    obtain ⟨-, -, rfl⟩ := h
    exact Or.inr (.of_sched hr k.resumeShell_sched rfl nofun)

theorem Switches.unique {s' : Sched} {rsp' : Nat} (h : Switches k e s rsp) (h' : Switches k e s' rsp') :
    s = s' ∧ rsp = rsp' := by
  cases h with
  | schedule _ | tick _ =>
    cases h'
    exact ⟨rfl, rfl⟩
  | syscall _ hres _ _ =>
    cases h' with
    | syscall _ hres' _ _ =>
      cases hres.symm.trans hres'
      exact ⟨rfl, rfl⟩

theorem Switches.step (hsw : Switches k e s rsp) (hr : k.sched.Ready) (h : k.step e k') :
    ∃ pml4 next, s.contextSwitchFrom pml4 rsp = .ok (next, k'.sched) := by
  rcases step_cases hr h with ⟨s', rsp', pml4, next, hsw', hc⟩ | hp
  · obtain ⟨rfl, rfl⟩ := hsw.unique hsw'
    exact ⟨pml4, next, hc⟩
  · exact absurd hsw (hp.calls s rsp)

theorem Switches.stays (hsw : Switches k e s rsp) (hr : k.sched.Ready) (h : k.step e k') :
    (s.suspend rsp).pickNextRunnable ≠ none ∧ Sched.Stays (fun _ => False) (fun _ => False) s k'.sched := by
  obtain ⟨pml4, next, hc⟩ := hsw.step hr h
  have hpick := ((hsw.leads hr).ready.suspend rsp).pick_ne_none
  exact ⟨hpick, .contextSwitchFrom hpick hc⟩

theorem ready_step (hr : k.sched.Ready) (h : k.step e k') :
    k'.sched.Ready ∧ Sched.Stays (k.Reuses e) (fun t => e = .wake t) k.sched k'.sched := by
  rcases step_cases hr h with ⟨s, rsp, pml4, next, hsw, hc⟩ | hp
  · have hl := hsw.leads hr
    exact ⟨(hl.ready.contextSwitchFrom hc).2.1, hl.stays.trans (hsw.stays hr h).2⟩
  · exact ⟨hp.leads.ready, hp.leads.stays⟩

end Calls

theorem ready_of_reachable {fw : Platform} {image : KernelImage} {k : Kernel} (h : (kernels fw image).Reachable k) :
    k.sched.Ready := by
  refine h.invariant (I := fun k => k.sched.Ready) ?_ fun hr hs => (ready_step hr hs).1
  rintro k ⟨mem, bytes, shellEntry, idleEntry, hb⟩
  exact (TableInv.boot hb).1.ready

/-! ### Ended and sleeping tasks -/

/-- In every run: the idle task is always ready to run, every switch finds a task, a task that has ended or sleeps
    when a switch begins is not brought back by it, the slot of a task that has ended comes back only when a spawn
    reuses it, and a task stops waiting only when it is woken. -/
theorem ended_and_waiting_tasks_never_run {fw : Platform} {image : KernelImage} {k k' : Kernel} {e : KernelEvent}
    (h : (kernels fw image).Reachable k) (hs : k.step e k') :
    ((k.sched.tasks 1).state = .runnable ∨ (k.sched.tasks 1).state = .running) ∧
    (∀ s rsp, Switches k e s rsp → (s.suspend rsp).pickNextRunnable ≠ none ∧
      ∀ t < maxTasks, (s.tasks t).state = .zombie ∨ (s.tasks t).state = .waiting →
        ¬((k'.sched.tasks t).state = .runnable ∨ (k'.sched.tasks t).state = .running)) ∧
    (∀ t < maxTasks, (k.sched.tasks t).state = .zombie →
      (k'.sched.tasks t).state = .runnable ∨ (k'.sched.tasks t).state = .running →
        spawns e = true ∧ ∃ freed s, k.sched.findFreeSlot = some (t, freed, s)) ∧
    (∀ t < maxTasks, (k.sched.tasks t).state = .waiting →
      (k'.sched.tasks t).state = .runnable ∨ (k'.sched.tasks t).state = .running → e = .wake t) := by
  have hr := ready_of_reachable h
  obtain ⟨-, hstays⟩ := ready_step hr hs
  refine ⟨hr.idle.1, fun s rsp hsw => ?_, fun t ht hz hrun => ?_, fun t ht hw hrun => ?_⟩
  · obtain ⟨hpick, hkeep⟩ := hsw.stays hr hs
    refine ⟨hpick, fun t ht hst hrun => ?_⟩
    have hafter : (k'.sched.tasks t).state = .waiting ∨ (k'.sched.tasks t).state = .zombie := by
      rcases hst with hz | hw
      · exact Or.inr ((hkeep.zombie t ht hz).resolve_right id)
      · exact (hkeep.waiting t ht hw).imp_right fun h => h.resolve_right id
    rcases hafter with hst' | hst' <;> simp [hst'] at hrun
  · refine (hstays.zombie t ht hz).resolve_left fun hst => ?_
    simp [hst] at hrun
  · refine ((hstays.waiting t ht hw).resolve_left fun hst => ?_).resolve_left fun hst => ?_ <;> simp [hst] at hrun

/-- The shell has killed a process and sleeps, and the next tick runs neither. -/
theorem ended_and_waiting_tasks_never_run_sample : ∃ k k' : Kernel, sampleKernels.Reachable k ∧ k.step (.tick 0) k' ∧
    (k.sched.tasks 0).state = .waiting ∧ (k.sched.tasks 2).state = .zombie ∧
    ¬((k'.sched.tasks 0).state = .runnable ∨ (k'.sched.tasks 0).state = .running) ∧
    ¬((k'.sched.tasks 2).state = .runnable ∨ (k'.sched.tasks 2).state = .running) := by
  obtain ⟨k₀, k₁, k, -, prog, t₀, t₁, t₂, h₀, -, hfirst, hpath, hk⟩ := exists_killed fun _ _ => 0
  have hr : sampleKernels.Reachable k := hpath.of_guard.reachable ((System.Reachable.init h₀).step hfirst.2)
  obtain ⟨k₁, hsleep, hproc, hm, -⟩ := hk.process.sleep hk.shell hk.running hk.shellTask
  obtain ⟨m, cr3, hs₁⟩ := hproc.sched
  have hpml4 : k₁.machine.kernelPml4 ≠ 0 := hm ▸ hk.kernelPml4
  obtain ⟨next, hsw⟩ : ∃ next, k₁.sched.contextSwitchFrom k₁.machine.kernelPml4 0 = .ok (next, _) :=
    hs₁ ▸ Sched.leave_three_shell hk.idle.1 hk.idle.2 hpml4
  obtain ⟨k', hc, -⟩ := contextSwitchFrom_ok hsw
  have hz : (k₁.sched.tasks 2).state = .zombie := by
    rw [hs₁]
    exact hk.ended
  have hw : (k₁.sched.tasks 0).state = .waiting := by
    rw [hs₁]
    rfl
  have htick : k₁.step (.tick 0) k' := by
    refine tick_ends (fun hin => ?_) (show _ = Except.ok (next, k') from ?_)
    · have := hin.2.1
      rw [hs₁] at this
      cases this
    · rw [withSched_sliceTicks (by rw [hs₁]; rfl)]
      exact hc
  have hr₁ : sampleKernels.Reachable k₁ := hr.step (show sampleKernels.step k .sleep k₁ from hsleep)
  obtain ⟨-, -, hzombie, hwaiting⟩ := ended_and_waiting_tasks_never_run hr₁ htick
  refine ⟨k₁, k', hr₁, htick, hw, hz, fun h => ?_, fun h => ?_⟩
  · cases hwaiting 0 (by decide) hw h
  · cases (hzombie 2 (by decide) hz h).1

end Kernel
end SamOS
