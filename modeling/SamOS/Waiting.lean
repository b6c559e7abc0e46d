import SamOS.BootMemory
import SamOS.Turns

/-! How long a runnable task waits. Each tick uses up a part of the current slice or ends it, and each switch that
    passes over a task brings the search closer to it, so a task that stays runnable runs before a full round of
    slices is over. In an orderly run a switch never ends in one of the panics of `task_switch_address_space`. -/

namespace SamOS
open Lts Result

namespace Sched
variable {s s' : Sched} {t pml4 rsp next : Nat}

/-- The ticks that can come before slot `t` is picked: those of the current slice, and a slice for each slot between. -/
def ticksAhead (s : Sched) (t : Nat) : Nat :=
  ticksPerSlice * Cycle.ahead maxTasks s.searchStart t + (ticksPerSlice - 1 - s.sliceTicks)

theorem ticksAhead_lt (ht : t < maxTasks) : s.ticksAhead t < maxTasks * ticksPerSlice := by
  have := Cycle.ahead_lt s.searchStart_lt ht
  unfold ticksAhead maxTasks ticksPerSlice at *
  omega

/-- A switch that leaves a runnable task waiting brings the search closer to it. -/
theorem Ready.closer (hr : s.Ready) (ht : t < maxTasks) (h : s.contextSwitchFrom pml4 rsp = .ok (next, s'))
    (hst : (s'.tasks t).state = .runnable) :
    Cycle.ahead maxTasks s'.searchStart t < Cycle.ahead maxTasks s.searchStart t := by
  -- the task that is picked is another one, and it comes first
  have hcloser {i : Nat} (hp : (s.suspend rsp).pickNextRunnable = some i) (hne : i ≠ t)
      (hrun : ((s.suspend rsp).tasks t).state = .runnable) :
      Cycle.ahead maxTasks s'.searchStart t < Cycle.ahead maxTasks s.searchStart t := by
    obtain ⟨j, hj, hi⟩ := pickNextRunnable_before hp ht (Or.inl hrun) hne
    rw [searchStart_congr (suspend_currentTid s rsp)] at hj hi
    have hjn := Nat.lt_trans hj (Cycle.ahead_lt s.searchStart_lt ht)
    rw [searchStart_of_current (contextSwitchFrom_current h hp), hi,
      Cycle.ahead_move s.searchStart_lt ht hjn, if_pos hj]
    omega
  rcases contextSwitchFrom_cases h with ⟨hn, -⟩ | ⟨hcur, hc, -, rfl⟩ | ⟨i, cr3, hp, -, -, -, rfl⟩
  · exact absurd hn (hr.suspend rsp).pick_ne_none
  · have hne : s.current ≠ t := fun he => by
      rw [← he, setRunning, modify_tasks_same] at hst
      cases hst
    rw [setRunning, modify_tasks_of_ne (Ne.symm hne)] at hst
    exact hcloser (hcur.resolve_left (hr.suspend rsp).pick_ne_none) hne hst
  · have hne : i ≠ t := fun he => by
      rw [← he] at hst
      simp [switchedTo] at hst
    rw [switchedTo_tasks_of_ne (Ne.symm hne)] at hst
    exact hcloser hp hne hst

end Sched

namespace Kernel

/-! ### Waiting -/

/-- A part of a run from `k` in which the task in slot `t` is runnable in every state: its events, the last one
    first. -/
inductive Waits (t : Nat) (k : Kernel) : List KernelEvent → Kernel → Prop
  | nil : (k.sched.tasks t).state = .runnable → Waits t k [] k
  | snoc {es : List KernelEvent} {e : KernelEvent} {k₁ k₂ : Kernel} : Waits t k es k₁ → k₁.step e k₂ →
      (k₂.sched.tasks t).state = .runnable → Waits t k (e :: es) k₂

section Waiting
variable {k k' : Kernel} {t : Nat} {e : KernelEvent} {es : List KernelEvent}

/-- A step after which the task still waits: a tick brings its turn closer, and no step puts it off. -/
theorem ticksAhead_step (hr : k.sched.Ready) (hsl : k.sched.sliceTicks < Sched.ticksPerSlice) (ht : t < maxTasks)
    (hs : k.step e k') (hst : (k'.sched.tasks t).state = .runnable) :
    k'.sched.ticksAhead t + (if ticks e then 1 else 0) ≤ k.sched.ticksAhead t := by
  have hticks := step_sliceTicks hr hs
  unfold Sched.ticksAhead Sched.ticksPerSlice at *
  rcases step_cases hr hs with ⟨s, rsp, pml4, next, hsw, hc⟩ | hp
  · have hlead := hsw.leads hr
    have hcloser := Sched.Ready.closer hlead.ready ht hc hst
    rw [Sched.searchStart_congr hlead.currentTid] at hcloser
    rcases hticks with ⟨he, -⟩ | ⟨he, hsl'⟩ <;> simp only [he, if_true, if_false, Bool.false_eq_true] <;> omega
  · have hstart := Sched.searchStart_congr hp.leads.currentTid
    have hpass := hp.sliceTicks
    rw [hstart]
    cases he : ticks e with
    | false =>
      simp only [he, Bool.false_eq_true, if_false] at hpass ⊢
      omega
    | true =>
      -- a tick that does not switch is inside the slice
      have hin : k.sched.InSlice := by
        cases e with
        | tick rsp =>
          by_contra hout
          exact hp.calls _ _ (.tick hout)
        | _ => cases he
      have hlt := hin.2.2
      unfold Sched.ticksPerSlice at hlt
      simp only [he, if_true] at hpass ⊢
      omega

theorem Waits.ticksAhead (h : Waits t k es k') (hr : k.sched.Ready) (hsl : k.sched.sliceTicks < Sched.ticksPerSlice)
    (ht : t < maxTasks) : (k'.sched.Ready ∧ k'.sched.sliceTicks < Sched.ticksPerSlice) ∧
      k'.sched.ticksAhead t + es.countP ticks ≤ k.sched.ticksAhead t := by
  induction h with
  | nil _ => exact ⟨⟨hr, hsl⟩, Nat.le_refl _⟩
  | snoc _ hs hst ih =>
    obtain ⟨⟨hr₁, hsl₁⟩, hle⟩ := ih
    have := ticksAhead_step hr₁ hsl₁ ht hs hst
    refine ⟨⟨(ready_step hr₁ hs).1, step_slice_lt hr₁ hsl₁ hs⟩, ?_⟩
    rw [List.countP_cons]
    omega

/-- Bounded waiting: whatever happens in between, a task that stays runnable is picked before a full round of time
    slices is over. -/
theorem waits_less_than_a_round {fw : Platform} {image : KernelImage} (h : (kernels fw image).Reachable k)
    (ht : t < maxTasks) (hw : Waits t k es k') : es.countP ticks < maxTasks * Sched.ticksPerSlice := by
  obtain ⟨hr, hsl⟩ := slice_lt_of_reachable h
  have := (hw.ticksAhead hr hsl ht).2
  have := Sched.ticksAhead_lt (s := k.sched) ht
  omega

theorem Waits.ticks (h : Waits t k es k') (h0 : 0 ≤ k'.sched.currentTid)
    (hrun : (k'.sched.tasks k'.sched.current).state = .running) (hst : (k'.sched.tasks t).state = .runnable)
    (rsp : Nat) {n : Nat} (hn : k'.sched.sliceTicks + n < Sched.ticksPerSlice) :
    Waits t k (List.replicate n (.tick rsp) ++ es)
      (k'.withSched { k'.sched with sliceTicks := k'.sched.sliceTicks + n }) := by
  induction n with
  | zero => exact h
  | succ n ih =>
    have htick := (tick_of_lt (k := k'.withSched { k'.sched with sliceTicks := k'.sched.sliceTicks + n }) h0
      hrun hn rsp).2
    exact (ih (by omega)).snoc htick hst

/-- The slice of the shell ends, the idle task is picked, and the process has waited for five ticks. -/
theorem process_waits_for_idle :
    ∃ k k' : Kernel, sampleKernels.Reachable k ∧ Waits 2 k (List.replicate 5 (.tick 0)) k' ∧
    (List.replicate 5 (KernelEvent.tick 0)).countP ticks < maxTasks * Sched.ticksPerSlice := by
  obtain ⟨k₀, k₁, -, stack₀, stack₁, stack, r, prog, h₀, -, hfirst, hproc, -, hk, -⟩ := exists_spawned fun _ _ => 0
  obtain ⟨k, hstart, hproc₁, hm₁, -, -⟩ := hproc.schedule rfl rfl rfl hk
  have hr : sampleKernels.Reachable k :=
    ((System.Reachable.init h₀).step hfirst.2).step (show sampleKernels.step k₁ .schedule k from hstart)
  obtain ⟨m, cr3, hs⟩ := hproc₁.sched
  obtain ⟨next, k₂, hsw, hproc₂, -⟩ : ∃ next k₂, k.contextSwitchFrom 0 = .ok (next, k₂) ∧ _ :=
    hproc₁.switched rfl fun _ _ => Sched.switch_three_idle rfl rfl rfl (hm₁ ▸ hk)
  obtain ⟨m₂, cr3₂, hs₂⟩ := hproc₂.sched
  have hslice : Waits 2 k (List.replicate 4 (.tick 0) ++ [])
      (k.withSched { k.sched with sliceTicks := k.sched.sliceTicks + 4 }) := by
    refine (Waits.nil ?_).ticks ?_ ?_ ?_ 0 ?_ <;> rw [hs]
    · rfl
    · exact Int.le_refl 0
    · rfl
    · rfl
    · exact Nat.lt_succ_self 4
  have hwait : Waits 2 k (List.replicate 5 (.tick 0)) k₂ :=
    hslice.snoc (fifth_tick (by rw [hs]; rfl) hsw).2 (by rw [hs₂]; rfl)
  exact ⟨k, k₂, hr, hwait, waits_less_than_a_round hr (by decide) hwait⟩

end Waiting

/-! ### Switches never fail -/

section Panics
variable {k k₁ : Kernel} {use : Nat → Use} {e : KernelEvent}

/-- Every task that can run has an address space to load. -/
structure Loadable (k : Kernel) : Prop where
  kernel : k.machine.kernelPml4 ≠ 0
  user : ∀ t < maxTasks, k.sched.LiveUser t → (k.sched.tasks t).addressSpace ≠ .null ∧ (k.sched.tasks t).cr3 ≠ 0

theorem loadable_of_spaceInv {procs : Nat → Process} {next : Int} (h : SpaceInv k procs use)
    (ha : Agree k.sched procs next) :
    k.Loadable := by
  have htables := h.memory.layout.tables
  refine ⟨?_, fun t ht hl => ?_⟩
  · have := (htables.range htables.kernelRoot).1
    omega
  · obtain ⟨i, -, -, hrun⟩ := ha.entry_of_live ht hl
    obtain ⟨a, -, hsp⟩ := hrun.space
    have := (htables.range (htables.space (h.root t ht hl a hsp)).2.1).1
    exact ⟨by rw [hsp]; exact nofun, by omega⟩

theorem Loadable.keeps {s : Sched} (h : k.Loadable) (hk : k.sched.Keeps s) : (k.withSched s).Loadable :=
  ⟨h.kernel, fun t ht hl => by
    rw [withSched_sched, hk.addressSpace, hk.cr3]
    exact h.user t ht ((hk.liveUser t).mp hl)⟩

theorem Loadable.switchAddressSpace {t : Nat} (h : k.Loadable) (ht : t < maxTasks)
    (hst : (k.sched.tasks t).state = .runnable ∨ (k.sched.tasks t).state = .running) :
    ∃ cr3, Sched.switchAddressSpace (k.sched.tasks t) k.machine.kernelPml4 = .ok cr3 := by
  unfold Sched.switchAddressSpace
  by_cases hu : (k.sched.tasks t).isUser = true
  · obtain ⟨hsp, hcr3⟩ := h.user t ht ⟨hst.imp_right Or.inl, hu⟩
    rw [if_pos hu, if_neg hsp, if_neg hcr3]
    exact ⟨_, rfl⟩
  · rw [if_neg hu, if_neg h.kernel]
    exact ⟨_, rfl⟩

/-- A switch from any task finds the next one, and loads its address space. -/
theorem Loadable.contextSwitchFrom (h : k.Loadable) (hr : k.sched.Ready) (rsp : Nat) :
    ∃ next k', k.contextSwitchFrom rsp = .ok (next, k') := by
  obtain ⟨next, s, hs⟩ : ∃ next s, k.sched.contextSwitchFrom k.machine.kernelPml4 rsp = .ok (next, s) := by
    cases hp : (k.sched.suspend rsp).pickNextRunnable with
    | none => exact absurd hp (hr.suspend rsp).pick_ne_none
    | some i =>
      by_cases hcur : (i : Int) = (k.sched.suspend rsp).currentTid
      · unfold Sched.contextSwitchFrom
        simp only [hp, if_pos hcur]
        exact ⟨_, _, rfl⟩
      · obtain ⟨hi, hst⟩ := Sched.pickNextRunnable_eq_some hp
        obtain ⟨cr3, hcr3⟩ := (h.keeps (.suspend k.sched rsp)).switchAddressSpace hi hst
        exact ⟨_, _, Sched.contextSwitchFrom_next rfl hp hcur hcr3⟩
  refine ⟨next, k.processReapDeferred.withSched s, ?_⟩
  unfold Kernel.contextSwitchFrom
  dsimp only
  rw [k.processReapDeferred_sched.1, k.processReapDeferred_sched.2, hs]
  rfl

theorem syscallResult_loadable {frame : Nat} {call : Syscall} {ret : Word} (ht : k.TableInv)
    (h : SpaceInv k k.settle.procs use) (ho : k.Orderly (.syscall frame call)) (hu : k.InUser)
    (hres : k.syscallResult call = .ok (ret, k₁)) :
    k₁.Loadable ∧ ((k₁.sched.tasks k₁.sched.current).Live ∨ (k₁.sched.tasks k₁.sched.current).state = .zombie) := by
  have hidle : k.shell = .idle := by
    by_contra hne
    cases ho.undisturbed hne
  rw [settle_of_idle hidle] at h
  have hlive : (k.sched.tasks k.sched.current).Live := Or.inr (Or.inl hu.2.2)
  have hsame : k.Loadable ∧ ((k.sched.tasks k.sched.current).Live ∨ (k.sched.tasks k.sched.current).state = .zombie) :=
    ⟨loadable_of_spaceInv h (ht.agree_of_idle hidle), Or.inl hlive⟩
  cases call with
  | write ptr len | yield | getpid | unknown =>
    cases hres
    exact hsame
  | exit code =>
    cases hres
    obtain ⟨-, ha, -, -⟩ := ht.exit hidle hu code
    refine ⟨loadable_of_spaceInv (h.sysExit ht hidle hu code) ha, Or.inr ?_⟩
    obtain ⟨i, -, -, -, he⟩ := ht.sysExit_eq hidle hu code
    rw [he, withSched_sched]
    exact congrArg Task.state (Sched.modify_tasks_same ..)
  | spawn img =>
    cases img with
    | none =>
      cases hres
      exact hsame
    | some img =>
      obtain ⟨⟨pid, k₂⟩, hsp, hres⟩ := of_bind_eq_ok hres
      cases hres
      obtain ⟨use', h', -⟩ := h.processSpawnFromElf ht.current (ho.spawn img rfl) hsp
      obtain ⟨ht', hidle', -⟩ := ht.processSpawnFromElf hidle (ho.pid rfl) hsp
      have hspawn := processSpawnFromElf_spawns ht.ready hsp
      refine ⟨loadable_of_spaceInv h' (ht'.agree_of_idle hidle'), Or.inl ?_⟩
      rw [show k₁.sched.current = k.sched.current from congrArg Int.toNat hspawn.currentTid, hspawn.live _ hlive]
      exact hlive

/-- In an orderly run no call of `context_switch_from` ends in a panic: the idle task is there to be picked, and every
    task that is picked has its address space. -/
theorem switch_completes {fw : Platform} {image : KernelImage} {s : Sched} {rsp : Nat}
    (h : ((kernels fw image).guard Orderly).Reachable k) (ho : k.Orderly e) (hsw : Switches k e s rsp) :
    ∃ k', k.step e k' := by
  obtain ⟨ht, use, hi⟩ := memInv_of_reachable h
  have hload := loadable_of_spaceInv hi ht.agree
  have hready := (hsw.leads ht.ready).ready
  cases hsw with
  | schedule hc =>
    obtain ⟨next, k', hs⟩ := hload.contextSwitchFrom ht.ready 0
    exact ⟨k', hc, next, hs⟩
  | tick hout =>
    obtain ⟨next, k', hs⟩ := (hload.keeps (s := { k.sched with sliceTicks := 0 }) (.of_tasks rfl)).contextSwitchFrom
      hready rsp
    exact ⟨k', tick_ends hout hs⟩
  | @syscall _ call ret k₁ hu hres hret hf =>
    obtain ⟨hload₁, hcur⟩ := syscallResult_loadable ht hi ho hu hres
    have hkeep : k₁.sched.Keeps k₁.sched.offered := by
      unfold Sched.offered
      split
      · rename_i hst
        exact .modify ⟨fun _ => hcur.resolve_right hst.2.2, fun _ => Or.inl rfl⟩ rfl rfl rfl rfl
      · exact .refl _
    obtain ⟨next, k', hs⟩ := (hload₁.keeps hkeep).contextSwitchFrom hready rsp
    refine ⟨k', hu, next, ?_⟩
    rw [syscallDispatch_eq, hres]
    exact syscallReturn_ok hret hf hs

/-- `kernel_main` starts the shell with a process in the table. -/
theorem first_switch_completes :
    ∃ k k' : Kernel, (sampleKernels.guard Orderly).Reachable k ∧ Switches k .schedule k.sched 0 ∧
    k.step .schedule k' := by
  obtain ⟨k₀, k, -, stack₀, stack₁, stack, r, prog, h₀, -, hfirst, hproc, hsh, -⟩ := exists_spawned fun _ _ => 0
  obtain ⟨m, cr3, hs⟩ := hproc.sched
  have hr : (sampleKernels.guard Orderly).Reachable k := ⟨_, k₀, h₀, System.Path.nil.snoc hfirst⟩
  have hsw : Switches k .schedule k.sched 0 := .schedule (by rw [hs]; exact Int.negSucc_lt_zero 0)
  obtain ⟨k', hk'⟩ := switch_completes hr (.plain (fun hne => absurd hsh hne) rfl rfl fun _ _ _ h => by cases h) hsw
  exact ⟨k, k', hr, hsw, hk'⟩

end Panics
end Kernel
end SamOS
