import SamOS.Switches
import SamOS.Lib.Cycle

/-! Turns and time slices. The search for the next task goes round the table, so no task is picked twice while another
    one waits for its turn. A task has a full time slice only if the counter of ticks starts at 0, and a switch from a
    system call does not reset it. -/

namespace SamOS
open Lts Result

/-! ### The search for the next task -/

namespace Sched
variable {s s' : Sched} {i t : Nat}

/-- Where `pick_next_runnable` begins. -/
def searchStart (s : Sched) : Nat := if s.currentTid < 0 then 0 else (s.current + 1) % maxTasks

theorem searchStart_lt (s : Sched) : s.searchStart < maxTasks := by
  unfold searchStart
  split
  · decide
  · exact Nat.mod_lt _ (by decide)

theorem searchStart_congr (h : s'.currentTid = s.currentTid) : s'.searchStart = s.searchStart := by
  unfold searchStart current
  rw [h]

theorem searchStart_of_current (h : s.currentTid = (i : Int)) : s.searchStart = (i + 1) % maxTasks := by
  unfold searchStart current
  rw [h, if_neg (by omega), Int.toNat_natCast]

/-- The task that is picked comes before every other one that is runnable. -/
theorem pickNextRunnable_before (h : s.pickNextRunnable = some i) (ht : t < maxTasks)
    (hst : (s.tasks t).state = .runnable ∨ (s.tasks t).state = .running) (hne : i ≠ t) :
    ∃ j < Cycle.ahead maxTasks s.searchStart t, i = (s.searchStart + j) % maxTasks := by
  obtain ⟨j, hj, rfl⟩ := Option.map_eq_some_iff.mp h
  obtain ⟨-, -, hfirst⟩ := firstSlot_eq_some hj
  refine ⟨j, ?_, rfl⟩
  have hplace := Cycle.forward_ahead s.searchStart_lt ht
  by_contra hle
  rcases Nat.lt_or_eq_of_le (Nat.le_of_not_lt hle) with hlt | heq
  · have := hfirst _ hlt
    rw [show (if s.currentTid < 0 then 0 else (s.current + 1) % maxTasks) = s.searchStart from rfl, hplace,
      decide_eq_false_iff_not] at this
    exact this hst
  · exact hne (by rw [← hplace, heq]; rfl)

theorem pickNextRunnable_ne_current (hc : 0 ≤ s.currentTid) (hlt : s.current < maxTasks) (ht : t < maxTasks)
    (hst : (s.tasks t).state = .runnable ∨ (s.tasks t).state = .running) (hne : t ≠ s.current) :
    s.pickNextRunnable ≠ some s.current := fun h => by
  obtain ⟨j, hj, hcur⟩ := pickNextRunnable_before h ht hst (Ne.symm hne)
  have hlast := Cycle.ahead_succ hlt
  rw [← searchStart_of_current ((current_eq_iff hc).mpr rfl).symm] at hlast
  have hbound := Cycle.ahead_lt s.searchStart_lt ht
  have hj' := Cycle.ahead_forward s.searchStart_lt (Nat.lt_trans hj hbound)
  rw [← hcur, hlast] at hj'
  omega

theorem contextSwitchFrom_current {pml4 rsp next : Nat} (h : s.contextSwitchFrom pml4 rsp = .ok (next, s'))
    (hp : (s.suspend rsp).pickNextRunnable = some i) : s'.currentTid = i := by
  rcases contextSwitchFrom_cases h with ⟨hn, -⟩ | ⟨hcur, hc, -, rfl⟩ | ⟨i', cr3, hi, -, -, -, rfl⟩
  · rw [hn] at hp
    cases hp
  · rcases hcur with hn | hcur
    · rw [hn] at hp
      cases hp
    · rw [hcur] at hp
      cases hp
      exact (suspend_currentTid s rsp).trans ((current_eq_iff hc).mpr rfl).symm
  · rw [hi] at hp
    cases hp
    rfl

/-- A switch leaves the current task when another one can run. -/
theorem Ready.leaves_current {pml4 rsp next : Nat} (hr : s.Ready) (hc : 0 ≤ s.currentTid) (ht : t < maxTasks)
    (hne : t ≠ s.current) (hst : (s.tasks t).state = .runnable ∨ (s.tasks t).state = .running)
    (h : s.contextSwitchFrom pml4 rsp = .ok (next, s')) :
    s'.currentTid ≠ s.currentTid := fun hcur => by
  cases hp : (s.suspend rsp).pickNextRunnable with
  | none => exact (hr.suspend rsp).pick_ne_none hp
  | some i =>
    have hi : i = s.current := (current_eq_iff hc).mp ((contextSwitchFrom_current h hp).symm.trans hcur)
    have hlt : s.current < maxTasks := hi ▸ (pickNextRunnable_eq_some hp).1
    have hother : (s.suspend rsp).tasks t = s.tasks t := suspend_tasks_of_ne fun he => hne ((current_eq_iff hc).mp he)
    refine pickNextRunnable_ne_current (s := s.suspend rsp) (by rw [suspend_currentTid]; exact hc)
      (by rw [suspend_current]; exact hlt) ht (by rw [hother]; exact hst) (by rw [suspend_current]; exact hne) ?_
    rw [suspend_current, hp, hi]

end Sched

namespace Kernel

/-! ### Turns -/

/-- A stretch of a run from `k` in which the task in slot `t` is runnable at every pick of a next task and is not
    picked: the slots that are picked instead, the last one first. -/
inductive Stretch (t : Nat) (k : Kernel) : List Nat → Kernel → Prop
  | nil : Stretch t k [] k
  | pass {picks : List Nat} {e : KernelEvent} {k₁ k₂ : Kernel} : Stretch t k picks k₁ → k₁.step e k₂ →
      (∀ s rsp, ¬Switches k₁ e s rsp) → Stretch t k picks k₂
  | pick {picks : List Nat} {e : KernelEvent} {k₁ k₂ : Kernel} {s : Sched} {rsp i : Nat} :
    Stretch t k picks k₁ → k₁.step e k₂ →
      Switches k₁ e s rsp → ((s.suspend rsp).tasks t).state = .runnable →
        (s.suspend rsp).pickNextRunnable = some i → i ≠ t →
      Stretch t k (i :: picks) k₂

theorem Stretch.passed {t : Nat} {k k' : Kernel} {picks : List Nat} (h : Stretch t k picks k') (hr : k.sched.Ready)
    (ht : t < maxTasks) : k'.sched.Ready ∧ Cycle.Passed maxTasks k'.sched.searchStart t picks := by
  induction h with
  | nil => exact ⟨hr, .nil⟩
  | pass _ hs hno ih =>
    obtain ⟨hr₁, hpassed⟩ := ih
    refine ⟨(ready_step hr₁ hs).1, ?_⟩
    rcases step_cases hr₁ hs with ⟨s, rsp, -, -, hsw, -⟩ | hp
    · exact absurd hsw (hno s rsp)
    · rw [Sched.searchStart_congr hp.leads.currentTid]
      exact hpassed
  | pick _ hs hsw hst hp hne ih =>
    obtain ⟨hr₁, hpassed⟩ := ih
    refine ⟨(ready_step hr₁ hs).1, ?_⟩
    obtain ⟨pml4, next, hc⟩ := hsw.step hr₁ hs
    obtain ⟨j, hj, hi⟩ := Sched.pickNextRunnable_before hp ht (Or.inl hst) hne
    rw [Sched.searchStart_congr ((Sched.suspend_currentTid _ _).trans (hsw.leads hr₁).currentTid)] at hj hi
    rw [Sched.searchStart_of_current (Sched.contextSwitchFrom_current hc hp), hi]
    exact hpassed.move (Sched.searchStart_lt _) ht hj

/-- Round robin: while a task waits for its turn, no other task is picked twice. -/
theorem no_task_picked_twice {fw : Platform} {image : KernelImage} {k k' : Kernel} {t : Nat} {picks : List Nat}
    (h : (kernels fw image).Reachable k) (ht : t < maxTasks) (hs : Stretch t k picks k') : picks.Nodup :=
  (hs.passed (ready_of_reachable h) ht).2.nodup

section Sample
variable {t i rsp : Nat} {k k₁ k₂ : Kernel} {picks : List Nat}

theorem not_switches_of_inSlice (h : k.sched.InSlice) (s : Sched) (r : Nat) : ¬Switches k (.tick rsp) s r :=
  fun hsw => by
  cases hsw with
  | tick hs => exact hs h

theorem Stretch.ticks (h : Stretch t k picks k₁) (h0 : 0 ≤ k₁.sched.currentTid)
    (hrun : (k₁.sched.tasks k₁.sched.current).state = .running) (rsp : Nat) {n : Nat}
    (hn : k₁.sched.sliceTicks + n < Sched.ticksPerSlice) :
    Stretch t k picks (k₁.withSched { k₁.sched with sliceTicks := k₁.sched.sliceTicks + n }) := by
  induction n with
  | zero => exact h
  | succ n ih =>
    obtain ⟨hin, htick⟩ := tick_of_lt (k := k₁.withSched { k₁.sched with sliceTicks := k₁.sched.sliceTicks + n })
      h0 hrun hn rsp
    exact (ih (by omega)).pass htick (not_switches_of_inSlice hin)

/-- A slice of the current task, while the task in slot `t` is runnable. -/
theorem Stretch.slice (h : Stretch t k picks k₁) (hr : k₁.sched.Ready) (h0 : 0 ≤ k₁.sched.currentTid)
    (hrun : (k₁.sched.tasks k₁.sched.current).state = .running) (hz : k₁.sched.sliceTicks = 0) {next : Nat}
    (hc : k₁.contextSwitchFrom rsp = .ok (next, k₂)) (hst : ((k₁.sched.suspend rsp).tasks t).state = .runnable)
    (hcur : k₂.sched.currentTid = i) (hne : i ≠ t) : Stretch t k (i :: picks) k₂ := by
  have hpick : (k₁.sched.suspend rsp).pickNextRunnable = some i := by
    cases hp : (k₁.sched.suspend rsp).pickNextRunnable with
    | none => exact absurd hp (hr.suspend rsp).pick_ne_none
    | some j =>
      have hj := (Sched.contextSwitchFrom_current (contextSwitchFrom_sched hc) hp).symm.trans hcur
      rw [Int.ofNat_inj.mp hj]
  have hlast := h.ticks h0 hrun rsp (n := 4) (by rw [hz]; decide)
  obtain ⟨hout, hstep⟩ := fifth_tick hz hc
  have hs : { k₁.sched with sliceTicks := 0 } = k₁.sched := by rw [← hz]
  have hsw : Switches (k₁.withSched { k₁.sched with sliceTicks := k₁.sched.sliceTicks + 4 }) (.tick rsp)
      { k₁.sched with sliceTicks := 0 } rsp := .tick hout
  rw [hs] at hsw
  exact hlast.pick hstep hsw hst hpick hne

/-- The idle task and a process are picked while the shell waits for its turn. -/
theorem no_task_picked_twice_sample :
    ∃ k k' : Kernel, sampleKernels.Reachable k ∧ Stretch 0 k [2, 1] k' ∧ [2, 1].Nodup := by
  obtain ⟨k₀, k₁, -, stack₀, stack₁, stack, r, prog, h₀, -, hfirst, hproc, hsh, hk, hroot, -⟩ :=
    exists_spawned fun _ _ => 0
  obtain ⟨k, hstart, hproc₁, hm₁, -, hsh₁⟩ := hproc.schedule rfl rfl rfl hk
  have hr : sampleKernels.Reachable k :=
    ((System.Reachable.init h₀).step hfirst.2).step (show sampleKernels.step k₁ .schedule k from hstart)
  have hready := ready_of_reachable hr
  have hk₁ : k.machine.kernelPml4 ≠ 0 := hm₁ ▸ hk
  obtain ⟨m, cr3, hs⟩ := hproc₁.sched
  obtain ⟨next, k₂, hsw, hproc₂, -⟩ : ∃ next k₂, k.contextSwitchFrom 0 = .ok (next, k₂) ∧ _ :=
    hproc₁.switched rfl fun _ _ => Sched.switch_three_idle rfl rfl rfl hk₁
  obtain ⟨m₂, cr3₂, hs₂⟩ := hproc₂.sched
  have hidle : Stretch 0 k [1] k₂ := by
    refine Stretch.nil.slice hready ?_ ?_ ?_ hsw ?_ ?_ (by decide) <;> first | rw [hs] | rw [hs₂]
    · exact Int.le_refl 0
    all_goals rfl
  have hready₂ := (hidle.passed hready (by decide)).1
  obtain ⟨next', k₃, hsw', hproc₃, -⟩ : ∃ next k₃, k₂.contextSwitchFrom 0 = .ok (next, k₃) ∧ _ :=
    hproc₂.switched rfl fun _ _ => Sched.switch_three_user rfl rfl rfl nofun hroot
  obtain ⟨m₃, cr3₃, hs₃⟩ := hproc₃.sched
  have huser : Stretch 0 k [2, 1] k₃ := by
    refine hidle.slice hready₂ ?_ ?_ ?_ hsw' ?_ ?_ (by decide) <;> first | rw [hs₂] | rw [hs₃]
    · exact Int.natCast_nonneg 1
    all_goals rfl
  exact ⟨k, k₃, hr, huser, no_task_picked_twice hr (by decide) huser⟩

end Sample
/-! ### Time slices -/

/-- A part of a run from `k` in which the current task of `k` stays the running one: its events, the last one first. -/
inductive Held (k : Kernel) : List KernelEvent → Kernel → Prop
  | nil : Held k [] k
  | snoc {es : List KernelEvent} {e : KernelEvent} {k₁ k₂ : Kernel} : Held k es k₁ → k₁.step e k₂ →
      k₂.sched.currentTid = k.sched.currentTid → (k₂.sched.tasks k.sched.current).state = .running → Held k (e :: es) k₂

/-- The ticks before the fifth one go back to the current task, as long as it stays the running one. -/
def FullSlice (k : Kernel) : Prop :=
  ∀ es k', Held k es k' → es.countP ticks + 1 < Sched.ticksPerSlice → ∀ rsp,
    ∃ next k'', k'.scheduleOnTick rsp = .ok (next, k'') ∧ k''.sched.currentTid = k.sched.currentTid

/-- The current task runs, and its slice is not used up. -/
structure InTask (k : Kernel) : Prop where
  ready : k.sched.Ready
  nonneg : 0 ≤ k.sched.currentTid
  running : (k.sched.tasks k.sched.current).state = .running
  slice : k.sched.sliceTicks < Sched.ticksPerSlice

theorem contextSwitchFrom_sliceTicks {s s' : Sched} {pml4 rsp next : Nat}
    (h : s.contextSwitchFrom pml4 rsp = .ok (next, s')) :
    s'.sliceTicks = s.sliceTicks := by
  have hsus : (s.suspend rsp).sliceTicks = s.sliceTicks := by
    unfold Sched.suspend
    split <;> rfl
  rcases Sched.contextSwitchFrom_cases h with ⟨-, -, -, rfl⟩ | ⟨-, -, -, rfl⟩ | ⟨i, cr3, -, -, -, -, rfl⟩ <;> exact hsus

section Slices
variable {k k' : Kernel} {es : List KernelEvent} {e : KernelEvent}

theorem step_sliceTicks (hr : k.sched.Ready) (h : k.step e k') :
    (ticks e = true ∧ (k'.sched.sliceTicks = 0 ∨
      (k.sched.InSlice ∧ k'.sched.sliceTicks = (k.sched.sliceTicks + 1) % 2 ^ 32))) ∨
    (ticks e = false ∧ k'.sched.sliceTicks = k.sched.sliceTicks) := by
  rcases step_cases hr h with ⟨s, rsp, pml4, next, hsw, hc⟩ | hp
  · have hkeep := contextSwitchFrom_sliceTicks hc
    cases hsw with
    | schedule _ => exact Or.inr ⟨rfl, hkeep⟩
    | tick _ => exact Or.inl ⟨rfl, Or.inl hkeep⟩
    | syscall hu hres _ _ =>
      rw [Sched.offered_sliceTicks, (syscallResult_leads rsp hr hu hres).2.1] at hkeep
      exact Or.inr ⟨rfl, hkeep⟩
  · have hsl := hp.sliceTicks
    cases e with
    | tick rsp =>
      refine Or.inl ⟨rfl, Or.inr ⟨?_, hsl⟩⟩
      by_contra hin
      exact hp.calls _ _ (.tick hin)
    | _ => exact Or.inr ⟨rfl, hsl⟩

theorem step_slice_lt (hr : k.sched.Ready) (hlt : k.sched.sliceTicks < Sched.ticksPerSlice) (h : k.step e k') :
    k'.sched.sliceTicks < Sched.ticksPerSlice := by
  rcases step_sliceTicks hr h with ⟨-, hz | ⟨hin, hsl⟩⟩ | ⟨-, hsl⟩
  · rw [hz]
    decide
  · rw [hsl]
    exact hin.2.2
  · rwa [hsl]

theorem slice_lt_of_reachable {fw : Platform} {image : KernelImage} (h : (kernels fw image).Reachable k) :
    k.sched.Ready ∧ k.sched.sliceTicks < Sched.ticksPerSlice := by
  refine h.invariant (I := fun k => k.sched.Ready ∧ k.sched.sliceTicks < Sched.ticksPerSlice) ?_ fun hi hs =>
    ⟨(ready_step hi.1 hs).1, step_slice_lt hi.1 hi.2 hs⟩
  rintro k ⟨mem, bytes, shellEntry, idleEntry, hb⟩
  refine ⟨(TableInv.boot hb).1.ready, ?_⟩
  unfold Kernel.boot at hb
  obtain ⟨k₀, h₀, hb⟩ := of_bind_eq_ok hb
  obtain ⟨k₀', ht₀, hb⟩ := of_bind_eq_ok hb
  obtain ⟨⟨shellId, k₁⟩, h₁, hb⟩ := of_bind_eq_ok hb
  obtain ⟨⟨idleId, k₂⟩, h₂, hb⟩ := of_bind_eq_ok hb
  cases hb
  obtain ⟨⟨pml4, hs⟩, -⟩ := TableInv.initMemory_tables h₀ ht₀
  have hkeep : ∀ {k k' : Kernel} {n tid}, k.taskCreate n = .ok (tid, k') → k'.sched.sliceTicks = k.sched.sliceTicks :=
    fun h => by
    rcases taskCreate_slot h with hs | ⟨t, freed, s, f, -, hs, -⟩ <;> rw [hs]
    rfl
  rw [hkeep h₂, hkeep h₁, hs]
  exact Nat.zero_lt_succ 4

theorem Held.inTask (h : Held k es k') (hk : k.InTask) :
    k'.InTask ∧ k'.sched.currentTid = k.sched.currentTid ∧
      k'.sched.sliceTicks ≤ k.sched.sliceTicks + es.countP ticks := by
  induction h with
  | nil => exact ⟨hk, rfl, Nat.le_refl _⟩
  | snoc _ hs hcur hrun ih =>
    obtain ⟨hk₁, -, hle⟩ := ih
    have hsame : ∀ {s : Sched}, s.currentTid = k.sched.currentTid → s.current = k.sched.current := fun h => by
      unfold Sched.current
      rw [h]
    refine ⟨⟨(ready_step hk₁.ready hs).1, hcur ▸ hk.nonneg, by rw [hsame hcur]; exact hrun,
      step_slice_lt hk₁.ready hk₁.slice hs⟩, hcur, ?_⟩
    rw [List.countP_cons]
    rcases step_sliceTicks hk₁.ready hs with ⟨he, hz | ⟨-, hsl⟩⟩ | ⟨he, hsl⟩
    · omega
    · rw [hsl, he, if_pos rfl]
      exact Nat.le_trans (Nat.mod_le _ _) (by omega)
    · rw [hsl]
      omega

theorem Held.ticks (h : Held k es k') (hk : k'.InTask) (hcur : k'.sched.currentTid = k.sched.currentTid) (rsp : Nat)
    {n : Nat} (hn : k'.sched.sliceTicks + n < Sched.ticksPerSlice) :
    Held k (List.replicate n (.tick rsp) ++ es)
      (k'.withSched { k'.sched with sliceTicks := k'.sched.sliceTicks + n }) := by
  have hsame : k.sched.current = k'.sched.current := by
    unfold Sched.current
    rw [hcur]
  induction n with
  | zero => exact h
  | succ n ih =>
    have htick := (tick_of_lt (k := k'.withSched { k'.sched with sliceTicks := k'.sched.sliceTicks + n }) hk.nonneg
      hk.running hn rsp).2
    refine (ih (by omega)).snoc htick hcur ?_
    rw [hsame]
    exact hk.running

theorem InTask.fullSlice (hk : k.InTask) (hz : k.sched.sliceTicks = 0) : k.FullSlice := fun es k' h hn rsp => by
  obtain ⟨hk', hcur, hle⟩ := h.inTask hk
  obtain ⟨-, next, hs⟩ := tick_of_lt hk'.nonneg hk'.running (by omega) rsp
  exact ⟨next, _, hs, hcur⟩

/-- There is another task to switch to, at the latest when the shell is woken. -/
theorem InTask.rival (hk : k.InTask) : ∃ es k₁ t, Held k es k₁ ∧ es.countP Kernel.ticks = 0 ∧ k₁.InTask ∧
    k₁.sched.currentTid = k.sched.currentTid ∧ k₁.sched.sliceTicks = k.sched.sliceTicks ∧ t < maxTasks ∧
      t ≠ k₁.sched.current ∧
    ((k₁.sched.tasks t).state = .runnable ∨ (k₁.sched.tasks t).state = .running) := by
  by_cases hidle : k.sched.current = 1
  · rcases hk.ready.shell.1 with hst | hst | hst
    · exact ⟨[], k, 0, .nil, rfl, hk, rfl, rfl, by decide, by rw [hidle]; decide, Or.inl hst⟩
    · exact ⟨[], k, 0, .nil, rfl, hk, rfl, rfl, by decide, by rw [hidle]; decide, Or.inr hst⟩
    · -- the idle task runs and the shell sleeps
      have hwake : k.sched.taskWake 0 = k.sched.modify 0 fun t => { t with state := .runnable } := by
        unfold Sched.taskWake
        rw [if_neg (by decide)]
        exact if_pos hst
      have hready := hk.ready.taskWake 0
      have hrun : ((k.sched.taskWake 0).tasks k.sched.current).state = .running := by
        rw [hwake, Sched.modify_tasks_of_ne (by rw [hidle]; decide)]
        exact hk.running
      have hst' : ((k.sched.taskWake 0).tasks 0).state = .runnable := by
        rw [hwake, Sched.modify_tasks_same]
      have hcur : (k.sched.taskWake 0).currentTid = k.sched.currentTid := by rw [hwake]; rfl
      have hsl : (k.sched.taskWake 0).sliceTicks = k.sched.sliceTicks := by rw [hwake]; rfl
      have hsame : (k.sched.taskWake 0).current = k.sched.current := by rw [hwake]; rfl
      refine ⟨[.wake 0], k.withSched (k.sched.taskWake 0), 0, Held.nil.snoc rfl hcur hrun, rfl,
        ⟨hready, hcur ▸ hk.nonneg, ?_, hsl ▸ hk.slice⟩, hcur, hsl, by decide, ?_, Or.inl hst'⟩
      · rw [withSched_sched, hsame]
        exact hrun
      · rw [withSched_sched, hsame, hidle]
        decide
  · exact ⟨[], k, 1, .nil, rfl, hk, rfl, rfl, by decide, Ne.symm hidle, hk.ready.idle.1⟩

/-- A slice that starts later is cut short once another task can run. -/
theorem InTask.sliceTicks_eq_zero (hk : k.InTask) (h : k.FullSlice) : k.sched.sliceTicks = 0 := by
  by_contra hne
  obtain ⟨es, k₁, t, hheld, hcount, hk₁, hcur, hsl, ht, htc, hst⟩ := hk.rival
  have hlt := hk.slice
  simp only [Sched.ticksPerSlice] at hlt
  have hn : k₁.sched.sliceTicks + (4 - k.sched.sliceTicks) < Sched.ticksPerSlice := by
    simp only [Sched.ticksPerSlice]
    omega
  have hheld' := hheld.ticks hk₁ hcur 0 hn
  have hticks : (List.replicate (4 - k.sched.sliceTicks) (KernelEvent.tick 0) ++ es).countP Kernel.ticks =
      4 - k.sched.sliceTicks := by
    rw [List.countP_append, hcount, Nat.add_zero, List.countP_replicate,
      if_pos (show Kernel.ticks (.tick 0) = true from rfl)]
  obtain ⟨next, k'', hs, hcur''⟩ := h _ _ hheld' (by rw [hticks]; simp only [Sched.ticksPerSlice]; omega) 0
  rcases Sched.scheduleOnTick_cases (scheduleOnTick_sched hs) with ⟨hin, -⟩ | ⟨-, hc⟩
  · have : (k₁.sched.sliceTicks + (4 - k.sched.sliceTicks) + 1) % 2 ^ 32 < 5 := hin.2.2
    omega
  · -- the next tick switches, and it does not pick the current task
    have hready : Sched.Ready { k₁.sched with sliceTicks := 0 } := hk₁.ready.of_tasks rfl rfl
    exact hready.leaves_current hk₁.nonneg ht htc hst hc (hcur''.trans hcur.symm)

theorem InTask.fullSlice_iff (hk : k.InTask) : k.FullSlice ↔ k.sched.sliceTicks = 0 :=
  ⟨hk.sliceTicks_eq_zero, hk.fullSlice⟩

theorem Switches.inTask {s : Sched} {rsp : Nat} (hsw : Switches k e s rsp) (hr : k.sched.Ready)
    (hlt : k.sched.sliceTicks < Sched.ticksPerSlice) (h : k.step e k') : k'.InTask := by
  obtain ⟨pml4, next, hc⟩ := hsw.step hr h
  have hpick := (hsw.stays hr h).1
  have hrun : 0 ≤ k'.sched.currentTid ∧ (k'.sched.tasks k'.sched.current).state = .running := by
    rcases Sched.contextSwitchFrom_cases hc with ⟨hn, -⟩ | ⟨-, hcur, -, he⟩ | ⟨i, cr3, -, -, -, -, he⟩
    · exact absurd hn hpick
    · rw [he]
      exact ⟨by simpa [Sched.setRunning] using hcur, by simp [Sched.setRunning]⟩
    · rw [he]
      exact ⟨by simp, by simp⟩
  exact ⟨(ready_step hr h).1, hrun.1, hrun.2, step_slice_lt hr hlt h⟩

end Slices

/-- In every run, the task to which a switch goes has a full time slice exactly when the switch is made by the timer,
    or by a system call that comes before the first tick of a slice. -/
theorem full_slice_iff {fw : Platform} {image : KernelImage} {k k' : Kernel} {e : KernelEvent} {s : Sched} {rsp : Nat}
    (h : (kernels fw image).Reachable k) (hsw : Switches k e s rsp) (hs : k.step e k') :
    k'.FullSlice ↔ (∃ r, e = .tick r) ∨ k.sched.sliceTicks = 0 := by
  obtain ⟨hr, hlt⟩ := slice_lt_of_reachable h
  rw [(hsw.inTask hr hlt hs).fullSlice_iff]
  rcases step_sliceTicks hr hs with ⟨he, hz | ⟨hin, -⟩⟩ | ⟨he, hsl⟩
  · refine ⟨fun _ => Or.inl ?_, fun _ => hz⟩
    cases e with
    | tick r => exact ⟨r, rfl⟩
    | _ => cases he
  · cases hsw with
    | schedule _ | syscall _ _ _ _ => cases he
    | tick hout => exact absurd hin hout
  · rw [hsl]
    refine ⟨Or.inr, fun h => h.resolve_left ?_⟩
    rintro ⟨r, rfl⟩
    cases he

/-- The shell after the first switch. -/
theorem full_slice_iff_sample : ∃ k k' : Kernel, sampleKernels.Reachable k ∧ k.step .schedule k' ∧ k'.FullSlice := by
  obtain ⟨k₀, k₁, -, stack₀, stack₁, stack, r, prog, h₀, -, hfirst, hproc, -, hk, -⟩ := exists_spawned fun _ _ => 0
  obtain ⟨k, hstart, -⟩ := hproc.schedule rfl rfl rfl hk
  have hr : sampleKernels.Reachable k₁ := (System.Reachable.init h₀).step hfirst.2
  obtain ⟨m, cr3, hs⟩ := hproc.sched
  exact ⟨k₁, k, hr, hstart, (full_slice_iff hr (.schedule hstart.1) hstart).mpr (Or.inr (by rw [hs]; rfl))⟩

theorem yield_three {k : Kernel} {t₀ t₁ t₂ : Task} {n cr3 : Nat} {m : BitVec 64}
    (hs : k.sched = .three t₀ t₁ t₂ 2 n m cr3) (h₀ : t₀.state = .runnable) (hu₀ : t₀.isUser = false)
    (h₂ : t₂.state = .running) (hu₂ : t₂.isUser = true) (hk : k.machine.kernelPml4 ≠ 0) {frame : Nat}
    (hf : frame ≠ 0) : ∃ k', k.step (.syscall frame .yield) k' ∧
      k'.sched = .three { t₀ with state := .running, timeslice := t₀.timeslice + 1 } t₁
        { t₂ with kernelRsp := frame, state := .runnable }
        0 n (m + 1) k.machine.kernelPml4 ∧ k'.machine.kernelPml4 = k.machine.kernelPml4 := by
  have huser : k.InUser := by
    unfold InUser
    rw [hs]
    exact ⟨Int.natCast_nonneg 2, hu₂, h₂⟩
  have hoff : k.sched.offered = .three t₀ t₁ { t₂ with state := .runnable } 2 n m cr3 := by
    have hcur : k.sched.current = 2 := by
      rw [hs]
      rfl
    unfold Sched.offered
    rw [if_pos ⟨huser.1, by simp [huser.2.2], by simp [huser.2.2]⟩, hcur, hs, Sched.modify_three (by decide)]
    rfl
  obtain ⟨next, hsw⟩ : ∃ next, (k.withSched k.sched.offered).sched.contextSwitchFrom
    (k.withSched k.sched.offered).machine.kernelPml4 frame =
      .ok (next, .three { t₀ with state := .running, timeslice := t₀.timeslice + 1 } t₁
        { t₂ with kernelRsp := frame, state := .runnable }
        0 n (m + 1) k.machine.kernelPml4) := by
    rw [withSched_sched, hoff]
    exact Sched.leave_three_user h₀ hu₀ hk
  obtain ⟨k', hc, hs', hpml4⟩ := contextSwitchFrom_ok hsw
  refine ⟨k', ⟨huser, next, ?_⟩, hs', hpml4⟩
  show k.syscallReturn frame 0 = _
  exact syscallReturn_ok (Or.inr rfl) hf hc

/-- A process yields after four ticks of its slice. The first tick that comes after the switch to the shell takes the
    processor from the shell. -/
theorem slice_cut_short : ∃ k k' k'' : Kernel, sampleKernels.Reachable k ∧ k.step (.syscall 4096 .yield) k' ∧
    k'.sched.currentTid = 0 ∧ k'.step (.tick 0) k'' ∧ k''.sched.currentTid = 1 ∧ ¬k'.FullSlice := by
  obtain ⟨k₄, t₀, t₁, t₂, p, hr₄, hin⟩ := exists_inProcess fun _ _ => 0
  obtain ⟨m, cr3, hs₄⟩ := hin.process.sched
  have hcur : 0 ≤ k₄.sched.currentTid := by
    rw [hs₄]
    exact Int.natCast_nonneg 2
  have hrun : (k₄.sched.tasks k₄.sched.current).state = .running := by
    rw [hs₄]
    exact hin.running.1
  have hzero : k₄.sched.sliceTicks = 0 := by
    rw [hs₄]
    rfl
  -- Four ticks of the slice of the process.
  have hp : sampleKernels.Path k₄ _ _ := ticks_in_slice hcur hrun 0 (n := 4) (by rw [hzero]; decide)
  have hs : (k₄.withSched { k₄.sched with sliceTicks := k₄.sched.sliceTicks + 4 }).sched =
      .three t₀ t₁ t₂ 2 4 m cr3 := by
    rw [withSched_sched, hs₄]
    rfl
  obtain ⟨k', hyield, hs', hpml4⟩ :=
    yield_three hs hin.shell.1 hin.shell.2.1 hin.running.1 hin.running.2.1 hin.kernelPml4
    (show (4096 : Nat) ≠ 0 by decide)
  have hout : ¬k'.sched.InSlice := fun h => by
    have := h.2.2
    rw [hs'] at this
    exact absurd this (show ¬(4 + 1) % 2 ^ 32 < 5 by decide)
  have hcur' : k'.sched.currentTid = 0 := by
    rw [hs']
    rfl
  obtain ⟨k'', htick, hcur''⟩ : ∃ k'', k'.step (.tick 0) k'' ∧ k''.sched.currentTid = 1 := by
    obtain ⟨next, hsw⟩ : ∃ next, (k'.withSched { k'.sched with sliceTicks := 0 }).sched.contextSwitchFrom
      k'.machine.kernelPml4 0 =
        .ok (next, _) := by
      rw [withSched_sched, hs']
      exact Sched.leave_three_shell hin.idle.1 hin.idle.2.1 (hpml4 ▸ hin.kernelPml4)
    obtain ⟨k'', hc, hs'', -⟩ := contextSwitchFrom_ok (k := k'.withSched { k'.sched with sliceTicks := 0 }) hsw
    exact ⟨k'', tick_ends hout hc, by rw [hs'']; rfl⟩
  refine ⟨_, k', k'', hp.reachable hr₄, hyield, hcur', htick, hcur'', fun hfull => ?_⟩
  obtain ⟨next, k₃, hres, hsame⟩ := hfull [] k' .nil (by decide) 0
  obtain ⟨next', htick⟩ := htick
  rw [hres] at htick
  cases htick
  rw [hcur', hcur''] at hsame
  cases hsame

end Kernel
end SamOS
