import SamOS.ProcessLaws
import SamOS.Turns

/-! `task_yield`. The `int $0x20` of a task goes the way of a timer tick: `schedule_on_tick` counts it, and switches
    only if the count completes a time slice. -/

namespace SamOS
open Lts

namespace Sched
variable {s : Sched} {t i : Nat}

/-- The first `RUNNABLE` slot cyclically after the current one. -/
structure FirstRunnable (s : Sched) (t : Nat) : Prop where
  lt : t < maxTasks
  ne : t ≠ s.current
  runnable : (s.tasks t).state = .runnable
  first : ∀ u < maxTasks, Cycle.ahead maxTasks s.searchStart u < Cycle.ahead maxTasks s.searchStart t →
    (s.tasks u).state ≠ .runnable

/-- The task in slot `t` can be switched to: no slot before it is `RUNNING`, its address space can be loaded, and it
    has a frame. -/
structure Resumable (s : Sched) (kernelPml4 t : Nat) : Prop where
  next : ∀ u < maxTasks, Cycle.ahead maxTasks s.searchStart u < Cycle.ahead maxTasks s.searchStart t →
    (s.tasks u).state ≠ .running
  space : ∃ cr3, switchAddressSpace (s.tasks t) kernelPml4 = .ok cr3
  frame : (s.tasks t).kernelRsp ≠ 0

/-- A slot before another one is not the current slot, which comes last. -/
theorem ne_current_of_ahead_lt (hc : 0 ≤ s.currentTid) (hlt : s.current < maxTasks) (ht : t < maxTasks)
    (h : Cycle.ahead maxTasks s.searchStart i < Cycle.ahead maxTasks s.searchStart t) : i ≠ s.current := by
  rintro rfl
  have hlast := Cycle.ahead_succ hlt
  rw [← searchStart_of_current ((current_eq_iff hc).mpr rfl).symm] at hlast
  have hbound := Cycle.ahead_lt s.searchStart_lt ht
  omega

/-- The pick after the suspension of the current task is the first slot that was `RUNNABLE` or `RUNNING`. -/
theorem FirstRunnable.pick (rsp : Nat) (h : s.FirstRunnable t) (hc : 0 ≤ s.currentTid) (hlt : s.current < maxTasks) :
    (s.suspend rsp).pickNextRunnable = some t ↔
      ∀ u < maxTasks, Cycle.ahead maxTasks s.searchStart u < Cycle.ahead maxTasks s.searchStart t →
        (s.tasks u).state ≠ .running := by
  have hstart : (s.suspend rsp).searchStart = s.searchStart := searchStart_congr (suspend_currentTid s rsp)
  have hother {u : Nat} (hu : u ≠ s.current) : (s.suspend rsp).tasks u = s.tasks u :=
    suspend_tasks_of_ne fun he => hu ((current_eq_iff hc).mp he)
  -- what is picked in place of a slot that can run comes before it
  have hbefore {i u : Nat} (hp : (s.suspend rsp).pickNextRunnable = some i) (hu : u < maxTasks) (hcu : u ≠ s.current)
      (hst : (s.tasks u).state = .runnable ∨ (s.tasks u).state = .running) (hne : i ≠ u) :
      Cycle.ahead maxTasks s.searchStart i < Cycle.ahead maxTasks s.searchStart u := by
    obtain ⟨j, hj, rfl⟩ := pickNextRunnable_before hp hu (by rw [hother hcu]; exact hst) hne
    rw [hstart] at hj ⊢
    rwa [Cycle.ahead_forward s.searchStart_lt (Nat.lt_trans hj (Cycle.ahead_lt s.searchStart_lt hu))]
  constructor
  · intro hp u hu hlt' hrun
    have hne : t ≠ u := fun he => Nat.lt_irrefl _ (he ▸ hlt')
    have := hbefore hp hu (ne_current_of_ahead_lt hc hlt h.lt hlt') (Or.inr hrun) hne
    omega
  · intro hnone
    cases hp : (s.suspend rsp).pickNextRunnable with
    | none =>
      have hidle := pickNextRunnable_eq_none hp h.lt
      rw [hother h.ne, h.runnable] at hidle
      simp at hidle
    | some i =>
      by_contra hne
      obtain ⟨hi, hst⟩ := pickNextRunnable_eq_some hp
      have hlt' := hbefore hp h.lt h.ne (Or.inl h.runnable) fun he => hne (by rw [he])
      rw [hother (ne_current_of_ahead_lt hc hlt h.lt hlt')] at hst
      exact hst.elim (h.first i hi hlt') (hnone i hi hlt')

end Sched

namespace Kernel
variable {k : Kernel} {t rsp : Nat}

/-- `task_yield` goes on in the task of slot `t`: `schedule_on_tick` returns the frame of that task to `isr32`. -/
def YieldsTo (k : Kernel) (rsp t : Nat) : Prop :=
  ∃ k', k.scheduleOnTick rsp = .ok ((k.sched.tasks t).kernelRsp, k') ∧ (k.sched.tasks t).kernelRsp ≠ 0 ∧
    k'.sched.currentTid = t ∧ (k'.sched.tasks t).state = .running

/-- With a `RUNNING` task current and another one `RUNNABLE`, `task_yield` switches to the first `RUNNABLE` slot after
    the current one exactly if it completes the time slice and that task can be switched to. -/
theorem yield_switches_iff (hc : 0 ≤ k.sched.currentTid ∧ k.sched.current < maxTasks)
    (hrun : (k.sched.tasks k.sched.current).state = .running) (ht : k.sched.FirstRunnable t) :
    k.YieldsTo rsp t ↔ Sched.ticksPerSlice ≤ (k.sched.sliceTicks + 1) % 2 ^ 32 ∧
      k.sched.Resumable k.machine.kernelPml4 t := by
  have ht' : Sched.FirstRunnable { k.sched with sliceTicks := 0 } t := ⟨ht.lt, ht.ne, ht.runnable, ht.first⟩
  constructor
  · rintro ⟨k', hs, hframe, hcur, -⟩
    rcases Sched.scheduleOnTick_cases (scheduleOnTick_sched hs) with ⟨-, hzero, -⟩ | ⟨hslice, hsched⟩
    · exact absurd hzero hframe
    refine ⟨Nat.le_of_not_lt fun hlt => hslice ⟨hc.1, hrun, hlt⟩, ?_⟩
    rcases Sched.contextSwitchFrom_cases hsched with ⟨-, -, hzero, -⟩ | ⟨-, -, hzero, -⟩ |
      ⟨i, cr3, hpick, -, hspace, -, hs'⟩
    · exact absurd hzero hframe
    · exact absurd hzero hframe
    · obtain rfl : i = t := by
        rw [hs'] at hcur
        exact Int.ofNat_inj.mp hcur
      exact ⟨(ht'.pick rsp hc.1 hc.2).mp hpick, ⟨cr3, hspace⟩, hframe⟩
  · rintro ⟨hslice, hnext, ⟨cr3, hspace⟩, hframe⟩
    have hpick := (ht'.pick rsp hc.1 hc.2).mpr hnext
    have hother : ({ k.sched with sliceTicks := 0 }.suspend rsp).tasks t = k.sched.tasks t :=
      Sched.suspend_tasks_of_ne fun he => ht.ne ((Sched.current_eq_iff hc.1).mp he)
    have hne : (t : Int) ≠ ({ k.sched with sliceTicks := 0 }.suspend rsp).currentTid := by
      rw [Sched.suspend_currentTid]
      exact fun he => ht.ne ((Sched.current_eq_iff hc.1).mp he)
    have hswitch := Sched.contextSwitchFrom_next rfl hpick hne (by rw [hother]; exact hspace)
    rw [hother] at hswitch
    obtain ⟨k', hk', hs', -⟩ := contextSwitchFrom_ok (k := k.withSched { k.sched with sliceTicks := 0 }) hswitch
    refine ⟨k', ?_, hframe, by rw [hs'], by rw [hs']; simp⟩
    unfold scheduleOnTick
    rw [if_pos ⟨hc.1, hrun⟩]
    exact (if_neg (Nat.not_lt_of_le hslice)).trans hk'

theorem firstRunnable_three {t₀ t₁ t₂ : Task} {n cr3 : Nat} {m : BitVec 64} (h₁ : t₁.state = .runnable) :
    (Sched.three t₀ t₁ t₂ 0 n m cr3).FirstRunnable 1 :=
  ⟨by decide, Nat.one_ne_zero, h₁, fun _ _ hlt => absurd hlt (Nat.not_lt_zero _)⟩

/-- The shell yields to the idle task at the end of its time slice. -/
theorem yield_switches_fifth : ∃ k : Kernel, k.sched.currentTid = 0 ∧ k.sched.sliceTicks = 4 ∧ k.YieldsTo 0 1 := by
  obtain ⟨_, k, _, _, _, -, -, hidle, -⟩ := exists_shell fun _ _ => 0
  have hpml4 := hidle.kernelPml4_ne_zero
  let shell : Task := { Task.blank with state := .running }
  let idle : Task := { Task.blank with state := .runnable, kernelRsp := 65536 }
  refine ⟨k.withSched (.three shell idle .blank 0 4 0 0), rfl, rfl, ?_⟩
  have hlt : 0 < maxTasks := by decide
  refine (yield_switches_iff (k := k.withSched (.three shell idle .blank 0 4 0 0)) ⟨Int.le_refl 0,
    hlt⟩ rfl (firstRunnable_three rfl)).mpr
    ⟨show Sched.ticksPerSlice ≤ (4 + 1) % 2 ^ 32 by decide, ?_, ⟨k.machine.kernelPml4, if_neg hpml4⟩,
      show 65536 ≠ 0 by decide⟩
  exact fun _ _ hlt => absurd hlt (Nat.not_lt_zero _)

/-- The shell runs, the idle task is `RUNNABLE`, and `task_yield` returns to the shell. -/
theorem yield_returns :
    ∃ k k' : Kernel, sampleKernels.Reachable k ∧ k.sched.currentTid = 0 ∧ (k.sched.tasks 0).state = .running ∧
    (k.sched.tasks 0).isUser = false ∧ k.sched.FirstRunnable 1 ∧ k.scheduleOnTick 4096 = .ok (0, k') ∧
      k'.sched.currentTid = 0 := by
  obtain ⟨k₀, k, use, t₀, t₁, h₀, hs, hidle, -, hrun₀, hu₀, hrun₁, -⟩ := exists_shell fun _ _ => 0
  obtain ⟨m, cr3, hsched⟩ := hidle.sched
  have hreach : sampleKernels.Reachable k := (System.Reachable.init h₀).step hs
  have h0 : 0 ≤ k.sched.currentTid := by
    rw [hsched]
    exact Int.le_refl 0
  have hrun : (k.sched.tasks k.sched.current).state = .running := by
    rw [hsched]
    exact hrun₀
  have hin : k.sched.InSlice := ⟨h0, hrun, by rw [hsched]; exact (by decide : (0 + 1) % 2 ^ 32 < Sched.ticksPerSlice)⟩
  refine ⟨k, _, hreach, by rw [hsched]; rfl, by rw [hsched]; exact hrun₀, by rw [hsched]; exact hu₀, by rw [hsched]; exact firstRunnable_three hrun₁,
    scheduleOnTick_in_slice hin 4096, ?_⟩
  rw [hsched]
  rfl

end Kernel
end SamOS
