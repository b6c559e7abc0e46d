import SamOS.IrqLaws
import SamOS.Scheduler

/-! The timer (`timer.c`, `isr.S`). Vector 0x20 has one handler, `timer_tick`, for the interrupt of the timer and for
    the `int $0x20` with which `task_yield`, `task_sleep` and `task_exit` ask for a switch. -/

namespace SamOS
open Sched

/-- The state of `timer.c`, `irq.c` and the scheduler. -/
structure TimerRun where
  irq : Irq
  ticks : BitVec 64
  flushNeeded : Bool
  run : SchedRun

/-- The interrupt of the timer, an `int $0x20` of the current task, a call of `timer_flush_needed`, and any other step
    of the scheduler; `task_sleep` and `task_exit` are such a step and then an `int $0x20`. -/
inductive TimerEvent where
  | timer (rsp : Nat)
  | software (rsp : Nat)
  | flush
  | call (e : SchedEvent)

namespace TimerEvent

def isTimer : TimerEvent → Bool
  | .timer _ => true
  | _ => false

def isSoftware : TimerEvent → Bool
  | .software _ => true
  | _ => false

end TimerEvent

namespace TimerRun

def timerTick (kernelPml4 rsp : Nat) (t t' : TimerRun) : Prop :=
  t'.irq = (t.irq.irqSendEoi 0).irqNoteTimerIrq ∧ t'.ticks = t.ticks + 1 ∧ t'.flushNeeded = true ∧
    t.run.step kernelPml4 (.tick rsp) t'.run

def step (kernelPml4 : Nat) (t : TimerRun) : TimerEvent → TimerRun → Prop
  | .timer rsp, t' => t.timerTick kernelPml4 rsp t'
  | .software rsp, t' => 0 ≤ t.run.sched.currentTid ∧ t.timerTick kernelPml4 rsp t'
  | .flush, t' => t' = { t with flushNeeded := false }
  | .call e, t' => (∀ rsp, e ≠ .tick rsp) ∧ ∃ run, t.run.step kernelPml4 e run ∧ t' = { t with run }

end TimerRun

/-- All runs after the boot: `irq_controller_init`, `acpi_init`, `irq_try_enable_apic` and `task_init`, on any
    machine. -/
def timerRuns (kernelPml4 : Nat) : Lts.System TimerRun TimerEvent where
  init t := (∃ (s : Irq) (table : Option (Nat → BitVec 8)), s.eois = [] ∧
      t.irq = (s.irqControllerInit.acpiInit table).irqTryEnableApic.2) ∧
    t.ticks = 0 ∧ t.flushNeeded = false ∧ (schedRuns kernelPml4).init t.run
  step := TimerRun.step kernelPml4

/-! ### Every entry of the handler is counted -/

/-- The command that acknowledges the timer. -/
def Irq.timerEoi (s : Irq) : Eoi := if s.backend = .apic then .lapic else .pic1

/-- After `n` entries of the handler. The APIC is the backend only if it has an address. -/
structure Entered (n : Nat) (t : TimerRun) : Prop where
  ticks : t.ticks = BitVec.ofNat 64 n
  timerIrqCount : t.irq.stats.timerIrqCount = BitVec.ofNat 64 n
  eois : t.irq.eois = List.replicate n t.irq.timerEoi
  lapic : t.irq.backend = .apic → t.irq.addrs.lapicAddr ≠ 0

/-- The number of entries in a run. -/
def entries (es : List TimerEvent) : Nat := es.countP TimerEvent.isTimer + es.countP TimerEvent.isSoftware

section Accounts
variable {kernelPml4 n : Nat} {t t' : TimerRun} {es : List TimerEvent}

theorem entered_init (h : (timerRuns kernelPml4).init t) : Entered 0 t := by
  obtain ⟨⟨s, table, heois, hirq⟩, hticks, -, -⟩ := h
  have hbackend : (s.irqControllerInit.acpiInit table).backend = .pic := rfl
  have hcount : (s.irqControllerInit.acpiInit table).stats.timerIrqCount = 0 := rfl
  have heois : (s.irqControllerInit.acpiInit table).eois = [] := heois
  generalize s.irqControllerInit.acpiInit table = s at hirq hbackend hcount heois
  rcases s.irqTryEnableApic_cases with ⟨-, -, hsame⟩ | ⟨-, -, f, hf⟩ | ⟨happ, -, -, s', m1, m2, klog, hs, hresult⟩
  · rw [← hirq] at hsame
    exact ⟨hticks, hsame.accounts.timerIrqCount.trans hcount, hsame.accounts.eois.trans heois,
      fun hb => by rw [hsame.backend, hbackend] at hb; cases hb⟩
  · rw [← hirq] at hf
    exact ⟨hticks, hf.routed.accounts.timerIrqCount.trans hcount, hf.routed.accounts.eois.trans heois,
      fun hb => by rw [hf.routed.backend, hbackend] at hb; cases hb⟩
  · rw [← hirq] at hresult
    refine ⟨hticks, ?_, ?_, fun _ => ?_⟩
    · rw [hresult]
      exact hs.accounts.timerIrqCount.trans hcount
    · rw [hresult]
      exact hs.accounts.eois.trans heois
    · rw [hresult]
      dsimp only
      rw [hs.addrs]
      exact happ.2.1

theorem irqSendEoi_timer (s : Irq) (h : s.backend = .apic → s.addrs.lapicAddr ≠ 0) :
    (s.irqSendEoi 0).eois = s.eois ++ [s.timerEoi] ∧ (s.irqSendEoi 0).backend = s.backend ∧
    (s.irqSendEoi 0).addrs = s.addrs ∧ (s.irqSendEoi 0).stats.timerIrqCount = s.stats.timerIrqCount := by
  unfold Irq.irqSendEoi Irq.timerEoi
  dsimp only
  cases hb : s.backend with
  | pic =>
    refine ⟨?_, rfl, rfl, rfl⟩
    simp [Irq.picSendEoi]
  | apic =>
    dsimp only [Irq.apicSendEoi]
    rw [if_neg (h hb)]
    exact ⟨rfl, rfl, rfl, rfl⟩

theorem Entered.timerTick {rsp : Nat} (h : Entered n t) (hs : t.timerTick kernelPml4 rsp t') : Entered (n + 1) t' := by
  obtain ⟨hirq, hticks, -, -⟩ := hs
  obtain ⟨heois, hbackend, haddrs, hcount⟩ := irqSendEoi_timer t.irq h.lapic
  have hkind : t'.irq.timerEoi = t.irq.timerEoi := by
    unfold Irq.timerEoi
    rw [hirq]
    exact congrArg (fun b => if b = IrqBackend.apic then Eoi.lapic else Eoi.pic1) hbackend
  refine ⟨?_, ?_, ?_, fun hb => ?_⟩
  · rw [hticks, h.ticks, BitVec.ofNat_add]
    rfl
  · rw [hirq]
    show (t.irq.irqSendEoi 0).stats.timerIrqCount + 1 = _
    rw [hcount, h.timerIrqCount, BitVec.ofNat_add]
    rfl
  · rw [hkind, hirq]
    show (t.irq.irqSendEoi 0).eois = _
    rw [heois, h.eois, List.replicate_succ']
  · rw [hirq] at hb ⊢
    show (t.irq.irqSendEoi 0).addrs.lapicAddr ≠ 0
    rw [haddrs]
    exact h.lapic (hbackend.symm.trans hb)

theorem entries_cons {e : TimerEvent} (he : e.isTimer = true ∨ e.isSoftware = true) :
    entries (e :: es) = entries es + 1 := by
  cases e with
  | timer | software =>
    simp only [entries, List.countP_cons, TimerEvent.isTimer, TimerEvent.isSoftware, reduceIte, Bool.false_eq_true]
    omega
  | flush | call => simp [TimerEvent.isTimer, TimerEvent.isSoftware] at he

theorem entered_of_run (h : (timerRuns kernelPml4).Run es t) : Entered (entries es) t := by
  refine h.invariant (I := fun es t => Entered (entries es) t) entered_init ?_
  intro es t e t' hinv hs
  cases e with
  | timer rsp =>
    rw [entries_cons (Or.inl rfl)]
    exact hinv.timerTick hs
  | software rsp =>
    rw [entries_cons (Or.inr rfl)]
    exact hinv.timerTick hs.2
  | flush =>
    obtain rfl := hs
    exact ⟨hinv.ticks, hinv.timerIrqCount, hinv.eois, hinv.lapic⟩
  | call e =>
    obtain ⟨-, run, -, rfl⟩ := hs
    exact ⟨hinv.ticks, hinv.timerIrqCount, hinv.eois, hinv.lapic⟩

end Accounts

/-- The ticks, the count of timer interrupts and the commands sent agree with the interrupts of the timer, one for
    each. -/
structure TimerAccounts (es : List TimerEvent) (t : TimerRun) : Prop where
  ticks : t.ticks = BitVec.ofNat 64 (es.countP TimerEvent.isTimer)
  timerIrqCount : t.irq.stats.timerIrqCount = BitVec.ofNat 64 (es.countP TimerEvent.isTimer)
  eois : t.irq.eois = List.replicate (es.countP TimerEvent.isTimer) t.irq.timerEoi

/-- In every run the accounts agree exactly when no task has raised `int $0x20`. -/
theorem timer_accounts_iff {kernelPml4 : Nat} {es : List TimerEvent} {t : TimerRun}
    (h : (timerRuns kernelPml4).Run es t) :
    TimerAccounts es t ↔ ∀ rsp, .software rsp ∉ es := by
  have hentered := entered_of_run h
  unfold entries at hentered
  have hnone : (∀ rsp, TimerEvent.software rsp ∉ es) ↔ es.countP TimerEvent.isSoftware = 0 := by
    rw [List.countP_eq_zero]
    constructor
    · intro hno e he hsoft
      cases e with
      | software rsp => exact hno rsp he
      | _ => cases hsoft
    · exact fun hno rsp he => hno _ he rfl
  rw [hnone]
  constructor
  · intro hacc
    have hlen := congrArg List.length (hentered.eois.symm.trans hacc.eois)
    rw [List.length_replicate, List.length_replicate] at hlen
    omega
  · intro hzero
    rw [hzero, Nat.add_zero] at hentered
    exact ⟨hentered.ticks, hentered.timerIrqCount, hentered.eois⟩

section Samples
variable {kernelPml4 : Nat} {es : List TimerEvent} {t : TimerRun}

theorem timerRuns_call (h : (timerRuns kernelPml4).Run es t) {e : SchedEvent} {run : SchedRun}
    (he : ∀ rsp, e ≠ .tick rsp) (hs : t.run.step kernelPml4 e run) :
    (timerRuns kernelPml4).Run (.call e :: es) { t with run } :=
  h.snoc ⟨he, run, hs, rfl⟩

theorem exists_scheduled (cr3 : Nat) : ∃ r₁ r₂ : SchedRun,
    SchedRun.step 1 { sched := taskInit cr3, inTask := false } (.createKernel 65536) r₁ ∧
      SchedRun.step 1 r₁ .schedule r₂ ∧
    r₂.sched.currentTid = 0 ∧ (r₂.sched.tasks 0).state = .running ∧ r₂.sched.sliceTicks = 0 :=
  ⟨_, { sched := _, inTask := true }, rfl, ⟨_, rfl, rfl⟩, rfl, rfl, rfl⟩

theorem exists_timerTick (hcur : t.run.sched.currentTid = 0) (hrun : (t.run.sched.tasks 0).state = .running)
    (hslice : t.run.sched.sliceTicks = 0) (rsp : Nat) : ∃ t', t.timerTick kernelPml4 rsp t' := by
  have hzero : t.run.sched.current = 0 := by
    unfold Sched.current
    omega
  have htick : t.run.sched.scheduleOnTick kernelPml4 rsp = .ok
      (0, { t.run.sched with sliceTicks := (t.run.sched.sliceTicks + 1) % 2 ^ 32 }) := by
    unfold Sched.scheduleOnTick
    rw [if_pos ⟨by omega, by rw [hzero, hrun]⟩]
    refine if_pos ?_
    show (t.run.sched.sliceTicks + 1) % 2 ^ 32 < 5
    omega
  refine ⟨{ irq := (t.irq.irqSendEoi 0).irqNoteTimerIrq, ticks := t.ticks + 1, flushNeeded := true
            run := { sched := { t.run.sched with sliceTicks := (t.run.sched.sliceTicks + 1) % 2 ^ 32 }, inTask := true } },
    rfl, rfl, rfl, 0, htick, ?_⟩
  exact (decide_eq_true (show 0 ≤ t.run.sched.currentTid by omega)).symm

theorem exists_inTask : ∃ t, (timerRuns 1).Run [.call .schedule, .call (.createKernel 65536)] t ∧
    t.run.sched.currentTid = 0 ∧ (t.run.sched.tasks 0).state = .running ∧ t.run.sched.sliceTicks = 0 := by
  obtain ⟨r₁, r₂, hs₁, hs₂, hr₂⟩ := exists_scheduled 0
  have h₀ : (timerRuns 1).init
      { irq := ((Irq.machine 23).irqControllerInit.acpiInit none).irqTryEnableApic.2, ticks := 0,
        flushNeeded := false, run := { sched := taskInit 0, inTask := false } } :=
    ⟨⟨Irq.machine 23, none, rfl, rfl⟩, rfl, rfl, 0, rfl⟩
  have h₁ := timerRuns_call (.init h₀) (fun rsp h => by cases h) hs₁
  exact ⟨_, timerRuns_call h₁ nofun hs₂, hr₂⟩

end Samples

/-- One interrupt of the timer. -/
theorem timer_accounts_one : ∃ t, (timerRuns 1).Run [.timer 4096, .call .schedule, .call (.createKernel 65536)] t ∧
    TimerAccounts [.timer 4096, .call .schedule, .call (.createKernel 65536)] t := by
  obtain ⟨t, hrun, hcur, hstate, hslice⟩ := exists_inTask
  obtain ⟨t', htick⟩ := exists_timerTick hcur hstate hslice 4096
  have hrun' : (timerRuns 1).Run [.timer 4096, .call .schedule, .call (.createKernel 65536)] t' := hrun.snoc htick
  exact ⟨t', hrun', (timer_accounts_iff hrun').mpr (by simp)⟩

/-- A `task_yield` counts as a tick, and is acknowledged, without any interrupt of the timer. -/
theorem yield_counts_as_tick : ∃ t, (timerRuns 1).Run [.software 4096, .call .schedule, .call (.createKernel 65536)] t ∧
    t.ticks = 1 ∧ t.irq.stats.timerIrqCount = 1 ∧ t.irq.eois = [t.irq.timerEoi] ∧
    ¬TimerAccounts [.software 4096, .call .schedule, .call (.createKernel 65536)] t := by
  obtain ⟨t, hrun, hcur, hstate, hslice⟩ := exists_inTask
  obtain ⟨t', htick⟩ := exists_timerTick hcur hstate hslice 4096
  have hrun' : (timerRuns 1).Run [.software 4096, .call .schedule, .call (.createKernel 65536)] t' :=
    hrun.snoc ⟨by omega, htick⟩
  have hentered := entered_of_run hrun'
  refine ⟨t', hrun', hentered.ticks, hentered.timerIrqCount, hentered.eois, fun hacc => ?_⟩
  have hlen := congrArg List.length (hentered.eois.symm.trans hacc.eois)
  cases hlen

end SamOS
