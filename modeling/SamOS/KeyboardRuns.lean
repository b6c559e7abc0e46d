import SamOS.Keyboard

/-! The shell and its keyboard (`shell.c`, `task.c`). The shell empties the ring and then sleeps; the interrupt
    handler wakes it if it finds it `WAITING`. A character that arrives after the shell found the ring empty and
    before it is marked `WAITING` wakes nobody. -/

namespace SamOS
open Sched

/-! ### Which steps make a task wait -/

namespace Sched
variable {s s' : Sched} {kernelPml4 rsp next : Nat}

/-- No task is `WAITING` after a change that was not before. -/
def NoNewWaiter (s s' : Sched) : Prop := ∀ t, (s'.tasks t).state = .waiting → (s.tasks t).state = .waiting

theorem NoNewWaiter.trans {s'' : Sched} (h : NoNewWaiter s s') (h' : NoNewWaiter s' s'') : NoNewWaiter s s'' :=
  fun t ht => h t (h' t ht)

theorem noNewWaiter_modify {i : Nat} {f : Task → Task}
    (h : (f (s.tasks i)).state = .waiting → (s.tasks i).state = .waiting) :
    NoNewWaiter s (s.modify i f) := by
  intro t ht
  by_cases hti : t = i
  · rw [hti, modify_tasks_same] at ht
    rw [hti]
    exact h ht
  · rwa [modify_tasks_of_ne hti] at ht

theorem noNewWaiter_suspend : NoNewWaiter s (s.suspend rsp) := by
  unfold suspend
  split
  · refine noNewWaiter_modify fun h => ?_
    dsimp only at h
    split at h
    · cases h
    · exact h
  · exact fun _ h => h

theorem noNewWaiter_switchedTo {i cr3 : Nat} : NoNewWaiter s (s.switchedTo i cr3) := by
  intro t ht
  by_cases hti : t = i
  · rw [hti, switchedTo_tasks_same] at ht
    cases ht
  · rwa [switchedTo_tasks_of_ne hti] at ht

theorem noNewWaiter_contextSwitchFrom (h : s.contextSwitchFrom kernelPml4 rsp = .ok (next, s')) : NoNewWaiter s s' := by
  rcases contextSwitchFrom_cases h with ⟨-, -, -, rfl⟩ | ⟨-, -, -, rfl⟩ | ⟨i, cr3, -, -, -, -, rfl⟩
  · exact noNewWaiter_suspend
  · exact noNewWaiter_suspend.trans (noNewWaiter_modify nofun)
  · exact noNewWaiter_suspend.trans noNewWaiter_switchedTo

theorem noNewWaiter_scheduleOnTick (h : s.scheduleOnTick kernelPml4 rsp = .ok (next, s')) : NoNewWaiter s s' := by
  rcases scheduleOnTick_cases h with ⟨-, -, rfl⟩ | ⟨-, h⟩
  · exact fun _ h => h
  · exact noNewWaiter_contextSwitchFrom (s := { s with sliceTicks := 0 }) h

theorem noNewWaiter_taskCreate (s : Sched) (stack : Nat) (pid : Int) (cr3 : Nat) (isUser : Bool) (as : AsPtr) :
    NoNewWaiter s (s.taskCreate stack pid cr3 isUser as).2.2 := by
  rcases s.taskCreate_cases stack pid cr3 isUser as with ⟨-, he⟩ | ⟨i, -, -, -, ⟨-, he⟩ | ⟨-, he⟩⟩ <;> rw [he]
  · exact fun _ h => h
  · exact noNewWaiter_modify (i := i) (f := fun t => { t with kernelStack := 0 }) fun h => h
  · exact noNewWaiter_modify (i := i) (f := fun _ => created stack pid cr3 isUser as) fun h => TaskState.noConfusion h

theorem noNewWaiter_syscallReturn {ret : BitVec 64} (h : s.syscallReturn kernelPml4 rsp ret = .ok (next, s')) :
    NoNewWaiter s s' := by
  rcases syscallReturn_cases h with ⟨-, -, h⟩ | ⟨-, -, rfl⟩
  · refine NoNewWaiter.trans ?_ (noNewWaiter_contextSwitchFrom h)
    rcases s.offered_cases with he | ⟨-, -, -, he⟩ <;> rw [he]
    · exact fun _ h => h
    · exact noNewWaiter_modify nofun
  · exact fun _ h => h

theorem noNewWaiter_taskWake (tid : Int) : NoNewWaiter s (s.taskWake tid) := by
  rcases s.taskWake_cases tid with he | ⟨-, -, he⟩ <;> rw [he]
  · exact fun _ h => h
  · exact noNewWaiter_modify nofun

theorem taskWake_not_waiting (h : next < maxTasks) : ((s.taskWake next).tasks next).state ≠ .waiting := by
  unfold taskWake
  rw [if_neg (by omega), Int.toNat_natCast]
  split
  · rw [modify_tasks_same]
    exact fun h => TaskState.noConfusion h
  · rename_i hne
    exact hne

theorem noNewWaiter_step {r r' : SchedRun} {e : SchedEvent} (hs : r.step kernelPml4 e r') (he : e ≠ .sleep) :
    NoNewWaiter r.sched r'.sched := by
  cases e with
  | createKernel stack =>
    obtain rfl := hs
    exact noNewWaiter_taskCreate r.sched stack 0 kernelPml4 false .kernel
  | createUser stack pid as pml4 =>
    obtain ⟨-, -, rfl⟩ := hs
    exact noNewWaiter_taskCreate r.sched stack pid pml4 true as
  | schedule =>
    obtain ⟨next, hres, -⟩ := hs
    exact noNewWaiter_contextSwitchFrom hres
  | tick rsp =>
    obtain ⟨next, hres, -⟩ := hs
    exact noNewWaiter_scheduleOnTick hres
  | syscall frame ret =>
    simp only [SchedRun.step] at hs
    split at hs
    · obtain ⟨next, hres, -⟩ := hs
      exact noNewWaiter_syscallReturn hres
    · obtain rfl := hs
      exact fun _ h => h
  | sysExit frame code =>
    obtain ⟨next, hres, -⟩ := hs
    refine NoNewWaiter.trans ?_ (noNewWaiter_syscallReturn hres)
    unfold sysExit
    split
    · exact fun _ h => h
    · exact noNewWaiter_modify fun h => by cases h
  | sleep => exact absurd rfl he
  | wake tid =>
    obtain rfl := hs
    exact noNewWaiter_taskWake tid
  | kill pid code =>
    rw [hs.1]
    rcases r.sched.taskKillPid_eq pid code with he | ⟨i, -, -, he⟩ <;> rw [he]
    · exact fun _ h => h
    · exact noNewWaiter_modify fun h => TaskState.noConfusion h
  | exit code =>
    obtain ⟨hexit, -⟩ := hs
    rw [(taskExit_eq_ok hexit).2]
    exact noNewWaiter_modify fun h => TaskState.noConfusion h

end Sched

/-! ### The shell's loop -/

/-- Where the shell is in its loop: before `task_sleep`, between marking itself `WAITING` and `int $0x20`, before
    `kb_getchar`, or at work on a character. -/
inductive ShellPc where
  | sleep
  | yield
  | read
  | handle (c : Char)
  deriving DecidableEq

structure KeyRun where
  sched : Sched
  kb : Keyboard
  pc : ShellPc

/-- A keyboard interrupt with its byte, a step of the shell, or anything else that schedules: a tick, a call of
    another task, or a command of the shell that makes or kills tasks. -/
inductive KeyEvent where
  | key (scancode : Nat)
  | shell (rsp : Nat)
  | other (e : SchedEvent)

namespace KeyRun

/-- One step of the loop in `shell_task`. -/
def shellStep (kernelPml4 rsp : Nat) (r r' : KeyRun) : Prop :=
  match r.pc with
  | .sleep => r.sched.taskSleep = .ok r'.sched ∧ r'.kb = r.kb ∧ r'.pc = .yield
  | .yield => (∃ next, r.sched.scheduleOnTick kernelPml4 rsp = .ok (next, r'.sched)) ∧ r'.kb = r.kb ∧ r'.pc = .read
  | .read => r'.sched = r.sched ∧ r'.kb = r.kb.getchar.2 ∧
    r'.pc = if r.kb.getchar.1 = '\x00' then .sleep else .handle r.kb.getchar.1
  | .handle _ => r'.sched = r.sched ∧ r'.kb = r.kb ∧ r'.pc = .read

/-- Calls that a task makes for itself; the shell makes none of them outside its loop. -/
def ownCall : SchedEvent → Bool
  | .syscall .. | .sysExit .. | .sleep | .exit _ => true
  | _ => false

def step (kernelPml4 shell : Nat) (r : KeyRun) : KeyEvent → KeyRun → Prop
  | .key scancode, r' => r' = { r with kb := (r.kb.handler r.sched scancode).1, sched := (r.kb.handler r.sched scancode).2 }
  | .shell rsp, r' => r.sched.currentTid = shell ∧ r.shellStep kernelPml4 rsp r'
  | .other e, r' => (ownCall e = true → r.sched.currentTid ≠ shell) ∧
    (∃ b b', SchedRun.step kernelPml4 ⟨r.sched, b⟩ e ⟨r'.sched, b'⟩) ∧ r'.kb = r.kb ∧ r'.pc = r.pc

end KeyRun

/-- All runs after the shell's task was made in slot `shell` and announced to the keyboard. -/
def keyRuns (kernelPml4 shell : Nat) : Lts.System KeyRun KeyEvent where
  init r := ∃ (s : Sched) (stack freed : Nat), s.taskCreateKernel kernelPml4 stack = ((shell : Int), freed, r.sched) ∧
    r.kb = .init shell ∧ r.pc = .sleep
  step := KeyRun.step kernelPml4 shell

/-! ### No key waits while the shell sleeps -/

/-- The interrupt brings no character while the shell is between finding the ring empty and `WAITING`. -/
def KeyRun.Heard (r : KeyRun) : KeyEvent → Prop
  | .key scancode => (r.kb.decode scancode).1 = none ∨ r.pc ≠ .sleep
  | _ => True

/-- The ring is empty when the shell sleeps or is about to. -/
structure KeyInv (shell : Nat) (r : KeyRun) : Prop where
  ring : r.kb.WellFormed
  announced : r.kb.shellTaskId = shell
  bound : shell < maxTasks
  waiting : (r.sched.tasks shell).state = .waiting → r.kb.Empty
  sleep : r.pc = .sleep → r.kb.Empty

namespace KeyInv
variable {kernelPml4 shell : Nat} {r r' : KeyRun}

theorem init (h : (keyRuns kernelPml4 shell).init r) : KeyInv shell r := by
  obtain ⟨s, stack, freed, hcreate, hkb, hpc⟩ := h
  rw [show s.taskCreateKernel kernelPml4 stack = s.taskCreate stack 0 kernelPml4 false .kernel from rfl] at hcreate
  refine ⟨hkb ▸ Keyboard.wellFormed_init shell, by rw [hkb]; rfl, ?_, fun _ => hkb ▸ rfl, fun _ => hkb ▸ rfl⟩
  rcases s.taskCreate_cases stack 0 kernelPml4 false .kernel with ⟨-, he⟩ | ⟨i, hi, -, -, ⟨-, he⟩ | ⟨-, he⟩⟩ <;>
    rw [he] at hcreate <;> have htid := congrArg Prod.fst hcreate <;> dsimp only at htid <;> omega

theorem key (h : KeyInv shell r) {scancode : Nat} (hok : (r.kb.decode scancode).1 = none ∨ r.pc ≠ .sleep)
    (hs : (keyRuns kernelPml4 shell).step r (.key scancode) r') : KeyInv shell r' := by
  obtain rfl := hs
  obtain ⟨-, hhead, htail, hid, hchar⟩ := r.kb.decode_spec scancode
  have hring := h.ring.decode scancode
  have hempty : (r.kb.decode scancode).2.Empty ↔ r.kb.Empty := by
    unfold Keyboard.Empty
    rw [hhead, htail]
  unfold Keyboard.handler
  generalize r.kb.decode scancode = decoded at *
  obtain ⟨c, kb⟩ := decoded
  cases c with
  | none =>
    exact ⟨hring, hid.trans h.announced, h.bound, fun hw => hempty.mpr (h.waiting hw),
      fun hp => hempty.mpr (h.sleep hp)⟩
  | some c =>
    have hpc : r.pc ≠ .sleep := hok.resolve_left (by simp)
    refine ⟨hring.push r.sched (hchar c rfl), ?_, h.bound, ?_, fun hp => absurd hp hpc⟩
    · unfold Keyboard.push
      dsimp only
      split <;> exact hid.trans h.announced
    · unfold Keyboard.push
      dsimp only
      split
      · exact fun hw => hempty.mpr (h.waiting hw)
      · -- the ring took the character, so the shell is not left `WAITING`
        intro hw
        have hid : kb.shellTaskId = shell := hid.trans h.announced
        have hlt := h.bound
        rw [if_pos (by omega), hid] at hw
        exact absurd hw (Sched.taskWake_not_waiting hlt)

theorem shellStep (h : KeyInv shell r) {rsp : Nat} (hs : (keyRuns kernelPml4 shell).step r (.shell rsp) r') :
    KeyInv shell r' := by
  obtain ⟨-, hs⟩ := hs
  unfold KeyRun.shellStep at hs
  split at hs
  · rename_i hpc
    obtain ⟨-, hkb, hpc'⟩ := hs
    exact ⟨hkb ▸ h.ring, hkb ▸ h.announced, h.bound, fun _ => hkb ▸ h.sleep hpc, fun hp => by rw [hpc'] at hp; cases hp⟩
  · obtain ⟨⟨next, htick⟩, hkb, hpc'⟩ := hs
    exact ⟨hkb ▸ h.ring, hkb ▸ h.announced, h.bound,
      fun hw => hkb ▸ h.waiting (Sched.noNewWaiter_scheduleOnTick htick _ hw), fun hp => by rw [hpc'] at hp; cases hp⟩
  · obtain ⟨hsched, hkb, hpc'⟩ := hs
    refine ⟨hkb ▸ h.ring.getchar, ?_, h.bound, fun hw => ?_, fun hp => ?_⟩
    · rw [hkb]
      unfold Keyboard.getchar
      split <;> exact h.announced
    · rw [hsched] at hw
      have he : r.kb.head = r.kb.tail := h.waiting hw
      rw [hkb]
      unfold Keyboard.getchar
      rw [if_pos he]
      exact he
    · rw [hpc'] at hp
      rw [hkb]
      refine Keyboard.empty_of_getchar h.ring ?_
      by_contra hne
      rw [if_neg hne] at hp
      cases hp
  · obtain ⟨hsched, hkb, hpc'⟩ := hs
    exact ⟨hkb ▸ h.ring, hkb ▸ h.announced, h.bound, fun hw => hkb ▸ h.waiting (hsched ▸ hw),
      fun hp => by rw [hpc'] at hp; cases hp⟩

theorem other (h : KeyInv shell r) {e : Sched.SchedEvent} (hs : (keyRuns kernelPml4 shell).step r (.other e) r') :
    KeyInv shell r' := by
  obtain ⟨hown, ⟨b, b', hstep⟩, hkb, hpc⟩ := hs
  refine ⟨hkb ▸ h.ring, hkb ▸ h.announced, h.bound, fun hw => hkb ▸ h.waiting ?_, fun hp => hkb ▸ h.sleep (hpc ▸ hp)⟩
  by_cases he : e = .sleep
  · -- the task that begins to sleep is not the shell
    subst he
    have hne := hown rfl
    have hsleep : r.sched.taskSleep = .ok r'.sched := hstep.1
    obtain ⟨hcur, heq⟩ := Sched.taskSleep_eq_ok hsleep
    rw [heq] at hw
    rwa [Sched.modify_tasks_of_ne (by unfold Sched.current; omega)] at hw
  · exact Sched.noNewWaiter_step hstep he shell hw

theorem step {e : KeyEvent} (h : KeyInv shell r) (hs : ((keyRuns kernelPml4 shell).guard KeyRun.Heard).step r e r') :
    KeyInv shell r' := by
  obtain ⟨hok, hs⟩ := hs
  cases e with
  | key scancode => exact h.key hok hs
  | shell rsp => exact h.shellStep hs
  | other e => exact h.other hs

end KeyInv

/-- In every run in which each character arrives while the shell is not about to sleep, the ring is empty whenever the
    shell is `WAITING`, be it that another task has been scheduled or not yet. -/
theorem no_key_waits_while_shell_sleeps {kernelPml4 shell : Nat} {r : KeyRun}
    (h : ((keyRuns kernelPml4 shell).guard KeyRun.Heard).Reachable r) (hw : (r.sched.tasks shell).state = .waiting) :
    r.kb.head = r.kb.tail := by
  have hinv : KeyInv shell r := h.invariant KeyInv.init KeyInv.step
  exact hinv.waiting hw

section Sample

/-- The shell in slot 0 and the idle task in slot 1, as `kernel_main` makes them. -/
def sampleTasks : Sched :=
  (((taskInit 0x220).taskCreateKernel 0x220 0x10000020).2.2.taskCreateKernel 0x220 0x10010020).2.2

/-- The shell has been started. -/
def sampleStarted : Sched := sampleTasks.switchedTo 0 0x220

/-- The shell is `WAITING` and still the current task. -/
def sampleMarked : Sched := sampleStarted.modify 0 fun t => { t with state := .waiting }

/-- The idle task runs. -/
def sampleAsleep : Sched := (sampleMarked.suspend 0).switchedTo 1 0x220

theorem run_sampleStarted (ok : KeyRun → KeyEvent → Prop) (hok : ∀ r e, ok r (.other e)) :
    ((keyRuns 0x220 0).guard ok).Run [.other .schedule, .other (.createKernel 0x10010020)]
      ⟨sampleStarted, .init 0, .sleep⟩ := by
  have h₀ : ((keyRuns 0x220 0).guard ok).init ⟨((taskInit 0x220).taskCreateKernel 0x220 0x10000020).2.2,
      .init 0, .sleep⟩ :=
    ⟨taskInit 0x220, 0x10000020, 0, rfl, rfl, rfl⟩
  have h₁ : ((keyRuns 0x220 0).guard ok).Run [.other (.createKernel 0x10010020)] ⟨sampleTasks, .init 0, .sleep⟩ :=
    (Lts.System.Run.init h₀).snoc ⟨hok _ _, nofun, ⟨false, false, rfl⟩, rfl, rfl⟩
  exact h₁.snoc ⟨hok _ _, nofun, ⟨false, true, ⟨_, rfl, rfl⟩⟩, rfl, rfl⟩

theorem sample_sleep (kb : Keyboard) :
    (keyRuns 0x220 0).step ⟨sampleStarted, kb, .sleep⟩ (.shell 0) ⟨sampleMarked, kb, .yield⟩ ∧
    (keyRuns 0x220 0).step ⟨sampleMarked, kb, .yield⟩ (.shell 0) ⟨sampleAsleep, kb, .read⟩ :=
  ⟨⟨rfl, rfl, rfl, rfl⟩, ⟨rfl, ⟨_, rfl⟩, rfl, rfl⟩⟩

/-- The ring after the key `a` was pressed. -/
def sampleKey : Keyboard := { Keyboard.init 0 with buf := Function.update (Keyboard.init 0).buf 0 'a', head := 1 }

/-- The idle task runs and the shell is `RUNNABLE` again, `n` ticks into the slice. -/
def sampleWoken (n : Nat) : Sched :=
  { sampleAsleep.modify 0 fun t => { t with state := .runnable } with sliceTicks := n }

/-- The shell is back. -/
def sampleBack : Sched := ((sampleWoken 0).suspend 0).switchedTo 0 0x220

theorem sample_read :
    (keyRuns 0x220 0).step ⟨sampleBack, sampleKey, .read⟩ (.shell 0) ⟨sampleBack, { sampleKey with tail := 1 },
      .handle 'a'⟩ ∧
    (∀ kb c, (keyRuns 0x220 0).step ⟨sampleBack, kb, .handle c⟩ (.shell 0) ⟨sampleBack, kb, .read⟩) ∧
    (keyRuns 0x220 0).step ⟨sampleBack, { sampleKey with tail := 1 }, .read⟩ (.shell 0)
      ⟨sampleBack, { sampleKey with tail := 1 }, .sleep⟩ ∧
    ∀ kb, (keyRuns 0x220 0).step ⟨sampleBack, kb, .sleep⟩ (.shell 0)
      ⟨sampleBack.modify 0 fun t => { t with state := .waiting }, kb, .yield⟩ :=
  ⟨⟨rfl, rfl, rfl, rfl⟩, fun _ _ => ⟨rfl, rfl, rfl, rfl⟩, ⟨rfl, rfl, rfl, rfl⟩, fun _ => ⟨rfl, rfl, rfl, rfl⟩⟩

/-- A key wakes the shell, which takes it from the ring and sleeps again. -/
theorem no_key_waits_while_shell_sleeps_sample : ∃ r, ((keyRuns 0x220 0).guard KeyRun.Heard).Reachable r ∧
    (r.sched.tasks 0).state = .waiting ∧ r.kb.head = 1 ∧ r.kb.tail = 1 := by
  have h₁ := run_sampleStarted KeyRun.Heard fun _ _ => True.intro
  have hheard : ∀ r rsp, KeyRun.Heard r (.shell rsp) := fun _ _ => True.intro
  have h₂ := (h₁.snoc ⟨hheard _ 0, (sample_sleep _).1⟩).snoc ⟨hheard _ 0, (sample_sleep _).2⟩
  have hkey : ((keyRuns 0x220 0).guard KeyRun.Heard).step ⟨sampleAsleep, .init 0, .read⟩ (.key 0x1E)
      ⟨sampleWoken 0, sampleKey, .read⟩ := ⟨Or.inr nofun, rfl⟩
  have htick : ∀ s s' next, s.scheduleOnTick 0x220 0 = .ok (next, s') →
      ((keyRuns 0x220 0).guard KeyRun.Heard).step ⟨s, sampleKey, .read⟩ (.other (.tick 0)) ⟨s', sampleKey, .read⟩ :=
    fun s s' next h => ⟨True.intro, nofun, ⟨true, decide (0 ≤ s'.currentTid), next, h, rfl⟩, rfl, rfl⟩
  have h₃ := ((((((h₂.snoc hkey).snoc (htick _ (sampleWoken 1) 0 rfl)).snoc (htick _ (sampleWoken 2) 0 rfl)).snoc
    (htick _ (sampleWoken 3) 0 rfl)).snoc (htick _ (sampleWoken 4) 0 rfl))).snoc (htick _ sampleBack _ rfl)
  obtain ⟨hread, hhandle, hempty, hsleep⟩ := sample_read
  have h₄ := (((h₃.snoc ⟨hheard _ 0, hread⟩).snoc ⟨hheard _ 0, hhandle _ _⟩).snoc ⟨hheard _ 0, hempty⟩).snoc
    ⟨hheard _ 0, hsleep _⟩
  exact ⟨_, ⟨_, h₄⟩, rfl, rfl, (no_key_waits_while_shell_sleeps ⟨_, h₄⟩ rfl).symm⟩

/-- A key pressed right before the shell sleeps stays in the ring while the idle task runs. -/
theorem key_before_sleep_waits : ∃ r, (keyRuns 0x220 0).Reachable r ∧
    (r.sched.tasks 0).state = .waiting ∧ r.sched.currentTid = 1 ∧ r.kb.head ≠ r.kb.tail := by
  obtain ⟨r₀, h₀, hp⟩ := run_sampleStarted (fun _ _ => True) fun _ _ => True.intro
  have hkey : (keyRuns 0x220 0).step ⟨sampleStarted, .init 0, .sleep⟩ (.key 0x1E) ⟨sampleStarted, sampleKey,
    .sleep⟩ := rfl
  have hrun := ((hp.of_guard.snoc hkey).snoc (sample_sleep _).1).snoc (sample_sleep _).2
  exact ⟨_, ⟨_, r₀, h₀, hrun⟩, rfl, rfl, Nat.one_ne_zero⟩

end Sample
end SamOS
