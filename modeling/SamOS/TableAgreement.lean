import SamOS.Process
import Mathlib.Data.Finset.Card
import Mathlib.Data.Finset.Range

/-! What it means for the process table and the task table to agree, and the changes to the two tables that keep them
    so: tasks are switched, a task ends and its entry is marked, a dead entry is cleared, and a new task gets a new
    entry. -/

namespace SamOS
open Function

/-- Slot `t` holds a user task that has not ended. -/
def Sched.LiveUser (s : Sched) (t : Nat) : Prop := (s.tasks t).Live ∧ (s.tasks t).isUser = true

instance (s : Sched) (t : Nat) : Decidable (s.LiveUser t) := inferInstanceAs (Decidable (_ ∧ _))

/-- The entry stands for the process that runs as task `t`. -/
structure Process.RunsAs (p : Process) (s : Sched) (t : Nat) : Prop where
  tid : p.mainTid = t
  live : s.LiveUser t
  pid : (s.tasks t).pid = p.pid
  space : ∃ a, p.addressSpace = some a ∧ (s.tasks t).addressSpace = .page a

/-- The entry is used and not exited. -/
def Process.Active (p : Process) : Prop := p.used = true ∧ p.exited = false

/-! ### The scheduler's part -/

namespace Sched

/-- The tasks that live, and what they are, stay the same. -/
structure Keeps (s s' : Sched) : Prop where
  live : ∀ t, (s'.tasks t).Live ↔ (s.tasks t).Live
  isUser : ∀ t, (s'.tasks t).isUser = (s.tasks t).isUser
  pid : ∀ t, (s'.tasks t).pid = (s.tasks t).pid
  addressSpace : ∀ t, (s'.tasks t).addressSpace = (s.tasks t).addressSpace
  cr3 : ∀ t, (s'.tasks t).cr3 = (s.tasks t).cr3

/-- The shell lives, the idle task is always there to be run, and all other tasks are user tasks. -/
structure Ready (s : Sched) : Prop where
  bound : s.currentTid < maxTasks
  shell : (s.tasks 0).Live ∧ (s.tasks 0).isUser = false ∧ (s.tasks 0).pid = 0 ∧ (s.tasks 0).addressSpace = .kernel
  idle : ((s.tasks 1).state = .runnable ∨ (s.tasks 1).state = .running) ∧ (s.tasks 1).isUser = false ∧
    (s.tasks 1).pid = 0 ∧
    (s.tasks 1).addressSpace = .kernel
  users : ∀ t, t ≠ 0 → t ≠ 1 → (s.tasks t).Live → (s.tasks t).isUser = true

/-- The current task, if there is one, has not ended. -/
def CurrentLive (s : Sched) : Prop := 0 ≤ s.currentTid → (s.tasks s.current).Live

/-- Task `t` has ended with the exit code. -/
def ended (s : Sched) (t : Nat) (code : Int) : Sched :=
  s.modify t fun t => { t with exitCode := code, state := .zombie }

namespace Keeps
variable {s s' s'' : Sched} {i : Nat} {f : Task → Task}

theorem refl (s : Sched) : Keeps s s := ⟨fun _ => Iff.rfl, fun _ => rfl, fun _ => rfl, fun _ => rfl, fun _ => rfl⟩

theorem trans (h : Keeps s s') (h' : Keeps s' s'') : Keeps s s'' where
  live t := (h'.live t).trans (h.live t)
  isUser t := (h'.isUser t).trans (h.isUser t)
  pid t := (h'.pid t).trans (h.pid t)
  addressSpace t := (h'.addressSpace t).trans (h.addressSpace t)
  cr3 t := (h'.cr3 t).trans (h.cr3 t)

theorem of_tasks (h : s'.tasks = s.tasks) : Keeps s s' := by
  refine ⟨fun t => ?_, fun t => ?_, fun t => ?_, fun t => ?_, fun t => ?_⟩ <;> rw [h]

theorem modify (hl : (f (s.tasks i)).Live ↔ (s.tasks i).Live) (hu : (f (s.tasks i)).isUser = (s.tasks i).isUser)
    (hp : (f (s.tasks i)).pid = (s.tasks i).pid) (ha : (f (s.tasks i)).addressSpace = (s.tasks i).addressSpace)
    (hc : (f (s.tasks i)).cr3 = (s.tasks i).cr3) : Keeps s (s.modify i f) := by
  refine ⟨fun t => ?_, fun t => ?_, fun t => ?_, fun t => ?_, fun t => ?_⟩ <;> rw [modify_tasks] <;> split <;>
    first | rfl | (rename_i h; rw [h]; assumption)

theorem liveUser (h : Keeps s s') (t : Nat) : s'.LiveUser t ↔ s.LiveUser t := by
  unfold LiveUser
  rw [h.live, h.isUser]

theorem runsAs (h : Keeps s s') {p : Process} {t : Nat} (hp : p.RunsAs s t) : p.RunsAs s' t :=
  ⟨hp.tid, (h.liveUser t).mpr hp.live, by rw [h.pid, hp.pid], by rw [h.addressSpace]; exact hp.space⟩

theorem suspend (s : Sched) (rsp : Nat) : Keeps s (s.suspend rsp) := by
  unfold Sched.suspend
  split
  · refine modify ?_ rfl rfl rfl rfl
    simp only [Task.Live]
    split <;> simp_all
  · exact refl s

theorem taskWake (s : Sched) (tid : Int) : Keeps s (s.taskWake tid) := by
  rcases s.taskWake_cases tid with he | ⟨-, hw, he⟩ <;> rw [he]
  · exact refl s
  · exact modify (by simp [Task.Live, hw]) rfl rfl rfl rfl

end Keeps

namespace Ready
variable {s s' : Sched}

theorem keeps (h : s.Ready) (hk : Keeps s s') (hb : s'.currentTid < maxTasks)
    (hidle : (s'.tasks 1).state = .runnable ∨ (s'.tasks 1).state = .running) : s'.Ready where
  bound := hb
  shell := by rw [hk.live, hk.isUser, hk.pid, hk.addressSpace]; exact h.shell
  idle := by rw [hk.isUser, hk.pid, hk.addressSpace]; exact ⟨hidle, h.idle.2⟩
  users t h0 h1 hl := by rw [hk.isUser]; exact h.users t h0 h1 ((hk.live t).mp hl)

theorem suspend (h : s.Ready) (rsp : Nat) : (s.suspend rsp).Ready := by
  refine h.keeps (.suspend s rsp) (by rw [suspend_currentTid]; exact h.bound) ?_
  unfold Sched.suspend
  split
  · rw [modify_tasks]
    split
    · rename_i h1
      simp only
      split
      · exact Or.inl rfl
      · rw [← h1]; exact h.idle.1
    · exact h.idle.1
  · exact h.idle.1

/-- While the idle task is there, `pick_next_runnable` finds a task. -/
theorem pick_ne_none (h : s.Ready) : s.pickNextRunnable ≠ none := fun hn => by
  have := pickNextRunnable_eq_none hn (show 1 < maxTasks by decide)
  rcases h.idle.1 with hi | hi <;> simp [hi] at this

/-- The idle task is there, so a context switch picks a task that is not waiting. -/
theorem contextSwitchFrom (h : s.Ready) {kernelPml4 rsp next : Nat}
    (hs : s.contextSwitchFrom kernelPml4 rsp = .ok (next, s')) :
    Keeps s s' ∧ s'.Ready ∧ s'.CurrentLive ∧
    (s'.cr3 = s.cr3 ∧ s'.currentTid = s.currentTid ∨
      0 ≤ s'.currentTid ∧ switchAddressSpace (s'.tasks s'.current) kernelPml4 = .ok s'.cr3) := by
  have hsus := h.suspend rsp
  have hkeep := Keeps.suspend s rsp
  have hpick : ∀ {i}, (s.suspend rsp).pickNextRunnable = some i →
      i < maxTasks ∧ ((s.suspend rsp).tasks i).Live := fun hp => by
    obtain ⟨hlt, hst⟩ := pickNextRunnable_eq_some hp
    exact ⟨hlt, hst.elim Or.inl fun hr => Or.inr (Or.inl hr)⟩
  have hsome := hsus.pick_ne_none
  rcases contextSwitchFrom_cases hs with ⟨hn, -⟩ | ⟨hp, hc, -, rfl⟩ | ⟨i, cr3, hp, hi, hcr, -, rfl⟩
  · exact absurd hn hsome
  · obtain ⟨hlt, hlive⟩ := hpick (hp.resolve_left hsome)
    have hk : Keeps (s.suspend rsp) ((s.suspend rsp).setRunning s.current) :=
      .modify (by simp only [hlive, iff_true]; exact Or.inr (Or.inl rfl)) rfl rfl rfl rfl
    refine ⟨hkeep.trans hk, hsus.keeps hk (by simpa [setRunning] using h.bound) ?_, fun _ => ?_, Or.inl ⟨?_, ?_⟩⟩
    · rw [setRunning, modify_tasks]
      split
      · exact Or.inr rfl
      · exact hsus.idle.1
    · exact Or.inr (Or.inl (by simp [setRunning, Sched.current]))
    · simp only [setRunning, modify_cr3, Sched.suspend]
      split <;> rfl
    · simp [setRunning]
  · obtain ⟨hlt, hlive⟩ := hpick hp
    have hk : Keeps (s.suspend rsp) ((s.suspend rsp).switchedTo i cr3) :=
      (Keeps.modify (f := fun t => { t with state := .running, timeslice := t.timeslice + 1 }) (i := i)
        (by simp only [hlive, iff_true]; exact Or.inr (Or.inl rfl)) rfl rfl rfl rfl).trans (.of_tasks rfl)
    refine ⟨hkeep.trans hk, hsus.keeps hk (by simpa using hlt) ?_, fun _ => ?_, Or.inr ⟨by simp, ?_⟩⟩
    · by_cases h1 : (1 : Nat) = i
      · rw [← h1, switchedTo_tasks_same]
        exact Or.inr rfl
      · rw [switchedTo_tasks_of_ne h1]
        exact hsus.idle.1
    · exact Or.inr (Or.inl (by simp))
    · rw [switchedTo_current, switchedTo_tasks_same, suspend_tasks_of_ne hi]
      exact hcr

theorem taskWake (h : s.Ready) (tid : Int) : (s.taskWake tid).Ready := by
  refine h.keeps (.taskWake s tid) (s.taskWake_currentTid tid ▸ h.bound) ?_
  rcases s.taskWake_cases tid with he | ⟨-, -, he⟩ <;> rw [he]
  · exact h.idle.1
  · rw [modify_tasks]
    split
    · exact Or.inl rfl
    · exact h.idle.1

theorem modify (h : s.Ready) {i : Nat} {f : Task → Task} (h0 : i ≠ 0) (h1 : i ≠ 1)
    (hu : (f (s.tasks i)).Live → (f (s.tasks i)).isUser = true) : (s.modify i f).Ready where
  bound := h.bound
  shell := by rw [modify_tasks_of_ne (Ne.symm h0)]; exact h.shell
  idle := by rw [modify_tasks_of_ne (Ne.symm h1)]; exact h.idle
  users t ht0 ht1 hl := by
    by_cases hti : t = i
    · subst hti
      rw [modify_tasks_same] at hl ⊢
      exact hu hl
    · rw [modify_tasks_of_ne hti] at hl ⊢
      exact h.users t ht0 ht1 hl

variable {t : Nat}

theorem ended (h : s.Ready) (code : Int) (h0 : t ≠ 0) (h1 : t ≠ 1) : (s.ended t code).Ready :=
  h.modify h0 h1 fun hl => by simp [Task.Live] at hl

theorem sleep (h : s.Ready) (hc : s.currentTid = 0) (hr : (s.tasks 0).state = .running) (hs : s.taskSleep = .ok s') :
    Keeps s s' ∧ s'.Ready ∧ s'.CurrentLive := by
  have hcur : s.current = 0 := by simp [current, hc]
  unfold taskSleep at hs
  rw [if_neg (by omega), hcur, if_neg (by simp [h.shell.2.1])] at hs
  cases hs
  have hk : Keeps s (s.modify 0 fun t => { t with state := .waiting }) :=
    .modify (by simp [Task.Live, hr]) rfl rfl rfl rfl
  refine ⟨hk, h.keeps hk h.bound ?_, fun _ => (hk.live _).mpr ?_⟩
  · rw [modify_tasks_of_ne (by decide)]
    exact h.idle.1
  · rw [modify_current, hcur]
    exact h.shell.1

theorem ne_of_user (h : s.Ready) (hu : (s.tasks t).isUser = true) : t ≠ 0 ∧ t ≠ 1 := by
  constructor <;> rintro rfl
  · simp [h.shell.2.1] at hu
  · simp [h.idle.2.1] at hu

theorem ne_of_dead (h : s.Ready) (hd : ¬(s.tasks t).Live) : t ≠ 0 ∧ t ≠ 1 := by
  constructor <;> rintro rfl
  · exact hd h.shell.1
  · exact hd (h.idle.1.elim Or.inl fun hr => Or.inr (Or.inl hr))

theorem ne_of_pid (h : s.Ready) (hp : 0 < (s.tasks t).pid) : t ≠ 0 ∧ t ≠ 1 := by
  constructor <;> rintro rfl
  · simp [h.shell.2.2.1] at hp
  · simp [h.idle.2.2.1] at hp

end Ready
end Sched

/-! ### The agreement -/

/-- The two tables agree, where `next` is the next pid. -/
structure Agree (s : Sched) (procs : Nat → Process) (next : Int) : Prop where
  distinct : ∀ i < maxProcesses, ∀ j < maxProcesses, (procs i).used = true → (procs j).used = true →
    (procs i).pid = (procs j).pid → i = j
  unused : ∀ i < maxProcesses, (procs i).used = false → (procs i).pid = 0
  range : ∀ i < maxProcesses, (procs i).used = true → 0 < (procs i).pid ∧ (procs i).pid < next
  reap : ∀ i < maxProcesses, (procs i).used = true → (procs i).reapPending = true → (procs i).exited = true
  active : ∀ i < maxProcesses, (procs i).Active → ∃ t < maxTasks, (procs i).RunsAs s t
  entry : ∀ t < maxTasks, s.LiveUser t → ∃ i < maxProcesses, (procs i).Active ∧ (procs i).mainTid = t

namespace Agree
variable {s s' : Sched} {procs : Nat → Process} {next : Int} {i t : Nat}

theorem keeps (h : Agree s procs next) (hk : s.Keeps s') : Agree s' procs next where
  distinct := h.distinct
  unused := h.unused
  range := h.range
  reap := h.reap
  active i hi ha := by
    obtain ⟨t, ht, hr⟩ := h.active i hi ha
    exact ⟨t, ht, hk.runsAs hr⟩
  entry t ht hl := h.entry t ht ((hk.liveUser t).mp hl)

theorem mono (h : Agree s procs next) {next' : Int} (hn : next ≤ next') : Agree s procs next' where
  distinct := h.distinct
  unused := h.unused
  range i hi hu := ⟨(h.range i hi hu).1, Int.lt_of_lt_of_le (h.range i hi hu).2 hn⟩
  reap := h.reap
  active := h.active
  entry := h.entry

theorem entry_of_live (h : Agree s procs next) (ht : t < maxTasks) (hl : s.LiveUser t) :
    ∃ i < maxProcesses, (procs i).Active ∧ (procs i).RunsAs s t := by
  obtain ⟨i, hi, ha, htid⟩ := h.entry t ht hl
  obtain ⟨u, hu, hr⟩ := h.active i hi ha
  have htu : u = t := by have := hr.tid; omega
  exact ⟨i, hi, ha, htu ▸ hr⟩

theorem tid_inj (h : Agree s procs next) {j : Nat} (hi : i < maxProcesses) (hj : j < maxProcesses)
    (hai : (procs i).Active) (haj : (procs j).Active) (htid : (procs i).mainTid = (procs j).mainTid) : i = j := by
  obtain ⟨t, -, ht⟩ := h.active i hi hai
  obtain ⟨u, -, hu⟩ := h.active j hj haj
  have htu : t = u := by have := ht.tid; have := hu.tid; omega
  subst htu
  exact h.distinct i hi j hj hai.1 haj.1 (by rw [← ht.pid, hu.pid])

variable {p : Process}

/-- The writes to an entry that stands for no task: it is given up, or keeps its pid. -/
theorem update_dead (h : Agree s procs next) (hd : ¬(procs i).Active)
    (hp : (p.used = false ∧ p.pid = 0) ∨
      (p.used = true ∧ p.exited = true ∧ (procs i).used = true ∧ p.pid = (procs i).pid)) :
    Agree s (update procs i p) next := by
  have hold : ∀ {j}, (update procs i p j).used = true → (procs j).used = true ∧
      (update procs i p j).pid = (procs j).pid := by
    intro j hj
    by_cases hji : j = i
    · subst hji
      rw [update_self] at hj ⊢
      rcases hp with ⟨hu, -⟩ | ⟨-, -, hu, hpid⟩
      · simp [hu] at hj
      · exact ⟨hu, hpid⟩
    · rw [update_of_ne hji] at hj ⊢
      exact ⟨hj, rfl⟩
  have hact : ∀ {j}, (update procs i p j).Active → j ≠ i := by
    rintro j ⟨hu, he⟩ rfl
    rw [update_self] at hu he
    rcases hp with ⟨hu', -⟩ | ⟨-, he', -⟩
    · simp [hu'] at hu
    · simp [he'] at he
  refine ⟨fun j hj l hl huj hul heq => ?_, fun j hj hu => ?_, fun j hj hu => ?_, fun j hj hu hr => ?_,
    fun j hj ha => ?_, fun t ht hl => ?_⟩
  · obtain ⟨hj', hpj⟩ := hold huj
    obtain ⟨hl', hpl⟩ := hold hul
    exact h.distinct j hj l hl hj' hl' (by rw [← hpj, ← hpl, heq])
  · by_cases hji : j = i
    · subst hji
      rw [update_self] at hu ⊢
      rcases hp with ⟨-, hpid⟩ | ⟨hu', -⟩
      · exact hpid
      · simp [hu'] at hu
    · rw [update_of_ne hji] at hu ⊢
      exact h.unused j hj hu
  · rw [(hold hu).2]
    exact h.range j hj (hold hu).1
  · by_cases hji : j = i
    · subst hji
      rw [update_self] at hu ⊢
      rcases hp with ⟨hu', -⟩ | ⟨-, he, -⟩
      · simp [hu'] at hu
      · exact he
    · rw [update_of_ne hji] at hu hr ⊢
      exact h.reap j hj hu hr
  · have hji := hact ha
    rw [update_of_ne hji] at ha ⊢
    exact h.active j hj ha
  · obtain ⟨j, hj, ha, htid⟩ := h.entry t ht hl
    have hji : j ≠ i := by rintro rfl; exact hd ha
    exact ⟨j, hj, by rw [update_of_ne hji]; exact ⟨ha, htid⟩⟩

theorem runsAs_modify {u : Nat} {f : Task → Task} (hp : p.RunsAs s u) (hne : u ≠ t) :
    p.RunsAs (s.modify t f) u := by
  refine ⟨hp.tid, ?_, ?_, ?_⟩
  · unfold Sched.LiveUser
    rw [Sched.modify_tasks_of_ne hne]
    exact hp.live
  · rw [Sched.modify_tasks_of_ne hne]
    exact hp.pid
  · rw [Sched.modify_tasks_of_ne hne]
    exact hp.space

theorem liveUser_modify {f : Task → Task} {u : Nat} (hne : u ≠ t) : (s.modify t f).LiveUser u ↔ s.LiveUser u := by
  unfold Sched.LiveUser
  rw [Sched.modify_tasks_of_ne hne]

theorem ended (h : Agree s procs next) (code : Int) (hi : i < maxProcesses) (ha : (procs i).Active)
    (hr : (procs i).RunsAs s t) (hu : p.used = true) (he : p.exited = true) (hpid : p.pid = (procs i).pid) :
    Agree (s.ended t code) (update procs i p) next := by
  have hold : ∀ {j}, (update procs i p j).used = true → (procs j).used = true ∧
      (update procs i p j).pid = (procs j).pid := by
    intro j hj
    by_cases hji : j = i
    · subst hji
      rw [update_self]
      exact ⟨ha.1, hpid⟩
    · rw [update_of_ne hji] at hj ⊢
      exact ⟨hj, rfl⟩
  have hdead : ∀ {u}, (s.ended t code).LiveUser u → u ≠ t := by
    rintro u hl rfl
    have := hl.1
    rw [Sched.ended, Sched.modify_tasks_same] at this
    simp [Task.Live] at this
  refine ⟨fun j hj l hl huj hul heq => ?_, fun j hj huj => ?_, fun j hj huj => ?_, fun j hj huj hrj => ?_,
    fun j hj haj => ?_, fun u hu' hl => ?_⟩
  · obtain ⟨hj', hpj⟩ := hold huj
    obtain ⟨hl', hpl⟩ := hold hul
    exact h.distinct j hj l hl hj' hl' (by rw [← hpj, ← hpl, heq])
  · by_cases hji : j = i
    · rw [hji, update_self, hu] at huj
      cases huj
    · rw [update_of_ne hji] at huj ⊢
      exact h.unused j hj huj
  · rw [(hold huj).2]
    exact h.range j hj (hold huj).1
  · by_cases hji : j = i
    · rw [hji, update_self]
      exact he
    · rw [update_of_ne hji] at huj hrj ⊢
      exact h.reap j hj huj hrj
  · have hji : j ≠ i := by
      rintro rfl
      have := haj.2
      rw [update_self, he] at this
      cases this
    rw [update_of_ne hji] at haj ⊢
    obtain ⟨u, hu', hru⟩ := h.active j hj haj
    refine ⟨u, hu', runsAs_modify hru ?_⟩
    rintro rfl
    exact hji (h.tid_inj hj hi haj ha (by rw [hru.tid, hr.tid]))
  · have hne := hdead hl
    obtain ⟨j, hj, haj, htid⟩ := h.entry u hu' ((liveUser_modify hne).mp hl)
    have hji : j ≠ i := by
      rintro rfl
      have := hr.tid
      omega
    exact ⟨j, hj, by rw [update_of_ne hji]; exact ⟨haj, htid⟩⟩

/-- A new task in a slot of no live task, and its entry in a slot that stands for no task. -/
theorem spawn (h : Agree s procs next) {task : Task} (hnext : 0 < next) (hd : ¬(procs i).Active)
    (hi : i < maxProcesses) (ht : t < maxTasks) (hdead : ¬(s.tasks t).Live) (hp : p.Active)
    (hreap : p.reapPending = false) (hpid : p.pid = next) (hr : p.RunsAs (s.modify t fun _ => task) t) :
    Agree (s.modify t fun _ => task) (update procs i p) (next + 1) := by
  have hne : ∀ {j u}, j < maxProcesses → (procs j).RunsAs s u → u ≠ t := by
    rintro j u - hru rfl
    exact hdead hru.live.1
  refine ⟨fun j hj l hl huj hul heq => ?_, fun j hj huj => ?_, fun j hj huj => ?_, fun j hj huj hrj => ?_,
    fun j hj haj => ?_, fun u hu' hl => ?_⟩
  · -- The new pid is larger than those in the table.
    by_cases hji : j = i <;> by_cases hli : l = i
    · rw [hji, hli]
    · rw [hji, update_self, update_of_ne hli, hpid] at heq
      rw [update_of_ne hli] at hul
      have := (h.range l hl hul).2
      omega
    · rw [hli, update_self, update_of_ne hji, hpid] at heq
      rw [update_of_ne hji] at huj
      have := (h.range j hj huj).2
      omega
    · rw [update_of_ne hji] at huj heq
      rw [update_of_ne hli] at hul heq
      exact h.distinct j hj l hl huj hul heq
  · by_cases hji : j = i
    · rw [hji, update_self, hp.1] at huj
      cases huj
    · rw [update_of_ne hji] at huj ⊢
      exact h.unused j hj huj
  · by_cases hji : j = i
    · rw [hji, update_self, hpid]
      omega
    · rw [update_of_ne hji] at huj ⊢
      have := h.range j hj huj
      omega
  · by_cases hji : j = i
    · rw [hji, update_self, hreap] at hrj
      cases hrj
    · rw [update_of_ne hji] at huj hrj ⊢
      exact h.reap j hj huj hrj
  · by_cases hji : j = i
    · rw [hji, update_self]
      exact ⟨t, ht, hr⟩
    · rw [update_of_ne hji] at haj ⊢
      obtain ⟨u, hu', hru⟩ := h.active j hj haj
      exact ⟨u, hu', runsAs_modify hru (hne hj hru)⟩
  · by_cases hut : u = t
    · exact ⟨i, hi, by rw [update_self, hut]; exact ⟨hp, hr.tid⟩⟩
    · obtain ⟨j, hj, haj, htid⟩ := h.entry u hu' ((liveUser_modify hut).mp hl)
      have hji : j ≠ i := by rintro rfl; exact hd haj
      exact ⟨j, hj, by rw [update_of_ne hji]; exact ⟨haj, htid⟩⟩

/-! ### What follows from the agreement -/

/-- An entry is active exactly when its task is a live user task with its pid and its address space. -/
theorem active_iff (h : Agree s procs next) (hi : i < maxProcesses) :
    (procs i).Active ↔ ∃ t < maxTasks, (procs i).RunsAs s t := by
  refine ⟨h.active i hi, ?_⟩
  rintro ⟨t, ht, hr⟩
  obtain ⟨j, hj, haj, hrj⟩ := h.entry_of_live ht hr.live
  have hpid : (procs i).pid = (procs j).pid := by rw [← hr.pid, hrj.pid]
  have hpos := (h.range j hj haj.1).1
  have hu : (procs i).used = true := by
    by_contra hu
    have := h.unused i hi (by simpa using hu)
    omega
  rw [h.distinct i hi j hj hu haj.1 hpid]
  exact haj

/-- There are as many active entries as live user tasks. -/
theorem count_eq (h : Agree s procs next) :
    ((List.range maxProcesses).countP fun i => (procs i).used && !(procs i).exited) =
    (List.range maxTasks).countP fun t => decide (s.LiveUser t) := by
  have hcard : ∀ (n : Nat) (q : Nat → Bool),
      (List.range n).countP q = ((Finset.range n).filter fun i => q i = true).card := by
    intro n q
    rw [List.countP_eq_length_filter, Finset.card_def, Finset.filter_val, Finset.range_val, Multiset.range,
      Multiset.filter_coe, Multiset.coe_card]
    simp
  rw [hcard, hcard]
  refine Finset.card_bij (fun i _ => (procs i).mainTid.toNat) (fun i hi => ?_) (fun i hi j hj heq => ?_) fun t ht => ?_
  all_goals simp only [Finset.mem_filter, Finset.mem_range, Bool.and_eq_true, Bool.not_eq_true', decide_eq_true_eq] at *
  · obtain ⟨t, ht, hr⟩ := h.active i hi.1 hi.2
    rw [hr.tid]
    exact ⟨ht, hr.live⟩
  · obtain ⟨t, -, hr⟩ := h.active i hi.1 hi.2
    obtain ⟨u, -, hr'⟩ := h.active j hj.1 hj.2
    refine h.tid_inj hi.1 hj.1 hi.2 hj.2 ?_
    rw [hr.tid, hr'.tid] at heq ⊢
    simpa using heq
  · obtain ⟨i, hi, ha, htid⟩ := h.entry t ht.1 ht.2
    exact ⟨i, ⟨hi, ha⟩, by rw [htid]; rfl⟩

end Agree

end SamOS
