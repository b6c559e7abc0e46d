import SamOS.Context
import SamOS.TaskStacks

/-! Saved contexts survive every run in which no interrupt from ring 3 finds the frame of another live task on
    `kernel_irq_stack`: a suspended task's frame lies on its own stack or at the top of that stack, and each step
    writes only the stack it runs on or a stack it has just allocated. -/

namespace SamOS.Context
open Function Heap Sched

/-- Ring-0 code with this `rsp` on the stack `[lo, hi)` has room for an interrupt frame. -/
def Room (lo hi : Nat) (rsp : Word) : Prop := lo + 176 ≤ rsp.toNat / 16 * 16 ∧ rsp.toNat ≤ hi

/-- Task `t` is suspended: the frame at its `kernel_rsp` is the one that was saved. -/
structure Parked (ks : KernelStacks) (c : Context) (t : Nat) : Prop where
  intact : InterruptFrame.load c.mem (c.sched.tasks t).kernelRsp = c.saved t
  place : ((c.sched.tasks t).kernelStack ≤ (c.sched.tasks t).kernelRsp ∧
      (c.sched.tasks t).kernelRsp + 176 ≤ (c.sched.tasks t).kernelStackTop) ∨
    (c.sched.tasks t).kernelRsp = ks.irqTop - 176
  ring : (c.saved t).ring3 = (c.sched.tasks t).isUser
  room : (c.sched.tasks t).isUser = false →
    Room (c.sched.tasks t).kernelStack (c.sched.tasks t).kernelStackTop (c.saved t).rsp

/-- Task stacks are distinct live allocations, and every live task but the current one is parked. -/
structure Base (ks : KernelStacks) (c : Context) : Prop where
  heap : c.heap.Inv
  clear : ks.Clear c.heap.runs
  bound : c.sched.currentTid < maxTasks
  stack : ∀ t < maxTasks, (c.sched.tasks t).kernelStack ≠ 0 →
    ((c.sched.tasks t).kernelStack, 16384) ∈ c.heap.live ∧
    (c.sched.tasks t).kernelStackTop = (c.sched.tasks t).kernelStack + 16384
  distinct : ∀ t < maxTasks, ∀ u < maxTasks, t ≠ u → (c.sched.tasks t).kernelStack ≠ 0 →
    (c.sched.tasks t).kernelStack ≠ (c.sched.tasks u).kernelStack
  owns : ∀ t < maxTasks, (c.sched.tasks t).Live ∨ (t : Int) = c.sched.currentTid → (c.sched.tasks t).kernelStack ≠ 0
  parked : ∀ t < maxTasks, (c.sched.tasks t).Live → (t : Int) ≠ c.sched.currentTid → Parked ks c t

/-- Whether the current code is that of a user task. -/
def currentUser (c : Context) : Bool :=
  if c.sched.currentTid < 0 then false else (c.sched.tasks c.sched.current).isUser

/-- The invariant between steps. -/
structure Inv (ks : KernelStacks) (c : Context) : Prop extends Base ks c where
  ring : c.cpu.ring3 = c.currentUser
  room : c.cpu.ring3 = false → Room (c.stackBase ks) (c.stackTop ks) c.cpu.rsp

/-- The invariant inside a handler whose frame is `f`, at `base`. -/
structure Entered (ks : KernelStacks) (c : Context) (base : Nat) (f : InterruptFrame) : Prop extends Base ks c where
  load : InterruptFrame.load c.mem base = f
  irq : f.ring3 = true → base = ks.irqTop - 176
  own : f.ring3 = false → c.stackBase ks ≤ base ∧ base + 176 ≤ c.stackTop ks
  alone : f.ring3 = true → ∀ t < maxTasks, (c.sched.tasks t).Live → (t : Int) ≠ c.sched.currentTid →
    (c.sched.tasks t).kernelRsp ≠ ks.irqTop - 176
  ring : f.ring3 = c.currentUser
  room : f.ring3 = false → Room (c.stackBase ks) (c.stackTop ks) f.rsp

section Stacks
variable {ks : KernelStacks} {c c' : Context} {t u : Nat}

theorem Base.current_lt (h : Base ks c) : c.sched.current < maxTasks := by
  have := h.bound
  unfold current
  unfold maxTasks at *
  omega

theorem Base.stack_clear (h : Base ks c) (ht : t < maxTasks) (hs : (c.sched.tasks t).kernelStack ≠ 0) :
    (c.sched.tasks t).kernelStackTop = (c.sched.tasks t).kernelStack + 16384 ∧
    ((c.sched.tasks t).kernelStackTop ≤ ks.irqTop - 8192 ∨ ks.irqTop ≤ (c.sched.tasks t).kernelStack) ∧
    ((c.sched.tasks t).kernelStackTop ≤ ks.bootBase ∨ ks.bootTop ≤ (c.sched.tasks t).kernelStack) := by
  obtain ⟨hlive, htop⟩ := h.stack t ht hs
  obtain ⟨h32, r, hr, hbase, hstop⟩ := h.heap.sound.inside _ hlive
  obtain ⟨-, hirq, hboot⟩ := h.clear r hr
  simp only at h32 hbase hstop
  omega

theorem Base.stack_apart (h : Base ks c) (ht : t < maxTasks) (hu : u < maxTasks) (htu : t ≠ u)
    (hs : (c.sched.tasks t).kernelStack ≠ 0) (hs' : (c.sched.tasks u).kernelStack ≠ 0) :
    (c.sched.tasks t).kernelStackTop ≤ (c.sched.tasks u).kernelStack ∨
    (c.sched.tasks u).kernelStackTop ≤ (c.sched.tasks t).kernelStack := by
  obtain ⟨hl, htop⟩ := h.stack t ht hs
  obtain ⟨hl', htop'⟩ := h.stack u hu hs'
  have := h.heap.sound.disjoint _ hl _ hl' (h.distinct t ht u hu htu hs)
  simp only at this
  omega

theorem Base.own_stack_apart (h : Base ks c) (ht : t < maxTasks) (hs : (c.sched.tasks t).kernelStack ≠ 0)
    (hne : (t : Int) ≠ c.sched.currentTid) :
    ((c.sched.tasks t).kernelStackTop ≤ c.stackBase ks ∨ c.stackTop ks ≤ (c.sched.tasks t).kernelStack) ∧
    (c.stackTop ks ≤ ks.irqTop - 8192 ∨ ks.irqTop ≤ c.stackBase ks) := by
  unfold stackBase stackTop
  split
  · have := (h.stack_clear ht hs).2.2
    exact ⟨by omega, ks.apart⟩
  · rename_i hc
    have hcur : (c.sched.current : Int) = c.sched.currentTid := by unfold current; omega
    have hown := h.owns _ h.current_lt (Or.inr hcur)
    have hap := h.stack_apart ht h.current_lt (by omega) hs hown
    exact ⟨hap, (h.stack_clear h.current_lt hown).2.1⟩

theorem Base.of_mem (h : Base ks c) {m : Nat → Word}
    (hm : ∀ t < maxTasks, (c.sched.tasks t).Live → (t : Int) ≠ c.sched.currentTid → ∀ a,
      (c.sched.tasks t).kernelRsp ≤ a → a < (c.sched.tasks t).kernelRsp + 176 → m a = c.mem a) :
    Base ks { c with mem := m } where
  heap := h.heap
  clear := h.clear
  bound := h.bound
  stack := h.stack
  distinct := h.distinct
  owns := h.owns
  parked t ht hl hne := by
    have hp := h.parked t ht hl hne
    exact ⟨(InterruptFrame.load_congr fun a ha ha' => hm t ht hl hne a ha ha').trans hp.intact, hp.place,
      hp.ring, hp.room⟩

/-- A parked frame is outside the stack that the current code or its interrupt handler uses. -/
theorem Base.parked_outside (h : Base ks c) (ht : t < maxTasks) (hl : (c.sched.tasks t).Live)
    (hne : (t : Int) ≠ c.sched.currentTid) {a : Nat} (ha : (c.sched.tasks t).kernelRsp ≤ a)
    (ha' : a < (c.sched.tasks t).kernelRsp + 176) :
    (a < c.stackBase ks ∨ c.stackTop ks ≤ a) ∧
    ((c.sched.tasks t).kernelRsp ≠ ks.irqTop - 176 → a < ks.irqTop - 8192 ∨ ks.irqTop ≤ a) := by
  have hs := h.owns t ht (Or.inl hl)
  obtain ⟨hap, hirq⟩ := h.own_stack_apart ht hs hne
  obtain ⟨-, hclear, -⟩ := h.stack_clear ht hs
  have hroom := ks.room
  rcases (h.parked t ht hl hne).place with hp | hp <;> omega

end Stacks

/-! ### Scheduler changes -/

/-- A change of the task table that moves no stack, and neither moves nor revives a task that is not current. -/
structure Quiet (s s' : Sched) : Prop where
  current : s'.currentTid = s.currentTid
  stack : ∀ t, (s'.tasks t).kernelStack = (s.tasks t).kernelStack
  stackTop : ∀ t, (s'.tasks t).kernelStackTop = (s.tasks t).kernelStackTop
  isUser : ∀ t, (s'.tasks t).isUser = (s.tasks t).isUser
  rsp : ∀ t : Nat, (t : Int) ≠ s.currentTid → (s'.tasks t).kernelRsp = (s.tasks t).kernelRsp
  live : ∀ t : Nat, (t : Int) ≠ s.currentTid → (s'.tasks t).Live → (s.tasks t).Live

namespace Quiet
variable {s s' : Sched}

theorem refl (s : Sched) : Quiet s s := ⟨rfl, fun _ => rfl, fun _ => rfl, fun _ => rfl, fun _ _ => rfl, fun _ _ h => h⟩

theorem modify {i : Nat} {f : Task → Task} (hs : (f (s.tasks i)).kernelStack = (s.tasks i).kernelStack)
    (ht : (f (s.tasks i)).kernelStackTop = (s.tasks i).kernelStackTop)
    (hu : (f (s.tasks i)).isUser = (s.tasks i).isUser)
    (ho : (i : Int) = s.currentTid ∨
      ((f (s.tasks i)).kernelRsp = (s.tasks i).kernelRsp ∧ ((f (s.tasks i)).Live → (s.tasks i).Live))) :
    Quiet s (s.modify i f) := by
  refine ⟨rfl, fun t => ?_, fun t => ?_, fun t => ?_, fun t hne => ?_, fun t hne => ?_⟩ <;>
    rw [modify_tasks] <;> split <;> rename_i hti <;> try subst hti
  all_goals first | assumption | rfl | exact (ho.resolve_left hne).1 | exact (ho.resolve_left hne).2 | exact id

theorem trans {s'' : Sched} (h₁ : Quiet s s') (h₂ : Quiet s' s'') : Quiet s s'' where
  current := h₂.current.trans h₁.current
  stack t := (h₂.stack t).trans (h₁.stack t)
  stackTop t := (h₂.stackTop t).trans (h₁.stackTop t)
  isUser t := (h₂.isUser t).trans (h₁.isUser t)
  rsp t hne := (h₂.rsp t (h₁.current ▸ hne)).trans (h₁.rsp t hne)
  live t hne hl := h₁.live t hne (h₂.live t (h₁.current ▸ hne) hl)

theorem suspend (s : Sched) (rsp : Nat) : Quiet s (s.suspend rsp) := by
  unfold Sched.suspend
  split
  · rename_i hc
    exact modify rfl rfl rfl (Or.inl ((current_eq_iff hc).mpr rfl))
  · exact refl s

theorem modify_current {f : Task → Task} (hc : 0 ≤ s.currentTid)
    (hs : (f (s.tasks s.current)).kernelStack = (s.tasks s.current).kernelStack)
    (ht : (f (s.tasks s.current)).kernelStackTop = (s.tasks s.current).kernelStackTop)
    (hu : (f (s.tasks s.current)).isUser = (s.tasks s.current).isUser) : Quiet s (s.modify s.current f) :=
  modify hs ht hu (Or.inl ((current_eq_iff hc).mpr rfl))

theorem sysExit (s : Sched) (code : Int) : Quiet s (s.sysExit code) := by
  unfold Sched.sysExit
  split
  · exact refl s
  · exact modify_current (by omega) rfl rfl rfl

theorem taskSleep (h : s.taskSleep = .ok s') : Quiet s s' := by
  obtain ⟨hc, rfl⟩ := taskSleep_eq_ok h
  exact modify_current hc rfl rfl rfl

theorem taskExit {code : Int} (h : s.taskExit code = .ok s') : Quiet s s' := by
  obtain ⟨hc, rfl⟩ := taskExit_eq_ok h
  exact modify_current hc rfl rfl rfl

theorem taskWake (s : Sched) (tid : Int) : Quiet s (s.taskWake tid) := by
  rcases s.taskWake_cases tid with he | ⟨-, hw, he⟩ <;> rw [he]
  · exact refl s
  · exact modify rfl rfl rfl (Or.inr ⟨rfl, fun _ => Or.inr (Or.inr hw)⟩)

theorem taskKillPid (s : Sched) (pid code : Int) : Quiet s (s.taskKillPid pid code).2 := by
  rcases s.taskKillPid_eq pid code with he | ⟨i, -, -, he⟩ <;> rw [he]
  · exact refl s
  · exact modify rfl rfl rfl (Or.inr ⟨rfl, fun hl => by simp [Task.Live] at hl⟩)

end Quiet

section Scheduler
variable {ks : KernelStacks} {c : Context} {s : Sched} {base : Nat} {f : InterruptFrame}

theorem Base.quiet (h : Base ks c) (hq : Quiet c.sched s) : Base ks { c with sched := s } where
  heap := h.heap
  clear := h.clear
  bound := hq.current ▸ h.bound
  stack t ht := by
    simp only [hq.stack t, hq.stackTop t]
    exact h.stack t ht
  distinct t ht u hu := by
    simp only [hq.stack]
    exact h.distinct t ht u hu
  owns t ht hor := by
    simp only [hq.stack]
    by_cases hc : (t : Int) = c.sched.currentTid
    · exact h.owns t ht (Or.inr hc)
    · exact h.owns t ht (Or.inl (hor.elim (hq.live t hc) fun hc' => absurd (hc'.trans hq.current) hc))
  parked t ht hl hne := by
    have hne' : (t : Int) ≠ c.sched.currentTid := fun he => hne (he.trans hq.current.symm)
    have hp := h.parked t ht (hq.live t hne' hl) hne'
    refine ⟨?_, ?_, ?_, ?_⟩ <;> simp only [hq.rsp t hne', hq.stack, hq.stackTop, hq.isUser]
    · exact hp.intact
    · exact hp.place
    · exact hp.ring
    · exact hp.room

theorem Quiet.current_eq (hq : Quiet c.sched s) : s.current = c.sched.current := by
  unfold Sched.current
  rw [hq.current]

theorem Quiet.stackBase (hq : Quiet c.sched s) : Context.stackBase ks { c with sched := s } = c.stackBase ks := by
  simp [Context.stackBase, hq.current, hq.current_eq, hq.stack]

theorem Quiet.contextStackTop (hq : Quiet c.sched s) : Context.stackTop ks { c with sched := s } = c.stackTop ks := by
  simp [Context.stackTop, hq.current, hq.current_eq, hq.stackTop]

theorem Quiet.currentUser (hq : Quiet c.sched s) : Context.currentUser { c with sched := s } = c.currentUser := by
  simp [Context.currentUser, hq.current, hq.current_eq, hq.isUser]

theorem Inv.quiet (h : Inv ks c) (hq : Quiet c.sched s) : Inv ks { c with sched := s } where
  toBase := h.toBase.quiet hq
  ring := by rw [hq.currentUser]; exact h.ring
  room hr := by rw [hq.stackBase, hq.contextStackTop]; exact h.room hr

theorem Entered.quiet (h : Entered ks c base f) (hq : Quiet c.sched s) : Entered ks { c with sched := s } base f where
  toBase := h.toBase.quiet hq
  load := h.load
  irq := h.irq
  own := by rw [hq.stackBase, hq.contextStackTop]; exact h.own
  alone hr t ht hl hne := by
    have hne' : (t : Int) ≠ c.sched.currentTid := fun he => hne (he.trans hq.current.symm)
    simp only [hq.rsp t hne']
    exact h.alone hr t ht (hq.live t hne' hl) hne'
  ring := by rw [hq.currentUser]; exact h.ring
  room hr := by rw [hq.stackBase, hq.contextStackTop]; exact h.room hr

end Scheduler

/-! ### Interrupts -/

section Interrupt
variable {ks : KernelStacks} {c c' : Context} {base : Nat} {f : InterruptFrame} {vector : Word}

theorem Inv.frameTop (h : Inv ks c) : InterruptFrame.size ≤ c.frameTop ks ∧
    (c.cpu.ring3 = true → c.frameTop ks = ks.irqTop) ∧
    (c.cpu.ring3 = false → c.stackBase ks + 176 ≤ c.frameTop ks ∧ c.frameTop ks ≤ c.stackTop ks) := by
  have hroom := ks.room
  unfold Context.frameTop InterruptFrame.size
  cases hr : c.cpu.ring3 with
  | true =>
    rw [if_pos rfl]
    exact ⟨by omega, fun _ => rfl, by simp⟩
  | false =>
    have hrm := h.room hr
    unfold Room at hrm
    simp only [Bool.false_eq_true, if_false]
    exact ⟨by omega, by simp, fun _ => ⟨hrm.1, by omega⟩⟩

theorem Base.of_handler (h : Base ks c) {m : Nat → Word} (ring3 : Bool)
    (hfree : ring3 = true → ∀ t < maxTasks, (c.sched.tasks t).Live → (t : Int) ≠ c.sched.currentTid →
      (c.sched.tasks t).kernelRsp ≠ ks.irqTop - 176)
    (hirq : ring3 = true → ∀ a, a < ks.irqTop - 8192 ∨ ks.irqTop ≤ a → m a = c.mem a)
    (hown : ring3 = false → ∀ a, a < c.stackBase ks ∨ c.stackTop ks ≤ a → m a = c.mem a) :
    Base ks { c with mem := m } := by
  refine h.of_mem fun t ht hl hne a ha ha' => ?_
  obtain ⟨h1, h2⟩ := h.parked_outside ht hl hne ha ha'
  cases ring3 with
  | true => exact hirq rfl a (h2 (hfree rfl t ht hl hne))
  | false => exact hown rfl a h1

theorem Inv.interrupted (h : Inv ks c) (hfree : c.cpu.ring3 = true → ∀ t < maxTasks, (c.sched.tasks t).Live →
      (t : Int) ≠ c.sched.currentTid → (c.sched.tasks t).kernelRsp ≠ ks.irqTop - 176)
    (hi : Interrupted ks c vector base c') : Entered ks c' base { c.cpu with vector, errorCode := 0 } := by
  obtain ⟨hsize, hirq, hown⟩ := h.frameTop
  have hroom := ks.room
  have he := interruptEntry_eq c.mem vector c.cpu hsize
  have hbase : base = c.frameTop ks - InterruptFrame.size := by rw [hi.base_eq, he]
  have hscr : ∀ a, ¬(c.handlerBase ks ≤ a ∧ a < base) →
      c'.mem a = InterruptFrame.store c.mem base { c.cpu with vector, errorCode := 0 } a := by
    intro a ha
    rw [hi.scratch a ha, he, hbase]
  unfold InterruptFrame.size at hsize hbase
  have hlow : c.handlerBase ks ≤ base := by
    unfold handlerBase
    cases hr : c.cpu.ring3 with
    | true => rw [if_pos rfl, hbase, hirq hr]; omega
    | false => have := hown hr; simp only [Bool.false_eq_true, if_false]; omega
  -- The entry and the handler write only the stack they run on.
  have hmem : ∀ a, ¬(c.handlerBase ks ≤ a ∧ a < c.frameTop ks) → c'.mem a = c.mem a := by
    intro a ha
    rw [hscr a (by omega), InterruptFrame.store_of_outside (by unfold InterruptFrame.size; omega)]
  have hb : Base ks { c with mem := c'.mem } := by
    refine h.toBase.of_handler c.cpu.ring3 hfree (fun hr a ha => hmem a ?_) (fun hr a ha => hmem a ?_)
    · rw [hirq hr]
      simp only [handlerBase, hr, if_true]
      omega
    · have := (hown hr).2
      simp only [handlerBase, hr, Bool.false_eq_true, if_false]
      omega
  have hc' : c' = { c with mem := c'.mem, cpu := c'.cpu } := by
    obtain ⟨s, hp, m, r, sv⟩ := c'
    simp only [Context.mk.injEq, true_and]
    exact ⟨hi.sched, hi.heap, hi.saved⟩
  rw [hc']
  refine ⟨⟨hb.heap, hb.clear, hb.bound, hb.stack, hb.distinct, hb.owns, fun t ht hl hne => ?_⟩, ?_,
    fun hr => by rw [hbase, hirq hr], fun hr => ?_, hfree, h.ring, h.room⟩
  · have hp := hb.parked t ht hl hne
    exact ⟨hp.intact, hp.place, hp.ring, hp.room⟩
  · refine (InterruptFrame.load_congr fun a ha _ => hscr a (by omega)).trans (InterruptFrame.load_store _ _ _)
  · have := hown hr
    show c.stackBase ks ≤ base ∧ base + 176 ≤ c.stackTop ks
    omega

/-- A step that switches tasks resumes the new one from the frame of its last suspension. -/
def Restores (c c' : Context) : Prop :=
  c'.sched.currentTid ≠ c.sched.currentTid →
    InterruptFrame.load c'.mem (c'.sched.tasks c'.sched.current).kernelRsp = c'.saved c'.sched.current ∧
    c'.cpu = (c'.saved c'.sched.current).toRegs

variable {s : Sched} {i : Nat}

theorem Entered.resume_same (h : Entered ks c base f) (hq : Quiet c.sched s) :
    Inv ks (c.resume s base 0) ∧ Restores c (c.resume s base 0) := by
  have hb := h.quiet hq
  refine ⟨⟨⟨hb.heap, hb.clear, hb.bound, hb.stack, hb.distinct, hb.owns, fun t ht hl hne => ?_⟩, ?_, ?_⟩,
    fun hne => absurd hq.current hne⟩
  · have hp := hb.parked t ht hl hne
    have hsaved : (c.resume s base 0).saved t = c.saved t := by
      unfold resume
      simp only
      split
      · rename_i hc
        refine update_of_ne (fun he => hne ?_) _ _
        show (t : Int) = s.currentTid
        rw [hq.current]
        exact (current_eq_iff hc).mpr he
      · rfl
    exact ⟨hp.intact.trans hsaved.symm, hp.place, hsaved ▸ hp.ring, fun hu => hsaved ▸ hp.room hu⟩
  · show (InterruptFrame.load c.mem base).ring3 = _
    rw [h.load]
    exact hb.ring
  · show (InterruptFrame.load c.mem base).ring3 = false → Room _ _ (InterruptFrame.load c.mem base).rsp
    rw [h.load]
    exact hb.room

/-- What a switch from the current task, suspended at `base`, to task `i` leaves in the task table. -/
structure Switched (s : Sched) (base i : Nat) (s' : Sched) : Prop where
  current : s'.currentTid = i
  stack : ∀ t, (s'.tasks t).kernelStack = (s.tasks t).kernelStack
  stackTop : ∀ t, (s'.tasks t).kernelStackTop = (s.tasks t).kernelStackTop
  isUser : ∀ t, (s'.tasks t).isUser = (s.tasks t).isUser
  rsp : ∀ t : Nat, (t : Int) ≠ s.currentTid → (s'.tasks t).kernelRsp = (s.tasks t).kernelRsp
  live : ∀ t : Nat, (t : Int) ≠ s.currentTid → t ≠ i → (s'.tasks t).Live → (s.tasks t).Live
  suspended : 0 ≤ s.currentTid → (s'.tasks s.current).kernelRsp = base

theorem switched {base cr3 : Nat} (hi : (i : Int) ≠ s.currentTid) :
    Switched s base i ((s.suspend base).switchedTo i cr3) := by
  have hq := Quiet.suspend s base
  have hsame : ((s.suspend base).switchedTo i cr3).tasks i =
      { s.tasks i with state := .running, timeslice := (s.tasks i).timeslice + 1 } := by
    rw [switchedTo_tasks_same, suspend_tasks_of_ne hi]
  refine ⟨rfl, fun t => ?_, fun t => ?_, fun t => ?_, fun t hne => ?_, fun t hne hti => ?_, fun hc => ?_⟩
  · by_cases hti : t = i
    · rw [hti, hsame]
    · rw [switchedTo_tasks_of_ne hti, hq.stack]
  · by_cases hti : t = i
    · rw [hti, hsame]
    · rw [switchedTo_tasks_of_ne hti, hq.stackTop]
  · by_cases hti : t = i
    · rw [hti, hsame]
    · rw [switchedTo_tasks_of_ne hti, hq.isUser]
  · by_cases hti : t = i
    · rw [hti, hsame]
    · rw [switchedTo_tasks_of_ne hti, hq.rsp t hne]
  · rw [switchedTo_tasks_of_ne hti]
    exact hq.live t hne
  · have hci : s.current ≠ i := fun he => hi ((current_eq_iff hc).mpr he.symm)
    rw [switchedTo_tasks_of_ne hci, Sched.suspend, if_pos hc, modify_tasks_same]

/-- A switch parks the interrupted task, if there is one, and takes a parked one off. -/
theorem Base.switch (h : Base ks c) {saved : Nat → InterruptFrame} (hlt : i < maxTasks)
    (hlive : (c.sched.tasks i).Live) (hsw : Switched c.sched base i s)
    (hsaved : ∀ t : Nat, (t : Int) ≠ c.sched.currentTid → saved t = c.saved t)
    (hcur : 0 ≤ c.sched.currentTid → Entered ks c base f ∧ saved c.sched.current = f) :
    Base ks { c with sched := s, saved } where
  heap := h.heap
  clear := h.clear
  bound := by
    show s.currentTid < maxTasks
    rw [hsw.current]
    exact_mod_cast hlt
  stack t ht := by
    simp only [hsw.stack, hsw.stackTop]
    exact h.stack t ht
  distinct t ht u hu := by
    simp only [hsw.stack]
    exact h.distinct t ht u hu
  owns t ht hor := by
    simp only [hsw.stack]
    by_cases hc : (t : Int) = c.sched.currentTid
    · exact h.owns t ht (Or.inr hc)
    · by_cases hti : t = i
      · exact h.owns t ht (Or.inl (hti ▸ hlive))
      · refine h.owns t ht (Or.inl (hor.elim (hsw.live t hc hti) fun hc' => absurd ?_ hti))
        exact_mod_cast hc'.trans hsw.current
  parked t ht hl hne := by
    have hti : t ≠ i := fun he => hne (by rw [he]; exact hsw.current.symm)
    by_cases hc : (t : Int) = c.sched.currentTid
    · -- The interrupted task: its frame is the one the handler was entered with.
      have h0 : 0 ≤ c.sched.currentTid := by omega
      obtain rfl := (current_eq_iff h0).mp hc
      obtain ⟨he, hsv⟩ := hcur h0
      have hown := he.own
      have hring := he.ring
      have hroom := he.room
      simp only [Context.stackBase, Context.stackTop, Context.currentUser,
        if_neg (show ¬c.sched.currentTid < 0 by omega)]
        at hown hring hroom
      refine ⟨?_, ?_, ?_, fun hu => ?_⟩ <;>
        simp only [hsv, hsw.suspended h0, hsw.stack, hsw.stackTop, hsw.isUser] at *
      · exact he.load
      · cases hr : f.ring3 with
        | true => exact Or.inr (he.irq hr)
        | false => exact Or.inl (hown hr)
      · exact hring
      · exact hroom (hring.trans hu)
    · have hp := h.parked t ht (hsw.live t hc hti hl) hc
      refine ⟨?_, ?_, ?_, fun hu => ?_⟩ <;>
        simp only [hsaved t hc, hsw.rsp t hc, hsw.stack, hsw.stackTop, hsw.isUser] at *
      · exact hp.intact
      · exact hp.place
      · exact hp.ring
      · exact hp.room hu

theorem Base.takeOff {saved : Nat → InterruptFrame} (hb : Base ks { c with sched := s, saved })
    (hsw : Switched c.sched base i s) (hi : (i : Int) ≠ c.sched.currentTid) (hp : Parked ks c i)
    (hsaved : saved i = c.saved i) (hc' : c' = { c with sched := s, saved, cpu := (c.saved i).toRegs }) :
    Inv ks c' ∧ Restores c c' := by
  have hsi : s.current = i := by simp [current, hsw.current]
  have hnn : ¬s.currentTid < 0 := by rw [hsw.current]; omega
  subst hc'
  refine ⟨⟨⟨hb.heap, hb.clear, hb.bound, hb.stack, hb.distinct, hb.owns, fun t ht hl hne => ?_⟩, ?_, fun hr => ?_⟩,
    fun _ => ⟨?_, ?_⟩⟩
  · have hq := hb.parked t ht hl hne
    exact ⟨hq.intact, hq.place, hq.ring, hq.room⟩
  · simp only [Context.currentUser, if_neg hnn, hsi, hsw.isUser]
    exact hp.ring
  · simp only [Context.stackBase, Context.stackTop, if_neg hnn, hsi, hsw.stack, hsw.stackTop]
    exact hp.room (hp.ring.symm.trans hr)
  · simp only [hsi, hsw.rsp i hi, hsaved]
    exact hp.intact
  · simp only [hsi, hsaved]

theorem Base.picked (h : Base ks c) {rsp : Nat} (hpick : (c.sched.suspend rsp).pickNextRunnable = some i)
    (hi : (i : Int) ≠ c.sched.currentTid) : i < maxTasks ∧ (c.sched.tasks i).Live ∧ Parked ks c i ∧
      (c.sched.tasks i).kernelRsp ≠ 0 := by
  obtain ⟨hlt, hst⟩ := pickNextRunnable_eq_some hpick
  rw [suspend_tasks_of_ne hi] at hst
  have hlive : (c.sched.tasks i).Live := hst.elim Or.inl fun hr => Or.inr (Or.inl hr)
  have hp := h.parked i hlt hlive hi
  refine ⟨hlt, hlive, hp, ?_⟩
  have hroom := ks.room
  have hin := (h.heap.sound.inside _ (h.stack i hlt (h.owns i hlt (Or.inl hlive))).1).1
  rcases hp.place with hpl | hpl <;> simp only at hin <;> omega

/-- A context switch from a handler resumes a parked task, or the interrupted one. -/
theorem Entered.contextSwitchFrom (h : Entered ks c base f) {kernelPml4 next : Nat}
    (hs : c.sched.contextSwitchFrom kernelPml4 base = .ok (next, s)) :
    Inv ks (c.resume s base next) ∧ Restores c (c.resume s base next) := by
  rcases contextSwitchFrom_cases hs with ⟨-, -, rfl, rfl⟩ | ⟨-, hc, rfl, rfl⟩ | ⟨i, cr3, hpick, hi, -, hnext, rfl⟩
  · exact h.resume_same (Quiet.suspend _ _)
  · refine h.resume_same ((Quiet.suspend c.sched base).trans ?_)
    rw [← suspend_current c.sched base]
    exact Quiet.modify_current (by simpa using hc) rfl rfl rfl
  · obtain ⟨hlt, hlive, hp, hnz⟩ := h.picked hpick hi
    have hsw : Switched c.sched base i ((c.sched.suspend base).switchedTo i cr3) := switched hi
    generalize (c.sched.suspend base).switchedTo i cr3 = s at hsw
    have hsaved : ∀ t : Nat, (t : Int) ≠ c.sched.currentTid → (c.resume s base next).saved t = c.saved t := by
      intro t hne
      unfold resume
      simp only
      split
      · rename_i hc
        exact update_of_ne (fun he => hne ((current_eq_iff hc).mpr he)) _ _
      · rfl
    have hcur : 0 ≤ c.sched.currentTid → Entered ks c base f ∧ (c.resume s base next).saved c.sched.current = f := by
      intro hc
      simp only [resume, if_pos hc, update_self]
      exact ⟨h, h.load⟩
    refine (h.switch hlt hlive hsw hsaved hcur).takeOff hsw hi hp (hsaved i hi) ?_
    simp only [resume, interruptReturn, Context.mk.injEq, and_true, true_and]
    rw [if_neg (hnext ▸ hnz), hnext, hp.intact]

theorem Inv.schedule (h : Inv ks c) (hneg : c.sched.currentTid < 0) {kernelPml4 next : Nat}
    (hs : c.sched.schedule kernelPml4 = .ok (next, s))
    (hc' : c' = { c with sched := s, cpu := if next = 0 then c.cpu else interruptReturn c.mem next }) :
    Inv ks c' ∧ Restores c c' := by
  rcases contextSwitchFrom_cases hs with ⟨-, -, rfl, rfl⟩ | ⟨-, hc, -, -⟩ | ⟨i, cr3, hpick, hi, -, hnext, rfl⟩
  · have hsus : c.sched.suspend 0 = c.sched := if_neg (by omega)
    rw [hsus, if_pos rfl] at hc'
    subst hc'
    exact ⟨h, fun hne => absurd rfl hne⟩
  · omega
  · obtain ⟨hlt, hlive, hp, hnz⟩ := h.picked hpick hi
    have hsw : Switched c.sched 0 i ((c.sched.suspend 0).switchedTo i cr3) := switched hi
    refine (h.toBase.switch (f := c.saved i) hlt hlive hsw (fun _ _ => rfl) (fun hc => absurd hc (by omega))).takeOff
      hsw hi hp rfl ?_
    rw [hc', if_neg (hnext ▸ hnz), hnext, interruptReturn, hp.intact]

end Interrupt

/-! ### Creation -/

section Create
variable {ks : KernelStacks} {c c' : Context} {n : NewTask} {slot page : Nat}

/-- The heap side of a creation: the stacks of the other tasks stay allocated, and the new one is none of them. -/
theorem Base.creates_heap (h : Base ks c) {h₁ h₂ : HeapRun} {ptr : Nat} (hslot : slot < maxTasks)
    (hm : (c.sched.tasks slot).kernelStack ≠ 0 → c.heap.MergesInside (.free (c.sched.tasks slot).kernelStack))
    (hfree : if (c.sched.tasks slot).kernelStack = 0 then h₁ = c.heap
      else c.heap.step (.free (c.sched.tasks slot).kernelStack) h₁)
    (hmalloc : h₁.step (.malloc 16384 page) h₂) (hk : h₁.heap.kmalloc 16384 page = .ok (ptr, h₂.heap)) :
    h₂.Inv ∧ (ptr ≠ 0 → (ptr, 16384) ∈ h₂.live) ∧
    ∀ t < maxTasks, t ≠ slot → (c.sched.tasks t).kernelStack ≠ 0 →
      ((c.sched.tasks t).kernelStack, 16384) ∈ h₂.live ∧ (ptr ≠ 0 → (c.sched.tasks t).kernelStack ≠ ptr) := by
  have hst : TaskStacks c.heap c.sched := ⟨h.heap, fun t ht hs => (h.stack t ht hs).1, h.distinct⟩
  obtain ⟨h₂st, hnew⟩ := (hst.free hslot hm hfree).malloc hmalloc hk
  refine ⟨h₂st.heap, fun hp => (hnew hp).1, fun t ht hne hs => ?_⟩
  have hsame : ((c.sched.modify slot fun t => { t with kernelStack := 0 }).tasks t).kernelStack =
      (c.sched.tasks t).kernelStack := by rw [modify_tasks_of_ne hne]
  exact ⟨hsame ▸ h₂st.stack t ht (by rw [hsame]; exact hs), fun hp => hsame ▸ (hnew hp).2 t ht⟩

theorem Base.fill (h : Base ks c) (slot : Nat) (hcur : c'.sched.currentTid = c.sched.currentTid)
    (hslot : (slot : Int) ≠ c.sched.currentTid) (heap : c'.heap.Inv) (hclear : ks.Clear c'.heap.runs)
    (tasks : ∀ t, t ≠ slot → c'.sched.tasks t = c.sched.tasks t) (saved : ∀ t, t ≠ slot → c'.saved t = c.saved t)
    (old : ∀ t < maxTasks, t ≠ slot → (c.sched.tasks t).kernelStack ≠ 0 →
      ((c.sched.tasks t).kernelStack, 16384) ∈ c'.heap.live ∧
      (c.sched.tasks t).kernelStack ≠ (c'.sched.tasks slot).kernelStack)
    (new : (c'.sched.tasks slot).kernelStack ≠ 0 → ((c'.sched.tasks slot).kernelStack, 16384) ∈ c'.heap.live ∧
      (c'.sched.tasks slot).kernelStackTop = (c'.sched.tasks slot).kernelStack + 16384)
    (live : (c'.sched.tasks slot).Live → (c'.sched.tasks slot).kernelStack ≠ 0 ∧ Parked ks c' slot)
    (mem : ∀ t < maxTasks, t ≠ slot → (c.sched.tasks t).Live → (t : Int) ≠ c.sched.currentTid → ∀ a,
      (c.sched.tasks t).kernelRsp ≤ a → a < (c.sched.tasks t).kernelRsp + 176 → c'.mem a = c.mem a) : Base ks c' where
  heap := heap
  clear := hclear
  bound := hcur ▸ h.bound
  stack t ht hs := by
    by_cases hts : t = slot
    · subst hts
      exact new hs
    · rw [tasks t hts] at hs ⊢
      exact ⟨(old t ht hts hs).1, (h.stack t ht hs).2⟩
  distinct t ht u hu htu hs := by
    by_cases hts : t = slot
    · subst hts
      rw [tasks u (Ne.symm htu)]
      intro he
      exact (old u hu (Ne.symm htu) (he ▸ hs)).2 he.symm
    · rw [tasks t hts] at hs ⊢
      by_cases hus : u = slot
      · subst hus
        exact (old t ht hts hs).2
      · rw [tasks u hus]
        exact h.distinct t ht u hu htu hs
  owns t ht hor := by
    by_cases hts : t = slot
    · subst hts
      exact hor.elim (fun hl => (live hl).1) fun hc => absurd (hc.trans hcur) hslot
    · rw [tasks t hts] at hor ⊢
      exact h.owns t ht (hcur ▸ hor)
  parked t ht hl hne := by
    by_cases hts : t = slot
    · subst hts
      exact (live hl).2
    · rw [tasks t hts] at hl
      have hne' : (t : Int) ≠ c.sched.currentTid := hcur ▸ hne
      have hp := h.parked t ht hl hne'
      refine ⟨?_, ?_, ?_, ?_⟩ <;> simp only [tasks t hts, saved t hts]
      · exact (InterruptFrame.load_congr fun a ha ha' => mem t ht hts hl hne' a ha ha').trans hp.intact
      · exact hp.place
      · exact hp.ring
      · exact hp.room

theorem NewTask.ring3_frame (n : NewTask) (stack : Nat) : (n.frame stack).ring3 = n.isUser := by
  cases hu : n.isUser <;> simp [Regs.ring3, NewTask.frame, hu]

/-- What a creation keeps besides the invariant: the current task, and the stacks that are in use. -/
structure Creation (ks : KernelStacks) (c c' : Context) : Prop where
  base : Base ks c'
  cpu : c'.cpu = c.cpu
  currentTid : c'.sched.currentTid = c.sched.currentTid
  current : 0 ≤ c.sched.currentTid → c'.sched.tasks c.sched.current = c.sched.tasks c.sched.current
  mem : ∀ a, (c.stackBase ks ≤ a ∧ a < c.stackTop ks) ∨ (ks.irqTop - 8192 ≤ a ∧ a < ks.irqTop) → c'.mem a = c.mem a
  irq : ∀ t, (c'.sched.tasks t).Live → (c'.sched.tasks t).kernelRsp = ks.irqTop - 176 →
    (c.sched.tasks t).Live ∧ (c.sched.tasks t).kernelRsp = ks.irqTop - 176

theorem CanCreate.slot_ne (hcan : c.CanCreate) (hdead : ¬(c.sched.tasks slot).Live) :
    (slot : Int) ≠ c.sched.currentTid := by
  intro he
  rcases hcan with hneg | hrun
  · omega
  · have hslot : slot = c.sched.current := (current_eq_iff (by omega)).mp he
    exact hdead (Or.inr (Or.inl (hslot ▸ hrun)))

section Slot
variable {h₂ : HeapRun} {ptr : Nat}

/-- Without a stack, the slot has lost the one of its last task. -/
theorem Base.creates_none (h : Base ks c) (hcur : (slot : Int) ≠ c.sched.currentTid)
    (hdead : ¬(c.sched.tasks slot).Live) (hinv : h₂.Inv) (hclear : ks.Clear h₂.runs)
    (hold : ∀ t < maxTasks, t ≠ slot → (c.sched.tasks t).kernelStack ≠ 0 →
      ((c.sched.tasks t).kernelStack, 16384) ∈ h₂.live) :
    Creation ks c { c with sched := c.sched.modify slot fun t => { t with kernelStack := 0 }, heap := h₂ } := by
  have htasks : ∀ t, t ≠ slot → (c.sched.modify slot fun t => { t with kernelStack := 0 }).tasks t = c.sched.tasks t :=
    fun t ht => modify_tasks_of_ne ht
  refine ⟨h.fill slot rfl hcur hinv hclear htasks (fun _ _ => rfl) (fun t ht hts hs => ?_) (fun hs => ?_) (fun hl => ?_)
    (fun _ _ _ _ _ _ _ _ => rfl), rfl, rfl, fun h0 => htasks _ fun he => hcur ((current_eq_iff h0).mpr he.symm),
      fun _ _ => rfl,
    fun t hl hr => ?_⟩
  · exact ⟨hold t ht hts hs, by simpa using hs⟩
  · simp at hs
  · exact absurd (by simpa [Task.Live] using hl) hdead
  · by_cases hts : t = slot
    · subst hts
      exact absurd (by simpa [Task.Live] using hl) hdead
    · rw [htasks t hts] at hl hr
      exact ⟨hl, hr⟩

/-- The stack of a new task is apart from those of the others and from the static ones. -/
structure NewStack (ks : KernelStacks) (c : Context) (slot ptr : Nat) : Prop where
  aligned : ptr % 16 = 0
  below : ptr + 16384 < 2 ^ 64
  irq : ptr + 16384 ≤ ks.irqTop - 8192 ∨ ks.irqTop ≤ ptr
  boot : ptr + 16384 ≤ ks.bootBase ∨ ks.bootTop ≤ ptr
  apart : ∀ t < maxTasks, t ≠ slot → (c.sched.tasks t).kernelStack ≠ 0 →
    (c.sched.tasks t).kernelStackTop ≤ ptr ∨ ptr + 16384 ≤ (c.sched.tasks t).kernelStack

theorem Base.newStack_apart (h : Base ks c) (hinv : h₂.Inv) (hclear : ks.Clear h₂.runs)
    (hnew : (ptr, 16384) ∈ h₂.live)
    (hold : ∀ t < maxTasks, t ≠ slot → (c.sched.tasks t).kernelStack ≠ 0 →
      ((c.sched.tasks t).kernelStack, 16384) ∈ h₂.live ∧ (c.sched.tasks t).kernelStack ≠ ptr) :
    NewStack ks c slot ptr := by
  obtain ⟨h32, r, hr, hbase, hstop⟩ := hinv.sound.inside _ hnew
  obtain ⟨htop, hirq, hboot⟩ := hclear r hr
  have hal := hinv.sound.aligned _ hnew
  simp only at h32 hbase hstop hal
  refine ⟨hal, by omega, by omega, by omega, fun t ht hts hs => ?_⟩
  obtain ⟨hl, hne⟩ := hold t ht hts hs
  have hdisj := hinv.sound.disjoint _ hl _ hnew hne
  have htop := (h.stack t ht hs).2
  simp only at hdisj
  omega

theorem Base.newStack_mem (h : Base ks c) (hcur : (slot : Int) ≠ c.sched.currentTid) (hs : NewStack ks c slot ptr)
    (f : InterruptFrame) {a : Nat}
    (ha : (c.stackBase ks ≤ a ∧ a < c.stackTop ks) ∨ (ks.irqTop - 8192 ≤ a ∧ a < ks.irqTop)) :
    newStack c.mem ptr f a = c.mem a := by
  have hirq := hs.irq
  have hboot := hs.boot
  refine newStack_of_outside hs.aligned hs.below ?_
  rcases ha with ha | ha
  · unfold Context.stackBase Context.stackTop at ha
    split at ha
    · omega
    · have hcl := h.current_lt
      have hne : c.sched.current ≠ slot := fun he => hcur ((current_eq_iff (by omega)).mpr he.symm)
      have hap := hs.apart _ hcl hne (h.owns _ hcl (Or.inr ((current_eq_iff (by omega)).mpr rfl)))
      omega
  · omega

/-- With a stack, the slot has a task that is parked with its initial frame. -/
theorem Base.creates_some (h : Base ks c) (hcur : (slot : Int) ≠ c.sched.currentTid) (hinv : h₂.Inv)
    (hclear : ks.Clear h₂.runs) (hp : ptr ≠ 0) (hnew : (ptr, 16384) ∈ h₂.live)
    (hold : ∀ t < maxTasks, t ≠ slot → (c.sched.tasks t).kernelStack ≠ 0 →
      ((c.sched.tasks t).kernelStack, 16384) ∈ h₂.live ∧ (c.sched.tasks t).kernelStack ≠ ptr)
    (n : NewTask) :
    Creation ks c
      { c with
        sched := (c.sched.modify slot fun t => { t with kernelStack := 0 }).install slot ptr n.pid n.pml4 n.isUser
          n.addressSpace
        heap := h₂
        mem := newStack c.mem ptr (n.frame ptr)
        saved := update c.saved slot (n.frame ptr) } := by
  have htasks : ∀ t, t ≠ slot → ((c.sched.modify slot fun t => { t with kernelStack := 0 }).install slot ptr n.pid
      n.pml4 n.isUser n.addressSpace).tasks t = c.sched.tasks t := fun t ht => by
    rw [install, modify_tasks_of_ne ht, modify_tasks_of_ne ht]
  have hslot : ((c.sched.modify slot fun t => { t with kernelStack := 0 }).install slot ptr n.pid n.pml4 n.isUser
      n.addressSpace).tasks slot = created ptr n.pid n.pml4 n.isUser n.addressSpace := modify_tasks_same _ _ _
  have hs := h.newStack_apart hinv hclear hnew hold
  obtain ⟨hst, hrsp⟩ := stackTop_eq hs.aligned hs.below
  have hirq := hs.irq
  have hroom := ks.room
  have hsaved : ∀ t, t ≠ slot → update c.saved slot (n.frame ptr) t = c.saved t :=
    fun t ht => update_of_ne ht _ _
  refine ⟨h.fill slot rfl hcur hinv hclear htasks hsaved (fun t ht hts hs => ?_) (fun _ => ?_)
    (fun hl => ⟨?_, ⟨?_, ?_, ?_, fun hu => ?_⟩⟩) (fun t ht hts hl hne a ha ha' => ?_),
    rfl, rfl, fun h0 => htasks _ fun he => hcur ((current_eq_iff h0).mpr he.symm), fun a ha => ?_, fun t hl hr => ?_⟩
  · simp only [hslot, created]
    exact hold t ht hts hs
  · simp only [hslot, created]
    exact ⟨hnew, hst⟩
  · simpa only [hslot, created] using hp
  · simp only [hslot, created, update_self]
    exact InterruptFrame.load_store _ _ _
  · simp only [hslot, created, hst, hrsp]
    exact Or.inl (by omega)
  · simp only [hslot, created, update_self]
    exact NewTask.ring3_frame n ptr
  · have hbelow := hs.below
    simp only [hslot, created] at hu ⊢
    simp only [update_self, Room, NewTask.frame, hu, hst]
    rw [if_neg (by simp), BitVec.toNat_ofNat, Nat.mod_eq_of_lt (by omega)]
    omega
  · -- the frame of another task is on its own stack or on the interrupt stack
    have hap := hs.apart t ht hts (h.owns t ht (Or.inl hl))
    dsimp only
    refine newStack_of_outside hs.aligned hs.below ?_
    rcases (h.parked t ht hl hne).place with hpl | hpl <;> omega
  · dsimp only
    rw [h.newStack_mem hcur hs _ ha]
  · dsimp only at hl hr
    by_cases hts : t = slot
    · rw [hts, hslot] at hr
      simp only [created, hrsp] at hr
      omega
    · rw [htasks t hts] at hl hr
      exact ⟨hl, hr⟩

end Slot

/-- A creation keeps the invariant, the current task, and the stacks that are in use. -/
theorem Base.creates (h : Base ks c) (hcan : c.CanCreate)
    (hm : ∀ slot freed s, c.sched.findFreeSlot = some (slot, freed, s) → freed ≠ 0 → c.heap.MergesInside (.free freed))
    (hcr : c.Creates ks n page c') : Creation ks c c' := by
  unfold Creates at hcr
  cases hf : c.sched.findFreeSlot with
  | none =>
    simp only [hf] at hcr
    subst hcr
    exact ⟨h, rfl, rfl, fun _ => rfl, fun _ _ => rfl, fun _ hl hr => ⟨hl, hr⟩⟩
  | some found =>
    obtain ⟨slot, freed, s⟩ := found
    obtain ⟨hlt, hdead, rfl, rfl⟩ := findFreeSlot_eq_some hf
    simp only [hf] at hcr
    obtain ⟨h₁, h₂, ptr, hfree, hmalloc, hk, hclear, hc'⟩ := hcr
    obtain ⟨hinv, hnew, hold⟩ := h.creates_heap hlt (hm _ _ _ hf) hfree hmalloc hk
    have hcur := hcan.slot_ne hdead
    rw [hc', Sched.taskCreate_of_slot hf]
    by_cases hp : ptr = 0
    · simp only [if_pos hp]
      exact h.creates_none hcur hdead hinv hclear fun t ht hts hs => (hold t ht hts hs).1
    · simp only [if_neg hp]
      exact h.creates_some hcur hinv hclear hp (hnew hp)
        (fun t ht hts hs => ⟨(hold t ht hts hs).1, (hold t ht hts hs).2 hp⟩) n

theorem stack_congr (ks : KernelStacks) (hcur : c'.sched.currentTid = c.sched.currentTid)
    (htask : 0 ≤ c.sched.currentTid → c'.sched.tasks c.sched.current = c.sched.tasks c.sched.current) :
    c'.stackBase ks = c.stackBase ks ∧ c'.stackTop ks = c.stackTop ks ∧ c'.currentUser = c.currentUser := by
  have hcur' : c'.sched.current = c.sched.current := by
    unfold current
    rw [hcur]
  unfold Context.stackBase Context.stackTop Context.currentUser
  rw [hcur, hcur']
  by_cases h0 : c.sched.currentTid < 0
  · simp only [if_pos h0, and_self]
  · simp only [if_neg h0, htask (by omega), and_self]

theorem Entered.creates {base : Nat} {f : InterruptFrame} (h : Entered ks c base f) (hcan : c.CanCreate)
    (hm : ∀ slot freed s, c.sched.findFreeSlot = some (slot, freed, s) → freed ≠ 0 → c.heap.MergesInside (.free freed))
    (hcr : c.Creates ks n page c') : Entered ks c' base f ∧ c'.sched.currentTid = c.sched.currentTid := by
  obtain ⟨hb, -, hcur, htask, hmem, hirq⟩ := h.toBase.creates hcan hm hcr
  have hroom := ks.room
  obtain ⟨h1, h2, h3⟩ := stack_congr ks hcur htask
  refine ⟨⟨hb, ?_, h.irq, h1 ▸ h2 ▸ h.own, fun hr t ht hl hne he => ?_, h3 ▸ h.ring, h1 ▸ h2 ▸ h.room⟩, hcur⟩
  · refine (InterruptFrame.load_congr fun a ha ha' => hmem a ?_).trans h.load
    unfold InterruptFrame.size at ha'
    cases hr : f.ring3 with
    | true => have := h.irq hr; omega
    | false => have := h.own hr; omega
  · obtain ⟨hl', he'⟩ := hirq t hl he
    exact h.alone hr t ht hl' (hcur ▸ hne) he'

end Create

section Steps
variable {ks : KernelStacks} {c c' : Context} {base : Nat} {f : InterruptFrame} {kernelPml4 : Nat}

theorem Entered.storeRax (h : Entered ks c base f) (ret : Word) :
    Entered ks { c with mem := InterruptFrame.storeRax c.mem base ret } base { f with rax := ret } where
  toBase := h.toBase.of_mem fun t ht hl hne a ha ha' => by
    have hroom := ks.room
    refine InterruptFrame.storeRax_of_outside ?_
    unfold InterruptFrame.size
    obtain ⟨h1, h2⟩ := h.parked_outside ht hl hne ha ha'
    cases hr : f.ring3 with
    | true =>
      have := h2 (h.alone hr t ht hl hne)
      have := h.irq hr
      omega
    | false =>
      have := h.own hr
      omega
  load := by
    rw [← h.load]
    exact InterruptFrame.load_storeRax c.mem base ret
  irq := h.irq
  own := h.own
  alone := h.alone
  ring := h.ring
  room := h.room

theorem Restores.of_current {c₁ : Context} (h : Restores c₁ c') (hc : c₁.sched.currentTid = c.sched.currentTid) :
    Restores c c' := fun hne => h (hc ▸ hne)

theorem Entered.scheduleOnTick (h : Entered ks c base f) {next : Nat} {s : Sched}
    (hs : c.sched.scheduleOnTick kernelPml4 base = .ok (next, s)) :
    Inv ks (c.resume s base next) ∧ Restores c (c.resume s base next) := by
  have hq : ∀ n, Quiet c.sched { c.sched with sliceTicks := n } := fun n =>
    ⟨rfl, fun _ => rfl, fun _ => rfl, fun _ => rfl, fun _ _ => rfl, fun _ _ hl => hl⟩
  rcases Sched.scheduleOnTick_cases hs with ⟨-, rfl, rfl⟩ | ⟨-, hs⟩
  · exact h.resume_same (hq _)
  · exact (h.quiet (hq 0)).contextSwitchFrom hs

theorem Entered.syscallReturn (h : Entered ks c base f) {next : Nat} {s : Sched} {ret : Word}
    (hs : c.sched.syscallReturn kernelPml4 base ret = .ok (next, s)) :
    Inv ks (c.resume s base next) ∧ Restores c (c.resume s base next) := by
  rcases Sched.syscallReturn_cases hs with ⟨-, -, hs⟩ | ⟨-, rfl, rfl⟩
  · rcases c.sched.offered_cases with he | ⟨hc, -, -, he⟩ <;> rw [he] at hs
    · exact h.contextSwitchFrom hs
    · exact (h.quiet (Quiet.modify_current hc rfl rfl rfl)).contextSwitchFrom hs
  · exact h.resume_same (Quiet.refl _)

theorem Inv.runs (h : Inv ks c) (hr : Runs ks c c') : Inv ks c' := by
  have hc' : c' = { c with mem := c'.mem, cpu := c'.cpu } := by
    obtain ⟨s, hp, m, r, sv⟩ := c'
    simp only [Context.mk.injEq, true_and]
    exact ⟨hr.sched, hr.heap, hr.saved⟩
  have hring : c'.cpu.ring3 = c.cpu.ring3 := by
    unfold Regs.ring3
    rw [hr.ring]
  have hb : Base ks { c with mem := c'.mem } := h.toBase.of_mem fun t ht hl hne a ha ha' =>
    hr.mem a (Or.inr (h.parked_outside ht hl hne ha ha').1)
  rw [hc']
  refine ⟨⟨hb.heap, hb.clear, hb.bound, hb.stack, hb.distinct, hb.owns, fun t ht hl hne => ?_⟩, hring.trans h.ring,
    fun h3 => hr.room (hring ▸ h3)⟩
  have hp := hb.parked t ht hl hne
  exact ⟨hp.intact, hp.place, hp.ring, hp.room⟩

theorem Inv.creates (h : Inv ks c) {n : NewTask} {page : Nat} (hcan : c.CanCreate)
    (hm : ∀ slot freed s, c.sched.findFreeSlot = some (slot, freed, s) → freed ≠ 0 → c.heap.MergesInside (.free freed))
    (hcr : c.Creates ks n page c') : Inv ks c' ∧ Restores c c' := by
  obtain ⟨hb, hcpu, hcur, htask, -, -⟩ := h.toBase.creates hcan hm hcr
  obtain ⟨h1, h2, h3⟩ := stack_congr ks hcur htask
  refine ⟨⟨hb, ?_, fun hr => ?_⟩, fun hne => absurd hcur hne⟩
  · rw [hcpu, h3]
    exact h.ring
  · rw [hcpu] at hr ⊢
    rw [h1, h2]
    exact h.room hr

/-- Every step that spares the frames on the interrupt stack keeps the invariant, and a switch restores what was
    saved. -/
theorem Inv.step (h : Inv ks c) {e : ContextEvent} (hok : Spares ks c e) (hs : c.step ks kernelPml4 e c') :
    Inv ks c' ∧ Restores c c' := by
  cases e with
  | run => exact ⟨h.runs hs, fun hne => absurd (congrArg Sched.currentTid hs.sched) hne⟩
  | create n page => exact h.creates hs.1 (hok.heap trivial) hs.2
  | schedule =>
    obtain ⟨hneg, next, s, hs, hc'⟩ := hs
    exact h.schedule hneg hs hc'
  | tick =>
    obtain ⟨base, c₁, next, s, hi, hs, rfl⟩ := hs
    obtain ⟨hinv, hr⟩ := (h.interrupted (hok.irqStack trivial) hi).scheduleOnTick hs
    exact ⟨hinv, hr.of_current (congrArg Sched.currentTid hi.sched)⟩
  | keyboard tid =>
    obtain ⟨base, c₁, hi, rfl⟩ := hs
    obtain ⟨hinv, hr⟩ := (h.interrupted (hok.irqStack trivial) hi).resume_same (Quiet.taskWake _ tid)
    exact ⟨hinv, hr.of_current (congrArg Sched.currentTid hi.sched)⟩
  | syscall call =>
    obtain ⟨base, c₁, c₂, c₃, ret, next, s, hi, hserve, rfl, hs, rfl⟩ := hs
    have hent := h.interrupted (hok.irqStack trivial) hi
    obtain ⟨f, hent₂, hcur⟩ : ∃ f, Entered ks c₂ base f ∧ c₂.sched.currentTid = c₁.sched.currentTid := by
      cases call with
      | exit code =>
        obtain ⟨rfl, -⟩ := hserve
        exact ⟨_, hent.quiet (Quiet.sysExit _ code), (Quiet.sysExit _ code).current⟩
      | spawn n page ret' =>
        obtain ⟨hcan, hcr, -⟩ := hserve
        have hm := hok.heap trivial
        rw [← hi.sched, ← hi.heap] at hm
        exact ⟨_, hent.creates hcan hm hcr⟩
      | other ret' =>
        obtain ⟨rfl, -⟩ := hserve
        exact ⟨_, hent, rfl⟩
    obtain ⟨hinv, hr⟩ := (hent₂.storeRax ret).syscallReturn hs
    exact ⟨hinv, hr.of_current (hcur.trans (congrArg Sched.currentTid hi.sched))⟩
  | sleep =>
    obtain ⟨s, hs, rfl⟩ := hs
    have hq := Quiet.taskSleep hs
    exact ⟨h.quiet hq, fun hne => absurd hq.current hne⟩
  | exit code =>
    obtain ⟨s, hs, rfl⟩ := hs
    have hq := Quiet.taskExit hs
    exact ⟨h.quiet hq, fun hne => absurd hq.current hne⟩
  | kill pid code =>
    obtain rfl := hs
    have hq := Quiet.taskKillPid c.sched pid code
    exact ⟨h.quiet hq, fun hne => absurd hq.current hne⟩

theorem Inv.init (h : (contexts ks kernelPml4).init c) : Inv ks c := by
  obtain ⟨⟨cr3, hs⟩, hheap, hclear, hring, hroom⟩ := h
  have hneg : c.sched.currentTid < 0 := by simp [hs, taskInit]
  refine ⟨⟨HeapRun.Inv.init hheap, hclear, by unfold maxTasks; omega, ?_, ?_, ?_, ?_⟩, ?_, fun _ => ?_⟩
  · simp [hs, taskInit, Task.blank]
  · simp [hs, taskInit, Task.blank]
  · intro t _ hor
    rw [hs] at hor
    rcases hor with hl | hc
    · simp [taskInit, Task.blank, Task.Live] at hl
    · simp only [taskInit] at hc
      omega
  · intro t _ hl
    simp [hs, taskInit, Task.blank, Task.Live] at hl
  · simp [hring, currentUser, hneg]
  · simpa [stackBase, stackTop, hneg, Room] using hroom

end Steps

/-- In every run whose steps spare the frames on the interrupt stack, a switch resumes the new task from exactly the
    frame that was saved when it was last suspended, or from its initial frame. -/
theorem switch_restores_saved_context {ks : KernelStacks} {kernelPml4 : Nat} {c c' : Context} {e : ContextEvent}
    (h : ((contexts ks kernelPml4).guard (Spares ks)).Reachable c)
    (hs : ((contexts ks kernelPml4).guard (Spares ks)).step c e c')
    (hswitch : c'.sched.currentTid ≠ c.sched.currentTid) :
    InterruptFrame.load c'.mem (c'.sched.tasks c'.sched.current).kernelRsp = c'.saved c'.sched.current ∧
    c'.cpu = (c'.saved c'.sched.current).toRegs := by
  have hinit : ∀ {c}, (contexts ks kernelPml4).init c → Inv ks c := fun h₀ => Inv.init h₀
  have hinv : Inv ks c := h.invariant hinit fun hi hs => (hi.step hs.1 hs.2).1
  exact (hinv.step hs.1 hs.2).2 hswitch

/-! ### Two user tasks -/

def sampleStacks : KernelStacks where
  irqTop := 0xFFFFFFFF80120000
  bootBase := 0x8000
  bootTop := 0x10000
  aligned := by decide
  room := by decide
  apart := by decide

/-- A user task that starts at `entry`. -/
def sampleTask (pid : Int) (frame : Nat) (entry : Word) : NewTask :=
  { pid, isUser := true, addressSpace := .page frame, pml4 := frame + 1, entry, userRsp := 0x7FFFFFFFE000 }

def sampleRun (base : Nat) : PageRun := { base, bytes := 20480 }

/-- The blocks of a run that holds one task stack. -/
def sampleBlocks (base : Nat) : List KBlock := [⟨base, 16384, false⟩, ⟨base + 16416, 4032, true⟩]

/-- `kernel_main` before the first task. -/
def sampleBoot : Context where
  sched := taskInit 0x220
  heap := ⟨⟨[⟨0x10000000, 8160, true⟩], true⟩, [{ base := 0x10000000, bytes := 8192 }], []⟩
  mem := fun _ => 0
  cpu := { ((sampleTask 0 0 0).frame 0).toRegs with cs := 0x08, rsp := 0x10000 }
  saved := fun _ => (sampleTask 0 0 0).frame 0

/-- The state after a task was created with the stack at `stack`. -/
def sampleCreated (c : Context) (slot stack : Nat) (n : NewTask) : Context where
  sched := c.sched.install slot stack n.pid n.pml4 n.isUser n.addressSpace
  heap := ⟨⟨c.heap.heap.blocks ++ sampleBlocks (stack - 32), true⟩, c.heap.runs ++ [sampleRun (stack - 32)],
    (stack, 16384) :: c.heap.live⟩
  mem := newStack c.mem stack (n.frame stack)
  cpu := c.cpu
  saved := update c.saved slot (n.frame stack)

/-- The first task, and then the second. -/
def sampleOne : Context := sampleCreated sampleBoot 0 0x10010020 (sampleTask 1 0x10100 0x2000000000)
def sampleTwo : Context := sampleCreated sampleOne 1 0x10020020 (sampleTask 2 0x10200 0x2000001000)

instance (ks : KernelStacks) (runs : List PageRun) : Decidable (ks.Clear runs) :=
  inferInstanceAs (Decidable (∀ r ∈ runs, _))

theorem sampleBoot_init : (contexts sampleStacks 0x220).init sampleBoot :=
  ⟨⟨0x220, rfl⟩, ⟨0x10000, rfl, rfl, by decide +kernel, rfl⟩, by decide +kernel, by decide, by decide, by decide⟩

theorem sampleOne_step :
    (contexts sampleStacks 0x220).step sampleBoot (.create (sampleTask 1 0x10100 0x2000000000) 0x10010) sampleOne := by
  refine ⟨Or.inl (by decide), sampleBoot.heap, sampleOne.heap, 0x10010020, rfl, ?_, ?_, ?_, ?_⟩
  · exact ⟨by decide, rfl, by decide +kernel, 0x10010020, by decide +kernel, rfl⟩
  · decide +kernel
  · decide +kernel
  · rfl

theorem sampleTwo_step :
    (contexts sampleStacks 0x220).step sampleOne (.create (sampleTask 2 0x10200 0x2000001000) 0x10020) sampleTwo := by
  refine ⟨Or.inl (by decide), sampleOne.heap, sampleTwo.heap, 0x10020020, rfl, ?_, ?_, ?_, ?_⟩
  · exact ⟨by decide, rfl, by decide +kernel, 0x10020020, by decide +kernel, rfl⟩
  · decide +kernel
  · decide +kernel
  · rfl

/-- The first `schedule()` starts the task from its initial frame. -/
theorem switch_restores_saved_context_first :
    ∃ c', ((contexts sampleStacks 0x220).guard (Spares sampleStacks)).step sampleOne .schedule c' ∧
      c'.sched.currentTid ≠ sampleOne.sched.currentTid ∧
      InterruptFrame.load c'.mem (c'.sched.tasks c'.sched.current).kernelRsp = c'.saved c'.sched.current ∧
      c'.cpu = (c'.saved c'.sched.current).toRegs := by
  have hreach : ((contexts sampleStacks 0x220).guard (Spares sampleStacks)).Reachable sampleOne := by
    refine .step (.init sampleBoot_init) (e := .create (sampleTask 1 0x10100 0x2000000000) 0x10010)
      ⟨⟨fun h => h.elim, fun _ slot freed s hf hne => ?_⟩, sampleOne_step⟩
    cases hf
    exact absurd rfl hne
  obtain ⟨next, s, hsched, htid⟩ : ∃ next s, sampleOne.sched.schedule 0x220 = .ok (next, s) ∧ s.currentTid = 0 :=
    ⟨_, _, rfl, rfl⟩
  have hstep : ((contexts sampleStacks 0x220).guard (Spares sampleStacks)).step sampleOne .schedule
      { sampleOne with sched := s, cpu := if next = 0 then sampleOne.cpu else interruptReturn sampleOne.mem next } :=
    ⟨⟨fun h => h.elim, fun h => h.elim⟩, by decide, next, s, hsched, rfl⟩
  have hne : s.currentTid ≠ sampleOne.sched.currentTid := by rw [htid]; decide
  exact ⟨_, hstep, hne, switch_restores_saved_context hreach hstep hne⟩

/-- The stack memory after the system call of code with the registers `r`, with its frame at `base` and the result
    0. -/
def syscallFrame (m : Nat → Word) (base : Nat) (r : Regs) : Nat → Word :=
  InterruptFrame.storeRax (InterruptFrame.store m base { r with vector := 128, errorCode := 0 }) base 0

theorem load_syscallFrame (m : Nat → Word) (base : Nat) (r : Regs) :
    InterruptFrame.load (syscallFrame m base r) base = { r with rax := 0, vector := 128, errorCode := 0 } := by
  unfold syscallFrame
  rw [InterruptFrame.load_storeRax, InterruptFrame.load_store]

theorem load_syscallFrame_of_outside {m : Nat → Word} {base a : Nat} {r : Regs} (h : a + 176 ≤ base ∨ base + 176 ≤ a) :
    InterruptFrame.load (syscallFrame m base r) a = InterruptFrame.load m a := by
  refine InterruptFrame.load_congr fun x hx hx' => ?_
  unfold InterruptFrame.size at hx'
  unfold syscallFrame
  rw [InterruptFrame.storeRax_of_outside (by unfold InterruptFrame.size; omega),
    InterruptFrame.store_of_outside (by unfold InterruptFrame.size; omega)]

/-- `sys_yield` from ring 3, where the handler leaves the stack below the frame as it was. -/
theorem yield_step {c : Context} {base next : Nat} {s : Sched} (hbase : ks.irqTop - 176 = base)
    (hring : c.cpu.ring3 = true) (hret : c.sched.syscallReturn kernelPml4 base 0 = .ok (next, s)) :
    (contexts ks kernelPml4).step c (.syscall (.other 0))
      (resume { c with mem := syscallFrame c.mem base c.cpu } s base next) := by
  have htop : c.frameTop ks = ks.irqTop := by unfold frameTop; rw [if_pos hring]
  have hroom : InterruptFrame.size ≤ ks.irqTop := by have := ks.room; unfold InterruptFrame.size; omega
  have hentry := interruptEntry_eq c.mem 128 c.cpu hroom
  rw [show ks.irqTop - InterruptFrame.size = base from hbase, ← htop] at hentry
  exact ⟨base, { c with mem := InterruptFrame.store c.mem base { c.cpu with vector := 128, errorCode := 0 } }, _, _, 0,
    next, s, ⟨by rw [hentry], fun a _ => by rw [hentry], rfl, rfl, rfl⟩, ⟨rfl, rfl⟩, rfl, hret, rfl⟩

theorem sampleCreated_mem (c : Context) (slot stack : Nat) (n : NewTask) :
    (sampleCreated c slot stack n).mem = newStack c.mem stack (n.frame stack) := by
  unfold sampleCreated
  dsimp only

theorem load_sampleCreated (c : Context) (slot stack : Nat) (n : NewTask) :
    InterruptFrame.load (sampleCreated c slot stack n).mem (Sched.initialRsp stack) = n.frame stack := by
  rw [sampleCreated_mem, newStack, InterruptFrame.load_store]

theorem load_sampleCreated_of_lt {c : Context} {slot stack a : Nat} {n : NewTask} (ha : stack % 16 = 0)
    (hlt : stack + 16384 < 2 ^ 64) (h : a + 176 ≤ stack) :
    InterruptFrame.load (sampleCreated c slot stack n).mem a = InterruptFrame.load c.mem a := by
  rw [sampleCreated_mem]
  refine InterruptFrame.load_congr fun x _ hx => newStack_of_outside ha hlt (Or.inl ?_)
  unfold InterruptFrame.size at hx
  omega

/-- Both tasks yield. The frame of the second is pushed over that of the first, which then goes on with the registers
    of the second. -/
theorem second_yield_overwrites_frame :
    ∃ c c' e, (contexts sampleStacks 0x220).Reachable c ∧ (contexts sampleStacks 0x220).step c e c' ∧
      c'.sched.currentTid ≠ c.sched.currentTid ∧
      InterruptFrame.load c'.mem (c'.sched.tasks c'.sched.current).kernelRsp ≠ c'.saved c'.sched.current := by
  obtain ⟨s₁, s₂, s₃, h₁, h₂, h₃, ht₁, ht₂, ht₃, hrsp⟩ : ∃ s₁ s₂ s₃,
      sampleTwo.sched.schedule 0x220 = .ok (Sched.initialRsp 0x10010020, s₁) ∧
      s₁.syscallReturn 0x220 0xFFFFFFFF8011FF50 0 = .ok (Sched.initialRsp 0x10020020, s₂) ∧
      s₂.syscallReturn 0x220 0xFFFFFFFF8011FF50 0 = .ok (0xFFFFFFFF8011FF50, s₃) ∧
      s₁.currentTid = 0 ∧ s₂.currentTid = 1 ∧ s₃.currentTid = 0 ∧ (s₃.tasks 0).kernelRsp = 0xFFFFFFFF8011FF50 :=
    ⟨_, _, _, rfl, rfl, rfl, rfl, rfl, rfl, rfl⟩
  have hbase : sampleStacks.irqTop - 176 = 0xFFFFFFFF8011FF50 := by decide
  have hout : Sched.initialRsp 0x10020020 + 176 ≤ 0xFFFFFFFF8011FF50 := by decide
  have hA : InterruptFrame.load sampleTwo.mem (Sched.initialRsp 0x10010020) =
      (sampleTask 1 0x10100 0x2000000000).frame 0x10010020 := by
    rw [sampleTwo, load_sampleCreated_of_lt (by decide) (by decide) (by decide), sampleOne, load_sampleCreated]
  have hB : InterruptFrame.load sampleTwo.mem (Sched.initialRsp 0x10020020) =
      (sampleTask 2 0x10200 0x2000001000).frame 0x10020020 := by
    rw [sampleTwo, load_sampleCreated]
  have hpos : Sched.initialRsp 0x10010020 ≠ 0 ∧ Sched.initialRsp 0x10020020 ≠ 0 := by decide
  have hreach : (contexts sampleStacks 0x220).Reachable sampleTwo :=
    .step (.step (.init sampleBoot_init) sampleOne_step) sampleTwo_step
  have hneg : sampleTwo.sched.currentTid < 0 := by decide
  generalize 0xFFFFFFFF8011FF50 = base at *
  generalize Sched.initialRsp 0x10010020 = rspA at *
  generalize Sched.initialRsp 0x10020020 = rspB at *
  generalize sampleTwo = c at *
  have step₁ : (contexts sampleStacks 0x220).step c .schedule
      { c with sched := s₁, cpu := interruptReturn c.mem rspA } :=
    ⟨hneg, rspA, s₁, h₁, by rw [if_neg hpos.1]⟩
  generalize hc₁ : ({ c with sched := s₁, cpu := interruptReturn c.mem rspA } : Context) = c₁ at step₁
  have hcpu₁ : c₁.cpu = ((sampleTask 1 0x10100 0x2000000000).frame 0x10010020).toRegs := by
    rw [← hc₁, ← hA]
    rfl
  have step₂ := yield_step (c := c₁) hbase (by rw [hcpu₁]; exact NewTask.ring3_frame _ _) (by rw [← hc₁]; exact h₂)
  generalize hc₂ : resume { c₁ with mem := syscallFrame c₁.mem base c₁.cpu } s₂ base rspB = c₂ at step₂
  have hcpu₂ : c₂.cpu = ((sampleTask 2 0x10200 0x2000001000).frame 0x10020020).toRegs := by
    rw [← hc₂]
    unfold resume interruptReturn
    dsimp only
    rw [if_neg hpos.2, load_syscallFrame_of_outside (Or.inl hout), ← hc₁, hB]
  have step₃ := yield_step (c := c₂) hbase (by rw [hcpu₂]; exact NewTask.ring3_frame _ _) (by rw [← hc₂]; exact h₃)
  refine ⟨c₂, _, _, .step (.step hreach step₁) step₂, step₃, ?_, ?_⟩
  · rw [← hc₂]
    exact fun h => absurd (ht₃.symm.trans (h.trans ht₂)) (by decide)
  · -- What is loaded has the instruction pointer of the second task, what was saved that of the first.
    intro h
    have hsaved : c₂.saved 0 = InterruptFrame.load (syscallFrame c₁.mem base c₁.cpu) base := by
      rw [← hc₂, ← hc₁]
      unfold resume
      simp [Sched.current, ht₁]
    unfold resume at h
    dsimp only at h
    rw [show s₃.current = 0 by simp [Sched.current, ht₃], hrsp, if_pos (by rw [← hc₂]; exact ht₂.symm ▸ by decide),
      update_of_ne (by rw [← hc₂]; simp [resume, Sched.current, ht₂]), hsaved, load_syscallFrame,
      load_syscallFrame, hcpu₁, hcpu₂] at h
    exact absurd (congrArg (fun f => f.rip) h) (by decide)

end SamOS.Context
