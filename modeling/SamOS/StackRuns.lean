import SamOS.HeapWords
import SamOS.TaskStacks

/-! Task slots and kernel stacks over whole runs: `task_create_kernel`, `task_create_user`, exits, kills and switches,
    with `kmalloc` and `kfree` on the block list in memory. `kmalloc` may fail at any point. A stack that `coalesce`
    made of two page runs may lie over the headers of other blocks, and then `kmalloc` hands out a stack that a live
    task has. -/

namespace SamOS
open Heap

namespace Sched

/-- The event creates a task. -/
def SchedEvent.Creates : SchedEvent → Prop
  | .createKernel _ | .createUser _ _ _ _ => True
  | _ => False

theorem SchedRun.keepsStacks {kernelPml4 : Nat} {r r' : SchedRun} {e : SchedEvent} (he : ¬e.Creates)
    (hs : r.step kernelPml4 e r') :
    KeepsStacks r.sched r'.sched := by
  cases e with
  | createKernel stack => exact absurd trivial he
  | createUser stack pid as pml4 => exact absurd trivial he
  | schedule =>
    obtain ⟨next, h, -⟩ := hs
    exact .contextSwitchFrom h
  | tick rsp =>
    obtain ⟨next, h, -⟩ := hs
    exact .scheduleOnTick h
  | syscall frame ret =>
    simp only [SchedRun.step] at hs
    split at hs
    · obtain ⟨next, h, -⟩ := hs
      exact .syscallReturn h
    · rw [hs]
      exact .refl _
  | sysExit frame code =>
    obtain ⟨next, h, -⟩ := hs
    exact (KeepsStacks.sysExit _ code).trans (.syscallReturn h)
  | sleep => exact .taskSleep hs.1
  | wake tid =>
    rw [show r' = _ from hs]
    exact .taskWake _ tid
  | kill pid code =>
    rw [hs.1]
    exact .taskKillPid _ pid code
  | exit code => exact .taskExit hs.1

/-- There is no free slot only when every slot is taken, if the slots that were never used have no stack. -/
theorem findFreeSlot_eq_none {s : Sched} (hnew : ∀ i < maxTasks, (s.tasks i).state = .new → (s.tasks i).kernelStack = 0)
    (h : s.findFreeSlot = none) : ∀ i < maxTasks, (s.tasks i).Live := by
  intro i hi
  unfold findFreeSlot at h
  split at h
  · cases h
  · rename_i hfirst
    split at h
    · cases h
    · split at h
      · cases h
      · rename_i hthird
        have hunused := firstSlot_eq_none hfirst i hi
        have hzombie := firstSlot_eq_none hthird i hi
        simp only [Bool.and_eq_false_iff, decide_eq_false_iff_not] at hunused hzombie
        unfold Task.Live
        cases hst : (s.tasks i).state with
        | new =>
          rcases hunused with hunused | hunused
          · exact absurd (Or.inr hst) hunused
          · exact absurd (hnew i hi hst) hunused
        | zombie => exact absurd hst hzombie
        | runnable => exact Or.inl rfl
        | running => exact Or.inr (Or.inl rfl)
        | waiting => exact Or.inr (Or.inr rfl)

end Sched

/-! ### Runs -/

/-- The calls of `kmalloc` that returned a stack, and the calls of `kfree`. -/
inductive StackCall where
  | kmalloc (ptr : Nat)
  | kfree (ptr : Nat)
  deriving DecidableEq, Repr

/-- The calls of a creation, the last one first: the slot's stack is freed, if it has one, and a new one is allocated,
    or not. -/
def createCalls (freed ptr : Nat) : List StackCall :=
  (if ptr = 0 then [] else [.kmalloc ptr]) ++ if freed = 0 then [] else [.kfree freed]

theorem count_createCalls (freed ptr x : Nat) :
    (createCalls freed ptr).count (.kmalloc x) = (if x ≠ 0 ∧ x = ptr then 1 else 0) ∧
    (createCalls freed ptr).count (.kfree x) = if x ≠ 0 ∧ x = freed then 1 else 0 := by
  unfold createCalls
  by_cases hp : ptr = 0 <;> by_cases hf : freed = 0 <;>
    simp only [hp, hf, if_true, if_false, List.nil_append, List.append_nil, List.singleton_append,
      List.count_cons, List.count_nil, beq_iff_eq, StackCall.kmalloc.injEq, StackCall.kfree.injEq, reduceCtorEq] <;>
    grind

/-- The scheduler with the heap, and the calls so far, the last one first. -/
structure StackRun where
  run : Sched.SchedRun
  heap : KHeap
  calls : List StackCall

/-- `page` is what `pmm_alloc_pages` returns should the heap grow. -/
inductive StackEvent where
  | create (n : NewTask) (page : Nat)
  | call (e : Sched.SchedEvent)

namespace StackRun

/-- The body of the two `task_create` functions. They are called by `kernel_main` before the first switch, or by the
    code of the running task, in `process_spawn`. -/
def Creates (r : StackRun) (n : NewTask) (page : Nat) (r' : StackRun) : Prop :=
  (r.run.sched.currentTid < 0 ∨ (r.run.sched.tasks r.run.sched.current).state = .running) ∧
  match r.run.sched.findFreeSlot with
  | none => r' = r
  | some (_, freed, _) =>
    ∃ h₁ ptr h₂, r.heap.kfree freed = .ok h₁ ∧ h₁.kmalloc 16384 page = .ok (ptr, h₂) ∧ RunsOk h₂.runs ∧
      r' =
        { run := { r.run with sched := (r.run.sched.taskCreate ptr n.pid n.pml4 n.isUser n.addressSpace).2.2 }
          heap := if ptr = 0 then h₂ else { h₂ with mem := Context.newStack h₂.mem ptr (n.frame ptr) }
          calls := createCalls freed ptr ++ r.calls }

/-- The address lies in the stack of a slot. -/
def InStack (r : StackRun) (a : Nat) : Prop :=
  ∃ i < maxTasks, (r.run.sched.tasks i).kernelStack ≠ 0 ∧ (r.run.sched.tasks i).kernelStack ≤ a ∧
    a < (r.run.sched.tasks i).kernelStack + 16384

/-- Code that does not call the heap writes to its pages in the stacks of tasks only. -/
structure SparesHeap (r r' : StackRun) : Prop where
  mem : ∀ a, (∃ p ∈ r.heap.runs, p.base ≤ a ∧ a < p.stop) → ¬r.InStack a → r'.heap.mem a = r.heap.mem a
  head : r'.heap.head = r.heap.head
  ready : r'.heap.ready = r.heap.ready
  runs : r'.heap.runs = r.heap.runs

/-- The arguments of `task_create_kernel`, or those of `task_create_user` with an address space that exists. -/
def Creatable (kernelPml4 : Nat) (n : NewTask) : Prop :=
  n.isUser = false ∧ n.pid = 0 ∧ n.addressSpace = .kernel ∧ n.pml4 = kernelPml4 ∨ n.isUser = true ∧
    n.addressSpace ≠ .null ∧ n.pml4 ≠ 0

instance (kernelPml4 : Nat) (n : NewTask) : Decidable (Creatable kernelPml4 n) := inferInstanceAs (Decidable (_ ∨ _))

def step (kernelPml4 : Nat) (r : StackRun) : StackEvent → StackRun → Prop
  | .create n page, r' => Creatable kernelPml4 n ∧ r.Creates n page r'
  | .call e, r' => ¬e.Creates ∧ r.run.step kernelPml4 e r'.run ∧ r.SparesHeap r' ∧ r'.calls = r.calls

/-- The stack that a creation frees is merged with blocks of its own page run only. -/
def MergesInside (r : StackRun) : StackEvent → Prop
  | .create _ _ => ∀ slot freed s blocks, r.run.sched.findFreeSlot = some (slot, freed, s) → freed ≠ 0 →
    r.heap.Lists blocks →
      MergesWithin r.heap.runs (markFree (freed - 32) blocks)
  | .call _ => True

end StackRun

/-- All runs from `task_init` on, on the heap that `kmalloc_init` and the smoke tests leave. -/
def stackRuns (kernelPml4 : Nat) : Lts.System StackRun StackEvent where
  init r := (∃ cr3, r.run = { sched := Sched.taskInit cr3, inTask := false }) ∧
    (∃ m page pages h, RunsOk [expandRun 4096 page] ∧
      KHeap.kmallocInit { mem := m, head := 0, ready := false, runs := [] } page = .ok h ∧
      runHeapSmokeTests (fun size page h => KHeap.kmalloc h size page) (fun size page h => KHeap.kzalloc h size page)
        (fun ptr h => KHeap.kfree h ptr) pages h = .ok r.heap) ∧
    r.calls = []
  step := StackRun.step kernelPml4

section Create
variable {s s₁ : Sched} {slot freed stack : Nat} {pid : Int} {cr3 : Nat} {isUser : Bool} {as : AsPtr}

theorem Sched.taskCreate_tasks (h : s.findFreeSlot = some (slot, freed, s₁)) {i : Nat} (hi : i ≠ slot) :
    (s.taskCreate stack pid cr3 isUser as).2.2.tasks i = s.tasks i := by
  rw [taskCreate_of_slot h]
  obtain ⟨-, -, -, rfl⟩ := findFreeSlot_eq_some h
  split
  · exact modify_tasks_of_ne hi
  · rw [install, modify_tasks_of_ne hi, modify_tasks_of_ne hi]

theorem Sched.taskCreate_currentTid (h : s.findFreeSlot = some (slot, freed, s₁)) :
    (s.taskCreate stack pid cr3 isUser as).2.2.currentTid = s.currentTid := by
  rw [taskCreate_of_slot h]
  obtain ⟨-, -, -, rfl⟩ := findFreeSlot_eq_some h
  split <;> rfl

theorem Sched.taskCreate_slot (h : s.findFreeSlot = some (slot, freed, s₁)) :
    (s.taskCreate stack pid cr3 isUser as).2.2.tasks slot =
      if stack = 0 then { s.tasks slot with kernelStack := 0 } else created stack pid cr3 isUser as := by
  rw [taskCreate_of_slot h]
  obtain ⟨-, -, -, rfl⟩ := findFreeSlot_eq_some h
  split
  · rw [modify_tasks_same]
  · rw [install, modify_tasks_same]

theorem Sched.taskCreate_kernelStack (h : s.findFreeSlot = some (slot, freed, s₁)) (i : Nat) :
    ((s.taskCreate stack pid cr3 isUser as).2.2.tasks i).kernelStack =
      if i = slot then stack else (s.tasks i).kernelStack := by
  by_cases hi : i = slot
  · rw [if_pos hi, hi, taskCreate_slot h]
    split
    · rename_i h0
      exact h0.symm
    · rfl
  · rw [if_neg hi, taskCreate_tasks h hi]

theorem Sched.taskCreate_new (h : s.findFreeSlot = some (slot, freed, s₁)) {i : Nat}
    (hnew : ((s.taskCreate stack pid cr3 isUser as).2.2.tasks i).state = .new) :
    i = slot ∧ stack = 0 ∨ i ≠ slot ∧ (s.tasks i).state = .new := by
  by_cases hi : i = slot
  · rw [hi, taskCreate_slot h] at hnew
    split at hnew
    · exact Or.inl ⟨hi, ‹_›⟩
    · cases hnew
  · rw [taskCreate_tasks h hi] at hnew
    exact Or.inr ⟨hi, hnew⟩

/-- The slot that a creation takes is not that of a task that may run. -/
theorem Sched.not_mayRun (hcan : s.currentTid < 0 ∨ (s.tasks s.current).state = .running)
    (hdead : ¬(s.tasks slot).Live) :
    ¬s.MayRun slot := by
  rintro (hlive | hcur)
  · exact hdead hlive
  · rcases hcan with hneg | hrun
    · omega
    · rw [(Sched.current_eq_iff (by omega)).mp hcur] at hdead
      exact hdead (Or.inr (Or.inl hrun))

theorem Sched.taskCreate_mayRun (h : s.findFreeSlot = some (slot, freed, s₁)) (hrest : ¬s.MayRun slot) {i : Nat}
    (hmay : (s.taskCreate stack pid cr3 isUser as).2.2.MayRun i) :
    i = slot ∧ stack ≠ 0 ∨ i ≠ slot ∧ s.MayRun i := by
  unfold MayRun at hmay hrest ⊢
  rw [taskCreate_currentTid h] at hmay
  by_cases hi : i = slot
  · refine Or.inl ⟨hi, fun h0 => hrest ?_⟩
    rwa [hi, taskCreate_slot h, if_pos h0] at hmay
  · rw [taskCreate_tasks h hi] at hmay
    exact Or.inr ⟨hi, hmay⟩

end Create

/-- The stack is that of a slot. -/
def Sched.Holds (s : Sched) (x : Nat) : Prop := x ≠ 0 ∧ ∃ i < maxTasks, (s.tasks i).kernelStack = x

/-- `kmalloc` returned the stack once more than `kfree` got it, if it is that of a slot, and as often otherwise. -/
def Sched.Balanced (s : Sched) (calls : List StackCall) (x : Nat) : Prop :=
  (s.Holds x ∧ calls.count (.kmalloc x) = calls.count (.kfree x) + 1) ∨
    (¬s.Holds x ∧ calls.count (.kmalloc x) = calls.count (.kfree x))

/-- A creation keeps the balance: the slot has the new stack in place of the freed one. -/
theorem Sched.Balanced.create {s s' : Sched} {calls : List StackCall} {slot ptr x : Nat} (h : s.Balanced calls x)
    (hslot : slot < maxTasks)
    (hdistinct : ∀ i < maxTasks, i ≠ slot → (s.tasks slot).kernelStack ≠ 0 →
      (s.tasks slot).kernelStack ≠ (s.tasks i).kernelStack)
    (hnew : ptr ≠ 0 → ∀ i < maxTasks, i ≠ slot → (s.tasks i).kernelStack ≠ ptr)
    (hstack : ∀ i, (s'.tasks i).kernelStack = if i = slot then ptr else (s.tasks i).kernelStack) :
    s'.Balanced (createCalls (s.tasks slot).kernelStack ptr ++ calls) x := by
  have hheld : s'.Holds x ↔ x ≠ 0 ∧ (x = ptr ∨ (s.Holds x ∧ x ≠ (s.tasks slot).kernelStack)) := by
    unfold Holds
    simp only [hstack]
    constructor
    · rintro ⟨h0, i, hi, hx⟩
      by_cases his : i = slot
      · rw [if_pos his] at hx
        exact ⟨h0, .inl hx.symm⟩
      · rw [if_neg his] at hx
        refine ⟨h0, .inr ⟨⟨h0, i, hi, hx⟩, fun he => ?_⟩⟩
        exact hdistinct i hi his (he ▸ h0) (by rw [hx, he])
    · rintro ⟨h0, rfl | ⟨⟨-, i, hi, hx⟩, hne⟩⟩
      · exact ⟨h0, slot, hslot, if_pos rfl⟩
      · have his : i ≠ slot := fun he => hne (by rw [← hx, he])
        exact ⟨h0, i, hi, by rw [if_neg his, hx]⟩
  have hfreed : (s.tasks slot).kernelStack ≠ 0 → s.Holds (s.tasks slot).kernelStack := fun h0 => ⟨h0, slot, hslot, rfl⟩
  have hfresh : ptr ≠ 0 → s.Holds ptr → ptr = (s.tasks slot).kernelStack := by
    rintro h0 ⟨-, i, hi, hx⟩
    by_contra hne
    exact hnew h0 i hi (fun he => hne (by rw [← hx, he])) hx
  have hzero : ¬s.Holds 0 := fun h => h.1 rfl
  obtain ⟨hmalloc, hfree⟩ := count_createCalls (s.tasks slot).kernelStack ptr x
  unfold Balanced at h ⊢
  rw [hheld, List.count_append, List.count_append, hmalloc, hfree]
  clear hheld hdistinct hnew hstack hmalloc hfree
  grind

/-! ### The invariant -/

/-- Tasks that may run have a stack, slots that were never used have none, and the stacks of the slots are what
    `kmalloc` returned and `kfree` did not take back. -/
structure StackRun.Inv (r : StackRun) (h : HeapRun) : Prop where
  lists : r.heap.Lists h.heap.blocks
  ready : r.heap.ready = true
  runs : r.heap.runs = h.runs
  tasks : TaskStacks h r.run.sched
  fresh : ∀ i < maxTasks, (r.run.sched.tasks i).state = .new → (r.run.sched.tasks i).kernelStack = 0
  owned : ∀ i < maxTasks, r.run.sched.MayRun i → (r.run.sched.tasks i).kernelStack ≠ 0
  balance : ∀ x, r.run.sched.Balanced r.calls x

namespace StackRun
variable {r r' : StackRun} {h : HeapRun} {kernelPml4 : Nat}

theorem headersClear (hinv : h.Inv) : KHeap.HeadersClear h.heap.blocks := by
  refine ⟨List.pairwise_map.mpr (hinv.laid.apart.imp fun {b c} hap => ?_), fun b hb => ?_⟩
  · simp only [Apart, KBlock.stop] at hap
    unfold KHeap.Clear
    omega
  · obtain ⟨p, hp, hbase, hstop⟩ := hinv.laid.inRun b hb
    have := hinv.runs.fits p hp
    unfold KBlock.stop at hstop
    omega

theorem header_outside (hinv : h.Inv) {x size : Nat} (hx : (x, size) ∈ h.live) {b : KBlock} (hb : b ∈ h.heap.blocks) :
    b.addr + 32 ≤ x ∨ x + size ≤ b.addr := by
  obtain ⟨c, hc, -, hcx, hsize⟩ := hinv.live _ hx
  dsimp only at hcx hsize
  by_cases hbc : b = c
  · subst hbc
    omega
  · have hap := hinv.laid.apart.forall hb hc hbc
    simp only [Apart, KBlock.stop] at hap
    omega

theorem Inv.kfree (hi : r.Inv h) {slot : Nat} (hslot : slot < maxTasks)
    (hm : (r.run.sched.tasks slot).kernelStack ≠ 0 → h.MergesInside (.free (r.run.sched.tasks slot).kernelStack))
    {h₁ : KHeap} (hf : r.heap.kfree (r.run.sched.tasks slot).kernelStack = .ok h₁) :
    ∃ t, TaskStacks t (r.run.sched.modify slot fun t => { t with kernelStack := 0 }) ∧ h₁.Lists t.heap.blocks ∧
      h₁.ready = true ∧
      h₁.runs = t.runs := by
  generalize hptr : (r.run.sched.tasks slot).kernelStack = ptr at *
  have hlive (h0 : ptr ≠ 0) : (ptr, 16384) ∈ h.live := by
    have := hi.tasks.stack slot hslot
    rw [hptr] at this
    exact this h0
  have hclear := headersClear hi.tasks.heap
  obtain ⟨h₁', hf', hl, hready, hruns⟩ := hi.lists.kfree hclear (p := ptr) (fun h0 => by
    obtain ⟨b, hb, -, hbp, -⟩ := hi.tasks.heap.live _ (hlive h0)
    rw [show ptr - 32 = b.addr by dsimp only at hbp; omega]
    exact hclear.eq_or_clear hb) h.heap.ready
  obtain rfl := Except.ok.inj (hf'.symm.trans hf)
  have hready := hready.trans hi.ready
  have hruns := hruns.trans hi.runs
  by_cases h0 : ptr = 0
  · have hst : TaskStacks h (r.run.sched.modify slot fun t => { t with kernelStack := 0 }) :=
      hi.tasks.free hslot (fun hne => absurd (hptr.trans h0) hne) (by rw [if_pos (hptr.trans h0)])
    rw [h0] at hl
    exact ⟨h, hst, hl, hready, hruns⟩
  · refine ⟨⟨h.heap.kfree ptr, h.runs, h.live.filter fun a => a.1 ≠ ptr⟩,
      hi.tasks.free hslot (by rw [hptr]; exact hm) ?_, hl, hready, hruns⟩
    rw [hptr, if_neg h0]
    exact ⟨⟨16384, hlive h0⟩, rfl, rfl, rfl⟩

theorem kmalloc_stack {s : Sched} {t : HeapRun} {h₁ h₂ : KHeap} {ptr page : Nat} (ht : TaskStacks t s)
    (hl : h₁.Lists t.heap.blocks) (hready : h₁.ready = true) (hruns : h₁.runs = t.runs)
    (hk : h₁.kmalloc 16384 page = .ok (ptr, h₂)) (hok : RunsOk h₂.runs) :
    ∃ t', TaskStacks t' s ∧ h₂.Lists t'.heap.blocks ∧ h₂.ready = true ∧ h₂.runs = t'.runs ∧
      (ptr ≠ 0 → (ptr, 16384) ∈ t'.live ∧ ∀ i < maxTasks, (s.tasks i).kernelStack ≠ ptr) := by
  have hclear := headersClear ht.heap
  have hgrow := hl.kmalloc_runs hclear hk t.live
  rw [hready, hruns] at hgrow
  have hheap : (⟨t.heap.blocks, true⟩ : Heap) = t.heap := by rw [← ht.heap.ready]
  rw [hheap] at hgrow
  obtain ⟨⟨p, heap⟩, hlist⟩ : ∃ res, t.heap.kmalloc 16384 page = .ok res := by
    unfold Heap.kmalloc
    rw [if_neg (by decide), if_neg (by simp [ht.heap.ready])]
    dsimp only
    split
    · exact ⟨_, rfl⟩
    · split <;> exact ⟨_, rfl⟩
  have hstep : t.step (.malloc 16384 page) ⟨heap, t.grow 16384 page, if p = 0 then t.live else (p, 16384) :: t.live⟩ :=
    ⟨by decide, rfl, hgrow ▸ hok, p, hlist, rfl⟩
  obtain ⟨ht', hnew⟩ := ht.malloc hstep hlist
  obtain ⟨h₂', hk', hl', hready'⟩ := hl.kmalloc hready hclear (hheap ▸ hlist) (headersClear ht'.heap)
  obtain ⟨rfl, rfl⟩ := Prod.mk.inj (Except.ok.inj (hk'.symm.trans hk))
  exact ⟨_, ht', hl', hready', hgrow, hnew⟩

theorem Inv.create (hi : r.Inv h) {n : NewTask} {page : Nat} (hm : r.MergesInside (.create n page))
    (hs : r.Creates n page r') :
    ∃ h', r'.Inv h' := by
  obtain ⟨hcan, hs⟩ := hs
  cases hf : r.run.sched.findFreeSlot with
  | none =>
    rw [hf] at hs
    exact ⟨h, (show r' = r from hs) ▸ hi⟩
  | some found =>
    obtain ⟨slot, freed, s₁⟩ := found
    rw [hf] at hs
    obtain ⟨h₁, ptr, h₂, hfree, hk, hok, rfl⟩ := hs
    obtain ⟨hslot, hdead, rfl, rfl⟩ := Sched.findFreeSlot_eq_some hf
    obtain ⟨t, ht, hl₁, hready₁, hruns₁⟩ := hi.kfree hslot (fun h0 => by
      have hmerge := hm slot _ _ _ hf h0 hi.lists
      rw [hi.runs] at hmerge
      exact hmerge) hfree
    obtain ⟨t', ht', hl₂, hready₂, hruns₂, hnew⟩ := kmalloc_stack ht hl₁ hready₁ hruns₁ hk hok
    refine ⟨t', ?_, ?_, ?_, ?_, fun i hx hstate => ?_, fun i hx hmay => ?_, fun x => ?_⟩
    · dsimp only
      split
      · exact hl₂
      · rename_i h0
        obtain ⟨hlive, -⟩ := hnew h0
        obtain ⟨-, p, hp, -, hstop⟩ := ht'.heap.sound.inside _ hlive
        have hfits := ht'.heap.runs.fits p hp
        exact hl₂.newStack (ht'.heap.sound.aligned _ hlive) (by dsimp only at hstop; omega) _
          (KHeap.wipe_of_clear fun b hb => header_outside ht'.heap hlive hb)
    · dsimp only
      split <;> exact hready₂
    · dsimp only
      split <;> exact hruns₂
    · dsimp only
      rw [Sched.taskCreate_of_slot hf]
      split
      · exact ht'
      · rename_i h0
        exact ht'.install (hnew h0).1 (hnew h0).2
    · dsimp only at hstate ⊢
      rw [Sched.taskCreate_kernelStack hf]
      rcases Sched.taskCreate_new hf hstate with ⟨rfl, h0⟩ | ⟨his, hold⟩
      · rw [if_pos rfl, h0]
      · rw [if_neg his]
        exact hi.fresh i hx hold
    · dsimp only at hmay ⊢
      rw [Sched.taskCreate_kernelStack hf]
      rcases Sched.taskCreate_mayRun hf (Sched.not_mayRun hcan hdead) hmay with ⟨rfl, h0⟩ | ⟨his, hold⟩
      · rwa [if_pos rfl]
      · rw [if_neg his]
        exact hi.owned i hx hold
    · refine (hi.balance x).create hslot (fun i hx his h0 => hi.tasks.distinct slot hslot i hx his.symm h0)
        (fun h0 i hx his => ?_) fun i => Sched.taskCreate_kernelStack hf i
      have hne := (hnew h0).2 i hx
      rwa [Sched.modify_tasks_of_ne his] at hne

theorem Inv.step (hi : r.Inv h) {e : StackEvent} (hm : r.MergesInside e) (hs : r.step kernelPml4 e r') :
    ∃ h', r'.Inv h' := by
  cases e with
  | create n page => exact hi.create hm hs.2
  | call e =>
    obtain ⟨he, hrun, hspares, hcalls⟩ := hs
    have hkeep := Sched.SchedRun.keepsStacks he hrun
    refine ⟨h, ?_, hspares.ready.trans hi.ready, hspares.runs.trans hi.runs, hi.tasks.congr hkeep.stack,
      fun i hx hnew => ?_, fun i hx hmay => ?_, fun x => ?_⟩
    · unfold KHeap.Lists
      rw [hspares.head]
      refine hi.lists.congr fun b hb => KHeap.header_congr fun a ha ha' => hspares.mem a ?_ ?_
      · obtain ⟨p, hp, hbase, hstop⟩ := hi.tasks.heap.laid.inRun b hb
        unfold KBlock.stop at hstop
        exact ⟨p, hi.runs ▸ hp, by omega, by omega⟩
      · rintro ⟨i, hx, h0, hle, hlt⟩
        have := header_outside hi.tasks.heap (hi.tasks.stack i hx h0) hb
        omega
    · rw [hkeep.stack]
      exact hi.fresh i hx (hkeep.begun i hnew)
    · rw [hkeep.stack]
      exact hi.owned i hx (hkeep.mayRun i hmay)
    · have := hi.balance x
      unfold Sched.Balanced Sched.Holds at this ⊢
      simp only [hkeep.stack, hcalls]
      exact this

theorem Inv.init (kernelPml4 : Nat) (hr : (stackRuns kernelPml4).init r) : ∃ h, r.Inv h := by
  obtain ⟨⟨cr3, hrun⟩, ⟨m, page, pages, h₀, hok, hinit, htests⟩, hcalls⟩ := hr
  have htask (i : Nat) : r.run.sched.tasks i = .blank := by
    rw [hrun]
    rfl
  have hnone (x : Nat) : ¬r.run.sched.Holds x := by
    rintro ⟨h0, i, -, hx⟩
    rw [htask] at hx
    exact h0 hx.symm
  have hfits := hok.fits _ (List.mem_singleton_self _)
  have hbase : (expandRun 4096 page).base = page * 4096 := rfl
  have hstop : (expandRun 4096 page).stop = page * 4096 + 8192 := rfl
  obtain ⟨h₀', h₁, hinit', htests', hl, hready, hruns⟩ := KHeap.exists_smokeTests m page (by omega) (by omega) pages
  obtain rfl := Except.ok.inj (hinit'.symm.trans hinit)
  obtain hheap := Except.ok.inj (htests'.symm.trans htests)
  rw [hheap] at hl hready hruns
  refine ⟨⟨⟨[⟨page * 4096, 960, true⟩, ⟨page * 4096 + 992, 7168, true⟩], true⟩, [expandRun 4096 page], []⟩, hl,
    hready, hruns, ⟨.smokeTests hok, fun i _ hne => ?_, fun i _ j _ _ hne => ?_⟩, fun i _ _ => ?_, fun i _ hmay => ?_,
      fun x => .inr ⟨hnone x, ?_⟩⟩
  · rw [htask] at hne
    exact absurd rfl hne
  · rw [htask] at hne
    exact absurd rfl hne
  · rw [htask]
    rfl
  · rcases hmay with hlive | hcur
    · rw [htask] at hlive
      exact absurd hlive (by decide)
    · rw [hrun] at hcur
      cases hcur
  · rw [hcalls]
    rfl

/-- What the task table and the heap may rely on of each other. `MayRun` covers the live tasks and the one whose code
    runs. -/
structure Sound (kernelPml4 : Nat) (r : StackRun) : Prop where
  slot : ∀ slot freed s, r.run.sched.findFreeSlot = some (slot, freed, s) → slot < maxTasks ∧
    ¬(r.run.sched.tasks slot).Live
  full : r.run.sched.findFreeSlot = none → ∀ i < maxTasks, (r.run.sched.tasks i).Live
  stack : ∀ i < maxTasks, (r.run.sched.tasks i).Live → (r.run.sched.tasks i).kernelStack ≠ 0
  distinct : ∀ i < maxTasks, ∀ j < maxTasks, i ≠ j → (r.run.sched.tasks i).Live → (r.run.sched.tasks j).Live →
    (r.run.sched.tasks i).kernelStack ≠ (r.run.sched.tasks j).kernelStack
  once : ∀ x, r.calls.count (.kfree x) ≤ r.calls.count (.kmalloc x) ∧
    r.calls.count (.kmalloc x) ≤ r.calls.count (.kfree x) + 1
  kept : ∀ x, r.calls.count (.kmalloc x) = r.calls.count (.kfree x) + 1 ↔
    x ≠ 0 ∧ ∃ i < maxTasks, (r.run.sched.tasks i).kernelStack = x
  reuse : ∀ e r', r.step kernelPml4 e r' → ∀ x, r'.calls.count (.kfree x) ≠ r.calls.count (.kfree x) →
    ∃ slot < maxTasks, (∃ s, r.run.sched.findFreeSlot = some (slot, x, s)) ∧ (r.run.sched.tasks slot).state = .zombie ∧
      (r.run.sched.tasks slot).kernelStack = x ∧ ¬r.run.sched.MayRun slot ∧
      ∀ j < maxTasks, j ≠ slot → (r.run.sched.tasks j).kernelStack ≠ x

/-- A step frees only the stack of the slot that it reuses. -/
theorem kfree_of_step {e : StackEvent} {x : Nat} (hs : r.step kernelPml4 e r')
    (hx : r'.calls.count (.kfree x) ≠ r.calls.count (.kfree x)) :
    (r.run.sched.currentTid < 0 ∨ (r.run.sched.tasks r.run.sched.current).state = .running) ∧
    ∃ slot s, r.run.sched.findFreeSlot = some (slot, x, s) ∧ x ≠ 0 := by
  cases e with
  | call e =>
    obtain ⟨-, -, -, hcalls⟩ := hs
    exact absurd (by rw [hcalls]) hx
  | create n page =>
    obtain ⟨-, hcan, hs⟩ := hs
    refine ⟨hcan, ?_⟩
    cases hf : r.run.sched.findFreeSlot with
    | none =>
      rw [hf] at hs
      exact absurd (by rw [show r' = r from hs]) hx
    | some found =>
      obtain ⟨slot, freed, s⟩ := found
      rw [hf] at hs
      obtain ⟨h₁, ptr, h₂, -, -, -, hr'⟩ := hs
      rw [hr'] at hx
      dsimp only at hx
      rw [List.count_append, (count_createCalls freed ptr x).2] at hx
      split at hx
      · rename_i hfreed
        exact ⟨slot, s, by rw [hfreed.2], hfreed.1⟩
      · omega

theorem Inv.sound (hi : r.Inv h) : r.Sound kernelPml4 where
  slot slot freed s hf := by
    obtain ⟨hslot, hdead, -⟩ := Sched.findFreeSlot_eq_some hf
    exact ⟨hslot, hdead⟩
  full := Sched.findFreeSlot_eq_none hi.fresh
  stack i hx hlive := hi.owned i hx (Or.inl hlive)
  distinct i hx j hj hij hlive _ := hi.tasks.distinct i hx j hj hij (hi.owned i hx (Or.inl hlive))
  once x := by
    rcases hi.balance x with ⟨-, h⟩ | ⟨-, h⟩ <;> omega
  kept x := by
    rcases hi.balance x with ⟨hheld, h⟩ | ⟨hheld, h⟩
    · exact ⟨fun _ => hheld, fun _ => h⟩
    · exact ⟨fun h' => absurd (h.symm.trans h') (by omega), fun h' => absurd h' hheld⟩
  reuse e r' hs x hx := by
    obtain ⟨hcan, slot, s, hf, hne⟩ := kfree_of_step hs hx
    obtain ⟨hslot, hdead, rfl, -⟩ := Sched.findFreeSlot_eq_some hf
    refine ⟨slot, hslot, ⟨s, hf⟩, ?_, rfl, Sched.not_mayRun hcan hdead, fun j hj hjs => ?_⟩
    · have hnew : (r.run.sched.tasks slot).state ≠ .new := fun hnew => hne (hi.fresh slot hslot hnew)
      unfold Task.Live at hdead
      cases hst : (r.run.sched.tasks slot).state <;> simp_all
    · exact (hi.tasks.distinct slot hslot j hj (Ne.symm hjs) hne).symm

end StackRun

/-- In every run whose merges stay inside one page run, `find_free_slot` finds a slot without a live task unless there
    is none, live tasks have stacks of their own, and each stack that `kmalloc` returned is freed at most once, when
    the slot of its ended task is reused. -/
theorem task_stacks_sound {kernelPml4 : Nat} {r : StackRun}
    (h : ((stackRuns kernelPml4).guard StackRun.MergesInside).Reachable r) :
    r.Sound kernelPml4 := by
  obtain ⟨t, hinv⟩ := h.invariant (I := fun r => ∃ t, r.Inv t) (fun h₀ => StackRun.Inv.init kernelPml4 h₀)
    fun ⟨_, hinv⟩ hs => hinv.step hs.1 hs.2
  exact hinv.sound

end SamOS
