import SamOS.Context

/-! Task stacks on the heap: the stacks of the task table are distinct live allocations, through the `kfree` and the
    `kmalloc` of a task creation. -/

namespace SamOS
open Heap Sched

theorem Sched.stackTop_eq {stack : Nat} (ha : stack % 16 = 0) (hlt : stack + 16384 < 2 ^ 64) :
    Sched.stackTop stack = stack + 16384 ∧ Sched.initialRsp stack = stack + 16208 := by
  unfold Sched.initialRsp Sched.stackTop
  omega

theorem Sched.modify_kernelStack {s : Sched} {i : Nat} {f : Task → Task} (hf : ∀ t, (f t).kernelStack = t.kernelStack)
    (j : Nat) :
    ((s.modify i f).tasks j).kernelStack = (s.tasks j).kernelStack := by
  by_cases hj : j = i
  · rw [hj, modify_tasks_same, hf]
  · rw [modify_tasks_of_ne hj]

theorem Context.newStack_of_outside {m : Nat → Word} {stack a : Nat} {f : InterruptFrame} (ha : stack % 16 = 0)
    (hlt : stack + 16384 < 2 ^ 64) (h : a < stack ∨ stack + 16384 ≤ a) : newStack m stack f a = m a := by
  unfold newStack
  rw [InterruptFrame.store_of_outside, if_neg (by omega)]
  rw [(stackTop_eq ha hlt).2]
  unfold InterruptFrame.size
  omega

namespace Sched

/-! ### Calls that create no task -/

/-- The slot is that of a task that may run: a live one, or the current one, which a switch resumes if it finds no
    other. -/
def MayRun (s : Sched) (i : Nat) : Prop := (s.tasks i).Live ∨ (i : Int) = s.currentTid

/-- No stack moves, no slot is cleared, and no task that had ended may run again. -/
structure KeepsStacks (s s' : Sched) : Prop where
  stack : ∀ i, (s'.tasks i).kernelStack = (s.tasks i).kernelStack
  begun : ∀ i, (s'.tasks i).state = .new → (s.tasks i).state = .new
  mayRun : ∀ i, s'.MayRun i → s.MayRun i

namespace KeepsStacks
variable {s s' s'' : Sched} {kernelPml4 : Nat}

theorem refl (s : Sched) : KeepsStacks s s := ⟨fun _ => rfl, fun _ h => h, fun _ h => h⟩

theorem trans (h : KeepsStacks s s') (h' : KeepsStacks s' s'') : KeepsStacks s s'' :=
  ⟨fun i => (h'.stack i).trans (h.stack i), fun i hi => h.begun i (h'.begun i hi),
    fun i hi => h.mayRun i (h'.mayRun i hi)⟩

theorem modify {i : Nat} {f : Task → Task} (hstack : ∀ t, (f t).kernelStack = t.kernelStack)
    (hnew : (f (s.tasks i)).state = .new → (s.tasks i).state = .new) (hrun : (f (s.tasks i)).Live → s.MayRun i) :
    KeepsStacks s (s.modify i f) := by
  refine ⟨modify_kernelStack hstack, fun j hj => ?_, fun j hj => ?_⟩
  · by_cases hji : j = i
    · subst hji
      rw [modify_tasks_same] at hj
      exact hnew hj
    · rwa [modify_tasks_of_ne hji] at hj
  · by_cases hji : j = i
    · subst hji
      unfold MayRun at hj
      rw [modify_tasks_same, modify_currentTid] at hj
      exact hj.elim hrun Or.inr
    · unfold MayRun at hj ⊢
      rwa [modify_tasks_of_ne hji, modify_currentTid] at hj

theorem current (h : 0 ≤ s.currentTid) {f : Task → Task} (hstack : ∀ t, (f t).kernelStack = t.kernelStack)
    (hnew : (f (s.tasks s.current)).state = .new → (s.tasks s.current).state = .new) :
    KeepsStacks s (s.modify s.current f) :=
  .modify hstack hnew fun _ => Or.inr ((current_eq_iff h).mpr rfl)

theorem suspend (s : Sched) (rsp : Nat) : KeepsStacks s (s.suspend rsp) := by
  unfold Sched.suspend
  split
  · rename_i hc
    refine .current hc (fun _ => rfl) fun hnew => ?_
    dsimp only at hnew
    split at hnew
    · cases hnew
    · exact hnew
  · exact .refl s

theorem contextSwitchFrom {rsp next : Nat} (h : s.contextSwitchFrom kernelPml4 rsp = .ok (next, s')) :
    KeepsStacks s s' := by
  have hsus := suspend s rsp
  rcases contextSwitchFrom_cases h with ⟨-, -, -, rfl⟩ | ⟨-, hc, -, rfl⟩ | ⟨i, cr3, hpick, -, -, -, rfl⟩
  · exact hsus
  · rw [← suspend_current s rsp]
    exact hsus.trans (.current (by rwa [suspend_currentTid]) (fun _ => rfl) nofun)
  · -- the task that is picked was live, and the one that it replaces no longer counts as the current one
    have hlive : ((s.suspend rsp).tasks i).Live := (pickNextRunnable_eq_some hpick).2.imp id Or.inl
    refine hsus.trans ⟨fun j => ?_, fun j hj => ?_, fun j hj => ?_⟩ <;> by_cases hji : j = i
    · rw [hji, switchedTo_tasks_same]
    · rw [switchedTo_tasks_of_ne hji]
    · rw [hji, switchedTo_tasks_same] at hj
      cases hj
    · rwa [switchedTo_tasks_of_ne hji] at hj
    · rw [hji]
      exact Or.inl hlive
    · unfold MayRun at hj
      rw [switchedTo_tasks_of_ne hji, switchedTo_currentTid] at hj
      exact Or.inl (hj.resolve_right (by omega))

theorem scheduleOnTick {rsp next : Nat} (h : s.scheduleOnTick kernelPml4 rsp = .ok (next, s')) : KeepsStacks s s' := by
  have hticks (n : Nat) : KeepsStacks s { s with sliceTicks := n } := ⟨fun _ => rfl, fun _ h => h, fun _ h => h⟩
  rcases scheduleOnTick_cases h with ⟨-, -, rfl⟩ | ⟨-, h⟩
  · exact hticks _
  · exact (hticks 0).trans (contextSwitchFrom h)

theorem syscallReturn {frame next : Nat} {ret : BitVec 64} (h : s.syscallReturn kernelPml4 frame ret = .ok (next, s')) :
    KeepsStacks s s' := by
  rcases syscallReturn_cases h with ⟨-, -, h⟩ | ⟨-, -, rfl⟩
  · rcases s.offered_cases with he | ⟨hc, -, -, he⟩ <;> rw [he] at h
    · exact contextSwitchFrom h
    · refine KeepsStacks.trans ?_ (contextSwitchFrom h)
      exact .current hc (fun _ => rfl) nofun
  · exact .refl _

theorem sysExit (s : Sched) (code : Int) : KeepsStacks s (s.sysExit code) := by
  unfold Sched.sysExit
  split
  · exact .refl s
  · exact .current (by omega) (fun _ => rfl) nofun

theorem taskSleep (h : s.taskSleep = .ok s') : KeepsStacks s s' := by
  obtain ⟨hc, rfl⟩ := taskSleep_eq_ok h
  exact .current hc (fun _ => rfl) nofun

theorem taskExit {code : Int} (h : s.taskExit code = .ok s') : KeepsStacks s s' := by
  obtain ⟨hc, rfl⟩ := taskExit_eq_ok h
  exact .current hc (fun _ => rfl) nofun

theorem taskWake (s : Sched) (tid : Int) : KeepsStacks s (s.taskWake tid) := by
  rcases s.taskWake_cases tid with he | ⟨-, hw, he⟩ <;> rw [he]
  · exact .refl s
  · exact .modify (fun _ => rfl) nofun fun _ => Or.inl (Or.inr (Or.inr hw))

theorem taskKillPid (s : Sched) (pid code : Int) : KeepsStacks s (s.taskKillPid pid code).2 := by
  rcases s.taskKillPid_eq pid code with he | ⟨i, -, -, he⟩ <;> rw [he]
  · exact .refl s
  · exact .modify (fun _ => rfl) nofun fun h => by rcases h with h | h | h <;> cases h

end KeepsStacks

end Sched

/-- The task stacks are distinct live allocations. -/
structure TaskStacks (h : HeapRun) (s : Sched) : Prop where
  heap : h.Inv
  stack : ∀ t < maxTasks, (s.tasks t).kernelStack ≠ 0 → ((s.tasks t).kernelStack, 16384) ∈ h.live
  distinct : ∀ t < maxTasks, ∀ u < maxTasks, t ≠ u → (s.tasks t).kernelStack ≠ 0 →
    (s.tasks t).kernelStack ≠ (s.tasks u).kernelStack

namespace TaskStacks
variable {h h' : HeapRun} {s s' : Sched} {slot page : Nat}

theorem congr (hst : TaskStacks h s) (hs : ∀ t, (s'.tasks t).kernelStack = (s.tasks t).kernelStack) :
    TaskStacks h s' := by
  refine ⟨hst.heap, ?_, ?_⟩ <;> simp only [hs]
  · exact hst.stack
  · exact hst.distinct

theorem free (hst : TaskStacks h s) (hslot : slot < maxTasks)
    (hm : (s.tasks slot).kernelStack ≠ 0 → h.MergesInside (.free (s.tasks slot).kernelStack))
    (hfree : if (s.tasks slot).kernelStack = 0 then h' = h else h.step (.free (s.tasks slot).kernelStack) h') :
    TaskStacks h' (s.modify slot fun t => { t with kernelStack := 0 }) := by
  have hother : ∀ {t}, ((s.modify slot fun t => { t with kernelStack := 0 }).tasks t).kernelStack ≠ 0 →
      t ≠ slot ∧ (s.tasks t).kernelStack ≠ 0 := fun {t} ht => by
    by_cases hts : t = slot
    · rw [hts, modify_tasks_same] at ht
      exact absurd rfl ht
    · rw [modify_tasks_of_ne hts] at ht
      exact ⟨hts, ht⟩
  refine ⟨?_, fun t ht hs => ?_, fun t ht u hu htu hs => ?_⟩
  · split at hfree
    · exact hfree ▸ hst.heap
    · rename_i h0
      exact hst.heap.free (hm h0) hfree
  · obtain ⟨hts, hs'⟩ := hother hs
    rw [modify_tasks_of_ne hts]
    split at hfree
    · exact hfree ▸ hst.stack t ht hs'
    · rw [hfree.2.2.2, List.mem_filter]
      exact ⟨hst.stack t ht hs', by simpa using hst.distinct t ht slot hslot hts hs'⟩
  · obtain ⟨hts, hs'⟩ := hother hs
    rw [modify_tasks_of_ne hts]
    by_cases hus : u = slot
    · rw [hus, modify_tasks_same]
      exact hs'
    · rw [modify_tasks_of_ne hus]
      exact hst.distinct t ht u hu htu hs'

theorem malloc (hst : TaskStacks h s) {ptr : Nat} (hs : h.step (.malloc 16384 page) h')
    (hk : h.heap.kmalloc 16384 page = .ok (ptr, h'.heap)) :
    TaskStacks h' s ∧ (ptr ≠ 0 → (ptr, 16384) ∈ h'.live ∧ ∀ t < maxTasks, (s.tasks t).kernelStack ≠ ptr) := by
  have hinv := hst.heap.malloc hs
  obtain ⟨-, -, -, ptr', hk', hlive⟩ := hs
  obtain rfl : ptr' = ptr := by
    rw [hk] at hk'
    injection hk' with hk'
    exact (Prod.mk.inj hk').1.symm
  by_cases hp : ptr' = 0
  · rw [if_pos hp] at hlive
    exact ⟨⟨hinv, by rw [hlive]; exact hst.stack, hst.distinct⟩, fun hp' => absurd hp hp'⟩
  · have hd := hinv.distinct
    rw [if_neg hp] at hlive
    rw [hlive] at hd
    refine ⟨⟨hinv, fun t ht hs => ?_, hst.distinct⟩, fun _ => ⟨?_, fun t ht he => ?_⟩⟩
    · rw [hlive]
      exact List.mem_cons_of_mem _ (hst.stack t ht hs)
    · rw [hlive]
      exact List.mem_cons_self
    · exact (List.nodup_cons.mp hd).1 (List.mem_map.mpr ⟨_, hst.stack t ht (he ▸ hp), he⟩)

theorem install (hst : TaskStacks h s) {task : Task} (hlive : (task.kernelStack, 16384) ∈ h.live)
    (hne : ∀ t < maxTasks, (s.tasks t).kernelStack ≠ task.kernelStack) :
    TaskStacks h (s.modify slot fun _ => task) := by
  refine ⟨hst.heap, fun t ht hs => ?_, fun t ht u hu htu hs => ?_⟩
  · by_cases hts : t = slot
    · rw [hts, modify_tasks_same]
      exact hlive
    · rw [modify_tasks_of_ne hts] at hs ⊢
      exact hst.stack t ht hs
  · by_cases hts : t = slot
    · rw [hts, modify_tasks_same, modify_tasks_of_ne (by omega)]
      exact (hne u hu).symm
    · rw [modify_tasks_of_ne hts] at hs ⊢
      by_cases hus : u = slot
      · rw [hus, modify_tasks_same]
        exact hne t ht
      · rw [modify_tasks_of_ne hus]
        exact hst.distinct t ht u hu htu hs

end TaskStacks
end SamOS
