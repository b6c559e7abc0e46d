import SamOS.KernelRuns

/-! What holds of processes in every run in which no interrupt stops the shell inside a call, and what goes wrong in
    the others: the two tables agree, and page tables in use are not freed. -/

namespace SamOS
open Function Lts Result

namespace Kernel

/-! ### The tables agree -/

/-- In every run with fewer than `2 ^ 31 - 1` spawns in which no interrupt stops the shell inside a call, the process
    table and the task table agree whenever the shell is in no call. -/
theorem process_table_agrees {fw : Platform} {img : KernelImage} {es : List KernelEvent} {k : Kernel}
    (h : ((kernels fw img).guard Undisturbed).Run es k) (hn : es.countP spawns < 2 ^ 31 - 1) (hi : k.shell = .idle) :
    k.TablesAgree := by
  have hinv : es.countP spawns < 2 ^ 31 - 1 → k.TableInv ∧ k.nextPid.toNat ≤ 1 + es.countP spawns := by
    refine h.invariant (I := fun es k => es.countP spawns < 2 ^ 31 - 1 → k.TableInv ∧
      k.nextPid.toNat ≤ 1 + es.countP spawns)
      ?_ ?_
    · rintro k ⟨mem, bytes, shellEntry, idleEntry, hb⟩ -
      obtain ⟨h1, h2⟩ := TableInv.boot hb
      exact ⟨h1, by rw [h2]; simp⟩
    · rintro es k e k' ih ⟨hok, hs⟩ hlt
      rw [List.countP_cons] at hlt ⊢
      obtain ⟨h1, h2⟩ := ih (by omega)
      obtain ⟨h3, h4⟩ := h1.step (fun he => by rw [he] at hlt; simp only [if_true] at hlt; omega) hok hs
      exact ⟨h3, by omega⟩
  exact (hinv hn).1.tablesAgree hi

/-- A process of `kernel_main`. -/
theorem process_table_agrees_sample : ∃ k, (sampleKernels.guard Undisturbed).Run [.bootSpawn bareImage] k ∧
    (k.procs 0).Active ∧ k.TablesAgree := by
  obtain ⟨k₀, k, _, _, _, _, _, prog, h₀, -, hs, hproc, hsh, -⟩ := exists_spawned fun _ _ => 0
  have hs' : (sampleKernels.guard Undisturbed).step k₀ (.bootSpawn bareImage) k := ⟨hs.1.undisturbed, hs.2⟩
  have hrun : (sampleKernels.guard Undisturbed).Run [.bootSpawn bareImage] k := ⟨k₀, h₀, System.Path.nil.snoc hs'⟩
  refine ⟨k, hrun, ?_, process_table_agrees hrun (by decide) hsh⟩
  rw [hproc.procs, update_self]
  exact ⟨rfl, rfl⟩

/-- A process that has ended does not run as any task. -/
theorem not_tablesAgree {k : Kernel} {t : Nat} (hp : (k.procs 0).Active) (ht : (k.procs 0).mainTid = t)
    (hz : (k.sched.tasks t).state = .zombie) : ¬k.TablesAgree := fun h => by
  obtain ⟨u, -, hrun⟩ := (h.active 0 (by decide)).mp hp
  have htu : t = u := by
    have := ht.symm.trans hrun.tid
    omega
  have hlive := hrun.live.1
  rw [← htu] at hlive
  simp [Task.Live, hz] at hlive

theorem exists_shell (mem : Mem) :
    ∃ k₀ k use t₀ t₁, sampleKernels.init k₀ ∧ sampleKernels.step k₀ .schedule k ∧ k.Idle use t₀ t₁ 0 ∧
    k.shell = .idle ∧ t₀.state = .running ∧ t₀.isUser = false ∧ t₁.state = .runnable ∧ t₁.isUser = false := by
  obtain ⟨k₀, use, stack₀, stack₁, hb, hidle, hsh⟩ := exists_idle mem
  obtain ⟨k, hs, hproc, hm, hn, hsh'⟩ := hidle.oneProcess.schedule rfl rfl rfl hidle.kernelPml4_ne_zero
  obtain ⟨-, use', hi⟩ := (memInv_init (sampleKernels_init hb)).step
    (.plain (fun hne => absurd hsh hne) rfl rfl (fun _ _ _ h => by cases h)) hs
  exact ⟨k₀, k, use', _, _, sampleKernels_init hb, hs,
    ⟨hi.memory, by rw [hm]; exact hidle.room, hproc.sched, Or.inr (Or.inl rfl), Or.inl rfl,
      by rw [hproc.procs]; exact update_eq_self 0 _, hn.trans hidle.nextPid⟩,
    hsh'.trans hsh, rfl, rfl, rfl, rfl⟩

/-- The clock stops the shell between the creation of a task and the write of its entry, and the process exits before
    the shell goes on. Then the entry is used and not exited for ever. -/
theorem process_table_disagrees : ∃ es k, sampleKernels.Run es k ∧ es.countP spawns = 1 ∧ k.shell = .idle ∧
    (k.procs 0).Active ∧ (k.sched.tasks 2).state = .zombie ∧ ¬k.TablesAgree := by
  obtain ⟨k₀, k, use, t₀, t₁, h₀, hs, hidle, hsh, hrun₀, hu₀, hrun₁, hu₁⟩ := exists_shell fun _ _ => 0
  obtain ⟨prog, r, k', use', hsp, -⟩ := hidle.spawn
  obtain ⟨m, cr3, hsched⟩ := hidle.sched
  obtain ⟨stack, hsched'⟩ := hsp.sched
  obtain ⟨hprocs, -, -⟩ := hsp.tables
  have hone : k.nextPid.toInt = 1 := by
    rw [hidle.nextPid]
    decide
  have hprep := hsp.prepared
  rw [hone] at hprep hsched'
  -- The task is there, and the entry is not.
  have hspawn : sampleKernels.step k (.spawn bareImage) (k'.withShell (.record 0 (prog.process 1 2))) := by
    refine ⟨?_, hsh, ?_⟩
    · unfold InShell
      rw [hsched]
      exact ⟨rfl, hrun₀⟩
    · unfold shellSpawn
      rw [hprep]
      rfl
  have hproc : (k'.withShell (.record 0 (prog.process 1 2))).OneProcess t₀ t₁
      (Sched.created stack 1 r true (.page prog.space)) 0 .blank := by
    refine ⟨⟨m, cr3, ?_⟩, ?_⟩
    · rw [withShell_sched, hsched', hsched, Sched.install, Sched.modify_three (by decide)]
      rfl
    · rw [withShell_procs, hprocs, hidle.procs]
      exact (update_eq_self 0 _).symm
  have hk : k'.machine.kernelPml4 ≠ 0 := by
    rw [hsp.kernelPml4]
    exact hidle.kernelPml4_ne_zero
  have hr : r ≠ 0 := hsp.root_ne_zero
  -- The clock: the idle task, then the process, which exits.
  obtain ⟨k₁, hp₁, hproc₁, hm₁, -, hsh₁⟩ : ∃ k₁, sampleKernels.Path _ _ k₁ ∧ _ := hproc.toIdle rfl hrun₀ hrun₁ hu₁ hk 0
  obtain ⟨k₂, hp₂, hproc₂, hm₂, -, hsh₂⟩ : ∃ k₂, sampleKernels.Path _ _ k₂ ∧ _ :=
    hproc₁.toUser rfl rfl rfl rfl (fun h => by cases h) hr 0
  obtain ⟨k₃, hexit, hproc₃, -, -, hsh₃⟩ := hproc₂.exitUnknown rfl hu₀ rfl rfl rfl (by rw [hm₂, hm₁]; exact hk)
    (show (4096 : Nat) ≠ 0 by decide) 0
  have hcall : k₃.shell = .record 0 (prog.process 1 2) := hsh₃.trans (hsh₂.trans hsh₁)
  have hs₃ : sampleKernels.step k₂ (.syscall 4096 (.exit 0)) k₃ := hexit
  obtain ⟨m₃, cr3₃, hsched₃⟩ := hproc₃.sched
  have hresume : sampleKernels.step k₃ .resume ((k₃.setProc 0 (prog.process 1 2)).withShell .idle) := by
    refine ⟨?_, by simp [hcall], ?_⟩
    · unfold InShell
      rw [hsched₃]
      exact ⟨rfl, rfl⟩
    · unfold resumeShell
      rw [hcall]
  have hentry : ((k₃.setProc 0 (prog.process 1 2)).withShell .idle).procs 0 = prog.process 1 2 := by
    rw [withShell_procs, setProc_procs, update_self]
  have hact : (((k₃.setProc 0 (prog.process 1 2)).withShell .idle).procs 0).Active := by
    rw [hentry]
    exact ⟨rfl, rfl⟩
  have hz : (((k₃.setProc 0 (prog.process 1 2)).withShell .idle).sched.tasks 2).state = .zombie := by
    rw [withShell_sched, setProc_sched, hsched₃]
    rfl
  refine ⟨_, _, ⟨k₀, h₀, ((((System.Path.nil.snoc hs).snoc hspawn).append hp₁).append hp₂).snoc hs₃ |>.snoc hresume⟩,
    rfl, rfl, hact, hz, not_tablesAgree hact (by rw [hentry]; rfl) hz⟩

/-! ### Page tables in use -/

/-- CR3 holds the kernel's PML4 or that of an address space that was not destroyed, every task that has not ended has
    such an address space, and no address space was destroyed twice. -/
structure PagesSafe (k : Kernel) : Prop where
  cr3 : k.sched.cr3 = k.machine.kernelPml4 ∨ ∃ a, alive k.machine.log a = true ∧ k.machine.pml4 (.page a) = k.sched.cr3
  tasks : ∀ t < maxTasks, (k.sched.tasks t).Live → (k.sched.tasks t).addressSpace = .kernel ∨
    ∃ a, (k.sched.tasks t).addressSpace = .page a ∧ alive k.machine.log a = true
  once : DestroyedOnce k.machine.log

theorem pagesSafe {k : Kernel} {procs : Nat → Process} {use : Nat → Use} (h : SpaceInv k procs use)
    (hr : k.sched.Ready) {next : Int} (ha : Agree k.sched procs next) : k.PagesSafe where
  cr3 := by
    by_cases hu : 0 ≤ k.sched.currentTid ∧ (k.sched.tasks k.sched.current).isUser = true
    · obtain ⟨a, -, hsp⟩ := h.current.user hu.1 hu.2
      exact Or.inr ⟨a, (h.memory.layout.live a).mpr ⟨_, hsp⟩, h.memory.layout.pml4_eq hsp⟩
    · exact Or.inl (h.current.kernel hu)
  tasks t ht hl := by
    by_cases h0 : t = 0
    · rw [h0]
      exact Or.inl hr.shell.2.2.2
    by_cases h1 : t = 1
    · rw [h1]
      exact Or.inl hr.idle.2.2.2
    have hlu : k.sched.LiveUser t := ⟨hl, hr.users t h0 h1 hl⟩
    obtain ⟨i, -, -, hrun⟩ := ha.entry_of_live ht hlu
    obtain ⟨a, -, hsp⟩ := hrun.space
    exact Or.inr ⟨a, hsp, (h.memory.layout.live a).mpr ⟨_, h.root t ht hlu a hsp⟩⟩
  once := h.memory.layout.once

/-- In every run whose steps are orderly, page tables in use are not freed: not in any state, and not in the reaping
    that a switch begins with, also when the current task has just exited. -/
theorem page_tables_in_use {fw : Platform} {image : KernelImage} {k : Kernel}
    (h : ((kernels fw image).guard Orderly).Reachable k) :
    k.PagesSafe ∧ (k.shell = .idle → k.processReapDeferred.PagesSafe ∧
      ∀ code, k.InUser → (k.sysExit code).PagesSafe ∧ (k.sysExit code).processReapDeferred.PagesSafe) := by
  obtain ⟨ht, use, hi⟩ := memInv_of_reachable h
  refine ⟨pagesSafe hi ht.ready ht.agree, fun hidle => ?_⟩
  rw [settle_of_idle hidle] at hi
  have hreap : ∀ {k : Kernel} {use : Nat → Use} {next : Int}, SpaceInv k k.procs use → k.sched.Ready →
    Agree k.sched k.procs next →
      k.processReapDeferred.PagesSafe := fun hi hr ha => by
    obtain ⟨use', hi', -⟩ := hi.processReapDeferred ha
    obtain ⟨ha', hs, -⟩ := agree_processReapDeferred ha
    exact pagesSafe hi' (by rw [hs]; exact hr) (by rw [hs]; exact ha')
  refine ⟨hreap hi ht.ready (ht.agree_of_idle hidle), fun code hu => ?_⟩
  have hi' := hi.sysExit ht hidle hu code
  obtain ⟨hr, ha, -⟩ := ht.exit hidle hu code
  exact ⟨pagesSafe hi' hr ha, hreap hi' hr ha⟩

/-- A process is spawned and killed, and the shell is about to reap it. -/
theorem page_tables_in_use_sample : ∃ k, (sampleKernels.guard Orderly).Reachable k ∧ (k.procs 0).reapPending = true ∧
    k.processReapDeferred.PagesSafe := by
  obtain ⟨k₀, k₁, k₂, -, prog, t₀, t₁, t₂, h₀, -, hs, hrun, hk⟩ := exists_killed fun _ _ => 0
  have hr : (sampleKernels.guard Orderly).Reachable k₂ := ⟨_, k₀, h₀, (System.Path.nil.snoc hs).append hrun⟩
  refine ⟨k₂, hr, ?_, ((page_tables_in_use hr).2 hk.shell).1⟩
  rw [hk.process.procs, update_self]

/-- The clock stops the shell's `process_reap_deferred` between `vmm_destroy_address_space` and the clearing of the
    entry, and the scheduler destroys the same address space again. -/
theorem address_space_destroyed_twice :
    ∃ es k a log, sampleKernels.Run es k ∧ k.machine.log = .destroy a :: .destroy a :: log ∧
    ¬k.PagesSafe := by
  obtain ⟨k₀, k₁, k, -, prog, t₀, t₁, t₂, h₀, -, hs, hrun, hk⟩ := exists_killed fun _ _ => 0
  have hreap : (sampleKernels.guard Orderly).Path k _ _ :=
    hk.process.reap hk.shell hk.running hk.kernelSpace ⟨rfl, rfl⟩ rfl
  generalize hk' : (k.withMachine (k.machine.vmmDestroyAddressSpace prog.space)).withShell
    (.clear 0 .kernel) = k' at hreap
  have hproc : k'.OneProcess t₀ t₁ t₂ 0
      { prog.process 1 2 with exited := true, exitCode := 0, reapPending := true } := by
    rw [← hk']
    exact ⟨hk.process.sched, hk.process.procs⟩
  obtain ⟨m, cr3, hsched⟩ := hproc.sched
  have hcur : k'.currentAs = .kernel := by
    unfold currentAs
    rw [hsched]
    exact hk.kernelSpace
  have hagain := hproc.processReapDeferred ⟨rfl, rfl⟩ rfl (by rw [hcur]; exact nofun)
  obtain ⟨next, s, hsw⟩ : ∃ next s, k'.sched.contextSwitchFrom k'.machine.kernelPml4 0 = .ok (next, s) := by
    rw [hsched]
    exact ⟨_, _, (Sched.switch_three_idle hk.running hk.idle.1 hk.idle.2
      (show k'.machine.kernelPml4 ≠ 0 by rw [← hk']; exact hk.kernelPml4)).choose_spec⟩
  have hswitch : k'.contextSwitchFrom 0 = .ok (next, k'.processReapDeferred.withSched s) := by
    unfold Kernel.contextSwitchFrom
    dsimp only
    rw [hagain]
    show (k'.sched.contextSwitchFrom k'.machine.kernelPml4 0 >>= _) = _
    rw [hsw]
    rfl
  have hslice : sampleKernels.Path k' _ _ :=
    slice_ends (by rw [hsched]; exact Int.le_refl 0) (by rw [hsched]; exact hk.running)
    (by rw [hsched]; rfl) hswitch
  have hlog : (k'.processReapDeferred.withSched s).machine.log =
      .destroy prog.space :: .destroy prog.space :: k.machine.log := by
    rw [hagain, ← hk']
    rfl
  have hpath := (((System.Path.nil.snoc hs).append hrun).append hreap).of_guard.append hslice
  generalize k'.processReapDeferred.withSched s = twice at hpath hlog
  refine ⟨_, twice, prog.space, k.machine.log, ⟨k₀, h₀, hpath⟩, hlog, fun h => ?_⟩
  have honce := h.once
  rw [hlog] at honce
  simp [DestroyedOnce, alive] at honce

end Kernel
end SamOS
