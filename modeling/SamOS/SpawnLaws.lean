import SamOS.KernelRuns

/-! What holds of `process_spawn_from_elf` in every state that the kernel reaches: when it returns, what a failed call
    leaves behind, and which pages are lost for good. -/

namespace SamOS
open Result

namespace Kernel
variable {fw : Platform} {image : KernelImage} {k k' : Kernel} {img : Image}

/-! ### Panics -/

/-- If its load comes to no 2 MiB page, a spawn returns, with a pid or `-1`, exactly when the process table is full or
    its page budget lasts: the kernel panics when the pages run out while a table is made, and when a segment takes a
    page of the stack. -/
theorem spawn_returns_iff (h : ((kernels fw image).guard Orderly).Reachable k)
    (hav : ∀ slot, k.allocProcessSlot = some slot → k.machine.Avoids img) :
    (∃ pid k', k.processSpawnFromElf img = .ok (pid, k') ∧ (pid = -1 ∨ pid = k.nextPid.toInt)) ↔
      k.allocProcessSlot = none ∨
      ∃ res, Budget.loadProgram k.machine.shares { free := k.machine.pmm.freeCount, pages := [] } img = .ok res := by
  obtain ⟨-, use, hi⟩ := memInv_of_reachable h
  have hsim (slot : Nat) (hslot : k.allocProcessSlot = some slot) :=
    (hi.memory.layout.loadProgram_budget (hav slot hslot)).isOk_iff
  constructor
  · rintro ⟨pid, k', hs, -⟩
    obtain ⟨⟨found, k₁⟩, hprep, -⟩ := of_bind_eq_ok hs
    cases prepareSpawn_cases hprep with
    | full hslot => exact Or.inl hslot
    | noProgram hslot hl => exact Or.inr ((hsim _ hslot).mp ⟨_, hl⟩)
    | noTask hslot hl _ => exact Or.inr ((hsim _ hslot).mp ⟨_, hl⟩)
    | task hslot hl _ => exact Or.inr ((hsim _ hslot).mp ⟨_, hl⟩)
  · intro hcases
    -- Once the program is loaded, nothing can panic any more.
    obtain ⟨⟨found, k₁⟩, hprep⟩ : ∃ res, k.prepareSpawn img = .ok res := by
      cases hslot : k.allocProcessSlot with
      | none => exact ⟨(none, k), by unfold prepareSpawn; rw [hslot]⟩
      | some slot =>
        obtain ⟨⟨prog, machine⟩, hl⟩ := (hsim slot hslot).mpr (hcases.resolve_left (by rw [hslot]; exact nofun))
        cases prog with
        | none => exact ⟨(none, k.withMachine machine), by unfold prepareSpawn; rw [hslot]; dsimp only; rw [hl]; rfl⟩
        | some prog =>
          obtain ⟨use', hev, -⟩ := hi.memory.layout.loadProgram (hav slot hslot) hl
          have hm : HeapMemory { k.withMachine machine with nextPid := k.nextPid + 1 } use' :=
            ⟨hev.layout, hi.memory.tasks, fun r hr => (hi.memory.held r hr).grows hev.grows⟩
          obtain ⟨⟨tid, k₁⟩, hc⟩ :=
            hm.taskCreate_returns (prog.newTask k.nextPid.toInt (machine.pml4 (.page prog.space)))
          rw [prepareSpawn_of_loaded hslot hl hc]
          cases tid <;> exact ⟨_, rfl⟩
    obtain ⟨pid, k', hs⟩ : ∃ pid k', k.processSpawnFromElf img = .ok (pid, k') := by
      unfold processSpawnFromElf
      rw [hprep]
      cases found <;> exact ⟨_, _, rfl⟩
    exact ⟨pid, k', hs, TableInv.processSpawnFromElf_pid hs⟩

/-- A program without segments is spawned on the sample machine. -/
theorem spawn_returns_sample : ∃ k, (sampleKernels.guard Orderly).Reachable k ∧
    ∃ pid k', k.processSpawnFromElf bareImage = .ok (pid, k') ∧ (pid = -1 ∨ pid = k.nextPid.toInt) := by
  obtain ⟨k, hb, hbooted⟩ := exists_boot fun _ _ => 0
  have hr : (sampleKernels.guard Orderly).Reachable k := ⟨[], k, sampleKernels_init hb, .nil⟩
  have := hbooted.room.count
  obtain ⟨-, use, hi⟩ := memInv_of_reachable hr
  exact ⟨k, hr, (spawn_returns_iff hr fun _ _ => hi.memory.layout.avoids_bare).mpr
    (Or.inr ⟨_, Budget.loadProgram_bare k.machine.shares_stack (by omega)⟩)⟩

/-- A program with a segment in the place of its stack makes the kernel panic. -/
theorem spawn_panics : ∃ k, sampleKernels.Reachable k ∧ k.machine.Avoids (pageImage 0x7FFFFFFFD000) ∧
    ∃ e, k.processSpawnFromElf (pageImage 0x7FFFFFFFD000) = .error e := by
  obtain ⟨k, hb, hbooted⟩ := exists_boot fun _ _ => 0
  obtain ⟨use, hi, -⟩ := SpaceInv.boot hb
  have hone : (pageImage 0x7FFFFFFFD000).OnePage 0x7FFFFFFFD000 :=
    ⟨by decide, by decide, ⟨by decide, by decide, by decide, by decide⟩⟩
  have hav : k.machine.Avoids (pageImage 0x7FFFFFFFD000) := hi.memory.layout.avoids fun va hva => by
    rw [hone.touches_iff.mp hva]
    exact Mem.onHugePage_of_none (boot_tableAt_two hb (by decide) (by decide))
  refine ⟨k, ⟨[], k, sampleKernels_init hb, .nil⟩, hav, ?_⟩
  have hsim := hi.memory.layout.loadProgram_budget hav
  have := hbooted.room.count
  rw [Budget.loadProgram_onStack hone k.machine.shares_stack (by omega)] at hsim
  cases hl : k.machine.loadProgram (pageImage 0x7FFFFFFFD000) with
  | ok res => rw [hl] at hsim; cases hsim
  | error e =>
    have hslot : k.allocProcessSlot = some 0 := by
      unfold allocProcessSlot
      rw [hbooted.procs]
      rfl
    unfold processSpawnFromElf prepareSpawn
    rw [hslot, hl]
    exact ⟨e, rfl⟩

end Kernel

/-! ### Pages that are lost -/

/-- After a step that spawns, the labels show the new program. -/
theorem SpaceInv.spawned {k k' k₁ : Kernel} {use : Nat → Use} {e : KernelEvent} {img : Image} {slot : Nat}
    {p : Process} (h : SpaceInv k k.settle.procs use) (ht : k.TableInv) (hok : k.Orderly e)
    (he : Kernel.spawnImage e = some img) (hp : k.prepareSpawn img = .ok (some (slot, p), k₁)) (hs : k.step e k') :
    ∃ use' a r, SpaceInv k' k'.settle.procs use' ∧ HeapMemory k₁ use' ∧ p.addressSpace = some a ∧
      NewProgram use use' a r := by
  have hi : k.shell = .idle := by
    by_contra hc
    rw [hok.undisturbed hc] at he
    cases he
  rw [Kernel.settle_of_idle hi] at h
  obtain ⟨use', -, -, hsome⟩ := h.prepareSpawn ht.current (hok.spawn img he) hp
  obtain ⟨hinv, a, r, ha, hprog⟩ := hsome slot p rfl
  refine ⟨use', a, r, ?_, hinv.memory, ha, hprog⟩
  have hidle : k₁.shell = .idle := by
    cases Kernel.prepareSpawn_tables hp with
    | starts _ _ _ _ _ _ hsh => exact hsh.trans hi
  have hspawn : ∀ {pid}, k.processSpawnFromElf img = .ok (pid, k') → SpaceInv k' k'.settle.procs use' := fun hs => by
    unfold Kernel.processSpawnFromElf at hs
    rw [hp] at hs
    cases hs
    rw [Kernel.settle_of_idle (show (k₁.setProc slot p).shell = .idle from hidle)]
    exact hinv.withProcs hinv.spaces
  cases e with
  | bootSpawn img' =>
    cases he
    exact hspawn hs.2.choose_spec
  | spawn img' =>
    cases he
    obtain ⟨-, -, hs⟩ := hs
    unfold Kernel.shellSpawn at hs
    rw [hp] at hs
    cases hs
    exact hinv.withProcs hinv.spaces
  | syscall frame call =>
    cases call with
    | spawn img' =>
      obtain ⟨-, next, hs⟩ := hs
      rcases ht.syscallSpawn (hok.pid rfl) hs with ⟨rfl, -⟩ | ⟨img', pid, rfl, hsp⟩
      · cases he
      · cases he
        exact hspawn hsp
    | _ => cases he
  | _ => cases he

namespace Kernel
variable {fw : Platform} {image : KernelImage} {k k₁ k₂ kp : Kernel} {e : KernelEvent} {es : List KernelEvent}
    {img : Image}
  {slot : Nat} {p : Process}

theorem keeps_of_path (h : k.TableInv) {use : Nat → Use} (hi : SpaceInv k k.settle.procs use)
    (hp : ((kernels fw image).guard Orderly).Path k es k₁) {f : Nat} (hf : (use f).Kept) : ¬k₁.machine.pmm.Free f := by
  obtain ⟨-, use', hi', hf'⟩ :=
    hp.invariant (I := fun k => k.TableInv ∧ ∃ use, SpaceInv k k.settle.procs use ∧ (use f).Kept)
    (fun ⟨ht, use, hi, hf⟩ hs => by
      obtain ⟨use', hi', hkeep⟩ := hi.step ht hs.1 hs.2
      exact ⟨(ht.step hs.1.pid hs.1.undisturbed hs.2).1, use', hi', hkeep f hf⟩) ⟨h, use, hi, hf⟩
  exact fun hfree => hf'.ne_free ((hi'.memory.layout.owned.free_iff f).mpr hfree)

theorem MemInv.stack_kept (h : k.MemInv) (he : spawnImage e = some img)
    (hp : k.prepareSpawn img = .ok (some (slot, p), kp)) (hs : ((kernels fw image).guard Orderly).step k e k₁)
    (hrun : ((kernels fw image).guard Orderly).Path k₁ es k₂) :
    ∃ a f, p.addressSpace = some a ∧ kp.machine.vmmVirtToPhys (.page a) stackPage = f * 4096 ∧ k.machine.pmm.Free f ∧
      ¬kp.machine.pmm.Free f ∧ ¬k₂.machine.pmm.Free f := by
  obtain ⟨ht, use, hi⟩ := h
  obtain ⟨use', a, r, hi', hm, ha, hprog⟩ := hi.spawned ht hs.1 he hp hs.2
  obtain ⟨f, hfree, hf⟩ := hprog.page
  have hkept : (use' f).Kept := Or.inr ⟨r, _, pagePath_length _ _, hf⟩
  refine ⟨a, f, ha, ?_, (hi.memory.layout.owned.free_iff f).mp hfree,
    fun h => hkept.ne_free ((hm.layout.owned.free_iff f).mpr h),
    keeps_of_path (ht.step hs.1.pid hs.1.undisturbed hs.2).1 hi' hrun hkept⟩
  have htree : treeOf kp.machine.kernelPml4 r stackPage = r := Layout.treeOf_stack _ _ (i := 0) (by decide)
  have hat : kp.machine.mem.tableAt r stackPage 4 = some f :=
    hm.layout.tables.tableAt_of_node (hm.layout.tables.node_root hf) (by decide) (by rw [htree]; exact hf)
  rw [Machine.vmmVirtToPhys, hm.layout.pml4_eq hprog.space, Mem.virtToPhys_of_tableAt hat,
    show stackPage % 4096 = 0 by decide, Nat.add_zero]

/-- In no run does a process give all its pages back: the page below the top of its stack was free before the spawn
    and is never free again. -/
theorem stack_page_is_lost (h : ((kernels fw image).guard Orderly).Reachable k) (he : spawnImage e = some img)
    (hp : k.prepareSpawn img = .ok (some (slot, p), kp)) (hs : ((kernels fw image).guard Orderly).step k e k₁)
    (hrun : ((kernels fw image).guard Orderly).Path k₁ es k₂) :
    ∃ a f, p.addressSpace = some a ∧ kp.machine.vmmVirtToPhys (.page a) stackPage = f * 4096 ∧ k.machine.pmm.Free f ∧
      ¬kp.machine.pmm.Free f ∧ ¬k₂.machine.pmm.Free f :=
  (memInv_of_reachable h).stack_kept he hp hs hrun

theorem exists_reaped (mem : Mem) : ∃ k₀ k₁ k₂ kp p, sampleKernels.init k₀ ∧
    k₀.prepareSpawn bareImage = .ok (some (0, p), kp) ∧ (sampleKernels.guard Orderly).step k₀
      (.bootSpawn bareImage) k₁ ∧
    (sampleKernels.guard Orderly).Path k₁ [.resume, .resume, .reap, .resume, .kill 1 0, .schedule] k₂ ∧
    (k₂.procs 0).exited = true ∧ (k₂.procs 0).reapPending = false ∧ (k₂.procs 0).addressSpace = none := by
  obtain ⟨k₀, k₁, k₂, kp, prog, t₀, t₁, t₂, h₀, hp, hs, hrun, hk⟩ := exists_killed mem
  obtain ⟨hreap, hentry⟩ : (sampleKernels.guard Orderly).Path k₂ _ _ ∧ _ :=
    hk.process.reapEntry hk.shell hk.running hk.kernelSpace ⟨rfl, rfl⟩ rfl
  refine ⟨k₀, k₁, _, kp, _, h₀, hp, hs, hrun.append hreap, ?_⟩
  rw [hentry]
  exact ⟨rfl, rfl, rfl⟩

theorem stack_page_is_lost_sample : ∃ k k₁ k₂ kp p es, (sampleKernels.guard Orderly).Reachable k ∧
    k.prepareSpawn bareImage = .ok (some (0, p), kp) ∧ (sampleKernels.guard Orderly).step k (.bootSpawn bareImage) k₁ ∧
    (sampleKernels.guard Orderly).Path k₁ es k₂ ∧
    ∃ a f, p.addressSpace = some a ∧ kp.machine.vmmVirtToPhys (.page a) stackPage = f * 4096 ∧ k.machine.pmm.Free f ∧
      ¬kp.machine.pmm.Free f ∧ ¬k₂.machine.pmm.Free f := by
  obtain ⟨k, k₁, k₂, kp, p, h₀, hp, hs, hrun, -⟩ := exists_reaped fun _ _ => 0
  have hr : (sampleKernels.guard Orderly).Reachable k := .init h₀
  exact ⟨k, k₁, k₂, kp, p, _, hr, hp, hs, hrun, stack_page_is_lost hr rfl hp hs hrun⟩

/-- A process that is spawned, killed and reaped has not given all its pages back. -/
theorem reaped_process_keeps_pages : ∃ k₀ k₁ k₂ kp p, sampleKernels.init k₀ ∧
    k₀.prepareSpawn bareImage = .ok (some (0, p), kp) ∧ (sampleKernels.guard Orderly).step k₀
      (.bootSpawn bareImage) k₁ ∧
    (sampleKernels.guard Orderly).Path k₁ [.resume, .resume, .reap, .resume, .kill 1 0, .schedule] k₂ ∧
    (k₂.procs 0).exited = true ∧ (k₂.procs 0).reapPending = false ∧ (k₂.procs 0).addressSpace = none ∧
    ∃ f, k₀.machine.pmm.Free f ∧ ¬kp.machine.pmm.Free f ∧ ¬k₂.machine.pmm.Free f := by
  obtain ⟨k₀, k₁, k₂, kp, p, h₀, hp, hs, hrun, hex, hpend, has⟩ := exists_reaped fun _ _ => 0
  obtain ⟨-, f, -, -, hbefore, hafter, hlater⟩ := (memInv_init h₀).stack_kept rfl hp hs hrun
  exact ⟨k₀, k₁, k₂, kp, p, h₀, hp, hs, hrun, hex, hpend, has, f, hbefore, hafter, hlater⟩

end Kernel
end SamOS
