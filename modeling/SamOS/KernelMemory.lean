import SamOS.SpawnMemory

/-! Address spaces over runs of the kernel. Every used entry of the process table has an address space of its own,
    every live user task runs on the PML4 of its entry's address space, and CR3 holds that of the current task.
    Together with the agreement of the tables this carries the labels through every step. -/

namespace SamOS
open Function

/-! ### The invariant -/

/-- Every used entry has an address space of its own, or none. -/
structure Spaces (procs : Nat → Process) (use : Nat → Use) : Prop where
  alive : ∀ i < maxProcesses, (procs i).used = true → ∀ a, (procs i).addressSpace = some a → ∃ r, use a = .space r
  inj : ∀ i < maxProcesses, ∀ j < maxProcesses, (procs i).used = true → (procs j).used = true → ∀ a,
    (procs i).addressSpace = some a → (procs j).addressSpace = some a → i = j

/-- CR3 holds the PML4 of the current user task's address space, or the kernel's. -/
structure CurrentSpace (s : Sched) (kernel : Nat) (use : Nat → Use) : Prop where
  user : 0 ≤ s.currentTid → (s.tasks s.current).isUser = true →
    ∃ a, (s.tasks s.current).addressSpace = .page a ∧ use a = .space s.cr3
  kernel : ¬(0 ≤ s.currentTid ∧ (s.tasks s.current).isUser = true) → s.cr3 = kernel

/-- The labels agree with memory, with the process table `procs`, with the tasks and with CR3. -/
structure SpaceInv (k : Kernel) (procs : Nat → Process) (use : Nat → Use) : Prop where
  memory : HeapMemory k use
  spaces : Spaces procs use
  root : ∀ t < maxTasks, k.sched.LiveUser t → ∀ a, (k.sched.tasks t).addressSpace = .page a →
    use a = .space (k.sched.tasks t).cr3
  current : CurrentSpace k.sched k.machine.kernelPml4 use

/-- Pages that no code frees stay so. -/
def Keeping (use use' : Nat → Use) : Prop := ∀ f, (use f).Kept → (use' f).Kept

theorem Keeping.refl (use : Nat → Use) : Keeping use use := fun _ h => h

theorem Keeping.trans {use use' use'' : Nat → Use} (h : Keeping use use') (h' : Keeping use' use'') :
    Keeping use use'' :=
  fun f hf => h' f (h f hf)

theorem Grows.keeping {scope : Nat → Prop} {m m' : Mem} {use use' : Nat → Use} (h : Grows scope m use m' use') :
    Keeping use use' := fun f hf => by rw [h.keeps hf.ne_free]; exact hf

namespace Spaces
variable {procs : Nat → Process} {use use' : Nat → Use} {scope : Nat → Prop} {m m' : Mem} {i a r : Nat} {p : Process}

theorem grows (h : Spaces procs use) (hg : Grows scope m use m' use') : Spaces procs use' :=
  ⟨fun i hi hu a ha => (h.alive i hi hu a ha).imp fun _ hr => hg.space hr, h.inj⟩

theorem setProc (h : Spaces procs use) (hp : p.used = true → p.addressSpace = none ∨
    ((procs i).used = true ∧ p.addressSpace = (procs i).addressSpace)) : Spaces (update procs i p) use := by
  have hold : ∀ {j b}, (update procs i p j).used = true → (update procs i p j).addressSpace = some b →
      (procs j).used = true ∧ (procs j).addressSpace = some b := fun {j b} hu hb => by
    by_cases hj : j = i
    · subst hj
      rw [update_self] at hu hb
      rcases hp hu with hn | ⟨hu', he⟩
      · rw [hn] at hb
        cases hb
      · exact ⟨hu', he ▸ hb⟩
    · rw [update_of_ne hj] at hu hb
      exact ⟨hu, hb⟩
  exact ⟨fun j hj hu b hb => h.alive j hj (hold hu hb).1 b (hold hu hb).2, fun j hj l hl huj hul b hbj hbl =>
    h.inj j hj l hl (hold huj hbj).1 (hold hul hbl).1 b (hold huj hbj).2 (hold hul hbl).2⟩

theorem add (h : Spaces procs use) (hg : Grows scope m use m' use') (hp : p.addressSpace = some a)
    (hfree : use a = .free) (ha : use' a = .space r) : Spaces (update procs i p) use' := by
  -- No other entry has the new page.
  have hne : ∀ {j}, j < maxProcesses → (procs j).used = true → (procs j).addressSpace ≠ some a := fun hj hu hb => by
    obtain ⟨r', hr'⟩ := h.alive _ hj hu a hb
    cases hfree.symm.trans hr'
  refine ⟨fun j hj hu b hb => ?_, fun j hj l hl huj hul b hbj hbl => ?_⟩
  · by_cases hji : j = i
    · rw [hji, update_self, hp] at hb
      exact ⟨r, Option.some.inj hb ▸ ha⟩
    · rw [update_of_ne hji] at hu hb
      exact (h.alive j hj hu b hb).imp fun _ hr => hg.space hr
  · by_cases hji : j = i <;> by_cases hli : l = i
    · rw [hji, hli]
    · rw [hji, update_self, hp] at hbj
      rw [update_of_ne hli, ← hbj] at hbl
      rw [update_of_ne hli] at hul
      exact absurd hbl (hne hl hul)
    · rw [hli, update_self, hp] at hbl
      rw [update_of_ne hji, ← hbl] at hbj
      rw [update_of_ne hji] at huj
      exact absurd hbj (hne hj huj)
    · rw [update_of_ne hji] at huj hbj
      rw [update_of_ne hli] at hul hbl
      exact h.inj j hj l hl huj hul b hbj hbl

theorem destroy (h : Spaces procs use) (hone : ∀ {a b r}, use a = .space r → use b = .space r → a = b)
    (hi : i < maxProcesses) (hu : (procs i).used = true) (ha : (procs i).addressSpace = some a)
    (hr : use a = .space r) (hp : p.addressSpace = none) :
    Spaces (update procs i p) fun f => (use f).destroy r := by
  have hne : ∀ {j b}, (update procs i p j).addressSpace = some b → j ≠ i := by
    rintro j b hb rfl
    rw [update_self, hp] at hb
    cases hb
  refine ⟨fun j hj huj b hb => ?_, fun j hj l hl huj hul b hbj hbl => ?_⟩
  · have hji := hne hb
    rw [update_of_ne hji] at huj hb
    obtain ⟨r', hr'⟩ := h.alive j hj huj b hb
    refine ⟨r', Use.destroy_eq_space.mpr ⟨hr', ?_⟩⟩
    rintro rfl
    exact hji (h.inj j hj i hi huj hu b hb (hone hr hr' ▸ ha))
  · rw [update_of_ne (hne hbj)] at huj hbj
    rw [update_of_ne (hne hbl)] at hul hbl
    exact h.inj j hj l hl huj hul b hbj hbl

end Spaces

namespace CurrentSpace
variable {s s' : Sched} {kernel : Nat} {use use' : Nat → Use}

theorem congr (h : CurrentSpace s kernel use) (ht : s'.currentTid = s.currentTid) (hc : s'.cr3 = s.cr3)
    (hu : 0 ≤ s.currentTid → (s'.tasks s.current).isUser = (s.tasks s.current).isUser)
    (ha : 0 ≤ s.currentTid → (s'.tasks s.current).addressSpace = (s.tasks s.current).addressSpace) :
    CurrentSpace s' kernel use := by
  have hcur : s'.current = s.current := by unfold Sched.current; rw [ht]
  refine ⟨fun h0 hus => ?_, fun hn => ?_⟩ <;> rw [hcur, ht] at *
  · rw [ha h0, hc]
    exact h.user h0 (by rw [← hu h0]; exact hus)
  · rw [hc]
    exact h.kernel fun hh => hn ⟨hh.1, by rw [hu hh.1]; exact hh.2⟩

theorem grows {scope : Nat → Prop} {m m' : Mem} (h : CurrentSpace s kernel use)
    (hg : Grows scope m use m' use') : CurrentSpace s kernel use' :=
  ⟨fun h0 hu => (h.user h0 hu).imp fun _ ha => ⟨ha.1, hg.space ha.2⟩, h.kernel⟩

end CurrentSpace

/-! ### Parts of the kernel that change -/

namespace SpaceInv
open Kernel
variable {k k' : Kernel} {procs : Nat → Process} {use use' : Nat → Use} {scope : Nat → Prop}

theorem withSched (h : SpaceInv k procs use) {s' : Sched} (hl : ∀ t, s'.LiveUser t → k.sched.LiveUser t)
    (ha : ∀ t, (s'.tasks t).addressSpace = (k.sched.tasks t).addressSpace)
    (hc : ∀ t, (s'.tasks t).cr3 = (k.sched.tasks t).cr3)
    (hst : ∀ t, (s'.tasks t).kernelStack = (k.sched.tasks t).kernelStack)
    (hcur : CurrentSpace s' k.machine.kernelPml4 use) :
    SpaceInv (k.withSched s') procs use where
  memory := ⟨h.memory.layout, h.memory.tasks.congr hst, h.memory.held⟩
  spaces := h.spaces
  root t ht hlive a hsp := by
    rw [withSched_sched, hc]
    exact h.root t ht (hl t hlive) a (by rw [← ha]; exact hsp)
  current := hcur

theorem keeps (h : SpaceInv k procs use) {s' : Sched} (hk : k.sched.Keeps s')
    (hst : ∀ t, (s'.tasks t).kernelStack = (k.sched.tasks t).kernelStack)
    (hcur : CurrentSpace s' k.machine.kernelPml4 use) :
    SpaceInv (k.withSched s') procs use :=
  h.withSched (fun t hl => (hk.liveUser t).mp hl) hk.addressSpace hk.cr3 hst hcur

theorem ended (h : SpaceInv k procs use) (t : Nat) (code : Int) :
    SpaceInv (k.withSched (k.sched.ended t code)) procs use := by
  have hsame : ∀ {α : Type} (g : Task → α), (∀ task, g { task with exitCode := code, state := .zombie } = g task) →
      ∀ u, g ((k.sched.ended t code).tasks u) = g (k.sched.tasks u) := fun g hg u => by
    by_cases hut : u = t
    · rw [hut, Sched.ended, Sched.modify_tasks_same, hg]
    · rw [Sched.ended, Sched.modify_tasks_of_ne hut]
  refine h.withSched (fun u hl => ?_) (hsame (·.addressSpace) fun _ => rfl) (hsame (·.cr3) fun _ => rfl)
    (hsame (·.kernelStack) fun _ => rfl) (h.current.congr rfl rfl (fun _ => hsame (·.isUser) (fun _ => rfl) _)
      fun _ => hsame (·.addressSpace) (fun _ => rfl) _)
  by_cases hut : u = t
  · have hz := hl.1
    rw [hut, Sched.ended, Sched.modify_tasks_same] at hz
    simp [Task.Live] at hz
  · unfold Sched.LiveUser at hl ⊢
    rwa [Sched.ended, Sched.modify_tasks_of_ne hut] at hl

theorem withMachine (h : SpaceInv k procs use) {s' : Machine} (hl : Layout s' use')
    (hg : Grows scope k.machine.mem use s'.mem use') (hk : s'.kernelPml4 = k.machine.kernelPml4) :
    SpaceInv (k.withMachine s') procs use' where
  memory := ⟨hl, h.memory.tasks, fun r hr => (h.memory.held r hr).grows hg⟩
  spaces := h.spaces.grows hg
  root t ht hlive a ha := hg.space (h.root t ht hlive a ha)
  current := by
    rw [withMachine_machine, hk]
    exact h.current.grows hg

theorem withProcs (h : SpaceInv k procs use) {procs' procs'' : Nat → Process} {shell : ShellCall}
    (hs : Spaces procs' use) :
    SpaceInv { k with procs := procs'', shell } procs' use :=
  ⟨⟨h.memory.layout, h.memory.tasks, h.memory.held⟩, hs, h.root, h.current⟩

/-! ### Reaping -/

variable {next : Int} {n : Nat} {img : Image}

/-- `process_reap_deferred` destroys the address space of an entry: it is not that of the current task, and no live
    task runs in it. -/
theorem reapSpace (h : SpaceInv k k.procs use) (ha : Agree k.sched k.procs next) {i : Nat} (hi : i < maxProcesses)
    {current : AsPtr} (hc : 0 ≤ k.sched.currentTid → (k.sched.tasks k.sched.current).isUser = true →
      (k.sched.tasks k.sched.current).addressSpace = current) (hr : k.reapSpace current i = (true, k')) :
    ∃ use', SpaceInv k' (k'.clearEntry i).procs use' ∧ Keeping use use' := by
  have hclear : ∀ p : Process, p.addressSpace = none → Spaces (update k.procs i p) use := fun p hp =>
    h.spaces.setProc fun _ => Or.inl hp
  rcases k.reapSpace_cases current i with he | ⟨hu, hpend, ⟨-, he⟩ | ⟨a, hsp, hne, he⟩⟩ <;> rw [he] at hr <;> cases hr
  · exact ⟨use, ⟨h.memory, hclear _ rfl, h.root, h.current⟩, .refl _⟩
  · obtain ⟨r, har⟩ := h.spaces.alive i hi hu a hsp
    have ht := h.memory.layout.tables
    -- Other address spaces have other PML4s, and those stay.
    have hstay : ∀ {b r'}, use b = .space r' → b ≠ a → (use b).destroy r = .space r' := fun hb hba =>
      Use.destroy_eq_space.mpr ⟨hb, fun hrr => hba (ht.space_inj (hrr ▸ hb) har)⟩
    refine ⟨fun f => (use f).destroy r, ⟨⟨h.memory.layout.vmmDestroyAddressSpace har, h.memory.tasks, fun x hx => ?_⟩,
      h.spaces.destroy ht.space_inj hi hu hsp har rfl, fun t ht hl b hb => ?_, ⟨fun h0 hus => ?_, h.current.kernel⟩⟩,
      fun f hf => hf.destroy r⟩
    · have hx := h.memory.held x hx
      exact ⟨hx.pos, hx.le, fun y h1 h2 => by rw [hx.held y h1 h2]; rfl⟩
    · -- The entry of a live task has not exited, so it is another one.
      refine hstay (h.root t ht hl b hb) ?_
      rintro rfl
      obtain ⟨j, hj, hact, hrun⟩ := ha.entry_of_live ht hl
      obtain ⟨c, hcj, hct⟩ := hrun.space
      have hcb : c = b := by
        have := hct.symm.trans hb
        cases this
        rfl
      have hji := h.spaces.inj j hj i hi hact.1 hu c hcj (hcb ▸ hsp)
      have hex := ha.reap i hi hu hpend
      rw [hji] at hact
      rw [hact.2] at hex
      cases hex
    · obtain ⟨b, hb, hbr⟩ := h.current.user h0 hus
      refine ⟨b, hb, hstay hbr ?_⟩
      rintro rfl
      exact hne ((hc h0 hus).symm.trans hb)

theorem reapEntry (h : SpaceInv k k.procs use) (ha : Agree k.sched k.procs next) {i : Nat} (hi : i < maxProcesses)
    (current : AsPtr) (hc : 0 ≤ k.sched.currentTid → (k.sched.tasks k.sched.current).isUser = true →
      (k.sched.tasks k.sched.current).addressSpace = current) :
    ∃ use', SpaceInv (k.reapEntry current i) (k.reapEntry current i).procs use' ∧ Keeping use use' := by
  unfold Kernel.reapEntry
  generalize hr : k.reapSpace current i = res
  obtain ⟨b, k'⟩ := res
  cases b with
  | true =>
    obtain ⟨use', h', hk⟩ := h.reapSpace ha hi hc hr
    exact ⟨use', h'.withProcs h'.spaces, hk⟩
  | false =>
    rcases k.reapSpace_cases current i with he | ⟨-, -, ⟨-, he⟩ | ⟨a, -, -, he⟩⟩ <;> rw [hr] at he <;> cases he
    exact ⟨use, h, .refl _⟩

theorem processReapDeferred (h : SpaceInv k k.procs use) (ha : Agree k.sched k.procs next) :
    ∃ use', SpaceInv k.processReapDeferred k.processReapDeferred.procs use' ∧ Keeping use use' := by
  have hloop : (∃ use', SpaceInv k.processReapDeferred k.processReapDeferred.procs use' ∧ Keeping use use') ∧
      Agree k.sched k.processReapDeferred.procs next ∧ k.processReapDeferred.sched = k.sched := by
    refine Loop.forRange_keeps (P := fun k' : Kernel => (∃ use', SpaceInv k' k'.procs use' ∧ Keeping use use') ∧
      Agree k.sched k'.procs next ∧ k'.sched = k.sched) ⟨⟨use, h, .refl _⟩, ha, rfl⟩ ?_
    rintro i k' - hi ⟨⟨use', h', hk'⟩, ha', hs'⟩
    rw [← hs'] at ha'
    obtain ⟨hagree, hsched, -⟩ := agree_reapEntry ha' k.currentAs hi
    obtain ⟨use'', h'', hk''⟩ := h'.reapEntry ha' hi k.currentAs fun h0 _ => by
      rw [hs'] at h0 ⊢
      unfold currentAs
      rw [if_neg (by omega)]
    exact ⟨⟨use'', h'', hk'.trans hk''⟩, by rw [← hs']; exact hagree, hsched.trans hs'⟩
  exact hloop.1

/-! ### Switching -/

theorem contextSwitchFrom (h : SpaceInv k k.procs use) (hr : k.sched.Ready) (ha : Agree k.sched k.procs next)
    {rsp : Nat} (hs : k.contextSwitchFrom rsp = .ok (n, k')) :
    ∃ use', SpaceInv k' k'.procs use' ∧ Keeping use use' := by
  obtain ⟨use', h', hk⟩ := h.processReapDeferred ha
  obtain ⟨ha', hsched, -, -⟩ := agree_processReapDeferred ha
  unfold Kernel.contextSwitchFrom at hs
  generalize k.processReapDeferred = k₁ at hs h' ha' hsched
  obtain ⟨⟨m, s⟩, hsw, hs⟩ := Result.of_bind_eq_ok hs
  cases hs
  rw [← hsched] at hr ha'
  obtain ⟨hkeep, hr', hlive, hcr⟩ := hr.contextSwitchFrom hsw
  refine ⟨use', h'.keeps hkeep (Sched.KeepsStacks.contextSwitchFrom hsw).stack ?_, hk⟩
  rcases hcr with ⟨hcr3, htid⟩ | ⟨h0, hcr3⟩
  · exact h'.current.congr htid hcr3 (fun _ => hkeep.isUser _) fun _ => hkeep.addressSpace _
  · -- The next task runs in its own address space.
    have hlt : s.current < maxTasks := by
      have := hr'.bound
      unfold Sched.current
      omega
    unfold Sched.switchAddressSpace at hcr3
    refine ⟨fun _ hu => ?_, fun hn => ?_⟩
    · rw [if_pos hu] at hcr3
      split at hcr3
      · cases hcr3
      split at hcr3
      · cases hcr3
      have hlu : k₁.sched.LiveUser s.current := (hkeep.liveUser _).mp ⟨hlive h0, hu⟩
      obtain ⟨i, hi, hact, hrun⟩ := ha'.entry_of_live hlt hlu
      obtain ⟨a, -, hsp⟩ := hrun.space
      refine ⟨a, by rw [hkeep.addressSpace]; exact hsp, ?_⟩
      rw [h'.root _ hlt hlu a hsp, ← hkeep.cr3, Except.ok.inj hcr3]
    · have hu : ¬(s.tasks s.current).isUser = true := fun hu => hn ⟨h0, hu⟩
      rw [if_neg hu] at hcr3
      split at hcr3
      · cases hcr3
      · exact (Except.ok.inj hcr3).symm

theorem taskScheduleFromInterrupt (h : SpaceInv k k.procs use) (hr : k.sched.Ready)
    (ha : Agree k.sched k.procs next) {frame : Nat} (hs : k.taskScheduleFromInterrupt frame = .ok (n, k')) :
    ∃ use', SpaceInv k' k'.procs use' ∧ Keeping use use' := by
  unfold Kernel.taskScheduleFromInterrupt at hs
  split at hs
  · cases hs
  · exact h.contextSwitchFrom hr ha hs

theorem scheduleOnTick (h : SpaceInv k k.procs use) (hr : k.sched.Ready) (ha : Agree k.sched k.procs next)
    {rsp : Nat} (hs : k.scheduleOnTick rsp = .ok (n, k')) : ∃ use', SpaceInv k' k'.procs use' ∧ Keeping use use' := by
  have hslice : ∀ n, SpaceInv (k.withSched { k.sched with sliceTicks := n }) k.procs use := fun n =>
    h.keeps (.of_tasks rfl) (fun _ => rfl) ⟨h.current.user, h.current.kernel⟩
  rcases scheduleOnTick_cases hs with ⟨-, -, rfl⟩ | ⟨-, hs⟩
  · exact ⟨use, hslice _, .refl _⟩
  · exact (hslice 0).contextSwitchFrom (k := k.withSched { k.sched with sliceTicks := 0 })
      ⟨hr.bound, hr.shell, hr.idle, hr.users⟩ (ha.keeps (.of_tasks rfl)) hs

theorem syscallReturn (h : SpaceInv k k.procs use) (ht : k.TableInv) (hi : k.shell = .idle) (hu : k.InUser)
    {frame : Nat} {ret : Word} (hs : k.syscallReturn frame ret = .ok (n, k')) :
    ∃ use', SpaceInv k' k'.procs use' ∧ Keeping use use' := by
  obtain ⟨-, huser, hrun⟩ := hu
  have ha := ht.agree_of_idle hi
  rcases syscallReturn_cases hs with ⟨-, -, hs⟩ | ⟨-, -, rfl⟩
  · rcases k.sched.offered_cases with he | ⟨-, -, -, he⟩ <;> rw [he] at hs
    · exact h.contextSwitchFrom ht.ready ha hs
    · have hk : k.sched.Keeps (k.sched.modify k.sched.current fun t => { t with state := .runnable }) :=
        .modify (by simp [Task.Live, hrun]) rfl rfl rfl rfl
      obtain ⟨h0, h1⟩ := ht.ready.ne_of_user huser
      have h' := h.keeps hk (Sched.modify_kernelStack (by intro _; rfl))
        (h.current.congr rfl rfl (fun _ => hk.isUser _) fun _ => hk.addressSpace _)
      exact h'.contextSwitchFrom
        (k := k.withSched (k.sched.modify k.sched.current fun t => { t with state := .runnable }))
        (ht.ready.modify (f := fun t => { t with state := .runnable }) h0 h1 fun _ => huser) (ha.keeps hk) hs
  · exact ⟨use, h, .refl _⟩

/-- The current task ends. Its address space stays until the next reap that finds another task current. -/
theorem sysExit (h : SpaceInv k k.procs use) (ht : k.TableInv) (hi : k.shell = .idle) (hu : k.InUser) (code : Int) :
    SpaceInv (k.sysExit code) (k.sysExit code).procs use := by
  obtain ⟨i, -, hact, -, he⟩ := ht.sysExit_eq hi hu code
  rw [he]
  have hp : SpaceInv (k.markExited i code) (k.markExited i code).procs use :=
    h.withProcs (h.spaces.setProc fun _ => Or.inr ⟨hact.1, rfl⟩)
  exact hp.ended k.sched.current code

/-! ### Spawning -/

/-- A spawn up to the writes to the process table: it fails, or the entry to be written has a new address space. -/
theorem prepareSpawn (h : SpaceInv k k.procs use) (hlive : k.sched.CurrentLive) (hcan : k.CanSpawn img)
    {found : Option (Nat × Process)} (hs : k.prepareSpawn img = .ok (found, k')) :
    ∃ use', Keeping use use' ∧ (found = none → SpaceInv k' k'.procs use') ∧
      ∀ slot p, found = some (slot, p) → SpaceInv k' (update k'.procs slot p) use' ∧
        ∃ a r, p.addressSpace = some a ∧ NewProgram use use' a r := by
  obtain ⟨use', hmem, hg, hk, hnew⟩ := prepareSpawn_memory h.memory hcan hs
  refine ⟨use', hg.keeping, ?_, fun slot p hf => ?_⟩
  · rintro rfl
    cases prepareSpawn_tables hs with
    | fails hkeep _ hc hcr hp _ _ =>
      refine ⟨hmem, hp ▸ h.spaces.grows hg, fun t ht hl a ha => ?_, ?_⟩
      · rw [hkeep.cr3]
        exact hg.space (h.root t ht ((hkeep.liveUser t).mp hl) a (by rw [← hkeep.addressSpace]; exact ha))
      · rw [hk]
        exact (h.current.grows hg).congr hc hcr (fun _ => hkeep.isUser _) fun _ => hkeep.addressSpace _
  · subst hf
    obtain ⟨t, r, ⟨a, hsp, hprog, stack, hsched⟩, hlt, hdead⟩ := hnew slot p rfl
    have hp : k'.procs = k.procs := by
      cases prepareSpawn_tables hs with
      | starts _ _ _ _ hp _ _ => exact hp
    rw [hp]
    refine ⟨⟨hmem, h.spaces.add hg hsp hprog.space_free hprog.space, fun u hu hl b hb => ?_, ?_⟩, a, r, hsp, hprog⟩
    · rw [hsched] at hl hb ⊢
      by_cases hut : u = t
      · rw [hut, Sched.modify_tasks_same] at hb ⊢
        cases hb
        exact hprog.space
      · unfold Sched.LiveUser at hl
        rw [Sched.modify_tasks_of_ne hut] at hl hb ⊢
        exact hg.space (h.root u hu hl b hb)
    · have hcur : 0 ≤ k.sched.currentTid → k.sched.current ≠ t := fun h0 he => hdead (he ▸ hlive h0)
      rw [hk, hsched]
      exact (h.current.grows hg).congr rfl rfl (fun h0 => by rw [Sched.modify_tasks_of_ne (hcur h0)])
        fun h0 => by rw [Sched.modify_tasks_of_ne (hcur h0)]

theorem processSpawnFromElf (h : SpaceInv k k.procs use) (hlive : k.sched.CurrentLive) (hcan : k.CanSpawn img)
    {pid : Int} (hs : k.processSpawnFromElf img = .ok (pid, k')) :
    ∃ use', SpaceInv k' k'.procs use' ∧ Keeping use use' := by
  unfold Kernel.processSpawnFromElf at hs
  obtain ⟨⟨found, k₁⟩, hprep, hs⟩ := Result.of_bind_eq_ok hs
  obtain ⟨use', hk, hnone, hsome⟩ := h.prepareSpawn hlive hcan hprep
  cases found with
  | none =>
    cases hs
    exact ⟨use', hnone rfl, hk⟩
  | some found =>
    obtain ⟨slot, p⟩ := found
    cases hs
    exact ⟨use', (hsome slot p rfl).1.withProcs (hsome slot p rfl).1.spaces, hk⟩

theorem shellSpawn (h : SpaceInv k k.procs use) (hlive : k.sched.CurrentLive) (hi : k.shell = .idle)
    (hcan : k.CanSpawn img) (hs : k.shellSpawn img = .ok k') :
    ∃ use', SpaceInv k' k'.settle.procs use' ∧ Keeping use use' := by
  unfold Kernel.shellSpawn at hs
  obtain ⟨⟨found, k₁⟩, hprep, hs⟩ := Result.of_bind_eq_ok hs
  obtain ⟨use', hk, hnone, hsome⟩ := h.prepareSpawn hlive hcan hprep
  cases found with
  | none =>
    cases hs
    have hi' : k'.shell = .idle := by
      cases prepareSpawn_tables hprep with
      | fails _ _ _ _ _ _ hsh => exact hsh.trans hi
    exact ⟨use', by rw [settle_of_idle hi']; exact hnone rfl, hk⟩
  | some found =>
    obtain ⟨slot, p⟩ := found
    cases hs
    exact ⟨use', (hsome slot p rfl).1.withProcs (hsome slot p rfl).1.spaces, hk⟩

/-! ### The shell -/

theorem shellKill (h : SpaceInv k k.procs use) (ht : k.TableInv) (hi : k.shell = .idle) (pid code : Int) :
    SpaceInv (k.shellKill pid code) (k.shellKill pid code).settle.procs use := by
  unfold Kernel.shellKill
  rcases TableInv.beginKill_cases (ht.agree_of_idle hi) ht.ready pid code with
    ⟨res, -, he, -⟩ | ⟨i, -, t, -, hact, -, -, he⟩ <;> rw [he]
  · rw [settle_of_idle hi]
    exact h
  · exact (h.ended t code).withProcs (h.spaces.setProc fun _ => Or.inr ⟨hact.1, rfl⟩)

theorem processWaitPoll (h : SpaceInv k k.procs use) (pid : Int) :
    SpaceInv (k.processWaitPoll pid).2 (k.processWaitPoll pid).2.procs use := by
  rcases k.processWaitPoll_cases pid with he | ⟨i, -, he⟩ <;> rw [he]
  · exact h
  · exact h.withProcs (h.spaces.setProc nofun)

theorem resumeShell (h : SpaceInv k k.settle.procs use) (ht : k.TableInv) (hsh : k.InShell) :
    ∃ use', SpaceInv k.resumeShell k.resumeShell.settle.procs use' ∧ Keeping use use' := by
  have ha := ht.agree
  have hslot := @ht.slot
  unfold settle at h ha
  unfold Kernel.resumeShell
  cases hcall : k.shell with
  | idle =>
    rw [hcall] at h
    exact ⟨use, by rw [settle_of_idle hcall]; exact h, .refl _⟩
  | record slot p | mark slot code =>
    rw [hcall] at h
    exact ⟨use, h.withProcs h.spaces, .refl _⟩
  | clear slot current =>
    rw [hcall] at h
    rw [TableInv.settle_reapFrom]
    exact ⟨use, h.withProcs h.spaces, .refl _⟩
  | reap slot current =>
    rw [hcall] at h ha
    dsimp only at h ha ⊢
    generalize hr : k.reapSpace current slot = res
    obtain ⟨b, k'⟩ := res
    cases b with
    | true =>
      obtain ⟨use', h', hk⟩ := h.reapSpace ha (hslot hcall) (fun _ hu => by
        have hcur : k.sched.current = 0 := by simp [Sched.current, hsh.1]
        rw [hcur, ht.ready.shell.2.1] at hu
        cases hu) hr
      exact ⟨use', h'.withProcs h'.spaces, hk⟩
    | false =>
      rcases k.reapSpace_cases current slot with he | ⟨-, -, ⟨-, he⟩ | ⟨a, -, -, he⟩⟩ <;> rw [hr] at he <;> cases he
      dsimp only
      rw [TableInv.settle_reapFrom]
      exact ⟨use, h.withProcs h.spaces, .refl _⟩

end SpaceInv

/-! ### Steps -/

namespace Kernel

/-- The image that the event spawns. -/
def spawnImage : KernelEvent → Option Image
  | .bootSpawn img | .spawn img | .syscall _ (.spawn (some img)) => some img
  | _ => none

/-- What the steps of a run have to meet. No interrupt stops the shell inside a call, pids do not run out, images keep
    off 2 MiB pages, freed stacks merge inside one page run, and `kernel_main` maps user pages. -/
structure Orderly (k : Kernel) (e : KernelEvent) : Prop where
  undisturbed : k.Undisturbed e
  pid : spawns e = true → k.nextPid.toNat < 2 ^ 31 - 1
  spawn : ∀ img, spawnImage e = some img → k.CanSpawn img
  map : ∀ as virt flags, e = .mapPage as virt flags → Layout.UserFlags flags ∧ pageIndex 0 virt ≠ 511

end Kernel

namespace SpaceInv
open Kernel
variable {k k' : Kernel} {use : Nat → Use}

theorem createSpace (h : SpaceInv k k.procs use) {as : Option Nat} {s' : Machine}
    (hc : k.machine.vmmCreateAddressSpace = .ok (as, s')) :
    ∃ use', SpaceInv (k.withMachine s') k.procs use' ∧ Keeping use use' := by
  rcases h.memory.layout.vmmCreateAddressSpace hc with ⟨-, rfl, -⟩ | ⟨a, r, use', -, hn⟩
  · exact ⟨use, h, .refl _⟩
  · exact ⟨use', h.withMachine hn.layout hn.grows hn.kernelPml4, hn.grows.keeping⟩

theorem mapPage (h : SpaceInv k k.procs use) {as virt : Nat} {flags : Word} (hfl : Layout.UserFlags flags)
    (h511 : pageIndex 0 virt ≠ 511) (ha : alive k.machine.log as = true) {ok : Bool} {s' : Machine}
    (hm : k.machine.mapNewPage (.page as) virt flags = .ok (ok, s')) :
    ∃ use', SpaceInv (k.withMachine s') k.procs use' ∧ Keeping use use' := by
  obtain ⟨r, har⟩ := (h.memory.layout.live as).mp ha
  have hmap := @Layout.mapNewPage fun _ => True
  rcases hmap h.memory.layout har hfl h511 True.intro True.intro hm with
    ⟨-, rfl, -⟩ | ⟨-, use', f, hl, -⟩
  · exact ⟨use, h, .refl _⟩
  · exact ⟨use', h.withMachine hl.layout hl.grows hl.steady.kernelPml4, hl.grows.keeping⟩

/-- User code writes only to pages that its address space maps. -/
theorem store (h : SpaceInv k k.procs use) (hu : k.InUser) {virt phys : Nat} (b : BitVec 8)
    (hw : k.machine.mem.hardwareWalk k.sched.cr3 virt = some (phys, true)) :
    SpaceInv (k.withMachine { k.machine with mem := k.machine.mem.writeByte phys b }) k.procs use := by
  obtain ⟨a, -, ha⟩ := h.current.user hu.1 hu.2.1
  have htab := h.memory.layout.tables
  have hroot := (htab.space ha).2.1
  obtain ⟨f, hf, hphys⟩ := htab.hardwareWalk_mapped hroot hw
  have hnode : use (phys / 4096) = .node (treeOf k.machine.kernelPml4 k.sched.cr3 virt) (pagePath virt 4) := by
    rw [show phys / 4096 = f by omega]
    exact htab.tableAt_node hroot (by decide) hf
  exact h.withMachine (h.memory.layout.writeByte hnode (pagePath_length _ _) b)
    (.write (fun _ => True) hnode True.intro fun hl => by rw [pagePath_length] at hl; cases hl) rfl

/-- A step keeps the labels right, and frees no page that was kept. -/
theorem step {e : KernelEvent} (h : SpaceInv k k.settle.procs use) (ht : k.TableInv) (hok : k.Orderly e)
    (hs : k.step e k') :
    ∃ use', SpaceInv k' k'.settle.procs use' ∧ Keeping use use' := by
  by_cases hres : e = .resume
  · subst hres
    obtain ⟨hsh, -, rfl⟩ := hs
    exact h.resumeShell ht hsh
  have hi : k.shell = .idle := by
    by_contra hc
    exact hres (hok.undisturbed hc)
  rw [settle_of_idle hi] at h
  have ha := ht.agree_of_idle hi
  -- Outside of its calls the shell has no writes to make.
  have hidle : ∀ {k' : Kernel} {use' : Nat → Use}, k'.shell = .idle → SpaceInv k' k'.procs use' ∧ Keeping use use' →
      ∃ use', SpaceInv k' k'.settle.procs use' ∧ Keeping use use' := fun hi' h' => by
    rw [settle_of_idle hi']
    exact ⟨_, h'⟩
  cases e with
  | bootSpawn img =>
    obtain ⟨-, pid, hs⟩ := hs
    obtain ⟨use', h'⟩ := h.processSpawnFromElf ht.current (hok.spawn img rfl) hs
    exact hidle (ht.processSpawnFromElf hi (hok.pid rfl) hs).2.1 h'
  | createSpace =>
    obtain ⟨-, as, machine, hc, rfl⟩ := hs
    obtain ⟨use', h'⟩ := h.createSpace hc
    exact hidle hi h'
  | mapPage as virt flags =>
    obtain ⟨-, halive, ok, machine, hm, rfl⟩ := hs
    obtain ⟨hfl, h511⟩ := hok.map as virt flags rfl
    obtain ⟨use', h'⟩ := h.mapPage hfl h511 halive hm
    exact hidle hi h'
  | schedule =>
    obtain ⟨-, next, hs⟩ := hs
    obtain ⟨use', h'⟩ := h.contextSwitchFrom ht.ready ha hs
    exact hidle (TableInv.contextSwitchFrom ht.ready ha ht.pos hi hs).2.1 h'
  | tick rsp =>
    obtain ⟨next, hs⟩ := hs
    obtain ⟨use', h'⟩ := h.scheduleOnTick ht.ready ha hs
    exact hidle (ht.scheduleOnTick hi hs).2.1 h'
  | wake tid =>
    obtain rfl := hs
    have hk := Sched.Keeps.taskWake k.sched tid
    have hcr3 : (k.sched.taskWake tid).cr3 = k.sched.cr3 := by
      rcases k.sched.taskWake_cases tid with he | ⟨-, -, he⟩ <;> rw [he]
      rfl
    exact hidle hi ⟨h.keeps hk (Sched.KeepsStacks.taskWake k.sched tid).stack
      (h.current.congr (k.sched.taskWake_currentTid tid) hcr3 (fun _ => hk.isUser _) fun _ => hk.addressSpace _),
        .refl _⟩
  | store virt b =>
    obtain ⟨hu, phys, hw, rfl⟩ := hs
    exact hidle hi ⟨h.store hu b hw, .refl _⟩
  | syscall frame call =>
    obtain ⟨hu, next, hs⟩ := hs
    cases call with
    | exit code =>
      obtain ⟨hr, hagree, -, -⟩ := ht.exit hi hu code
      have hidle' := (ht.syscallExit hi hu hs).2.1
      rw [ht.exit_return hi hu] at hs
      obtain ⟨use', h'⟩ := (h.sysExit ht hi hu code).taskScheduleFromInterrupt hr hagree hs
      exact hidle hidle' h'
    | spawn img =>
      rcases ht.syscallSpawn (hok.pid rfl) hs with ⟨-, rfl⟩ | ⟨img', pid, rfl, hsp⟩
      · exact hidle hi ⟨h, .refl _⟩
      · obtain ⟨use', h'⟩ := h.processSpawnFromElf ht.current (hok.spawn img' rfl) hsp
        exact hidle (ht.processSpawnFromElf hi (hok.pid rfl) hsp).2.1 h'
    | write ptr len | yield | getpid | unknown =>
      obtain ⟨use', h'⟩ := h.syscallReturn ht hi hu hs
      exact hidle (ht.syscallReturn hi hu hs).2.1 h'
  | spawn img =>
    obtain ⟨-, -, hs⟩ := hs
    exact h.shellSpawn ht.current hi (hok.spawn img rfl) hs
  | kill pid code =>
    obtain ⟨-, -, rfl⟩ := hs
    exact ⟨use, h.shellKill ht hi pid code, .refl _⟩
  | reap =>
    obtain ⟨-, -, rfl⟩ := hs
    rw [TableInv.settle_reapFrom]
    exact ⟨use, h.withProcs h.spaces, .refl _⟩
  | wait pid =>
    obtain ⟨-, -, rfl⟩ := hs
    have hi' : (k.processWaitPoll pid).2.shell = .idle := by
      rcases k.processWaitPoll_cases pid with he | ⟨i, -, he⟩ <;> rw [he] <;> exact hi
    exact hidle hi' ⟨h.processWaitPoll pid, .refl _⟩
  | sleep =>
    obtain ⟨hsh, -, sched, hs, rfl⟩ := hs
    obtain ⟨hk, -, -⟩ := ht.ready.sleep hsh.1 hsh.2 hs
    obtain ⟨-, rfl⟩ := Sched.taskSleep_eq_ok hs
    exact hidle hi ⟨h.keeps hk (Sched.modify_kernelStack (by intro _; rfl))
      (h.current.congr rfl rfl (fun _ => hk.isUser _) fun _ => hk.addressSpace _), .refl _⟩
  | resume => exact absurd rfl hres

end SpaceInv
end SamOS
