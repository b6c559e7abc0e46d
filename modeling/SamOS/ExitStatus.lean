import SamOS.ProcessLaws

/-! Exit statuses. A process that has ended keeps its entry until `process_wait_poll` delivers its exit code, or until
    a spawn takes the entry: `alloc_process_slot` only asks whether the process was reaped. -/

namespace SamOS
open Function Lts Result

/-! ### Entries -/

/-- What `process_wait_poll` reads of an entry to tell how the process stands. -/
def Process.status (p : Process) : Bool × Int × Bool × Int := (p.used, p.pid, p.exited, p.exitCode)

/-- The entry of a process that has ended with the code. -/
structure Process.EndedWith (p : Process) (pid code : Int) : Prop where
  used : p.used = true
  pid : p.pid = pid
  exited : p.exited = true
  code : p.exitCode = code

theorem Process.EndedWith.of_status {p p' : Process} {pid code : Int} (h : p.EndedWith pid code)
    (hs : p'.status = p.status) :
    p'.EndedWith pid code := by
  obtain ⟨h₁, h₂, h₃, h₄⟩ : p'.used = p.used ∧ p'.pid = p.pid ∧ p'.exited = p.exited ∧ p'.exitCode = p.exitCode := by
    simpa [Process.status] using hs
  exact ⟨h₁.trans h.used, h₂.trans h.pid, h₃.trans h.exited, h₄.trans h.code⟩

/-- The table where the processes `ended`, each with its exit code, have ended and were not waited for, and the
    entries of those in `replaced` were given to others. -/
structure Exits (procs : Nat → Process) (next : Int) (ended : List (Int × Int)) (replaced : List Int) : Prop where
  kept : ∀ x ∈ ended, x.1 ∉ replaced → ∃ i < maxProcesses, (procs i).EndedWith x.1 x.2
  gone : ∀ pid ∈ replaced, ∀ i < maxProcesses, (procs i).used = true → (procs i).pid ≠ pid
  bound : ∀ pid ∈ replaced, pid < next

namespace Exits
variable {s : Sched} {procs procs' : Nat → Process} {next : Int} {ended : List (Int × Int)} {replaced : List Int}
  {i : Nat} {p : Process}

theorem congr (h : Exits procs next ended replaced) (hs : ∀ i, (procs' i).status = (procs i).status) :
    Exits procs' next ended replaced := by
  refine ⟨fun x hx hr => ?_, fun pid hpid i hi hu => ?_, h.bound⟩
  · obtain ⟨i, hi, he⟩ := h.kept x hx hr
    exact ⟨i, hi, he.of_status (hs i)⟩
  · obtain ⟨hused, hp, -⟩ : (procs' i).used = (procs i).used ∧ (procs' i).pid = (procs i).pid ∧ _ := by
      simpa [Process.status] using hs i
    rw [hp]
    exact h.gone pid hpid i hi (hused ▸ hu)

theorem mono (h : Exits procs next ended replaced) {next' : Int} (hn : next ≤ next') :
    Exits procs next' ended replaced :=
  ⟨h.kept, h.gone, fun pid hpid => Int.lt_of_lt_of_le (h.bound pid hpid) hn⟩

theorem spawn (h : Exits procs next ended replaced) (ha : Agree s procs next) (hi : i < maxProcesses)
    (hp : p.pid = next) :
    Exits (update procs i p) (next + 1) ended
      ((if (procs i).used then some (procs i).pid else none).toList ++ replaced) := by
  refine ⟨fun x hx hr => ?_, fun pid hpid j hj hu => ?_, fun pid hpid => ?_⟩
  · obtain ⟨hnew, hold⟩ := not_or.mp (fun h => hr (List.mem_append.mpr h))
    obtain ⟨j, hj, he⟩ := h.kept x hx hold
    have hji : j ≠ i := by
      rintro rfl
      rw [if_pos he.used] at hnew
      exact hnew (by simp [he.pid])
    exact ⟨j, hj, by rw [update_of_ne hji]; exact he⟩
  · rcases List.mem_append.mp hpid with hnew | hold
    · split at hnew <;> simp only [Option.toList, List.mem_singleton, List.not_mem_nil] at hnew
      rename_i hused
      subst hnew
      by_cases hji : j = i
      · rw [hji, update_self, hp]
        have := (ha.range i hi hused).2
        omega
      · rw [update_of_ne hji] at hu ⊢
        exact fun he => hji (ha.distinct j hj i hi hu hused he)
    · by_cases hji : j = i
      · rw [hji, update_self, hp]
        have := h.bound pid hold
        omega
      · rw [update_of_ne hji] at hu ⊢
        exact h.gone pid hold j hj hu
  · rcases List.mem_append.mp hpid with hnew | hold
    · split at hnew <;> simp only [Option.toList, List.mem_singleton, List.not_mem_nil] at hnew
      rename_i hused
      have := (ha.range i hi hused).2
      omega
    · have := h.bound pid hold
      omega

theorem exit (h : Exits procs next ended replaced) (ha : Agree s procs next) (hi : i < maxProcesses)
    (hact : (procs i).Active) {code : Int} (hp : p.EndedWith (procs i).pid code) :
    (procs i).pid ∉ ended.map Prod.fst ∧ Exits (update procs i p) next
      (((procs i).pid, code) :: ended) replaced := by
  have hnot : (procs i).pid ∉ replaced := fun hr => h.gone _ hr i hi hact.1 rfl
  have hfirst : (procs i).pid ∉ ended.map Prod.fst := by
    intro hmem
    obtain ⟨x, hx, hpid⟩ := List.mem_map.mp hmem
    obtain ⟨j, hj, he⟩ := h.kept x hx (hpid ▸ hnot)
    obtain rfl := ha.distinct j hj i hi he.used hact.1 (he.pid.trans hpid)
    exact Bool.false_ne_true (hact.2.symm.trans he.exited)
  refine ⟨hfirst, fun x hx hr => ?_, fun pid hpid j hj hu => ?_, h.bound⟩
  · rcases List.mem_cons.mp hx with rfl | hx
    · exact ⟨i, hi, by rw [update_self]; exact hp⟩
    · obtain ⟨j, hj, he⟩ := h.kept x hx hr
      have hji : j ≠ i := by
        rintro rfl
        exact Bool.false_ne_true (hact.2.symm.trans he.exited)
      exact ⟨j, hj, by rw [update_of_ne hji]; exact he⟩
  · by_cases hji : j = i
    · rw [hji, update_self, hp.pid]
      exact fun he => hnot (he ▸ hpid)
    · rw [update_of_ne hji] at hu ⊢
      exact h.gone pid hpid j hj hu

theorem wait (h : Exits procs next ended replaced) (hused : (procs i).used = true)
    (hp : p = procs i ∨ p.used = false) :
    Exits (update procs i p) next (ended.filter fun x => x.1 ≠ (procs i).pid) replaced := by
  refine ⟨fun x hx hr => ?_, fun pid hpid j hj hu => ?_, h.bound⟩
  · obtain ⟨hx, hne⟩ := List.mem_filter.mp hx
    obtain ⟨j, hj, he⟩ := h.kept x hx hr
    have hji : j ≠ i := by
      rintro rfl
      simp [he.pid] at hne
    exact ⟨j, hj, by rw [update_of_ne hji]; exact he⟩
  · by_cases hji : j = i
    · rw [hji, update_self] at hu ⊢
      rcases hp with rfl | hp
      · exact h.gone pid hpid i (hji ▸ hj) hused
      · rw [hp] at hu
        cases hu
    · rw [update_of_ne hji] at hu ⊢
      exact h.gone pid hpid j hj hu

end Exits

namespace Kernel
variable {k k' k'' : Kernel}

/-! ### Switches -/

/-- Reaping and switching leave the statuses as they are. -/
structure SameExits (k k' : Kernel) : Prop where
  status : ∀ i, (k'.procs i).status = (k.procs i).status
  nextPid : k'.nextPid = k.nextPid
  shell : k'.shell = k.shell

namespace SameExits

theorem refl (k : Kernel) : SameExits k k := ⟨fun _ => rfl, rfl, rfl⟩

theorem trans (h : SameExits k k') (h' : SameExits k' k'') : SameExits k k'' :=
  ⟨fun i => (h'.status i).trans (h.status i), h'.nextPid.trans h.nextPid, h'.shell.trans h.shell⟩

theorem clearEntry (k : Kernel) (i : Nat) : SameExits k (k.clearEntry i) := by
  refine ⟨fun j => ?_, rfl, rfl⟩
  by_cases hji : j = i
  · rw [hji, Kernel.clearEntry, setProc_procs, update_self]
    rfl
  · rw [Kernel.clearEntry, setProc_procs, update_of_ne hji]

theorem reapEntry (k : Kernel) (current : AsPtr) (i : Nat) : SameExits k (k.reapEntry current i) := by
  unfold Kernel.reapEntry
  rcases k.reapSpace_cases current i with he | ⟨-, -, ⟨-, he⟩ | ⟨a, -, -, he⟩⟩ <;> rw [he]
  · exact .refl k
  · exact clearEntry k i
  · have hspace : SameExits k (k.withMachine (k.machine.vmmDestroyAddressSpace a)) := ⟨fun _ => rfl, rfl, rfl⟩
    exact hspace.trans (clearEntry _ i)

theorem processReapDeferred (k : Kernel) : SameExits k k.processReapDeferred :=
  Loop.forRange_keeps (P := SameExits k) (.refl k) fun i k' _ _ h => h.trans (reapEntry k' k.currentAs i)

variable {next : Nat}

theorem contextSwitchFrom {rsp : Nat} (h : k.contextSwitchFrom rsp = .ok (next, k')) : SameExits k k' := by
  have hreap := processReapDeferred k
  unfold Kernel.contextSwitchFrom at h
  generalize k.processReapDeferred = k₁ at h hreap
  obtain ⟨⟨n, s⟩, -, h⟩ := of_bind_eq_ok h
  cases h
  exact hreap.trans ⟨fun _ => rfl, rfl, rfl⟩

theorem taskScheduleFromInterrupt {frame : Nat} (h : k.taskScheduleFromInterrupt frame = .ok (next, k')) :
    SameExits k k' := by
  unfold Kernel.taskScheduleFromInterrupt at h
  split at h
  · cases h
  · exact contextSwitchFrom h

theorem withSched (k : Kernel) (s : Sched) : SameExits k (k.withSched s) := ⟨fun _ => rfl, rfl, rfl⟩

theorem scheduleOnTick {rsp : Nat} (h : k.scheduleOnTick rsp = .ok (next, k')) : SameExits k k' := by
  rcases scheduleOnTick_cases h with ⟨-, -, rfl⟩ | ⟨-, h⟩
  · exact withSched k _
  · exact (withSched k _).trans (contextSwitchFrom h)

theorem syscallReturn {frame : Nat} {ret : Word} (h : k.syscallReturn frame ret = .ok (next, k')) : SameExits k k' := by
  rcases syscallReturn_cases h with ⟨-, -, h⟩ | ⟨-, -, rfl⟩
  · exact (withSched k _).trans (contextSwitchFrom h)
  · exact .refl k'

/-- The shell goes on with its call: what it was about to write is what it writes. -/
theorem resumeShell (k : Kernel) : (∀ i, (k.resumeShell.settle.procs i).status = (k.settle.procs i).status) ∧
    k.resumeShell.nextPid = k.nextPid := by
  unfold Kernel.resumeShell
  cases hsh : k.shell with
  | idle => exact ⟨fun _ => rfl, rfl⟩
  | record slot p =>
    refine ⟨fun i => ?_, rfl⟩
    unfold settle
    rw [hsh]
    rfl
  | mark slot code =>
    refine ⟨fun i => ?_, rfl⟩
    unfold settle
    rw [hsh]
    rfl
  | clear slot current =>
    dsimp only
    rw [TableInv.settle_reapFrom]
    refine ⟨fun i => ?_, rfl⟩
    unfold settle
    rw [hsh]
    rfl
  | reap slot current =>
    have hk : k.settle = k := by
      unfold settle
      rw [hsh]
    rw [hk]
    dsimp only
    rcases k.reapSpace_cases current slot with he | ⟨-, -, ⟨-, he⟩ | ⟨a, -, -, he⟩⟩ <;> rw [he]
    · dsimp only
      rw [TableInv.settle_reapFrom]
      exact ⟨fun _ => rfl, rfl⟩
    · exact ⟨(clearEntry k slot).status, rfl⟩
    · exact ⟨(clearEntry k slot).status, rfl⟩

end SameExits

/-! ### Runs -/

/-- The process that the event ends and its exit code: `sys_exit`, or a `process_kill` that returns `0`. -/
def exitOf (k : Kernel) : KernelEvent → Option (Int × Int)
  | .syscall _ (.exit code) => some (k.sched.taskCurrentPid, code)
  | .kill pid code => if (k.processKill pid code).1 = 0 then some (pid, code) else none
  | _ => none

/-- The process that the event waits for, if `process_wait_poll` returns `1`. -/
def waitedFor (k : Kernel) : KernelEvent → Option Int
  | .wait pid => if (k.processWaitPoll pid).1.1 = 1 then some pid else none
  | _ => none

/-- The process whose entry the event gives to a new one. -/
def replacedBy (k : Kernel) (e : KernelEvent) : Option Int :=
  (spawnImage e).bind fun img =>
    match k.prepareSpawn img with
    | .ok (some (slot, _), _) => if (k.procs slot).used then some (k.procs slot).pid else none
    | _ => none

end Kernel

/-- The kernel with what happened to its processes: those that ended and were not waited for since, each with the code
    that it ended with first, and those whose entry went to another process. -/
structure ExitRun where
  kernel : Kernel
  ended : List (Int × Int)
  replaced : List Int

namespace ExitRun

def endedAfter (r : ExitRun) (e : KernelEvent) : List (Int × Int) :=
  match r.kernel.exitOf e, r.kernel.waitedFor e with
  | some x, _ => if x.1 ∈ r.ended.map Prod.fst then r.ended else x :: r.ended
  | none, some pid => r.ended.filter fun x => x.1 ≠ pid
  | none, none => r.ended

def step (r : ExitRun) (e : KernelEvent) (r' : ExitRun) : Prop :=
  r.kernel.step e r'.kernel ∧ r'.ended = r.endedAfter e ∧ r'.replaced = (r.kernel.replacedBy e).toList ++ r.replaced

/-- No interrupt stops the shell inside a call, and pids do not run out. -/
def Steady (r : ExitRun) (e : KernelEvent) : Prop :=
  r.kernel.Undisturbed e ∧ (Kernel.spawns e = true → r.kernel.nextPid.toNat < 2 ^ 31 - 1)

end ExitRun

/-- All runs of the kernel. -/
def exitRuns (fw : Platform) (img : KernelImage) : Lts.System ExitRun KernelEvent where
  init r := (kernels fw img).init r.kernel ∧ r.ended = [] ∧ r.replaced = []
  step := ExitRun.step

namespace Kernel
variable {k k' : Kernel} {ended : List (Int × Int)} {replaced : List Int}

/-! ### Steps -/

section Spawn
variable {img : Image} {e : KernelEvent} (ht : k.TableInv) (hi : k.shell = .idle) (hlt : k.nextPid.toNat < 2 ^ 31 - 1)
  (h : Exits k.procs k.nextPid.toNat ended replaced) (he : spawnImage e = some img)
include ht hi hlt h he

omit ht hi in
theorem exits_spawn_none (hp : k.prepareSpawn img = .ok (none, k')) :
    Exits k'.procs k'.nextPid.toNat ended ((k.replacedBy e).toList ++ replaced) := by
  have hreplaced : k.replacedBy e = none := by
    unfold replacedBy
    rw [he, Option.bind_some, hp]
  rw [hreplaced]
  cases prepareSpawn_tables hp with
  | fails _ _ _ _ hprocs hn _ =>
    rw [hprocs]
    refine h.mono ?_
    rcases hn with hn | hn <;> rw [hn]
    rw [(TableInv.nextPid_succ hlt).2]
    omega

theorem exits_spawn_some {slot : Nat} {p : Process} (hp : k.prepareSpawn img = .ok (some (slot, p), k')) :
    Exits (k'.setProc slot p).procs k'.nextPid.toNat ended ((k.replacedBy e).toList ++ replaced) := by
  have hreplaced : k.replacedBy e = if (k.procs slot).used then some (k.procs slot).pid else none := by
    unfold replacedBy
    rw [he, Option.bind_some, hp]
  obtain ⟨hpid, hsucc⟩ := TableInv.nextPid_succ hlt
  rw [hreplaced]
  cases prepareSpawn_tables hp with
  | starts hslot _ _ _ hprocs hn _ =>
    rw [setProc_procs, hprocs, hn, hsucc, Nat.cast_succ]
    exact h.spawn (ht.agree_of_idle hi) (allocProcessSlot_eq_some hslot).1 hpid

theorem exits_processSpawnFromElf {pid : Int} (hs : k.processSpawnFromElf img = .ok (pid, k')) :
    Exits k'.procs k'.nextPid.toNat ended ((k.replacedBy e).toList ++ replaced) := by
  unfold Kernel.processSpawnFromElf at hs
  obtain ⟨⟨found, k₁⟩, hp, hs⟩ := of_bind_eq_ok hs
  cases found with
  | none =>
    cases hs
    exact exits_spawn_none hlt h he hp
  | some found =>
    cases hs
    exact exits_spawn_some ht hi hlt h he hp

theorem exits_shellSpawn (hs : k.shellSpawn img = .ok k') :
    Exits k'.settle.procs k'.nextPid.toNat ended ((k.replacedBy e).toList ++ replaced) := by
  unfold Kernel.shellSpawn at hs
  obtain ⟨⟨found, k₁⟩, hp, hs⟩ := of_bind_eq_ok hs
  cases found with
  | none =>
    cases hs
    obtain ⟨-, hidle, -⟩ := ht.spawn_none hi hlt (prepareSpawn_tables hp)
    rw [settle_of_idle hidle]
    exact exits_spawn_none hlt h he hp
  | some found =>
    cases hs
    have hspawned := exits_spawn_some ht hi hlt h he hp
    exact hspawned

end Spawn

theorem endedWith_marked {i : Nat} (code : Int) (hact : (k.procs i).Active) :
    Process.EndedWith { k.procs i with exited := true, exitCode := code, reapPending := true } (k.procs i).pid code :=
  ⟨hact.1, rfl, rfl, rfl⟩

theorem processKill_fst (k : Kernel) (pid code : Int) : (k.processKill pid code).1 = (k.beginKill pid code).1 := by
  unfold processKill
  split <;> rename_i he <;> rw [he]

section Calls
variable (ht : k.TableInv) (hi : k.shell = .idle) (h : Exits k.procs k.nextPid.toNat ended replaced)
include ht hi h

theorem exits_sysExit (hu : k.InUser) {frame next : Nat} {code : Int}
    (hs : k.syscallDispatch frame (.exit code) = .ok (next, k')) :
    k.sched.taskCurrentPid ∉ ended.map Prod.fst ∧ k'.shell = .idle ∧
    Exits k'.procs k'.nextPid.toNat ((k.sched.taskCurrentPid, code) :: ended) replaced := by
  obtain ⟨i, hlt, hact, hrun, he⟩ := ht.sysExit_eq hi hu code
  have hpid : k.sched.taskCurrentPid = (k.procs i).pid := by
    have h0 := hu.1
    rw [Sched.taskCurrentPid, if_neg (by omega), hrun.pid]
  rw [ht.exit_return hi hu] at hs
  have hsame := SameExits.taskScheduleFromInterrupt hs
  rw [he] at hsame
  obtain ⟨hfirst, hexits⟩ := h.exit (ht.agree_of_idle hi) hlt hact (endedWith_marked code hact)
  rw [hpid, hsame.nextPid]
  exact ⟨hfirst, hsame.shell.trans hi, hexits.congr hsame.status⟩

theorem exits_shellKill (pid code : Int) :
    if (k.processKill pid code).1 = 0 then
      pid ∉ ended.map Prod.fst ∧ Exits (k.shellKill pid code).settle.procs (k.shellKill pid code).nextPid.toNat
        ((pid, code) :: ended) replaced
    else Exits (k.shellKill pid code).settle.procs (k.shellKill pid code).nextPid.toNat ended replaced := by
  have ha := ht.agree_of_idle hi
  rw [processKill_fst]
  unfold shellKill
  rcases TableInv.beginKill_cases ha ht.ready pid code with
    ⟨res, hres, he, -⟩ | ⟨i, hlt, t, -, hact, -, rfl, he⟩ <;> rw [he]
  · rw [if_neg hres]
    dsimp only
    rw [settle_of_idle hi]
    exact h
  · rw [if_pos rfl]
    exact h.exit ha hlt hact (endedWith_marked code hact)

end Calls

/-- `process_wait_poll` gives up the entry of a process that was reaped. -/
theorem exits_processWaitPoll (h : Exits k.procs k.nextPid.toNat ended replaced) (pid : Int) :
    (k.processWaitPoll pid).2.shell = k.shell ∧
    Exits (k.processWaitPoll pid).2.procs (k.processWaitPoll pid).2.nextPid.toNat
      (if (k.processWaitPoll pid).1.1 = 1 then ended.filter fun x => x.1 ≠ pid else ended) replaced := by
  unfold processWaitPoll
  cases hf : k.findProcessByPid pid with
  | none => exact ⟨rfl, h⟩
  | some i =>
    obtain ⟨-, hq⟩ := firstProc_eq_some hf
    simp only [Bool.and_eq_true, decide_eq_true_eq] at hq
    obtain ⟨hused, rfl⟩ := hq
    dsimp only
    split
    · exact ⟨rfl, h⟩
    · split
      · exact ⟨rfl, h.wait hused (Or.inr rfl)⟩
      · have hwait := h.wait hused (Or.inl rfl)
        rw [update_eq_self] at hwait
        exact ⟨rfl, hwait⟩

end Kernel

namespace ExitRun
open Kernel
variable {r r' : ExitRun} {fw : Platform} {img : KernelImage}

/-- Once the shell has finished its call, the tables agree and hold the statuses. -/
structure Inv (r : ExitRun) : Prop where
  table : r.kernel.TableInv
  exits : Exits r.kernel.settle.procs r.kernel.nextPid.toNat r.ended r.replaced

variable {e : KernelEvent}

theorem endedAfter_of_none (hx : r.kernel.exitOf e = none) (hw : r.kernel.waitedFor e = none) :
    r.endedAfter e = r.ended := by
  unfold endedAfter
  rw [hx, hw]

theorem endedAfter_of_exit {pid code : Int} (hx : r.kernel.exitOf e = some (pid, code))
    (hfirst : pid ∉ r.ended.map Prod.fst) : r.endedAfter e = (pid, code) :: r.ended := by
  unfold endedAfter
  rw [hx]
  exact if_neg hfirst

theorem Inv.exits_step (h : r.Inv) (hok : r.Steady e) (hs : r.kernel.step e r'.kernel) :
    Exits r'.kernel.settle.procs r'.kernel.nextPid.toNat (r.endedAfter e)
      ((r.kernel.replacedBy e).toList ++ r.replaced) := by
  obtain ⟨hund, hlt⟩ := hok
  have hidle (hne : e ≠ .resume) : r.kernel.shell = .idle := by
    by_contra hc
    exact hne (hund hc)
  have hexits (hne : e ≠ .resume) : Exits r.kernel.procs r.kernel.nextPid.toNat r.ended r.replaced := by
    have hx := h.exits
    rwa [settle_of_idle (hidle hne)] at hx
  -- the steps that end no process, wait for none and spawn none
  have same (hne : e ≠ .resume) (hx : r.kernel.exitOf e = none) (hw : r.kernel.waitedFor e = none)
    (hr : r.kernel.replacedBy e = none)
      (hsame : SameExits r.kernel r'.kernel) : Exits r'.kernel.settle.procs r'.kernel.nextPid.toNat (r.endedAfter e)
        ((r.kernel.replacedBy e).toList ++ r.replaced) := by
    rw [endedAfter_of_none hx hw, hr, settle_of_idle (hsame.shell.trans (hidle hne)), hsame.nextPid]
    exact (hexits hne).congr hsame.status
  cases e with
  | bootSpawn img =>
    obtain ⟨-, pid, hs⟩ := hs
    have hi := hidle nofun
    rw [endedAfter_of_none rfl rfl, settle_of_idle (h.table.processSpawnFromElf hi (hlt rfl) hs).2.1]
    exact exits_processSpawnFromElf h.table hi (hlt rfl) (hexits nofun) rfl hs
  | createSpace =>
    obtain ⟨-, as, machine, -, hk⟩ := hs
    exact same nofun rfl rfl rfl (hk ▸ ⟨fun _ => rfl, rfl, rfl⟩)
  | mapPage as virt flags =>
    obtain ⟨-, -, ok, machine, -, hk⟩ := hs
    exact same nofun rfl rfl rfl (hk ▸ ⟨fun _ => rfl, rfl, rfl⟩)
  | schedule =>
    obtain ⟨-, next, hs⟩ := hs
    exact same nofun rfl rfl rfl (.contextSwitchFrom hs)
  | tick rsp =>
    obtain ⟨next, hs⟩ := hs
    exact same nofun rfl rfl rfl (.scheduleOnTick hs)
  | wake tid => exact same nofun rfl rfl rfl (hs ▸ .withSched _ _)
  | store virt b =>
    obtain ⟨-, phys, -, hk⟩ := hs
    exact same nofun rfl rfl rfl (hk ▸ ⟨fun _ => rfl, rfl, rfl⟩)
  | syscall frame call =>
    obtain ⟨hu, next, hs⟩ := hs
    have hi := hidle nofun
    have hx := hexits nofun
    cases call with
    | exit code =>
      obtain ⟨hfirst, hsh, hexit⟩ := exits_sysExit h.table hi hx hu hs
      rw [endedAfter_of_exit rfl hfirst, settle_of_idle hsh]
      exact hexit
    | spawn img =>
      rcases h.table.syscallSpawn (hlt rfl) hs with ⟨rfl, hk⟩ | ⟨img', pid, rfl, hsp⟩
      · exact same nofun rfl rfl rfl (hk ▸ .refl _)
      · rw [endedAfter_of_none rfl rfl, settle_of_idle (h.table.processSpawnFromElf hi (hlt rfl) hsp).2.1]
        exact exits_processSpawnFromElf h.table hi (hlt rfl) hx rfl hsp
    | write ptr len | yield | getpid | unknown =>
      exact same nofun rfl rfl rfl (.syscallReturn hs)
  | spawn img =>
    obtain ⟨-, hi, hs⟩ := hs
    rw [endedAfter_of_none rfl rfl]
    exact exits_shellSpawn h.table hi (hlt rfl) (hexits nofun) rfl hs
  | kill pid code =>
    obtain ⟨-, hi, hk⟩ := hs
    have hkill := exits_shellKill h.table hi (hexits nofun) pid code
    rw [hk]
    split at hkill
    · rename_i hzero
      have hexit : r.kernel.exitOf (.kill pid code) = some (pid, code) := if_pos hzero
      rw [endedAfter_of_exit hexit hkill.1]
      exact hkill.2
    · rename_i hzero
      have hnone : r.kernel.exitOf (.kill pid code) = none := if_neg hzero
      rw [endedAfter_of_none hnone rfl]
      exact hkill
  | reap =>
    obtain ⟨-, hi, hk⟩ := hs
    rw [hk, TableInv.settle_reapFrom, endedAfter_of_none rfl rfl]
    exact hexits nofun
  | wait pid =>
    obtain ⟨-, hi, hk⟩ := hs
    obtain ⟨hsh, hwait⟩ := exits_processWaitPoll (hexits nofun) pid
    have hended : r.endedAfter (.wait pid) =
        if (r.kernel.processWaitPoll pid).1.1 = 1 then r.ended.filter fun x => x.1 ≠ pid else r.ended := by
      have hwaited : r.kernel.waitedFor (.wait pid) = if (r.kernel.processWaitPoll pid).1.1 = 1 then some pid
        else none := rfl
      unfold endedAfter
      rw [hwaited, show r.kernel.exitOf (.wait pid) = none from rfl]
      by_cases hone : (r.kernel.processWaitPoll pid).1.1 = 1
      · rw [if_pos hone, if_pos hone]
      · rw [if_neg hone, if_neg hone]
    rw [hk, settle_of_idle (hsh.trans hi), hended]
    exact hwait
  | sleep =>
    obtain ⟨-, -, sched, -, hk⟩ := hs
    exact same nofun rfl rfl rfl (hk ▸ .withSched _ _)
  | resume =>
    obtain ⟨-, -, hk⟩ := hs
    obtain ⟨hstatus, hnext⟩ := SameExits.resumeShell r.kernel
    rw [hk, endedAfter_of_none rfl rfl, hnext]
    exact h.exits.congr hstatus

theorem Inv.of_reachable (h : ((exitRuns fw img).guard Steady).Reachable r) : r.Inv := by
  refine h.invariant ?_ ?_
  · rintro r ⟨⟨mem, bytes, shellEntry, idleEntry, hb⟩, hended, hreplaced⟩
    refine ⟨(TableInv.boot hb).1, ?_⟩
    rw [hended, hreplaced]
    exact ⟨nofun, nofun, nofun⟩
  · rintro r e r' hinv ⟨hok, hs, hended, hreplaced⟩
    refine ⟨(hinv.table.step hok.2 hok.1 hs).1, ?_⟩
    rw [hended, hreplaced]
    exact hinv.exits_step hok hs

end ExitRun

namespace Kernel
variable {k : Kernel}

theorem findProcessByPid_of_used {next : Int} (h : Agree k.sched k.procs next) {i : Nat} (hi : i < maxProcesses)
    (hu : (k.procs i).used = true) : k.findProcessByPid (k.procs i).pid = some i := by
  cases hf : k.findProcessByPid (k.procs i).pid with
  | none =>
    have hnone := firstProc_eq_none hf hi
    simp [hu] at hnone
  | some j =>
    obtain ⟨hj, hq⟩ := firstProc_eq_some hf
    simp only [Bool.and_eq_true, decide_eq_true_eq] at hq
    rw [h.distinct j hj i hi hq.1 hu hq.2]

end Kernel

/-- In every run in which no interrupt stops the shell inside a call and pids do not run out, `process_wait_poll`
    delivers the exit code of a process that has ended and was not waited for exactly if no spawn has taken its
    entry. -/
theorem exit_status_delivered_iff {fw : Platform} {img : KernelImage} {r : ExitRun}
    (h : ((exitRuns fw img).guard ExitRun.Steady).Reachable r) (hidle : r.kernel.shell = .idle) {pid code : Int}
    (he : (pid, code) ∈ r.ended) :
    (r.kernel.processWaitPoll pid).1 = (1, some code) ↔ pid ∉ r.replaced := by
  have hinv := ExitRun.Inv.of_reachable h
  have hexits := hinv.exits
  rw [Kernel.settle_of_idle hidle] at hexits
  constructor
  · intro hone hmem
    unfold Kernel.processWaitPoll at hone
    cases hf : r.kernel.findProcessByPid pid with
    | none =>
      rw [hf] at hone
      cases hone
    | some i =>
      obtain ⟨hi, hq⟩ := Kernel.firstProc_eq_some hf
      simp only [Bool.and_eq_true, decide_eq_true_eq] at hq
      exact hexits.gone pid hmem i hi hq.1 hq.2
  · intro hmem
    obtain ⟨i, hi, hended⟩ := hexits.kept (pid, code) he hmem
    have hf := Kernel.findProcessByPid_of_used (hinv.table.agree_of_idle hidle) hi hended.used
    rw [hended.pid] at hf
    have hx : (r.kernel.procs i).exited = true := hended.exited
    unfold Kernel.processWaitPoll
    rw [hf]
    dsimp only
    rw [if_neg (by simp [hx]), hended.code]
    split <;> rfl

namespace ExitRun
variable {fw : Platform} {img : KernelImage} {r : ExitRun} {k k' : Kernel} {es : List KernelEvent}

/-- The events that neither end a process nor wait for one. -/
def quiet : KernelEvent → Bool
  | .syscall _ (.exit _) | .kill _ _ | .wait _ => false
  | _ => true

theorem endedAfter_of_quiet {e : KernelEvent} (h : quiet e = true) : r.endedAfter e = r.ended := by
  refine endedAfter_of_none ?_ ?_
  · unfold Kernel.exitOf
    split <;> first | rfl | cases h
  · unfold Kernel.waitedFor
    split <;> first | rfl | cases h

theorem exists_step {e : KernelEvent} (hs : ((kernels fw img).guard Kernel.Orderly).step r.kernel e k') :
    ∃ r', r'.kernel = k' ∧ r'.ended = r.endedAfter e ∧ ((exitRuns fw img).guard Steady).step r e r' :=
  ⟨⟨k', r.endedAfter e, (r.kernel.replacedBy e).toList ++ r.replaced⟩, rfl, rfl, ⟨hs.1.undisturbed, hs.1.pid⟩,
    hs.2, rfl, rfl⟩

theorem exists_path (hp : ((kernels fw img).guard Kernel.Orderly).Path r.kernel es k') (hq : ∀ e ∈ es, quiet e = true) :
    ∃ r', r'.kernel = k' ∧ r'.ended = r.ended ∧ ((exitRuns fw img).guard Steady).Path r es r' := by
  generalize hk : r.kernel = k at hp
  induction hp with
  | nil => exact ⟨r, hk, rfl, .nil⟩
  | snoc _ hs ih =>
    obtain ⟨r', rfl, hended, hpath⟩ := ih fun e he => hq e (List.mem_cons_of_mem _ he)
    obtain ⟨r'', hk'', hended', hs'⟩ := exists_step hs
    exact ⟨r'', hk'', hended'.trans ((endedAfter_of_quiet (hq _ List.mem_cons_self)).trans hended), hpath.snoc hs'⟩

end ExitRun

namespace Kernel

/-- The shell spawns a process beside the entry of one that has ended and was reaped. -/
theorem exists_spawn_again {k : Kernel} {use : Nat → Use} {t₀ t₁ t₂ : Task} {p : Process} {t : Nat}
    (hm : HeapMemory k use) (h : k.OneProcess t₀ t₁ t₂ 0 p) (hsh : k.shell = .idle) (h₀ : t₀.state = .running)
    (hn : k.nextPid = 2) (hroom : k.machine.pmm.Room 0x10000 0x20000 794)
    (hp : p.exited = true ∧ p.addressSpace = none ∧ p.mainTid = -1) (h0 : t ≠ 0)
    (ht : k.sched.findFreeSlot = some (t, 0, k.sched)) :
    ∃ k', (sampleKernels.guard Orderly).Path k [.resume, .spawn bareImage] k' ∧ k'.shell = .idle ∧
      k'.findProcessByPid 1 = none := by
  obtain ⟨m, cr3, hs⟩ := h.sched
  have hshell : k.InShell := by
    unfold InShell
    rw [hs]
    exact ⟨rfl, h₀⟩
  have hslot : k.allocProcessSlot = some 0 := by
    unfold allocProcessSlot firstProc
    rw [h.procs]
    simp [maxProcesses, List.range_succ, hp.1, hp.2.1, hp.2.2]
  have hav := hm.layout.avoids_bare
  have hcount := hroom.count
  obtain ⟨prog, r, k', use', hsp, -⟩ := prepareSpawn_of_budget hm hav hslot ht
    (Budget.loadProgram_bare k.machine.shares_stack (by omega)) hroom (by dsimp only; omega)
  obtain ⟨hprocs, -, -⟩ := hsp.tables
  obtain ⟨stack, hsched⟩ := hsp.sched
  have hspawn : (sampleKernels.guard Orderly).step k (.spawn bareImage)
      (k'.withShell (.record 0 (prog.process k.nextPid.toInt t))) := by
    refine ⟨⟨fun hne => absurd hsh hne, fun _ => by rw [hn]; decide, ?_, fun _ _ _ h => by cases h⟩, hshell, hsh, ?_⟩
    · intro img himg
      cases himg
      refine ⟨fun _ => hav, fun _ _ slot freed s hf hne => ?_⟩
      cases ht.symm.trans hf
      exact absurd rfl hne
    · unfold shellSpawn
      rw [hsp.prepared]
      rfl
  have hresume : (sampleKernels.guard Orderly).step (k'.withShell (.record 0 (prog.process k.nextPid.toInt t))) .resume
      ((k'.setProc 0 (prog.process k.nextPid.toInt t)).withShell .idle) := by
    refine ⟨.plain (fun _ => rfl) rfl rfl (fun _ _ _ h => by cases h), ?_, (fun h => by cases h), rfl⟩
    unfold InShell
    rw [withShell_sched, hsched, hs]
    refine ⟨rfl, ?_⟩
    show ((update _ t _ : Nat → Task) 0).state = .running
    rw [update_of_ne h0.symm]
    exact h₀
  refine ⟨_, (System.Path.nil.snoc hspawn).snoc hresume, rfl, ?_⟩
  -- the entry is that of process 2, and the others are not used
  unfold findProcessByPid firstProc
  rw [withShell_procs, setProc_procs, hprocs, h.procs, hn, update_idem]
  simp [maxProcesses, List.range_succ, Program.process, Process.blank]

/-- The shell kills the first process, reaps it and spawns another, which gets the same entry. -/
theorem exists_respawned : ∃ k₀ k₁ k₂ k₃ : Kernel, sampleKernels.init k₀ ∧
    (sampleKernels.guard Orderly).Path k₀ [.schedule, .bootSpawn bareImage] k₁ ∧ (k₁.processKill 1 0).1 = 0 ∧
    (∃ k, (sampleKernels.guard Orderly).step k₁ (.kill 1 0) k ∧ (sampleKernels.guard Orderly).step k .resume k₂) ∧
      k₂.shell = .idle ∧
    (k₂.procs 0).EndedWith 1 0 ∧
    (∃ es, (∀ e ∈ es, ExitRun.quiet e = true) ∧ (sampleKernels.guard Orderly).Path k₂ es k₃) ∧ k₃.shell = .idle ∧
    k₃.findProcessByPid 1 = none := by
  obtain ⟨k₀, k, -, stack₀, stack₁, stack, r, prog, h₀, -, hfirst, hproc, hsh, hk, -, hpid, hroom⟩ :=
    exists_spawned fun _ _ => 0
  obtain ⟨k₁, hstart, hproc₁, hm₁, hn₁, hsh₁⟩ := hproc.schedule rfl rfl rfl hk
  have hstart' : (sampleKernels.guard Orderly).step k .schedule k₁ :=
    ⟨.plain (fun hne => absurd hsh hne) rfl rfl nofun, hstart⟩
  have hrun₁ := (System.Path.nil.snoc hfirst).snoc hstart'
  obtain ⟨m, cr3, hkill⟩ := hproc₁.beginKill ⟨rfl, rfl, rfl⟩ ⟨rfl, rfl, rfl⟩ (Or.inl rfl)
  obtain ⟨k₂, hpath₂, hproc₂, hm₂, hn₂, hidle₂⟩ : ∃ k₂, (sampleKernels.guard Orderly).Path k₁ _ k₂ ∧ _ :=
    hproc₁.kill (hsh₁.trans hsh) rfl ⟨rfl, rfl, rfl⟩ ⟨rfl, rfl, rfl⟩ (Or.inl rfl)
  obtain ⟨hpath₃, hproc₃⟩ : (sampleKernels.guard Orderly).Path k₂ _ _ ∧ _ :=
    hproc₂.reapAll hidle₂ rfl rfl ⟨rfl, rfl⟩ rfl
  have hroom₃ := hroom
  rw [← hm₁, ← hm₂] at hroom₃
  have hpid₃ : k₂.nextPid = 2 := hn₂.trans (hn₁.trans hpid)
  generalize hk₃ : ((k₂.withMachine (k₂.machine.vmmDestroyAddressSpace prog.space)).clearEntry 0).withShell .idle =
    k₃ at hpath₃ hproc₃
  have hnext₃ : k₃.nextPid = 2 := hk₃ ▸ hpid₃
  have hsh₃ : k₃.shell = .idle := by rw [← hk₃]; rfl
  replace hroom₃ : k₃.machine.pmm.Room 0x10000 0x20000 794 := hk₃ ▸ hroom₃
  obtain ⟨-, use, hi⟩ := memInv_of_reachable (show ((kernels samplePlatform _).guard Orderly).Reachable k₃ from
    ⟨_, k₀, h₀, (hrun₁.append hpath₂).append hpath₃⟩)
  obtain ⟨t, h0, hslot⟩ := hproc₃.exists_findFreeSlot (Or.inr (Or.inl rfl)) (Or.inl rfl) rfl
  obtain ⟨k₄, hpath₄, hsh₄, hfind₄⟩ := exists_spawn_again hi.memory hproc₃ hsh₃ rfl hnext₃ hroom₃ ⟨rfl, rfl,
    rfl⟩ h0 hslot
  have hkilled : ∃ k, (sampleKernels.guard Orderly).step k₁ (.kill 1 0) k ∧
      (sampleKernels.guard Orderly).step k .resume k₂ := by
    cases hpath₂ with
    | snoc hp hresume =>
      cases hp with
      | snoc hp hk =>
        cases hp
        exact ⟨_, hk, hresume⟩
  refine ⟨k₀, k₁, k₂, k₄, h₀, hrun₁, by rw [processKill_fst, hkill], hkilled, hidle₂, ?_,
    ⟨_, ?_, hpath₃.append hpath₄⟩, hsh₄, hfind₄⟩
  · rw [hproc₂.procs, update_self]
    exact ⟨rfl, rfl, rfl, rfl⟩
  · decide

end Kernel

/-- The history of that run: when process 1 was killed, and when its entry has gone to process 2. -/
theorem ExitRun.exists_replaced :
    ∃ r r' : ExitRun, ((exitRuns samplePlatform Pmm.sampleImage).guard Steady).Reachable r ∧
    r.kernel.shell = .idle ∧ r.ended = [(1, 0)] ∧ (r.kernel.procs 0).EndedWith 1 0 ∧
    ((exitRuns samplePlatform Pmm.sampleImage).guard Steady).Reachable r' ∧ r'.kernel.shell = .idle ∧
      r'.ended = [(1, 0)] ∧
    r'.kernel.findProcessByPid 1 = none := by
  obtain ⟨k₀, k₁, k₂, k₃, h₀, hp₁, hzero, ⟨k, hk, hk₂⟩, hsh₂, hentry, ⟨es, hquiet, hp₃⟩, hsh₃, hfind⟩ :=
    Kernel.exists_respawned
  have hinit : ((exitRuns samplePlatform Pmm.sampleImage).guard Steady).Reachable ⟨k₀, [], []⟩ := .init ⟨h₀, rfl, rfl⟩
  obtain ⟨r₁, rfl, hended₁, hr₁⟩ := exists_path (r := ⟨k₀, [], []⟩) hp₁ (by decide)
  obtain ⟨r, rfl, hended, hr⟩ := exists_step hk
  obtain ⟨r₂, rfl, hended₂, hr₂⟩ := exists_step hk₂
  obtain ⟨r₃, rfl, hended₃, hr₃⟩ := exists_path hp₃ hquiet
  have hkilled : r₂.ended = [(1, 0)] := by
    have hexit : r₁.kernel.exitOf (.kill 1 0) = some (1, 0) := if_pos hzero
    rw [hended₂, endedAfter_of_quiet rfl, hended, endedAfter_of_exit hexit (by rw [hended₁]; exact List.not_mem_nil),
      hended₁]
  have hreach := ((hr₁.reachable hinit).step hr).step hr₂
  exact ⟨r₂, r₃, hreach, hsh₂, hkilled, hentry, hr₃.reachable hreach, hsh₃, hended₃.trans hkilled, hfind⟩

/-- The shell kills process 1 with code 0 and waits for it. -/
theorem exit_status_delivered_killed :
    ∃ r, ((exitRuns samplePlatform Pmm.sampleImage).guard ExitRun.Steady).Reachable r ∧
    r.kernel.shell = .idle ∧ (1, 0) ∈ r.ended ∧ (r.kernel.processWaitPoll 1).1 = (1, some 0) := by
  obtain ⟨r, -, hr, hsh, hended, hentry, -⟩ := ExitRun.exists_replaced
  have hmem : (1, 0) ∈ r.ended := by
    rw [hended]
    exact List.mem_cons_self
  refine ⟨r, hr, hsh, hmem, (exit_status_delivered_iff hr hsh hmem).mpr fun hgone => ?_⟩
  have hexits := (ExitRun.Inv.of_reachable hr).exits
  rw [Kernel.settle_of_idle hsh] at hexits
  exact hexits.gone 1 hgone 0 (by decide) hentry.used hentry.pid

/-- The shell kills process 1 with code 0, reaps it and spawns process 2: the exit code of process 1 is lost. -/
theorem exit_status_lost :
    ∃ r, ((exitRuns samplePlatform Pmm.sampleImage).guard ExitRun.Steady).Reachable r ∧ r.kernel.shell = .idle ∧
    (1, 0) ∈ r.ended ∧ (r.kernel.processWaitPoll 1).1 = (-1, none) := by
  obtain ⟨-, r, -, -, -, -, hr, hsh, hended, hfind⟩ := ExitRun.exists_replaced
  refine ⟨r, hr, hsh, ?_, ?_⟩
  · rw [hended]
    exact List.mem_cons_self
  · unfold Kernel.processWaitPoll
    rw [hfind]

end SamOS
