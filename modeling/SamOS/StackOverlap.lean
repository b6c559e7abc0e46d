import SamOS.StackRuns

/-! Stacks over headers. A creation can be followed on the block list alone as long as no two headers overlap and the
    new stack covers a header in its cleared part or not at all. Such a run ends with two live tasks on one stack. -/

namespace SamOS
open Heap KHeap

/-- The scheduler with the block list in place of memory. -/
structure StackSketch where
  run : Sched.SchedRun
  blocks : List KBlock
  runs : List PageRun

namespace StackSketch

/-- A creation that the block list determines. -/
def create (s : StackSketch) (n : NewTask) (page : Nat) : Option StackSketch :=
  match s.run.sched.findFreeSlot with
  | none => some s
  | some (_, freed, _) =>
    let blocks := (Heap.kfree ⟨s.blocks, true⟩ freed).blocks
    match Heap.kmalloc ⟨blocks, true⟩ 16384 page with
    | .error _ => none
    | .ok (ptr, heap) =>
      let runs := HeapRun.grow ⟨⟨blocks, true⟩, s.runs, []⟩ 16384 page
      if HeadersClear s.blocks ∧ (∀ b ∈ s.blocks, b.addr = freed - 32 ∨ Clear b.addr (freed - 32)) ∧
        HeadersClear blocks ∧ HeadersClear heap.blocks ∧ RunsOk runs ∧ ptr % 16 = 0 ∧ ptr + 16384 ≤ 2 ^ 64 ∧ ptr ≠ 0 then
        (wipe ptr heap.blocks).map fun blocks =>
          { run := { s.run with sched := (s.run.sched.taskCreate ptr n.pid n.pml4 n.isUser n.addressSpace).2.2 }, blocks, runs }
      else none

/-- Creations, the first switch and kills. -/
def step (kernelPml4 : Nat) (s : StackSketch) : StackEvent → Option StackSketch
  | .create n page =>
    if StackRun.Creatable kernelPml4 n ∧
      (s.run.sched.currentTid < 0 ∨ (s.run.sched.tasks s.run.sched.current).state = .running) then
      s.create n page
    else none
  | .call .schedule =>
    match s.run.sched.schedule kernelPml4 with
    | .error _ => none
    | .ok (_, sched) => some { s with run := { sched, inTask := decide (0 ≤ sched.currentTid) } }
  | .call (.kill pid code) =>
    some { s with
      run :=
        { sched := (s.run.sched.taskKillPid pid code).2
          inTask := s.run.inTask && !decide (0 < pid ∧ s.run.sched.killSlot pid = some s.run.sched.current) } }
  | .call _ => none

/-- The events one after the other, where `ok` holds of each. -/
def exec (kernelPml4 : Nat) (ok : StackSketch → StackEvent → Bool) : List StackEvent → StackSketch → Option StackSketch
  | [], s => some s
  | e :: es, s => if ok s e then (s.step kernelPml4 e).bind (exec kernelPml4 ok es) else none

/-- The heap in memory is the one of the list. -/
structure Matches (s : StackSketch) (r : StackRun) : Prop where
  run : r.run = s.run
  lists : r.heap.Lists s.blocks
  ready : r.heap.ready = true
  runs : r.heap.runs = s.runs

variable {s s' : StackSketch} {r : StackRun} {kernelPml4 : Nat}

theorem Matches.create (h : s.Matches r) {n : NewTask} {page : Nat}
    (hcan : s.run.sched.currentTid < 0 ∨ (s.run.sched.tasks s.run.sched.current).state = .running)
    (hs : s.create n page = some s') :
    ∃ r', r.Creates n page r' ∧ s'.Matches r' := by
  unfold StackRun.Creates
  rw [h.run]
  unfold StackSketch.create at hs
  cases hf : s.run.sched.findFreeSlot with
  | none =>
    rw [hf] at hs
    cases hs
    exact ⟨r, ⟨hcan, rfl⟩, h⟩
  | some found =>
    obtain ⟨slot, freed, sched⟩ := found
    rw [hf] at hs
    dsimp only at hs ⊢
    split at hs
    · cases hs
    rename_i ptr heap hk
    split at hs
    · rename_i hok
      obtain ⟨hclear, hfreed, hclear₁, hclear₂, hruns, halign, hlt, h0⟩ := hok
      obtain ⟨blocks, hwipe, rfl⟩ := Option.map_eq_some_iff.mp hs
      obtain ⟨h₁, hf₁, hl₁, hready₁, hruns₁⟩ := h.lists.kfree hclear (fun _ => hfreed) true
      have hready₁ := hready₁.trans h.ready
      obtain ⟨h₂, hk₂, hl₂, hready₂⟩ := hl₁.kmalloc hready₁ hclear₁ hk hclear₂
      have hgrow := hl₁.kmalloc_runs hclear₁ hk₂ []
      rw [hready₁, hruns₁, h.runs] at hgrow
      refine ⟨_, ⟨hcan, h₁, ptr, h₂, hf₁, hk₂, hgrow ▸ hruns, rfl⟩, rfl, ?_, ?_, ?_⟩ <;> dsimp only <;> rw [if_neg h0]
      · exact hl₂.newStack halign hlt _ hwipe
      · exact hready₂
      · exact hgrow
    · cases hs

theorem Matches.step (h : s.Matches r) {e : StackEvent} (hs : s.step kernelPml4 e = some s') :
    ∃ r', r.step kernelPml4 e r' ∧ s'.Matches r' := by
  have hcall {e : Sched.SchedEvent} {run : Sched.SchedRun} (he : ¬e.Creates) (hr : r.run.step kernelPml4 e run) :
      ∃ r', r.step kernelPml4 (.call e) r' ∧ StackSketch.Matches { s with run } r' :=
    ⟨{ r with run }, ⟨he, hr, ⟨fun _ _ _ => rfl, rfl, rfl, rfl⟩, rfl⟩, rfl, h.lists, h.ready, h.runs⟩
  cases e with
  | create n page =>
    rw [StackSketch.step] at hs
    split at hs
    · rename_i hn
      obtain ⟨r', hr', hm⟩ := h.create hn.2 hs
      exact ⟨r', ⟨hn.1, hr'⟩, hm⟩
    · cases hs
  | call e =>
    cases e with
    | schedule =>
      rw [StackSketch.step] at hs
      split at hs
      · cases hs
      · rename_i next sched hsched
        cases hs
        refine hcall (fun h => h) ⟨next, ?_, rfl⟩
        rw [h.run]
        exact hsched
    | kill pid code =>
      cases hs
      refine hcall (fun h => h) ⟨?_, ?_⟩ <;> rw [h.run]
    | _ => cases hs

theorem Matches.path {G : StackRun → StackEvent → Prop} {ok : StackSketch → StackEvent → Bool}
    (hok : ∀ {s r e}, Matches s r → ok s e = true → G r e) {es : List StackEvent} (h : s.Matches r)
    (hs : exec kernelPml4 ok es s = some s') :
    ∃ r', ((stackRuns kernelPml4).guard G).Path r es.reverse r' ∧ s'.Matches r' := by
  induction es generalizing s r with
  | nil =>
    cases hs
    exact ⟨r, .nil, h⟩
  | cons e es ih =>
    rw [exec] at hs
    split at hs
    · rename_i he
      obtain ⟨s₁, hs₁, hs⟩ := Option.bind_eq_some_iff.mp hs
      obtain ⟨r₁, hr₁, h₁⟩ := h.step hs₁
      obtain ⟨r', hp, hm⟩ := ih h₁ hs
      rw [List.reverse_cons]
      have hstep : ((stackRuns kernelPml4).guard G).step r e r₁ := ⟨hok h he, hr₁⟩
      exact ⟨r', (Lts.System.Path.nil.snoc hstep).append hp, hm⟩
    · cases hs

/-- `task_init` after `kmalloc_init` with page run `page`. -/
def start (kernelPml4 page : Nat) : StackSketch :=
  { run := { sched := Sched.taskInit kernelPml4, inTask := false }
    blocks := [⟨page * 4096, 960, true⟩, ⟨page * 4096 + 992, 7168, true⟩]
    runs := [expandRun 4096 page] }

theorem exists_start (kernelPml4 : Nat) {page : Nat} (hr : RunsOk [expandRun 4096 page]) :
    ∃ r, (stackRuns kernelPml4).init r ∧ (start kernelPml4 page).Matches r := by
  have hfits := hr.fits _ (List.mem_singleton_self _)
  have hbase : (expandRun 4096 page).base = page * 4096 := rfl
  have hstop : (expandRun 4096 page).stop = page * 4096 + 8192 := rfl
  obtain ⟨h₀, h₁, hinit, htests, hl, hready, hruns⟩ :=
    KHeap.exists_smokeTests (fun _ => 0) page (by omega) (by omega) fun _ => 0
  exact ⟨⟨⟨Sched.taskInit kernelPml4, false⟩, h₁, []⟩, ⟨⟨kernelPml4, rfl⟩, ⟨_, page, _, h₀, hr, hinit, htests⟩, rfl⟩,
    rfl, hl, hready, hruns⟩

/-- The stack that is freed is merged inside its page run. -/
def mergesInside (s : StackSketch) : StackEvent → Bool
  | .create _ _ =>
    match s.run.sched.findFreeSlot with
    | none => true
    | some (_, freed, _) => decide (freed ≠ 0 → MergesWithin s.runs (markFree (freed - 32) s.blocks))
  | .call _ => true

theorem Matches.mergesInside (h : s.Matches r) {e : StackEvent} (he : s.mergesInside e = true) : r.MergesInside e := by
  cases e with
  | call e => trivial
  | create n page =>
    intro slot freed sched blocks hf h0 hl
    rw [h.run] at hf
    rw [StackSketch.mergesInside, hf] at he
    rw [h.runs, Linked.Seg.unique hl h.lists]
    exact of_decide_eq_true he h0

end StackSketch

/-- A process with the given pid. -/
def spawn (pid : Int) (page : Nat) : StackEvent :=
  .create { pid, isUser := true, addressSpace := .page 0x300, pml4 := 0x301, entry := 0x400000, userRsp := 0x7FFFFFFFE000 } page

/-- The shell kills a process and starts another one. -/
def restart (pid pid' : Int) (page : Nat) : List StackEvent := [.call (.kill pid (-1)), spawn pid' page]

/-- The shell and fifteen processes, then ten restarts. -/
def sharedStackRun : List StackEvent :=
  [.create { pid := 0, isUser := false, addressSpace := .kernel, pml4 := 0x220, entry := 0x200000, userRsp := 0 } 0x1069,
    .call .schedule, spawn 1 0x104B, spawn 2 0x1014, spawn 3 0x100F, spawn 4 0x1041, spawn 5 0x1073, spawn 6 0x1019,
    spawn 7 0x1023, spawn 8 0x1055, spawn 9 0x1028, spawn 10 0x1032, spawn 11 0x1064, spawn 12 0x105A, spawn 13 0x103C,
    spawn 14 0x1037, spawn 15 0x1005] ++
  restart 2 16 0 ++ restart 4 17 0 ++ restart 3 18 0 ++ restart 17 19 0 ++ restart 9 20 0x1050 ++ restart 18 21 0x106E ++
  restart 21 22 0 ++ restart 22 23 0 ++ restart 10 24 0x1046 ++ restart 24 25 0

/-- A run in which the stack of an ended task is freed and allocated again. -/
theorem task_stacks_sound_reuse :
    ∃ r, ((stackRuns 0x220).guard StackRun.MergesInside).Reachable r ∧ (r.run.sched.tasks 0).pid = 17 ∧
      (r.run.sched.tasks 0).kernelStack = 0x10410020 ∧ r.Sound 0x220 := by
  have hexec : (StackSketch.exec 0x220 StackSketch.mergesInside
      (((List.range 16).map fun i => spawn (Nat.succ i) (0x10410 + 5 * i)) ++ restart 1 17 0) (.start 0x220 0x400)).any
      (fun s => decide ((s.run.sched.tasks 0).pid = 17 ∧ (s.run.sched.tasks 0).kernelStack = 0x10410020)) = true := by
    decide +kernel
  obtain ⟨s, hs, hlast⟩ := (Option.any_eq_true _ _).mp hexec
  obtain ⟨r₀, h₀, hm₀⟩ := StackSketch.exists_start 0x220 (show RunsOk [expandRun 4096 0x400] by decide +kernel)
  obtain ⟨r, hp, hm⟩ := hm₀.path (G := StackRun.MergesInside) (fun h he => h.mergesInside he) hs
  have hr : ((stackRuns 0x220).guard StackRun.MergesInside).Reachable r := ⟨_, r₀, h₀, hp⟩
  have hlast := of_decide_eq_true hlast
  rw [← hm.run] at hlast
  exact ⟨r, hr, hlast.1, hlast.2, task_stacks_sound hr⟩

/-- Two live tasks have one stack. -/
theorem tasks_share_stack : ∃ r, (stackRuns 0x220).Run sharedStackRun.reverse r ∧ (r.run.sched.tasks 4).Live ∧
    (r.run.sched.tasks 10).Live ∧ (r.run.sched.tasks 4).kernelStack = 0x1057080 ∧ (r.run.sched.tasks 10).kernelStack =
      0x1057080 := by
  have hexec : (StackSketch.exec 0x220 (fun _ _ => true) sharedStackRun (.start 0x220 0x400)).any
      (fun s => decide ((s.run.sched.tasks 4).Live ∧ (s.run.sched.tasks 10).Live ∧
        (s.run.sched.tasks 4).kernelStack = 0x1057080 ∧
        (s.run.sched.tasks 10).kernelStack = 0x1057080)) = true := by
    decide +kernel
  obtain ⟨s, hs, hshared⟩ := (Option.any_eq_true _ _).mp hexec
  obtain ⟨r₀, h₀, hm₀⟩ := StackSketch.exists_start 0x220 (show RunsOk [expandRun 4096 0x400] by decide +kernel)
  obtain ⟨r, hp, hm⟩ := hm₀.path (G := fun _ _ => True) (fun _ _ => trivial) hs
  refine ⟨r, ⟨r₀, h₀, hp.of_guard⟩, ?_⟩
  rw [hm.run]
  exact of_decide_eq_true hshared

end SamOS
