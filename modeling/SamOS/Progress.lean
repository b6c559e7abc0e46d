import SamOS.SpawnBudget
import SamOS.BootMemory

/-! The kernel gets on as long as memory lasts. Where the free pages are all but a few of a long row of pages, there
    is a run of them for every allocation: the kernel boots, and a spawn ends with a new task. -/

namespace SamOS
open Heap Loop Result

/-! ### Room -/

namespace Pmm
variable {s : Pmm} {lo hi taken n : Nat}

/-- All free pages lie in `[lo, hi)`, of which at most `taken` are not free. -/
structure Room (s : Pmm) (lo hi taken : Nat) : Prop where
  pos : 0 < lo
  inside : ∀ p, s.Free p → lo ≤ p ∧ p < hi
  count : hi - lo ≤ s.freeCount + taken

theorem freeCount_takePages {i : Nat} (hfree : ∀ q, i ≤ q → q < i + n → s.Free q) :
    s.freeCount = (forRange i (i + n) (fun j s => takePage s j) s).freeCount + n := by
  induction n with
  | zero =>
    show _ = (forRange i i _ s).freeCount
    rw [forRange_of_le (Nat.le_refl _)]
  | succ n ih =>
    have hlast : (forRange i (i + n) (fun j s => takePage s j) s).Free (i + n) :=
      (free_takePages_iff (by omega)).mpr ⟨hfree _ (by omega) (by omega), by omega⟩
    show _ = (forRange i (i + n + 1) _ s).freeCount + (n + 1)
    rw [ih fun q h1 h2 => hfree q h1 (by omega), freeCount_takePage hlast, forRange_succ (by omega)]
    omega

/-- The free pages of a row with few gaps have a run of every small length. -/
theorem Room.exists_run (h : s.Room lo hi taken) (hn : (taken + 1) * n ≤ hi - lo) :
    ∃ j, lo ≤ j ∧ ∀ q, j ≤ q → q < j + n → s.Free q := by
  have : DecidablePred s.Free := fun p => inferInstanceAs (Decidable (_ ∧ _))
  refine Count.exists_run (k := taken) ?_
  generalize (taken + 1) * n = m at hn ⊢
  rcases Nat.lt_or_ge hi lo with hlt | hle
  · omega
  obtain ⟨rest, hrest⟩ := Nat.exists_eq_add_of_le (show lo + m ≤ hi by omega)
  have hcount : s.freeCount = Nat.count s.Free s.totalPages :=
    Count.count_congr fun i hi => ⟨fun hf => ⟨hi, hf⟩, fun hf => hf.2⟩
  have hmono : Nat.count s.Free s.totalPages ≤ Nat.count s.Free (hi + s.totalPages) := Nat.count_monotone _ (by omega)
  have hbelow : Nat.count s.Free lo = 0 := Nat.count_of_forall_not fun q hq hf => by
    have := (h.inside q hf).1
    omega
  have habove : Nat.count (fun i => s.Free (hi + i)) s.totalPages = 0 := Nat.count_of_forall_not fun q _ hf => by
    have := (h.inside _ hf).2
    omega
  rw [Nat.count_add, habove, hrest, Nat.count_add, Nat.count_add, hbelow] at hmono
  have hle : Nat.count (fun i => s.Free (lo + m + i)) rest ≤ rest := Nat.count_le _
  have := h.count
  omega

theorem Room.of_free_iff (h0 : 0 < lo) (h : ∀ p, s.Free p ↔ lo ≤ p ∧ p < hi) : s.Room lo hi 0 :=
  ⟨h0, fun p hp => (h p).mp hp, le_freeCount fun q h1 h2 => (h q).mpr ⟨h1, by omega⟩⟩

theorem freeCount_mono {s' : Pmm} (htot : s'.totalPages = s.totalPages) (h : ∀ p, s.Free p → s'.Free p) :
    s.freeCount ≤ s'.freeCount := by
  unfold freeCount
  rw [htot]
  exact Nat.count_mono_left fun p hp hf => (h p ⟨hp, hf⟩).2

theorem Room.mono {s' : Pmm} {d : Nat} (h : s.Room lo hi taken) (hfree : ∀ p, s'.Free p → s.Free p)
    (hcount : s.freeCount ≤ s'.freeCount + d) : s'.Room lo hi (taken + d) := by
  have := h.count
  exact ⟨h.pos, fun p hp => h.inside p (hfree p hp), by omega⟩

theorem Room.pmmAllocPages (h : s.Room lo hi taken) (h0 : 0 < n) (hn : (taken + 1) * n ≤ hi - lo) :
    ∃ i s', 1 ≤ i ∧ s.pmmAllocPages n = (i, s') ∧ s'.Room lo hi (taken + n) := by
  obtain ⟨j, hj, hrun⟩ := h.exists_run hn
  obtain ⟨i, hi, hfree, heq⟩ := pmmAllocPages_of_run h0 (Nat.le_trans h.pos hj) hrun
  refine ⟨i, _, hi, heq, h.mono (fun p hp => ((free_takePages_iff (by omega)).mp hp).1) ?_⟩
  exact Nat.le_of_eq (freeCount_takePages hfree)

end Pmm

/-! ### Tasks -/

theorem Heap.HeapRun.Inv.takeFit_ne_zero {h : HeapRun} (hinv : h.Inv) {size ptr : Nat} {blocks : List KBlock}
    (h0 : 0 < size) (hs : size % 16 = 0) (ht : takeFit size h.heap.blocks = some (ptr, blocks)) : ptr ≠ 0 := by
  obtain ⟨addr, hptr, hc⟩ := takeFit_spec hinv.runs hinv.laid hs ht
  obtain ⟨p, hp, -, hpa, hps⟩ := hc.target
  obtain ⟨r, hrm, -, hstop⟩ := hc.laid.inRun p hp
  have := (hinv.runs.fits r hrm).2
  simp only [KBlock.stop] at hstop
  rw [hptr, Nat.mod_eq_of_lt (by omega)]
  omega

namespace HeapMemory
variable {k : Kernel} {use : Nat → Use} {lo hi taken : Nat}

/-- A stack comes from a block that fits, or from five pages in a row. -/
theorem kmalloc_of_room (h : HeapMemory k use) (hroom : k.machine.pmm.Room lo hi taken)
    (hn : (taken + 1) * 5 ≤ hi - lo) :
    ∃ ptr k', k.kmalloc 16384 = .ok (ptr, k') ∧ ptr ≠ 0 ∧ k'.machine.pmm.Room lo hi (taken + 5) := by
  suffices hm : ∃ page pmm ptr heap, k.expandHeap 16384 = (page, pmm) ∧ k.heap.heap.kmalloc 16384 page = .ok
    (ptr, heap) ∧
      ptr ≠ 0 ∧ pmm.Room lo hi (taken + 5) by
    obtain ⟨page, pmm, ptr, heap, he, hk, hptr, hroom'⟩ := hm
    unfold Kernel.kmalloc
    rw [he]
    dsimp only
    rw [hk]
    exact ⟨ptr, _, rfl, hptr, hroom'⟩
  unfold Kernel.expandHeap needsPages Heap.kmalloc
  simp only [h.tasks.heap.ready, not_true_eq_false, if_false, OfNat.ofNat_ne_zero, ne_eq, not_false_eq_true, true_and]
  cases hfit : takeFit (alignUp 16384 16) k.heap.heap.blocks with
  | some found =>
    obtain ⟨ptr, blocks⟩ := found
    exact ⟨_, _, ptr, _, rfl, rfl, h.tasks.heap.takeFit_ne_zero (by decide) (by decide) hfit,
      hroom.mono (fun _ h => h) (Nat.le_add_right _ _)⟩
  | none =>
    obtain ⟨i, s', hi, heq, hroom'⟩ := hroom.pmmAllocPages (n := 5) (by decide) hn
    refine ⟨i, s', _, _, heq, if_neg (by omega), ?_, hroom'⟩
    have hlt : i < 2 ^ 40 := by
      rcases h.layout.pmmAllocPages 5 with ⟨j, -, -, -, hj, -, hle, -⟩ | he
      · rw [heq] at hj
        dsimp only at hj
        omega
      · rw [heq] at he
        have := congrArg Prod.fst he
        dsimp only at this
        omega
    show (i * 4096 + 32) % 2 ^ 64 ≠ 0
    rw [Nat.mod_eq_of_lt (by omega)]
    omega

/-- Task creation returns, whether it succeeds or not: `kmalloc` panics only before `kmalloc_init`. -/
theorem taskCreate_returns (h : HeapMemory k use) (n : NewTask) : ∃ res, k.taskCreate n = .ok res := by
  have hmalloc : ∀ {k : Kernel}, k.heap.heap.ready = true → ∃ ptr k', k.kmalloc 16384 = .ok (ptr, k') :=
    fun {k} hready => by
    unfold Kernel.kmalloc
    generalize k.expandHeap 16384 = found
    obtain ⟨page, pmm⟩ := found
    dsimp only
    cases hm : k.heap.heap.kmalloc 16384 page with
    | error e =>
      unfold Heap.kmalloc at hm
      rw [if_neg (by decide), if_neg (by simp [hready])] at hm
      dsimp only at hm
      split at hm
      · cases hm
      · split at hm <;> cases hm
    | ok res => exact ⟨_, _, rfl⟩
  unfold Kernel.taskCreate
  cases k.sched.findFreeSlot with
  | none => exact ⟨_, rfl⟩
  | some found =>
    obtain ⟨slot, freed, s⟩ := found
    have hready : ((k.withSched s).kfree freed).heap.heap.ready = true := by
      unfold Kernel.kfree
      split
      · exact h.tasks.heap.ready
      · rename_i h0
        dsimp only
        rw [Heap.kfree, if_neg h0]
        exact h.tasks.heap.ready
    obtain ⟨ptr, k', hk⟩ := hmalloc hready
    dsimp only
    rw [hk]
    by_cases h0 : ptr = 0
    · exact ⟨_, if_pos h0⟩
    · exact ⟨_, if_neg h0⟩

/-- A task is created in a slot that has no stack to free. -/
theorem taskCreate_of_room (h : HeapMemory k use) (hroom : k.machine.pmm.Room lo hi taken)
    (hn : (taken + 1) * 5 ≤ hi - lo) {slot : Nat} (hslot : k.sched.findFreeSlot = some (slot, 0, k.sched))
    (n : NewTask) :
    ∃ stack k', k.taskCreate n = .ok (some slot, k') ∧ k'.machine.pmm.Room lo hi (taken + 5) ∧
      k'.sched = k.sched.install slot stack n.pid n.pml4 n.isUser n.addressSpace := by
  obtain ⟨stack, k₁, hk, hstack, hroom'⟩ := h.kmalloc_of_room hroom hn
  obtain ⟨-, -, hsched, -⟩ := h.kmalloc hk
  unfold Kernel.taskCreate
  rw [hslot]
  dsimp only
  rw [show (k.withSched k.sched).kfree 0 = k from if_pos rfl, hk]
  refine ⟨stack, _, if_neg hstack, hroom', ?_⟩
  dsimp only
  rw [hsched]

end HeapMemory

/-! ### Boot -/

/-- The task table when `kernel_main` has created the shell and the idle task. -/
def Sched.booted (pml4 stack₀ stack₁ : Nat) : Sched :=
  ((taskInit pml4).install 0 stack₀ 0 pml4 false .kernel).install 1 stack₁ 0 pml4 false .kernel

theorem Sched.findFreeSlot_taskInit (pml4 : Nat) : (taskInit pml4).findFreeSlot = some (0, 0, taskInit pml4) := rfl

theorem Sched.findFreeSlot_shell (pml4 stack : Nat) :
    ((taskInit pml4).install 0 stack 0 pml4 false .kernel).findFreeSlot =
      some (1, 0, (taskInit pml4).install 0 stack 0 pml4 false .kernel) := rfl

namespace Kernel

variable {lo hi : Nat}

theorem initMemory_of_room {boot : BootInfo} {img : KernelImage} {mem : Mem} {bytes : Nat → BitVec 8}
    (hroom : (bootMachine boot img mem bytes).pmm.Room lo hi 0) (h0 : 0 < shadowPages boot)
    (hn : 3 * shadowPages boot ≤ hi - lo) :
    ∃ k, initMemory boot img mem bytes = .ok k ∧ k.machine.pmm.Room lo hi (2 + shadowPages boot) := by
  unfold bootMachine at hroom
  unfold initMemory
  generalize Paging.pagingInit boot img mem = tables at hroom ⊢
  obtain ⟨pml4, arena⟩ := tables
  dsimp only at hroom ⊢
  generalize Pmm.pmmInit boot img (arena.nextFreeTable * 4096) bytes = pmm at hroom ⊢
  obtain ⟨i, pmm₁, hi₁, heq₁, hroom₁⟩ := hroom.pmmAllocPages (n := expandPages 4096) (by decide) (by
    have : expandPages 4096 = 2 := by decide
    omega)
  obtain ⟨j, pmm₂, hj, heq₂, hroom₂⟩ := hroom₁.pmmAllocPages h0 hn
  rw [heq₁]
  dsimp only
  rw [heq₂]
  unfold kmallocInit
  rw [if_neg (by decide), if_neg (by omega)]
  dsimp only
  refine ⟨_, if_neg (by omega), hroom₂⟩

/-- The kernel after boot: no process yet. -/
structure Booted (k : Kernel) (lo hi taken : Nat) : Prop where
  room : k.machine.pmm.Room lo hi taken
  sched : ∃ stack₀ stack₁, k.sched = .booted k.machine.kernelPml4 stack₀ stack₁
  procs : k.procs = fun _ => .blank
  nextPid : k.nextPid = 1
  shell : k.shell = .idle

theorem boot_of_room {fw : Platform} {img : KernelImage} {mem : Mem} {bytes : Nat → BitVec 8}
    (shellEntry idleEntry : Word) (hroom : (bootMachine fw.toBootInfo img mem bytes).pmm.Room lo hi 0)
    (h0 : 0 < shadowPages fw.toBootInfo) (hn : (8 + shadowPages fw.toBootInfo) * 5 ≤ hi - lo) :
    ∃ k, boot fw.toBootInfo img mem bytes shellEntry idleEntry = .ok (some 0, some 1, k) ∧
      k.Booted lo hi (2 + shadowPages fw.toBootInfo + 10) := by
  obtain ⟨k₀₀, h₀₀, hroom₀⟩ := initMemory_of_room hroom h0 (by omega)
  obtain ⟨⟨use₀₀, hm₀₀, -⟩, -, page, hh⟩ := initMemory_memory h₀₀
  obtain ⟨k₀, h₀, -, -, hpmm⟩ := hm₀₀.smokeTests hh
  rw [← hpmm] at hroom₀
  obtain ⟨⟨use₀, hm₀, -⟩, hs₀⟩ := initMemory_tested h₀₀ h₀
  obtain ⟨-, hp₀, hn₀, hsh₀⟩ := TableInv.initMemory_tables h₀₀ h₀
  -- The shell.
  obtain ⟨stack₀, k₁, h₁, hroom₁, hs₁⟩ :=
    hm₀.taskCreate_of_room hroom₀ (by omega) (by rw [hs₀]; exact Sched.findFreeSlot_taskInit _)
    (k₀.kernelTask shellEntry)
  obtain ⟨-, hp₁, hn₁, hsh₁⟩ := taskCreate_tables h₁
  obtain ⟨use₁, hm₁⟩ := hm₀.taskCreate (fun slot freed s hf hne => by
    rw [hs₀, Sched.findFreeSlot_taskInit] at hf
    cases hf
    exact absurd rfl hne) h₁
  have hs₁ : k₁.sched = (Sched.taskInit k₀.machine.kernelPml4).install 0 stack₀ 0 k₀.machine.kernelPml4 false
      .kernel := by
    rw [hs₁, hs₀]
    rfl
  -- The idle task.
  obtain ⟨stack₁, k₂, h₂, hroom₂, hs₂⟩ := hm₁.memory.taskCreate_of_room hroom₁ (by omega)
    (by rw [hs₁]; exact Sched.findFreeSlot_shell _ _) (k₁.kernelTask idleEntry)
  obtain ⟨-, hp₂, hn₂, hsh₂⟩ := taskCreate_tables h₂
  obtain ⟨use₂, hm₂⟩ := hm₁.memory.taskCreate (fun slot freed s hf hne => by
    rw [hs₁, Sched.findFreeSlot_shell] at hf
    cases hf
    exact absurd rfl hne) h₂
  refine ⟨k₂, ?_, hroom₂, ⟨stack₀, stack₁, ?_⟩, hp₂.trans (hp₁.trans hp₀), hn₂.trans (hn₁.trans hn₀),
    hsh₂.trans (hsh₁.trans hsh₀)⟩
  · unfold boot
    rw [h₀₀]
    show (k₀₀.runHeapSmokeTests >>= _) = _
    rw [h₀]
    show (k₀.taskCreate (k₀.kernelTask shellEntry) >>= _) = _
    rw [h₁]
    show (k₁.taskCreate (k₁.kernelTask idleEntry) >>= _) = _
    rw [h₂]
    rfl
  · have hk₁ := hm₁.steady.kernelPml4
    have hk₂ := hm₂.steady.kernelPml4
    rw [hs₂, hs₁, hk₂, hk₁]
    unfold Sched.booted kernelTask
    dsimp only
    rw [hk₁]

/-! ### Spawning -/

variable {k : Kernel} {use : Nat → Use} {img : Image}

/-- A spawn that ends with the new task `t` for the program `prog`, whose PML4 is `r`. -/
structure Spawned (k : Kernel) (use : Nat → Use) (img : Image) (slot t : Nat) (b : Budget) (prog : Program) (r : Nat)
    (k' : Kernel) (use' : Nat → Use) : Prop where
  prepared : k.prepareSpawn img = .ok (some (slot, prog.process k.nextPid.toInt t), k')
  sched : ∃ stack, k'.sched = k.sched.install t stack k.nextPid.toInt r true (.page prog.space)
  memory : HeapMemory k' use'
  grows : Grows (LoadScope k.machine.kernelPml4 use img) k.machine.mem use k'.machine.mem use'
  kernelPml4 : k'.machine.kernelPml4 = k.machine.kernelPml4
  program : NewProgram use use' prog.space r
  walks : ∀ va, k'.machine.mem.onHugePage r va = false → ∀ n, 0 < n → n ≤ 4 →
    (k'.machine.mem.tableAt r va n).isSome = b.has k.machine.shares va n

/-- Where the budget suffices and a task slot is free, a spawn gives a new task. -/
theorem prepareSpawn_of_budget (h : HeapMemory k use) (hav : k.machine.Avoids img) {slot t taken : Nat} {b : Budget}
    (hslot : k.allocProcessSlot = some slot) (ht : k.sched.findFreeSlot = some (t, 0, k.sched))
    (hb : Budget.loadProgram k.machine.shares { free := k.machine.pmm.freeCount, pages := [] } img = .ok (true, b))
    (hroom : k.machine.pmm.Room lo hi taken) (hn : (taken + (k.machine.pmm.freeCount - b.free) + 1) * 5 ≤ hi - lo) :
    ∃ prog r k' use', k.Spawned use img slot t b prog r k' use' ∧
      k'.machine.pmm.Room lo hi (taken + (k.machine.pmm.freeCount - b.free) + 5) := by
  have hsim := h.layout.loadProgram_budget hav
  rw [hb] at hsim
  obtain ⟨prog, machine, hl, hsome, htracks⟩ := hsim.of_ok
  obtain ⟨prog, rfl⟩ := Option.isSome_iff_exists.mp hsome
  obtain ⟨r, huge, htr, -⟩ := htracks prog rfl
  obtain ⟨use₁, hev, hprog⟩ := h.layout.loadProgram hav hl
  obtain ⟨r₁, hprog⟩ := hprog prog rfl
  have hpml4 := hev.layout.pml4_eq hprog.space
  obtain rfl : r = r₁ := by
    obtain ⟨use₂, hl₂, hsp⟩ := htr.layout
    rw [← hl₂.pml4_eq hsp, hpml4]
  have hfree : ∀ p, machine.pmm.Free p → k.machine.pmm.Free p := fun p hp =>
    (h.layout.owned.free_iff p).mp (hev.grows.free ((hev.layout.owned.free_iff p).mpr hp))
  have hroom₁ := hroom.mono hfree (show _ ≤ _ + (k.machine.pmm.freeCount - b.free) by rw [htr.free]; omega)
  have hm₁ : HeapMemory { k.withMachine machine with nextPid := k.nextPid + 1 } use₁ :=
    ⟨hev.layout, h.tasks, fun r hr => (h.held r hr).grows hev.grows⟩
  obtain ⟨stack, k', hc, hroom', hs'⟩ := hm₁.taskCreate_of_room hroom₁ hn ht
    (prog.newTask k.nextPid.toInt (machine.pml4 (.page prog.space)))
  obtain ⟨use', hst⟩ := hm₁.taskCreate (fun slot freed s hf hne => by
    cases ht.symm.trans hf
    exact absurd rfl hne) hc
  have hroot := (hev.layout.tables.space hprog.space).2.1
  refine ⟨prog, r, k', use', ⟨?_, ⟨stack, ?_⟩, hst.memory, ?_, ?_, hprog.grows hst.grows, fun va hva n h0 h4 => ?_⟩,
    hroom'⟩
  · exact prepareSpawn_of_loaded hslot hl hc
  · rw [hs', ← hpml4]
    rfl
  · exact hev.grows.trans (hst.grows.mono fun _ h => h.elim)
  · exact hst.steady.kernelPml4.trans hev.kernelPml4
  · have hhuge : k'.machine.mem.onHugePage r va = machine.mem.onHugePage r va :=
      hev.layout.tables.onHugePage_eq hst.grows hroot id id
    rw [hev.layout.tables.tableAt_eq hst.grows hroot id id h4]
    exact htr.has va ((htr.onHuge va).symm.trans (hhuge.symm.trans hva)) n h0 h4

end Kernel

/-! ### Small programs -/

/-- A program without segments. -/
def bareImage : Image where
  addr := 0x200000
  size := 64
  byte
    | 0 => 0x7F
    | 1 => 0x45
    | 2 => 0x4C
    | 3 => 0x46
    | 26 => 0x40
    | 32 => 64
    | _ => 0

/-- A program with one segment, a page at `vaddr`. -/
def pageImage (vaddr : Nat) : Image where
  addr := 0x200000
  size := 120
  byte i :=
    if 80 ≤ i ∧ i < 88 then BitVec.ofNat 8 (vaddr / 256 ^ (i - 80))
    else if i = 56 ∨ i = 64 then 1
    else if i = 105 then 0x10
    else bareImage.byte i

namespace Budget
variable {old : Nat → Nat → Bool} {b : Budget} {va : Nat} {img : Image}

theorem mapNewPage_eq_ok (hnew : b.has old va 4 = false) (hroom : b.missing old va < b.free) :
    b.mapNewPage old va = .ok (true, { free := b.free - 1 - b.missing old va, pages := va :: b.pages }) := by
  unfold mapNewPage
  rw [if_neg (by omega), if_neg (by simp [hnew]), if_neg (by omega)]

/-- Among the pages under entry 255 of the PML4 those of the stack count only. -/
theorem has_stack (hold : ∀ va n, pageIndex 0 va = 255 → old va n = false)
    (hpages : ∀ va ∈ b.pages, pageIndex 0 va ≠ 255) {n free : Nat} (vs : List Nat) (hva : pageIndex 0 va = 255)
    (hn : 0 < n) :
    has old { free, pages := vs ++ b.pages } va n = vs.any fun virt => pagePath va n == pagePath virt n := by
  have hnone : b.pages.any (fun virt => pagePath va n == pagePath virt n) = false := by
    rw [List.any_eq_false]
    intro virt hv hp
    have := pagePath_eq_of_le (beq_iff_eq.mp hp) (show 1 ≤ n from hn)
    exact hpages virt hv ((List.cons.inj this).1.symm.trans hva)
  rw [has, hold va n hva, Bool.false_or, List.any_append, hnone, Bool.or_false]

/-- The pages of the stack, the last one that is mapped first. -/
def stackPages : List Nat := [0x7FFFFFFFA000, 0x7FFFFFFFB000, 0x7FFFFFFFC000, 0x7FFFFFFFD000]

/-- A stack that no segment comes near takes three tables and four pages. -/
theorem mapUserStack_eq_ok (hold : ∀ va n, pageIndex 0 va = 255 → old va n = false)
    (hpages : ∀ va ∈ b.pages, pageIndex 0 va ≠ 255) (hfree : 7 ≤ b.free) :
    b.mapUserStack old = .ok (true, { free := b.free - 7, pages := stackPages ++ b.pages }) := by
  -- Each page in turn; `vs` are those that are mapped already, and `d` is the number of tables it needs.
  have hstep : ∀ (vs : List Nat) (va free d : Nat), pageIndex 0 va = 255 →
      (vs.any fun virt => pagePath va 4 == pagePath virt 4) = false →
        missing (fun _ _ => false) { free, pages := vs } va = d →
      d < free → mapNewPage old va { free, pages := vs ++ b.pages } =
        .ok (true, { free := free - 1 - d, pages := va :: vs ++ b.pages }) := by
    intro vs va free d hva hnew hd hlt
    have hmissing : missing old { free, pages := vs ++ b.pages } va = d := by
      rw [← hd]
      unfold missing
      simp only [has_stack hold hpages vs hva (show 0 < 1 by decide),
        has_stack hold hpages vs hva (show 0 < 2 by decide), has_stack hold hpages vs hva (show 0 < 3 by decide)]
      rfl
    have hnew' : has old { free, pages := vs ++ b.pages } va 4 = false :=
      (has_stack hold hpages vs hva (by decide)).trans hnew
    rw [mapNewPage_eq_ok hnew' (by rw [hmissing]; exact hlt), hmissing]
    rfl
  obtain ⟨free, pages⟩ := b
  dsimp only at hfree hstep ⊢
  have h₀ := hstep [] 0x7FFFFFFFD000 free 3 (by decide) (by decide) rfl (by omega)
  have h₁ := hstep [0x7FFFFFFFD000] 0x7FFFFFFFC000 (free - 1 - 3) 0 (by decide) (by decide) rfl (by omega)
  have h₂ := hstep [0x7FFFFFFFC000, 0x7FFFFFFFD000] 0x7FFFFFFFB000 (free - 1 - 3 - 1) 0 (by decide)
    (by decide) rfl (by omega)
  have h₃ := hstep [0x7FFFFFFFB000, 0x7FFFFFFFC000, 0x7FFFFFFFD000] 0x7FFFFFFFA000 (free - 1 - 3 - 1 - 1) 0
    (by decide) (by decide) rfl
    (by omega)
  have hfree' : free - 1 - 3 - 1 - 1 - 1 = free - 7 := by omega
  rw [← hfree']
  unfold mapUserStack
  exact Eq.trans (forWhile_true h₀) (Eq.trans (forWhile_true h₁) (Eq.trans (forWhile_true h₂) (forWhile_true h₃)))

theorem loadProgram_bare {n : Nat} (hold : ∀ va n, pageIndex 0 va = 255 → old va n = false) (hn : 9 ≤ n) :
    loadProgram old { free := n, pages := [] } bareImage = .ok (true, { free := n - 9, pages := stackPages }) := by
  unfold loadProgram
  rw [if_neg (by dsimp only; omega), if_neg (by dsimp only; omega)]
  have hp := mapUserStack_eq_ok (b := { free := n - 2, pages := [] }) hold (by simp) (by dsimp only; omega)
  have hl : loadElfIntoAs old { free := n - 2, pages := [] } bareImage = .ok (true, { free := n - 2, pages := [] }) :=
    rfl
  dsimp only
  rw [hl]
  exact hp

end Budget

/-- The segment is an empty page at `va`. -/
structure Phdr.OnePage (ph : Phdr) (va : Nat) : Prop where
  header : ph = { type := 1, flags := 0, offset := 0, vaddr := va, filesz := 0, memsz := 4096 }
  aligned : va % 4096 = 0
  lower : userLowerLimit ≤ va
  upper : va + 4096 < userUpperLimit

variable {ph : Phdr} {va : Nat}

theorem Phdr.OnePage.pages (h : ph.OnePage va) : ph.segStart = va ∧ ph.segEnd = va + 4096 ∧ ph.pages = 0 + 1 := by
  have hlt : userUpperLimit = 0x800000000000 := rfl
  have := h.aligned
  have := h.upper
  simp only [Phdr.pages, Phdr.segStart, Phdr.segEnd, h.header]
  omega

theorem Phdr.OnePage.touches_iff {virt : Nat} (h : ph.OnePage va) : ph.Touches virt ↔ virt = va := by
  obtain ⟨hstart, -, hpages⟩ := h.pages
  have hfilesz : ph.filesz = 0 := by rw [h.header]
  unfold Phdr.Touches
  rw [hstart, hpages, hfilesz]
  constructor
  · rintro (⟨j, hj, rfl⟩ | ⟨off, hoff, -⟩) <;> omega
  · rintro rfl
    exact Or.inl ⟨0, by omega, rfl⟩

/-- The image has one segment, an empty page at `va`. -/
structure Image.OnePage (img : Image) (va : Nat) : Prop where
  header : img.headerOk = true
  count : img.phnum = 1
  segment : (img.phdr 0).OnePage va

theorem Phdr.OnePage.ok (h : ph.OnePage va) (size : Nat) : ph.ok size = true := by
  obtain ⟨hstart, hend, -⟩ := h.pages
  simp only [Phdr.ok, hstart, hend, h.lower, h.upper]
  simp [h.header]

theorem Image.OnePage.touches_iff {img : Image} {virt : Nat} (h : img.OnePage va) : img.Touches virt ↔ virt = va := by
  rw [← h.segment.touches_iff]
  constructor
  · rintro ⟨i, hi, -, ht⟩
    obtain rfl : i = 0 := by have := hi.2.1; have := h.count; omega
    exact ht
  · intro ht
    exact ⟨0, ⟨h.header, by rw [h.count]; decide, fun j hj => absurd hj (Nat.not_lt_zero j)⟩,
      ⟨by rw [h.segment.header], h.segment.ok _⟩, ht⟩

namespace Budget
variable {old : Nat → Nat → Bool} {b : Budget} {va : Nat} {img : Image}

theorem loadSegment_onePage {ph : Phdr} (h : ph.OnePage va) : b.loadSegment old img ph = b.loadPage old va := by
  obtain ⟨hstart, hend, hpages⟩ := h.pages
  unfold loadSegment
  rw [if_neg (by simp [h.header]), if_neg (by simp [h.ok]), hpages, hstart, show ph.filesz = 0 by rw [h.header]]
  simp only [forWhile, Nat.zero_mul, Nat.add_zero]
  rcases b.loadPage old va with e | ⟨_ | _, b'⟩ <;> rfl

theorem loadElfIntoAs_onePage (h : img.OnePage va) : loadElfIntoAs old b img = b.loadPage old va := by
  unfold loadElfIntoAs
  rw [if_neg (by simp [h.header]), h.count]
  simp only [forWhile, loadSegment_onePage h.segment]
  rcases b.loadPage old va with e | ⟨_ | _, b'⟩ <;> rfl

theorem missing_le : b.missing old va ≤ 3 := by
  unfold missing
  split <;> split <;> split <;> decide

theorem loadProgram_onePage {n : Nat} (h : img.OnePage va) (hold : ∀ va n, pageIndex 0 va = 255 → old va n = false)
    (h255 : pageIndex 0 va ≠ 255) (hnew : old va 4 = false) (hn : 13 ≤ n) :
    ∃ b, loadProgram old { free := n, pages := [] } img = .ok (true, b) ∧ b.has old va 4 = true ∧ n ≤ b.free + 13 := by
  have hhas : has old { free := n - 2, pages := [] } va 4 = false := by simp [has, hnew]
  have hle : missing old { free := n - 2, pages := [] } va ≤ 3 := missing_le
  have hload : loadElfIntoAs old { free := n - 2, pages := [] } img =
      .ok (true, { free := n - 2 - 1 - missing old { free := n - 2, pages := [] } va, pages := [va] }) := by
    rw [loadElfIntoAs_onePage h, loadPage, if_neg (by simp [hhas]), mapNewPage_eq_ok hhas (by dsimp only; omega)]
  generalize missing old { free := n - 2, pages := [] } va = d at hle hload
  have hp := mapUserStack_eq_ok (b := { free := n - 2 - 1 - d, pages := [va] }) hold (by simpa using h255)
    (by dsimp only; omega)
  refine ⟨{ free := n - 2 - 1 - d - 7, pages := stackPages ++ [va] }, ?_, by simp [has], by dsimp only; omega⟩
  unfold loadProgram
  rw [if_neg (by dsimp only; omega), if_neg (by dsimp only; omega)]
  dsimp only
  rw [hload]
  exact hp

theorem loadProgram_onStack {n : Nat} (h : img.OnePage 0x7FFFFFFFD000)
    (hold : ∀ va n, pageIndex 0 va = 255 → old va n = false) (hn : 7 ≤ n) :
    loadProgram old { free := n, pages := [] } img = .error "vmm_map: virtual page is already mapped" := by
  have hno : ∀ m, has old { free := n - 2, pages := [] } 0x7FFFFFFFD000 m = false := fun m => by
    simp [has, hold _ m (show pageIndex 0 0x7FFFFFFFD000 = 255 by decide)]
  have hmissing : missing old { free := n - 2, pages := [] } 0x7FFFFFFFD000 = 3 := by simp [missing, hno]
  have hload : loadElfIntoAs old { free := n - 2, pages := [] } img =
      .ok (true, { free := n - 2 - 1 - 3, pages := [0x7FFFFFFFD000] }) := by
    rw [loadElfIntoAs_onePage h, loadPage, if_neg (by simp [hno]),
      mapNewPage_eq_ok (hno 4) (by rw [hmissing]; dsimp only; omega), hmissing]
  have hfirst : mapNewPage old 0x7FFFFFFFD000 { free := n - 2 - 1 - 3, pages := [0x7FFFFFFFD000] } =
      .error "vmm_map: virtual page is already mapped" := by
    unfold mapNewPage
    rw [if_neg (by dsimp only; omega), if_pos (by simp [has])]
  unfold loadProgram
  rw [if_neg (by dsimp only; omega), if_neg (by dsimp only; omega)]
  dsimp only
  rw [hload]
  show mapUserStack old { free := n - 2 - 1 - 3, pages := [0x7FFFFFFFD000] } = _
  unfold mapUserStack
  exact forWhile_error hfirst

end Budget

/-! ### The sample machine -/

theorem Machine.shares_stack (s : Machine) (va n : Nat) (h : pageIndex 0 va = 255) : s.shares va n = false := by
  simp [shares, h]

/-- The sample machine with its 64 Ki conventional pages. -/
def samplePlatform : Platform where
  toFirmware := Pmm.sampleFirmware
  ends_le := by simp [Pmm.sampleFirmware]

theorem bootMachine_pmm (boot : BootInfo) (img : KernelImage) (mem : Mem) (bytes : Nat → BitVec 8) :
    (bootMachine boot img mem bytes).pmm = Pmm.pmmInit boot img (Paging.arenaEnd boot img mem * 4096) bytes := rfl

theorem room_sample (mem : Mem) (bytes : Nat → BitVec 8) :
    (bootMachine samplePlatform.toBootInfo Pmm.sampleImage mem bytes).pmm.Room 0x10000 0x20000 0 := by
  obtain ⟨hlo, hhi⟩ := Paging.arenaEnd_bounds Pmm.sampleFirmware.toBootInfo Pmm.sampleImage mem
  refine .of_free_iff (by decide) fun p => ?_
  rw [bootMachine_pmm, show samplePlatform.toFirmware = Pmm.sampleFirmware from rfl]
  exact (Pmm.free_pmmInit_iff Pmm.sampleFirmware Pmm.sampleImage bytes hlo).trans (Pmm.allocatable_sample_iff hhi)

/-- Beyond the identity map the kernel's tables have no page directory after boot. -/
theorem Kernel.boot_tableAt_two {fw : Platform} {img : KernelImage} {mem : Mem} {bytes : Nat → BitVec 8}
    {shellEntry idleEntry : Word} {k : Kernel}
    (h : Kernel.boot fw.toBootInfo img mem bytes shellEntry idleEntry = .ok (some 0, some 1, k))
    (h0 : pageIndex 0 va = 0 → Paging.maxMemory fw.toBootInfo ≤ pageIndex 1 va * 0x40000000)
    (h511 : pageIndex 0 va ≠ 511) :
    k.machine.mem.tableAt k.machine.kernelPml4 va 2 = none := by
  obtain ⟨use, -, hf⟩ := SpaceInv.boot h
  obtain ⟨n, hmap, hpml4, -⟩ := kernelMap_pagingInit fw.toBootInfo img mem
  rw [hf.tableAt_eq va (by decide)]
  unfold bootMachine
  dsimp only
  rw [hpml4]
  exact hmap.tableAt_two_eq_none h0 h511

/-- All runs of the sample machine. -/
def sampleKernels : Lts.System Kernel KernelEvent := kernels samplePlatform Pmm.sampleImage

theorem exists_boot (mem : Mem) : ∃ k, Kernel.boot samplePlatform.toBootInfo Pmm.sampleImage mem (fun _ => 0#8) 0 0 =
    .ok (some 0, some 1, k) ∧ k.Booted 0x10000 0x20000 780 :=
  Kernel.boot_of_room 0 0 (room_sample mem _) (by decide) (by decide)

theorem sampleKernels_init {mem : Mem} {k : Kernel}
    (h : Kernel.boot samplePlatform.toBootInfo Pmm.sampleImage mem (fun _ => 0#8) 0 0 = .ok (some 0, some 1, k)) :
    sampleKernels.init k :=
  ⟨mem, _, 0, 0, h⟩

theorem bareImage_touches (va : Nat) : ¬bareImage.Touches va := by
  rintro ⟨i, hi, -⟩
  have hlt := hi.2.1
  rw [show bareImage.phnum = 0 by decide] at hlt
  omega

theorem Layout.avoids_bare {s : Machine} {use : Nat → Use} (h : Layout s use) : s.Avoids bareImage :=
  h.avoids fun va hva => absurd hva (bareImage_touches va)

end SamOS
