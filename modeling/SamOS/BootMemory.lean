import SamOS.KernelMemory
import SamOS.BootTables

/-! Memory when the scheduler starts: the tables of `paging_init`, the first page run of the heap, the shadow buffer
    and the stacks of the shell and the idle task. From there the labels stay right in every run whose steps are
    orderly. -/

namespace SamOS
open Heap Kernel

theorem heapInv_init {page : Nat} {h : Heap} (hk : kmallocInit { blocks := [], ready := false } page = .ok h)
    (h1 : 1 ≤ page) (hle : page + expandPages 4096 ≤ 2 ^ 40) : HeapRun.Inv ⟨h, [expandRun 4096 page], []⟩ := by
  refine .init ⟨page, hk, rfl, ⟨List.pairwise_singleton _ _, fun r hr => ?_, fun r hr => ?_⟩, rfl⟩
  all_goals
    obtain rfl := List.mem_singleton.mp hr
    simp only [expandRun, PageRun.stop]
    omega

/-! ### The smoke tests -/

/-- From `k` on, the heap has come to `heap` and `live` without new pages, and only held pages were written. -/
def Kernel.HeapAt (k : Kernel) (use : Nat → Use) (heap : Heap) (live : List (Nat × Nat)) (k' : Kernel) : Prop :=
  ∃ m, HeldOnly use k.machine.mem m ∧
    k' = { k with heap := ⟨heap, k.heap.runs, live⟩, machine := { k.machine with mem := m } }

namespace Kernel.HeapAt
variable {k k₁ : Kernel} {use : Nat → Use} {heap heap' : Heap} {live : List (Nat × Nat)} {ptr size : Nat}

theorem kmalloc (h : k.HeapAt use heap live k₁) (hk : ∀ page, heap.kmalloc size page = .ok (ptr, heap')) (hp : ptr ≠ 0)
    (hb : ∀ b ∈ heap'.blocks, HeldRange use b.addr (b.addr + 32)) :
    ∃ k₂, k₁.kmalloc size = .ok (ptr, k₂) ∧ k.HeapAt use heap' ((ptr, size) :: live) k₂ := by
  obtain ⟨m, hm, rfl⟩ := h
  have hneeds : heap.needsPages size = false := by
    by_contra hn
    obtain ⟨h0, hnone⟩ : size ≠ 0 ∧ takeFit (alignUp size 16) heap.blocks = none := by simpa [needsPages] using hn
    have hzero := hk 0
    unfold Heap.kmalloc at hzero
    rw [if_neg h0] at hzero
    split at hzero
    · cases hzero
    · dsimp only at hzero
      rw [hnone] at hzero
      cases hzero
      exact hp rfl
  refine ⟨_, ?_, m.storeHeaders heap'.blocks, hm.trans (.storeHeaders m hb), rfl⟩
  unfold Kernel.kmalloc expandHeap HeapRun.grow
  dsimp only
  rw [hneeds, if_neg (by decide)]
  dsimp only
  rw [hk]
  simp [bind, Except.bind, hp]

theorem kzalloc (h : k.HeapAt use heap live k₁) (hk : ∀ page, heap.kmalloc size page = .ok (ptr, heap')) (hp : ptr ≠ 0)
    (hb : ∀ b ∈ heap'.blocks, HeldRange use b.addr (b.addr + 32)) (hz : HeldRange use ptr (ptr + size)) :
    ∃ k₂, k₁.kzalloc size = .ok (ptr, k₂) ∧ k.HeapAt use heap' ((ptr, size) :: live) k₂ := by
  obtain ⟨k₂, hk₂, m, hm, rfl⟩ := h.kmalloc hk hp hb
  refine ⟨_, ?_, m.clear ptr size, hm.trans (.clear m hz), rfl⟩
  unfold Kernel.kzalloc
  rw [hk₂]
  simp [bind, Except.bind, hp]

theorem kfree (h : k.HeapAt use heap live k₁) (hk : heap.kfree ptr = heap') {l : List (Nat × Nat)}
    (hl : (live.filter fun a => a.1 ≠ ptr) = l) (hp : ptr ≠ 0)
    (hb : ∀ b ∈ heap'.blocks, HeldRange use b.addr (b.addr + 32)) :
    k.HeapAt use heap' l (k₁.kfree ptr) := by
  obtain ⟨m, hm, rfl⟩ := h
  refine ⟨m.storeHeaders heap'.blocks, hm.trans (.storeHeaders m hb), ?_⟩
  unfold Kernel.kfree
  rw [if_neg hp, hk, hl]

end Kernel.HeapAt

variable {k : Kernel} {use : Nat → Use}

/-- After `kmalloc_init` the smoke tests pass: they write to the first page run only, and give back what they take. -/
theorem HeapMemory.smokeTests (h : HeapMemory k use) {page : Nat}
    (hh : k.heap = ⟨⟨[expandBlock 4096 page], true⟩, [expandRun 4096 page], []⟩) :
    ∃ k', k.runHeapSmokeTests = .ok k' ∧ HeapStep k use k' use ∧ k'.sched = k.sched ∧
      k'.machine.pmm = k.machine.pmm := by
  have hruns : k.heap.runs = [expandRun 4096 page] := by rw [hh]
  have hrun : expandRun 4096 page ∈ k.heap.runs := by rw [hruns]; exact List.mem_singleton_self _
  have hok := h.tasks.heap.runs
  have hheld : HeldRange use (page * 4096) (page * 4096 + 8192) := (h.held _ hrun).held
  have hpos : 0 < page * 4096 ∧ page * 4096 + 8192 ≤ 2 ^ 64 := hok.fits _ hrun
  have hblocks (p : Nat) := smokeTests_blocks hpos.2 fun _ => p
  obtain ⟨-, -, -, e₄, e₅, e₆⟩ := hblocks 0
  -- every header of the lists lies in the run
  have hb {blocks : List KBlock} (hin : ∀ b ∈ blocks, page * 4096 ≤ b.addr ∧ b.addr ≤ page * 4096 + 8160) :
      ∀ b ∈ blocks, HeldRange use b.addr (b.addr + 32) := fun b hbm =>
    hheld.mono (hin b hbm).1 (by have := (hin b hbm).2; omega)
  have h₀ : k.HeapAt use ⟨[⟨page * 4096, 8160, true⟩], true⟩ [] k := ⟨k.machine.mem, fun _ _ => rfl, by
    obtain ⟨machine, heap, sched, procs, nextPid, shell⟩ := k
    obtain rfl : heap = _ := hh
    rfl⟩
  obtain ⟨k₁, hk₁, h₁⟩ := h₀.kmalloc (fun p => (hblocks p).1) (by omega) (hb (by simp))
  obtain ⟨k₂, hk₂, h₂⟩ := h₁.kmalloc (fun p => (hblocks p).2.1) (by omega) (hb (by simp))
  obtain ⟨k₃, hk₃, h₃⟩ := h₂.kzalloc (fun p => (hblocks p).2.2.1) (by omega) (hb (by simp))
    (hheld.mono (by omega) (by omega))
  have h₄ := h₃.kfree e₄ (l := [(page * 4096 + 928, 64), (page * 4096 + 96, 800)]) (by simp) (by omega) (hb (by simp))
  have h₅ := h₄.kfree e₅ (l := [(page * 4096 + 928, 64)]) (by simp) (by omega) (hb (by simp))
  have h₆ := h₅.kfree e₆ (l := []) (by simp) (by omega) (hb (by simp))
  have htest : k.runHeapSmokeTests = .ok
      (((k₃.kfree (page * 4096 + 32)).kfree (page * 4096 + 96)).kfree (page * 4096 + 928)) :=
    runHeapSmokeTests_eq (by omega) hk₁ hk₂ hk₃ rfl rfl rfl
  generalize ((k₃.kfree (page * 4096 + 32)).kfree (page * 4096 + 96)).kfree (page * 4096 + 928) = k₆ at h₆ htest
  obtain ⟨m, hm, rfl⟩ := h₆
  refine ⟨_, htest, ⟨⟨h.layout.of_heldOnly hm, ⟨?_, fun t ht hs => ?_, h.tasks.distinct⟩, h.held⟩, .of_heldOnly hm,
    ⟨rfl, rfl, rfl⟩⟩, rfl, rfl⟩
  · rw [hruns]
    exact .smokeTests (hruns ▸ hok)
  · have := h.tasks.stack t ht hs
    rw [hh] at this
    cases this

/-- From the tables of `paging_init` on, the kernel's memory has labels, and no table was written. -/
def Kernel.FromTables (s₀ : Machine) (k : Kernel) (use : Nat → Use) : Prop :=
  ∃ use₀, Layout s₀ use₀ ∧ Grows (fun _ => False) s₀.mem use₀ k.machine.mem use ∧ k.machine.kernelPml4 = s₀.kernelPml4

theorem Kernel.FromTables.heapStep {s₀ : Machine} {k' : Kernel} {use' : Nat → Use} (h : k.FromTables s₀ use)
    (hs : HeapStep k use k' use') : k'.FromTables s₀ use' := by
  obtain ⟨use₀, hl, hg, hk⟩ := h
  exact ⟨use₀, hl, hg.trans hs.grows, hs.steady.kernelPml4.trans hk⟩

theorem Kernel.FromTables.tableAt_eq {s₀ : Machine} (h : k.FromTables s₀ use) (va : Nat) {n : Nat}
    (hn : n ≤ 4) : k.machine.mem.tableAt k.machine.kernelPml4 va n = s₀.mem.tableAt s₀.kernelPml4 va n := by
  obtain ⟨use₀, hl, hg, hk⟩ := h
  rw [hk]
  exact hl.tables.tableAt_eq hg hl.tables.kernelRoot id id hn

theorem Kernel.initMemory_memory {fw : Platform} {img : KernelImage} {mem : Mem} {bytes : Nat → BitVec 8}
    (h : initMemory fw.toBootInfo img mem bytes = .ok k) :
    (∃ use, HeapMemory k use ∧ k.FromTables (bootMachine fw.toBootInfo img mem bytes) use) ∧
      k.sched = Sched.taskInit k.machine.kernelPml4 ∧
      ∃ page, k.heap = ⟨⟨[expandBlock 4096 page], true⟩, [expandRun 4096 page], []⟩ := by
  obtain ⟨n, -, hl, -, -⟩ := layout_bootMachine fw.toFirmware img mem bytes fw.ends_le
  generalize bootUse (Paging.arenaStart img) n _ = use at hl
  unfold bootMachine at hl ⊢
  unfold initMemory at h
  generalize Paging.pagingInit fw.toBootInfo img mem = tables at h hl ⊢
  obtain ⟨pml4, arena⟩ := tables
  dsimp only at h hl ⊢
  generalize Pmm.pmmInit fw.toBootInfo img (arena.nextFreeTable * 4096) bytes = pmm at h hl ⊢
  obtain ⟨heap, hk, h⟩ := Result.of_bind_eq_ok h
  split at h
  · cases h
  rename_i hshadow
  cases h
  refine ⟨?_, rfl, ?_⟩
  swap
  · unfold kmallocInit at hk
    rw [if_neg (by decide)] at hk
    split at hk <;> cases hk
    exact ⟨_, rfl⟩
  rcases hl.pmmAllocPages (expandPages 4096) with ⟨page, h1, hn, hfree, hpage, hl₁, hle, -⟩ | he
  swap
  · rw [he] at hk
    simp [kmallocInit] at hk
  dsimp only at hpage hl₁ hshadow
  rw [hpage] at hk ⊢
  rcases hl₁.pmmAllocPages (shadowPages fw.toBootInfo) with ⟨i, -, -, hfree', -, hl₂, -⟩ | he
  swap
  · dsimp only at he
    rw [he] at hshadow
    exact absurd rfl hshadow
  have hinv := heapInv_init hk h1 hle
  have hgrows : Grows (fun _ => False) arena.mem _ arena.mem _ := Grows.holdPages arena.mem hfree'
  have hheld : ∀ r ∈ [expandRun 4096 page], HeldRun (holdPages (holdPages use page (expandPages 4096)) i
      (shadowPages fw.toBootInfo)) r := fun r hr => by
    obtain rfl := List.mem_singleton.mp hr
    exact (HeldRun.expand use hn hle).grows hgrows
  have hwrite := HeldOnly.storeHeaders arena.mem (HeapMemory.headers hinv hheld)
  refine ⟨_, ⟨hl₂.of_heldOnly hwrite, ⟨hinv, fun t _ hs => absurd rfl hs, fun t _ u _ _ hs => absurd rfl hs⟩, hheld⟩,
    use, hl, ?_, rfl⟩
  exact ((Grows.holdPages arena.mem hfree).trans hgrows).trans (.of_heldOnly hwrite)

theorem Kernel.initMemory_tested {fw : Platform} {img : KernelImage} {mem : Mem} {bytes : Nat → BitVec 8} {k₀ : Kernel}
    (h : initMemory fw.toBootInfo img mem bytes = .ok k₀) (ht : k₀.runHeapSmokeTests = .ok k) :
    (∃ use, HeapMemory k use ∧ k.FromTables (bootMachine fw.toBootInfo img mem bytes) use) ∧
      k.sched = Sched.taskInit k.machine.kernelPml4 := by
  obtain ⟨⟨use, hm, hf⟩, hs, page, hh⟩ := initMemory_memory h
  obtain ⟨k', hk', hstep, hs', -⟩ := hm.smokeTests hh
  cases hk'.symm.trans ht
  exact ⟨⟨use, hstep.memory, hf.heapStep hstep⟩, by rw [hs', hs, hstep.steady.kernelPml4]⟩

namespace SpaceInv

theorem boot {fw : Platform} {img : KernelImage} {mem : Mem} {bytes : Nat → BitVec 8} {shellEntry idleEntry : Word}
    {k : Kernel} (h : Kernel.boot fw.toBootInfo img mem bytes shellEntry idleEntry = .ok (some 0, some 1, k)) :
    ∃ use, SpaceInv k k.settle.procs use ∧ k.FromTables (bootMachine fw.toBootInfo img mem bytes) use := by
  obtain ⟨htab, -⟩ := TableInv.boot h
  unfold Kernel.boot at h
  obtain ⟨k₀₀, h₀₀, h⟩ := Result.of_bind_eq_ok h
  obtain ⟨k₀, h₀, h⟩ := Result.of_bind_eq_ok h
  obtain ⟨⟨shellId, k₁⟩, h₁, h⟩ := Result.of_bind_eq_ok h
  obtain ⟨⟨idleId, k₂⟩, h₂, h⟩ := Result.of_bind_eq_ok h
  cases h
  obtain ⟨⟨use₀, hm₀, hf₀⟩, hs₀⟩ := Kernel.initMemory_tested h₀₀ h₀
  obtain ⟨-, hp₀, -, hsh₀⟩ := TableInv.initMemory_tables h₀₀ h₀
  obtain ⟨hc₁, hp₁, -, hsh₁⟩ := taskCreate_tables h₁
  obtain ⟨hc₂, hp₂, -, hsh₂⟩ := taskCreate_tables h₂
  have hblank : ∀ t, (k₀.sched.tasks t).kernelStack = 0 := fun t => by rw [hs₀]; rfl
  obtain ⟨use₁, hst₁⟩ := hm₀.taskCreate (fun slot freed s hf hne => by
    obtain ⟨-, -, rfl, -⟩ := Sched.findFreeSlot_eq_some hf
    exact absurd (hblank slot) hne) h₁
  generalize hs₁ : k₁.sched = s₁ at hc₁ hc₂
  generalize hs₂ : k.sched = s₂ at hc₂
  cases hc₁ with
  | created _ _ _ =>
    obtain ⟨use₂, hst₂⟩ := hst₁.memory.taskCreate (fun slot freed s hf hne => by
      obtain ⟨-, hd, rfl, -⟩ := Sched.findFreeSlot_eq_some hf
      rw [hs₁] at hd hne
      by_cases hz : slot = 0
      · rw [hz, Sched.modify_tasks_same] at hd
        exact absurd (Or.inl rfl) hd
      · rw [Sched.modify_tasks_of_ne hz] at hne
        exact absurd (hblank slot) hne) h₂
    cases hc₂ with
    | created _ _ _ =>
      have hi : k.shell = .idle := by rw [hsh₂, hsh₁, hsh₀]
      have hprocs : k.procs = fun _ => Process.blank := by rw [hp₂, hp₁, hp₀]
      have hunused : ∀ i, (k.procs i).used = false := fun i => by rw [hprocs]; rfl
      have hkernel : k.machine.kernelPml4 = k₀.machine.kernelPml4 :=
        hst₂.steady.kernelPml4.trans hst₁.steady.kernelPml4
      have hcur : k.sched.currentTid = -1 ∧ k.sched.cr3 = k₀.machine.kernelPml4 := by
        rw [hs₂, hs₀]
        exact ⟨rfl, rfl⟩
      rw [settle_of_idle hi]
      refine ⟨use₂, ⟨hst₂.memory, ⟨fun i _ hu => ?_, fun i _ j _ hu => ?_⟩, fun t ht hl a _ => ?_,
        ⟨fun h0 => ?_, fun _ => ?_⟩⟩, (hf₀.heapStep hst₁).heapStep hst₂⟩
      · rw [hunused] at hu
        cases hu
      · rw [hunused] at hu
        cases hu
      · obtain ⟨i, -, hact, -⟩ := (htab.agree_of_idle hi).entry_of_live ht hl
        have := hact.1
        rw [hunused] at this
        cases this
      · rw [hcur.1] at h0
        exact absurd h0 (by decide)
      · rw [hcur.2, hkernel]

end SpaceInv

/-! ### Every run -/

/-- The tables agree, and the labels agree with memory. -/
def Kernel.MemInv (k : Kernel) : Prop := k.TableInv ∧ ∃ use, SpaceInv k k.settle.procs use

namespace Kernel
variable {k k' : Kernel} {fw : Platform} {img : KernelImage}

theorem memInv_init (h : (kernels fw img).init k) : k.MemInv := by
  obtain ⟨mem, bytes, shellEntry, idleEntry, hb⟩ := h
  obtain ⟨use, hi, -⟩ := SpaceInv.boot hb
  exact ⟨(TableInv.boot hb).1, use, hi⟩

theorem MemInv.step {e : KernelEvent} (h : k.MemInv) (hok : k.Orderly e) (hs : k.step e k') : k'.MemInv := by
  obtain ⟨ht, use, hi⟩ := h
  obtain ⟨use', hi', -⟩ := hi.step ht hok hs
  exact ⟨(ht.step hok.pid hok.undisturbed hs).1, use', hi'⟩

/-- In every run whose steps are orderly the labels stay right. -/
theorem memInv_of_reachable (h : ((kernels fw img).guard Orderly).Reachable k) : k.MemInv :=
  h.invariant (fun h₀ => memInv_init h₀) fun hi hs => hi.step hs.1 hs.2

end Kernel
end SamOS
