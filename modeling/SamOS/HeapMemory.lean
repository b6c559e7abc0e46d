import SamOS.Process
import SamOS.TaskStacks
import SamOS.VmmLayout

/-! The heap in physical memory. Block headers and task stacks lie in page runs that the heap got from the PMM; these
    pages are held, so that what `kmalloc`, `kfree` and a task creation write never reaches a page table, the page of
    an address space or a mapped page. -/

namespace SamOS
open Function Heap Loop

/-! ### Writes to held pages -/

/-- Every byte of the range lies in a held page. -/
def HeldRange (use : Nat → Use) (lo hi : Nat) : Prop := ∀ x, lo ≤ x → x < hi → use (x / 4096) = .held

variable {use : Nat → Use} {m' : Mem} {scope : Nat → Prop}

theorem HeldRange.mono {lo hi lo' hi' : Nat} (h : HeldRange use lo hi) (hlo : lo ≤ lo') (hhi : hi' ≤ hi) :
    HeldRange use lo' hi' := fun x h1 h2 => h x (by omega) (by omega)

/-- Memory changed in held pages at most. -/
def HeldOnly (use : Nat → Use) (m m' : Mem) : Prop := ∀ f, use f ≠ .held → m' f = m f

namespace HeldOnly
variable {use : Nat → Use} {m m' m'' : Mem} {a : Nat}

theorem trans (h : HeldOnly use m m') (h' : HeldOnly use m' m'') : HeldOnly use m m'' := fun f hf =>
  (h' f hf).trans (h f hf)

theorem storeAll (m : Mem) {ws : List Word} (h : HeldRange use a (a + 8 * ws.length)) :
    HeldOnly use m (m.storeAll a ws) := by
  induction ws generalizing m a with
  | nil => exact fun _ _ => rfl
  | cons w ws ih =>
    simp only [List.length_cons] at h
    have hfirst : HeldOnly use m (m.store a w) := fun f hf =>
      Mem.write_of_ne _ _ _ (by rintro rfl; exact hf (h a (by omega) (by omega)))
    exact hfirst.trans (ih (m.store a w) (h.mono (by omega) (by omega)))

theorem clear (m : Mem) {n : Nat} (h : HeldRange use a (a + n)) : HeldOnly use m (m.clear a n) := by
  intro f hf
  funext i
  unfold Mem.clear
  rw [if_neg]
  rintro ⟨hi, h1, h2⟩
  have hpage := h _ h1 h2
  rw [show (f * 4096 + 8 * i) / 4096 = f by omega] at hpage
  exact hf hpage

theorem storeHeaders (m : Mem) {blocks : List KBlock} (h : ∀ b ∈ blocks, HeldRange use b.addr (b.addr + 32)) :
    HeldOnly use m (m.storeHeaders blocks) := by
  induction blocks generalizing m with
  | nil => exact fun _ _ => rfl
  | cons b rest ih =>
    exact (storeAll m ((h b List.mem_cons_self).mono (Nat.le_refl _) (by simp))).trans
      (ih _ fun c hc => h c (List.mem_cons_of_mem _ hc))

theorem newStack (m : Mem) {stack : Nat} (f : InterruptFrame) (ha : stack % 16 = 0) (hlt : stack + 16384 < 2 ^ 64)
    (h : HeldRange use stack (stack + 16384)) : HeldOnly use m (m.newStack stack f) := by
  intro p hp
  funext i
  unfold Mem.newStack
  split
  · have hpage : (p * 4096 + 8 * i) / 4096 = p := by omega
    rw [Context.newStack_of_outside ha hlt, hpage, show (p * 4096 + 8 * i) % 4096 / 8 = i by omega]
    by_contra hin
    exact hp (hpage ▸ h (p * 4096 + 8 * i) (by omega) (by omega))
  · rfl

end HeldOnly

theorem Layout.of_heldOnly {s : Machine} (h : Layout s use) (hm : HeldOnly use s.mem m') :
    Layout { s with mem := m' } use :=
  h.of_mem (fun hf _ => hm _ (by rw [hf]; exact nofun)) fun ha => hm _ (by rw [ha]; exact nofun)

theorem Grows.of_heldOnly {m : Mem} (hm : HeldOnly use m m') :
    Grows scope m use m' use := by
  refine ⟨id, fun _ => rfl, fun _ hh _ => hm _ hh, fun {f r p i} hf _ hp hh => ?_⟩
  rw [hm f (by rw [hf]; exact nofun)] at hp hh
  exact ⟨hf, hp, hh⟩

/-! ### Page runs -/

/-- The labels once the `n` pages from `i` on are held. -/
def holdPages (use : Nat → Use) (i n : Nat) : Nat → Use := fun f => if i ≤ f ∧ f < i + n then .held else use f

theorem Grows.holdPages {i n : Nat} (m : Mem)
    (h : ∀ q, i ≤ q → q < i + n → use q = .free) : Grows scope m use m (holdPages use i n) := by
  have hin : ∀ {f}, i ≤ f ∧ f < i + n → SamOS.holdPages use i n f = .held := fun hf => if_pos hf
  have hout : ∀ {f}, ¬(i ≤ f ∧ f < i + n) → SamOS.holdPages use i n f = use f := fun hf => if_neg hf
  refine ⟨fun {f} hf => ?_, fun {f} hf => hout fun hc => hf (h f hc.1 hc.2), fun _ _ _ => rfl,
    fun {f r p j} hf _ hp hh => ?_⟩
  · by_cases hc : i ≤ f ∧ f < i + n
    · exact h f hc.1 hc.2
    · rwa [hout hc] at hf
  · by_cases hc : i ≤ f ∧ f < i + n
    · rw [hin hc] at hf
      cases hf
    · exact ⟨by rwa [hout hc] at hf, hp, hh⟩

namespace Layout
variable {s : Machine} {use : Nat → Use}

theorem takePages (h : Layout s use) {i n : Nat} (hfree : ∀ q, i ≤ q → q < i + n → s.pmm.Free q) :
    Layout { s with pmm := forRange i (i + n) (fun j s => s.takePage j) s.pmm } (holdPages use i n) := by
  induction n with
  | zero =>
    have hsame : holdPages use i 0 = use := funext fun f => if_neg (by omega)
    rw [hsame, Nat.add_zero, forRange_of_le (Nat.le_refl _)]
    exact h
  | succ n ih =>
    have hlast : (forRange i (i + n) (fun j s => s.takePage j) s.pmm).Free (i + n) :=
      (Pmm.free_takePages_iff (by omega)).mpr ⟨hfree _ (by omega) (by omega), by omega⟩
    have hl := (ih fun q h1 h2 => hfree q h1 (by omega)).take hlast
    have hsame : update (holdPages use i n) (i + n) .held = holdPages use i (n + 1) := by
      funext f
      unfold holdPages
      by_cases hf : f = i + n
      · rw [hf, update_self, if_pos (by omega)]
      · rw [update_of_ne hf]
        exact if_congr (by omega) rfl rfl
    rw [← Nat.add_assoc, forRange_succ (by omega), ← hsame]
    exact hl

/-- `pmm_alloc_pages` returns a run of free pages, which are held from then on, or nothing. -/
theorem pmmAllocPages (h : Layout s use) (n : Nat) :
    (∃ i, 1 ≤ i ∧ 0 < n ∧ (∀ q, i ≤ q → q < i + n → use q = .free) ∧ (s.pmm.pmmAllocPages n).1 = i ∧
      Layout { s with pmm := (s.pmm.pmmAllocPages n).2 } (holdPages use i n) ∧ i + n ≤ 2 ^ 40 ∧
      (s.pmm.pmmAllocPages n).2.totalPages = s.pmm.totalPages) ∨
    s.pmm.pmmAllocPages n = (0, s.pmm) := by
  rcases s.pmm.pmmAllocPages_cases n with ⟨i, hi, hn, hfree, he⟩ | he
  · rw [he]
    have hlast := (hfree (i + n - 1) (by omega) (by omega)).1
    have := h.owned.total
    exact Or.inl ⟨i, hi, hn, fun q h1 h2 => (h.owned.free_iff q).mpr (hfree q h1 h2), rfl, h.takePages hfree, by omega,
      Pmm.takePages_totalPages ..⟩
  · exact Or.inr he

end Layout

/-! ### The kernel's heap -/

/-- A page run of the heap: its pages are held. -/
structure HeldRun (use : Nat → Use) (r : PageRun) : Prop where
  pos : 0 < r.bytes
  le : r.stop ≤ 2 ^ 52
  held : HeldRange use r.base r.stop

theorem HeldRun.grows {use' : Nat → Use} {m : Mem} {r : PageRun} (h : HeldRun use r)
    (hg : Grows scope m use m' use') : HeldRun use' r :=
  ⟨h.pos, h.le, fun x h1 h2 => by rw [hg.keeps (by rw [h.held x h1 h2]; exact nofun), h.held x h1 h2]⟩

theorem HeldRun.expand (use : Nat → Use) {size page : Nat} (hn : 0 < expandPages size)
    (hle : page + expandPages size ≤ 2 ^ 40) :
    HeldRun (holdPages use page (expandPages size)) (expandRun size page) := by
  simp only [expandRun]
  generalize expandPages size = n at *
  refine ⟨by dsimp only; omega, by dsimp only [PageRun.stop]; omega, fun x h1 h2 => if_pos ?_⟩
  dsimp only [PageRun.stop] at h1 h2
  omega

/-- The labels agree with memory, and the heap that task stacks come from lies in held pages. -/
structure HeapMemory (k : Kernel) (use : Nat → Use) : Prop where
  layout : Layout k.machine use
  tasks : TaskStacks k.heap k.sched
  held : ∀ r ∈ k.heap.runs, HeldRun use r

/-- What a call of the heap does: free pages may become held, and held pages are written. -/
structure HeapStep (k : Kernel) (use : Nat → Use) (k' : Kernel) (use' : Nat → Use) : Prop where
  memory : HeapMemory k' use'
  grows : Grows (fun _ => False) k.machine.mem use k'.machine.mem use'
  steady : k.machine.Steady k'.machine

theorem HeapStep.refl {k : Kernel} (h : HeapMemory k use) : HeapStep k use k use := ⟨h, .refl _ _ _, .refl _⟩

theorem HeapStep.trans {k k' k'' : Kernel} {use' use'' : Nat → Use} (h : HeapStep k use k' use')
    (h' : HeapStep k' use' k'' use'') : HeapStep k use k'' use'' :=
  ⟨h'.memory, h.grows.trans h'.grows, h.steady.trans h'.steady⟩

namespace HeapMemory
variable {k k' : Kernel} {use use' : Nat → Use}

theorem headers {h : HeapRun} (hinv : h.Inv) (hheld : ∀ r ∈ h.runs, HeldRun use r) :
    ∀ b ∈ h.heap.blocks, HeldRange use b.addr (b.addr + 32) := by
  intro b hb
  obtain ⟨r, hr, hbase, hstop⟩ := hinv.laid.inRun b hb
  exact (hheld r hr).held.mono hbase (by unfold KBlock.stop at hstop; omega)

theorem payload (h : HeapMemory k use) {ptr size : Nat} (hp : (ptr, size) ∈ k.heap.live) :
    ptr % 16 = 0 ∧ ptr + size ≤ 2 ^ 52 ∧ HeldRange use ptr (ptr + size) := by
  have hs := h.tasks.heap.sound
  obtain ⟨h32, r, hr, hbase, hstop⟩ := hs.inside _ hp
  dsimp only at h32 hbase hstop
  exact ⟨hs.aligned _ hp, Nat.le_trans hstop (h.held r hr).le, (h.held r hr).held.mono (by omega) hstop⟩

theorem kfree (h : HeapMemory k use) {slot : Nat} (hslot : slot < maxTasks)
    (hm : (k.sched.tasks slot).kernelStack ≠ 0 → k.heap.MergesInside (.free (k.sched.tasks slot).kernelStack)) :
    HeapStep k use ((k.withSched (k.sched.modify slot fun t => { t with kernelStack := 0 })).kfree
      (k.sched.tasks slot).kernelStack) use := by
  generalize hptr : (k.sched.tasks slot).kernelStack = ptr at hm
  unfold Kernel.kfree
  split
  · rename_i h0
    refine ⟨⟨h.layout, ?_, h.held⟩, .refl _ _ _, .refl _⟩
    exact h.tasks.free hslot (fun hne => absurd (hptr.trans h0) hne) (by rw [if_pos (hptr.trans h0)]; rfl)
  · rename_i h0
    have hstep : if (k.sched.tasks slot).kernelStack = 0 then
        { k.heap with heap := k.heap.heap.kfree ptr, live := k.heap.live.filter fun a => a.1 ≠ ptr } = k.heap
        else k.heap.step (.free (k.sched.tasks slot).kernelStack)
          { k.heap with heap := k.heap.heap.kfree ptr, live := k.heap.live.filter fun a => a.1 ≠ ptr } := by
      rw [hptr, if_neg h0]
      exact ⟨⟨16384, hptr ▸ h.tasks.stack slot hslot (hptr ▸ h0)⟩, rfl, rfl, rfl⟩
    have hst := h.tasks.free hslot (by rw [hptr]; exact hm) hstep
    have hheld := HeldOnly.storeHeaders k.machine.mem (headers hst.heap h.held)
    exact ⟨⟨h.layout.of_heldOnly hheld, hst, h.held⟩, .of_heldOnly hheld, ⟨rfl, rfl, rfl⟩⟩

theorem runsOk_expand (h : HeapMemory k use) {i size : Nat} (hi : 1 ≤ i)
    (hfree : ∀ q, i ≤ q → q < i + expandPages size → use q = .free) (hn : 0 < expandPages size)
    (hlt : i + expandPages size ≤ 2 ^ 40) : RunsOk (k.heap.runs ++ [expandRun size i]) := by
  have hr := h.tasks.heap.runs
  refine ⟨List.pairwise_append.mpr ⟨hr.apart, List.pairwise_singleton _ _, fun r hrm r' hr' => ?_⟩, fun r hrm => ?_,
    fun r hrm => ?_⟩
  · obtain rfl := List.mem_singleton.mp hr'
    -- A common byte would lie in a page that is both held and free.
    by_contra hc
    simp only [PageRun.Apart, PageRun.stop, expandRun, not_or, Nat.not_le] at hc
    have hpos := (h.held r hrm).pos
    have hx : ∃ x, r.base ≤ x ∧ x < r.stop ∧ i * 4096 ≤ x ∧ x < (i + expandPages size) * 4096 :=
      ⟨max r.base (i * 4096), by unfold PageRun.stop; omega⟩
    obtain ⟨x, h1, h2, h3, h4⟩ := hx
    have hheld := (h.held r hrm).held x h1 h2
    rw [hfree (x / 4096) (by omega) (by omega)] at hheld
    cases hheld
  · rcases List.mem_append.mp hrm with hrm | hrm
    · exact hr.aligned r hrm
    · obtain rfl := List.mem_singleton.mp hrm
      exact ⟨Nat.mul_mod_left .., Nat.mul_mod_left ..⟩
  · rcases List.mem_append.mp hrm with hrm | hrm
    · exact hr.fits r hrm
    · obtain rfl := List.mem_singleton.mp hrm
      simp only [expandRun, PageRun.stop]
      omega

/-- What `expand_heap` does to the labels: nothing, or a run of free pages is held. -/
theorem expandHeap (h : HeapMemory k use) (size : Nat) :
    ∃ use', Layout { k.machine with pmm := (k.expandHeap size).2 } use' ∧
      Grows (fun _ => False) k.machine.mem use k.machine.mem use' ∧
      (k.expandHeap size).2.totalPages = k.machine.pmm.totalPages ∧ RunsOk (k.heap.grow size (k.expandHeap size).1) ∧
      ∀ r ∈ k.heap.grow size (k.expandHeap size).1, HeldRun use' r := by
  have hsame : ∀ {page : Nat}, ¬(k.heap.heap.needsPages size ∧ page ≠ 0) → k.heap.grow size page = k.heap.runs :=
    fun hn => if_neg hn
  have hnone : ∀ {pmm : Pmm} {page : Nat}, pmm = k.machine.pmm → ¬(k.heap.heap.needsPages size ∧ page ≠ 0) →
      ∃ use', Layout { k.machine with pmm } use' ∧ Grows (fun _ => False) k.machine.mem use k.machine.mem use' ∧
        pmm.totalPages = k.machine.pmm.totalPages ∧ RunsOk (k.heap.grow size page) ∧
        ∀ r ∈ k.heap.grow size page, HeldRun use' r := by
    rintro pmm page rfl hn
    rw [hsame hn]
    exact ⟨use, h.layout, .refl _ _ _, rfl, h.tasks.heap.runs, h.held⟩
  unfold Kernel.expandHeap
  by_cases hn : k.heap.heap.needsPages size = true
  · rw [if_pos hn]
    rcases h.layout.pmmAllocPages (expandPages (alignUp size 16)) with ⟨i, hi, hpos, hfree, hpage, hl, hlt, htot⟩ | he
    · rw [hpage]
      have hgrow : k.heap.grow size i = k.heap.runs ++ [expandRun (alignUp size 16) i] := if_pos ⟨hn, by omega⟩
      rw [hgrow]
      have hg : Grows (fun _ => False) k.machine.mem use k.machine.mem
          (holdPages use i (expandPages (alignUp size 16))) :=
        .holdPages _ hfree
      refine ⟨_, hl, hg, htot, h.runsOk_expand hi hfree hpos hlt, fun r hr => ?_⟩
      rcases List.mem_append.mp hr with hr | hr
      · exact (h.held r hr).grows hg
      · obtain rfl := List.mem_singleton.mp hr
        exact .expand use hpos hlt
    · rw [he]
      exact hnone rfl fun hc => hc.2 rfl
  · rw [if_neg hn]
    exact hnone rfl fun hc => hn hc.1

/-- `kmalloc` of a task stack: the stack is live, and no task has it yet. -/
theorem kmalloc (h : HeapMemory k use) {ptr : Nat} (hk : k.kmalloc 16384 = .ok (ptr, k')) :
    ∃ use', HeapStep k use k' use' ∧ k'.sched = k.sched ∧
      (ptr ≠ 0 → (ptr, 16384) ∈ k'.heap.live ∧ ∀ t < maxTasks, (k.sched.tasks t).kernelStack ≠ ptr) := by
  obtain ⟨use', hl, hg, htot, hruns, hheld⟩ := h.expandHeap 16384
  unfold Kernel.kmalloc at hk
  generalize k.expandHeap 16384 = found at *
  obtain ⟨page, pmm⟩ := found
  obtain ⟨⟨p, heap⟩, hm, hk⟩ := Result.of_bind_eq_ok hk
  cases hk
  have hstep : k.heap.step (.malloc 16384 page)
      ⟨heap, k.heap.grow 16384 page, if ptr = 0 then k.heap.live else (ptr, 16384) :: k.heap.live⟩ :=
    ⟨by decide, rfl, hruns, ptr, hm, rfl⟩
  obtain ⟨hst, hnew⟩ := h.tasks.malloc hstep hm
  have hwrite := HeldOnly.storeHeaders k.machine.mem (headers hst.heap hheld)
  exact ⟨use', ⟨⟨hl.of_heldOnly hwrite, hst, hheld⟩, hg.trans (.of_heldOnly hwrite), ⟨rfl, rfl, htot⟩⟩, rfl, hnew⟩

theorem install (h : HeapMemory k use) {slot stack : Nat} (n : NewTask) (hlive : (stack, 16384) ∈ k.heap.live)
    (hne : ∀ t < maxTasks, (k.sched.tasks t).kernelStack ≠ stack) :
    HeapStep k use
      { k with
        sched := k.sched.install slot stack n.pid n.pml4 n.isUser n.addressSpace
        machine := { k.machine with mem := k.machine.mem.newStack stack (n.frame stack) } } use := by
  obtain ⟨hal, hle, hr⟩ := h.payload hlive
  have hwrite := HeldOnly.newStack k.machine.mem (n.frame stack) hal (by omega) hr
  exact ⟨⟨h.layout.of_heldOnly hwrite, h.tasks.install hlive hne, h.held⟩, .of_heldOnly hwrite, ⟨rfl, rfl, rfl⟩⟩

theorem taskCreate (h : HeapMemory k use) {n : NewTask} {tid : Option Nat}
    (hm : ∀ slot freed s, k.sched.findFreeSlot = some (slot, freed, s) → freed ≠ 0 → k.heap.MergesInside (.free freed))
    (hc : k.taskCreate n = .ok (tid, k')) : ∃ use', HeapStep k use k' use' := by
  unfold Kernel.taskCreate at hc
  cases hf : k.sched.findFreeSlot with
  | none =>
    rw [hf] at hc
    cases hc
    exact ⟨use, .refl h⟩
  | some found =>
    obtain ⟨slot, freed, s⟩ := found
    obtain ⟨hslot, -, rfl, rfl⟩ := Sched.findFreeSlot_eq_some hf
    rw [hf] at hc
    obtain ⟨⟨stack, k₁⟩, hk, hc⟩ := Result.of_bind_eq_ok hc
    have h₁ := h.kfree hslot (hm _ _ _ hf)
    obtain ⟨use', h₂, hs, hnew⟩ := h₁.memory.kmalloc hk
    dsimp only at hc
    split at hc <;> cases hc
    · exact ⟨use', h₁.trans h₂⟩
    · rename_i hstack
      refine ⟨use', (h₁.trans h₂).trans (h₂.memory.install n (hnew hstack).1 ?_)⟩
      rw [hs]
      exact (hnew hstack).2

end HeapMemory
end SamOS
