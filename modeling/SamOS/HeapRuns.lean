import SamOS.HeapDisjoint
import SamOS.Lib.Result

/-! Every run of `kmalloc`, `kzalloc` and `kfree` after `kmalloc_init`, over whatever page runs the PMM returns. The
    live allocations are disjoint, inside one page run each and aligned as long as every `kfree` merges inside one
    page run; a merge across two runs hands out memory of others. -/

namespace SamOS.Heap

/-! ### The search of `kmalloc` -/

variable {size : Nat}

theorem takeFit_eq_some {ptr : Nat} {blocks blocks' : List KBlock} (h : takeFit size blocks = some (ptr, blocks')) :
    ∃ l₁ b l₂, blocks = l₁ ++ b :: l₂ ∧ b.free = true ∧ size ≤ b.size ∧ ptr = (b.addr + 32) % 2 ^ 64 ∧
      blocks' = l₁ ++ (claim (splitBlock b size) ++ l₂) := by
  induction blocks generalizing ptr blocks' with
  | nil => cases h
  | cons b rest ih =>
    unfold takeFit at h
    split at h
    · rename_i hb
      simp only [Option.some.injEq, Prod.mk.injEq] at h
      obtain ⟨rfl, rfl⟩ := h
      exact ⟨[], b, rest, rfl, hb.1, hb.2, rfl, (List.nil_append _).symm⟩
    · cases hrest : takeFit size rest with
      | none => simp [hrest] at h
      | some found =>
        obtain ⟨ptr', rest'⟩ := found
        simp only [hrest, Option.map_some, Option.some.injEq, Prod.mk.injEq] at h
        obtain ⟨rfl, rfl⟩ := h
        obtain ⟨l₁, c, l₂, rfl, hfree, hfit, hptr, rfl⟩ := ih hrest
        exact ⟨b :: l₁, c, l₂, rfl, hfree, hfit, hptr, (List.cons_append ..).symm⟩

theorem takeFit_eq_none {blocks : List KBlock} (h : takeFit size blocks = none) {b : KBlock} (hb : b ∈ blocks)
    (hfree : b.free = true) : b.size < size := by
  induction blocks with
  | nil => cases hb
  | cons c rest ih =>
    unfold takeFit at h
    split at h
    · cases h
    · rename_i hc
      rw [Option.map_eq_none_iff] at h
      rcases List.mem_cons.mp hb with rfl | hb
      · exact Nat.lt_of_not_le fun hfit => hc ⟨hfree, hfit⟩
      · exact ih h hb

theorem kmalloc_cases {h h' : Heap} {page ptr : Nat} (hk : h.kmalloc size page = .ok (ptr, h')) :
    (ptr = 0 ∧ h' = h) ∨
    (size ≠ 0 ∧ ∃ blocks, takeFit (alignUp size 16) h.blocks = some (ptr, blocks) ∧ h' = { h with blocks }) ∨
    (size ≠ 0 ∧ takeFit (alignUp size 16) h.blocks = none ∧ page ≠ 0 ∧ ptr = (page * 4096 + 32) % 2 ^ 64 ∧
      h' = { h with blocks := h.blocks ++ claim (splitBlock (expandBlock (alignUp size 16) page) (alignUp size 16)) }) := by
  unfold kmalloc at hk
  split at hk
  · cases hk
    exact Or.inl ⟨rfl, rfl⟩
  · rename_i hsize
    split at hk
    · cases hk
    · cases ht : takeFit (alignUp size 16) h.blocks with
      | some found =>
        simp only [ht] at hk
        cases hk
        exact Or.inr (Or.inl ⟨hsize, _, rfl, rfl⟩)
      | none =>
        simp only [ht] at hk
        split at hk
        · cases hk
          exact Or.inl ⟨rfl, rfl⟩
        · rename_i hpage
          cases hk
          exact Or.inr (Or.inr ⟨hsize, rfl, hpage, rfl, rfl⟩)

/-! ### Runs -/

/-- The heap with the page runs it has obtained and the live allocations: payload pointer and size asked for. -/
structure HeapRun where
  heap : Heap
  runs : List PageRun
  live : List (Nat × Nat)

/-- `kmalloc` or `kzalloc` of `size` bytes, where `page` is the answer of `pmm_alloc_pages` should the heap grow;
    `kfree` of a pointer. `kzalloc` differs from `kmalloc` only in clearing the payload. -/
inductive HeapEvent where
  | malloc (size page : Nat)
  | free (ptr : Nat)
  deriving DecidableEq, Repr

/-- The page runs after a `kmalloc`. -/
def HeapRun.grow (s : HeapRun) (size page : Nat) : List PageRun :=
  if s.heap.needsPages size ∧ page ≠ 0 then s.runs ++ [expandRun (alignUp size 16) page] else s.runs

/-- One call. The PMM returns a run apart from the earlier ones, wherever it lies; only live pointers are freed. -/
def HeapRun.step (s : HeapRun) : HeapEvent → HeapRun → Prop
  | .malloc size page, t =>
    size < 2 ^ 32 ∧ t.runs = s.grow size page ∧ RunsOk t.runs ∧
    ∃ ptr, s.heap.kmalloc size page = .ok (ptr, t.heap) ∧
      t.live = if ptr = 0 then s.live else (ptr, size) :: s.live
  | .free ptr, t =>
    (∃ size, (ptr, size) ∈ s.live) ∧ t.runs = s.runs ∧ t.heap = s.heap.kfree ptr ∧
    t.live = s.live.filter fun a => a.1 ≠ ptr

/-- All runs after `kmalloc_init`. -/
def heapRuns : Lts.System HeapRun HeapEvent where
  init s := ∃ page, kmallocInit { blocks := [], ready := false } page = .ok s.heap ∧
    s.runs = [expandRun 4096 page] ∧ RunsOk s.runs ∧ s.live = []
  step := HeapRun.step

/-- The call merges no two blocks of different page runs. -/
def HeapRun.MergesInside (s : HeapRun) : HeapEvent → Prop
  | .malloc _ _ => True
  | .free ptr => MergesWithin s.runs (markFree (ptr - 32) s.heap.blocks)

/-- Live allocations, headers included, are disjoint, each inside one page run, and aligned. -/
structure HeapRun.Sound (s : HeapRun) : Prop where
  distinct : (s.live.map Prod.fst).Nodup
  disjoint : ∀ a ∈ s.live, ∀ b ∈ s.live, a.1 ≠ b.1 → a.1 + a.2 ≤ b.1 - 32 ∨ b.1 + b.2 ≤ a.1 - 32
  inside : ∀ a ∈ s.live, 32 ≤ a.1 ∧ ∃ r ∈ s.runs, r.base ≤ a.1 - 32 ∧ a.1 + a.2 ≤ r.stop
  aligned : ∀ a ∈ s.live, a.1 % 16 = 0

/-- The invariant of runs whose merges stay inside: every live allocation is a block in use. -/
structure HeapRun.Inv (s : HeapRun) : Prop where
  ready : s.heap.ready = true
  runs : RunsOk s.runs
  laid : WellLaid s.runs s.heap.blocks
  live : ∀ a ∈ s.live, ∃ b ∈ s.heap.blocks, b.free = false ∧ b.addr + 32 = a.1 ∧ a.2 ≤ b.size
  distinct : (s.live.map Prod.fst).Nodup

namespace HeapRun.Inv
variable {s t : HeapRun}

theorem sound (h : s.Inv) : s.Sound where
  distinct := h.distinct
  disjoint a ha b hb hne := by
    obtain ⟨x, hx, -, hxa, hxs⟩ := h.live a ha
    obtain ⟨y, hy, -, hyb, hys⟩ := h.live b hb
    have hxy : x ≠ y := fun hxy => hne (by rw [← hxa, ← hyb, hxy])
    have hap := h.laid.apart.forall hx hy hxy
    simp only [Apart, KBlock.stop] at hap
    omega
  inside a ha := by
    obtain ⟨x, hx, -, hxa, hxs⟩ := h.live a ha
    obtain ⟨r, hr, hbase, hstop⟩ := h.laid.inRun x hx
    simp only [KBlock.stop] at hstop
    exact ⟨by omega, r, hr, by omega, by omega⟩
  aligned a ha := by
    obtain ⟨x, hx, -, hxa, -⟩ := h.live a ha
    have := (h.laid.aligned x hx).1
    omega

theorem claims (h : s.Inv) {blocks : List KBlock} {size n addr : Nat} (hr : RunsOk t.runs)
    (hblocks : ∀ b ∈ s.heap.blocks, b ∈ blocks) (hl : WellLaid t.runs blocks)
    (hc : Claims t.runs blocks t.heap.blocks n addr) (hn : size ≤ n) (hpos : 0 < n) {ptr : Nat}
    (hptr : ptr = (addr + 32) % 2 ^ 64) (hlive : t.live = if ptr = 0 then s.live else (ptr, size) :: s.live)
    (hready : t.heap.ready = true) : t.Inv := by
  obtain ⟨p, hp, hpf, hpa, hps⟩ := hc.target
  obtain ⟨b, hb, hbf, hba⟩ := hc.source
  have hexact : ptr = addr + 32 := by
    obtain ⟨r, hrm, -, hstop⟩ := hc.laid.inRun p hp
    have := (hr.fits r hrm).2
    simp only [KBlock.stop] at hstop
    rw [hptr, Nat.mod_eq_of_lt (by omega)]
  rw [if_neg (by omega)] at hlive
  refine ⟨hready, hr, hc.laid, fun a ha => ?_, ?_⟩ <;> rw [hlive] at *
  · rcases List.mem_cons.mp ha with rfl | ha
    · exact ⟨p, hp, hpf, by rw [hpa, hexact], Nat.le_trans hn hps⟩
    · obtain ⟨x, hx, hxf, hxa, hxs⟩ := h.live a ha
      exact ⟨x, hc.kept x (hblocks x hx) hxf, hxf, hxa, hxs⟩
  · -- The claimed block was free, so no live allocation sits at its address.
    refine List.nodup_cons.mpr ⟨fun hmem => ?_, h.distinct⟩
    obtain ⟨a, ha, hap⟩ := List.mem_map.mp hmem
    obtain ⟨x, hx, hxf, hxa, -⟩ := h.live a ha
    have := hl.eq_of_addr (hblocks x hx) hb (by omega)
    rw [this, hbf] at hxf
    cases hxf

theorem malloc (h : s.Inv) {size page : Nat} (hs : s.step (.malloc size page) t) : t.Inv := by
  obtain ⟨hsize, hruns, hr, ptr, hk, hlive⟩ := hs
  obtain ⟨hle, hlt, hmod⟩ := alignUp_sixteen hsize
  rcases kmalloc_cases hk with ⟨rfl, hheap⟩ | ⟨h0, blocks, ht, hheap⟩ | ⟨h0, ht, hpage, hptr, hheap⟩
  · have hrun : WellLaid t.runs s.heap.blocks := by
      rw [hruns] at hr ⊢
      unfold grow at hr ⊢
      split at hr
      · rename_i hg
        rw [if_pos hg]
        exact h.laid.mono hr
      · rename_i hg
        rw [if_neg hg]
        exact h.laid
    rw [if_pos rfl] at hlive
    exact ⟨hheap ▸ h.ready, hr, hheap ▸ hrun, by rw [hlive, hheap]; exact h.live, by rw [hlive]; exact h.distinct⟩
  · have hsame : t.runs = s.runs := by
      rw [hruns]
      simp [grow, needsPages, ht]
    obtain ⟨addr, hptr, hc⟩ := takeFit_spec h.runs h.laid hmod ht
    have hblocks : t.heap.blocks = blocks := by rw [hheap]
    rw [← hblocks, ← hsame] at hc
    exact h.claims hr (fun _ hb => hb) (hsame ▸ h.laid) hc hle (by omega) hptr hlive
      (by rw [hheap]; exact h.ready)
  · have hgrow : t.runs = s.runs ++ [expandRun (alignUp size 16) page] := by
      rw [hruns]
      simp [grow, needsPages, ht, h0, hpage]
    have hl : WellLaid t.runs (s.heap.blocks ++ [expandBlock (alignUp size 16) page]) := by
      rw [hgrow] at hr ⊢
      exact h.laid.expand (by omega) hr
    have hfit : alignUp size 16 ≤ (expandBlock (alignUp size 16) page).size := by
      have := expandBytes_spec (show alignUp size 16 < 2 ^ 33 by omega)
      simp only [expandBlock]
      omega
    have hc := Claims.append hl (claims_head hr hl.of_append rfl hfit hmod)
    have hblocks : t.heap.blocks = s.heap.blocks ++
        claim (splitBlock (expandBlock (alignUp size 16) page) (alignUp size 16)) := by rw [hheap]
    rw [List.append_nil, ← hblocks] at hc
    exact h.claims hr (fun b hb => List.mem_append_left _ hb) hl hc hle (by omega) hptr hlive
      (by rw [hheap]; exact h.ready)

theorem free (h : s.Inv) {ptr : Nat} (hm : s.MergesInside (.free ptr)) (hs : s.step (.free ptr) t) : t.Inv := by
  obtain ⟨⟨size, hptr⟩, hruns, hheap, hlive⟩ := hs
  have h32 : 32 ≤ ptr := (h.sound.inside _ hptr).1
  obtain ⟨h1, -⟩ := h.laid.markFree (ptr - 32)
  obtain ⟨h2, -, h3⟩ := coalesce_spec h.runs h1 hm
  have hblocks : t.heap.blocks = coalesce (markFree (ptr - 32) s.heap.blocks) := by
    rw [hheap, kfree, if_neg (by omega)]
  have hready : t.heap.ready = true := by
    rw [hheap, kfree, if_neg (by omega)]
    exact h.ready
  refine ⟨hready, hruns ▸ h.runs, by rw [hruns, hblocks]; exact h2, fun a ha => ?_, ?_⟩ <;> rw [hlive] at *
  · obtain ⟨ha, hne⟩ := List.mem_filter.mp ha
    obtain ⟨x, hx, hxf, hxa, hxs⟩ := h.live a ha
    have hxm : x ∈ markFree (ptr - 32) s.heap.blocks := by
      refine List.mem_map.mpr ⟨x, hx, ?_⟩
      rw [if_neg]
      intro hxp
      have : a.1 = ptr := by omega
      simp [this] at hne
    exact ⟨x, hblocks ▸ h3 x hxm hxf, hxf, hxa, hxs⟩
  · exact h.distinct.sublist (List.filter_sublist.map _)

theorem init (h : heapRuns.init s) : s.Inv := by
  obtain ⟨page, hk, hruns, hr, hlive⟩ := h
  unfold kmallocInit at hk
  simp only [Bool.false_eq_true, if_false] at hk
  split at hk
  · cases hk
  · have hheap : s.heap.blocks = [] ++ [expandBlock 4096 page] := by
      injection hk with hk
      rw [← hk]
    have hnil : WellLaid [] [] := ⟨by simp, by simp, by simp, by simp⟩
    have hr' : RunsOk ([] ++ [expandRun 4096 page]) := by
      rw [hruns] at hr
      exact hr
    have hl := hnil.expand (by omega) hr'
    have hready : s.heap.ready = true := by
      injection hk with hk
      rw [← hk]
    refine ⟨hready, hr, by rw [hruns, hheap]; exact hl, by simp [hlive], by simp [hlive]⟩

end HeapRun.Inv

/-- In every run whose merges stay inside one page run, the live allocations are sound. -/
theorem heap_sound_of_merges_inside {s : HeapRun} (h : (heapRuns.guard HeapRun.MergesInside).Reachable s) :
    s.Sound := by
  refine HeapRun.Inv.sound (h.invariant (fun h₀ => HeapRun.Inv.init h₀) ?_)
  rintro s (⟨size, page⟩ | ptr) t hinv ⟨hok, hs⟩
  · exact hinv.malloc hs
  · exact hinv.free hok hs

/-- A run with a merge inside its page run: 100 bytes are allocated and freed, then 8000 are allocated. -/
theorem heap_sound_of_merges_inside_reuse :
    ∃ s, (heapRuns.guard HeapRun.MergesInside).Run [.malloc 8000 0, .free 0x10000020, .malloc 100 0] s ∧
      s.live = [(0x10000020, 8000)] ∧ s.Sound := by
  let run : PageRun := { base := 0x10000000, bytes := 8192 }
  let s₀ : HeapRun := ⟨⟨[⟨0x10000000, 8160, true⟩], true⟩, [run], []⟩
  let s₁ : HeapRun := ⟨⟨[⟨0x10000000, 112, false⟩, ⟨0x10000090, 8016, true⟩], true⟩, [run], [(0x10000020, 100)]⟩
  let s₃ : HeapRun := ⟨⟨[⟨0x10000000, 8000, false⟩, ⟨0x10001F60, 128, true⟩], true⟩, [run], [(0x10000020, 8000)]⟩
  let S := heapRuns.guard HeapRun.MergesInside
  have h₀ : S.init s₀ := ⟨0x10000, rfl, rfl, by decide +kernel, rfl⟩
  have h₁ : S.step s₀ (.malloc 100 0) s₁ := ⟨trivial, by decide, rfl, by decide +kernel, 0x10000020, rfl, rfl⟩
  have h₂ : S.step s₁ (.free 0x10000020) s₀ :=
    ⟨⟨⟨run, by decide, by decide, by decide⟩, trivial⟩, ⟨100, by decide⟩, rfl, rfl, rfl⟩
  have h₃ : S.step s₀ (.malloc 8000 0) s₃ := ⟨trivial, by decide, rfl, by decide +kernel, 0x10000020, rfl, rfl⟩
  have h : S.Run [.malloc 8000 0, .free 0x10000020, .malloc 100 0] s₃ :=
    (((Lts.System.Run.init h₀).snoc h₁).snoc h₂).snoc h₃
  exact ⟨s₃, h, rfl, heap_sound_of_merges_inside ⟨_, h⟩⟩

/-- Three page runs, the third right behind the first: freeing the second and the first merges them into one block,
    and the next allocation from it overlaps the live allocation in the third. -/
theorem merge_across_runs_overlaps :
    ∃ s, heapRuns.Run [.malloc 12000 0, .free 0x10000020, .free 0x20000020, .malloc 4064 0x10002,
        .malloc 4064 0x20000, .malloc 8160 0] s ∧
      s.live = [(0x10000020, 12000), (0x10002020, 4064)] ∧ ¬s.Sound := by
  let a : PageRun := { base := 0x10000000, bytes := 8192 }
  let b : PageRun := { base := 0x20000000, bytes := 4096 }
  let c : PageRun := { base := 0x10002000, bytes := 4096 }
  let ma : Nat × Nat := (0x10000020, 8160)
  let mb : Nat × Nat := (0x20000020, 4064)
  let mc : Nat × Nat := (0x10002020, 4064)
  let kb : KBlock := ⟨0x20000000, 4064, false⟩
  let kc : KBlock := ⟨0x10002000, 4064, false⟩
  let s₀ : HeapRun := ⟨⟨[⟨0x10000000, 8160, true⟩], true⟩, [a], []⟩
  let s₁ : HeapRun := ⟨⟨[⟨0x10000000, 8160, false⟩], true⟩, [a], [ma]⟩
  let s₂ : HeapRun := ⟨⟨[⟨0x10000000, 8160, false⟩, kb], true⟩, [a, b], [mb, ma]⟩
  let s₃ : HeapRun := ⟨⟨[⟨0x10000000, 8160, false⟩, kb, kc], true⟩, [a, b, c], [mc, mb, ma]⟩
  let s₄ : HeapRun := ⟨⟨[⟨0x10000000, 8160, false⟩, { kb with free := true }, kc], true⟩, [a, b, c], [mc, ma]⟩
  let s₅ : HeapRun := ⟨⟨[⟨0x10000000, 12256, true⟩, kc], true⟩, [a, b, c], [mc]⟩
  let s₆ : HeapRun := ⟨⟨[⟨0x10000000, 12000, false⟩, ⟨0x10002F00, 224, true⟩, kc], true⟩, [a, b, c],
    [(0x10000020, 12000), mc]⟩
  have h₀ : heapRuns.init s₀ := ⟨0x10000, rfl, rfl, by decide +kernel, rfl⟩
  have h₁ : heapRuns.step s₀ (.malloc 8160 0) s₁ := ⟨by decide, rfl, by decide +kernel, 0x10000020, rfl, rfl⟩
  have h₂ : heapRuns.step s₁ (.malloc 4064 0x20000) s₂ :=
    ⟨by decide, rfl, by decide +kernel, 0x20000020, by decide +kernel, rfl⟩
  have h₃ : heapRuns.step s₂ (.malloc 4064 0x10002) s₃ :=
    ⟨by decide, rfl, by decide +kernel, 0x10002020, by decide +kernel, rfl⟩
  have h₄ : heapRuns.step s₃ (.free 0x20000020) s₄ := ⟨⟨4064, by decide⟩, rfl, rfl, rfl⟩
  have h₅ : heapRuns.step s₄ (.free 0x10000020) s₅ := ⟨⟨8160, by decide⟩, rfl, rfl, rfl⟩
  have h₆ : heapRuns.step s₅ (.malloc 12000 0) s₆ := ⟨by decide, rfl, by decide +kernel, 0x10000020, rfl, rfl⟩
  have h : heapRuns.Run [.malloc 12000 0, .free 0x10000020, .free 0x20000020, .malloc 4064 0x10002,
      .malloc 4064 0x20000, .malloc 8160 0] s₆ :=
    ((((((Lts.System.Run.init h₀).snoc h₁).snoc h₂).snoc h₃).snoc h₄).snoc h₅).snoc h₆
  refine ⟨s₆, h, rfl, fun hs => ?_⟩
  have := hs.disjoint (0x10000020, 12000) (by decide) mc (by decide) (by decide)
  revert this
  decide

/-! ### The smoke tests -/

theorem kmalloc_last (taken : List KBlock) (htaken : ∀ b ∈ taken, b.free = false) {a n s : Nat} (page : Nat)
    (hsize : size ≠ 0) (hs : alignUp size 16 = s) (hfit : s + 48 < n) (hlt : a + 32 + n ≤ 2 ^ 64) :
    Heap.kmalloc { blocks := taken ++ [⟨a, n, true⟩], ready := true } size page =
      .ok (a + 32, { blocks := taken ++ [⟨a, s, false⟩, ⟨a + 32 + s, n - s - 32, true⟩], ready := true }) := by
  have hlast : takeFit s [⟨a, n, true⟩] = some (a + 32, [⟨a, s, false⟩, ⟨a + 32 + s, n - s - 32, true⟩]) := by
    have hremaining : (n + 2 ^ 64 - s) % 2 ^ 64 = n - s := by omega
    have hnext : (a + 32 + s) % 2 ^ 64 = a + 32 + s := by omega
    have hptr : (a + 32) % 2 ^ 64 = a + 32 := by omega
    rw [takeFit, if_pos ⟨rfl, by dsimp only; omega⟩]
    unfold splitBlock
    dsimp only
    rw [hremaining, hnext, hptr, if_neg (by omega)]
    rfl
  have hfound : takeFit s (taken ++ [⟨a, n, true⟩]) =
      some (a + 32, taken ++ [⟨a, s, false⟩, ⟨a + 32 + s, n - s - 32, true⟩]) := by
    induction taken with
    | nil => exact hlast
    | cons b taken ih =>
      have hb : ¬(b.free = true ∧ b.size ≥ s) :=
        fun h => Bool.false_ne_true ((htaken b List.mem_cons_self).symm.trans h.1)
      rw [List.cons_append, takeFit, if_neg hb, ih fun c hc => htaken c (List.mem_cons_of_mem b hc)]
      rfl
  unfold Heap.kmalloc
  rw [if_neg hsize, if_neg (by simp)]
  dsimp only
  rw [hs, hfound]

/-- The block list of `kmalloc_init` in the smoke tests: they leave no allocation, but two blocks. -/
theorem smokeTests_blocks {base : Nat} (hlt : base + 8192 ≤ 2 ^ 64) (page : Nat → Nat) :
    Heap.kmalloc ⟨[⟨base, 8160, true⟩], true⟩ 24 (page 0) = .ok (base + 32,
      ⟨[⟨base, 32, false⟩, ⟨base + 64, 8096, true⟩], true⟩) ∧
    Heap.kmalloc ⟨[⟨base, 32, false⟩, ⟨base + 64, 8096, true⟩], true⟩ 800 (page 1) =
      .ok (base + 96, ⟨[⟨base, 32, false⟩, ⟨base + 64, 800, false⟩, ⟨base + 896, 7264, true⟩], true⟩) ∧
    Heap.kmalloc ⟨[⟨base, 32, false⟩, ⟨base + 64, 800, false⟩, ⟨base + 896, 7264, true⟩], true⟩ 64 (page 2) =
      .ok (base + 928, ⟨[⟨base, 32, false⟩, ⟨base + 64, 800, false⟩, ⟨base + 896, 64, false⟩,
        ⟨base + 992, 7168, true⟩], true⟩) ∧
    Heap.kfree ⟨[⟨base, 32, false⟩, ⟨base + 64, 800, false⟩, ⟨base + 896, 64, false⟩, ⟨base + 992, 7168, true⟩], true⟩
      (base + 32) =
      ⟨[⟨base, 32, true⟩, ⟨base + 64, 800, false⟩, ⟨base + 896, 64, false⟩, ⟨base + 992, 7168, true⟩], true⟩ ∧
    Heap.kfree ⟨[⟨base, 32, true⟩, ⟨base + 64, 800, false⟩, ⟨base + 896, 64, false⟩, ⟨base + 992, 7168, true⟩], true⟩
      (base + 96) =
      ⟨[⟨base, 864, true⟩, ⟨base + 896, 64, false⟩, ⟨base + 992, 7168, true⟩], true⟩ ∧
    Heap.kfree ⟨[⟨base, 864, true⟩, ⟨base + 896, 64, false⟩, ⟨base + 992, 7168, true⟩], true⟩ (base + 928) =
      ⟨[⟨base, 960, true⟩, ⟨base + 992, 7168, true⟩], true⟩ := by
  refine ⟨kmalloc_last [] (by simp) _ (by decide) (by decide) (by decide) (by omega),
    kmalloc_last [⟨base, 32, false⟩] (by simp) _ (by decide) (by decide) (by decide) (by omega),
    kmalloc_last [⟨base, 32, false⟩, ⟨base + 64, 800, false⟩] (by simp) _ (by decide) (by decide) (by decide)
      (by omega), ?_, ?_, ?_⟩ <;>
    simp [Heap.kfree, markFree, coalesce]

theorem HeapRun.Inv.smokeTests {page : Nat} (hr : RunsOk [expandRun 4096 page]) :
    HeapRun.Inv ⟨⟨[⟨page * 4096, 960, true⟩, ⟨page * 4096 + 992, 7168, true⟩], true⟩, [expandRun 4096 page], []⟩ := by
  have hstop : (expandRun 4096 page).stop = page * 4096 + 8192 := rfl
  refine ⟨rfl, hr, ⟨fun b hb => ⟨_, List.mem_singleton_self _, ?_⟩, fun b hb => ?_, ?_, ?_⟩, by simp, by simp⟩
  · rw [hstop]
    simp only [List.mem_cons, List.not_mem_nil, or_false] at hb
    rcases hb with rfl | rfl <;> simp only [expandRun, KBlock.stop] <;> omega
  · simp only [List.mem_cons, List.not_mem_nil, or_false] at hb
    rcases hb with rfl | rfl <;> dsimp only <;> omega
  · simp [Apart, KBlock.stop]
  · simp [KBlock.stop]

theorem runHeapSmokeTests_eq {σ : Type} {kmalloc kzalloc : Nat → Nat → σ → Except String (Nat × σ)}
    {kfree : Nat → σ → Except String σ} {page : Nat → Nat} {s s₁ s₂ s₃ s₄ s₅ s₆ : σ} {base : Nat}
    (haligned : base % 16 = 0) (h₁ : kmalloc 24 (page 0) s = .ok (base + 32, s₁))
    (h₂ : kmalloc 800 (page 1) s₁ = .ok (base + 96, s₂)) (h₃ : kzalloc 64 (page 2) s₂ = .ok (base + 928, s₃))
    (h₄ : kfree (base + 32) s₃ = .ok s₄) (h₅ : kfree (base + 96) s₄ = .ok s₅) (h₆ : kfree (base + 928) s₅ = .ok s₆) :
    runHeapSmokeTests kmalloc kzalloc kfree page s = .ok s₆ := by
  have hsmall : (base + 32) % 16 = 0 := by omega
  have hmedium : (base + 96) % 16 = 0 := by omega
  unfold runHeapSmokeTests
  simp [h₁, h₂, h₃, h₄, h₅, h₆, hsmall, hmedium, bind, Except.bind]

theorem runHeapSmokeTests_keeps {σ : Type} {kmalloc kzalloc : Nat → Nat → σ → Except String (Nat × σ)}
    {kfree : Nat → σ → Except String σ} {page : Nat → Nat} {s s' : σ} {P : σ → Prop}
    (hm : ∀ {size page s ptr s'}, P s → kmalloc size page s = .ok (ptr, s') → P s')
    (hz : ∀ {size page s ptr s'}, P s → kzalloc size page s = .ok (ptr, s') → P s')
    (hf : ∀ {ptr s s'}, P s → kfree ptr s = .ok s' → P s') (hs : P s)
    (h : runHeapSmokeTests kmalloc kzalloc kfree page s = .ok s') :
    P s' := by
  unfold runHeapSmokeTests at h
  obtain ⟨⟨small, s₁⟩, h₁, h⟩ := Result.of_bind_eq_ok h
  obtain ⟨⟨medium, s₂⟩, h₂, h⟩ := Result.of_bind_eq_ok h
  obtain ⟨⟨zeroed, s₃⟩, h₃, h⟩ := Result.of_bind_eq_ok h
  dsimp only at h
  iterate 5
    split at h
    · cases h
  obtain ⟨s₄, h₄, h⟩ := Result.of_bind_eq_ok h
  obtain ⟨s₅, h₅, h⟩ := Result.of_bind_eq_ok h
  exact hf (hf (hf (hz (hm (hm hs h₁) h₂) h₃) h₄) h₅) h

end SamOS.Heap
