import SamOS.Heap
import SamOS.Lib.Lts
import Mathlib.Data.List.Chain

/-! Heap allocations are disjoint as long as no block is merged with a block of another page run. The blocks of one
    run tile it in list order, so a merge inside a run joins two neighbours in memory; `coalesce` only looks at list
    neighbours, and a merge across two runs makes a block that spans memory the heap does not own. -/

namespace SamOS

/-- The address after the payload. -/
def KBlock.stop (b : KBlock) : Nat := b.addr + 32 + b.size

namespace Heap

/-! ### Blocks and page runs -/

/-- A run of pages that `pmm_alloc_pages` handed to `expand_heap`. -/
structure PageRun where
  base : Nat
  bytes : Nat
  deriving DecidableEq, Repr

def PageRun.stop (r : PageRun) : Nat := r.base + r.bytes

/-- Two blocks, headers included, have no byte in common. -/
def Apart (b c : KBlock) : Prop := b.stop ≤ c.addr ∨ c.stop ≤ b.addr

instance : Std.Symm Apart := ⟨fun _ _ h => Or.symm h⟩

/-- Two runs have no byte in common. -/
def PageRun.Apart (r r' : PageRun) : Prop := r.stop ≤ r'.base ∨ r'.stop ≤ r.base

instance : Std.Symm PageRun.Apart := ⟨fun _ _ h => Or.symm h⟩

/-- What the heap may rely on of the page runs it obtained. -/
structure RunsOk (runs : List PageRun) : Prop where
  apart : runs.Pairwise PageRun.Apart
  aligned : ∀ r ∈ runs, r.base % 4096 = 0 ∧ r.bytes % 4096 = 0
  fits : ∀ r ∈ runs, 0 < r.base ∧ r.stop ≤ 2 ^ 64

instance (r r' : PageRun) : Decidable (r.Apart r') := inferInstanceAs (Decidable (_ ∨ _))

instance (runs : List PageRun) : Decidable (RunsOk runs) :=
  decidable_of_iff (runs.Pairwise PageRun.Apart ∧ (∀ r ∈ runs, r.base % 4096 = 0 ∧ r.bytes % 4096 = 0) ∧
      ∀ r ∈ runs, 0 < r.base ∧ r.stop ≤ 2 ^ 64)
    ⟨fun ⟨h₁, h₂, h₃⟩ => ⟨h₁, h₂, h₃⟩, fun h => ⟨h.apart, h.aligned, h.fits⟩⟩

/-- Some run contains both addresses. -/
def SameRun (runs : List PageRun) (a a' : Nat) : Prop :=
  ∃ r ∈ runs, (r.base ≤ a ∧ a < r.stop) ∧ (r.base ≤ a' ∧ a' < r.stop)

/-- The blocks are apart, each inside one run, and list neighbours in one run are neighbours in memory. -/
structure WellLaid (runs : List PageRun) (blocks : List KBlock) : Prop where
  inRun : ∀ b ∈ blocks, ∃ r ∈ runs, r.base ≤ b.addr ∧ b.stop ≤ r.stop
  aligned : ∀ b ∈ blocks, b.addr % 16 = 0 ∧ b.size % 16 = 0
  apart : blocks.Pairwise Apart
  adjacent : blocks.IsChain fun b c => SameRun runs b.addr c.addr → c.addr = b.stop

/-- `blocks'` divides the memory of `blocks` anew: it starts at the same place and reaches nothing else. -/
structure Within (blocks blocks' : List KBlock) : Prop where
  head : blocks'.head?.map KBlock.addr = blocks.head?.map KBlock.addr
  apart : ∀ x : KBlock, (∀ b ∈ blocks, Apart x b) → ∀ b ∈ blocks', Apart x b

section Layout
variable {runs : List PageRun} {b c : KBlock} {blocks blocks' : List KBlock}

theorem RunsOk.eq_of_mem (h : RunsOk runs) {r r' : PageRun} (hr : r ∈ runs) (hr' : r' ∈ runs) {a : Nat}
    (ha : r.base ≤ a ∧ a < r.stop) (ha' : r'.base ≤ a ∧ a < r'.stop) : r = r' := by
  by_contra hne
  rcases h.apart.forall hr hr' hne with hap | hap <;> omega

theorem SameRun.trans (h : RunsOk runs) {a a' a'' : Nat} (h1 : SameRun runs a a') (h2 : SameRun runs a a'') :
    SameRun runs a' a'' := by
  obtain ⟨r, hr, ha, ha'⟩ := h1
  obtain ⟨r', hr', hb, hb''⟩ := h2
  have := h.eq_of_mem hr hr' ha hb
  subst this
  exact ⟨r, hr, ha', hb''⟩

theorem WellLaid.tail (h : WellLaid runs (b :: blocks)) : WellLaid runs blocks where
  inRun c hc := h.inRun c (List.mem_cons_of_mem _ hc)
  aligned c hc := h.aligned c (List.mem_cons_of_mem _ hc)
  apart := (List.pairwise_cons.mp h.apart).2
  adjacent := (List.isChain_cons.mp h.adjacent).2

theorem WellLaid.cons_within (h : WellLaid runs (b :: blocks)) (h' : WellLaid runs blocks')
    (hw : Within blocks blocks') : WellLaid runs (b :: blocks') where
  inRun c hc := by
    rcases List.mem_cons.mp hc with rfl | hc
    · exact h.inRun c List.mem_cons_self
    · exact h'.inRun c hc
  aligned c hc := by
    rcases List.mem_cons.mp hc with rfl | hc
    · exact h.aligned c List.mem_cons_self
    · exact h'.aligned c hc
  apart := List.pairwise_cons.mpr ⟨hw.apart b (List.pairwise_cons.mp h.apart).1, h'.apart⟩
  adjacent := by
    refine List.isChain_cons.mpr ⟨fun c hc => ?_, h'.adjacent⟩
    have hhead := hw.head
    rw [Option.mem_def.mp hc] at hhead
    cases hb : blocks.head? with
    | none => simp [hb] at hhead
    | some d =>
      have hd := (List.isChain_cons.mp h.adjacent).1 d hb
      simp only [hb, Option.map_some, Option.some.injEq] at hhead
      rw [hhead]
      exact hd

theorem Within.cons (hw : Within blocks blocks') : Within (b :: blocks) (b :: blocks') where
  head := rfl
  apart x hx c hc := by
    rcases List.mem_cons.mp hc with rfl | hc
    · exact hx c List.mem_cons_self
    · exact hw.apart x (fun d hd => hx d (List.mem_cons_of_mem _ hd)) c hc

theorem Within.refl (blocks : List KBlock) : Within blocks blocks := ⟨rfl, fun _ hx => hx⟩

theorem WellLaid.eq_of_addr (h : WellLaid runs blocks) (hb : b ∈ blocks) (hc : c ∈ blocks) (ha : b.addr = c.addr) :
    b = c := by
  by_contra hne
  rcases h.apart.forall hb hc hne with hap | hap <;> simp only [KBlock.stop] at hap <;> omega

end Layout

/-! ### Splitting -/

variable {size : Nat} {runs : List PageRun} {blocks : List KBlock}

theorem alignUp_sixteen (h : size < 2 ^ 32) :
    size ≤ alignUp size 16 ∧ alignUp size 16 < size + 16 ∧ alignUp size 16 % 16 = 0 := by
  unfold alignUp
  omega

/-- What `kmalloc` leaves of a fitting block: the block itself, or a first part and a free remainder. -/
theorem claim_splitBlock_cases {b : KBlock} (hfit : size ≤ b.size) (hstop : b.stop ≤ 2 ^ 64) :
    claim (splitBlock b size) = [{ b with free := false }] ∨
    (size + 48 < b.size ∧ claim (splitBlock b size) = [{ b with size := size, free := false },
      { addr := b.addr + 32 + size, size := b.size - size - 32, free := true }]) := by
  simp only [KBlock.stop] at hstop
  have hrem : (b.size + 2 ^ 64 - size) % 2 ^ 64 = b.size - size := by
    rw [Nat.add_comm, Nat.add_sub_assoc hfit, Nat.add_mod_left, Nat.mod_eq_of_lt (by omega)]
  simp only [splitBlock, hrem]
  by_cases h : b.size - size ≤ 32 + 16
  · exact Or.inl (by rw [if_pos h]; rfl)
  · have haddr : (b.addr + 32 + size) % 2 ^ 64 = b.addr + 32 + size := Nat.mod_eq_of_lt (by omega)
    exact Or.inr ⟨by omega, by rw [if_neg h, haddr]; rfl⟩

section Split
variable {runs : List PageRun} {b : KBlock} {rest : List KBlock} {size : Nat}

theorem within_of_head {b' : KBlock} (ha : b'.addr = b.addr) (hs : b'.size = b.size) :
    Within (b :: rest) (b' :: rest) where
  head := by simp [ha]
  apart x hx c hc := by
    rcases List.mem_cons.mp hc with rfl | hc
    · have := hx b List.mem_cons_self
      simp only [Apart, KBlock.stop, ha, hs] at this ⊢
      exact this
    · exact hx c (List.mem_cons_of_mem _ hc)

theorem WellLaid.setFree (h : WellLaid runs (b :: rest)) (f : Bool) : WellLaid runs ({ b with free := f } :: rest) where
  inRun c hc := by
    rcases List.mem_cons.mp hc with rfl | hc
    · exact h.inRun b List.mem_cons_self
    · exact h.inRun c (List.mem_cons_of_mem _ hc)
  aligned c hc := by
    rcases List.mem_cons.mp hc with rfl | hc
    · exact h.aligned b List.mem_cons_self
    · exact h.aligned c (List.mem_cons_of_mem _ hc)
  apart := List.pairwise_cons.mpr ⟨fun c hc => (List.pairwise_cons.mp h.apart).1 c hc, h.tail.apart⟩
  adjacent := List.isChain_cons.mpr ⟨fun c hc => (List.isChain_cons.mp h.adjacent).1 c hc, h.tail.adjacent⟩

theorem within_split (hfit : size + 48 < b.size) (f : Bool) :
    Within (b :: rest) ({ b with size := size, free := f } ::
      { addr := b.addr + 32 + size, size := b.size - size - 32, free := true } :: rest) where
  head := rfl
  apart x hx c hc := by
    have hb := hx b List.mem_cons_self
    simp only [Apart, KBlock.stop] at hb ⊢
    rcases List.mem_cons.mp hc with rfl | hc
    · simp only
      omega
    · rcases List.mem_cons.mp hc with rfl | hc
      · simp only
        omega
      · exact hx c (List.mem_cons_of_mem _ hc)

theorem WellLaid.split (hr : RunsOk runs) (h : WellLaid runs (b :: rest)) (hfit : size + 48 < b.size)
    (hs : size % 16 = 0) (f : Bool) :
    WellLaid runs ({ b with size := size, free := f } ::
      { addr := b.addr + 32 + size, size := b.size - size - 32, free := true } :: rest) := by
  obtain ⟨r, hrm, hbase, hstop⟩ := h.inRun b List.mem_cons_self
  obtain ⟨ha, hsz⟩ := h.aligned b List.mem_cons_self
  obtain ⟨hap, hrest⟩ := List.pairwise_cons.mp h.apart
  obtain ⟨hadj, hchain⟩ := List.isChain_cons.mp h.adjacent
  simp only [KBlock.stop] at hstop
  -- Both parts are in the run of `b`, so what follows is a neighbour of the second part as it was of `b`.
  have same : SameRun runs b.addr (b.addr + 32 + size) := ⟨r, hrm, by omega, by omega⟩
  refine ⟨fun c hc => ?_, fun c hc => ?_, ?_, ?_⟩
  · rcases List.mem_cons.mp hc with rfl | hc
    · exact ⟨r, hrm, hbase, by simp only [KBlock.stop]; omega⟩
    · rcases List.mem_cons.mp hc with rfl | hc
      · exact ⟨r, hrm, by simp only; omega, by simp only [KBlock.stop]; omega⟩
      · exact h.inRun c (List.mem_cons_of_mem _ hc)
  · rcases List.mem_cons.mp hc with rfl | hc
    · exact ⟨ha, hs⟩
    · rcases List.mem_cons.mp hc with rfl | hc
      · simp only
        omega
      · exact h.aligned c (List.mem_cons_of_mem _ hc)
  · refine List.pairwise_cons.mpr ⟨fun c hc => ?_, List.pairwise_cons.mpr ⟨fun c hc => ?_, hrest⟩⟩
    · rcases List.mem_cons.mp hc with rfl | hc
      · exact Or.inl (Nat.le_refl _)
      · have := hap c hc
        simp only [Apart, KBlock.stop] at this ⊢
        omega
    · have := hap c hc
      simp only [Apart, KBlock.stop] at this ⊢
      omega
  · refine List.isChain_cons.mpr ⟨fun c hc _ => ?_, List.isChain_cons.mpr ⟨fun c hc hsame => ?_, hchain⟩⟩
    · simp only [List.head?_cons, Option.mem_def, Option.some.injEq] at hc
      rw [← hc]
      rfl
    · obtain ⟨r', hr', h1, h2⟩ := hsame
      have hrr := hr.eq_of_mem hrm hr' (a := b.addr + 32 + size) (by omega) h1
      subst hrr
      rw [hadj c hc ⟨r, hrm, by omega, h2⟩]
      simp only [KBlock.stop]
      omega

/-- `blocks'` is `blocks` with the free block at `addr` claimed for `size` bytes: the layout stays sound and every
    block in use stays as it is. -/
structure Claims (runs : List PageRun) (blocks blocks' : List KBlock) (size addr : Nat) : Prop where
  laid : WellLaid runs blocks'
  within : Within blocks blocks'
  kept : ∀ c ∈ blocks, c.free = false → c ∈ blocks'
  source : ∃ b ∈ blocks, b.free = true ∧ b.addr = addr
  target : ∃ p ∈ blocks', p.free = false ∧ p.addr = addr ∧ size ≤ p.size

theorem claims_head (hr : RunsOk runs) (h : WellLaid runs (b :: rest)) (hfree : b.free = true) (hfit : size ≤ b.size)
    (hs : size % 16 = 0) : Claims runs (b :: rest) (claim (splitBlock b size) ++ rest) size b.addr := by
  have hstop : b.stop ≤ 2 ^ 64 := by
    obtain ⟨r, hrm, -, hle⟩ := h.inRun b List.mem_cons_self
    exact Nat.le_trans hle (hr.fits r hrm).2
  have kept : ∀ l : List KBlock, (∀ c ∈ rest, c ∈ l) → ∀ c ∈ b :: rest, c.free = false → c ∈ l := by
    intro l hl c hc hcf
    rcases List.mem_cons.mp hc with rfl | hc
    · rw [hfree] at hcf
      cases hcf
    · exact hl c hc
  rcases claim_splitBlock_cases hfit hstop with he | ⟨hlt, he⟩ <;>
    simp only [he, List.cons_append, List.nil_append]
  · exact ⟨h.setFree false, within_of_head rfl rfl, kept _ fun c hc => List.mem_cons_of_mem _ hc,
      ⟨b, List.mem_cons_self, hfree, rfl⟩, ⟨_, List.mem_cons_self, rfl, rfl, hfit⟩⟩
  · exact ⟨h.split hr hlt hs false, within_split hlt false,
      kept _ fun c hc => List.mem_cons_of_mem _ (List.mem_cons_of_mem _ hc),
      ⟨b, List.mem_cons_self, hfree, rfl⟩, ⟨_, List.mem_cons_self, rfl, rfl, Nat.le_refl _⟩⟩

theorem Claims.cons {blocks' : List KBlock} {addr : Nat} (h : WellLaid runs (b :: rest))
    (hc : Claims runs rest blocks' size addr) : Claims runs (b :: rest) (b :: blocks') size addr where
  laid := h.cons_within hc.laid hc.within
  within := hc.within.cons
  kept c hmem hcf := by
    rcases List.mem_cons.mp hmem with rfl | hmem
    · exact List.mem_cons_self
    · exact List.mem_cons_of_mem _ (hc.kept c hmem hcf)
  source := by
    obtain ⟨d, hd, hd'⟩ := hc.source
    exact ⟨d, List.mem_cons_of_mem _ hd, hd'⟩
  target := by
    obtain ⟨d, hd, hd'⟩ := hc.target
    exact ⟨d, List.mem_cons_of_mem _ hd, hd'⟩

theorem Claims.append {blocks rest' : List KBlock} {addr : Nat} (h : WellLaid runs (blocks ++ rest))
    (hc : Claims runs rest rest' size addr) : Claims runs (blocks ++ rest) (blocks ++ rest') size addr := by
  induction blocks with
  | nil => exact hc
  | cons b l ih => exact Claims.cons h (ih h.tail)

theorem WellLaid.of_append {blocks : List KBlock} (h : WellLaid runs (blocks ++ rest)) : WellLaid runs rest := by
  induction blocks with
  | nil => exact h
  | cons b l ih => exact ih h.tail

end Split

theorem takeFit_spec {blocks' : List KBlock} {ptr : Nat} (hr : RunsOk runs)
    (h : WellLaid runs blocks) (hs : size % 16 = 0) (ht : takeFit size blocks = some (ptr, blocks')) :
    ∃ addr, ptr = (addr + 32) % 2 ^ 64 ∧ Claims runs blocks blocks' size addr := by
  induction blocks generalizing ptr blocks' with
  | nil => cases ht
  | cons b rest ih =>
    unfold takeFit at ht
    split at ht
    · rename_i hb
      simp only [Option.some.injEq, Prod.mk.injEq] at ht
      obtain ⟨rfl, rfl⟩ := ht
      exact ⟨b.addr, rfl, claims_head hr h hb.1 hb.2 hs⟩
    · cases hrest : takeFit size rest with
      | none => simp [hrest] at ht
      | some found =>
        simp only [hrest, Option.map_some, Option.some.injEq, Prod.mk.injEq] at ht
        obtain ⟨rfl, rfl⟩ := ht
        obtain ⟨addr, hptr, hc⟩ := ih h.tail hrest
        exact ⟨addr, hptr, Claims.cons h hc⟩

/-! ### Growing -/

theorem expandBytes_spec (h : size < 2 ^ 33) :
    size + 32 ≤ expandBytes size ∧ expandBytes size < size + 4128 ∧ expandBytes size % 4096 = 0 ∧
    expandPages size * 4096 = expandBytes size := by
  unfold expandPages expandBytes alignUp
  omega

/-- The page run of an `expand_heap(size)` that got page `page`. -/
def expandRun (size page : Nat) : PageRun := { base := page * 4096, bytes := expandPages size * 4096 }

theorem WellLaid.mono {r : PageRun} (hr : RunsOk (runs ++ [r]))
    (h : WellLaid runs blocks) : WellLaid (runs ++ [r]) blocks where
  inRun b hb := by
    obtain ⟨r', hr', h'⟩ := h.inRun b hb
    exact ⟨r', List.mem_append_left _ hr', h'⟩
  aligned := h.aligned
  apart := h.apart
  adjacent := by
    refine h.adjacent.imp_of_mem_imp fun b c hb _ hadj hsame => hadj ?_
    obtain ⟨r₁, hr₁, h1, h2⟩ := h.inRun b hb
    obtain ⟨r₂, hr₂, hb2, hc2⟩ := hsame
    simp only [KBlock.stop] at h2
    have := hr.eq_of_mem hr₂ (List.mem_append_left _ hr₁) hb2 ⟨h1, by omega⟩
    subst this
    exact ⟨r₂, hr₁, hb2, hc2⟩

theorem WellLaid.expand {page : Nat} (hsize : size < 2 ^ 33)
    (hr : RunsOk (runs ++ [expandRun size page])) (h : WellLaid runs blocks) :
    WellLaid (runs ++ [expandRun size page]) (blocks ++ [expandBlock size page]) := by
  obtain ⟨h1, h2, h3, h4⟩ := expandBytes_spec hsize
  have hmem : expandRun size page ∈ runs ++ [expandRun size page] := by simp
  have hfit := (hr.fits _ hmem).2
  have hblock : (expandBlock size page).size = expandBytes size - 32 := by
    simp only [expandBlock]
    rw [Nat.add_comm, Nat.add_sub_assoc (by omega), Nat.add_mod_left, Nat.mod_eq_of_lt (by omega)]
  have hstop : (expandBlock size page).stop = (expandRun size page).stop := by
    have hle : 32 ≤ expandBytes size := by omega
    show page * 4096 + 32 + (expandBlock size page).size = page * 4096 + expandPages size * 4096
    rw [hblock, h4, Nat.add_assoc, Nat.add_sub_of_le hle]
  -- The fresh run is apart from the run of every block there is.
  have fresh : ∀ b ∈ blocks, ∀ r' ∈ runs ++ [expandRun size page], r'.base ≤ b.addr → b.addr < r'.stop → r' ∈ runs := by
    intro b hb r' hr' hle hlt
    obtain ⟨r, hrm, hbase, hst⟩ := h.inRun b hb
    simp only [KBlock.stop] at hst
    rw [hr.eq_of_mem hr' (List.mem_append_left _ hrm) ⟨hle, hlt⟩ ⟨hbase, by omega⟩]
    exact hrm
  have hm := h.mono hr
  refine ⟨fun b hb => ?_, fun b hb => ?_, ?_, ?_⟩
  · rcases List.mem_append.mp hb with hb | hb
    · exact hm.inRun b hb
    · rw [List.mem_singleton.mp hb]
      exact ⟨_, hmem, Nat.le_refl _, Nat.le_of_eq hstop⟩
  · rcases List.mem_append.mp hb with hb | hb
    · exact h.aligned b hb
    · rw [List.mem_singleton.mp hb, hblock]
      simp only [expandBlock]
      omega
  · refine List.pairwise_append.mpr ⟨h.apart, List.pairwise_singleton _ _, fun b hb c hc => ?_⟩
    rw [List.mem_singleton.mp hc]
    obtain ⟨r, hrm, hbase, hst⟩ := h.inRun b hb
    have hap := (List.pairwise_append.mp hr.apart).2.2 r hrm (expandRun size page) (by simp)
    rcases hap with hap | hap
    · exact Or.inl (Nat.le_trans hst hap)
    · exact Or.inr (by rw [hstop]; omega)
  · refine List.isChain_append.mpr ⟨hm.adjacent, List.isChain_singleton _, fun b hb c hc hsame => ?_⟩
    exfalso
    simp only [List.head?_cons, Option.mem_def, Option.some.injEq] at hc
    obtain ⟨r', hr', hbr, hcr⟩ := hsame
    have hrm := fresh b (List.mem_of_getLast? hb) r' hr' hbr.1 hbr.2
    have hap := (List.pairwise_append.mp hr.apart).2.2 r' hrm (expandRun size page) (by simp)
    rw [← hc] at hcr
    have hpos : 0 < (expandRun size page).bytes := by
      simp only [expandRun, h4]
      omega
    simp only [PageRun.Apart, PageRun.stop, expandRun, expandBlock] at hap hcr hpos
    omega

/-! ### Merging -/

/-- The merges that `coalesce` makes all stay inside one page run. -/
def MergesWithin (runs : List PageRun) : List KBlock → Prop
  | b :: c :: rest =>
    if b.free ∧ c.free then SameRun runs b.addr c.addr ∧ MergesWithin runs rest else MergesWithin runs (c :: rest)
  | _ => True

instance (runs : List PageRun) (a a' : Nat) : Decidable (SameRun runs a a') :=
  inferInstanceAs (Decidable (∃ r ∈ runs, _))

instance decidableMergesWithin (runs : List PageRun) : (blocks : List KBlock) → Decidable (MergesWithin runs blocks)
  | [] => isTrue trivial
  | [_] => isTrue trivial
  | b :: c :: rest =>
    have := decidableMergesWithin runs rest
    have := decidableMergesWithin runs (c :: rest)
    inferInstanceAs (Decidable (if b.free ∧ c.free then SameRun runs b.addr c.addr ∧ MergesWithin runs rest
      else MergesWithin runs (c :: rest)))

section Merge
variable {runs : List PageRun} {b c : KBlock} {rest : List KBlock}

theorem Within.trans {l₁ l₂ l₃ : List KBlock} (h₁ : Within l₁ l₂) (h₂ : Within l₂ l₃) : Within l₁ l₃ :=
  ⟨h₂.head.trans h₁.head, fun x hx => h₂.apart x (h₁.apart x hx)⟩

theorem within_merge (hadj : c.addr = b.stop) :
    Within (b :: c :: rest) ({ b with size := b.size + 32 + c.size } :: rest) where
  head := rfl
  apart x hx d hd := by
    have hb := hx b (by simp)
    have hc := hx c (by simp)
    rcases List.mem_cons.mp hd with rfl | hd
    · simp only [Apart, KBlock.stop] at hb hc hadj ⊢
      omega
    · exact hx d (by simp [hd])

theorem WellLaid.merge (hr : RunsOk runs) (h : WellLaid runs (b :: c :: rest)) (hsame : SameRun runs b.addr c.addr) :
    c.addr = b.stop ∧ c.stop ≤ 2 ^ 64 ∧ WellLaid runs ({ b with size := b.size + 32 + c.size } :: rest) := by
  have hadj := (List.isChain_cons.mp h.adjacent).1 c rfl hsame
  obtain ⟨r, hrm, hbase, -⟩ := h.inRun b List.mem_cons_self
  obtain ⟨r', hr', hbase', hstop'⟩ := h.inRun c (by simp)
  obtain ⟨hap, hrest⟩ := List.pairwise_cons.mp h.apart
  obtain ⟨hapc, hrest'⟩ := List.pairwise_cons.mp hrest
  have hab := h.aligned b List.mem_cons_self
  have hac := h.aligned c (by simp)
  -- The run of `c` is the run that holds both.
  obtain ⟨r₀, hr₀, hb₀, hc₀⟩ := hsame
  have hrr : r₀ = r' := hr.eq_of_mem hr₀ hr' hc₀ ⟨hbase', by simp only [KBlock.stop] at hstop'; omega⟩
  subst hrr
  refine ⟨hadj, Nat.le_trans hstop' (hr.fits r₀ hr₀).2, ⟨fun d hd => ?_, fun d hd => ?_, ?_, ?_⟩⟩
  · rcases List.mem_cons.mp hd with rfl | hd
    · refine ⟨r₀, hr₀, hb₀.1, ?_⟩
      simp only [KBlock.stop] at hadj hstop' ⊢
      omega
    · exact h.inRun d (by simp [hd])
  · rcases List.mem_cons.mp hd with rfl | hd
    · simp only
      omega
    · exact h.aligned d (by simp [hd])
  · refine List.pairwise_cons.mpr ⟨fun d hd => ?_, hrest'⟩
    have h1 := hap d (by simp [hd])
    have h2 := hapc d hd
    simp only [Apart, KBlock.stop] at h1 h2 hadj ⊢
    omega
  · obtain ⟨-, hchain⟩ := List.isChain_cons.mp h.adjacent
    obtain ⟨hnext, hchain⟩ := List.isChain_cons.mp hchain
    refine List.isChain_cons.mpr ⟨fun d hd hsame' => ?_, hchain⟩
    rw [hnext d hd (SameRun.trans hr ⟨r₀, hr₀, hb₀, hc₀⟩ hsame')]
    simp only [KBlock.stop] at hadj ⊢
    omega

/-- A pass of `coalesce` whose merges stay inside one run keeps the layout and every block in use. -/
theorem coalesce_spec {blocks : List KBlock} (hr : RunsOk runs) (h : WellLaid runs blocks)
    (hm : MergesWithin runs blocks) :
    WellLaid runs (coalesce blocks) ∧ Within blocks (coalesce blocks) ∧
    ∀ d ∈ blocks, d.free = false → d ∈ coalesce blocks := by
  induction blocks using coalesce.induct with
  | case1 b c rest hfree ih =>
    unfold MergesWithin at hm
    unfold coalesce
    rw [if_pos hfree] at hm ⊢
    obtain ⟨hadj, hfit, hl⟩ := h.merge hr hm.1
    have hmod : (b.size + 32 + c.size) % 2 ^ 64 = b.size + 32 + c.size := by
      apply Nat.mod_eq_of_lt
      simp only [KBlock.stop] at hadj hfit
      omega
    obtain ⟨h1, h2, h3⟩ := ih hl.tail hm.2
    rw [hmod]
    refine ⟨hl.cons_within h1 h2, (within_merge hadj).trans h2.cons, fun d hd hdf => ?_⟩
    rcases List.mem_cons.mp hd with rfl | hd
    · rw [hfree.1] at hdf
      cases hdf
    · rcases List.mem_cons.mp hd with rfl | hd
      · rw [hfree.2] at hdf
        cases hdf
      · exact List.mem_cons_of_mem _ (h3 d hd hdf)
  | case2 b c rest hfree ih =>
    unfold MergesWithin at hm
    unfold coalesce
    rw [if_neg hfree] at hm ⊢
    obtain ⟨h1, h2, h3⟩ := ih h.tail hm
    refine ⟨h.cons_within h1 h2, h2.cons, fun d hd hdf => ?_⟩
    rcases List.mem_cons.mp hd with rfl | hd
    · exact List.mem_cons_self
    · exact List.mem_cons_of_mem _ (h3 d hd hdf)
  | case3 blocks hshape =>
    have : coalesce blocks = blocks := by
      unfold coalesce
      split
      · exact absurd rfl (hshape _ _ _)
      · rfl
    rw [this]
    exact ⟨h, Within.refl _, fun _ hd _ => hd⟩

theorem markFree_cons (addr : Nat) (b : KBlock) (l : List KBlock) :
    markFree addr (b :: l) = (if b.addr = addr then { b with free := true } else b) :: markFree addr l := rfl

theorem WellLaid.markFree {blocks : List KBlock} (h : WellLaid runs blocks) (addr : Nat) :
    WellLaid runs (markFree addr blocks) ∧ Within blocks (Heap.markFree addr blocks) := by
  induction blocks with
  | nil => exact ⟨h, Within.refl _⟩
  | cons b l ih =>
    obtain ⟨h1, h2⟩ := ih h.tail
    rw [markFree_cons]
    have hl := h.cons_within h1 h2
    split
    · exact ⟨hl.setFree true, h2.cons.trans (within_of_head rfl rfl)⟩
    · exact ⟨hl, h2.cons⟩

end Merge

end Heap
end SamOS
