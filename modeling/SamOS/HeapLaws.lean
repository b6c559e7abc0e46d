import SamOS.ProcessLaws

/-! What one call of `kfree` and one call of `kmalloc` promise. `coalesce` merges free list neighbours in pairs, so
    that the third of three free blocks stays apart. `kmalloc` rounds the size up before it looks at it, and the sums
    wrap just below `2 ^ 64`. -/

namespace SamOS
namespace Heap

/-! ### Merging -/

/-- The header of `c` is at the end of the payload of `b`. -/
def Touches (b c : KBlock) : Prop := c.addr = b.stop

/-- Free list neighbours do not touch, and a request that fits a stretch of free blocks that touch needs no pages. -/
structure FullyCoalesced (h : Heap) : Prop where
  merged : h.blocks.IsChain fun b c => Touches b c → ¬(b.free = true ∧ c.free = true)
  served : ∀ first rest size, (first :: rest) <:+: h.blocks → (first :: rest).IsChain Touches →
    (∀ b ∈ first :: rest, b.free = true) → alignUp size 16 ≤ (rest.getLastD first).stop - (first.addr + 32) →
      h.needsPages size = false

/-- The number of consecutive free blocks at the end of a list. -/
def freeTail (blocks : List KBlock) : Nat := blocks.foldl (fun n b => if b.free then n + 1 else 0) 0

/-- Where the pass of `coalesce` merges `b` with `c`, the block after them is not free or does not touch them. The
    pass comes to `b` if an even number of free blocks ends right before it. -/
def MergesAll (blocks : List KBlock) : Prop :=
  ∀ pre b c d post, blocks = pre ++ b :: c :: d :: post → freeTail pre % 2 = 0 → b.free = true → c.free = true →
    d.free = true →
    ¬Touches { b with size := (b.size + 32 + c.size) % 2 ^ 64 } d

section Merging
variable {h : Heap} {b c : KBlock} {rest : List KBlock}

theorem foldl_free_add_two (blocks : List KBlock) (n : Nat) :
    blocks.foldl (fun n b => if b.free then n + 1 else 0) (n + 2) % 2 = blocks.foldl (fun n b => if b.free then n + 1
      else 0) n % 2 := by
  induction blocks generalizing n with
  | nil => exact Nat.add_mod_right n 2
  | cons b rest ih =>
    rw [List.foldl_cons, List.foldl_cons]
    cases b.free with
    | true => exact ih (n + 1)
    | false => rfl

theorem freeTail_pair (hb : b.free = true) (hc : c.free = true) (pre : List KBlock) :
    freeTail (b :: c :: pre) % 2 = freeTail pre % 2 := by
  unfold freeTail
  rw [List.foldl_cons, List.foldl_cons, if_pos hb, if_pos hc]
  exact foldl_free_add_two pre 0

theorem freeTail_used (hb : b.free = false) (pre : List KBlock) : freeTail (b :: pre) = freeTail pre := by
  unfold freeTail
  rw [List.foldl_cons, hb]
  rfl

theorem mergesAll_of_short {blocks : List KBlock} (h : blocks.length ≤ 2) : MergesAll blocks := by
  intro pre b c d post he
  have hlen := congrArg List.length he
  simp only [List.length_append, List.length_cons] at hlen
  omega

theorem mergesAll_pair (hb : b.free = true) (hc : c.free = true) :
    MergesAll (b :: c :: rest) ↔
      (∀ d post, rest = d :: post → d.free = true → ¬Touches { b with size := (b.size + 32 + c.size) % 2 ^ 64 } d) ∧
        MergesAll rest := by
  constructor
  · intro h
    refine ⟨fun d post he hd => h [] b c d post (by rw [he]; rfl) rfl hb hc hd, ?_⟩
    intro pre b' c' d post he hpre
    exact h (b :: c :: pre) b' c' d post (by rw [he]; rfl) ((freeTail_pair hb hc pre).trans hpre)
  · rintro ⟨hhead, hrest⟩ pre b' c' d post he hpre hb' hc' hd
    match pre with
    | [] =>
      injection he with he₁ he
      injection he with he₂ he
      subst he₁ he₂
      exact hhead d post he hd
    | [x] =>
      injection he with he₁ he
      subst he₁
      unfold freeTail at hpre
      rw [List.foldl_cons, if_pos hb] at hpre
      cases hpre
    | x :: y :: pre =>
      injection he with he₁ he
      injection he with he₂ he
      subst he₁ he₂
      exact hrest pre b' c' d post he ((freeTail_pair hb hc pre).symm.trans hpre) hb' hc' hd

theorem mergesAll_cons (hbc : ¬(b.free = true ∧ c.free = true)) :
    MergesAll (b :: c :: rest) ↔ MergesAll (c :: rest) := by
  -- the stretch before a later block is as long as without `b`
  have htail (pre : List KBlock) (x : KBlock) (post : List KBlock) (he : c :: rest = pre ++ x :: post)
    (hx : x.free = true) :
      freeTail (b :: pre) = freeTail pre := by
    cases hb : b.free with
    | false => exact freeTail_used hb pre
    | true =>
      have hc : c.free = false := by
        rw [Bool.eq_false_iff]
        exact fun hc => hbc ⟨hb, hc⟩
      cases pre with
      | nil =>
        injection he with he
        rw [← he, hc] at hx
        cases hx
      | cons y pre =>
        injection he with he
        subst he
        unfold freeTail
        rw [List.foldl_cons, List.foldl_cons, List.foldl_cons, hc]
        rfl
  constructor
  · intro h pre b' c' d post he hpre hb'
    exact h (b :: pre) b' c' d post (by rw [he]; rfl) ((congrArg (· % 2) (htail pre b' _ he hb')).trans hpre) hb'
  · intro h pre b' c' d post he hpre hb' hc' hd
    cases pre with
    | nil =>
      injection he with he₁ he
      injection he with he₂ he
      subst he₁ he₂
      exact absurd ⟨hb', hc'⟩ hbc
    | cons x pre =>
      injection he with he₁ he
      subst he₁
      exact h pre b' c' d post he ((congrArg (· % 2) (htail pre b' _ he hb')).symm.trans hpre) hb' hc' hd

theorem coalesce_head (d : KBlock) (rest : List KBlock) :
    ∃ d' rest', coalesce (d :: rest) = d' :: rest' ∧ d'.addr = d.addr ∧ d'.free = d.free := by
  cases rest with
  | nil => exact ⟨d, [], rfl, rfl, rfl⟩
  | cons c rest =>
    unfold coalesce
    split
    · exact ⟨_, _, rfl, rfl, rfl⟩
    · exact ⟨_, _, rfl, rfl, rfl⟩

theorem coalesce_merged_iff (blocks : List KBlock) :
    (coalesce blocks).IsChain (fun b c => Touches b c → ¬(b.free = true ∧ c.free = true)) ↔ MergesAll blocks := by
  induction blocks using coalesce.induct with
  | case1 b c rest hbc ih =>
    rw [coalesce, if_pos hbc, mergesAll_pair hbc.1 hbc.2, ← ih]
    cases rest with
    | nil => simp [coalesce]
    | cons d rest =>
      obtain ⟨d', rest', he, haddr, hfree⟩ := coalesce_head d rest
      rw [he, List.isChain_cons_cons]
      refine and_congr_left fun _ => ⟨?_, ?_⟩
      · rintro h d₀ post hd hfree₀ htouch
        injection hd with hd
        subst hd
        exact h (haddr.trans htouch) ⟨hbc.1, hfree.trans hfree₀⟩
      · intro h htouch hboth
        exact h d rest rfl (hfree.symm.trans hboth.2) (haddr.symm.trans htouch)
  | case2 b c rest hbc ih =>
    rw [coalesce, if_neg hbc, mergesAll_cons hbc, ← ih]
    obtain ⟨c', rest', he, -, hfree⟩ := coalesce_head c rest
    rw [he, List.isChain_cons_cons, hfree]
    exact and_iff_right fun _ => hbc
  | case3 blocks hshort =>
    rcases blocks with _ | ⟨x, _ | ⟨y, rest⟩⟩
    · exact iff_of_true List.isChain_nil (mergesAll_of_short (Nat.zero_le 2))
    · exact iff_of_true (List.isChain_singleton x) (mergesAll_of_short (Nat.le_succ 1))
    · exact (hshort x y rest rfl).elim

/-- Where no free list neighbours touch, every stretch of free blocks that touch is one block. -/
theorem FullyCoalesced.of_merged (hm : h.blocks.IsChain fun b c => Touches b c → ¬(b.free = true ∧ c.free = true)) :
    h.FullyCoalesced := by
  refine ⟨hm, fun first rest size hsub hchain hfree hsize => ?_⟩
  cases rest with
  | nil =>
    have hfit : alignUp size 16 ≤ first.size := by
      simp only [List.getLastD_nil, KBlock.stop] at hsize
      omega
    have hsome : (takeFit (alignUp size 16) h.blocks).isNone = false := by
      rw [Option.isNone_eq_false_iff, Option.isSome_iff_ne_none]
      intro hnone
      have := takeFit_eq_none hnone (hsub.mem List.mem_cons_self) (hfree first List.mem_cons_self)
      omega
    simp [needsPages, hsome]
  | cons c rest =>
    have htouch := (List.isChain_cons_cons.mp hchain).1
    have hchain := List.IsChain.infix hm hsub
    have hpair := (List.isChain_cons_cons.mp hchain).1 htouch
    exact absurd ⟨hfree first List.mem_cons_self, hfree c (List.mem_cons_of_mem _ List.mem_cons_self)⟩ hpair

/-- `kfree` of a block leaves the heap fully merged exactly if the pass leaves no free block that touches the pair
    before it; `kfree` of `NULL` leaves it as it is. -/
theorem kfree_coalesces_iff (h : Heap) (ptr : Nat) :
    (h.kfree ptr).FullyCoalesced ↔ (ptr = 0 → h.FullyCoalesced) ∧
      (ptr ≠ 0 → MergesAll (markFree (ptr - 32) h.blocks)) := by
  unfold kfree
  by_cases hptr : ptr = 0
  · rw [if_pos hptr]
    exact ⟨fun hf => ⟨fun _ => hf, fun hne => absurd hptr hne⟩, fun hf => hf.1 hptr⟩
  · rw [if_neg hptr, ← coalesce_merged_iff]
    exact ⟨fun hf => ⟨fun h0 => absurd h0 hptr, fun _ => hf.merged⟩, fun hf => .of_merged (hf.2 hptr)⟩

/-- Two blocks are freed in front of the free rest of the heap. They are merged, the rest stays apart, and a request
    for all of the memory goes to the PMM. -/
theorem kfree_leaves_free_neighbours :
    ∃ s, heapRuns.Run [.free 0x100000B0, .free 0x10000020, .malloc 100 0, .malloc 100 0] s ∧ s.live = [] ∧
      s.heap.blocks = [⟨0x10000000, 256, true⟩, ⟨0x10000120, 7872, true⟩] ∧ s.heap.needsPages 8160 = true ∧
        ¬s.heap.FullyCoalesced := by
  let run : PageRun := { base := 0x10000000, bytes := 8192 }
  let s₀ : HeapRun := ⟨⟨[⟨0x10000000, 8160, true⟩], true⟩, [run], []⟩
  let s₁ : HeapRun := ⟨⟨[⟨0x10000000, 112, false⟩, ⟨0x10000090, 8016, true⟩], true⟩, [run], [(0x10000020, 100)]⟩
  let s₂ : HeapRun := ⟨⟨[⟨0x10000000, 112, false⟩, ⟨0x10000090, 112, false⟩, ⟨0x10000120, 7872, true⟩], true⟩, [run],
    [(0x100000B0, 100), (0x10000020, 100)]⟩
  let s₃ : HeapRun := ⟨⟨[⟨0x10000000, 112, true⟩, ⟨0x10000090, 112, false⟩, ⟨0x10000120, 7872, true⟩], true⟩, [run],
    [(0x100000B0, 100)]⟩
  let s₄ : HeapRun := ⟨⟨[⟨0x10000000, 256, true⟩, ⟨0x10000120, 7872, true⟩], true⟩, [run], []⟩
  have h₀ : heapRuns.init s₀ := ⟨0x10000, rfl, rfl, by decide +kernel, rfl⟩
  have h₁ : heapRuns.step s₀ (.malloc 100 0) s₁ := ⟨by decide, rfl, by decide +kernel, 0x10000020, rfl, rfl⟩
  have h₂ : heapRuns.step s₁ (.malloc 100 0) s₂ := ⟨by decide, rfl, by decide +kernel, 0x100000B0, rfl, rfl⟩
  have h₃ : heapRuns.step s₂ (.free 0x10000020) s₃ := ⟨⟨100, by decide⟩, rfl, rfl, rfl⟩
  have h₄ : heapRuns.step s₃ (.free 0x100000B0) s₄ := ⟨⟨100, by decide⟩, rfl, rfl, rfl⟩
  refine ⟨s₄, ((((Lts.System.Run.init h₀).snoc h₁).snoc h₂).snoc h₃).snoc h₄, rfl, rfl, by decide +kernel, fun hf => ?_⟩
  exact (List.isChain_cons_cons.mp hf.merged).1 rfl ⟨rfl, rfl⟩

end Merging

/-! ### Sizes -/

/-- The size that `split_block` records: that of the block, or the size asked for. -/
def recorded (c : KBlock) (size : Nat) : Nat := if (c.size + 2 ^ 64 - size) % 2 ^ 64 ≤ 32 + 16 then c.size else size

theorem claim_splitBlock_eq (c : KBlock) (size : Nat) :
    ∃ rest, claim (splitBlock c size) = { c with size := recorded c size, free := false } :: rest ∧
      ∀ x ∈ rest, x.free = true := by
  unfold recorded splitBlock
  dsimp only
  split
  · exact ⟨[], rfl, by simp⟩
  · exact ⟨[_], rfl, by simp⟩

theorem recorded_of_fit {c : KBlock} {size : Nat} (hfit : size ≤ c.size) :
    size ≤ recorded c size ∧ recorded c size ≤ c.size := by
  unfold recorded
  split
  · exact ⟨hfit, Nat.le_refl _⟩
  · exact ⟨Nat.le_refl _, hfit⟩

theorem recorded_zero {c : KBlock} (hc : c.size < 2 ^ 64) : recorded c 0 ≤ 48 := by
  unfold recorded
  split <;> omega

/-- The free block `c` of the list was taken as `b`; what is left of its memory is free, and all other blocks stay. -/
def Takes (blocks blocks' : List KBlock) (c b : KBlock) : Prop :=
  ∃ pre rest post, blocks = pre ++ c :: post ∧ blocks' = pre ++ b :: (rest ++ post) ∧ c.free = true ∧ b.free = false ∧
    ∀ x ∈ rest, x.free = true

namespace Takes
variable {blocks blocks' : List KBlock} {c b c₀ b₀ : KBlock}

theorem exists_index (h : Takes blocks blocks' c b) :
    ∃ i : Nat, blocks[i]? = some c ∧ blocks'[i]? = some b ∧ ∀ j < i, blocks[j]? = blocks'[j]? := by
  obtain ⟨pre, rest, post, rfl, rfl, -⟩ := h
  refine ⟨pre.length, by simp, by simp, fun j hj => ?_⟩
  rw [List.getElem?_append_left hj, List.getElem?_append_left hj]

theorem ne (h : Takes blocks blocks' c b) : c ≠ b := by
  obtain ⟨_, _, _, -, -, hc, hb, -⟩ := h
  rintro rfl
  rw [hc] at hb
  cases hb

theorem unique (h : Takes blocks blocks' c b) (h₀ : Takes blocks blocks' c₀ b₀) : b = b₀ := by
  obtain ⟨i, hc, hb, hbefore⟩ := h.exists_index
  obtain ⟨j, hc₀, hb₀, hbefore₀⟩ := h₀.exists_index
  rcases Nat.lt_trichotomy i j with hij | rfl | hij
  · rw [hbefore₀ i hij, hb] at hc
    exact absurd (Option.some.inj hc).symm h.ne
  · exact Option.some.inj (hb.symm.trans hb₀)
  · rw [hbefore j hij, hb₀] at hc₀
    exact absurd (Option.some.inj hc₀).symm h₀.ne

theorem not_append {more : List KBlock} (h : Takes blocks (blocks ++ more) c b) : False := by
  obtain ⟨i, hc, hb, -⟩ := h.exists_index
  rw [List.getElem?_append_left (List.getElem?_eq_some_iff.mp hc).1, hc] at hb
  exact h.ne (Option.some.inj hb)

theorem not_self (h : Takes blocks blocks c b) : False := by
  obtain ⟨i, hc, hb, -⟩ := h.exists_index
  exact h.ne (Option.some.inj (hc.symm.trans hb))

theorem used (h : Takes blocks blocks' c b) {x : KBlock} (hx : x ∈ blocks) (hfree : x.free = false) : x ∈ blocks' := by
  obtain ⟨pre, rest, post, rfl, rfl, hc, -⟩ := h
  rcases List.mem_append.mp hx with hx | hx
  · exact List.mem_append_left _ hx
  · rcases List.mem_cons.mp hx with rfl | hx
    · rw [hc] at hfree
      cases hfree
    · exact List.mem_append_right _ (List.mem_cons_of_mem _ (List.mem_append_right _ hx))

theorem claim_splitBlock (pre post : List KBlock) (hc : c.free = true) (size : Nat) :
    Takes (pre ++ c :: post) (pre ++ (claim (splitBlock c size) ++ post)) c
      { c with size := recorded c size, free := false } := by
  obtain ⟨rest, heq, hrest⟩ := claim_splitBlock_eq c size
  rw [heq]
  exact ⟨pre, rest, post, rfl, rfl, hc, rfl, hrest⟩

end Takes

end Heap

namespace Kernel
open Heap
variable {k k' : Kernel} {size ptr : Nat}

/-- `kmalloc` returned `NULL` and left the list of blocks, or it returned the payload of a block of at least `size`
    bytes inside the memory of a free block or of pages that the PMM gave, and left the blocks in use. -/
def HonoursSize (k k' : Kernel) (size ptr : Nat) : Prop :=
  (ptr = 0 ∧ k'.heap.heap.blocks = k.heap.heap.blocks) ∨
  ((∀ x ∈ k.heap.heap.blocks, x.free = false → x ∈ k'.heap.heap.blocks) ∧
    ∃ b, ptr = (b.addr + 32) % 2 ^ 64 ∧ b.free = false ∧ size ≤ b.size ∧
      ((∃ c, Takes k.heap.heap.blocks k'.heap.heap.blocks c b ∧ b.addr = c.addr ∧ b.stop ≤ c.stop) ∨
        ∃ page rest, (k.expandHeap size).1 = page ∧ page ≠ 0 ∧ k'.heap.heap.blocks = k.heap.heap.blocks ++ b :: rest ∧
          b.addr = (expandRun (alignUp size 16) page).base ∧ b.stop ≤ (expandRun (alignUp size 16) page).stop))

theorem alignUp_cases (hsize : size < 2 ^ 64) :
    (size ≤ 2 ^ 64 - 16 ∧ size ≤ alignUp size 16 ∧ alignUp size 16 < size + 16) ∨
      (2 ^ 64 - 16 < size ∧ alignUp size 16 = 0) := by
  unfold alignUp
  omega

/-- What `kmalloc` does: it returns `NULL`, takes the first free block that fits, or takes the block of new pages. -/
theorem kmalloc_outcome (hready : k.heap.heap.ready = true) (size : Nat) : ∃ ptr k', k.kmalloc size = .ok (ptr, k') ∧
    (((size = 0 ∨ k.heap.heap.needsPages size = true ∧ (k.expandHeap size).1 = 0) ∧ ptr = 0 ∧
        k'.heap.heap.blocks = k.heap.heap.blocks) ∨
      (k.heap.heap.needsPages size = false ∧ ∃ c ∈ k.heap.heap.blocks, alignUp size 16 ≤ c.size ∧
        ptr = (c.addr + 32) % 2 ^ 64 ∧
        Takes k.heap.heap.blocks k'.heap.heap.blocks c { c with size := recorded c (alignUp size 16), free := false }) ∨
      (k.heap.heap.needsPages size = true ∧ ∃ page c rest, (k.expandHeap size).1 = page ∧ page ≠ 0 ∧
        c = expandBlock (alignUp size 16) page ∧ ptr = (c.addr + 32) % 2 ^ 64 ∧
        k'.heap.heap.blocks = k.heap.heap.blocks ++ { c with size := recorded c (alignUp size 16), free := false } ::
          rest)) := by
  unfold Kernel.kmalloc
  rcases hexp : k.expandHeap size with ⟨page, pmm⟩
  dsimp only
  unfold Heap.kmalloc
  by_cases h0 : size = 0
  · rw [if_pos h0]
    exact ⟨_, _, rfl, Or.inl ⟨Or.inl h0, rfl, rfl⟩⟩
  rw [if_neg h0, if_neg (not_not_intro hready)]
  dsimp only
  cases hfit : takeFit (alignUp size 16) k.heap.heap.blocks with
  | some found =>
    obtain ⟨ptr, blocks⟩ := found
    obtain ⟨pre, c, post, hblocks, hfree, hle, hptr, rfl⟩ := takeFit_eq_some hfit
    refine ⟨_, _, rfl, Or.inr (Or.inl ⟨by simp [needsPages, hfit], c, ?_, hle, hptr, ?_⟩)⟩
    · rw [hblocks]
      exact List.mem_append_right _ List.mem_cons_self
    · rw [hblocks]
      exact Takes.claim_splitBlock pre post hfree _
  | none =>
    have hneeds : k.heap.heap.needsPages size = true := by simp [needsPages, hfit, h0]
    by_cases hpage : page = 0
    · rw [if_pos hpage]
      exact ⟨_, _, rfl, Or.inl ⟨Or.inr ⟨hneeds, hpage⟩, rfl, rfl⟩⟩
    · rw [if_neg hpage]
      obtain ⟨rest, heq, -⟩ := claim_splitBlock_eq (expandBlock (alignUp size 16) page) (alignUp size 16)
      exact ⟨_, _, rfl, Or.inr
        (Or.inr ⟨hneeds, page, _, rest, rfl, hpage, rfl, rfl, congrArg (k.heap.heap.blocks ++ ·) heq⟩)⟩

theorem honoursSize_of_takes (hsize : size < 2 ^ 64) (hneeds : k.heap.heap.needsPages size = false) {c : KBlock}
    (hc : c.size < 2 ^ 64) (hfit : alignUp size 16 ≤ c.size) (hptr : ptr = (c.addr + 32) % 2 ^ 64)
    (htakes : Takes k.heap.heap.blocks k'.heap.heap.blocks c
      { c with size := recorded c (alignUp size 16), free := false }) :
    k.HonoursSize k' size ptr ↔ size ≤ 2 ^ 64 - 16 := by
  rcases alignUp_cases hsize with ⟨hle, hup, -⟩ | ⟨hlt, hzero⟩
  · obtain ⟨hlow, hhigh⟩ := recorded_of_fit hfit
    refine iff_of_true (Or.inr ⟨fun x hx hfree => htakes.used hx hfree,
      { c with size := recorded c (alignUp size 16), free := false }, hptr, rfl, Nat.le_trans hup hlow,
        Or.inl ⟨c, htakes, rfl, Nat.add_le_add_left hhigh _⟩⟩) hle
  · refine iff_of_false ?_ (Nat.not_le_of_lt hlt)
    rw [hzero] at htakes
    rintro (⟨-, hsame⟩ | ⟨-, b, -, -, hb, ⟨c', htakes', -⟩ | ⟨page, rest, hpage, hne, -⟩⟩)
    · rw [hsame] at htakes
      exact htakes.not_self
    · have hrec := recorded_zero hc
      rw [htakes'.unique htakes] at hb
      dsimp only at hb
      omega
    · unfold expandHeap at hpage
      rw [if_neg (by rw [hneeds]; exact Bool.false_ne_true)] at hpage
      exact hne hpage.symm

/-- A block of new pages holds the rounded size, unless the size is one of the last below `2 ^ 64`. -/
theorem expandBlock_size (page : Nat) (hsize : size < 2 ^ 64) (hpages : expandPages (alignUp size 16) ≠ 0) :
    (expandBlock (alignUp size 16) page).size + 32 = expandPages (alignUp size 16) * 4096 ∧
    (size ≤ 2 ^ 64 - 32 → alignUp size 16 ≤ (expandBlock (alignUp size 16) page).size) ∧
    (2 ^ 64 - 32 < size → expandPages (alignUp size 16) = 1) := by
  unfold expandBlock expandPages expandBytes alignUp at *
  dsimp only
  omega

theorem honoursSize_of_pages (hsize : size < 2 ^ 64) {page : Nat} {c : KBlock} {rest : List KBlock}
    (hpages : expandPages (alignUp size 16) ≠ 0) (hpage : (k.expandHeap size).1 = page) (hne : page ≠ 0)
    (hc : c = expandBlock (alignUp size 16) page) (hptr : ptr = (c.addr + 32) % 2 ^ 64)
    (hblocks : k'.heap.heap.blocks = k.heap.heap.blocks ++
      { c with size := recorded c (alignUp size 16), free := false } :: rest) :
    k.HonoursSize k' size ptr ↔ size ≤ 2 ^ 64 - 32 := by
  obtain ⟨hbytes, hfit, hone⟩ := expandBlock_size page hsize hpages
  rw [← hc] at hbytes hfit
  have haddr : c.addr = (expandRun (alignUp size 16) page).base := by rw [hc]; rfl
  have hstop : c.stop = (expandRun (alignUp size 16) page).stop := by
    show c.addr + 32 + c.size = page * 4096 + expandPages (alignUp size 16) * 4096
    rw [haddr, ← hbytes, Nat.add_assoc, Nat.add_comm 32]
    rfl
  constructor
  · rintro (⟨-, hsame⟩ | ⟨-, b, -, -, hb, ⟨c', htakes, -⟩ | ⟨page', rest', hpage', -, hblocks', -, hend⟩⟩)
    · rw [hsame] at hblocks
      have hlen := congrArg List.length hblocks
      rw [List.length_append, List.length_cons] at hlen
      omega
    · rw [hblocks] at htakes
      exact htakes.not_append.elim
    · by_contra hgt
      rw [hblocks] at hblocks'
      injection List.append_cancel_left hblocks' with heq
      rw [← hpage', hpage, ← hstop, ← heq] at hend
      rw [hone (Nat.lt_of_not_le hgt)] at hbytes
      rw [← heq] at hb
      simp only [KBlock.stop] at hb hend
      omega
  · intro hle
    obtain ⟨hlow, hhigh⟩ := recorded_of_fit (hfit hle)
    have hup : size ≤ alignUp size 16 := by
      rcases alignUp_cases hsize with ⟨-, hup, -⟩ | ⟨hlt, -⟩
      · exact hup
      · omega
    refine Or.inr ⟨fun x hx _ => ?_, { c with size := recorded c (alignUp size 16), free := false }, hptr, rfl,
      Nat.le_trans hup hlow, Or.inr ⟨page, rest, hpage, hne, hblocks, haddr, ?_⟩⟩
    · rw [hblocks]
      exact List.mem_append_left _ hx
    · rw [← hstop]
      exact Nat.add_le_add_left hhigh _

/-- `kmalloc` honours the size exactly if the size is at most `2 ^ 64 - 32`, or at most `2 ^ 64 - 16` and some free
    block holds it, or no block is free for the rounded size and the PMM has no pages. -/
theorem kmalloc_honours_size_iff (hready : k.heap.heap.ready = true)
    (hblocks : ∀ b ∈ k.heap.heap.blocks, b.size < 2 ^ 64) (hsize : size < 2 ^ 64) :
    (∃ ptr k', k.kmalloc size = .ok (ptr, k') ∧ k.HonoursSize k' size ptr) ↔
      size ≤ 2 ^ 64 - 32 ∨ (size ≤ 2 ^ 64 - 16 ∧ k.heap.heap.needsPages size = false) ∨
      (k.heap.heap.needsPages size = true ∧ (k.expandHeap size).1 = 0) := by
  obtain ⟨ptr, k', hk, houtcome⟩ := kmalloc_outcome hready size
  have hiff : (∃ ptr k', k.kmalloc size = .ok (ptr, k') ∧ k.HonoursSize k' size ptr) ↔ k.HonoursSize k' size ptr := by
    constructor
    · rintro ⟨ptr₁, k₁, hk₁, h⟩
      cases hk.symm.trans hk₁
      exact h
    · exact fun h => ⟨ptr, k', hk, h⟩
  rw [hiff]
  rcases houtcome with ⟨hnull, hptr, hsame⟩ | ⟨hneeds, c, hc, hle, hptr, htakes⟩ |
    ⟨hneeds, page, c, rest, hpage, hne, hc, hptr, happ⟩
  · refine iff_of_true (Or.inl ⟨hptr, hsame⟩) (hnull.imp (fun h0 => ?_) Or.inr)
    rw [h0]
    exact Nat.zero_le _
  · rw [honoursSize_of_takes hsize hneeds (hblocks c hc) hle hptr htakes]
    simp only [hneeds, Bool.false_eq_true, false_and, or_false, and_true]
    omega
  · have hpages : expandPages (alignUp size 16) ≠ 0 := by
      intro h0
      unfold expandHeap Pmm.pmmAllocPages at hpage
      rw [if_pos hneeds, h0, if_pos (Or.inl rfl)] at hpage
      exact hne hpage.symm
    rw [honoursSize_of_pages hsize hpages hpage hne hc hptr happ]
    simp only [hneeds, hpage, hne, Bool.true_eq_false, and_false, or_false]

/-- The shell asks for 100 bytes. -/
theorem kmalloc_honours_size_hundred : ∃ k : Kernel, k.heap.heap.ready = true ∧
    ∃ ptr k', k.kmalloc 100 = .ok (ptr, k') ∧ k.HonoursSize k' 100 ptr := by
  obtain ⟨_, k, use, _, _, -, -, hidle, -⟩ := exists_shell fun _ _ => 0
  have hinv := hidle.memory.tasks.heap
  refine ⟨k, hinv.ready, (kmalloc_honours_size_iff hinv.ready (fun b hb => ?_) (by decide)).mpr (Or.inl (by decide))⟩
  obtain ⟨r, hr, -, hstop⟩ := hinv.laid.inRun b hb
  have hfits := (hinv.runs.fits r hr).2
  simp only [KBlock.stop] at hstop
  omega

/-- The size `2 ^ 64 - 1` is rounded up to `0`: the first block of the heap is split to hold nothing. -/
theorem kmalloc_wraps_size : ∃ k k' : Kernel, kmallocInit { blocks := [], ready := false } 0x10000 = .ok k.heap.heap ∧
    k.kmalloc (2 ^ 64 - 1) = .ok (0x10000020, k') ∧
    k'.heap.heap.blocks = [⟨0x10000000, 0, false⟩, ⟨0x10000020, 8128, true⟩] ∧
      ¬k.HonoursSize k' (2 ^ 64 - 1) 0x10000020 := by
  obtain ⟨_, k, _⟩ := exists_shell fun _ _ => 0
  let first : KBlock := ⟨0x10000000, 8160, true⟩
  let heap : HeapRun := ⟨⟨[first], true⟩, [expandRun 4096 0x10000], []⟩
  have hneeds : heap.heap.needsPages (2 ^ 64 - 1) = false := by decide +kernel
  have hmalloc : heap.heap.kmalloc (2 ^ 64 - 1) 0 = .ok (0x10000020,
      ⟨[⟨0x10000000, 0, false⟩, ⟨0x10000020, 8128, true⟩], true⟩) := by
    decide +kernel
  obtain ⟨k', hk', hblocks⟩ : ∃ k', Kernel.kmalloc { k with heap } (2 ^ 64 - 1) = .ok (0x10000020, k') ∧
      k'.heap.heap.blocks = [⟨0x10000000, 0, false⟩, ⟨0x10000020, 8128, true⟩] := by
    unfold Kernel.kmalloc expandHeap
    rw [if_neg (by rw [hneeds]; exact Bool.false_ne_true)]
    dsimp only
    rw [hmalloc]
    exact ⟨_, rfl, rfl⟩
  refine ⟨{ k with heap }, k', rfl, hk', hblocks, ?_⟩
  have hzero : alignUp (2 ^ 64 - 1) 16 = 0 := by decide +kernel
  have hrec : recorded first 0 = 0 := by decide +kernel
  have htakes : Takes heap.heap.blocks k'.heap.heap.blocks
      first { first with size := recorded first (alignUp (2 ^ 64 - 1) 16), free := false } := by
    rw [hzero, hrec]
    exact ⟨[], [⟨0x10000020, 8128, true⟩], [], rfl, hblocks, rfl, rfl, by simp⟩
  have hptr : 0x10000020 = (first.addr + 32) % 2 ^ 64 := by decide +kernel
  exact fun hh => absurd ((honoursSize_of_takes (by decide +kernel) hneeds (by decide +kernel)
    (by rw [hzero]; exact Nat.zero_le _) hptr
    htakes).mp hh) (by decide +kernel)

end Kernel
end SamOS
