import SamOS.HeapLaws

/-! `kfree` takes `kmalloc` back. In one contiguous region the two parts of a split are merged again, and the pass of
    `coalesce` over the rest of the list leaves the blocks in use, their links, and the memory as a whole. -/

namespace SamOS
namespace Heap

/-- One contiguous region: each header is at the end of the block before it, and the blocks end inside the address
    space. -/
structure Contiguous (blocks : List KBlock) : Prop where
  touches : blocks.IsChain Touches
  fits : ∀ b ∈ blocks, b.stop ≤ 2 ^ 64

/-- The memory of the blocks, headers included. -/
def total (blocks : List KBlock) : Nat := (blocks.map fun b => b.size + 32).sum

/-- The blocks in use in list order, each with the address that its `next` holds. -/
def inUse : List KBlock → List (KBlock × Option Nat)
  | [] => []
  | b :: rest => if b.free then inUse rest else (b, rest.head?.map KBlock.addr) :: inUse rest

/-- No two consecutive blocks are free. -/
def NoFreePair (blocks : List KBlock) : Prop := blocks.IsChain fun b c => ¬(b.free = true ∧ c.free = true)

section Neutral
variable {b c : KBlock} {blocks pre rest rest' post : List KBlock} {size : Nat}

theorem Contiguous.tail (h : Contiguous (b :: rest)) : Contiguous rest :=
  ⟨(List.isChain_cons.mp h.touches).2, fun x hx => h.fits x (List.mem_cons_of_mem _ hx)⟩

theorem Contiguous.between (h : Contiguous (pre ++ c :: post)) :
    (∀ b ∈ pre, b.stop ≤ c.addr) ∧ ∀ b ∈ post, c.stop ≤ b.addr := by
  have htrans : IsTrans KBlock fun b c => b.stop ≤ c.addr := ⟨fun x y z hxy hyz => by
    simp only [KBlock.stop] at hxy hyz ⊢
    omega⟩
  have hsorted : (pre ++ c :: post).Pairwise fun b c => b.stop ≤ c.addr :=
    List.isChain_iff_pairwise.mp (h.touches.imp fun x y hxy => Nat.le_of_eq hxy.symm)
  obtain ⟨-, hpost, hpre⟩ := List.pairwise_append.mp hsorted
  exact ⟨fun b hb => hpre b hb c List.mem_cons_self, (List.pairwise_cons.mp hpost).1⟩

/-! ### What a pass keeps -/

theorem total_cons (b : KBlock) (rest : List KBlock) : total (b :: rest) = b.size + 32 + total rest := rfl

theorem total_append (pre post : List KBlock) : total (pre ++ post) = total pre + total post := by
  unfold total
  rw [List.map_append, List.sum_append]

theorem total_coalesce (h : Contiguous blocks) : total (coalesce blocks) = total blocks := by
  induction blocks using coalesce.induct with
  | case1 b c rest hbc ih =>
    have hsum : (b.size + 32 + c.size) % 2 ^ 64 = b.size + 32 + c.size := by
      have htouch : c.addr = b.stop := (List.isChain_cons_cons.mp h.touches).1
      have hstop := h.fits c (List.mem_cons_of_mem _ List.mem_cons_self)
      simp only [KBlock.stop] at htouch hstop
      exact Nat.mod_eq_of_lt (by omega)
    rw [coalesce, if_pos hbc, total_cons, total_cons, total_cons, ih h.tail.tail]
    dsimp only
    omega
  | case2 b c rest hbc ih => rw [coalesce, if_neg hbc, total_cons, total_cons b, ih h.tail]
  | case3 blocks hshort => rw [coalesce.eq_2 blocks hshort]

/-- The blocks in use and the links before a stretch only see its first address. -/
theorem inUse_append (hhead : rest'.head?.map KBlock.addr = rest.head?.map KBlock.addr)
    (hused : inUse rest' = inUse rest) (pre : List KBlock) :
    inUse (pre ++ rest') = inUse (pre ++ rest) := by
  induction pre with
  | nil => exact hused
  | cons b pre ih =>
    have hnext : (pre ++ rest').head?.map KBlock.addr = (pre ++ rest).head?.map KBlock.addr := by
      cases pre with
      | nil => exact hhead
      | cons c pre => rfl
    rw [List.cons_append, List.cons_append, inUse, inUse, ih, hnext]

theorem inUse_coalesce (blocks : List KBlock) :
    inUse (coalesce blocks) = inUse blocks ∧ (coalesce blocks).head?.map KBlock.addr =
      blocks.head?.map KBlock.addr := by
  induction blocks using coalesce.induct with
  | case1 b c rest hbc ih =>
    rw [coalesce, if_pos hbc, inUse, inUse, inUse, if_pos hbc.1, if_pos hbc.1, if_pos hbc.2]
    exact ⟨ih.1, rfl⟩
  | case2 b c rest hbc ih =>
    rw [coalesce, if_neg hbc]
    exact ⟨inUse_append ih.2 ih.1 [b], rfl⟩
  | case3 blocks hshort =>
    rw [coalesce.eq_2 blocks hshort]
    exact ⟨rfl, rfl⟩

theorem coalesce_of_noFreePair (h : NoFreePair blocks) : coalesce blocks = blocks := by
  induction blocks using coalesce.induct with
  | case1 b c rest hbc ih => exact absurd hbc (List.isChain_cons_cons.mp h).1
  | case2 b c rest hbc ih => rw [coalesce, if_neg hbc, ih (List.isChain_cons_cons.mp h).2]
  | case3 blocks hshort => exact coalesce.eq_2 blocks hshort

theorem coalesce_pair (h : NoFreePair (pre ++ c :: post)) {x y : KBlock} (hx : x.free = true) (hy : y.free = true)
    (hc : { x with size := (x.size + 32 + y.size) % 2 ^ 64 } = c) :
    coalesce (pre ++ x :: y :: post) = pre ++ c :: post := by
  induction pre with
  | nil =>
    rw [List.nil_append, coalesce, if_pos ⟨hx, hy⟩, hc, coalesce_of_noFreePair (List.isChain_cons.mp h).2]
    rfl
  | cons b pre ih =>
    have hfree : c.free = true := by
      rw [← hc]
      exact hx
    have hrest := ih (List.isChain_cons.mp h).2
    cases pre with
    | nil =>
      have hbc := (List.isChain_cons_cons.mp h).1
      have hbx : ¬(b.free = true ∧ x.free = true) := fun hb => hbc ⟨hb.1, hfree⟩
      rw [List.cons_append, List.nil_append, coalesce, if_neg hbx]
      exact congrArg (b :: ·) hrest
    | cons d pre =>
      rw [List.cons_append, List.cons_append, coalesce, if_neg (List.isChain_cons_cons.mp h).1]
      exact congrArg (b :: ·) hrest

/-! ### A block taken and given back -/

/-- What stands for `c` when it is free again. -/
inductive Parts (c : KBlock) : List KBlock → Prop
  | whole : Parts c [c]
  | split {x y : KBlock} (hx : x.free = true) (hy : y.free = true) (hsize : x.size + 32 + y.size = c.size)
      (hc : { x with size := c.size } = c) (haddr : y.addr = x.stop) : Parts c [x, y]

theorem markFree_of_ne {addr : Nat} (h : ∀ b ∈ blocks, b.addr ≠ addr) : markFree addr blocks = blocks := by
  unfold markFree
  conv_rhs => rw [← List.map_id blocks]
  exact List.map_congr_left fun b hb => if_neg (h b hb)

theorem markFree_append (addr : Nat) (pre post : List KBlock) :
    markFree addr (pre ++ post) = markFree addr pre ++ markFree addr post := List.map_append

theorem markFree_claim (hc : c.free = true) (hfit : size ≤ c.size) (hstop : c.stop ≤ 2 ^ 64) :
    ∃ parts, Parts c parts ∧ markFree c.addr (claim (splitBlock c size)) = parts := by
  have hself : { c with free := true } = c := by rw [← hc]
  rcases claim_splitBlock_cases hfit hstop with he | ⟨hlt, he⟩
  · rw [he, markFree_cons, if_pos rfl]
    exact ⟨[c], .whole, by rw [← hself]; rfl⟩
  · rw [he, markFree_cons, markFree_cons, if_pos rfl, if_neg (show ¬c.addr + 32 + size = c.addr by omega)]
    refine ⟨_, .split rfl rfl ?_ hself rfl, rfl⟩
    dsimp only
    omega

/-- `kfree` of the block that `kmalloc` took: the list with the parts of the block, and a pass over it. -/
theorem kmalloc_kfree_blocks {h : Heap} (hready : h.ready = true) (hc : Contiguous h.blocks) (h0 : 0 < size)
    (hlt : size < 2 ^ 32) (hfit : h.needsPages size = false) (page : Nat) :
    ∃ ptr h' pre c parts post, h.kmalloc size page = .ok (ptr, h') ∧ h.blocks = pre ++ c :: post ∧ c.free = true ∧
      Parts c parts ∧
      h'.kfree ptr = { h with blocks := coalesce (pre ++ (parts ++ post)) } := by
  obtain ⟨ptr, blocks', hsome⟩ : ∃ ptr blocks', takeFit (alignUp size 16) h.blocks = some (ptr, blocks') := by
    cases ht : takeFit (alignUp size 16) h.blocks with
    | none => simp [needsPages, ht, h0.ne'] at hfit
    | some found => exact ⟨found.1, found.2, rfl⟩
  have hk : h.kmalloc size page = .ok (ptr, { h with blocks := blocks' }) := by
    unfold kmalloc
    rw [if_neg h0.ne', if_neg (by simp [hready])]
    simp only [hsome]
  obtain ⟨pre, c, post, hblocks, hfree, hsize, hptr, rfl⟩ := takeFit_eq_some hsome
  have hstop : c.stop ≤ 2 ^ 64 := hc.fits c (by rw [hblocks]; simp)
  rw [hblocks] at hc
  obtain ⟨hbefore, hafter⟩ := hc.between
  have hpre : markFree c.addr pre = pre := markFree_of_ne fun b hb => by
    have := hbefore b hb
    simp only [KBlock.stop] at this
    omega
  have hpost : markFree c.addr post = post := markFree_of_ne fun b hb => by
    have := hafter b hb
    simp only [KBlock.stop] at this
    omega
  obtain ⟨parts, hparts, hmark⟩ := markFree_claim hfree hsize hstop
  have haddr : ptr = c.addr + 32 := by
    have := (alignUp_sixteen hlt).1
    simp only [KBlock.stop] at hstop
    rw [hptr, Nat.mod_eq_of_lt (by omega)]
  refine ⟨ptr, _, pre, c, parts, post, hk, hblocks, hfree, hparts, ?_⟩
  unfold kfree
  rw [if_neg (by omega), haddr, Nat.add_sub_cancel]
  dsimp only
  rw [markFree_append, markFree_append, hpre, hmark, hpost]

section Parts
variable {parts : List KBlock}

theorem Parts.contiguous (hp : Parts c parts) (h : Contiguous (pre ++ c :: post)) :
    Contiguous (pre ++ (parts ++ post)) := by
  cases hp with
  | whole => exact h
  | @split x y hx hy hsize hc haddr =>
    have hxc : x.addr = c.addr := (congrArg KBlock.addr hc :)
    have hstop : y.stop = c.stop := by
      simp only [KBlock.stop] at haddr ⊢
      omega
    have hcstop := h.fits c (by simp)
    refine ⟨?_, fun b hb => ?_⟩
    · obtain ⟨hpre, hpost, hlink⟩ := List.isChain_append.mp h.touches
      refine List.isChain_append.mpr ⟨hpre, List.isChain_cons_cons.mpr ⟨haddr, ?_⟩, fun b hb d hd => ?_⟩
      · rw [List.isChain_cons] at hpost ⊢
        exact ⟨fun d hd => (hpost.1 d hd).trans hstop.symm, hpost.2⟩
      · cases hd
        exact hxc.trans (hlink b hb c rfl)
    · have hxstop : x.stop ≤ c.stop := by
        simp only [KBlock.stop] at haddr ⊢
        omega
      simp only [List.mem_append, List.mem_cons, List.not_mem_nil, or_false] at hb
      rcases hb with hb | (rfl | rfl) | hb
      · exact h.fits b (List.mem_append_left _ hb)
      · exact Nat.le_trans hxstop hcstop
      · exact Nat.le_trans (Nat.le_of_eq hstop) hcstop
      · exact h.fits b (List.mem_append_right _ (List.mem_cons_of_mem _ hb))

theorem Parts.total (hp : Parts c parts) : total parts = c.size + 32 := by
  cases hp with
  | whole => rfl
  | split _ _ hsize =>
    simp only [Heap.total, List.map_cons, List.map_nil, List.sum_cons, List.sum_nil]
    omega

theorem Parts.inUse (hp : Parts c parts) (hfree : c.free = true) (pre post : List KBlock) :
    inUse (pre ++ (parts ++ post)) = inUse (pre ++ c :: post) := by
  cases hp with
  | whole => rfl
  | @split x y hx hy hsize hc haddr =>
    have hxc : x.addr = c.addr := (congrArg KBlock.addr hc :)
    have hhead : (x :: y :: post).head?.map KBlock.addr = (c :: post).head?.map KBlock.addr := congrArg some hxc
    refine inUse_append hhead ?_ pre
    rw [Heap.inUse, if_pos hx, Heap.inUse, if_pos hy, Heap.inUse, if_pos hfree]

theorem Parts.coalesce (hp : Parts c parts) (h : NoFreePair (pre ++ c :: post)) (hlt : c.size < 2 ^ 64) :
    coalesce (pre ++ (parts ++ post)) = pre ++ c :: post := by
  cases hp with
  | whole => exact coalesce_of_noFreePair h
  | split hx hy hsize hc haddr =>
    refine coalesce_pair h hx hy ?_
    rw [hsize, Nat.mod_eq_of_lt hlt]
    exact hc

end Parts

/-- In one contiguous region, `kfree` of what `kmalloc` took from the list leaves every block in use and its link, and
    the memory as a whole. If no two consecutive blocks were free, the heap is what it was. -/
theorem kmalloc_kfree_neutral {h : Heap} (hready : h.ready = true) (hc : Contiguous h.blocks) (h0 : 0 < size)
    (hlt : size < 2 ^ 32) (hfit : h.needsPages size = false) (page : Nat) :
    ∃ ptr h', h.kmalloc size page = .ok (ptr, h') ∧ inUse (h'.kfree ptr).blocks = inUse h.blocks ∧
      total (h'.kfree ptr).blocks = total h.blocks ∧ (NoFreePair h.blocks → h'.kfree ptr = h) := by
  obtain ⟨ptr, h', pre, c, parts, post, hk, hblocks, hfree, hparts, hfreed⟩ :=
    kmalloc_kfree_blocks hready hc h0 hlt hfit page
  refine ⟨ptr, h', hk, ?_⟩
  rw [hfreed, hblocks]
  rw [hblocks] at hc
  refine ⟨?_, ?_, fun hpair => ?_⟩
  · exact (inUse_coalesce _).1.trans (hparts.inUse hfree pre post)
  · dsimp only
    rw [total_coalesce (hparts.contiguous hc), total_append, total_append, hparts.total, total_append, total_cons]
  · have hstop := hc.fits c (by simp)
    simp only [KBlock.stop] at hstop
    rw [hparts.coalesce hpair (by omega), ← hblocks]

/-- 100 bytes of a free block between two blocks in use: the block is split and put together again. -/
theorem kmalloc_kfree_neutral_split :
    ∃ h : Heap, h.blocks = [⟨0x1000, 16, false⟩, ⟨0x1030, 400, true⟩, ⟨0x11E0, 64, false⟩] ∧
    ∃ ptr h', h.kmalloc 100 0 = .ok (ptr, h') ∧ h'.blocks.length = 4 ∧ h'.kfree ptr = h := by
  let h : Heap := ⟨[⟨0x1000, 16, false⟩, ⟨0x1030, 400, true⟩, ⟨0x11E0, 64, false⟩], true⟩
  have hc : Contiguous h.blocks := ⟨by simp [h, Touches, KBlock.stop], by simp [h, KBlock.stop]⟩
  have hcalled : h.kmalloc 100 0 =
      .ok (0x1050, ⟨[⟨0x1000, 16, false⟩, ⟨0x1030, 112, false⟩, ⟨0x10C0, 256, true⟩, ⟨0x11E0, 64, false⟩], true⟩) := rfl
  obtain ⟨ptr, h', hk, -, -, hsame⟩ := kmalloc_kfree_neutral rfl hc (show 0 < 100 by decide) (by decide)
    (by decide +kernel) 0
  refine ⟨h, rfl, ptr, h', hk, ?_, hsame (by simp [h, NoFreePair])⟩
  rw [hcalled] at hk
  cases hk
  rfl

end Neutral
end Heap
end SamOS
