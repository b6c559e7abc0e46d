import SamOS.Context
import SamOS.Lib.Linked
import SamOS.Lib.Result

/-! `kmalloc.c` on memory. A `KBlock` is a header of three words, and whoever writes to them changes the list. As long
    as no two headers overlap, the calls do in memory what `Heap` says of the list of the blocks. -/

namespace SamOS
open Function Heap

/-- The static state of `kmalloc.c` with the memory it works on, in words at their addresses, and the page runs that
    `expand_heap` got. -/
structure KHeap where
  mem : Nat → Word
  head : Nat
  ready : Bool
  runs : List PageRun

namespace KHeap

/-! ### Headers -/

/-- The `KBlock` at `b`, and its `next`. Its `free` is an `int`, the lower half of a word. -/
def header (m : Nat → Word) (b : Nat) : KBlock × Nat :=
  ({ addr := b, size := (m b).toNat, free := (m (b + 8)).toNat % 2 ^ 32 != 0 }, (m (b + 16)).toNat)

def setSize (m : Nat → Word) (b size : Nat) : Nat → Word := update m b (BitVec.ofNat 64 size)

def setFree (m : Nat → Word) (b : Nat) (free : Bool) : Nat → Word :=
  update m (b + 8) (BitVec.ofNat 64 ((m (b + 8)).toNat / 2 ^ 32 * 2 ^ 32 + free.toNat))

def setNext (m : Nat → Word) (b next : Nat) : Nat → Word := update m (b + 16) (BitVec.ofNat 64 next)

/-- Two headers have no byte in common. -/
def Clear (a b : Nat) : Prop := a + 32 ≤ b ∨ b + 32 ≤ a

instance (a b : Nat) : Decidable (Clear a b) := inferInstanceAs (Decidable (_ ∨ _))

section Fields
variable {m : Nat → Word} {a b n : Nat} {f : Bool}

theorem header_setSize : header (setSize m b n) b = ({ (header m b).1 with size := n % 2 ^ 64 }, (header m b).2) := by
  simp [header, setSize]

theorem header_setFree : header (setFree m b f) b = ({ (header m b).1 with free := f }, (header m b).2) := by
  have hlow : ((m (b + 8)).toNat / 2 ^ 32 * 2 ^ 32 + f.toNat) % 2 ^ 64 % 2 ^ 32 = f.toNat := by
    cases f <;> simp only [Bool.toNat_true, Bool.toNat_false] <;> omega
  cases f <;> simp_all [header, setFree]

theorem header_setNext : header (setNext m b n) b = ((header m b).1, n % 2 ^ 64) := by
  simp [header, setNext]

theorem header_congr {m' : Nat → Word} (h : ∀ i, a ≤ i → i < a + 32 → m' i = m i) : header m' a = header m a := by
  unfold header
  rw [h a (by omega) (by omega), h (a + 8) (by omega) (by omega), h (a + 16) (by omega) (by omega)]

theorem header_setSize_of_clear (h : Clear a b) : header (setSize m b n) a = header m a :=
  header_congr fun i _ _ => update_of_ne (by unfold Clear at h; omega) _ _

theorem header_setFree_of_clear (h : Clear a b) : header (setFree m b f) a = header m a :=
  header_congr fun i _ _ => update_of_ne (by unfold Clear at h; omega) _ _

theorem header_setNext_of_clear (h : Clear a b) : header (setNext m b n) a = header m a :=
  header_congr fun i _ _ => update_of_ne (by unfold Clear at h; omega) _ _

end Fields

/-! ### The functions -/

/-- A list without a cycle has fewer nodes. -/
@[irreducible] def maxBlocks : Nat := 2 ^ 64 + 1

/-- Stands for a loop that goes round in the list for ever. -/
def endless : String := "the block list has no end"

def splitBlock (m : Nat → Word) (block size : Nat) : Nat → Word :=
  let remaining := ((header m block).1.size + 2 ^ 64 - size) % 2 ^ 64
  if remaining ≤ 32 + 16 then m
  else
    let next := (block + 32 + size) % 2 ^ 64
    let m := setSize m next (remaining - 32)
    let m := setFree m next true
    let m := setNext m next (header m block).2
    let m := setSize m block size
    setNext m block next

/-- One round of the loop of `coalesce`. -/
def coalesceAt (m : Nat → Word) (block : Nat) : Nat → Word :=
  let next := (header m block).2
  if (header m block).1.free && (header m next).1.free then
    let m := setSize m block (((header m block).1.size + (32 + (header m next).1.size)) % 2 ^ 64)
    setNext m block (header m next).2
  else m

/-- The loop of `coalesce`. -/
def coalesceFrom : Nat → (Nat → Word) → Nat → Except String (Nat → Word)
  | 0, _, _ => .error endless
  | n + 1, m, block =>
    if block = 0 ∨ (header m block).2 = 0 then .ok m
    else coalesceFrom n (coalesceAt m block) (header (coalesceAt m block) block).2

/-- `expand_heap`: the new block, and the heap. -/
def expandHeap (h : KHeap) (size page : Nat) : Except String (Nat × KHeap) :=
  if page = 0 then .ok (0, h)
  else
    let block := page * 4096
    let m := setSize h.mem block ((expandBytes size + 2 ^ 64 - 32) % 2 ^ 64)
    let m := setFree m block true
    let m := setNext m block 0
    let runs := h.runs ++ [expandRun size page]
    if h.head = 0 then .ok (block, { h with mem := m, head := block, runs })
    else
      match Linked.last (header m) maxBlocks h.head with
      | none => .error endless
      | some tail => .ok (block, { h with mem := setNext m tail block, runs })

/-- `split_block(block, size); block->free = 0; return block + 1`. -/
def claim (h : KHeap) (block size : Nat) : Nat × KHeap :=
  ((block + 32) % 2 ^ 64, { h with mem := setFree (splitBlock h.mem block size) block false })

def kmallocInit (h : KHeap) (page : Nat) : Except String KHeap :=
  if h.ready then .ok h
  else do
    let (block, h) ← h.expandHeap 4096 page
    if block = 0 then .error "kmalloc: initial heap allocation failed" else .ok { h with ready := true }

/-- `kmalloc`, where `page` is what `pmm_alloc_pages` returns if the heap has to grow. -/
def kmalloc (h : KHeap) (size page : Nat) : Except String (Nat × KHeap) :=
  if size = 0 then .ok (0, h)
  else if ¬h.ready then .error "kmalloc: heap used before kmalloc_init"
  else
    let size := alignUp size 16
    match Linked.find (header h.mem) (fun b => b.free && decide (b.size ≥ size)) maxBlocks h.head with
    | none => .error endless
    | some (some block) => .ok (h.claim block size)
    | some none => do
      let (block, h) ← h.expandHeap size page
      if block = 0 then .ok (0, h) else .ok (h.claim block size)

/-- `kzalloc`, for a size of whole words. -/
def kzalloc (h : KHeap) (size page : Nat) : Except String (Nat × KHeap) := do
  let (ptr, h) ← h.kmalloc size page
  if ptr = 0 then .ok (0, h)
  else .ok (ptr, { h with mem := fun a => if ptr ≤ a ∧ a < ptr + size then 0 else h.mem a })

def kfree (h : KHeap) (ptr : Nat) : Except String KHeap :=
  if ptr = 0 then .ok h
  else do
    let m ← coalesceFrom maxBlocks (setFree h.mem (ptr - 32) true) h.head
    .ok { h with mem := m }

/-! ### The list in memory -/

/-- The blocks of the list in memory. -/
def Lists (h : KHeap) (blocks : List KBlock) : Prop := Linked.Seg KBlock.addr (header h.mem) h.head blocks 0

/-- The headers of the blocks have no bytes in common, and lie in memory. -/
structure HeadersClear (blocks : List KBlock) : Prop where
  clear : (blocks.map KBlock.addr).Pairwise Clear
  inside : ∀ b ∈ blocks, 0 < b.addr ∧ b.addr + 32 ≤ 2 ^ 64

instance (blocks : List KBlock) : Decidable (HeadersClear blocks) :=
  decidable_of_iff ((blocks.map KBlock.addr).Pairwise Clear ∧ ∀ b ∈ blocks, 0 < b.addr ∧ b.addr + 32 ≤ 2 ^ 64)
    ⟨fun h => ⟨h.1, h.2⟩, fun h => ⟨h.1, h.2⟩⟩

/-- The block that `split_block` makes of the rest. -/
def rest (c : KBlock) (size : Nat) : KBlock :=
  { addr := (c.addr + 32 + size) % 2 ^ 64, size := (c.size + 2 ^ 64 - size) % 2 ^ 64 - 32, free := true }

section Lists
variable {h h' : KHeap} {m : Nat → Word} {a e size page ptr : Nat} {b c : KBlock} {blocks pre post : List KBlock}

theorem Clear.symm {a b : Nat} (h : Clear a b) : Clear b a := Or.symm h

theorem HeadersClear.length_lt (hc : HeadersClear blocks) : blocks.length < maxBlocks := by
  have hnodup : (blocks.map KBlock.addr).Nodup := hc.clear.imp fun {a b} h he => by
    unfold Clear at h
    omega
  unfold maxBlocks
  exact Nat.lt_succ_of_le (Linked.length_le_of_nodup hnodup fun b hb => by have := hc.inside b hb; omega)

theorem HeadersClear.of_sublist (hc : HeadersClear blocks) {blocks' : List KBlock}
    (hs : (blocks'.map KBlock.addr).Sublist (blocks.map KBlock.addr)) : HeadersClear blocks' := by
  refine ⟨hc.clear.sublist hs, fun b hb => ?_⟩
  obtain ⟨c, hcb, he⟩ := List.mem_map.mp (hs.subset (List.mem_map_of_mem hb))
  rw [← he]
  exact hc.inside c hcb

theorem HeadersClear.eq_or_clear (hc : HeadersClear blocks) (hb : b ∈ blocks) :
    ∀ c ∈ blocks, c.addr = b.addr ∨ Clear c.addr b.addr := by
  intro c hcb
  have : Std.Symm fun b c : KBlock => Clear b.addr c.addr := ⟨fun _ _ h => h.symm⟩
  by_cases he : c = b
  · exact .inl (by rw [he])
  · exact .inr ((List.pairwise_map.mp hc.clear).forall hcb hb he)

theorem HeadersClear.middle (hc : HeadersClear (pre ++ b :: post)) :
    (∀ d ∈ pre, Clear d.addr b.addr) ∧ ∀ d ∈ post, Clear d.addr b.addr := by
  have hp := hc.clear
  simp only [List.map_append, List.map_cons, List.pairwise_append, List.pairwise_cons, List.mem_map,
    List.mem_cons] at hp
  exact ⟨fun d hd => hp.2.2 _ ⟨d, hd, rfl⟩ _ (.inl rfl), fun d hd => (hp.2.1.1 _ ⟨d, hd, rfl⟩).symm⟩

theorem splitBlock_cases (c : KBlock) (size : Nat) :
    ((c.size + 2 ^ 64 - size) % 2 ^ 64 ≤ 32 + 16 ∧ Heap.claim (Heap.splitBlock c size) = [{ c with free := false }]) ∨
    (¬(c.size + 2 ^ 64 - size) % 2 ^ 64 ≤ 32 + 16 ∧
      Heap.claim (Heap.splitBlock c size) = [{ c with size := size, free := false }, rest c size]) := by
  unfold Heap.splitBlock
  by_cases hrem : (c.size + 2 ^ 64 - size) % 2 ^ 64 ≤ 32 + 16
  · exact .inl ⟨hrem, by rw [if_pos hrem]; rfl⟩
  · exact .inr ⟨hrem, by rw [if_neg hrem]; rfl⟩

theorem splitBlock_spec (hcx : (header m c.addr).1 = c) (hrem : ¬(c.size + 2 ^ 64 - size) % 2 ^ 64 ≤ 32 + 16)
    (hcn : Clear c.addr (rest c size).addr) :
    header (splitBlock m c.addr size) c.addr = ({ c with size := size % 2 ^ 64 }, (rest c size).addr % 2 ^ 64) ∧
    header (splitBlock m c.addr size) (rest c size).addr = (rest c size, (header m c.addr).2) ∧
    ∀ {d}, Clear d c.addr → Clear d (rest c size).addr → header (splitBlock m c.addr size) d = header m d := by
  have hm : splitBlock m c.addr size = setNext
    (setSize (setNext (setFree (setSize m (rest c size).addr (rest c size).size)
      (rest c size).addr true) (rest c size).addr (header m c.addr).2) c.addr size) c.addr (rest c size).addr := by
    have hclear : Clear c.addr ((c.addr + 32 + size) % 2 ^ 64) := hcn
    unfold splitBlock
    rw [hcx]
    dsimp only
    rw [if_neg hrem, header_setFree_of_clear hclear, header_setSize_of_clear hclear]
    rfl
  have hlt : (rest c size).size % 2 ^ 64 = (rest c size).size := by
    unfold rest
    dsimp only
    omega
  have hlt' : (header m c.addr).2 % 2 ^ 64 = (header m c.addr).2 := Nat.mod_eq_of_lt (BitVec.isLt _)
  rw [hm]
  refine ⟨?_, ?_, fun {d} hd hd' => ?_⟩
  · rw [header_setNext, header_setSize, header_setNext_of_clear hcn, header_setFree_of_clear hcn,
      header_setSize_of_clear hcn, hcx]
  · rw [header_setNext_of_clear hcn.symm, header_setSize_of_clear hcn.symm, header_setNext, header_setFree,
      header_setSize, hlt, hlt']
    rfl
  · rw [header_setNext_of_clear hd, header_setSize_of_clear hd, header_setNext_of_clear hd',
      header_setFree_of_clear hd', header_setSize_of_clear hd']

theorem HeadersClear.tail (hc : HeadersClear (b :: blocks)) : ∀ d ∈ blocks, Clear d.addr b.addr :=
  (HeadersClear.middle (show HeadersClear ([] ++ b :: blocks) from hc)).2

theorem seg_claim (hs : Linked.Seg KBlock.addr (header m) a (pre ++ c :: post) e) (hsize : size < 2 ^ 64)
    (hc : HeadersClear (pre ++ (Heap.claim (Heap.splitBlock c size) ++ post))) :
    Linked.Seg KBlock.addr (header (setFree (splitBlock m c.addr size) c.addr false)) a
      (pre ++ (Heap.claim (Heap.splitBlock c size) ++ post)) e := by
  obtain ⟨x, hpre, h0, hx, hcx, hpost⟩ := Linked.seg_append.mp hs
  rw [← hx] at hpre h0 hcx hpost
  rcases splitBlock_cases c size with ⟨hrem, hlist⟩ | ⟨hrem, hlist⟩ <;> rw [hlist] at hc ⊢
  · -- the block is taken as a whole
    have hm : splitBlock m c.addr size = m := if_pos (by rw [hcx]; exact hrem)
    obtain ⟨hcpre, hcpost⟩ := hc.middle
    rw [hm]
    refine Linked.seg_append.mpr ⟨c.addr, hpre.congr fun d hd => header_setFree_of_clear (hcpre d hd), h0,
      rfl, ?_, ?_⟩ <;>
      rw [header_setFree]
    · rw [hcx]
    · exact hpost.congr fun d hd => header_setFree_of_clear (hcpost d hd)
  · obtain ⟨hcpre, hcpost⟩ := hc.middle
    obtain ⟨hnpre, hnpost⟩ := HeadersClear.middle (b := rest c size)
      (show HeadersClear ((pre ++ [{ c with size := size, free := false }]) ++ rest c size :: post) by simpa using hc)
    have hcn : Clear c.addr (rest c size).addr := hnpre { c with size := size, free := false } (by simp)
    have hnext := hc.inside (rest c size) (by simp)
    obtain ⟨hblock, hrest, hother⟩ := splitBlock_spec hcx hrem hcn
    have hsame {d : KBlock} (hd : Clear d.addr c.addr) (hd' : Clear d.addr (rest c size).addr) :
        header (setFree (splitBlock m c.addr size) c.addr false) d.addr = header m d.addr := by
      rw [header_setFree_of_clear hd, hother hd hd']
    have hlt : size % 2 ^ 64 = size := Nat.mod_eq_of_lt hsize
    have hlt' : (rest c size).addr % 2 ^ 64 = (rest c size).addr := Nat.mod_eq_of_lt (by omega)
    refine Linked.seg_append.mpr ⟨c.addr, hpre.congr fun d hd => hsame (hcpre d hd) (hnpre d (by simp [hd])), h0,
      rfl, ?_, ?_⟩
    · rw [header_setFree, hblock, hlt]
    · rw [header_setFree, hblock, hlt']
      refine ⟨by omega, rfl, ?_, ?_⟩ <;> rw [header_setFree_of_clear hcn.symm, hrest]
      exact hpost.congr fun d hd => hsame (hcpost d (by simp [hd])) (hnpost d hd)

theorem seg_markFree (hs : Linked.Seg KBlock.addr (header m) a blocks e) {x : Nat}
    (hx : ∀ b ∈ blocks, b.addr = x ∨ Clear b.addr x) :
    Linked.Seg KBlock.addr (header (setFree m x true)) a (markFree x blocks) e := by
  induction blocks generalizing a with
  | nil => exact hs
  | cons b blocks ih =>
    obtain ⟨h0, rfl, hb, hs⟩ := hs
    have htail := ih hs fun c hc => hx c (List.mem_cons_of_mem b hc)
    unfold markFree at htail ⊢
    rw [List.map_cons]
    rcases hx b List.mem_cons_self with rfl | hclear
    · rw [if_pos rfl]
      refine ⟨h0, rfl, ?_, ?_⟩ <;> rw [header_setFree]
      · rw [hb]
      · exact htail
    · have hne : b.addr ≠ x := by
        unfold Clear at hclear
        omega
      rw [if_neg hne]
      refine ⟨h0, rfl, ?_, ?_⟩ <;> rw [header_setFree_of_clear hclear]
      · exact hb
      · exact htail

/-- Of two free blocks the first one takes in the second one. -/
theorem coalesceAt_free {b c : KBlock} (hb : (header m b.addr).1 = b) (hca : c.addr = (header m b.addr).2)
    (hc : (header m c.addr).1 = c) (hfree : b.free = true ∧ c.free = true) (hcb : Clear c.addr b.addr) :
    header (coalesceAt m b.addr) b.addr =
      ({ b with size := (b.size + 32 + c.size) % 2 ^ 64 }, (header m c.addr).2) ∧
    ∀ {x}, Clear x b.addr → header (coalesceAt m b.addr) x = header m x := by
  have hlt : (header m c.addr).2 % 2 ^ 64 = (header m c.addr).2 := Nat.mod_eq_of_lt (BitVec.isLt _)
  have hm : coalesceAt m b.addr = setNext (setSize m b.addr ((b.size + 32 + c.size) % 2 ^ 64)) b.addr
      (header m c.addr).2 := by
    unfold coalesceAt
    dsimp only
    rw [← hca, hb, hc, hfree.1, hfree.2, Bool.and_self, if_pos rfl, header_setSize_of_clear hcb, Nat.add_assoc]
  refine ⟨?_, fun hx => ?_⟩
  · rw [hm, header_setNext, header_setSize, hb, hlt, Nat.mod_mod]
  · rw [hm, header_setNext_of_clear hx, header_setSize_of_clear hx]

/-- `coalesce` writes to headers of the list only. -/
theorem coalesceFrom_eq {n : Nat} (hs : Linked.Seg KBlock.addr (header m) a blocks 0) (hc : HeadersClear blocks)
    (hn : blocks.length < n) :
    ∃ m', coalesceFrom n m a = .ok m' ∧ Linked.Seg KBlock.addr (header m') a (coalesce blocks) 0 ∧
      ∀ x, (∀ b ∈ blocks, Clear x b.addr) → header m' x = header m x := by
  obtain ⟨n, rfl⟩ : ∃ k, n = k + 1 := ⟨n - 1, by omega⟩
  induction blocks using coalesce.induct generalizing m a n with
  | case1 b c blocks hfree ih =>
    obtain ⟨h0, rfl, hb, hc0, hca, hcc, hs⟩ := hs
    rw [← hca] at hc0 hcc hs
    obtain ⟨n, rfl⟩ : ∃ k, n = k + 1 := ⟨n - 1, by simp only [List.length_cons] at hn; omega⟩
    have hclear : ∀ d ∈ c :: blocks, Clear d.addr b.addr := hc.tail
    obtain ⟨hhead, hsame⟩ := coalesceAt_free hb hca hcc hfree (hclear c List.mem_cons_self)
    obtain ⟨m', hm', hseg, hframe⟩ := ih (hs.congr fun d hd => hsame (hclear d (List.mem_cons_of_mem c hd)))
      (hc.of_sublist (((List.sublist_cons_self c blocks).trans (List.sublist_cons_self b _)).map _)) n
      (by simp only [List.length_cons] at hn; omega)
    have hkept : header m' b.addr = header (coalesceAt m b.addr) b.addr :=
      hframe _ fun d hd => (hclear d (List.mem_cons_of_mem c hd)).symm
    refine ⟨m', ?_, ?_, fun x hx => ?_⟩
    · rw [coalesceFrom, if_neg (by rw [← hca]; exact not_or_intro h0 hc0), hhead]
      exact hm'
    · rw [coalesce, if_pos hfree]
      refine ⟨h0, rfl, ?_, ?_⟩ <;> rw [hkept, hhead]
      exact hseg
    · rw [hframe x fun d hd => hx d (List.mem_cons_of_mem b (List.mem_cons_of_mem c hd)),
        hsame (hx b List.mem_cons_self)]
  | case2 b c blocks hfree ih =>
    obtain ⟨h0, rfl, hb, hs⟩ := hs
    obtain ⟨hc0, hca, hcc, -⟩ := id hs
    obtain ⟨n, rfl⟩ : ∃ k, n = k + 1 := ⟨n - 1, by simp only [List.length_cons] at hn; omega⟩
    have hm : coalesceAt m b.addr = m := by
      unfold coalesceAt
      dsimp only
      rw [hb, hcc, if_neg (by simpa using hfree)]
    obtain ⟨m', hm', hseg, hframe⟩ := ih hs (hc.of_sublist ((List.sublist_cons_self b _).map _)) n
      (by simp only [List.length_cons] at hn ⊢; omega)
    have hkept : header m' b.addr = header m b.addr := hframe _ fun d hd => (hc.tail d hd).symm
    refine ⟨m', ?_, ?_, fun x hx => hframe x fun d hd => hx d (List.mem_cons_of_mem b hd)⟩
    · rw [coalesceFrom, if_neg (not_or_intro h0 hc0), hm]
      exact hm'
    · rw [coalesce, if_neg hfree]
      refine ⟨h0, rfl, ?_, ?_⟩ <;> rw [hkept]
      · exact hb
      · exact hseg
  | case3 blocks hshort =>
    have hend : a = 0 ∨ (header m a).2 = 0 := by
      cases blocks with
      | nil => exact .inl hs
      | cons b blocks =>
        cases blocks with
        | nil => exact .inr hs.2.2.2
        | cons c blocks => exact absurd rfl (hshort b c blocks)
    refine ⟨m, if_pos hend, ?_, fun _ _ => rfl⟩
    rwa [coalesce.eq_2 _ hshort]

theorem map_addr_markFree (x : Nat) (blocks : List KBlock) :
    (markFree x blocks).map KBlock.addr = blocks.map KBlock.addr := by
  unfold markFree
  rw [List.map_map]
  refine List.map_congr_left fun b _ => ?_
  by_cases hb : b.addr = x <;> simp [hb]

theorem Lists.kfree {p : Nat} (hl : h.Lists blocks) (hc : HeadersClear blocks)
    (hptr : p ≠ 0 → ∀ b ∈ blocks, b.addr = p - 32 ∨ Clear b.addr (p - 32)) (ready : Bool) :
    ∃ h', h.kfree p = .ok h' ∧ h'.Lists (Heap.kfree ⟨blocks, ready⟩ p).blocks ∧ h'.ready = h.ready ∧
      h'.runs = h.runs := by
  unfold KHeap.kfree Heap.kfree
  by_cases h0 : p = 0
  · rw [if_pos h0, if_pos h0]
    exact ⟨h, rfl, hl, rfl, rfl⟩
  rw [if_neg h0, if_neg h0]
  have hmark := map_addr_markFree (p - 32) blocks
  obtain ⟨m, hm, hseg, -⟩ := coalesceFrom_eq (seg_markFree hl (hptr h0)) (hc.of_sublist (by rw [hmark]))
    (by simpa [markFree] using hc.length_lt)
  rw [hm]
  exact ⟨_, rfl, hseg, rfl, rfl⟩

theorem Lists.expandHeap (hl : h.Lists blocks) (hpage : page ≠ 0)
    (hc : HeadersClear (blocks ++ [expandBlock size page])) :
    ∃ h', h.expandHeap size page = .ok (page * 4096, h') ∧ h'.Lists (blocks ++ [expandBlock size page]) ∧
      h'.ready = h.ready ∧ h'.runs = h.runs ++ [expandRun size page] := by
  unfold KHeap.expandHeap
  rw [if_neg hpage]
  dsimp only
  generalize hm : setNext _ (page * 4096) 0 = m
  obtain ⟨hclear, -⟩ := hc.middle
  have hnew : header m (page * 4096) = (expandBlock size page, 0) := by
    rw [← hm, header_setNext, header_setFree, header_setSize, Nat.mod_mod]
    rfl
  have hold : ∀ b ∈ blocks, header m b.addr = header h.mem b.addr := fun b hb => by
    have hb : Clear b.addr (page * 4096) := hclear b hb
    rw [← hm, header_setNext_of_clear hb, header_setFree_of_clear hb, header_setSize_of_clear hb]
  have hseg : Linked.Seg KBlock.addr (header m) h.head blocks 0 := hl.congr hold
  rcases List.eq_nil_or_concat blocks with rfl | ⟨pre, c, rfl⟩
  · rw [if_pos (show h.head = 0 from hl)]
    have hne : page * 4096 ≠ 0 := by omega
    refine ⟨_, rfl, ⟨hne, rfl, ?_, ?_⟩, rfl, rfl⟩ <;> dsimp only <;> rw [hnew]
    rfl
  · rw [List.concat_eq_append] at hl hc hclear hold hseg ⊢
    have hhead : h.head ≠ 0 := by
      cases pre <;> exact hl.1
    have hlast := hseg.last (n := maxBlocks) (by have := hc.length_lt; simp at this; omega)
    rw [if_neg hhead, hlast]
    obtain ⟨x, hpre, h0, rfl, hcx, -⟩ := Linked.seg_append.mp hseg
    obtain ⟨hcpre, -⟩ := HeadersClear.middle (show HeadersClear (pre ++ c :: [expandBlock size page]) by simpa using hc)
    have hcn : Clear c.addr (page * 4096) := hclear c (by simp)
    have hin := hc.inside (expandBlock size page) (by simp)
    have hlt : page * 4096 % 2 ^ 64 = page * 4096 := Nat.mod_eq_of_lt (by simp only [expandBlock] at hin; omega)
    refine ⟨_, rfl, ?_, rfl, rfl⟩
    rw [List.append_assoc]
    refine Linked.seg_append.mpr ⟨c.addr, hpre.congr fun d hd => header_setNext_of_clear (hcpre d hd), h0,
      rfl, ?_, ?_⟩ <;>
      dsimp only <;> rw [header_setNext]
    · exact hcx
    · rw [hlt]
      refine ⟨by omega, rfl, ?_, ?_⟩ <;> rw [header_setNext_of_clear hcn.symm, hnew]
      rfl

theorem takeFit_cases (size : Nat) (blocks : List KBlock) :
    (blocks.find? (fun b => b.free && decide (b.size ≥ size)) = none ∧ takeFit size blocks = none) ∨
    ∃ pre c post, blocks = pre ++ c :: post ∧ blocks.find? (fun b => b.free && decide (b.size ≥ size)) = some c ∧
      takeFit size blocks = some ((c.addr + 32) % 2 ^ 64, pre ++ (Heap.claim (Heap.splitBlock c size) ++ post)) := by
  induction blocks with
  | nil => exact .inl ⟨rfl, rfl⟩
  | cons b blocks ih =>
    by_cases hb : b.free ∧ b.size ≥ size
    · refine .inr ⟨[], b, blocks, rfl, ?_, ?_⟩
      · simp [hb]
      · rw [takeFit, if_pos hb, List.nil_append]
    · have hskip : (b.free && decide (b.size ≥ size)) = false := by simpa using hb
      rw [List.find?_cons, hskip, takeFit, if_neg hb]
      rcases ih with ⟨hnone, ht⟩ | ⟨pre, c, post, rfl, hfind, ht⟩
      · exact .inl ⟨hnone, by rw [ht, Option.map_none]⟩
      · exact .inr ⟨b :: pre, c, post, rfl, hfind, by rw [ht, Option.map_some, List.cons_append]⟩

theorem alignUp_lt (size : Nat) : alignUp size 16 < 2 ^ 64 := by
  unfold alignUp
  omega

theorem Lists.kmalloc_runs (hl : h.Lists blocks) (hc : HeadersClear blocks) (hk : h.kmalloc size page = .ok (ptr, h'))
    (live : List (Nat × Nat)) : h'.runs = HeapRun.grow ⟨⟨blocks, h.ready⟩, h.runs, live⟩ size page := by
  have hfind := Linked.Seg.find hl (fun b => b.free && decide (b.size ≥ alignUp size 16)) hc.length_lt
  unfold KHeap.kmalloc at hk
  unfold HeapRun.grow needsPages
  split at hk
  · rename_i h0
    cases hk
    simp [h0]
  rename_i h0
  split at hk
  · cases hk
  dsimp only at hk
  rw [hfind] at hk
  rcases takeFit_cases (alignUp size 16) blocks with ⟨hnone, ht⟩ | ⟨pre, c, post, -, hsome, ht⟩
  · rw [hnone] at hk
    obtain ⟨⟨block, h₁⟩, he, hk⟩ := Result.of_bind_eq_ok hk
    unfold KHeap.expandHeap at he
    by_cases hp : page = 0
    · rw [if_pos hp] at he
      cases he
      cases hk
      simp [hp]
    · have hruns : h₁.runs = h.runs ++ [expandRun (alignUp size 16) page] := by
        rw [if_neg hp] at he
        dsimp only at he
        split at he
        · cases he
          rfl
        · split at he <;> cases he
          rfl
      have hkeep : h'.runs = h₁.runs := by
        split at hk <;> cases hk <;> rfl
      rw [hkeep, hruns]
      simp [h0, hp, ht]
  · rw [hsome] at hk
    cases hk
    simp [h0, ht]

theorem Lists.kmalloc (hl : h.Lists blocks) (hready : h.ready = true) (hc : HeadersClear blocks) {t : Heap}
    (hk : Heap.kmalloc ⟨blocks, true⟩ size page = .ok (ptr, t)) (hc' : HeadersClear t.blocks) :
    ∃ h', h.kmalloc size page = .ok (ptr, h') ∧ h'.Lists t.blocks ∧ h'.ready = true := by
  have hfind := Linked.Seg.find hl (fun b => b.free && decide (b.size ≥ alignUp size 16)) hc.length_lt
  have hlt := alignUp_lt size
  unfold Heap.kmalloc at hk
  unfold KHeap.kmalloc
  by_cases h0 : size = 0
  · rw [if_pos h0] at hk ⊢
    cases hk
    exact ⟨h, rfl, hl, hready⟩
  rw [if_neg h0, if_neg (by simp)] at hk
  rw [if_neg h0, if_neg (by simp [hready])]
  dsimp only at hk ⊢
  rw [hfind]
  rcases takeFit_cases (alignUp size 16) blocks with ⟨hnone, ht⟩ | ⟨pre, c, post, rfl, hsome, ht⟩
  · rw [ht] at hk
    rw [hnone]
    dsimp only at hk ⊢
    by_cases hp : page = 0
    · rw [if_pos hp] at hk
      cases hk
      rw [Option.map_none, KHeap.expandHeap, if_pos hp]
      exact ⟨h, rfl, hl, hready⟩
    · rw [if_neg hp] at hk
      obtain ⟨rfl, rfl⟩ := Prod.mk.inj (Except.ok.inj hk)
      dsimp only at hc' ⊢
      have hnew : HeadersClear (blocks ++ [expandBlock (alignUp size 16) page]) := by
        refine hc'.of_sublist ?_
        rcases splitBlock_cases (expandBlock (alignUp size 16) page) (alignUp size 16) with ⟨-, hs⟩ | ⟨-, hs⟩ <;>
          rw [hs] <;> simp
      obtain ⟨h₁, he, hl₁, hr₁, -⟩ := hl.expandHeap hp hnew
      have hne : page * 4096 ≠ 0 := by omega
      have hclaim := seg_claim hl₁ hlt (by simpa using hc')
      rw [List.append_nil] at hclaim
      rw [Option.map_none, he]
      exact ⟨(h₁.claim (page * 4096) (alignUp size 16)).2, if_neg hne, hclaim, hr₁.trans hready⟩
  · rw [ht] at hk
    rw [hsome]
    obtain ⟨rfl, rfl⟩ := Prod.mk.inj (Except.ok.inj hk)
    exact ⟨(h.claim c.addr (alignUp size 16)).2, rfl, seg_claim hl hlt hc', hready⟩

theorem exists_kmallocInit (m : Nat → Word) (page : Nat) (hpage : page ≠ 0) (hlt : page * 4096 + 8192 ≤ 2 ^ 64) :
    ∃ h, kmallocInit { mem := m, head := 0, ready := false, runs := [] } page = .ok h ∧
      h.Lists [⟨page * 4096, 8160, true⟩] ∧ h.ready = true ∧ h.runs = [expandRun 4096 page] := by
  have hblock : expandBlock 4096 page = ⟨page * 4096, 8160, true⟩ := by simp [expandBlock, expandBytes, alignUp]
  obtain ⟨h, he, hl, -, hr⟩ :=
    Lists.expandHeap (show KHeap.Lists { mem := m, head := 0, ready := false, runs := [] } [] from rfl) hpage
    (show HeadersClear [expandBlock 4096 page] by rw [hblock]; exact ⟨by simp, by simp; omega⟩)
  rw [hblock] at hl
  refine ⟨{ h with ready := true }, ?_, hl, rfl, hr⟩
  unfold kmallocInit
  rw [if_neg (by simp), he]
  exact if_neg (by omega)

theorem exists_smokeTests (m : Nat → Word) (page : Nat) (hpage : page ≠ 0) (hlt : page * 4096 + 8192 ≤ 2 ^ 64)
    (pages : Nat → Nat) :
    ∃ h₀ h₁, kmallocInit { mem := m, head := 0, ready := false, runs := [] } page = .ok h₀ ∧
      runHeapSmokeTests (fun size page h => kmalloc h size page) (fun size page h => kzalloc h size page)
        (fun ptr h => kfree h ptr) pages h₀ = .ok h₁ ∧
      h₁.Lists [⟨page * 4096, 960, true⟩, ⟨page * 4096 + 992, 7168, true⟩] ∧ h₁.ready = true ∧
        h₁.runs = [expandRun 4096 page] := by
  obtain ⟨h₀, hinit, hl₀, hready, hr₀⟩ := exists_kmallocInit m page hpage hlt
  generalize hbase : page * 4096 = base at *
  have hclear : HeadersClear [⟨base, 8160, true⟩] := ⟨by simp, by simp; omega⟩
  have hclear₁ : HeadersClear [⟨base, 32, false⟩, ⟨base + 64, 8096, true⟩] := ⟨by simp [Clear], by simp; omega⟩
  have hclear₂ : HeadersClear [⟨base, 32, false⟩, ⟨base + 64, 800, false⟩, ⟨base + 896, 7264, true⟩] :=
    ⟨by simp [Clear], by simp; omega⟩
  have hclear₃ (free : Bool) :
      HeadersClear [⟨base, 32, free⟩, ⟨base + 64, 800, false⟩, ⟨base + 896, 64, false⟩, ⟨base + 992, 7168, true⟩] :=
    ⟨by simp [Clear], by simp; omega⟩
  have hclear₅ : HeadersClear [⟨base, 864, true⟩, ⟨base + 896, 64, false⟩, ⟨base + 992, 7168, true⟩] :=
    ⟨by simp [Clear], by simp; omega⟩
  obtain ⟨hk₁, hk₂, hk₃, hf₁, hf₂, hf₃⟩ := smokeTests_blocks hlt pages
  obtain ⟨h₁, e₁, l₁, r₁⟩ := hl₀.kmalloc hready hclear hk₁ hclear₁
  obtain ⟨h₂, e₂, l₂, r₂⟩ := l₁.kmalloc r₁ hclear₁ hk₂ hclear₂
  obtain ⟨h₃, e₃, l₃, r₃⟩ := l₂.kmalloc r₂ hclear₂ hk₃ (hclear₃ false)
  -- the heap did not grow
  have hruns : h₃.runs = [expandRun 4096 page] := by
    rw [l₂.kmalloc_runs hclear₂ e₃ [], l₁.kmalloc_runs hclear₁ e₂ [], hl₀.kmalloc_runs hclear e₁ [], hr₀]
    simp [HeapRun.grow, needsPages, takeFit, alignUp]
  have l₃' : { h₃ with mem := fun a => if base + 928 ≤ a ∧ a < base + 928 + 64 then 0 else h₃.mem a }.Lists
      [⟨base, 32, false⟩, ⟨base + 64, 800, false⟩, ⟨base + 896, 64, false⟩, ⟨base + 992, 7168, true⟩] := by
    refine Linked.Seg.congr l₃ fun b hb => header_congr fun i hi hi' => if_neg ?_
    simp only [List.mem_cons, List.not_mem_nil, or_false] at hb
    rcases hb with rfl | rfl | rfl | rfl <;> dsimp only at hi hi' <;> omega
  obtain ⟨h₄, e₄, l₄, r₄, rs₄⟩ :=
    l₃'.kfree (p := base + 32) (hclear₃ false) (fun _ => (hclear₃ false).eq_or_clear (.head _)) true
  rw [hf₁] at l₄
  obtain ⟨h₅, e₅, l₅, r₅, rs₅⟩ :=
    l₄.kfree (p := base + 96) (hclear₃ true) (fun _ => (hclear₃ true).eq_or_clear (.tail _ (.head _))) true
  rw [hf₂] at l₅
  obtain ⟨h₆, e₆, l₆, r₆, rs₆⟩ :=
    l₅.kfree (p := base + 928) hclear₅ (fun _ => hclear₅.eq_or_clear (.tail _ (.head _))) true
  rw [hf₃] at l₆
  have e₃' : h₂.kzalloc 64 (pages 2) =
      .ok (base + 928, { h₃ with mem := fun a => if base + 928 ≤ a ∧ a < base + 928 + 64 then 0 else h₃.mem a }) := by
    have hne : base + 928 ≠ 0 := by omega
    unfold kzalloc
    rw [e₃]
    simp only [bind, Except.bind]
    rw [if_neg hne]
  exact ⟨h₀, h₆, hinit, runHeapSmokeTests_eq (by omega) e₁ e₂ e₃' e₄ e₅ e₆, l₆, r₆.trans (r₅.trans (r₄.trans r₃)),
    rs₆.trans (rs₅.trans (rs₄.trans hruns))⟩

/-! ### New stacks -/

/-- What is left of the list under a new stack, which is cleared up to its initial frame: a header there becomes the
    last one. -/
def wipe (stack : Nat) : List KBlock → Option (List KBlock)
  | [] => some []
  | b :: blocks =>
    if b.addr + 32 ≤ stack ∨ stack + 16384 ≤ b.addr then (wipe stack blocks).map (b :: ·)
    else if stack ≤ b.addr ∧ b.addr + 32 ≤ stack + 16208 then some [{ addr := b.addr, size := 0, free := false }]
    else none

theorem wipe_of_clear (hb : ∀ b ∈ blocks, b.addr + 32 ≤ a ∨ a + 16384 ≤ b.addr) : wipe a blocks = some blocks := by
  induction blocks with
  | nil => rfl
  | cons b blocks ih =>
    rw [wipe, if_pos (hb b List.mem_cons_self), ih fun c hc => hb c (List.mem_cons_of_mem b hc), Option.map_some]

theorem Lists.newStack (hl : h.Lists blocks) (ha : ptr % 16 = 0) (hlt : ptr + 16384 ≤ 2 ^ 64) (f : InterruptFrame)
    {blocks' : List KBlock} (hw : wipe ptr blocks = some blocks') :
    { h with mem := Context.newStack h.mem ptr f }.Lists blocks' := by
  have hrsp : Sched.initialRsp ptr = ptr + 16208 := by
    unfold Sched.initialRsp Sched.stackTop
    omega
  unfold Lists at hl ⊢
  dsimp only
  generalize h.head = a at hl ⊢
  induction blocks generalizing a blocks' with
  | nil =>
    obtain rfl : [] = blocks' := Option.some.inj hw
    exact (show a = 0 from hl)
  | cons b blocks ih =>
    obtain ⟨h0, rfl, hb, hl⟩ := hl
    rw [wipe] at hw
    split at hw
    · rename_i hclear
      obtain ⟨rest, hrest, rfl⟩ := Option.map_eq_some_iff.mp hw
      have hsame : header (Context.newStack h.mem ptr f) b.addr = header h.mem b.addr := header_congr fun i _ _ => by
        unfold Context.newStack
        rw [hrsp, InterruptFrame.store_of_outside (by unfold InterruptFrame.size; omega), if_neg (by omega)]
      refine ⟨h0, rfl, ?_, ?_⟩ <;> rw [hsame]
      · exact hb
      · exact ih hrest _ hl
    · split at hw
      · rename_i hin
        cases hw
        have hzero (i : Nat) (hi : b.addr ≤ i) (hi' : i < b.addr + 32) : Context.newStack h.mem ptr f i = 0 := by
          unfold Context.newStack
          rw [hrsp, InterruptFrame.store_of_outside (by omega), if_pos (by omega)]
        have hheader : header (Context.newStack h.mem ptr f) b.addr =
            ({ addr := b.addr, size := 0, free := false }, 0) := by
          unfold header
          rw [hzero _ (by omega) (by omega), hzero _ (by omega) (by omega), hzero _ (by omega) (by omega)]
          rfl
        refine ⟨h0, rfl, ?_, ?_⟩ <;> rw [hheader]
        rfl
      · cases hw

end Lists

end KHeap
end SamOS
