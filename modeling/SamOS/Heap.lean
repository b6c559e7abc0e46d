import Mathlib.Algebra.Group.Nat.Defs
import Mathlib.Data.List.Basic

/-! The kernel heap (`kmalloc.c`): a linked list of blocks, each a 32-byte `KBlock` header followed by its payload.
    The list is modelled by its blocks in link order; `heap_head` is the first one. All sums are those of
    `uint64_t`. -/

namespace SamOS

/-- A `KBlock`: the address of its header, `size` and `free`. `next` is the block after it in the list. -/
structure KBlock where
  addr : Nat
  size : Nat
  free : Bool
  deriving DecidableEq, Repr

/-- The static state of `kmalloc.c`. -/
structure Heap where
  blocks : List KBlock
  ready : Bool
  deriving DecidableEq, Repr

namespace Heap

/-- `align_up`, for a power of two `align`. -/
def alignUp (value align : Nat) : Nat := (value + align - 1) % 2 ^ 64 / align * align

/-- `split_block`: the blocks that stand for `block` afterwards. If `size` is larger than `block->size`, the new
    header lies over the old one; of the two, only `block->size` then is what memory holds. -/
def splitBlock (block : KBlock) (size : Nat) : List KBlock :=
  let remaining := (block.size + 2 ^ 64 - size) % 2 ^ 64
  if remaining ≤ 32 + 16 then [block]
  else
    [{ block with size := size },
      { addr := (block.addr + 32 + size) % 2 ^ 64, size := remaining - 32, free := true }]

/-- `block->free = 0`, after the split. -/
def claim : List KBlock → List KBlock
  | [] => []
  | block :: rest => { block with free := false } :: rest

/-- The search of `kmalloc`: the list with the first fitting block split and claimed, and its payload. -/
def takeFit (size : Nat) : List KBlock → Option (Nat × List KBlock)
  | [] => none
  | block :: rest =>
    if block.free ∧ block.size ≥ size then
      some ((block.addr + 32) % 2 ^ 64, claim (splitBlock block size) ++ rest)
    else
      (takeFit size rest).map fun (ptr, blocks) => (ptr, block :: blocks)

/-- `total` of `expand_heap(size)`. -/
def expandBytes (size : Nat) : Nat := alignUp ((size + 32) % 2 ^ 64) 4096

/-- The number of pages `expand_heap(size)` asks the PMM for. -/
def expandPages (size : Nat) : Nat := expandBytes size / 4096

/-- The block that `expand_heap(size)` makes of the run of pages that starts at page `page`. -/
def expandBlock (size page : Nat) : KBlock :=
  { addr := page * 4096, size := (expandBytes size + 2 ^ 64 - 32) % 2 ^ 64, free := true }

/-- `kmalloc`, where `page` is what `pmm_alloc_pages` returns if the heap has to grow (`0` for `NULL`). -/
def kmalloc (h : Heap) (size page : Nat) : Except String (Nat × Heap) :=
  if size = 0 then .ok (0, h)
  else if ¬h.ready then .error "kmalloc: heap used before kmalloc_init"
  else
    let size := alignUp size 16
    match takeFit size h.blocks with
    | some (ptr, blocks) => .ok (ptr, { h with blocks })
    | none =>
      if page = 0 then .ok (0, h)
      else
        let block := expandBlock size page
        .ok ((block.addr + 32) % 2 ^ 64, { h with blocks := h.blocks ++ claim (splitBlock block size) })

/-- Whether `kmalloc(size)` calls `expand_heap`. -/
def needsPages (h : Heap) (size : Nat) : Bool :=
  size ≠ 0 ∧ (takeFit (alignUp size 16) h.blocks).isNone

/-- `coalesce`: one pass that merges a free block with a free successor, and goes on after the successor. -/
def coalesce : List KBlock → List KBlock
  | block :: next :: rest =>
    if block.free ∧ next.free then
      { block with size := (block.size + 32 + next.size) % 2 ^ 64 } :: coalesce rest
    else block :: coalesce (next :: rest)
  | blocks => blocks

/-- `block->free = 1` for the block whose header is at `addr`. -/
def markFree (addr : Nat) (blocks : List KBlock) : List KBlock :=
  blocks.map fun block => if block.addr = addr then { block with free := true } else block

def kfree (h : Heap) (ptr : Nat) : Heap :=
  if ptr = 0 then h else { h with blocks := coalesce (markFree (ptr - 32) h.blocks) }

/-- `kmalloc_init`, where `page` is what `pmm_alloc_pages` returns to `expand_heap(PAGE_SIZE)`. -/
def kmallocInit (h : Heap) (page : Nat) : Except String Heap :=
  if h.ready then .ok h
  else if page = 0 then .error "kmalloc: initial heap allocation failed"
  else .ok { blocks := h.blocks ++ [expandBlock 4096 page], ready := true }

/-- `run_heap_smoke_tests` of `kernel.c` over the functions of a heap, where `page i` is what `pmm_alloc_pages`
    returns should call `i` make the heap grow. `kzalloc` has cleared the bytes that are checked. -/
def runHeapSmokeTests {σ : Type} (kmalloc kzalloc : Nat → Nat → σ → Except String (Nat × σ))
    (kfree : Nat → σ → Except String σ) (page : Nat → Nat) (s : σ) : Except String σ := do
  let (small, s) ← kmalloc 24 (page 0) s
  let (medium, s) ← kmalloc 800 (page 1) s
  let (zeroed, s) ← kzalloc 64 (page 2) s
  if small = 0 then throw "heap smoke test: small allocation failed"
  if medium = 0 then throw "heap smoke test: medium allocation failed"
  if zeroed = 0 then throw "heap smoke test: zeroed allocation failed"
  if small % 16 ≠ 0 then throw "heap smoke test: small allocation alignment failed"
  if medium % 16 ≠ 0 then throw "heap smoke test: medium allocation alignment failed"
  let s ← kfree small s
  let s ← kfree medium s
  kfree zeroed s

end Heap
end SamOS
