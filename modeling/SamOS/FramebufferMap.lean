import SamOS.KernelMap
import SamOS.Lib.Logged

/-! The framebuffer under the tables of the bootloader. `efi_main` counts the GiB up to the end of the framebuffer and
    one more, has pages for 28 of them, and takes the size of the framebuffer in 32 bits; `clear_framebuffer` then
    writes to every pixel before the kernel has an interrupt table. -/

namespace SamOS
open Paging Loop

/-- `gop->Mode`: `FrameBufferBase`, and what the tables depend on in `Info`. -/
structure GopMode where
  frameBufferBase : BitVec 64
  verticalResolution : BitVec 32
  pixelsPerScanLine : BitVec 32
  deriving DecidableEq, Repr

namespace GopMode

/-- The `BootInfo` that `efi_main` fills. -/
def bootInfo (mode : GopMode) (memoryMap : List Descriptor) (rsdp : Nat) : BootInfo where
  framebuffer := mode.frameBufferBase.toNat
  height := mode.verticalResolution.toNat
  pixelsPerScanline := mode.pixelsPerScanLine.toNat
  memoryMap := memoryMap
  rsdp := rsdp

/-- The bytes of the framebuffer. -/
def size (mode : GopMode) : Nat := mode.verticalResolution.toNat * mode.pixelsPerScanLine.toNat * 4

end GopMode

/-- A store of 32 bits. -/
structure PixelStore where
  addr : Nat
  color : BitVec 32

/-- `clear_framebuffer`, with its stores; `y * pixels_per_scanline` is taken in 32 bits. -/
def clearFramebuffer (boot : BootInfo) : Logged PixelStore Unit :=
  Logged.forRange 0 boot.height (fun y _ =>
    Logged.forRange 0 boot.pixelsPerScanline (fun x _ =>
      Logged.note ⟨(boot.framebuffer + (y * boot.pixelsPerScanline % 2 ^ 32 + x) * 4) % 2 ^ 64, 0x00303030#32⟩) ()) ()

namespace Bootloader

/-- What the kernel relies on when it is entered with the tables `m` that were built over `mem`. -/
structure Covers (boot : BootInfo) (mem m : Mem) (pml4 : Nat) : Prop where
  framebuffer : ∀ a, boot.framebuffer ≤ a → a < boot.framebuffer + boot.height * boot.pixelsPerScanline * 4 →
    m.Maps pml4 a a
  low : ∀ a < 2 ^ 30, m.Maps pml4 a a
  high : ∀ o < 2 ^ 30, m.Maps pml4 (kernelVirtBase + o) o
  tables : ∀ va n t, m.tableAt pml4 va n = some t → Reserved t
  outside : ∀ f, ¬Reserved f → m f = mem f
  clears : (clearFramebuffer boot).All fun w => ∀ k < 4, m.Maps pml4 (w.addr + k) (w.addr + k)

/-! ### What the tables map -/

namespace Built
variable {n va : Nat} {m : Mem}

theorem maps_low (h : Built n m) (hn : n ≤ 28) (h0 : pageIndex 0 va = 0) (h1 : pageIndex 1 va < n) :
    m.Maps ptBase va (va % 0x8000000000) := by
  have hi := pageIndex_lt 2 va
  rw [← KernelMap.pd_address va]
  exact maps_leaf (by rw [h.pml4, if_pos h0]) (by rw [h.pdptLow, if_pos h1]) (h.pd _ h1 _ hi) (by decide)
    (by unfold ptBase; omega)
    (by omega)

theorem walk_none (h : Built n m) (hlow : ¬(pageIndex 0 va = 0 ∧ pageIndex 1 va < n))
    (hhigh : ¬(pageIndex 0 va = 511 ∧ pageIndex 1 va = 510)) : m.hardwareWalk ptBase va = none := by
  by_cases h0 : pageIndex 0 va = 0
  · exact Mem.hardwareWalk_no_pd (by rw [h.pml4, if_pos h0])
      (by rw [h.pdptLow, if_neg fun h1 => hlow ⟨h0, h1⟩]) (by decide)
  by_cases h511 : pageIndex 0 va = 511
  · exact Mem.hardwareWalk_no_pd (by rw [h.pml4, if_neg h0, if_pos h511])
      (by rw [h.pdptHi, if_neg fun h1 => hhigh ⟨h511, h1⟩]) (by decide)
  · exact Mem.hardwareWalk_no_pdpt (by rw [h.pml4, if_neg h0, if_neg h511])

theorem maps_self_iff (h : Built n m) (hn : n ≤ 28) : m.Maps ptBase va va ↔ va < n * 2 ^ 30 := by
  constructor
  · rintro ⟨hwalk, -⟩
    by_cases hlow : pageIndex 0 va = 0 ∧ pageIndex 1 va < n
    · have heq : va % 0x8000000000 = va := by
        rw [(h.maps_low hn hlow.1 hlow.2).1] at hwalk
        exact congrArg Prod.fst (Option.some.inj hwalk)
      have h1 := hlow.2
      simp only [pageIndex] at h1
      omega
    by_cases hhigh : pageIndex 0 va = 511 ∧ pageIndex 1 va = 510
    · have heq : va % 0x40000000 = va := by
        rw [(h.maps_high hhigh.1 hhigh.2).1] at hwalk
        exact congrArg Prod.fst (Option.some.inj hwalk)
      have h0 := hhigh.1
      simp only [pageIndex] at h0
      omega
    · rw [h.walk_none hlow hhigh] at hwalk
      cases hwalk
  · intro hva
    have hmaps : m.Maps ptBase va _ := h.maps_low hn (by simp only [pageIndex]; omega) (by simp only [pageIndex]; omega)
    rwa [Nat.mod_eq_of_lt (by omega)] at hmaps

/-- The table that a walk has come to after `k` levels. -/
inductive Node (n : Nat) : Nat → Nat → Prop where
  | pml4 : Node n 0 ptBase
  | pdptLow : Node n 1 (ptBase + 1)
  | pdptHi : Node n 1 (ptBase + 2)
  | pd {p : Nat} (hp : p < n) : Node n 2 (ptBase + 4 + p)
  | pdHi : Node n 2 (ptBase + 3)

variable {k t : Nat}

theorem Node.reserved (hn : n ≤ 28) (h : Node n k t) : Reserved t := by
  unfold Reserved
  cases h <;> omega

theorem node_link (h : Built n m) (hn : n ≤ 28) {g : Nat} (ht : Node n k t)
    (hl : link k (m t (pageIndex k va)) = some g) :
    Node n (k + 1) g := by
  have hzero : link k 0 ≠ some g := by simp [link, Word.present]
  have hhuge (c : Nat) : link 2 (entry c 0x83#64) ≠ some g := by
    rw [Ne, link_eq_some, huge_entry]
    exact fun hc => hc.2.1 ⟨rfl, by decide⟩
  have hentry (x : Nat) (hx : x < 2 ^ 40) (he : m t (pageIndex k va) = entry x 3#64) : g = x := by
    rw [he, link_entry hx] at hl
    exact (Option.some.inj hl).symm
  cases ht with
  | pml4 =>
    rw [h.pml4] at hl hentry
    split at hl
    · rename_i h0
      rw [hentry (ptBase + 1) (by decide) (if_pos h0)]
      exact .pdptLow
    split at hl
    · rename_i h0 h511
      rw [hentry (ptBase + 2) (by decide) (by rw [if_neg h0, if_pos h511])]
      exact .pdptHi
    · exact absurd hl hzero
  | pdptLow =>
    rw [h.pdptLow] at hl hentry
    split at hl
    · rename_i hp
      rw [hentry (ptBase + 4 + _) (by unfold ptBase; omega) (if_pos hp)]
      exact .pd hp
    · exact absurd hl hzero
  | pdptHi =>
    rw [h.pdptHi] at hl hentry
    split at hl
    · rename_i h510
      rw [hentry (ptBase + 3) (by decide) (if_pos h510)]
      exact .pdHi
    · exact absurd hl hzero
  | pd hp =>
    rw [h.pd _ hp _ (pageIndex_lt 2 va)] at hl
    exact absurd hl (hhuge _)
  | pdHi =>
    rw [h.pdHi _ (pageIndex_lt 2 va)] at hl
    exact absurd hl (hhuge _)

theorem tableAt_reserved (h : Built n m) (hn : n ≤ 28) (ht : m.tableAt ptBase va k = some t) : Reserved t := by
  suffices hnode : Node n k t from hnode.reserved hn
  induction k generalizing t with
  | zero =>
    cases ht
    exact .pml4
  | succ k ih =>
    obtain ⟨t', ht', hl⟩ := Mem.tableAt_eq_some ht
    exact h.node_link hn (ih ht') hl

end Built

/-! ### The size of the map -/

/-- The GiB that are counted are enough for a framebuffer below 28 GiB whose size fits 32 bits. -/
theorem numPdpt_covers_iff (mode : GopMode) (memoryMap : List Descriptor) (rsdp : Nat) :
    0 < numPdpt (mode.bootInfo memoryMap rsdp) ∧
        (0 < mode.size → mode.frameBufferBase.toNat + mode.size ≤ numPdpt (mode.bootInfo memoryMap rsdp) * 2 ^ 30) ↔
      (0 < mode.size ∧ mode.size < 2 ^ 32 ∧ mode.frameBufferBase.toNat + mode.size ≤ 28 * 2 ^ 30) ∨
      (mode.size = 0 ∧ ¬(2 ^ 64 - 2 ^ 31 < mode.frameBufferBase.toNat ∧
        mode.frameBufferBase.toNat ≤ 2 ^ 64 - 2 ^ 30)) := by
  have hbase := mode.frameBufferBase.isLt
  have hend : framebufferEnd (mode.bootInfo memoryMap rsdp) = (mode.frameBufferBase.toNat + mode.size % 2 ^ 32) %
    2 ^ 64 := rfl
  unfold numPdpt
  rw [hend]
  generalize mode.frameBufferBase.toNat = base at hbase ⊢
  generalize mode.size = size
  dsimp only
  rcases Nat.eq_zero_or_pos size with rfl | hsize
  · split <;> omega
  · split <;> omega

/-! ### The stores of `clear_framebuffer` -/

/-- Every store is to a pixel of the framebuffer, also where the product wraps. -/
theorem clearFramebuffer_pixels (boot : BootInfo) : (clearFramebuffer boot).All fun w =>
    ∃ i < boot.height * boot.pixelsPerScanline, w.addr = (boot.framebuffer + i * 4) % 2 ^ 64 := by
  refine Logged.all_forRange (I := fun _ _ => True) trivial fun y _ _ hy _ => ⟨?_, trivial⟩
  refine Logged.all_forRange (I := fun _ _ => True) trivial fun x _ _ hx _ =>
    ⟨Logged.all_note.mpr ⟨_, ?_, rfl⟩, trivial⟩
  calc y * boot.pixelsPerScanline % 2 ^ 32 + x
      < y * boot.pixelsPerScanline + boot.pixelsPerScanline := Nat.add_lt_add_of_le_of_lt (Nat.mod_le _ _) hx
    _ = (y + 1) * boot.pixelsPerScanline := (Nat.succ_mul _ _).symm
    _ ≤ boot.height * boot.pixelsPerScanline := Nat.mul_le_mul_right _ hy

theorem first_mem_clearFramebuffer {boot : BootInfo} (hh : 0 < boot.height) (hp : 0 < boot.pixelsPerScanline) :
    ⟨boot.framebuffer % 2 ^ 64, 0x00303030#32⟩ ∈ (clearFramebuffer boot).log := by
  refine Logged.mem_log_forRange (i := 0) (Nat.le_refl 0) hh fun _ => Logged.mem_log_forRange (i := 0)
    (Nat.le_refl 0) hp fun _ => ?_
  rw [Logged.log_note, Nat.zero_mul]
  exact List.mem_singleton_self _

/-- With `n` GiB of the identity map the kernel has what it relies on if that is at least the first one, and as much
    as ends the framebuffer. -/
theorem Built.covers_iff {boot : BootInfo} {mem m : Mem} {n : Nat} (h : Built n m) (hn : n ≤ 28)
    (houtside : ∀ f, ¬Reserved f → m f = mem f) :
    Covers boot mem m ptBase ↔ 0 < n ∧ (0 < boot.height * boot.pixelsPerScanline * 4 →
      boot.framebuffer + boot.height * boot.pixelsPerScanline * 4 ≤ n * 2 ^ 30) := by
  have hself (a : Nat) : m.Maps ptBase a a ↔ a < n * 2 ^ 30 := h.maps_self_iff hn
  constructor
  · intro hc
    have hfirst := (hself 0).mp (hc.low 0 (by decide))
    refine ⟨by omega, fun hsize => ?_⟩
    have hlast := (hself _).mp (hc.framebuffer (boot.framebuffer + (boot.height * boot.pixelsPerScanline * 4 - 1))
      (by omega) (by omega))
    omega
  · rintro ⟨hpos, hfits⟩
    refine ⟨fun a ha hlt => (hself a).mpr ?_, fun a ha => (hself a).mpr (by omega), fun o ho => h.maps_kernel ho,
      fun va k t ht => h.tableAt_reserved hn ht, houtside, fun w hw k hk => (hself _).mpr ?_⟩
    · have hend := hfits (by omega)
      omega
    · obtain ⟨i, hi, haddr⟩ := clearFramebuffer_pixels boot w hw
      have hend := hfits (by omega)
      omega

/-- The tables of the bootloader cover the framebuffer and the first GiB, so that the kernel can clear the screen,
    exactly if the framebuffer has pixels, less than 4 GiB of them, and ends at 28 GiB or below; or if it has none,
    and its base is not in the GiB that the rounding takes to `2 ^ 64`. -/
theorem boot_tables_cover_iff (mode : GopMode) (memoryMap : List Descriptor) (rsdp : Nat) (mem : Mem) :
    Covers (mode.bootInfo memoryMap rsdp) mem (buildTables (mode.bootInfo memoryMap rsdp) mem).2
        (buildTables (mode.bootInfo memoryMap rsdp) mem).1 ↔
      (0 < mode.size ∧ mode.size < 2 ^ 32 ∧ mode.frameBufferBase.toNat + mode.size ≤ 28 * 2 ^ 30) ∨
      (mode.size = 0 ∧ ¬(2 ^ 64 - 2 ^ 31 < mode.frameBufferBase.toNat ∧
        mode.frameBufferBase.toNat ≤ 2 ^ 64 - 2 ^ 30)) := by
  obtain ⟨hbuilt, houtside⟩ := buildTables_built (mode.bootInfo memoryMap rsdp) mem
  exact (hbuilt.covers_iff (numPdpt_le _) houtside).trans (numPdpt_covers_iff mode memoryMap rsdp)

/-- A screen of 1024 by 768 pixels at 32 GiB: the first store of `clear_framebuffer` goes to an address that is not
    mapped. -/
theorem boot_tables_miss_framebuffer :
    ∃ (mode : GopMode) (boot : BootInfo), mode = ⟨0x800000000, 768, 1024⟩ ∧ boot = mode.bootInfo [] 0 ∧
    ⟨0x800000000, 0x00303030#32⟩ ∈ (clearFramebuffer boot).log ∧
    ∀ mem, (buildTables boot mem).2.hardwareWalk (buildTables boot mem).1 0x800000000 = none := by
  refine ⟨_, _, rfl, rfl, first_mem_clearFramebuffer (by decide) (by decide), fun mem => ?_⟩
  refine (buildTables_built _ mem).1.walk_none (fun h => ?_) fun h => ?_
  · have hn := numPdpt_le (GopMode.bootInfo ⟨0x800000000, 768, 1024⟩ [] 0)
    have h1 : pageIndex 1 0x800000000 = 32 := by decide
    omega
  · exact absurd h.1 (by decide)

end Bootloader
end SamOS
