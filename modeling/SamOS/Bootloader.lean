import SamOS.Paging
import SamOS.Lib.Loop

/-! The page tables that the bootloader builds before it jumps to the kernel (`efi_main` in `bootloader.c`): 32 pages
    at a fixed address, an identity map of as many GiB as the framebuffer needs, and the first GiB again in the higher
    half. -/

namespace SamOS.Bootloader
open Loop Paging

/-- `pt_base`, as a page number. -/
def ptBase : Nat := 0x600

/-- `num_pdpt`: the GiB up to the end of the framebuffer and one more, at most 28. -/
def numPdpt (boot : BootInfo) : Nat :=
  let mapTop := (framebufferEnd boot + 0x3FFFFFFF) % 2 ^ 64 / 0x40000000 * 0x40000000
  let mapTop := (mapTop + 0x40000000) % 2 ^ 64
  if mapTop / 0x40000000 > 28 then 28 else mapTop / 0x40000000

/-- The 32 zeroed pages. -/
def zeroTables (m : Mem) : Mem := forRange 0 32 (fun i m => m.zeroPage (ptBase + i)) m

/-- A page directory of 2 MiB pages from physical address `base` on. -/
def fillPd (pd base : Nat) (m : Mem) : Mem :=
  forRange 0 512 (fun i m => m.write pd i (BitVec.ofNat 64 (base + i * 0x200000) ||| 0x83#64)) m

/-- The page directories of the identity map. -/
def fillIdentity (numPdpt : Nat) (m : Mem) : Mem :=
  forRange 0 numPdpt (fun p m => fillPd (ptBase + 4 + p) (p * 0x40000000)
    (m.write (ptBase + 1) p (entry (ptBase + 4 + p) 0x3#64))) m

/-- The tables of `efi_main`, and the page of `boot_pml4`. -/
def buildTables (boot : BootInfo) (mem : Mem) : Nat × Mem :=
  let m := zeroTables mem
  let m := m.write ptBase 0 (entry (ptBase + 1) 0x3#64)
  let m := fillIdentity (numPdpt boot) m
  let m := m.write ptBase 511 (entry (ptBase + 2) 0x3#64)
  let m := m.write (ptBase + 2) 510 (entry (ptBase + 3) 0x3#64)
  (ptBase, fillPd (ptBase + 3) 0 m)

/-! ### What the tables hold -/

theorem fillPd_spec (pd base : Nat) (m : Mem) :
    (∀ f, f ≠ pd → fillPd pd base m f = m f) ∧
    ∀ i < 512, fillPd pd base m pd i = BitVec.ofNat 64 (base + i * 0x200000) ||| 0x83#64 := by
  have h := forRange_invariant (f := fun i m => Mem.write m pd i (BitVec.ofNat 64 (base + i * 0x200000) ||| 0x83#64))
    (s := m)
    (P := fun n (m' : Mem) => (∀ f, f ≠ pd → m' f = m f) ∧
      ∀ i < n, m' pd i = BitVec.ofNat 64 (base + i * 0x200000) ||| 0x83#64) (Nat.zero_le 512) ⟨fun _ _ => rfl,
        fun i hi => by omega⟩ ?_
  · exact h
  · rintro n m' - - ⟨hsame, hpd⟩
    refine ⟨fun f hf => (Mem.write_of_ne _ _ _ hf).trans (hsame f hf), fun i hi => ?_⟩
    rw [Mem.write_apply]
    split
    · rename_i hin
      rw [hin.2]
    · rename_i hne
      exact hpd i (by omega)

/-- A page of the 32 at `pt_base`. -/
def Reserved (f : Nat) : Prop := ptBase ≤ f ∧ f < ptBase + 32

theorem zeroTables_apply (m : Mem) (f : Nat) :
    zeroTables m f = if ptBase ≤ f ∧ f < ptBase + 32 then fun _ => 0 else m f := by
  refine forRange_invariant (P := fun n (t : Mem) => t f = if ptBase ≤ f ∧ f < ptBase + n then fun _ => 0 else m f)
    (Nat.zero_le 32)
    (by rw [if_neg (by omega)]) fun n t _ _ ht => ?_
  by_cases hf : f = ptBase + n
  · rw [hf, if_pos (by omega)]
    exact funext fun i => Mem.zeroPage_same t (ptBase + n) i
  · rw [Mem.zeroPage_of_ne t hf, ht]
    exact if_congr (by omega) rfl rfl

/-- The page directories of the first `n` GiB. -/
structure Identity (n : Nat) (m m' : Mem) : Prop where
  pdpt : ∀ i, m' (ptBase + 1) i = if i < n then entry (ptBase + 4 + i) 3#64 else m (ptBase + 1) i
  pd : ∀ p < n, ∀ i < 512, m' (ptBase + 4 + p) i = entry ((p * 512 + i) * 512) 0x83#64
  same : ∀ f, f ≠ ptBase + 1 → f < ptBase + 4 ∨ ptBase + 4 + n ≤ f → m' f = m f

theorem identity_fillIdentity (n : Nat) (m : Mem) : Identity n m (fillIdentity n m) := by
  refine forRange_invariant (P := fun n t => Identity n m t) (Nat.zero_le n) ⟨fun i => ?_,
    fun p hp => absurd hp (Nat.not_lt_zero p), fun _ _ _ => rfl⟩ fun n t _ _ ht => ?_
  · rw [if_neg (Nat.not_lt_zero i)]
  obtain ⟨hother, hpd⟩ := fillPd_spec (ptBase + 4 + n) (n * 0x40000000)
    (t.write (ptBase + 1) n (entry (ptBase + 4 + n) 0x3#64))
  refine ⟨fun i => ?_, fun p hp i hi => ?_, fun f h1 hf => ?_⟩
  · rw [hother _ (by omega), Mem.write_apply, ht.pdpt]
    by_cases hin : i = n
    · rw [if_pos ⟨rfl, hin⟩, if_pos (by omega), hin]
    · rw [if_neg fun h => hin h.2]
      exact if_congr (by omega) rfl rfl
  · by_cases hpn : p = n
    · rw [hpn, hpd i hi]
      exact congrArg (fun a => BitVec.ofNat 64 a ||| 0x83#64) (by omega)
    · rw [hother _ (by omega), Mem.write_of_ne _ _ _ (by omega)]
      exact ht.pd p (by omega) i hi
  · rw [hother f (by omega), Mem.write_of_ne _ _ _ h1]
    exact ht.same f h1 (by omega)

/-- The tables of `efi_main` with `n` GiB of the identity map. -/
structure Built (n : Nat) (m : Mem) : Prop where
  pml4 : ∀ i, m ptBase i = if i = 0 then entry (ptBase + 1) 3#64 else if i = 511 then entry (ptBase + 2) 3#64 else 0
  pdptLow : ∀ i, m (ptBase + 1) i = if i < n then entry (ptBase + 4 + i) 3#64 else 0
  pdptHi : ∀ i, m (ptBase + 2) i = if i = 510 then entry (ptBase + 3) 3#64 else 0
  pd : ∀ p < n, ∀ i < 512, m (ptBase + 4 + p) i = entry ((p * 512 + i) * 512) 0x83#64
  pdHi : ∀ i < 512, m (ptBase + 3) i = entry (i * 512) 0x83#64

theorem numPdpt_le (boot : BootInfo) : numPdpt boot ≤ 28 := by
  unfold numPdpt
  dsimp only
  split <;> omega

theorem buildTables_built (boot : BootInfo) (mem : Mem) :
    Built (numPdpt boot) (buildTables boot mem).2 ∧ ∀ f, ¬Reserved f → (buildTables boot mem).2 f = mem f := by
  have hle := numPdpt_le boot
  unfold buildTables
  dsimp only
  generalize numPdpt boot = n at hle ⊢
  have hzero (f : Nat) (hf : Reserved f) : zeroTables mem f = fun _ => 0 := by
    rw [zeroTables_apply]
    exact if_pos hf
  have hid := identity_fillIdentity n ((zeroTables mem).write ptBase 0 (entry (ptBase + 1) 0x3#64))
  generalize fillIdentity n ((zeroTables mem).write ptBase 0 (entry (ptBase + 1) 0x3#64)) = t at hid
  obtain ⟨hother, hpd⟩ := fillPd_spec (ptBase + 3) 0
    ((t.write ptBase 511 (entry (ptBase + 2) 0x3#64)).write (ptBase + 2) 510 (entry (ptBase + 3) 0x3#64))
  unfold Reserved at *
  refine ⟨⟨fun i => ?_, fun i => ?_, fun i => ?_, fun p hp i hi => ?_, fun i hi => ?_⟩, fun f hf => ?_⟩
  · rw [hother _ (by omega), Mem.write_of_ne _ _ _ (by omega), Mem.write_apply, hid.same _ (by omega) (by omega),
      Mem.write_apply, hzero ptBase (by omega)]
    by_cases h511 : i = 511
    · rw [if_pos ⟨rfl, h511⟩, if_neg (by omega), if_pos h511]
    · rw [if_neg fun h => h511 h.2, if_neg h511]
      exact if_congr (and_iff_right rfl) rfl rfl
  · rw [hother _ (by omega), Mem.write_of_ne _ _ _ (by omega), Mem.write_of_ne _ _ _ (by omega), hid.pdpt,
      Mem.write_of_ne _ _ _ (by omega), hzero _ (by omega)]
  · rw [hother _ (by omega), Mem.write_apply, Mem.write_of_ne _ _ _ (by omega), hid.same _ (by omega) (by omega),
      Mem.write_of_ne _ _ _ (by omega), hzero _ (by omega)]
    exact if_congr (and_iff_right rfl) rfl rfl
  · rw [hother _ (by omega), Mem.write_of_ne _ _ _ (by omega), Mem.write_of_ne _ _ _ (by omega)]
    exact hid.pd p hp i hi
  · rw [hpd i hi]
    exact congrArg (fun a => BitVec.ofNat 64 a ||| 0x83#64) (by omega)
  · rw [hother f (by omega), Mem.write_of_ne _ _ _ (by omega), Mem.write_of_ne _ _ _ (by omega),
      hid.same f (by omega) (by omega), Mem.write_of_ne _ _ _ (by omega), zeroTables_apply, if_neg hf]

end SamOS.Bootloader
