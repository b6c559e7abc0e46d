import SamOS.VmmLayout
import SamOS.PmmOwnership

/-! The layout of memory after `paging_init` and `pmm_init`: the tables of the arena are the kernel's tree, all their
    mappings are supervisor mappings of 2 MiB, and the free pages are those of the bitmap. -/

namespace SamOS
open Paging

/-! ### The entries that `paging_init` writes -/

/-- An entry of the kernel's page directories: absent, or a supervisor mapping of 2 MiB. -/
def Supervisor (e : Word) : Prop := e.huge = e.present ∧ e.user = false

instance (e : Word) : Decidable (Supervisor e) := inferInstanceAs (Decidable (e.huge = e.present ∧ e.user = false))

theorem supervisor_zero : Supervisor 0 := by decide

variable {addr : Nat}

theorem getLsbD_ofNat_low {i : Nat} (ha : addr % 0x200000 = 0) (hi : i < 12) :
    (BitVec.ofNat 64 addr).getLsbD i = false := by
  obtain ⟨c, hc⟩ : ∃ c, addr = c * 2 ^ 21 := ⟨addr / 0x200000, by omega⟩
  rw [BitVec.getLsbD_ofNat, hc, Nat.testBit_mul_two_pow]
  simp [show ¬21 ≤ i by omega]

theorem supervisor_or {flags : Word} (ha : addr % 0x200000 = 0) (hf : Supervisor flags) :
    Supervisor (BitVec.ofNat 64 addr ||| flags) := by
  unfold Supervisor at hf ⊢
  rw [Word.huge_eq, Word.present_eq, Word.user_eq] at hf ⊢
  rw [BitVec.getLsbD_or, BitVec.getLsbD_or, BitVec.getLsbD_or, getLsbD_ofNat_low (i := 7) ha (by decide),
    getLsbD_ofNat_low (i := 0) ha (by decide), getLsbD_ofNat_low (i := 2) ha (by decide)]
  exact hf

theorem supervisor_identityEntry (ha : addr % 0x200000 = 0) : Supervisor (identityEntry addr) := by
  unfold identityEntry
  dsimp only
  split
  · exact supervisor_or ha (by decide)
  · exact supervisor_or ha (by decide)

/-- Entry `i` of page directory `j` of the identity map. -/
def identityPd (maxMemory j i : Nat) : Word :=
  if i < 512 ∧ (j * 512 + i) * 0x200000 < maxMemory then identityEntry ((j * 512 + i) * 0x200000) else 0

theorem supervisor_identityPd (maxMemory j i : Nat) : Supervisor (identityPd maxMemory j i) := by
  unfold identityPd
  split
  · exact supervisor_identityEntry (by omega)
  · exact supervisor_zero

theorem fillPd_spec (maxMemory pd fuel pdI addr : Nat) (m : Mem) :
    (∀ f, f ≠ pd → (fillPd maxMemory pd fuel pdI addr m).1 f = m f) ∧
    (∀ i, (fillPd maxMemory pd fuel pdI addr m).1 pd i =
      if pdI ≤ i ∧ i < pdI + fuel ∧ addr + (i - pdI) * 0x200000 < maxMemory
      then identityEntry (addr + (i - pdI) * 0x200000) else m pd i) ∧
    (fillPd maxMemory pd fuel pdI addr m).2 ≤ addr + fuel * 0x200000 ∧
    ((fillPd maxMemory pd fuel pdI addr m).2 = addr + fuel * 0x200000 ∨
      maxMemory ≤ (fillPd maxMemory pd fuel pdI addr m).2) := by
  induction fuel generalizing pdI addr m with
  | zero => exact ⟨fun _ _ => rfl, fun i => by rw [if_neg (by omega)]; rfl, by simp [fillPd], Or.inl (by simp [fillPd])⟩
  | succ fuel ih =>
    unfold fillPd
    split
    · rename_i hlt
      obtain ⟨h1, h2, h3, h4⟩ := ih (pdI + 1) (addr + 0x200000) (m.write pd pdI (identityEntry addr))
      refine ⟨fun f hf => (h1 f hf).trans (Mem.write_of_ne _ _ _ hf), fun i => ?_, by omega,
        h4.imp (fun h => by omega) id⟩
      rw [h2 i, Mem.write_apply]
      by_cases hi : i = pdI
      · rw [if_neg (by omega), if_pos ⟨rfl, hi⟩, if_pos (by omega), hi, Nat.sub_self, Nat.zero_mul, Nat.add_zero]
      · rw [if_neg (show ¬(pd = pd ∧ i = pdI) from fun h => hi h.2)]
        by_cases hr : pdI ≤ i ∧ i < pdI + (fuel + 1) ∧ addr + (i - pdI) * 0x200000 < maxMemory
        · have hstep : addr + 0x200000 + (i - (pdI + 1)) * 0x200000 = addr + (i - pdI) * 0x200000 := by
            have : i - pdI = i - (pdI + 1) + 1 := by omega
            omega
          rw [if_pos hr, if_pos (by omega), hstep]
        · rw [if_neg hr, if_neg]
          rintro ⟨hlo, hhi, hmax⟩
          have : i - pdI = i - (pdI + 1) + 1 := by omega
          omega
    · rename_i hge
      refine ⟨fun _ _ => rfl, fun i => ?_, Nat.le_add_right _ _, Or.inr (by omega)⟩
      rw [if_neg (by omega)]

/-- What the loop over `pdpt_i` adds: `n` page directories, one after the other. -/
structure FilledPdpt (pdpt lo : Nat) (a : Arena) (n : Nat) (a' : Arena) : Prop where
  next : a'.nextFreeTable = a.nextFreeTable + n
  same : ∀ f, f ≠ pdpt → f < a.nextFreeTable ∨ a.nextFreeTable + n ≤ f → a'.mem f = a.mem f
  pdpt : ∀ i, a'.mem pdpt i = if lo ≤ i ∧ i < lo + n then entry (a.nextFreeTable + (i - lo)) 3#64 else a.mem pdpt i
  pd : ∀ j < n, ∀ i, Supervisor (a'.mem (a.nextFreeTable + j) i)

/-- The loop adds one page directory for each GiB below the end of memory, up to 512 of them. -/
theorem fillPdpt_spec (maxMemory fuel lo : Nat) {pdpt : Nat} {a : Arena}
    (ha : addr = lo * 0x40000000 ∨ maxMemory ≤ addr) (hp : pdpt < a.nextFreeTable) :
    ∃ n ≤ fuel, FilledPdpt pdpt lo a n (fillPdpt maxMemory pdpt fuel lo addr a) ∧
      (∀ j, j < n ↔ j < fuel ∧ addr < maxMemory ∧ (lo + j) * 0x40000000 < maxMemory) ∧
      ∀ j < n, ∀ i, (fillPdpt maxMemory pdpt fuel lo addr a).mem (a.nextFreeTable + j) i = identityPd maxMemory
        (lo + j) i := by
  induction fuel generalizing lo addr a with
  | zero =>
    exact ⟨0, Nat.le_refl _, ⟨rfl, fun _ _ _ => rfl, fun i => by rw [if_neg (by omega)]; rfl, fun j hj => by omega⟩,
      fun j => by omega, fun j hj => by omega⟩
  | succ fuel ih =>
    unfold fillPdpt
    split
    · rename_i hlt
      -- `addr` stays a variable: the checker would count up to the product
      have haddr₀ : addr = lo * 0x40000000 := ha.resolve_right (by omega)
      dsimp only [Arena.allocTable]
      set pd := a.nextFreeTable
      set m₀ := (a.mem.zeroPage pd).write pdpt lo (entry pd (flagPresent ||| flagWrite)) with hm₀
      have hne : pd ≠ pdpt := by omega
      obtain ⟨hs, hpd, hle, haddr⟩ := fillPd_spec maxMemory pd 512 0 addr m₀
      have hpd : ∀ i, (fillPd maxMemory pd 512 0 addr m₀).1 pd i = identityPd maxMemory lo i := fun i => by
        rw [hpd i, hm₀, Mem.write_of_ne _ _ _ hne, Mem.zeroPage_same]
        unfold identityPd
        rw [show addr + (i - 0) * 0x200000 = (lo * 512 + i) * 0x200000 by omega]
        exact if_congr (by omega) rfl rfl
      generalize fillPd maxMemory pd 512 0 addr m₀ = filled at hs hpd hle haddr
      obtain ⟨m, addr'⟩ := filled
      dsimp only at hs hpd hle haddr ⊢
      obtain ⟨n, hn, ⟨hnext, hsame, hpdpt, hrest⟩, hcount, hexact⟩ := ih (lo + 1)
        (a := { mem := m, nextFreeTable := pd + 1 })
        (show addr' = (lo + 1) * 0x40000000 ∨ maxMemory ≤ addr' from haddr.imp (fun h => by omega) id)
          (Nat.lt_succ_of_lt hp)
      dsimp only at hnext hsame hpdpt hrest hexact
      generalize fillPdpt maxMemory pdpt fuel (lo + 1) addr' { mem := m, nextFreeTable := pd + 1 } = a' at *
      have hfirst : a'.mem pd = m pd := hsame pd hne (Or.inl (Nat.lt_succ_self _))
      have hall : ∀ j < n + 1, ∀ i, a'.mem (pd + j) i = identityPd maxMemory (lo + j) i := fun j hj i => by
        cases j with
        | zero => rw [Nat.add_zero, hfirst, hpd i, Nat.add_zero]
        | succ j =>
          rw [show pd + (j + 1) = pd + 1 + j by omega, show lo + (j + 1) = lo + 1 + j by omega]
          exact hexact j (by omega) i
      refine ⟨n + 1, by omega, ⟨by omega, fun f hfp hfr => ?_, fun i => ?_, fun j hj i => ?_⟩, fun j => ?_, hall⟩
      · rw [hsame f hfp (by omega), hs f (by omega), hm₀, Mem.write_of_ne _ _ _ hfp, Mem.zeroPage_of_ne _ (by omega)]
      · rw [hpdpt i, hs pdpt (Ne.symm hne), hm₀, Mem.write_apply, Mem.zeroPage_of_ne _ (Ne.symm hne)]
        by_cases hi : i = lo
        · rw [if_neg (by omega), if_pos ⟨rfl, hi⟩, if_pos (by omega), hi, Nat.sub_self]
          rfl
        · by_cases hr : lo + 1 ≤ i ∧ i < lo + 1 + n
          · rw [if_pos hr, if_pos (by omega), show pd + 1 + (i - (lo + 1)) = pd + (i - lo) by omega]
          · rw [if_neg hr, if_neg (by omega), if_neg (by omega)]
      · rw [hall j hj i]
        exact supervisor_identityPd _ _ _
      · cases j with
        | zero => omega
        | succ j =>
          have := hcount j
          omega
    · rename_i hge
      exact ⟨0, Nat.zero_le _, ⟨rfl, fun _ _ _ => rfl, fun i => by rw [if_neg (by omega)], fun j hj => by omega⟩,
        fun j => by omega, fun j hj => by omega⟩

/-- Entry `i` of the page directory of the higher half. -/
def highEntry (i : Nat) : Word := BitVec.ofNat 64 (i * 0x200000) ||| 0x83#64

theorem supervisor_highEntry (i : Nat) : Supervisor (highEntry i) := supervisor_or (by omega) (by decide)

theorem fillHigh_spec (pd fuel i : Nat) (m : Mem) :
    (∀ f, f ≠ pd → fillHigh pd fuel i (i * 0x200000) m f = m f) ∧
    ∀ j, fillHigh pd fuel i (i * 0x200000) m pd j = if i ≤ j ∧ j < i + fuel then highEntry j else m pd j := by
  induction fuel generalizing i m with
  | zero => exact ⟨fun _ _ => rfl, fun j => by rw [if_neg (by omega)]; rfl⟩
  | succ fuel ih =>
    unfold fillHigh
    rw [show i * 0x200000 + 0x200000 = (i + 1) * 0x200000 by omega]
    obtain ⟨h1, h2⟩ := ih (i + 1) (m.write pd i (BitVec.ofNat 64 (i * 0x200000) ||| 0x83#64))
    refine ⟨fun f hf => (h1 f hf).trans (Mem.write_of_ne _ _ _ hf), fun j => ?_⟩
    rw [h2 j, Mem.write_apply]
    by_cases hj : j = i
    · rw [if_neg (by omega), if_pos ⟨rfl, hj⟩, if_pos (by omega), hj, highEntry]
    · rw [if_neg (show ¬(pd = pd ∧ j = i) from fun h => hj h.2)]
      exact if_congr (by omega) rfl rfl

/-- The kernel's tables: the PML4 at `s`, the identity map with `n` page directories, and the higher half. -/
structure BootTables (s n : Nat) (m : Mem) : Prop where
  pml4 : ∀ i, m s i = if i = 0 then entry (s + 1) 3#64 else if i = 511 then entry (s + 2 + n) 3#64 else 0
  pdpt : ∀ i, m (s + 1) i = if i < n then entry (s + 2 + i) 3#64 else 0
  pd : ∀ j < n, ∀ i, Supervisor (m (s + 2 + j) i)
  pdptHi : ∀ i, m (s + 2 + n) i = if i = 510 then entry (s + 3 + n) 3#64 else 0
  pdHi : ∀ i, Supervisor (m (s + 3 + n) i)

/-- What the page directories hold: the identity map up to the end of memory, one directory for each GiB, and the
    first GiB in the higher half. -/
structure BootMap (s n maxMemory : Nat) (m : Mem) : Prop where
  count : ∀ j, j < n ↔ j < 512 ∧ j * 0x40000000 < maxMemory
  pd : ∀ j < n, ∀ i, m (s + 2 + j) i = identityPd maxMemory j i
  pdHi : ∀ i < 512, m (s + 3 + n) i = highEntry i

theorem pagingInit_tables (boot : BootInfo) (img : KernelImage) (mem : Mem) :
    ∃ n ≤ 512, BootTables (arenaStart img) n (pagingInit boot img mem).2.mem ∧
      BootMap (arenaStart img) n (maxMemory boot) (pagingInit boot img mem).2.mem ∧
      (∀ f, f < arenaStart img ∨ arenaStart img + 4 + n ≤ f → (pagingInit boot img mem).2.mem f = mem f) ∧
      (pagingInit boot img mem).1 = arenaStart img ∧
      (pagingInit boot img mem).2.nextFreeTable = arenaStart img + 4 + n := by
  unfold pagingInit
  dsimp only [Arena.allocTable]
  set s := arenaStart img
  obtain ⟨n, hn, hf, hcount, hexact⟩ := fillPdpt_spec (maxMemory boot) 512 0
    (a := { mem := ((mem.zeroPage s).zeroPage (s + 1)).write s 0 (entry (s + 1) 3#64), nextFreeTable := s + 1 + 1 })
    (show 0 = 0 * 0x40000000 ∨ maxMemory boot ≤ 0 from Or.inl rfl) (Nat.lt_succ_self (s + 1))
  generalize fillPdpt (maxMemory boot) (s + 1) 512 0 0 _ = a at hf hexact
  obtain ⟨m, next⟩ := a
  obtain ⟨hnext, hsame, hpdpt, hpd⟩ := hf
  dsimp only at hnext hsame hpdpt hpd hexact ⊢
  subst hnext
  set m₁ := ((m.zeroPage (s + 1 + 1 + n)).write s 511 (entry (s + 1 + 1 + n) 3#64)) with hm₁
  set m₂ := (m₁.zeroPage (s + 1 + 1 + n + 1)).write (s + 1 + 1 + n) 510 (entry (s + 1 + 1 + n + 1) 3#64) with hm₂
  have hzero : ∀ i, m₂ (s + 1 + 1 + n + 1) i = 0 := fun i => by
    rw [hm₂, Mem.write_of_ne _ _ _ (by omega), Mem.zeroPage_same]
  obtain ⟨hhigh, hpdHi⟩ := fillHigh_spec (s + 1 + 1 + n + 1) 512 0 m₂
  rw [Nat.zero_mul] at hhigh hpdHi
  generalize fillHigh (s + 1 + 1 + n + 1) 512 0 0 m₂ = m₃ at hhigh hpdHi
  -- Outside the tables of the higher half the memory is that of the loops before.
  have hold : ∀ f, f ≠ s → f < s + 1 + 1 + n → m₃ f = m f := fun f hfs hlt => by
    rw [hhigh f (by omega), hm₂, Mem.write_of_ne _ _ _ (by omega), Mem.zeroPage_of_ne _ (by omega), hm₁,
      Mem.write_of_ne _ _ _ hfs, Mem.zeroPage_of_ne _ (by omega)]
  refine ⟨n, hn, ⟨fun i => ?_, fun i => ?_, fun j hj i => ?_, fun i => ?_, fun i => ?_⟩,
    ⟨fun j => ?_, fun j hj i => ?_, fun i hi => ?_⟩, fun f hf => ?_, rfl, by omega⟩
  · rw [hhigh s (by omega), hm₂, Mem.write_of_ne _ _ _ (by omega), Mem.zeroPage_of_ne _ (by omega), hm₁,
      Mem.write_apply, Mem.zeroPage_of_ne _ (by omega), hsame s (by omega) (by omega), Mem.write_apply,
        Mem.zeroPage_of_ne _ (by omega),
      Mem.zeroPage_same]
    by_cases h511 : i = 511
    · rw [if_pos ⟨rfl, h511⟩, if_neg (by omega), if_pos h511]
    · rw [if_neg (by omega), if_neg h511]
      by_cases h0 : i = 0
      · rw [if_pos ⟨rfl, h0⟩, if_pos h0]
      · rw [if_neg (by omega), if_neg h0]
  · rw [hold (s + 1) (by omega) (by omega), hpdpt i, Mem.write_of_ne _ _ _ (by omega), Mem.zeroPage_same]
    by_cases hi : i < n
    · rw [if_pos (by omega), if_pos hi, Nat.sub_zero]
    · rw [if_neg (by omega), if_neg hi]
  · rw [hold _ (by omega) (by omega)]
    exact hpd j hj i
  · rw [hhigh _ (by omega), hm₂, Mem.write_apply, Mem.zeroPage_of_ne _ (by omega), hm₁,
      Mem.write_of_ne _ _ _ (by omega)]
    rw [show s + 2 + n = s + 1 + 1 + n from rfl, Mem.zeroPage_same]
    by_cases hi : i = 510
    · rw [if_pos ⟨rfl, hi⟩, if_pos hi, show s + 1 + 1 + n + 1 = s + 3 + n by omega]
    · rw [if_neg (by omega), if_neg hi]
  · rw [show s + 3 + n = s + 1 + 1 + n + 1 by omega, hpdHi i]
    split
    · exact supervisor_highEntry i
    · rw [hzero i]
      exact supervisor_zero
  · have := hcount j
    omega
  · rw [hold _ (by omega) (by omega)]
    exact (hexact j hj i).trans (by rw [Nat.zero_add])
  · rw [show s + 3 + n = s + 1 + 1 + n + 1 by omega, hpdHi i, if_pos (by omega)]
  · rw [hhigh f (by omega), hm₂, Mem.write_of_ne _ _ _ (by omega), Mem.zeroPage_of_ne _ (by omega), hm₁,
      Mem.write_of_ne _ _ _ (by omega), Mem.zeroPage_of_ne _ (by omega), hsame f (by omega) (by omega),
      Mem.write_of_ne _ _ _ (by omega), Mem.zeroPage_of_ne _ (by omega), Mem.zeroPage_of_ne _ (by omega)]

/-! ### The labels -/

/-- The path of a table of the arena in the kernel's tree. -/
inductive BootNode (s n : Nat) : Nat → List Nat → Prop
  | pml4 : BootNode s n s []
  | pdpt : BootNode s n (s + 1) [0]
  | pd {j : Nat} (hj : j < n) : BootNode s n (s + 2 + j) [j, 0]
  | pdptHi : BootNode s n (s + 2 + n) [511]
  | pdHi : BootNode s n (s + 3 + n) [510, 511]

/-- The labels after boot: the tables of the arena, the free pages, and all others held. -/
def bootUse (s n : Nat) (pmm : Pmm) (f : Nat) : Use :=
  if f = s then .node s []
  else if f = s + 1 then .node s [0]
  else if s + 2 ≤ f ∧ f < s + 2 + n then .node s [f - (s + 2), 0]
  else if f = s + 2 + n then .node s [511]
  else if f = s + 3 + n then .node s [510, 511]
  else if f < pmm.totalPages ∧ pmm.bitmapTest f = false then .free
  else .held

section Labels
variable {s n f r : Nat} {p : List Nat} {pmm : Pmm}

theorem bootUse_cases (s n : Nat) (pmm : Pmm) (f : Nat) :
    (∃ p, BootNode s n f p ∧ bootUse s n pmm f = .node s p) ∨
    ((f < s ∨ s + 4 + n ≤ f) ∧
      ((pmm.Free f ∧ bootUse s n pmm f = .free) ∨ (¬pmm.Free f ∧ bootUse s n pmm f = .held))) := by
  unfold bootUse
  split
  · rename_i h
    exact Or.inl ⟨[], h ▸ .pml4, rfl⟩
  split
  · rename_i h
    exact Or.inl ⟨[0], h ▸ .pdpt, rfl⟩
  split
  · rename_i h
    refine Or.inl ⟨[f - (s + 2), 0], ?_, rfl⟩
    have := BootNode.pd (s := s) (n := n) (j := f - (s + 2)) (by omega)
    rwa [show s + 2 + (f - (s + 2)) = f by omega] at this
  split
  · rename_i h
    exact Or.inl ⟨[511], h ▸ .pdptHi, rfl⟩
  split
  · rename_i h
    exact Or.inl ⟨[510, 511], h ▸ .pdHi, rfl⟩
  refine Or.inr ⟨by omega, ?_⟩
  split
  · rename_i h
    exact Or.inl ⟨h, rfl⟩
  · rename_i h
    exact Or.inr ⟨h, rfl⟩

theorem BootNode.bounds (h : BootNode s n f p) : s ≤ f ∧ f < s + 4 + n := by
  cases h <;> omega

theorem BootNode.bootUse (h : BootNode s n f p) : bootUse s n pmm f = .node s p := by
  unfold SamOS.bootUse
  cases h with
  | pml4 => rw [if_pos rfl]
  | pdpt => rw [if_neg (by omega), if_pos rfl]
  | pd hj => rw [if_neg (by omega), if_neg (by omega), if_pos (by omega), Nat.add_sub_cancel_left]
  | pdptHi => rw [if_neg (by omega), if_neg (by omega), if_neg (by omega), if_pos rfl]
  | pdHi => rw [if_neg (by omega), if_neg (by omega), if_neg (by omega), if_neg (by omega), if_pos rfl]

theorem BootNode.path_unique {q : List Nat} (h : BootNode s n f p) (h' : BootNode s n f q) : p = q := by
  have hu := fun pmm : Pmm => (h.bootUse : SamOS.bootUse s n pmm f = .node s p).symm.trans h'.bootUse
  exact (Use.node.inj (hu ⟨fun _ => 0, 0, 0, 0⟩)).2

theorem bootUse_eq_node : bootUse s n pmm f = .node r p ↔ r = s ∧ BootNode s n f p := by
  constructor
  · intro h
    rcases bootUse_cases s n pmm f with ⟨q, hq, he⟩ | ⟨-, ⟨-, he⟩ | ⟨-, he⟩⟩ <;> rw [he] at h <;> cases h
    exact ⟨rfl, hq⟩
  · rintro ⟨rfl, h⟩
    exact h.bootUse

theorem bootUse_ne_space : bootUse s n pmm f ≠ .space r := by
  rcases bootUse_cases s n pmm f with ⟨q, hq, he⟩ | ⟨-, ⟨-, he⟩ | ⟨-, he⟩⟩ <;> rw [he] <;> exact nofun

variable {m : Mem} {i : Nat}

theorem BootTables.link (h : BootTables s n m) (hs : s + 4 + n < 2 ^ 40) (hn : BootNode s n f p) {g : Nat}
    (hl : link p.length (m f i) = some g) :
    BootNode s n g (i :: p) ∧ (m f i).frameLow = g ∧ p.length < 2 := by
  obtain ⟨hp, hh, hf⟩ := link_eq_some.mp hl
  have hentry : ∀ {x}, x < 2 ^ 40 → (m f i) = entry x 3#64 → g = x ∧ (m f i).frameLow = g := fun hx he => by
    have h1 : (entry _ 3#64).frame = _ := frame_entry hx (LowFlags.flagsOnly rfl)
    have h2 : (entry _ 3#64).frameLow = _ := frameLow_entry hx rfl
    rw [he] at hf ⊢
    exact ⟨by rw [← hf, h1], by rw [h2, ← hf, h1]⟩
  have habsent : ∀ {P : Prop}, m f i = 0 → P := fun he => by
    rw [he] at hp
    simp [Word.present] at hp
  cases hn with
  | pml4 =>
    have he := h.pml4 i
    by_cases h0 : i = 0
    · rw [if_pos h0] at he
      obtain ⟨rfl, hlow⟩ := hentry (by omega) he
      exact ⟨h0 ▸ .pdpt, hlow, by simp⟩
    · rw [if_neg h0] at he
      by_cases h511 : i = 511
      · rw [if_pos h511] at he
        obtain ⟨rfl, hlow⟩ := hentry (by omega) he
        exact ⟨h511 ▸ .pdptHi, hlow, by simp⟩
      · rw [if_neg h511] at he
        exact habsent he
  | pdpt =>
    have he := h.pdpt i
    split at he
    · rename_i hi
      obtain ⟨rfl, hlow⟩ := hentry (by omega) he
      exact ⟨.pd hi, hlow, by simp⟩
    · exact habsent he
  | pd hj => exact absurd ⟨rfl, (h.pd _ hj i).1.trans hp⟩ hh
  | pdptHi =>
    have he := h.pdptHi i
    split at he
    · rename_i hi
      obtain ⟨rfl, hlow⟩ := hentry (by omega) he
      exact ⟨hi ▸ .pdHi, hlow, by simp⟩
    · exact habsent he
  | pdHi => exact absurd ⟨rfl, (h.pdHi i).1.trans hp⟩ hh

theorem link_entry {level x : Nat} (hx : x < 2 ^ 40) : SamOS.link level (entry x 3#64) = some x :=
  link_eq_some.mpr ⟨by rw [present_entry]; decide, fun hh => by
    have := hh.2
    rw [huge_entry] at this
    revert this
    decide, frame_entry hx (LowFlags.flagsOnly rfl)⟩

/-- Every table of the arena other than the PML4 is found through the one above it. -/
theorem BootTables.parent (h : BootTables s n m) (hn : n ≤ 512) (hs : s + 4 + n < 2 ^ 40) {g : Nat}
    (hg : BootNode s n g (i :: p)) :
    i < 512 ∧ p.length < 4 ∧ ∃ f, BootNode s n f p ∧ SamOS.link p.length (m f i) = some g := by
  cases hg with
  | pdpt =>
    refine ⟨by decide, by decide, s, .pml4, ?_⟩
    rw [h.pml4, if_pos rfl]
    exact link_entry (by omega)
  | pd hj =>
    refine ⟨by omega, by simp, s + 1, .pdpt, ?_⟩
    rw [h.pdpt, if_pos hj]
    exact link_entry (by omega)
  | pdptHi =>
    refine ⟨by decide, by decide, s, .pml4, ?_⟩
    rw [h.pml4, if_neg (by decide), if_pos rfl]
    exact link_entry (by omega)
  | pdHi =>
    refine ⟨by decide, by simp, s + 2 + n, .pdptHi, ?_⟩
    rw [h.pdptHi, if_pos rfl]
    exact link_entry (by omega)

theorem BootTables.huge (h : BootTables s n m) (hf : BootNode s n f p) (hp : (m f i).present = true)
    (hh : (m f i).huge = true) : p.length = 2 ∧ (m f i).user = false := by
  have hnot : ∀ {x}, m f i ≠ entry x 3#64 := fun he => by
    rw [he, huge_entry] at hh
    revert hh
    decide
  have hzero : m f i ≠ 0 := fun he => by
    rw [he] at hp
    simp [Word.present] at hp
  cases hf with
  | pml4 =>
    have he := h.pml4 i
    split at he
    · exact absurd he hnot
    · split at he
      · exact absurd he hnot
      · exact absurd he hzero
  | pdpt =>
    have he := h.pdpt i
    split at he
    · exact absurd he hnot
    · exact absurd he hzero
  | pd hj => exact ⟨rfl, (h.pd _ hj i).2⟩
  | pdptHi =>
    have he := h.pdptHi i
    split at he
    · exact absurd he hnot
    · exact absurd he hzero
  | pdHi => exact ⟨rfl, (h.pdHi i).2⟩

/-- Entries that are not present are zero, but for those of the page directories, which are no 2 MiB pages then. -/
theorem BootTables.present_of_huge (h : BootTables s n m) (hf : BootNode s n f p)
    (hh : (m f i).huge = true) : (m f i).present = true := by
  have hzero : ∀ {P : Prop}, m f i = 0 → P := fun he => by
    rw [he] at hh
    exact absurd hh (by decide)
  have hentry : ∀ {x}, m f i = entry x 3#64 → (m f i).present = true := fun he => by
    rw [he, present_entry]
    rfl
  cases hf with
  | pml4 =>
    have he := h.pml4 i
    split at he
    · exact hentry he
    · split at he
      · exact hentry he
      · exact hzero he
  | pdpt =>
    have he := h.pdpt i
    split at he
    · exact hentry he
    · exact hzero he
  | pd hj => exact (h.pd _ hj i).1.symm.trans hh
  | pdptHi =>
    have he := h.pdptHi i
    split at he
    · exact hentry he
    · exact hzero he
  | pdHi => exact (h.pdHi i).1.symm.trans hh

theorem BootNode.root (h : BootNode s n f []) : f = s := by
  cases h
  rfl

theorem BootTables.tables (h : BootTables s n m) (pmm : Pmm) (hn : n ≤ 512) (h0 : 0 < s) (hs : s + 4 + n < 2 ^ 40) :
    Tables s m (bootUse s n pmm) where
  kernelRoot := BootNode.pml4.bootUse
  kernelSlots := by
    rw [h.pml4, h.pml4, if_pos rfl, if_neg (by decide), if_pos rfl, present_entry, present_entry]
    decide
  root hf := by
    obtain ⟨rfl, hf⟩ := bootUse_eq_node.mp hf
    exact hf.root
  space ha := absurd ha bootUse_ne_space
  space_inj ha := absurd ha bootUse_ne_space
  shared hr hne := absurd (bootUse_eq_node.mp hr).1 hne
  child hf _ _ hl := by
    obtain ⟨rfl, hf⟩ := bootUse_eq_node.mp hf
    rw [owner_kernel]
    exact (h.link hs hf hl).1.bootUse
  parent hg := by
    obtain ⟨rfl, hg⟩ := bootUse_eq_node.mp hg
    obtain ⟨hi, hp, f, hf, hl⟩ := h.parent hn hs hg
    exact ⟨hi, hp, f, hf.bootUse, hl⟩
  low hf _ _ hl := (h.link hs (bootUse_eq_node.mp hf).2 hl).2.1
  huge hf _ _ hp hh := by
    obtain ⟨rfl, hf⟩ := bootUse_eq_node.mp hf
    exact ⟨(h.huge hf hp hh).1, rfl, (h.huge hf hp hh).2⟩
  absent hf _ _ hh := h.present_of_huge (bootUse_eq_node.mp hf).2 hh
  user hf _ _ hl hc := by
    obtain ⟨rfl, hf⟩ := bootUse_eq_node.mp hf
    have := (h.link hs hf hl).2.2
    rcases hc with ⟨hr, -⟩ | hc
    · exact absurd rfl hr
    · omega
  userPd hg := by
    obtain ⟨-, hg⟩ := bootUse_eq_node.mp hg
    cases hg
  range hf := by
    obtain ⟨-, hf⟩ := bootUse_eq_node.mp hf
    have := hf.bounds
    omega

end Labels

/-! ### The layout after `pmm_init` -/

/-- The machine after `paging_init` and `pmm_init`. -/
def bootMachine (boot : BootInfo) (img : KernelImage) (mem : Mem) (bytes : Nat → BitVec 8) : Machine :=
  { mem := (pagingInit boot img mem).2.mem
    pmm := Pmm.pmmInit boot img ((pagingInit boot img mem).2.nextFreeTable * 4096) bytes
    kernelPml4 := (pagingInit boot img mem).1
    log := [] }

theorem maxAddr_le {mmap : List Descriptor} {b m : Nat} (hm : m ≤ b) (h : ∀ d ∈ mmap, d.endAddr ≤ b) :
    mmap.foldl (fun m d => if d.endAddr > m then d.endAddr else m) m ≤ b := by
  induction mmap generalizing m with
  | nil => exact hm
  | cons d mmap ih =>
    rw [List.foldl_cons]
    refine ih ?_ fun x hx => h x (List.mem_cons_of_mem _ hx)
    split
    · exact h d List.mem_cons_self
    · exact hm

theorem layout_bootMachine (fw : Firmware) (img : KernelImage) (mem : Mem) (bytes : Nat → BitVec 8)
    (hends : ∀ d ∈ fw.memoryMap, d.physicalStart + d.numberOfPages * 4096 ≤ 2 ^ 52) :
    ∃ n ≤ 512, Layout (bootMachine fw.toBootInfo img mem bytes)
        (bootUse (arenaStart img) n (bootMachine fw.toBootInfo img mem bytes).pmm) ∧
      BootTables (arenaStart img) n (bootMachine fw.toBootInfo img mem bytes).mem ∧
      (bootMachine fw.toBootInfo img mem bytes).kernelPml4 = arenaStart img := by
  obtain ⟨n, hn, ht, -, -, hpml4, hnext⟩ := pagingInit_tables fw.toBootInfo img mem
  have hb := img.endPhys_bounds
  have hs : 0 < arenaStart img ∧ arenaStart img + 4 + n < 2 ^ 40 := by
    unfold arenaStart
    omega
  have hlog : (bootMachine fw.toBootInfo img mem bytes).log = [] := by unfold bootMachine; dsimp only
  refine ⟨n, hn, ⟨?_, ?_, fun a => ?_, by rw [hlog]; exact True.intro⟩, ?_, ?_⟩
  · simp only [bootMachine, hpml4]
    exact ht.tables _ hn hs.1 hs.2
  · simp only [bootMachine, hpml4, hnext]
    set pmm := Pmm.pmmInit fw.toBootInfo img ((arenaStart img + 4 + n) * 4096) bytes
    have hfree : ∀ f, pmm.Free f → 16 ≤ f ∧ (f < arenaStart img ∨ arenaStart img + 4 + n ≤ f) := fun f hf => by
      have ha := (Pmm.free_pmmInit_iff fw img bytes (show arenaStart img ≤ arenaStart img + 4 + n by omega)).mp hf
      have := ha.lowMemory
      have := ha.arena
      unfold Pmm.Overlaps at this
      omega
    refine ⟨fun f => ?_, fun h0 => by have := hfree 0 h0; omega, ?_, fun hf hne => absurd (bootUse_eq_node.mp hf).1 hne,
      fun ha => absurd ha bootUse_ne_space⟩
    · rcases bootUse_cases (arenaStart img) n pmm f with ⟨p, hp, he⟩ | ⟨-, ⟨hf, he⟩ | ⟨hf, he⟩⟩ <;> rw [he]
      · have := hp.bounds
        exact ⟨nofun, fun hf => by have := hfree f hf; omega⟩
      · exact ⟨fun _ => hf, fun _ => rfl⟩
      · exact ⟨nofun, fun h => absurd h hf⟩
    · rw [(Pmm.pmmInit_totalPages fw.toBootInfo img _ bytes).1]
      have : Pmm.maxAddr fw.memoryMap ≤ 2 ^ 52 := maxAddr_le (Nat.zero_le _) fun d hd => by
        rw [Descriptor.endAddr, Nat.mod_eq_of_lt (fw.noWrap d hd)]
        exact hends d hd
      omega
  · rw [hlog]
    refine ⟨fun h => by simp [alive] at h, ?_⟩
    rintro ⟨r, hr⟩
    exact absurd hr bootUse_ne_space
  · simp only [bootMachine]
    exact ht
  · simp only [bootMachine]
    exact hpml4

end SamOS
