import SamOS.AddressSpaces
import SamOS.KernelMap
import SamOS.Lib.Lts

/-! Runs of the virtual memory manager from the tables of `paging_init`: address spaces are made and destroyed, pages
    are mapped and unmapped in any of them, with any frames and flags. The tables stay a forest, and the kernel's 2
    MiB pages stay where they are. -/

namespace SamOS
open Lts Paging Forest

/-- A call of the virtual memory manager. -/
inductive VmmCall where
  | create
  | map (as : AsPtr) (virt phys : Nat) (flags : Word)
  | unmap (as : AsPtr) (virt : Nat)
  | destroy (as : Nat)

/-- The address space exists: it is the kernel's, or it was made and not destroyed since. -/
def Machine.Has (s : Machine) : AsPtr → Prop
  | .null => False
  | .kernel => True
  | .page a => alive s.log a = true

/-- The pages that `pmm_alloc_page` hands out are fresh: none is page 0 or a page of the arena `lo ≤ f < hi`, and
    their addresses have at most 52 bits. -/
structure Pmm.Spares (pmm : Pmm) (lo hi : Nat) : Prop where
  zero : ¬pmm.Free 0
  arena : ∀ f, lo ≤ f → f < hi → ¬pmm.Free f
  total : pmm.totalPages ≤ 2 ^ 40

/-- The calls that return, from any contents of memory and any fresh pages at boot. -/
def vmmCalls (boot : BootInfo) (img : KernelImage) : System Machine VmmCall where
  init s := ∃ mem, s.mem = (pagingInit boot img mem).2.mem ∧ s.kernelPml4 = (pagingInit boot img mem).1 ∧ s.log = [] ∧
    s.pmm.Spares (arenaStart img) (pagingInit boot img mem).2.nextFreeTable
  step s c s' := match c with
    | .create => ∃ as, s.vmmCreateAddressSpace = .ok (as, s')
    | .map as virt phys flags => s.Has as ∧ s.vmmMap as virt phys flags = .ok s'
    | .unmap as virt => s.Has as ∧ s.vmmUnmap as virt = .ok s'
    | .destroy a => alive s.log a = true ∧ s' = s.vmmDestroyAddressSpace a

/-- No address on a 2 MiB page is unmapped. -/
def Careful (s : Machine) : VmmCall → Prop
  | .unmap as virt => s.mem.onHugePage (s.pml4 as) virt = false
  | _ => True

/-- The labels agree with the tables, with the bitmap and with the log. -/
structure TableLayout (s : Machine) (use : Nat → Use) : Prop where
  trees : Trees s.kernelPml4 s.mem use
  shared : SharedSlots s.kernelPml4 s.mem use
  owned : Owned s.kernelPml4 s.pmm use
  live : ∀ a, alive s.log a = true ↔ ∃ r, use a = .space r

/-! ### Walks -/

theorem pagePath_eq_path (virt n : Nat) : pagePath virt n = path (fun k => pageIndex k virt) n := by
  induction n with
  | zero => rfl
  | succ n ih => rw [pagePath, path, ih]

/-- Two addresses with the same path lie in one page, canonical addresses being told apart by 48 bits. -/
theorem pagePath_four_inj {va virt : Nat} :
    pagePath va 4 = pagePath virt 4 ↔ va / 4096 % 2 ^ 36 = virt / 4096 % 2 ^ 36 := by
  simp only [pagePath, pageIndex, List.cons.injEq, and_true]
  omega

namespace TableLayout
variable {s s' : Machine} {use : Nat → Use} {as : AsPtr} {virt va n g : Nat}

theorem root (h : TableLayout s use) (has : s.Has as) : use (s.pml4 as) = .node (s.pml4 as) [] := by
  cases as with
  | null => exact has.elim
  | kernel => exact h.shared.root
  | page a =>
    obtain ⟨r, ha⟩ := (h.live a).mp has
    rw [h.trees.pml4_eq ha]
    exact (h.trees.space ha).2.1

/-- The walk of the processor is a walk in the forest, the kernel's tree being entered by the shared entries. -/
theorem tableAt_eq_walk (h : TableLayout s use) (has : s.Has as) (virt n : Nat) :
    s.mem.tableAt (s.pml4 as) virt (n + 1) =
      walk (tableLink s.kernelPml4 s.mem) (treeOf s.kernelPml4 (s.pml4 as) virt) (fun k => pageIndex k virt)
        (n + 1) := by
  induction n with
  | zero =>
    rw [Mem.tableAt, Mem.tableAt, walk, walk, Option.bind_some, Option.bind_some]
    have hin : Inside s.kernelPml4 0 (treeOf s.kernelPml4 (s.pml4 as) virt) (pageIndex 0 virt) := by
      refine ⟨pageIndex_lt _ _, fun hc => hc.2.1 ?_⟩
      rw [treeOf, owner, if_pos ⟨rfl, hc.2.2⟩]
    rw [tableLink_of_inside hin, treeOf, owner]
    split
    · rename_i hi
      rw [← link_or_flagUser, h.shared.same (h.root has) hi.2, link_or_flagUser]
    · rfl
  | succ n ih =>
    rw [Mem.tableAt, ih, walk]
    congr 1
    funext t
    exact (tableLink_of_inside ⟨pageIndex_lt _ _, fun hc => absurd hc.1 (by omega)⟩ _).symm

theorem tree_root (h : TableLayout s use) (has : s.Has as) (virt : Nat) :
    use (treeOf s.kernelPml4 (s.pml4 as) virt) = .node (treeOf s.kernelPml4 (s.pml4 as) virt) [] := by
  unfold treeOf owner
  split
  · exact h.shared.root
  · exact h.root has

theorem tableAt_iff (h : TableLayout s use) (has : s.Has as) (hn : n < 3) :
    s.mem.tableAt (s.pml4 as) virt (n + 1) = some g ↔
      use g = .node (treeOf s.kernelPml4 (s.pml4 as) virt) (pagePath virt (n + 1)) := by
  rw [h.tableAt_eq_walk has, h.trees.forest.walk_eq_some_iff (h.tree_root has virt) (by omega), pagePath_eq_path]

theorem onHugePage_iff (h : TableLayout s use) (has : s.Has as) : s.mem.onHugePage (s.pml4 as) virt = true ↔
    ∃ pd, use pd = .node (treeOf s.kernelPml4 (s.pml4 as) virt) (pagePath virt 2) ∧
      (s.mem pd (pageIndex 2 virt)).huge = true := by
  unfold Mem.onHugePage
  constructor
  · intro hh
    cases ht : s.mem.tableAt (s.pml4 as) virt 2 with
    | none => rw [ht] at hh; cases hh
    | some pd =>
      rw [ht] at hh
      exact ⟨pd, (h.tableAt_iff has (by decide)).mp ht, (Bool.and_eq_true_iff.mp hh).2⟩
  · rintro ⟨pd, hpd, hh⟩
    have hin : Inside s.kernelPml4 (pagePath virt 2).length pd (pageIndex 2 virt) :=
      ⟨pageIndex_lt _ _, fun hc => absurd hc.1 (by rw [pagePath_length]; decide)⟩
    obtain ⟨-, -, hp, -⟩ := h.trees.huge hpd (by rw [pagePath_length]; decide) hin hh
    rw [(h.tableAt_iff has (by decide)).mpr hpd]
    simp [hp, hh]

end TableLayout

/-! ### One call -/

/-- The kernel's tables are kept, and in them the entries of 2 MiB pages. -/
structure KernelKept (s : Machine) (use : Nat → Use) (s' : Machine) (use' : Nat → Use) : Prop where
  kernelPml4 : s'.kernelPml4 = s.kernelPml4
  node : ∀ {f p}, use f = .node s.kernelPml4 p → use' f = .node s.kernelPml4 p
  huge : ∀ {f p i}, use f = .node s.kernelPml4 p → p.length = 2 → (s.mem f i).huge = true → s'.mem f i = s.mem f i

namespace KernelKept
variable {s s' s'' : Machine} {use use' use'' : Nat → Use}

theorem refl (s : Machine) (use : Nat → Use) : KernelKept s use s use := ⟨rfl, id, fun _ _ _ => rfl⟩

theorem trans (h : KernelKept s use s' use') (h' : KernelKept s' use' s'' use'') : KernelKept s use s'' use'' where
  kernelPml4 := h'.kernelPml4.trans h.kernelPml4
  node hf := by
    have hf' := h'.node (h.kernelPml4.symm ▸ h.node hf)
    rwa [h.kernelPml4] at hf'
  huge hf hl hh := by
    have he := h.huge hf hl hh
    rw [h'.huge (h.kernelPml4.symm ▸ h.node hf) hl (by rw [he]; exact hh), he]

theorem writeLeaf {pt i r : Nat} {p : List Nat} {w : Word} (hpt : use pt = .node r p) (hl : p.length = 3) :
    KernelKept s use { s with mem := s.mem.write pt i w } use := by
  refine ⟨rfl, id, fun {f q j} hf hq _ => ?_⟩
  refine congrFun (Mem.write_of_ne _ _ _ ?_) j
  rintro rfl
  obtain ⟨-, rfl⟩ := Use.node.inj (hpt.symm.trans hf)
  omega

end KernelKept

variable {m : Mem} {s : Machine} {boot : BootInfo} {img : KernelImage}

theorem Extends.space_iff {r : Nat} {way : List Nat} {m' : Mem} {use use' : Nat → Use}
    (h : Extends r way m use m' use') (a : Nat) :
    (∃ r, use' a = .space r) ↔ ∃ r, use a = .space r := by
  by_cases hf : use a = .free
  · rw [hf]
    refine ⟨fun ⟨r', ha⟩ => ?_, fun ⟨r', ha⟩ => by cases ha⟩
    rcases h.fresh hf with hfree | ⟨p, hp, -⟩
    · cases hfree.symm.trans ha
    · cases hp.symm.trans ha
  · rw [h.keeps hf]

namespace TableLayout
variable {s s' : Machine} {use : Nat → Use} {as : AsPtr} {virt phys : Nat} {flags : Word} {r : Nat}

theorem writeLeaf (h : TableLayout s use) {pt i : Nat} {p : List Nat} {w : Word} (hpt : use pt = .node r p)
    (hl : p.length = 3) : TableLayout { s with mem := s.mem.write pt i w } use :=
  ⟨h.trees.writeLeaf hpt hl, h.shared.writeLeaf hpt hl, h.owned, h.live⟩

theorem grown (h : TableLayout s use) {use' : Nat → Use} {way : List Nat}
    (hg : Grown s.kernelPml4 r way s use s' use') :
    TableLayout s' use' where
  trees := by rw [hg.steady.kernelPml4]; exact hg.trees
  shared := by rw [hg.steady.kernelPml4]; exact hg.shared h.shared
  owned := by rw [hg.steady.kernelPml4]; exact hg.owned
  live a := by rw [hg.steady.log, h.live a, hg.grows.space_iff a]

/-- `vmm_map` makes the missing tables on the way, and then writes one entry of a page table. -/
theorem vmmMap (h : TableLayout s use) (has : s.Has as) (hmap : s.vmmMap as virt phys flags = .ok s') :
    ∃ s₁ use₁ pt, TableLayout s₁ use₁ ∧
      Extends (treeOf s.kernelPml4 (s.pml4 as) virt) (pagePath virt 3) s.mem use s₁.mem use₁ ∧ s.Steady s₁ ∧
      use₁ pt = .node (treeOf s.kernelPml4 (s.pml4 as) virt) (pagePath virt 3) ∧
      (s₁.mem pt (pageIndex 3 virt)).present = false ∧
      s' = { s₁ with mem := s₁.mem.write pt (pageIndex 3 virt) (entry (phys / 4096) (flags ||| flagPresent)) } := by
  obtain ⟨s₁, use₁, pt, hg, hpt, hp, rfl⟩ := h.trees.vmmMap h.owned (h.root has) (fun _ => h.shared) hmap
  exact ⟨s₁, use₁, pt, h.grown hg, hg.grows, hg.steady, hpt, hp, rfl⟩

/-- Away from 2 MiB pages `vmm_unmap` clears the entry of the address, if there is one. -/
theorem vmmUnmap (h : TableLayout s use) (has : s.Has as) (hh : s.mem.onHugePage (s.pml4 as) virt = false)
    (hunmap : s.vmmUnmap as virt = .ok s') :
    (s' = s ∧ ∀ pt, use pt ≠ .node (treeOf s.kernelPml4 (s.pml4 as) virt) (pagePath virt 3)) ∨
    ∃ pt, use pt = .node (treeOf s.kernelPml4 (s.pml4 as) virt) (pagePath virt 3) ∧
      s' = { s with mem := s.mem.write pt (pageIndex 3 virt) 0 } := by
  refine (h.trees.vmmUnmap (h.root has) (fun _ => h.shared) (fun {pd} hpd => ?_) hunmap).2
  by_contra hhuge
  rw [(h.onHugePage_iff has).mpr ⟨pd, hpd, by simpa using hhuge⟩] at hh
  cases hh

theorem vmmCreateAddressSpace (h : TableLayout s use) {o : Option Nat} (hc : s.vmmCreateAddressSpace = .ok (o, s')) :
    (o = none ∧ s' = s) ∨ ∃ a r, o = some a ∧ Machine.Created s a r s' ∧ TableLayout s' (addSpace use a r) := by
  rcases Machine.vmmCreateAddressSpace_cases hc with ⟨ho, -, h0 | ⟨hs, -⟩⟩ | ⟨a, r, ho, hc⟩
  · exact absurd h0 h.owned.zero
  · exact Or.inl ⟨ho, hs⟩
  have ha := (h.owned.free_iff a).mpr hc.freeSpace
  have hr := (h.owned.free_iff r).mpr (Pmm.free_takePage_iff.mp hc.freePml4).1
  have hk : r ≠ s.kernelPml4 := by
    rintro rfl
    cases hr.symm.trans h.shared.root
  refine Or.inr ⟨a, r, ho, hc, ⟨?_, ?_, ?_, fun b => ?_⟩⟩
  · rw [hc.kernelPml4]; exact h.trees.addSpace h.owned hc hk
  · rw [hc.kernelPml4]; exact h.shared.addSpace h.owned hc
  · rw [hc.kernelPml4]; exact h.owned.addSpace hc
  · rw [hc.log, alive, Bool.or_eq_true, beq_iff_eq, h.live b]
    simp only [addSpace_eq_space ha hr hc.ne]
    constructor
    · rintro (rfl | ⟨r', hb⟩)
      · exact ⟨r, Or.inr ⟨rfl, rfl⟩⟩
      · exact ⟨r', Or.inl hb⟩
    · rintro ⟨r', hb | ⟨rfl, -⟩⟩
      · exact Or.inr ⟨r', hb⟩
      · exact Or.inl rfl

theorem vmmDestroyAddressSpace (h : TableLayout s use) {a : Nat} (ha : use a = .space r) :
    TableLayout (s.vmmDestroyAddressSpace a) fun f => (use f).destroy r := by
  obtain ⟨hk, -, -⟩ := h.trees.space ha
  refine ⟨h.trees.removeSpace, h.shared.removeSpace hk, h.owned.removeSpace h.trees ha, fun b => ?_⟩
  rw [Machine.vmmDestroyAddressSpace, alive, Bool.and_eq_true, bne_iff_ne, h.live b]
  constructor
  · rintro ⟨hba, r', hb⟩
    exact ⟨r', Use.destroy_eq_space.mpr ⟨hb, fun hrr => hba (h.trees.space_inj hb (hrr ▸ ha))⟩⟩
  · rintro ⟨r', hb⟩
    obtain ⟨hb, hrr⟩ := Use.destroy_eq_space.mp hb
    refine ⟨?_, r', hb⟩
    rintro rfl
    exact hrr (Use.space.inj (hb.symm.trans ha))

/-- Every careful call keeps the layout and the kernel's 2 MiB pages. -/
theorem step (h : TableLayout s use) {boot : BootInfo} {img : KernelImage} {c : VmmCall} (hok : Careful s c)
    (hstep : (vmmCalls boot img).step s c s') : ∃ use', TableLayout s' use' ∧ KernelKept s use s' use' := by
  cases c with
  | create =>
    obtain ⟨o, hc⟩ := hstep
    rcases h.vmmCreateAddressSpace hc with ⟨-, rfl⟩ | ⟨a, r, -, hc, h'⟩
    · exact ⟨use, h, .refl s' use⟩
    · have ha := (h.owned.free_iff a).mpr hc.freeSpace
      have hr := (h.owned.free_iff r).mpr (Pmm.free_takePage_iff.mp hc.freePml4).1
      refine ⟨_, h', hc.kernelPml4, fun hf => (addSpace_eq_node ha hr).mpr (Or.inl hf), fun {f p i} hf _ _ => ?_⟩
      rw [hc.mem f (by rintro rfl; cases ha.symm.trans hf) (by rintro rfl; cases hr.symm.trans hf)]
  | map as virt phys flags =>
    obtain ⟨has, hmap⟩ := hstep
    obtain ⟨s₁, use₁, pt, h₁, hg, hst, hpt, -, rfl⟩ := h.vmmMap has hmap
    have hkept : KernelKept s use s₁ use₁ := ⟨hst.kernelPml4, hg.node, hg.huge⟩
    exact ⟨use₁, h₁.writeLeaf hpt (pagePath_length _ _), hkept.trans (.writeLeaf hpt (pagePath_length _ _))⟩
  | unmap as virt =>
    obtain ⟨has, hunmap⟩ := hstep
    rcases h.vmmUnmap has hok hunmap with ⟨rfl, -⟩ | ⟨pt, hpt, rfl⟩
    · exact ⟨use, h, .refl s' use⟩
    · exact ⟨use, h.writeLeaf hpt (pagePath_length _ _), .writeLeaf hpt (pagePath_length _ _)⟩
  | destroy a =>
    obtain ⟨ha, rfl⟩ := hstep
    obtain ⟨r, ha⟩ := (h.live a).mp ha
    obtain ⟨hk, -, -⟩ := h.trees.space ha
    exact ⟨_, h.vmmDestroyAddressSpace ha, rfl, fun hf => Use.destroy_eq_node.mpr ⟨hf, hk.symm⟩, fun _ _ _ => rfl⟩

end TableLayout

/-! ### Boot -/

theorem KernelMap.count_le {s n maxMemory : Nat} (h : KernelMap s n maxMemory m) : n ≤ 512 := by
  by_contra hn
  have := (h.map.count 512).mp (by omega)
  omega

theorem KernelMap.trees {s n maxMemory : Nat} (h : KernelMap s n maxMemory m) (pmm : Pmm) (hs : 0 < s) :
    Trees s m (bootUse s n pmm) ∧ SharedSlots s m (bootUse s n pmm) := by
  have hr := h.range
  have hnode : ∀ {f r p}, bootUse s n pmm f = .node r p → r = s ∧ BootNode s n f p := bootUse_eq_node.mp
  refine ⟨⟨⟨fun hf hf' => ?_, fun hf => ?_, fun hf hl hg => ?_, fun hg => ?_⟩, fun hf hl hin hp hh => ?_,
    fun hf hl hin hh => ?_, fun ha => absurd ha bootUse_ne_space, fun ha => absurd ha bootUse_ne_space, fun hf => ?_⟩,
    ⟨BootNode.pml4.bootUse, fun hi => ?_, fun hr' _ => ?_⟩⟩
  · exact Use.node.inj (hf.symm.trans hf')
  · obtain ⟨rfl, hf⟩ := hnode hf
    exact hf.root
  · obtain ⟨rfl, hf⟩ := hnode hf
    exact (h.tables.link hr hf (tableLink_eq_some.mp hg).2).1.bootUse
  · obtain ⟨rfl, hg⟩ := hnode hg
    obtain ⟨hi, -, f, hf, hlink⟩ := h.tables.parent h.count_le hr hg
    refine ⟨?_, f, hf.bootUse, ?_⟩
    · have := (h.tables.link hr hf hlink).2.2
      omega
    · refine tableLink_eq_some.mpr ⟨⟨hi, fun hc => hc.2.1 ?_⟩, hlink⟩
      exact (List.length_eq_zero_iff.mp hc.1 ▸ hf : BootNode _ n f []).root
  · obtain ⟨rfl, hf⟩ := hnode hf
    exact (h.tables.link hr hf (link_eq_some.mpr ⟨hp, (fun hc => by rw [hh] at hc; cases hc.2), rfl⟩)).2.1
  · obtain ⟨rfl, hf⟩ := hnode hf
    have hp := h.tables.present_of_huge hf hh
    exact ⟨(h.tables.huge hf hp hh).1, rfl, hp, (h.tables.huge hf hp hh).2⟩
  · obtain ⟨-, hf⟩ := hnode hf
    have := hf.bounds
    omega
  · rcases hi with rfl | rfl
    · rw [h.tables.pml4, if_pos rfl, present_entry]
      rfl
    · rw [h.tables.pml4, if_neg (by decide), if_pos rfl, present_entry]
      rfl
  · rw [(hnode hr').1]

theorem tableLayout_of_init (h : (vmmCalls boot img).init s) :
    ∃ n, KernelMap s.kernelPml4 n (maxMemory boot) s.mem ∧ TableLayout s (bootUse s.kernelPml4 n s.pmm) := by
  obtain ⟨mem, hmem, hpml4, hlog, hpmm⟩ := h
  obtain ⟨n, hmap, harena, hnext⟩ := kernelMap_pagingInit boot img mem
  rw [hnext] at hpmm
  rw [← hmem, ← harena, ← hpml4] at hmap
  rw [← harena, ← hpml4] at hpmm
  have hpos : 0 < s.kernelPml4 := by
    rw [hpml4, harena]
    have := img.endPhys_bounds
    unfold arenaStart
    omega
  obtain ⟨htrees, hshared⟩ := hmap.trees s.pmm hpos
  refine ⟨n, hmap, htrees, hshared,
    ⟨fun f => ?_, hpmm.zero, hpmm.total, fun hf hne => absurd (bootUse_eq_node.mp hf).1 hne,
      fun ha => absurd ha bootUse_ne_space⟩, fun a => ?_⟩
  · rcases bootUse_cases s.kernelPml4 n s.pmm f with ⟨p, hp, he⟩ | ⟨-, ⟨hf, he⟩ | ⟨hf, he⟩⟩ <;> rw [he]
    · have := hp.bounds
      exact ⟨nofun, fun hf => absurd hf (hpmm.arena f this.1 this.2)⟩
    · exact ⟨fun _ => hf, fun _ => rfl⟩
    · exact ⟨nofun, fun h => absurd h hf⟩
  · rw [hlog]
    exact ⟨nofun, fun ⟨r, hr⟩ => absurd hr bootUse_ne_space⟩

theorem tableLayout_of_path {s₀ : Machine} {use₀ : Nat → Use} {cs : List VmmCall}
    (h₀ : TableLayout s₀ use₀) (hp : ((vmmCalls boot img).guard Careful).Path s₀ cs s) :
    ∃ use, TableLayout s use ∧ KernelKept s₀ use₀ s use := by
  refine hp.invariant (I := fun s => ∃ use, TableLayout s use ∧ KernelKept s₀ use₀ s use) ?_ ⟨use₀, h₀, .refl s₀ use₀⟩
  rintro s c s' ⟨use, h, hk⟩ ⟨hok, hstep⟩
  obtain ⟨use', h', hk'⟩ := h.step hok hstep
  exact ⟨use', h', hk.trans hk'⟩

theorem tableLayout_of_reachable
    (h : ((vmmCalls boot img).guard Careful).Reachable s) : ∃ use, TableLayout s use := by
  obtain ⟨cs, s₀, h₀, hp⟩ := h
  obtain ⟨n, -, hl⟩ := tableLayout_of_init h₀
  obtain ⟨use, hl, -⟩ := tableLayout_of_path hl hp
  exact ⟨use, hl⟩

/-! ### A machine -/

/-- The pages from `8 * lo` to `8 * hi` are free. -/
def Pmm.freeBetween (lo hi : Nat) : Pmm where
  bitmap i := if lo ≤ i then 0#8 else 0xFF#8
  bitmapSize := hi
  totalPages := 8 * hi
  freePages := BitVec.ofNat 64 (8 * (hi - lo))

theorem Pmm.free_freeBetween_iff {lo hi p : Nat} : (freeBetween lo hi).Free p ↔ 8 * lo ≤ p ∧ p < 8 * hi := by
  have hbit : ∀ k < 8, (0xFF#8 &&& 1#8 <<< k != 0#8) = true := by decide
  by_cases hp : lo ≤ p / 8
  · simp only [Free, bitmapTest, freeBetween, if_pos hp, BitVec.zero_and, bne_self_eq_false, and_true]
    omega
  · simp only [Free, bitmapTest, freeBetween, if_neg hp]
    simp only [hbit _ (Nat.mod_lt p (by decide)), Bool.true_eq_false, and_false, false_iff]
    omega

/-- The machine after `paging_init`. -/
def afterPaging (boot : BootInfo) (img : KernelImage) (mem : Mem) (pmm : Pmm) : Machine where
  mem := (pagingInit boot img mem).2.mem
  pmm := pmm
  kernelPml4 := (pagingInit boot img mem).1
  log := []

theorem afterPaging_init {mem : Mem} {pmm : Pmm}
    (h : pmm.Spares (arenaStart img) (pagingInit boot img mem).2.nextFreeTable) :
    (vmmCalls boot img).init (afterPaging boot img mem pmm) := by
  simp only [vmmCalls, afterPaging]
  exact ⟨mem, rfl, rfl, True.intro, h⟩

/-- The sample machine with 16 free pages from 8 MiB on. -/
def vmmSample (mem : Mem) : Machine :=
  afterPaging Pmm.sampleFirmware.toBootInfo Pmm.sampleImage mem (.freeBetween 256 258)

/-- The calls on the sample machine. -/
def sampleCalls : System Machine VmmCall := vmmCalls Pmm.sampleFirmware.toBootInfo Pmm.sampleImage

theorem has_of_created {s' : Machine} {a r : Nat} (h : Machine.Created s a r s') : s'.Has (.page a) := by
  show alive s'.log a = true
  rw [h.log, alive, Bool.or_eq_true, beq_iff_eq]
  exact Or.inl rfl

section Sample
variable (mem : Mem)

theorem arenaEnd_sample_le : (pagingInit Pmm.sampleFirmware.toBootInfo Pmm.sampleImage mem).2.nextFreeTable ≤ 1060 :=
  (arenaEnd_bounds Pmm.sampleFirmware.toBootInfo Pmm.sampleImage mem).2

theorem free_vmmSample_iff {p : Nat} : (vmmSample mem).pmm.Free p ↔ 2048 ≤ p ∧ p < 2064 := Pmm.free_freeBetween_iff

theorem vmmSample_kernelPml4 : (vmmSample mem).kernelPml4 = 0x220 := by
  obtain ⟨n, -, hpml4, -⟩ := kernelMap_pagingInit Pmm.sampleFirmware.toBootInfo Pmm.sampleImage mem
  simp only [vmmSample, afterPaging]
  exact hpml4

theorem vmmSample_mem {f : Nat} (hf : f < 0x220 ∨ 1060 ≤ f) : (vmmSample mem).mem f = mem f := by
  have harena := arenaEnd_sample_le mem
  simp only [vmmSample, afterPaging]
  exact pagingInit_outside (hf.imp id fun h => Nat.le_trans harena h)

theorem vmmSample_init : sampleCalls.init (vmmSample mem) := by
  have harena := arenaEnd_sample_le mem
  refine afterPaging_init ⟨fun h => ?_, fun f _ hf h => ?_, by decide⟩ <;>
  · have := Pmm.free_freeBetween_iff.mp h
    omega

theorem vmmSample_reachable : (sampleCalls.guard Careful).Reachable (vmmSample mem) :=
  ⟨[], _, vmmSample_init mem, .nil⟩

theorem vmmSample_create : ∃ s, (sampleCalls.guard Careful).Path (vmmSample mem) [.create] s ∧
    Machine.Created (vmmSample mem) 2048 2049 s := by
  have hfree := fun p => free_vmmSample_iff mem (p := p)
  obtain ⟨s, hc, hcr⟩ := Machine.vmmCreateAddressSpace_of_least (s := vmmSample mem) (a := 2048) (r := 2049)
    (by rw [hfree]; omega) (by rw [hfree]; omega) (fun q hq => by rw [hfree]; omega)
    (by rw [Pmm.free_takePage_iff, hfree]; omega) (fun q hq => by rw [Pmm.free_takePage_iff, hfree]; omega)
  exact ⟨s, .snoc .nil ⟨True.intro, _, hc⟩, hcr⟩

end Sample
end SamOS
