import SamOS.VmmWalks

/-! What holds of every address space in runs of the virtual memory manager: mapping and looking up agree, the
    software walk is the processor's away from 2 MiB pages, and the kernel's 2 MiB pages stay in place and closed to
    user code. -/

namespace SamOS
open Lts Paging

/-! ### The walks over any memory -/

namespace Mem
variable {m : Mem} {r virt pd : Nat}

/-- The walk for `virt` meets no 1 GiB page. -/
def NoGigabytePage (m : Mem) (r virt : Nat) : Prop :=
  ∀ t, m.tableAt r virt 1 = some t → (m t (pageIndex 1 virt)).huge = false

theorem tableAt_two_eq_some {t : Nat} (h : m.tableAt r virt 2 = some t) :
    (m r (pageIndex 0 virt)).present = true ∧ m.tableAt r virt 1 = some (m r (pageIndex 0 virt)).frame ∧
    (m (m r (pageIndex 0 virt)).frame (pageIndex 1 virt)).present = true ∧
    (m (m r (pageIndex 0 virt)).frame (pageIndex 1 virt)).frame = t := by
  obtain ⟨t₁, h₁, hl₁⟩ := tableAt_eq_some h
  obtain ⟨t₀, h₀, hl₀⟩ := tableAt_eq_some h₁
  cases h₀
  obtain ⟨hp₀, -, rfl⟩ := link_eq_some.mp hl₀
  obtain ⟨hp₁, -, hf⟩ := link_eq_some.mp hl₁
  exact ⟨hp₀, h₁, hp₁, hf⟩

theorem hardwareWalk_onHuge (hbig : m.NoGigabytePage r virt) (ht : m.tableAt r virt 2 = some pd)
    (hp : (m pd (pageIndex 2 virt)).present = true) (hh : (m pd (pageIndex 2 virt)).huge = true) :
    ∃ user, m.hardwareWalk r virt = some ((m pd (pageIndex 2 virt)).frame / 2 ^ 9 * 2 ^ 21 + virt % 2 ^ 21, user) ∧
      (user = true → (m pd (pageIndex 2 virt)).user = true) := by
  obtain ⟨hp₀, h₁, hp₁, rfl⟩ := tableAt_two_eq_some ht
  have hb := hbig _ h₁
  refine ⟨(m r (pageIndex 0 virt)).user && (m (m r (pageIndex 0 virt)).frame (pageIndex 1 virt)).user &&
    (m (m (m r (pageIndex 0 virt)).frame (pageIndex 1 virt)).frame (pageIndex 2 virt)).user, ?_,
    fun hu => (Bool.and_eq_true_iff.mp hu).2⟩
  simp only [hardwareWalk, hp₀, hp₁, hb, hp, hh]
  rfl

/-- At a 2 MiB page `vmm_virt_to_phys` goes on, and takes a word of the page for an entry. -/
theorem virtToPhys_onHuge (ht : m.tableAt r virt 2 = some pd) (hp : (m pd (pageIndex 2 virt)).present = true) :
    m.virtToPhys r virt =
      if (m (m pd (pageIndex 2 virt)).frame (pageIndex 3 virt)).present
      then (m (m pd (pageIndex 2 virt)).frame (pageIndex 3 virt)).frame * 4096 + virt % 4096 else 0 := by
  obtain ⟨hp₀, -, hp₁, rfl⟩ := tableAt_two_eq_some ht
  simp only [virtToPhys, hp₀, hp₁, hp, not_true_eq_false, if_false, ite_not]

theorem hardwareWalk_eq (hbig : m.NoGigabytePage r virt) (hh : m.onHugePage r virt = false) :
    (m.hardwareWalk r virt).map Prod.fst = (m.tableAt r virt 4).map fun f => f * 4096 + virt % 4096 := by
  by_cases h₀ : (m r (pageIndex 0 virt)).present = true
  · have hb := hbig _ ((tableAt_succ rfl).trans ((link_of_ne_two (by decide) _).trans (if_pos h₀)))
    simp only [onHugePage, tableAt, Option.bind_some, link_of_ne_two (show 0 ≠ 2 by decide),
      link_of_ne_two (show 1 ≠ 2 by decide), link_of_ne_two (show 3 ≠ 2 by decide), h₀, if_true] at hh ⊢
    simp only [hardwareWalk, h₀, hb, not_true_eq_false, Bool.false_eq_true, if_false]
    by_cases h₁ : (m (m r (pageIndex 0 virt)).frame (pageIndex 1 virt)).present = true
    · simp only [h₁, if_true, Option.bind_some, not_true_eq_false, if_false] at hh ⊢
      by_cases h₂ : (m (m (m r (pageIndex 0 virt)).frame (pageIndex 1 virt)).frame (pageIndex 2 virt)).present = true
      · simp only [h₂, Bool.true_and, not_true_eq_false, if_false, link, true_and] at hh ⊢
        simp only [hh, Bool.false_eq_true, not_false_eq_true, if_true, if_false, Option.bind_some]
        split <;> simp_all
      · simp [h₂, link]
    · simp [h₁]
  · simp [h₀, tableAt, hardwareWalk, link_of_ne_two]

end Mem

/-! ### The kernel's 2 MiB pages -/

section Kernel
variable {boot : BootInfo} {img : KernelImage} {s₀ s : Machine} {use : Nat → Use} {as : AsPtr} {va pd : Nat}

theorem TableLayout.noGigabytePage (h : TableLayout s use) (has : s.Has as) : s.mem.NoGigabytePage (s.pml4 as) va := by
  intro t ht
  refine h.trees.not_huge ((h.tableAt_iff has (by decide)).mp ht) (by rw [pagePath_length]; decide)
    ⟨pageIndex_lt _ _, ?_⟩
    (Or.inl (by rw [pagePath_length]; decide))
  exact fun hc => absurd hc.1 (by rw [pagePath_length]; decide)

/-- The entry of a 2 MiB page has no user bit. -/
theorem TableLayout.hardwareWalk_huge (h : TableLayout s use) (has : s.Has as)
    (ht : s.mem.tableAt (s.pml4 as) va 2 = some pd) (hh : (s.mem pd (pageIndex 2 va)).huge = true) :
    s.mem.hardwareWalk (s.pml4 as) va =
      some ((s.mem pd (pageIndex 2 va)).frame / 2 ^ 9 * 2 ^ 21 + va % 2 ^ 21, false) := by
  obtain ⟨-, -, hp, hu⟩ := h.trees.huge ((h.tableAt_iff has (by decide)).mp ht) (by rw [pagePath_length]; decide)
    ⟨pageIndex_lt _ _, fun hc => absurd hc.1 (by rw [pagePath_length]; decide)⟩ hh
  obtain ⟨user, hw, hu'⟩ := Mem.hardwareWalk_onHuge (h.noGigabytePage has) ht hp hh
  cases user with
  | false => exact hw
  | true =>
    rw [hu' rfl] at hu
    cases hu

/-- A 2 MiB page of `paging_init` keeps its entry, and every address space of a careful run reaches it at its
    address. -/
theorem kernel_page_kept {calls : List VmmCall} (h₀ : (vmmCalls boot img).init s₀)
    (hrun : ((vmmCalls boot img).guard Careful).Path s₀ calls s) (has : s.Has as)
    (hpd : s₀.mem.tableAt s₀.kernelPml4 va 2 = some pd) (hh : (s₀.mem pd (pageIndex 2 va)).huge = true) :
    (∃ use, TableLayout s use) ∧ s.mem.tableAt (s.pml4 as) va 2 = some pd ∧
    s.mem pd (pageIndex 2 va) = s₀.mem pd (pageIndex 2 va) := by
  obtain ⟨n, hmap, hl₀⟩ := tableLayout_of_init h₀
  obtain ⟨use, hl, hkept⟩ := tableLayout_of_path hl₀ hrun
  have hkernel : s₀.Has .kernel := True.intro
  have hnode := (hl₀.tableAt_iff hkernel (by decide)).mp hpd
  rw [show s₀.pml4 .kernel = s₀.kernelPml4 from rfl, treeOf, owner_kernel] at hnode
  -- The page directories of `paging_init` lie below the shared entries.
  have hslot : pageIndex 0 va = 0 ∨ pageIndex 0 va = 511 := by
    have hboot := (bootUse_eq_node.mp hnode).2
    simp only [pagePath] at hboot
    generalize pageIndex 0 va = i₀ at hboot
    generalize pageIndex 1 va = i₁ at hboot
    cases hboot with
    | pd => exact Or.inl rfl
    | pdHi => exact Or.inr rfl
  refine ⟨⟨use, hl⟩, (hl.tableAt_iff has (by decide)).mpr ?_, hkept.huge hnode (pagePath_length _ _) hh⟩
  rw [treeOf, owner, if_pos ⟨rfl, hslot⟩, hkept.kernelPml4]
  exact hkept.node hnode

/-- The kernel's mappings stay intact and closed to user code: in every careful run of the virtual memory manager,
    every 2 MiB page of `paging_init` keeps its entry, is reached at its address in every address space, and has some
    entry without the user bit on its path. -/
theorem kernel_pages_intact (calls : List VmmCall) (h₀ : (vmmCalls boot img).init s₀)
    (hrun : ((vmmCalls boot img).guard Careful).Path s₀ calls s) (has : s.Has as) {e : Word}
    (he : s₀.mem.pdEntry s₀.kernelPml4 va = some e) (hp : e.present = true) (hh : e.huge = true) :
    s.mem.pdEntry (s.pml4 as) va = some e ∧
    s.mem.hardwareWalk (s.pml4 as) va = some (e.frame / 2 ^ 9 * 2 ^ 21 + va % 2 ^ 21, false) := by
  obtain ⟨pd, hpd, rfl⟩ := Option.map_eq_some_iff.mp he
  obtain ⟨⟨use, hl⟩, hat, hsame⟩ := kernel_page_kept h₀ hrun has hpd hh
  refine ⟨by rw [Mem.pdEntry, hat, Option.map_some, hsame], ?_⟩
  rw [hl.hardwareWalk_huge has hat (by rw [hsame]; exact hh), hsame]

theorem pdEntry_vmmSample (mem : Mem) : ∃ e, (vmmSample mem).mem.pdEntry (vmmSample mem).kernelPml4 0x600000 = some e ∧
    e.present = true ∧ e.huge = true ∧ e.frame = 0x600 := by
  obtain ⟨n, hmap, -⟩ := tableLayout_of_init (vmmSample_init mem)
  have hidx : pageIndex 1 0x600000 * 512 + pageIndex 2 0x600000 = 3 := by decide
  have he := hmap.pdEntry_low (show pageIndex 0 0x600000 = 0 by decide) (by rw [hidx]; decide)
  rw [hidx] at he
  obtain ⟨hfl, hp, hh, -, -⟩ := identityFlags_spec (3 * 0x200000)
  exact ⟨_, he, by rw [present_entry]; exact hp, by rw [huge_entry]; exact hh, frame_entry (by decide) hfl⟩

/-- The first address space of the sample machine. -/
theorem kernel_pages_intact_sample : ∃ s, (sampleCalls.guard Careful).Path (vmmSample fun _ _ => 0) [.create] s ∧
    s.mem.hardwareWalk (s.pml4 (.page 2048)) 0x600000 = some (0x600000, false) := by
  obtain ⟨s, hrun, hc⟩ := vmmSample_create fun _ _ => 0
  obtain ⟨e, he, hp, hh, hf⟩ := pdEntry_vmmSample fun _ _ => 0
  have hw := (kernel_pages_intact [.create] (vmmSample_init _) hrun (has_of_created hc) he hp hh).2
  rw [hf] at hw
  exact ⟨s, hrun, hw⟩

end Kernel

/-! ### The software walk -/

/-- `vmm_virt_to_phys` agrees with the processor at `virt`: it gives the physical address that the processor finds,
    and `0` exactly where the processor finds a missing entry, page 0 aside. -/
def Mem.WalksAgree (m : Mem) (pml4 virt : Nat) : Prop :=
  (∀ phys user, m.hardwareWalk pml4 virt = some (phys, user) → m.virtToPhys pml4 virt = phys) ∧
  ((∀ phys user, m.hardwareWalk pml4 virt = some (phys, user) → 4096 ≤ phys) →
    (m.virtToPhys pml4 virt = 0 ↔ m.hardwareWalk pml4 virt = none))

/-- The word of a 2 MiB page that `vmm_virt_to_phys` takes for the entry of `virt` happens to lead to the page of
    `virt`, or is not present where `virt` is mapped to address 0. -/
def Mem.MisreadsRight (m : Mem) (pml4 virt : Nat) : Prop :=
  ∀ e, m.pdEntry pml4 virt = some e →
    if (m e.frame (pageIndex 3 virt)).present
    then (m e.frame (pageIndex 3 virt)).frame * 4096 + virt % 4096 = e.frame / 2 ^ 9 * 2 ^ 21 + virt % 2 ^ 21
    else e.frame / 2 ^ 9 * 2 ^ 21 + virt % 2 ^ 21 = 0

theorem Mem.walksAgree_iff {m : Mem} {r virt : Nat} (hbig : m.NoGigabytePage r virt) :
    m.WalksAgree r virt ↔ m.onHugePage r virt = false ∨ m.MisreadsRight r virt := by
  by_cases hh : m.onHugePage r virt = true
  · -- The processor stops at the 2 MiB page.
    unfold onHugePage at hh
    cases ht : m.tableAt r virt 2 with
    | none => rw [ht] at hh; cases hh
    | some pd =>
      rw [ht] at hh
      obtain ⟨hp, hhuge⟩ := Bool.and_eq_true_iff.mp hh
      obtain ⟨user, hw, -⟩ := hardwareWalk_onHuge hbig ht hp hhuge
      have hsw := virtToPhys_onHuge ht hp
      have hon : m.onHugePage r virt = true := by unfold onHugePage; rw [ht]; exact hh
      have hmis : m.MisreadsRight r virt ↔ m.virtToPhys r virt =
          (m pd (pageIndex 2 virt)).frame / 2 ^ 9 * 2 ^ 21 + virt % 2 ^ 21 := by
        unfold MisreadsRight pdEntry
        rw [ht, hsw]
        simp only [Option.map_some, Option.some.injEq, forall_eq']
        split
        · exact Iff.rfl
        · exact eq_comm
      rw [hon, hmis]
      simp only [Bool.true_eq_false, false_or]
      constructor
      · exact fun h => h.1 _ _ hw
      · intro h
        refine ⟨fun phys u hpu => ?_, fun hne => ?_⟩
        · rw [hw] at hpu
          cases hpu
          exact h
        · have := hne _ _ hw
          rw [h, hw]
          constructor
          · intro h0
            omega
          · intro hc
            cases hc
  · have hh : m.onHugePage r virt = false := by simpa using hh
    refine ⟨fun _ => Or.inl hh, fun _ => ?_⟩
    have heq := hardwareWalk_eq hbig hh
    have hsw := virtToPhys_eq hh
    unfold WalksAgree
    cases ht : m.tableAt r virt 4 with
    | none =>
      rw [ht] at heq hsw
      have hw : m.hardwareWalk r virt = none := Option.map_eq_none_iff.mp heq
      refine ⟨fun phys u hpu => ?_, fun _ => ⟨fun _ => hw, fun _ => hsw⟩⟩
      rw [hw] at hpu
      cases hpu
    | some f =>
      rw [ht] at heq hsw
      obtain ⟨⟨phys, user⟩, hw, hphys⟩ := Option.map_eq_some_iff.mp heq
      have hsw : m.virtToPhys r virt = f * 4096 + virt % 4096 := hsw
      refine ⟨fun phys' u hpu => ?_, fun hne => ?_⟩
      · rw [hw] at hpu
        cases hpu
        exact hsw.trans hphys.symm
      · have := hne _ _ hw
        have hphys : phys = f * 4096 + virt % 4096 := hphys
        rw [hw, hsw]
        constructor
        · intro h0
          omega
        · intro hc
          cases hc

/-- The software walk is the processor's exactly away from 2 MiB pages, a lucky misreading apart: in every address
    space of a careful run, for every contents of memory outside its tables and every address. -/
theorem walks_agree_iff {boot : BootInfo} {img : KernelImage} {s : Machine} {as : AsPtr} {m : Mem} {va : Nat}
    (hs : ((vmmCalls boot img).guard Careful).Reachable s) (has : s.Has as)
    (hm : ∀ virt, ∀ n ≤ 3, ∀ t, s.mem.tableAt (s.pml4 as) virt n = some t → m t = s.mem t) :
    m.WalksAgree (s.pml4 as) va ↔ m.onHugePage (s.pml4 as) va = false ∨ m.MisreadsRight (s.pml4 as) va := by
  obtain ⟨use, h⟩ := tableLayout_of_reachable hs
  refine Mem.walksAgree_iff fun t ht => ?_
  have htable : s.mem.tableAt (s.pml4 as) va 1 = some t := by
    rw [← ht, Mem.tableAt_congr fun k hk t ht => hm va k (by omega) t ht]
  rw [hm va 1 (by decide) t htable]
  exact h.noGigabytePage has t htable

theorem vmmSample_second_slot :
    (vmmSample fun _ _ => 0).mem.tableAt ((vmmSample fun _ _ => 0).pml4 .kernel) 0x8000000000 1 = none := by
  obtain ⟨n, hmap, -⟩ := tableLayout_of_init (vmmSample_init fun _ _ => 0)
  rw [Mem.tableAt_succ rfl]
  show link 0 ((vmmSample fun _ _ => 0).mem (vmmSample fun _ _ => 0).kernelPml4 _) = none
  rw [hmap.tables.pml4, if_neg (by decide), if_neg (by decide)]
  exact link_zero 0

theorem three_le_freeCount_vmmSample : 3 ≤ (vmmSample fun _ _ => 0).pmm.freeCount :=
  Pmm.le_freeCount fun q (hlo : 2048 ≤ q) hhi => (free_vmmSample_iff _).mpr (by omega)

/-- A page that is mapped there. -/
theorem walks_agree_iff_sample : ∃ s, (sampleCalls.guard Careful).Path (vmmSample fun _ _ => 0)
      [.map .kernel 0x8000000000 0x900000 flagWrite] s ∧
    s.mem.onHugePage (s.pml4 .kernel) 0x8000000000 = false ∧ s.vmmVirtToPhys .kernel 0x8000000000 = 0x900000 ∧
    s.mem.WalksAgree (s.pml4 .kernel) 0x8000000000 := by
  obtain ⟨n, -, h⟩ := tableLayout_of_init (vmmSample_init fun _ _ => 0)
  have hkernel : (vmmSample fun _ _ => 0).Has .kernel := True.intro
  have hnone := fun {k} => Mem.tableAt_eq_none (k := k) vmmSample_second_slot
  obtain ⟨s, hs⟩ : ∃ s, (vmmSample fun _ _ => 0).vmmMap .kernel 0x8000000000 0x900000 flagWrite = .ok s :=
    (h.vmmMap_ok_iff hkernel (by decide) (by decide) (Mem.onHugePage_of_none (hnone (by decide)))).mpr ⟨hnone (by decide), Nat.le_trans (by unfold Mem.missingTables Mem.missing; split <;> split <;> split <;> omega)
      three_le_freeCount_vmmSample⟩
  obtain ⟨-, hpml4, hwalks⟩ := h.walk_vmmMap hkernel hs
  obtain ⟨hoff, hwalk⟩ := (hwalks 0x8000000000).2.1 rfl
  rw [← hpml4] at hoff hwalk
  have hpath : (sampleCalls.guard Careful).Path (vmmSample fun _ _ => 0)
      [.map .kernel 0x8000000000 0x900000 flagWrite] s :=
    .snoc .nil ⟨True.intro, hkernel, hs⟩
  refine ⟨s, hpath, hoff, ?_, (walks_agree_iff (hpath.reachable (vmmSample_reachable _))
    (show s.Has .kernel from True.intro) fun _ _ _ _ _ => rfl).mpr (Or.inl hoff)⟩
  rw [Machine.vmmVirtToPhys, Mem.virtToPhys_eq hoff, hwalk]
  decide

/-- At 6 MiB, where every address space has the identity map, `vmm_virt_to_phys` takes the first word of the 2 MiB
    page for the entry of a page table. -/
theorem misreads_at_huge_page (mem : Mem) :
    ∃ s, (sampleCalls.guard Careful).Path (vmmSample mem) [.create] s ∧ s.Has (.page 2048) ∧
    s.mem.hardwareWalk (s.pml4 (.page 2048)) 0x600000 = some (0x600000, false) ∧
    s.vmmVirtToPhys (.page 2048) 0x600000 = if (mem 0x600 0).present then (mem 0x600 0).frame * 4096 else 0 := by
  obtain ⟨s, hrun, hc⟩ := vmmSample_create mem
  obtain ⟨e, he, hp, hh, hf⟩ := pdEntry_vmmSample mem
  obtain ⟨pd, hpd, rfl⟩ := Option.map_eq_some_iff.mp he
  obtain ⟨⟨use, hl⟩, hat, hsame⟩ := kernel_page_kept (vmmSample_init _) hrun (has_of_created hc) hpd hh
  have hw := hl.hardwareWalk_huge (has_of_created hc) hat (by rw [hsame]; exact hh)
  rw [hsame, hf] at hw
  refine ⟨s, hrun, has_of_created hc, hw, ?_⟩
  have hword : s.mem 0x600 = mem 0x600 := by
    rw [hc.mem _ (by decide) (by decide), vmmSample_mem _ (by decide)]
  rw [Machine.vmmVirtToPhys, Mem.virtToPhys_onHuge hat (by rw [hsame]; exact hp), hsame, hf, hword,
    show pageIndex 3 0x600000 = 0 by decide, show 0x600000 % 4096 = 0 by decide, Nat.add_zero]

/-- Over zeroed memory `vmm_virt_to_phys` finds nothing there. -/
theorem walks_differ_at_huge_page : ∃ s, (sampleCalls.guard Careful).Path (vmmSample fun _ _ => 0) [.create] s ∧
    s.mem.hardwareWalk (s.pml4 (.page 2048)) 0x600000 = some (0x600000, false) ∧
    s.vmmVirtToPhys (.page 2048) 0x600000 = 0 := by
  obtain ⟨s, hrun, -, hw, hv⟩ := misreads_at_huge_page fun _ _ => 0
  exact ⟨s, hrun, hw, hv⟩

/-! ### Mapping and looking up -/

section Lookup
variable {s s' s₁ : Machine} {use use₁ : Nat → Use} {as : AsPtr} {virt va phys pt : Nat} {flags : Word}

/-- The four flags of `vmm.h`. -/
def vmmFlags : Word := flagPresent ||| flagWrite ||| flagUser ||| flagNx

theorem flagsOnly_of_vmmFlags (h : flags &&& ~~~vmmFlags = 0#64) : FlagsOnly (flags ||| flagPresent) := by
  have hmask : addrMask = ~~~vmmFlags &&& addrMask := by decide
  have hflags : FlagsOnly flags := by
    unfold FlagsOnly
    rw [hmask, ← BitVec.and_assoc, h, BitVec.zero_and]
  exact hflags.or rfl

theorem Machine.vmmUnmap_returns (has : as ≠ .null) (hv : virt % 4096 = 0) : ∃ s', s.vmmUnmap as virt = .ok s' := by
  unfold vmmUnmap
  rw [if_neg has, if_neg (by omega)]
  cases s.unmapTable as virt <;> exact ⟨_, rfl⟩

/-- Bits 12..47 of the two addresses are the same. -/
def SamePage (va virt : Nat) : Prop := va / 4096 % 2 ^ 36 = virt / 4096 % 2 ^ 36

/-- Mapping and looking up: in every address space of a careful run, an unmapped page away from 2 MiB pages can be
    mapped to any frame with any of the flags, given fresh pages for the tables. Its lookups then give the frame,
    those of other pages are as before, and unmapping it again makes it unmapped and leaves the others as before. -/
theorem map_lookup_laws {boot : BootInfo} {img : KernelImage} (hs : ((vmmCalls boot img).guard Careful).Reachable s)
    (has : s.Has as) (hv : virt % 4096 = 0) (hoff : s.mem.onHugePage (s.pml4 as) virt = false)
    (hun : s.mem.tableAt (s.pml4 as) virt 4 = none) (hphys : phys % 4096 = 0 ∧ 0 < phys ∧ phys < 2 ^ 52)
    (hflags : flags &&& ~~~vmmFlags = 0#64) :
    (3 ≤ s.pmm.freeCount → ∃ s', s.vmmMap as virt phys flags = .ok s') ∧
    ∀ s', s.vmmMap as virt phys flags = .ok s' →
      (∀ o < 4096, s'.vmmVirtToPhys as (virt + o) = phys + o) ∧
      (∀ va, ¬SamePage va virt → s.mem.onHugePage (s.pml4 as) va = false →
        s'.vmmVirtToPhys as va = s.vmmVirtToPhys as va) ∧
      ∃ s'', s'.vmmUnmap as virt = .ok s'' ∧ s''.vmmVirtToPhys as virt = 0 ∧
        ∀ va, ¬SamePage va virt → s.mem.onHugePage (s.pml4 as) va = false →
          s''.vmmVirtToPhys as va = s.vmmVirtToPhys as va := by
  obtain ⟨use, h⟩ := tableLayout_of_reachable hs
  refine ⟨fun hroom => (h.vmmMap_ok_iff has hv hphys.1 hoff).mpr ⟨hun, ?_⟩, fun s' hmap => ?_⟩
  · unfold Mem.missingTables Mem.missing
    split <;> split <;> split <;> omega
  obtain ⟨has', hpml4', hwalks⟩ := h.walk_vmmMap has hmap
  obtain ⟨s₁, use₁, pt, h₁, -, hst, hpt, -, hs'⟩ := h.vmmMap has hmap
  have hnotSame : ∀ {va}, ¬SamePage va virt → pagePath va 4 ≠ pagePath virt 4 :=
    fun hne hp => hne (pagePath_four_inj.mp hp)
  have h' : TableLayout s' use₁ := hs' ▸ h₁.writeLeaf hpt (pagePath_length _ _)
  have hkernel' : s'.kernelPml4 = s.kernelPml4 := by rw [hs']; exact hst.kernelPml4
  have hpt' : use₁ pt = .node (treeOf s'.kernelPml4 (s'.pml4 as) virt) (pagePath virt 3) := by
    rw [hpml4', hkernel']
    exact hpt
  obtain ⟨s'', hunmap⟩ := Machine.vmmUnmap_returns (s := s') (show as ≠ .null by rintro rfl; exact has) hv
  have hs'' : s'' = { s' with mem := s'.mem.write pt (pageIndex 3 virt) 0 } := by
    have hoff' : s'.mem.onHugePage (s'.pml4 as) virt = false := by rw [hpml4']; exact ((hwalks virt).2.1 rfl).1
    rcases h'.vmmUnmap has' hoff' hunmap with ⟨-, hnone⟩ | ⟨pt', hpt'', hs''⟩
    · exact absurd hpt' (hnone pt)
    · rwa [h'.trees.forest.unique hpt'' hpt'] at hs''
  have hclear := fun va => h'.walk_writeLeaf has' hpt' hs'' va
  rw [hpml4'] at hclear
  obtain ⟨-, hpml4'', -, -, -⟩ := hclear virt
  refine ⟨fun o ho => ?_, fun va hva hva' => ?_, s'', hunmap, ?_, fun va hva hva' => ?_⟩
  · have hsame : pagePath (virt + o) 4 = pagePath virt 4 := pagePath_four_inj.mpr (by omega)
    obtain ⟨hhuge, hwalk⟩ := (hwalks (virt + o)).2.1 hsame
    rw [frame_entry (by omega) (flagsOnly_of_vmmFlags hflags)] at hwalk
    rw [Machine.vmmVirtToPhys, hpml4', Mem.virtToPhys_eq hhuge, hwalk]
    show phys / 4096 * 4096 + (virt + o) % 4096 = phys + o
    omega
  · obtain ⟨hhuge, -, hwalk⟩ := hwalks va
    rw [Machine.vmmVirtToPhys, Machine.vmmVirtToPhys, hpml4', Mem.virtToPhys_eq hva',
      Mem.virtToPhys_eq (hhuge.trans hva'), hwalk (hnotSame hva)]
  · obtain ⟨hhuge, hwalk⟩ := (hclear virt).2.2.2.1 rfl
    rw [Machine.vmmVirtToPhys, hpml4'', Mem.virtToPhys_eq hhuge, hwalk, link_zero]
  · obtain ⟨hhuge, -, hwalk⟩ := hwalks va
    obtain ⟨-, -, hhuge', -, hwalk'⟩ := hclear va
    rw [Machine.vmmVirtToPhys, Machine.vmmVirtToPhys, hpml4'', Mem.virtToPhys_eq hva',
      Mem.virtToPhys_eq (hhuge'.trans (hhuge.trans hva')), hwalk' (hnotSame hva), hwalk (hnotSame hva)]

end Lookup

theorem map_lookup_laws_sample : ∃ s, (vmmSample fun _ _ => 0).vmmMap .kernel 0x8000000000 0x900000 flagWrite = .ok s ∧
    s.vmmVirtToPhys .kernel 0x8000000123 = 0x900123 := by
  have hwalk := vmmSample_second_slot
  have hkernel : (vmmSample fun _ _ => 0).Has .kernel := True.intro
  obtain ⟨hreturns, hlaws⟩ := map_lookup_laws (vmmSample_reachable fun _ _ => 0) hkernel
    (show 0x8000000000 % 4096 = 0 by decide)
    (Mem.onHugePage_of_none (Mem.tableAt_eq_none hwalk (by decide))) (Mem.tableAt_eq_none hwalk (by decide))
    (show 0x900000 % 4096 = 0 ∧ _ ∧ _ by decide) (show flagWrite &&& ~~~vmmFlags = 0#64 by decide)
  obtain ⟨s, hs⟩ := hreturns three_le_freeCount_vmmSample
  exact ⟨s, hs, (hlaws s hs).1 0x123 (by decide)⟩

/-- Memory where the first word of every page is an entry for the page itself. -/
def selfLinked : Mem := fun f i => if i = 0 then entry f 3#64 else 0

/-- `vmm_unmap` at a 2 MiB page of the higher half takes page 2048 for a page table and clears its first word, which
    holds the PML4 address of the address space. -/
theorem unmap_clears_pml4 : ∃ s, sampleCalls.Reachable s ∧ s.Has (.page 2048) ∧ s.pml4 (.page 2048) = 0 ∧
    s.mem 0 = selfLinked 0 ∧ s.mem 9 = selfLinked 9 := by
  obtain ⟨s, hrun, hc⟩ := vmmSample_create selfLinked
  obtain ⟨n, hmap, -⟩ := tableLayout_of_init (vmmSample_init selfLinked)
  have hn := hmap.count_le
  have hk := vmmSample_kernelPml4 selfLinked
  rw [hk] at hmap
  have hmem : ∀ f, f < 2048 → s.mem f = (vmmSample selfLinked).mem f := fun f hf => hc.mem f (by omega) (by omega)
  have hpml4 : s.pml4 (.page 2048) = 2049 := by
    rw [Machine.pml4, hc.pointer]
    rfl
  have h₀ : s.mem 2049 511 = entry (0x220 + 2 + n) 3#64 := by
    rw [(hc.slots (by rw [hk]; decide) (by rw [hk]; decide)).2, hk, hmap.tables.pml4, if_neg (by decide), if_pos rfl]
  have h₁ : s.mem (0x220 + 2 + n) 510 = entry (0x220 + 3 + n) 3#64 := by
    rw [hmem _ (by omega), hmap.tables.pdptHi, if_pos rfl]
  have h₂ : s.mem (0x220 + 3 + n) 4 = entry 2048 0x83#64 := by
    rw [hmem _ (by omega), hmap.map.pdHi 4 (by decide), highEntry_eq]
  have hunmap : s.vmmUnmap (.page 2048) 0xFFFFFFFF80800000 = .ok { s with mem := s.mem.write 2048 0 0 } := by
    have hi : pageIndex 0 0xFFFFFFFF80800000 = 511 ∧ pageIndex 1 0xFFFFFFFF80800000 = 510 ∧
      pageIndex 2 0xFFFFFFFF80800000 = 4 ∧ pageIndex 3 0xFFFFFFFF80800000 = 0 := by decide
    have hp : Word.present 3#64 = true ∧ Word.present 0x83#64 = true := by decide
    have hf₀ : (entry (0x220 + 2 + n) 3#64).frameLow = 0x220 + 2 + n := frameLow_entry (by omega) rfl
    have hf₁ : (entry (0x220 + 3 + n) 3#64).frameLow = 0x220 + 3 + n := frameLow_entry (by omega) rfl
    have hf₂ : (entry 2048 0x83#64).frameLow = 2048 := frameLow_entry (by decide) rfl
    unfold Machine.vmmUnmap Machine.unmapTable
    rw [if_neg (by decide), if_neg (by decide)]
    simp only [hpml4, hi, h₀, h₁, h₂, hf₀, hf₁, hf₂, present_entry, hp, not_true_eq_false, if_false]
  have hreach := hrun.of_guard.reachable ⟨[], _, vmmSample_init _, .nil⟩
  have has : s.Has (.page 2048) := has_of_created hc
  refine ⟨{ s with mem := s.mem.write 2048 0 0 },
    hreach.step (e := .unmap (.page 2048) 0xFFFFFFFF80800000) ⟨has, hunmap⟩, has, ?_, ?_, ?_⟩
  · rw [Machine.pml4]
    dsimp only
    rw [Mem.write_same]
    rfl
  all_goals
    dsimp only
    rw [Mem.write_of_ne _ _ _ (by decide), hmem _ (by decide), vmmSample_mem _ (by decide)]

/-- In an address space that has lost its PML4, mapping one page changes the lookup of another one. -/
theorem map_changes_other_lookup : ∃ s s', sampleCalls.Reachable s ∧ s.Has (.page 2048) ∧
    s.mem.onHugePage (s.pml4 (.page 2048)) 0x1000 = false ∧ s.mem.tableAt (s.pml4 (.page 2048)) 0x1000 4 = none ∧
    s.vmmMap (.page 2048) 0x1000 0x9000 flagWrite = .ok s' ∧
    s.mem.onHugePage (s.pml4 (.page 2048)) 0x200000 = false ∧ ¬SamePage 0x200000 0x1000 ∧
    s.vmmVirtToPhys (.page 2048) 0x200000 = 0 ∧ s'.vmmVirtToPhys (.page 2048) 0x200000 = 0x9000 := by
  obtain ⟨s, hs, has, hpml4, h0, h9⟩ := unmap_clears_pml4
  have htable : s.getOrCreateTable 0 0 (Machine.tableFlags flagWrite) = .ok (0, s) := by
    unfold Machine.getOrCreateTable
    rw [if_pos (by rw [h0]; decide), if_neg (by decide)]
    dsimp only
    rw [h0]
    rfl
  have hmap : s.vmmMap (.page 2048) 0x1000 0x9000 flagWrite = .ok { s with mem := s.mem.write 0 1 (entry 9 3#64) } :=
    Machine.vmmMap_of_tables (by decide) (by decide) (by decide) (by rw [hpml4]; exact htable) htable
      (by rw [h0]; decide)
      htable (by rw [h0]; decide)
  -- Page 0 is its own PDPT and page directory, before the call and after it.
  have hself : ∀ (m : Mem) (virt : Nat), m 0 0 = entry 0 3#64 → pageIndex 0 virt = 0 → pageIndex 1 virt = 0 →
      m.tableAt 0 virt 2 = some 0 := fun m virt hm hi₀ hi₁ => by
    have h₁ : m.tableAt 0 virt 1 = some 0 := by rw [Mem.tableAt_succ rfl, hi₀, hm, link_entry (by decide)]
    rw [Mem.tableAt_succ h₁, hi₁, hm, link_entry (by decide)]
  have hword : s.mem 0 0 = entry 0 3#64 ∧ s.mem 0 1 = 0 := by rw [h0]; exact ⟨rfl, rfl⟩
  have hword' : s.mem.write 0 1 (entry 9 3#64) 0 0 = entry 0 3#64 := by
    rw [Mem.write_apply, if_neg (by decide)]
    exact hword.1
  have hpd := hself s.mem 0x200000 hword.1 (by decide) (by decide)
  have hpd' := hself _ 0x200000 hword' (by decide) (by decide)
  have hpt : s.mem.tableAt 0 0x1000 3 = some 0 := by
    rw [Mem.tableAt_succ (hself s.mem 0x1000 hword.1 (by decide) (by decide))]
    exact (congrArg (link 2) hword.1).trans (link_entry (by decide))
  have hnone : s.mem.tableAt 0 0x200000 3 = none := by
    rw [Mem.tableAt_succ hpd]
    exact (congrArg (link 2) hword.2).trans (link_zero 2)
  have hpt' : (s.mem.write 0 1 (entry 9 3#64)).tableAt 0 0x200000 3 = some 9 := by
    rw [Mem.tableAt_succ hpd']
    exact (congrArg (link 2) (Mem.write_same _ _ _ _)).trans (link_entry (by decide))
  have hpage' : (s.mem.write 0 1 (entry 9 3#64)).tableAt 0 0x200000 4 = some 9 := by
    rw [Mem.tableAt_succ hpt', Mem.write_of_ne _ _ _ (by decide), h9]
    exact link_entry (by decide)
  have hhuge : s.mem.onHugePage 0 0x200000 = false := by
    rw [Mem.onHugePage, hpd]
    exact congrArg (fun w : Word => w.present && w.huge) hword.2
  have hpml4' : ({ s with mem := s.mem.write 0 1 (entry 9 3#64) } : Machine).pml4 (.page 2048) = 0 := by
    rw [Machine.pml4] at hpml4 ⊢
    dsimp only
    rw [Mem.write_of_ne _ _ _ (by decide), hpml4]
  refine ⟨s, _, hs, has, ?_, ?_, hmap, ?_, by unfold SamePage; decide, ?_, ?_⟩
  · rw [hpml4]
    exact Mem.onHugePage_of_tableAt hpt
  · rw [hpml4, Mem.tableAt_succ hpt]
    exact (congrArg (link 3) hword.2).trans (link_zero 3)
  · rw [hpml4]
    exact hhuge
  · rw [Machine.vmmVirtToPhys, hpml4, Mem.virtToPhys_eq hhuge, Mem.tableAt_eq_none hnone (by decide)]
  · rw [Machine.vmmVirtToPhys, hpml4', Mem.virtToPhys_eq (Mem.onHugePage_of_tableAt hpt'), hpage']

end SamOS
