import SamOS.VmmLaws
import SamOS.Lib.Cached

/-! The translation buffer of the processor under the virtual memory manager. `vmm_map` and `vmm_unmap` flush one page
    with `tlb_flush`, also when the tables are not those in `cr3`, and `vmm_switch` flushes all of it. -/

namespace SamOS
open Lts Paging Cached

/-! ### Walks of any address space -/

/-- The physical address that the processor finds. -/
def Mem.translate (m : Mem) (pml4 virt : Nat) : Option Nat := (m.hardwareWalk pml4 virt).map Prod.fst

section Walks
variable {s s' : Machine} {use use' : Nat → Use} {as cur : AsPtr} {virt va pt : Nat}

/-- Translations are the same if the entries of 2 MiB pages and the ends of the other walks are. -/
theorem TableLayout.translate_eq (h : TableLayout s use) (h' : TableLayout s' use') (has : s.Has cur)
    (has' : s'.Has cur) (hp : s'.pml4 cur = s.pml4 cur) (hk : s'.kernelPml4 = s.kernelPml4)
    (hnode : ∀ {pd r}, use pd = .node r (pagePath va 2) → (s.mem pd (pageIndex 2 va)).huge = true →
      use' pd = .node r (pagePath va 2) ∧ s'.mem pd (pageIndex 2 va) = s.mem pd (pageIndex 2 va))
    (hhuge : s'.mem.onHugePage (s.pml4 cur) va = s.mem.onHugePage (s.pml4 cur) va)
    (hpage : s'.mem.tableAt (s.pml4 cur) va 4 = s.mem.tableAt (s.pml4 cur) va 4) :
    s'.mem.translate (s.pml4 cur) va = s.mem.translate (s.pml4 cur) va := by
  unfold Mem.translate
  cases hh : s.mem.onHugePage (s.pml4 cur) va with
  | false =>
    have hbig' : s'.mem.NoGigabytePage (s.pml4 cur) va := hp ▸ h'.noGigabytePage has'
    rw [Mem.hardwareWalk_eq (h.noGigabytePage has) hh, Mem.hardwareWalk_eq hbig' (hhuge.trans hh), hpage]
  | true =>
    obtain ⟨pd, hpd, he⟩ := (h.onHugePage_iff has).mp hh
    obtain ⟨hpd', he'⟩ := hnode hpd he
    have hat : s.mem.tableAt (s.pml4 cur) va 2 = some pd := (h.tableAt_iff has (by decide)).mpr hpd
    have hat' : s'.mem.tableAt (s'.pml4 cur) va 2 = some pd :=
      (h'.tableAt_iff has' (by decide)).mpr (by rw [hp, hk]; exact hpd')
    rw [h.hardwareWalk_huge has hat he, ← hp, h'.hardwareWalk_huge has' hat' (by rw [he']; exact he), he']

theorem TableLayout.translate_congr {m : Mem} (h : TableLayout s use) (has : s.Has cur)
    (hm : ∀ {t r p}, use t = .node r p → m t = s.mem t) :
    m.translate (s.pml4 cur) va = s.mem.translate (s.pml4 cur) va := by
  unfold Mem.translate
  rw [Mem.hardwareWalk_congr fun n hn t ht => ?_]
  cases n with
  | zero =>
    cases ht
    exact hm (h.root has)
  | succ n => exact hm ((h.tableAt_iff has (by omega)).mp ht)

/-- An entry of a page table of another tree is read by no walk of an address space. -/
theorem TableLayout.walk_leaf_other (h : TableLayout s use) (has : s.Has cur) {r i : Nat} {w : Word}
    (hpt : use pt = .node r (pagePath virt 3)) (hr : r ≠ treeOf s.kernelPml4 (s.pml4 cur) virt)
    (hs' : s' = { s with mem := s.mem.write pt i w }) (va : Nat) :
    s'.Has cur ∧ s'.pml4 cur = s.pml4 cur ∧ s'.mem.onHugePage (s.pml4 cur) va = s.mem.onHugePage (s.pml4 cur) va ∧
    s'.mem.tableAt (s.pml4 cur) va 4 = s.mem.tableAt (s.pml4 cur) va 4 := by
  have hmem : s'.mem = s.mem.write pt i w := by rw [hs']
  obtain ⟨has', hpml4⟩ := h.has_of_steady (show s.Steady s' from ⟨by rw [hs'], by rw [hs'], by rw [hs']⟩) (fun ha => by
    rw [hmem, Mem.write_of_ne _ _ _ (by rintro rfl; cases ha.symm.trans hpt)]) has
  have hsame : ∀ k ≤ 3, ∀ t, s.mem.tableAt (s.pml4 cur) va k = some t → s'.mem t = s.mem t := by
    intro k hk t ht
    rw [hmem]
    refine Mem.write_of_ne _ _ _ ?_
    rintro rfl
    cases k with
    | zero =>
      cases ht
      have hlen := congrArg List.length (Use.node.inj (hpt.symm.trans (h.root has))).2
      rw [pagePath_length] at hlen
      cases hlen
    | succ k =>
      -- The table is the one at the end of the path of `virt`, in the tree of that path.
      obtain ⟨hroot, hpath⟩ := Use.node.inj (hpt.symm.trans ((h.tableAt_iff has (by omega)).mp ht))
      have hlen := congrArg List.length hpath
      rw [pagePath_length, pagePath_length] at hlen
      rw [← hlen] at hpath
      exact hr (hroot.trans (treeOf_eq_of_path hpath.symm (by decide) _ _))
  have hwalk : ∀ n ≤ 4, s'.mem.tableAt (s.pml4 cur) va n = s.mem.tableAt (s.pml4 cur) va n := fun n hn =>
    Mem.tableAt_congr fun k hkn t ht => hsame k (by omega) t ht
  refine ⟨has', hpml4, ?_, hwalk 4 (Nat.le_refl 4)⟩
  unfold Mem.onHugePage
  rw [hwalk 2 (by decide)]
  cases ht : s.mem.tableAt (s.pml4 cur) va 2 with
  | none => rfl
  | some t =>
    dsimp only
    rw [hsame 2 (by decide) t ht]

/-- Writing an entry of a page table changes the translations of one page, in every address space. -/
theorem TableLayout.translate_writeLeaf (h : TableLayout s use) (has : s.Has cur) {w : Word}
    (hpt : use pt = .node (treeOf s.kernelPml4 (s.pml4 as) virt) (pagePath virt 3))
    (hs' : s' = { s with mem := s.mem.write pt (pageIndex 3 virt) w }) (hva : ¬SamePage va virt) :
    s'.Has cur ∧ s'.pml4 cur = s.pml4 cur ∧ s'.mem.translate (s.pml4 cur) va = s.mem.translate (s.pml4 cur) va := by
  have hwalks : s'.Has cur ∧ s'.pml4 cur = s.pml4 cur ∧ s'.mem.onHugePage (s.pml4 cur) va = s.mem.onHugePage
    (s.pml4 cur) va ∧
      s'.mem.tableAt (s.pml4 cur) va 4 = s.mem.tableAt (s.pml4 cur) va 4 := by
    by_cases htree : treeOf s.kernelPml4 (s.pml4 as) virt = treeOf s.kernelPml4 (s.pml4 cur) virt
    · obtain ⟨h1, h2, h3, -, h5⟩ := h.walk_writeLeaf has (htree ▸ hpt) hs' va
      exact ⟨h1, h2, h3, h5 fun hp => hva (pagePath_four_inj.mp hp)⟩
    · exact h.walk_leaf_other has hpt htree hs' va
  obtain ⟨has', hpml4, hhuge, hpage⟩ := hwalks
  have h' : TableLayout s' use := hs' ▸ h.writeLeaf hpt (pagePath_length _ _)
  refine ⟨has', hpml4, h.translate_eq h' has has' hpml4 (by rw [hs']) (fun {pd r} hpd _ => ⟨hpd, ?_⟩) hhuge hpage⟩
  rw [hs']
  refine congrFun (Mem.write_of_ne _ _ _ ?_) _
  rintro rfl
  have hlen := congrArg List.length (Use.node.inj (hpd.symm.trans hpt)).2
  rw [pagePath_length, pagePath_length] at hlen
  cases hlen

end Walks

/-! ### `tlb_flush` -/

/-- Bits 47 to 63 are the same. -/
def Canonical (virt : Nat) : Prop := virt < 2 ^ 47 ∨ 2 ^ 64 - 2 ^ 47 ≤ virt ∧ virt < 2 ^ 64

instance (virt : Nat) : Decidable (Canonical virt) := inferInstanceAs (Decidable (_ ∨ _))

/-- `tlb_flush`: `invlpg` does nothing for an address that is not canonical. -/
def tlbFlush (virt : Nat) (tlb : Cache Nat Nat) : Cache Nat Nat :=
  if Canonical virt then flush (SamePage · virt) tlb else tlb

/-- A `vmm_unmap` that does not come to `tlb_flush` has changed nothing. -/
theorem Machine.vmmUnmap_of_none {s s' : Machine} {as : AsPtr} {virt : Nat} (h : s.unmapTable as virt = none)
    (hunmap : s.vmmUnmap as virt = .ok s') : s' = s := by
  unfold vmmUnmap at hunmap
  split at hunmap
  · cases hunmap
  split at hunmap
  · cases hunmap
  rw [h] at hunmap
  exact (Except.ok.inj hunmap).symm

/-! ### Runs -/

/-- The machine with the address space that was switched to last, `cr3`, and the translations in the buffer. -/
structure TlbMachine where
  machine : Machine
  current : AsPtr
  cr3 : Nat
  tlb : Cache Nat Nat

/-- A call of the virtual memory manager, a switch, or a walk of the processor, at any time. -/
inductive TlbEvent where
  | create
  | map (as : AsPtr) (virt phys : Nat) (flags : Word)
  | unmap (as : AsPtr) (virt : Nat)
  | destroy (as : Nat)
  | switch (as : AsPtr)
  | walk (virt : Nat)

/-- The calls that return, for canonical addresses. No address on a 2 MiB page is unmapped, and the current address
    space is not destroyed. -/
def tlbRuns (boot : BootInfo) (img : KernelImage) : System TlbMachine TlbEvent where
  init s := (vmmCalls boot img).init s.machine ∧ s.current = .kernel ∧ s.cr3 = s.machine.kernelPml4 ∧ s.tlb = empty
  step s e s' := match e with
    | .create => ∃ o m, s.machine.vmmCreateAddressSpace = .ok (o, m) ∧ s' = { s with machine := m }
    | .map as virt phys flags => s.machine.Has as ∧ Canonical virt ∧
        ∃ m, s.machine.vmmMap as virt phys flags = .ok m ∧ s' = { s with machine := m, tlb := tlbFlush virt s.tlb }
    | .unmap as virt => s.machine.Has as ∧ Canonical virt ∧ s.machine.mem.onHugePage (s.machine.pml4 as) virt = false ∧
        ∃ m, s.machine.vmmUnmap as virt = .ok m ∧
          s' = { s with machine := m, tlb := if (s.machine.unmapTable as virt).isSome then tlbFlush virt s.tlb else s.tlb }
    | .destroy a => alive s.machine.log a = true ∧ s.current ≠ .page a ∧
      s' = { s with machine := s.machine.vmmDestroyAddressSpace a }
    | .switch as => s.machine.Has as ∧ s' = { s with current := as, cr3 := s.machine.pml4 as, tlb := empty }
    | .walk virt => Canonical virt ∧ s' = { s with tlb := fill (s.machine.mem.translate s.cr3) (SamePage · virt) s.tlb }

/-- The current address space is there, and the buffer has only what its tables say. -/
structure TlbCoherent (s : TlbMachine) : Prop where
  layout : ∃ use, TableLayout s.machine use
  has : s.machine.Has s.current
  cr3 : s.cr3 = s.machine.pml4 s.current
  coherent : Coherent (s.machine.mem.translate s.cr3) s.tlb

section Runs
variable {s s' : TlbMachine} {boot : BootInfo} {img : KernelImage} {m : Machine}

theorem TableLayout.has_of_created {m' : Machine} {use : Nat → Use} {cur : AsPtr} {a r : Nat} (hl : TableLayout m use)
    (hc : Machine.Created m a r m') (hmem : ∀ f, use f ≠ .free → m'.mem f = m.mem f) (has : m.Has cur) :
    m'.Has cur ∧ m'.pml4 cur = m.pml4 cur := by
  cases cur with
  | null => exact has.elim
  | kernel => exact ⟨True.intro, hc.kernelPml4⟩
  | page b =>
    obtain ⟨r', hb⟩ := (hl.live b).mp has
    refine ⟨?_, by rw [Machine.pml4, Machine.pml4, hmem b (by simp [hb])]⟩
    show alive m'.log b = true
    rw [hc.log, alive, Bool.or_eq_true]
    exact .inr has

/-- A call that changes the translations of the flushed addresses at most. -/
theorem TlbCoherent.call (h : TlbCoherent s) {set : Nat → Prop} (hl : ∃ use, TableLayout m use)
    (hm : ∀ va, ¬set va → m.Has s.current ∧ m.pml4 s.current = s.machine.pml4 s.current ∧
      m.mem.translate (s.machine.pml4 s.current) va = s.machine.mem.translate (s.machine.pml4 s.current) va)
    (hout : ∃ va, ¬set va) : TlbCoherent { s with machine := m, tlb := flush set s.tlb } := by
  obtain ⟨va, hva⟩ := hout
  refine ⟨hl, (hm va hva).1, h.cr3.trans (hm va hva).2.1.symm, h.coherent.flush fun a ha => ?_⟩
  show m.mem.translate s.cr3 a = _
  rw [h.cr3]
  exact (hm a ha).2.2

theorem exists_other_page (virt : Nat) : ∃ va, ¬SamePage va virt := by
  by_cases h : SamePage 0 virt
  · refine ⟨4096, fun h' => ?_⟩
    unfold SamePage at h h'
    omega
  · exact ⟨0, h⟩

theorem TlbCoherent.create (h : TlbCoherent s) {o : Option Nat} (hc : s.machine.vmmCreateAddressSpace = .ok (o, m)) :
    TlbCoherent { s with machine := m } := by
  obtain ⟨use, hl⟩ := h.layout
  rcases hl.vmmCreateAddressSpace hc with ⟨-, rfl⟩ | ⟨a, r, -, hc, hl'⟩
  · exact h
  have ha := (hl.owned.free_iff a).mpr hc.freeSpace
  have hr := (hl.owned.free_iff r).mpr (Pmm.free_takePage_iff.mp hc.freePml4).1
  have hmem : ∀ f, use f ≠ .free → m.mem f = s.machine.mem f := fun f hf =>
    hc.mem f (by rintro rfl; exact hf ha) (by rintro rfl; exact hf hr)
  obtain ⟨hhas, hpml4⟩ := hl.has_of_created hc hmem h.has
  refine ⟨⟨_, hl'⟩, hhas, h.cr3.trans hpml4.symm, h.coherent.congr fun va => ?_⟩
  show m.mem.translate s.cr3 va = _
  rw [h.cr3]
  exact hl.translate_congr h.has fun {t r p} ht => hmem t (by rw [ht]; exact nofun)

theorem TlbCoherent.map (h : TlbCoherent s) {as : AsPtr} {virt phys : Nat} {flags : Word} (has : s.machine.Has as)
    (hv : Canonical virt) (hmap : s.machine.vmmMap as virt phys flags = .ok m) :
    TlbCoherent { s with machine := m, tlb := tlbFlush virt s.tlb } := by
  obtain ⟨use, hl⟩ := h.layout
  rw [tlbFlush, if_pos hv]
  obtain ⟨s₁, use₁, pt, h₁, hg, hst, hpt, -, hm⟩ := hl.vmmMap has hmap
  obtain ⟨-, hpml4as, -, -⟩ := hl.walk_extends h₁ hg hst has virt
  rw [← hpml4as, ← hst.kernelPml4] at hpt
  refine h.call ⟨use₁, hm ▸ h₁.writeLeaf hpt (pagePath_length _ _)⟩ (fun va hva => ?_) (exists_other_page virt)
  -- Making the tables changes no translation, and the new entry only those of its page.
  obtain ⟨has₁, hpml4₁, hhuge, hpage⟩ := hl.walk_extends h₁ hg hst h.has va
  have hsame := hl.translate_eq h₁ h.has has₁ hpml4₁ hst.kernelPml4
    (fun {pd r} hpd he => ⟨hg.node hpd, hg.huge hpd (pagePath_length _ _) he⟩) hhuge hpage
  obtain ⟨hhas, hpml4, htrans⟩ := h₁.translate_writeLeaf has₁ hpt hm hva
  rw [hpml4₁] at hpml4 htrans
  exact ⟨hhas, hpml4, htrans.trans hsame⟩

theorem TlbCoherent.unmap (h : TlbCoherent s) {as : AsPtr} {virt : Nat} (has : s.machine.Has as) (hv : Canonical virt)
    (hoff : s.machine.mem.onHugePage (s.machine.pml4 as) virt = false) (hunmap : s.machine.vmmUnmap as virt = .ok m) :
    TlbCoherent { s with machine := m, tlb := if (s.machine.unmapTable as virt).isSome then tlbFlush virt s.tlb else s.tlb } := by
  obtain ⟨use, hl⟩ := h.layout
  cases htable : s.machine.unmapTable as virt with
  | none =>
    obtain rfl := Machine.vmmUnmap_of_none htable hunmap
    exact h
  | some t =>
    rw [Option.isSome_some, if_pos rfl, tlbFlush, if_pos hv]
    rcases hl.vmmUnmap has hoff hunmap with ⟨rfl, -⟩ | ⟨pt, hpt, hm⟩
    · exact h.call ⟨use, hl⟩ (fun va _ => ⟨h.has, rfl, rfl⟩) (exists_other_page virt)
    · exact h.call ⟨use, hm ▸ hl.writeLeaf hpt (pagePath_length _ _)⟩
        (fun va hva => hl.translate_writeLeaf h.has hpt hm hva)
        (exists_other_page virt)

theorem TlbCoherent.destroy (h : TlbCoherent s) {a : Nat} (halive : alive s.machine.log a = true)
    (hne : s.current ≠ .page a) :
    TlbCoherent { s with machine := s.machine.vmmDestroyAddressSpace a } := by
  obtain ⟨use, hl⟩ := h.layout
  obtain ⟨r, ha⟩ := (hl.live a).mp halive
  refine ⟨⟨_, hl.vmmDestroyAddressSpace ha⟩, ?_, h.cr3.trans ?_, h.coherent⟩
  · have hhas := h.has
    show (s.machine.vmmDestroyAddressSpace a).Has s.current
    cases hcur : s.current with
    | null =>
      rw [hcur] at hhas
      exact hhas.elim
    | kernel => exact True.intro
    | page b =>
      rw [hcur] at hhas hne
      show (b != a && alive s.machine.log b) = true
      rw [Bool.and_eq_true, bne_iff_ne]
      exact ⟨fun hba => hne (congrArg AsPtr.page hba), hhas⟩
  · show s.machine.pml4 s.current = (s.machine.vmmDestroyAddressSpace a).pml4 s.current
    cases s.current <;> rfl

theorem TlbCoherent.step (h : TlbCoherent s) {e : TlbEvent} (hstep : (tlbRuns boot img).step s e s') :
    TlbCoherent s' := by
  obtain ⟨use, hl⟩ := h.layout
  cases e with
  | create =>
    obtain ⟨o, m, hc, rfl⟩ := hstep
    exact h.create hc
  | map as virt phys flags =>
    obtain ⟨has, hv, m, hmap, rfl⟩ := hstep
    exact h.map has hv hmap
  | unmap as virt =>
    obtain ⟨has, hv, hoff, m, hunmap, rfl⟩ := hstep
    exact h.unmap has hv hoff hunmap
  | destroy a =>
    obtain ⟨halive, hne, rfl⟩ := hstep
    exact h.destroy halive hne
  | switch as =>
    obtain ⟨has, rfl⟩ := hstep
    exact ⟨⟨use, hl⟩, has, rfl, coherent_empty _⟩
  | walk virt =>
    obtain ⟨-, rfl⟩ := hstep
    exact ⟨⟨use, hl⟩, h.has, h.cr3, h.coherent.fill⟩

theorem tlbCoherent_of_init (h : (tlbRuns boot img).init s) : TlbCoherent s := by
  obtain ⟨hinit, hcur, hcr3, htlb⟩ := h
  obtain ⟨n, -, hl⟩ := tableLayout_of_init hinit
  refine ⟨⟨_, hl⟩, ?_, ?_, htlb ▸ coherent_empty _⟩
  · rw [hcur]
    exact True.intro
  · rw [hcur]
    exact hcr3

/-- In every run, whatever was mapped and unmapped in whichever address space, the buffer translates as the tables in
    `cr3` do. -/
theorem tlb_never_stale (h : (tlbRuns boot img).Reachable s) (va pa : Nat) (hpa : s.tlb va pa) :
    s.cr3 = s.machine.pml4 s.current ∧ s.machine.mem.translate s.cr3 va = some pa := by
  have hc : TlbCoherent s := h.invariant (I := TlbCoherent) tlbCoherent_of_init fun h hstep => h.step hstep
  exact ⟨hc.cr3, hc.coherent va pa hpa⟩

end Runs

/-- The sample machine after a walk for 6 MiB. -/
theorem tlb_after_walk :
    ∃ s, (tlbRuns Pmm.sampleFirmware.toBootInfo Pmm.sampleImage).Reachable s ∧ s.tlb 0x600000 0x600000 ∧
    s.machine.mem.translate s.cr3 0x600000 = some 0x600000 := by
  let s₀ : TlbMachine := ⟨vmmSample fun _ _ => 0, .kernel, (vmmSample fun _ _ => 0).kernelPml4, empty⟩
  have hinit : (tlbRuns Pmm.sampleFirmware.toBootInfo Pmm.sampleImage).init s₀ := ⟨vmmSample_init _, rfl, rfl, rfl⟩
  have hstep : (tlbRuns Pmm.sampleFirmware.toBootInfo Pmm.sampleImage).step s₀ (.walk 0x600000)
      { s₀ with tlb := fill (s₀.machine.mem.translate s₀.cr3) (SamePage · 0x600000) s₀.tlb } := ⟨by decide, rfl⟩
  have hreach₀ : (tlbRuns Pmm.sampleFirmware.toBootInfo Pmm.sampleImage).Reachable s₀ := ⟨[], _, hinit, .nil⟩
  have hreach := hreach₀.step hstep
  obtain ⟨n, hmap, -⟩ := tableLayout_of_init (vmmSample_init fun _ _ => 0)
  have hlow : s₀.machine.mem.hardwareWalk s₀.cr3 0x600000 = some (0x600000, false) :=
    hmap.walk_low (by decide) (by decide)
  have hwalk : s₀.machine.mem.translate s₀.cr3 0x600000 = some 0x600000 := congrArg (Option.map Prod.fst) hlow
  have hin : fill (s₀.machine.mem.translate s₀.cr3) (SamePage · 0x600000) s₀.tlb 0x600000 0x600000 := .inr ⟨rfl, hwalk⟩
  exact ⟨_, hreach, hin, (tlb_never_stale hreach _ _ hin).2⟩

end SamOS
