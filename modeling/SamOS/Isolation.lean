import SamOS.LoadBytes
import SamOS.KernelRuns

/-! Isolation of address spaces. All address spaces share the tables under entry 0 of the PML4, where user programs
    are linked. A spawn leaves the translations and the bytes of the other processes alone exactly when it maps
    nothing new there and writes nothing new there. -/

namespace SamOS
open Lts Result

/-! ### What a load leaves -/

namespace Machine

/-- Below entry 0 of the PML4 the segments of the image lie in pages that are there, and their bytes are there too. -/
structure Spares (s : Machine) (img : Image) : Prop where
  mapped : ∀ va, img.Touches va → pageIndex 0 va = 0 → s.MapsLow va
  bytes : ∀ va < 2 ^ 39, s.MapsLow va → img.overlay s.kernelByte va = s.kernelByte va

/-- The user addresses of the address space `a` lead where they did, and the bytes there are the same. An address on a
    2 MiB page is the kernel's. -/
def SameFor (s s' : Machine) (a : Nat) : Prop :=
  ∀ va < userUpperLimit, s.mem.onHugePage (s.pml4 (.page a)) va = false →
    s'.vmmVirtToPhys (.page a) va = s.vmmVirtToPhys (.page a) va ∧
    (s.vmmVirtToPhys (.page a) va ≠ 0 →
      s'.mem.readByte (s.vmmVirtToPhys (.page a) va) = s.mem.readByte (s.vmmVirtToPhys (.page a) va))

/-- What a load of the image leaves: the labels, and the tables, pages and bytes of the new address space with the
    PML4 `r`. -/
structure Overlaid (s : Machine) (use : Nat → Use) (img : Image) (s' : Machine) (use' : Nat → Use) (r : Nat) :
    Prop where
  layout : Layout s' use'
  grows : Grows (LoadScope s.kernelPml4 use img) s.mem use s'.mem use'
  kernelPml4 : s'.kernelPml4 = s.kernelPml4
  root : use' r = .node r []
  off : ∀ va, img.Touches va → pageIndex 0 va = 0 → s.mem.onHugePage s.kernelPml4 va = false
  touched : ∀ va, img.Touches va → (s'.mem.tableAt r va 4).isSome = true
  mapped : ∀ va, (s'.mem.tableAt r va 4).isSome = true → s.shares va 4 = true ∨
    ∃ virt, img.Loads virt ∧ s.shares virt 4 = false ∧ pagePath va 4 = pagePath virt 4
  bytes : ∀ va, s.MapsLow va → ∃ f, s'.mem.tableAt r va 4 = some f ∧
    s'.mem.readByte (f * 4096 + va % 4096) = img.overlay s.kernelByte (va % 2 ^ 48)

end Machine

theorem Layout.loadProgram_overlaid {s s' : Machine} {use : Nat → Use} {img : Image} {p : Kernel.Program}
    (h : Layout s use) (hav : s.Avoids img) (hl : s.loadProgram img = .ok (some p, s')) :
    ∃ use' r, s.Overlaid use img s' use' r := by
  obtain ⟨use', hev, hprog⟩ := h.loadProgram hav hl
  obtain ⟨r, hprog⟩ := hprog p rfl
  obtain ⟨r₁, hshows⟩ := h.loadProgram_shows hav hl
  have hroot {x : Nat} (hx : ∃ use, Layout s' use ∧ use p.space = .space x) : x = r := by
    obtain ⟨use₁, hl₁, hsp⟩ := hx
    exact (hl₁.pml4_eq hsp).symm.trans (hev.layout.pml4_eq hprog.space)
  obtain rfl := hroot hshows.layout
  have hsim := h.loadProgram_budget hav
  rw [hl] at hsim
  generalize hb : Budget.loadProgram s.shares { free := s.pmm.freeCount, pages := [] } img = res at hsim
  cases hsim with
  | @ok _ _ b htracks =>
    obtain ⟨r₂, huge, htr, hoff⟩ := htracks p rfl
    obtain rfl := hroot htr.layout
    obtain ⟨hfresh, htouched⟩ := Budget.loadProgram_grows hb
    refine ⟨use', r₂, hev.layout, hev.grows, hev.kernelPml4, (hev.layout.tables.space hprog.space).2.1,
      fun va hva => (hoff va hva).2, fun va hva => ?_, fun va hva => ?_, hshows.bytes⟩
    · rw [htr.has va (hoff va hva).1 4 (by decide) (by decide)]
      exact htouched va hva
    · obtain ⟨f, hf⟩ := Option.isSome_iff_exists.mp hva
      obtain ⟨t, ht, -⟩ := Mem.tableAt_eq_some hf
      rw [htr.has va ((htr.onHuge va).symm.trans (Mem.onHugePage_of_tableAt ht)) 4 (by decide) (by decide),
        Budget.has, Bool.or_eq_true, List.any_eq_true] at hva
      rcases hva with hold | ⟨virt, hvirt, hpath⟩
      · exact Or.inl hold
      · exact Or.inr ⟨virt, (hfresh virt hvirt).1, (hfresh virt hvirt).2, beq_iff_eq.mp hpath⟩

namespace Machine.Overlaid
variable {s s' : Machine} {use use' : Nat → Use} {img : Image} {r : Nat}

theorem heapStep (h : s.Overlaid use img s' use' r) {k k' : Kernel} {use'' : Nat → Use} (hs : k.machine = s')
    (hst : HeapStep k use' k' use'') : s.Overlaid use img k'.machine use'' r := by
  subst hs
  have ht := h.layout.tables
  have hwalk : ∀ va, k'.machine.mem.tableAt r va 4 = k.machine.mem.tableAt r va 4 := fun va =>
    ht.tableAt_eq hst.grows h.root id id (Nat.le_refl 4)
  refine ⟨hst.memory.layout, h.grows.trans (hst.grows.mono fun _ h => h.elim), hst.steady.kernelPml4.trans h.kernelPml4,
    hst.grows.node h.root, h.off, fun va hva => ?_, fun va hva => ?_, fun va hva => ?_⟩
  · rw [hwalk]
    exact h.touched va hva
  · rw [hwalk] at hva
    exact h.mapped va hva
  · obtain ⟨f, hf, hb⟩ := h.bytes va hva
    refine ⟨f, (hwalk va).trans hf, ?_⟩
    rw [← hb]
    unfold Mem.readByte
    rw [show (f * 4096 + va % 4096) / 4096 = f by omega, hst.grows.mem_node (ht.tableAt_node h.root (by decide) hf) id]

theorem walk_low (h : s.Overlaid use img s' use' r) {q va : Nat} (hq : use' q = .node q []) (hva : pageIndex 0 va = 0) :
    s'.mem.tableAt q va 4 = s'.mem.tableAt r va 4 :=
  (h.layout.tables.tableAt_shared hq (Or.inl hva) (by decide)).trans
    (h.layout.tables.tableAt_shared h.root (Or.inl hva) (by decide)).symm

section Others
-- `a` is the page of another address space, and `q` its PML4.
variable {a q va : Nat}

theorem scope_other (hl : Layout s use) (ha : use a = .space q) : ¬LoadScope s.kernelPml4 use img q := by
  obtain ⟨hk, hroot, -⟩ := hl.tables.space ha
  rintro (hfree | ⟨rfl, -⟩)
  · cases hfree.symm.trans hroot
  · exact hk rfl

theorem same_above (h : s.Overlaid use img s' use' r) (hl : Layout s use) (ha : use a = .space q)
    (hva : va < userUpperLimit) (h0 : pageIndex 0 va ≠ 0) (hoff : s.mem.onHugePage q va = false) :
    s'.mem.virtToPhys q va = s.mem.virtToPhys q va ∧
    (s.mem.virtToPhys q va ≠ 0 → s'.mem.readByte (s.mem.virtToPhys q va) = s.mem.readByte (s.mem.virtToPhys q va)) := by
  have hroot := (hl.tables.space ha).2.1
  have hscope : ¬LoadScope s.kernelPml4 use img q := scope_other hl ha
  have htree : treeOf s.kernelPml4 q va = q := by
    have := Layout.pageIndex_zero_lt hva
    unfold treeOf owner
    exact if_neg fun hc => by omega
  refine ⟨hl.tables.virtToPhys_unchanged h.grows hroot hscope (by rw [htree]; exact hscope) hoff, fun hv => ?_⟩
  obtain ⟨f, -, hf, hphys⟩ := hl.tables.virtToPhys_node hroot hoff hv
  rw [htree] at hf
  unfold Mem.readByte
  rw [hphys, show (f * 4096 + va % 4096) / 4096 = f by omega, h.grows.mem_node hf hscope]

theorem low (h : s.Overlaid use img s' use' r) (hl : Layout s use) (ha : use a = .space q) (h0 : pageIndex 0 va = 0)
    (hoff : s.mem.onHugePage q va = false) :
    s.mem.tableAt q va 4 = s.mem.tableAt s.kernelPml4 va 4 ∧ s'.mem.tableAt q va 4 = s'.mem.tableAt r va 4 ∧
    s'.mem.onHugePage q va = false := by
  have hroot := (hl.tables.space ha).2.1
  refine ⟨hl.tables.tableAt_shared hroot (Or.inl h0) (by decide), h.walk_low (h.grows.node hroot) h0, ?_⟩
  by_contra hh
  have ht' := h.layout.tables
  rw [h.kernelPml4] at ht'
  rw [hl.tables.onHugePage_of_grows ht' h.grows hroot (by simpa using hh)] at hoff
  cases hoff

/-- What another address space has below entry 0 stays mapped, and the segments are laid over its bytes. -/
theorem byte_low (h : s.Overlaid use img s' use' r) (hl : Layout s use) (ha : use a = .space q) (hva : va < 2 ^ 39)
    (hlow : s.MapsLow va) :
    s'.mem.virtToPhys q va = s.mem.virtToPhys q va ∧ s.mem.virtToPhys q va ≠ 0 ∧
    s.mem.readByte (s.mem.virtToPhys q va) = s.kernelByte va ∧
    s'.mem.readByte (s.mem.virtToPhys q va) = img.overlay s.kernelByte va := by
  have hroot := (hl.tables.space ha).2.1
  obtain ⟨f, hf⟩ := Option.isSome_iff_exists.mp hlow.2
  have hfq : s.mem.tableAt q va 4 = some f := (hl.tables.tableAt_shared hroot (Or.inl hlow.1) (by decide)).trans hf
  have hnode := hl.tables.tableAt_node hroot (by decide) hfq
  have hfq' : s'.mem.tableAt q va 4 = some f := by
    refine h.layout.tables.tableAt_of_node (h.grows.node hroot) (by decide) ?_
    rw [h.kernelPml4]
    exact h.grows.node hnode
  obtain ⟨g, hg, hb⟩ := h.bytes va hlow
  obtain rfl : f = g := Option.some.inj (hfq'.symm.trans ((h.walk_low (h.grows.node hroot) hlow.1).trans hg))
  have hpos := (hl.tables.range hnode).1
  rw [Nat.mod_eq_of_lt (show va < 2 ^ 48 by omega)] at hb
  rw [kernelByte, Mem.virtToPhys_of_tableAt hf, Mem.virtToPhys_of_tableAt hfq, Mem.virtToPhys_of_tableAt hfq']
  exact ⟨rfl, by omega, rfl, hb⟩

/-- The other address space keeps its translations and bytes exactly when the image spares what all of them share. -/
theorem sameFor_iff (h : s.Overlaid use img s' use' r) (hl : Layout s use) (ha : use a = .space q) :
    s.SameFor s' a ↔ s.Spares img := by
  have hroot := (hl.tables.space ha).2.1
  have hpml4 := hl.pml4_eq ha
  have hpml4' := h.layout.pml4_eq (h.grows.space ha)
  unfold SameFor vmmVirtToPhys
  rw [hpml4, hpml4']
  have hlow : ∀ {va}, va < 2 ^ 39 → pageIndex 0 va = 0 ∧ va < userUpperLimit := fun {va} hva => by
    simp only [pageIndex, userUpperLimit]
    omega
  constructor
  · intro hsame
    refine ⟨fun va hva h0 => ⟨h0, ?_⟩, fun va hva hmaps => ?_⟩
    · -- A new page would be seen by the other address space.
      by_contra hnone
      have hpath : pagePath (va % 2 ^ 48) 4 = pagePath va 4 := pagePath_four_inj.mpr (by omega)
      have hsmall : va % 2 ^ 48 < 2 ^ 39 := by
        simp only [pageIndex] at h0
        omega
      have hoff : s.mem.onHugePage q (va % 2 ^ 48) = false := by
        rw [Mem.onHugePage_of_pagePath (pagePath_eq_of_le hpath (by decide)),
          hl.tables.onHugePage_shared hroot (Or.inl h0)]
        exact h.off va hva h0
      have heq := (hsame _ (hlow hsmall).2 hoff).1
      obtain ⟨hbefore, hafter, hoff'⟩ := h.low hl ha (hlow hsmall).1 hoff
      have hnone := hbefore.trans ((Mem.tableAt_of_pagePath hpath).trans (Option.not_isSome_iff_eq_none.mp hnone))
      obtain ⟨f, hf⟩ := Option.isSome_iff_exists.mp (h.touched va hva)
      have hsome := hafter.trans ((Mem.tableAt_of_pagePath hpath).trans hf)
      refine (h.layout.tables.virtToPhys_ne_zero_iff (h.grows.node hroot) hoff').mpr ⟨f, hsome⟩ ?_
      rw [heq, Mem.virtToPhys_eq hoff, hnone]
    · obtain ⟨-, hv, hb, hb'⟩ := h.byte_low hl ha hva hmaps
      obtain ⟨t, ht, -⟩ := Mem.tableAt_eq_some (Option.isSome_iff_exists.mp hmaps.2).choose_spec
      have hoff : s.mem.onHugePage q va = false :=
        (hl.tables.onHugePage_shared hroot (Or.inl hmaps.1)).trans (Mem.onHugePage_of_tableAt ht)
      rw [← hb', ← hb]
      exact (hsame va (hlow hva).2 hoff).2 hv
  · intro hsp va hva hoff
    by_cases h0 : pageIndex 0 va = 0
    swap
    · exact h.same_above hl ha hva h0 hoff
    have hsmall : va < 2 ^ 39 := by
      simp only [pageIndex, userUpperLimit] at h0 hva
      omega
    by_cases hmaps : s.MapsLow va
    · obtain ⟨hv, -, hb, hb'⟩ := h.byte_low hl ha hsmall hmaps
      exact ⟨hv, fun _ => by rw [hb', hb, hsp.bytes va hsmall hmaps]⟩
    -- The page was not there, and the load has not made it.
    obtain ⟨hbefore, hafter, hoff'⟩ := h.low hl ha h0 hoff
    have hnone : s.mem.tableAt s.kernelPml4 va 4 = none := by
      rw [← Option.not_isSome_iff_eq_none]
      exact fun hc => hmaps ⟨h0, hc⟩
    have hnone' : s'.mem.tableAt r va 4 = none := by
      rw [← Option.not_isSome_iff_eq_none]
      intro hsome
      rcases h.mapped va hsome with hshared | ⟨virt, hvirt, hnew, hpath⟩
      · simp [shares, hnone] at hshared
      · have h0' : pageIndex 0 virt = 0 :=
          (List.cons.inj (pagePath_eq_of_le hpath (show 1 ≤ 4 by decide))).1.symm.trans h0
        rcases hvirt with hvirt | ⟨i, hi, rfl⟩
        · have := (hsp.mapped virt hvirt h0').2
          simp [shares, h0', this] at hnew
        · rw [Layout.pageIndex_stack hi] at h0'
          cases h0'
    have hv : s.mem.virtToPhys q va = 0 := by rw [Mem.virtToPhys_eq hoff, hbefore, hnone]
    have hv' : s'.mem.virtToPhys q va = 0 := by rw [Mem.virtToPhys_eq hoff', hafter, hnone']
    exact ⟨hv'.trans hv.symm, fun hc => absurd hv hc⟩

end Others
end Machine.Overlaid

/-! ### Mapping -/

/-- A page that is mapped in one address space is seen in another one exactly when it lies below entry 0. -/
theorem TableLayout.translations_kept_iff {s s' : Machine} {use : Nat → Use} {a virt phys : Nat} {as : AsPtr}
    {flags : Word} (h : TableLayout s use) (ha : alive s.log a = true) (has : s.Has as) (hne : as ≠ .page a)
    (hvirt : virt < userUpperLimit) (hmap : s.vmmMap (.page a) virt phys flags = .ok s') :
    (∀ va < userUpperLimit, s.mem.onHugePage (s.pml4 as) va = false → s'.vmmVirtToPhys as va = s.vmmVirtToPhys as va) ↔
      pageIndex 0 virt ≠ 0 := by
  obtain ⟨hv, -⟩ := Layout.vmmMap_ok hmap
  obtain ⟨s₁, use₁, pt, h₁, hg, hst, hpt, hpres, hs'⟩ := h.vmmMap (show s.Has (.page a) from ha) hmap
  have hext := fun va => h.walk_extends h₁ hg hst has va
  obtain ⟨has₁, hpml4₁, -⟩ := hext virt
  have h511 := Layout.pageIndex_zero_lt hvirt
  constructor
  · intro hsame h0
    have htree : ∀ x, treeOf s.kernelPml4 x virt = s.kernelPml4 := fun x => if_pos ⟨rfl, Or.inl h0⟩
    have hpt₁ : use₁ pt = .node (treeOf s₁.kernelPml4 (s₁.pml4 as) virt) (pagePath virt 3) := by
      rw [hpml4₁, hst.kernelPml4, htree, ← htree (s.pml4 (.page a))]
      exact hpt
    -- The second byte of the page: its address is never 0.
    have hpath : pagePath (virt + 1) 4 = pagePath virt 4 := pagePath_four_inj.mpr (by omega)
    obtain ⟨-, hpml4', hhuge', hpage, -⟩ := h₁.walk_writeLeaf has₁ hpt₁ hs' (virt + 1)
    obtain ⟨-, -, hhuge, hwalk⟩ := hext (virt + 1)
    rw [hpml4₁] at hpml4' hhuge' hpage
    obtain ⟨hoff', hsome⟩ := hpage hpath
    have hoff : s.mem.onHugePage (s.pml4 as) (virt + 1) = false := hhuge.symm.trans (hhuge'.symm.trans hoff')
    have hnone : s.mem.tableAt (s.pml4 as) (virt + 1) 4 = none := by
      have ht : s₁.mem.tableAt (s₁.pml4 as) virt 3 = some pt := (h₁.tableAt_iff has₁ (by decide)).mpr hpt₁
      rw [← hwalk, Mem.tableAt_of_pagePath hpath, ← hpml4₁, Mem.tableAt_succ ht, Mem.link_of_ne_two (by decide), hpres]
      rfl
    rw [link_mapped] at hsome
    have heq := hsame (virt + 1) (by simp only [userUpperLimit] at *; omega) hoff
    rw [Machine.vmmVirtToPhys, Machine.vmmVirtToPhys, hpml4', Mem.virtToPhys_of_tableAt hsome, Mem.virtToPhys_eq hoff,
      hnone] at heq
    dsimp only at heq
    omega
  · intro h0 va _ hoff
    have htree : treeOf s.kernelPml4 (s.pml4 (.page a)) virt = s.pml4 (.page a) := by
      unfold treeOf owner
      exact if_neg fun hc => by omega
    rw [htree] at hpt
    obtain ⟨r, har⟩ := (h.live a).mp ha
    have hpml4 := h.trees.pml4_eq har
    have hk : s.pml4 (.page a) ≠ s.kernelPml4 := by
      rw [hpml4]
      exact (h.trees.space har).1
    have hother : s.pml4 (.page a) ≠ s.pml4 as := by
      cases as with
      | null => exact has.elim
      | kernel => exact hk
      | page b =>
        obtain ⟨r', hbr⟩ := (h.live b).mp has
        rw [hpml4, h.trees.pml4_eq hbr]
        rintro rfl
        exact hne (by rw [h.trees.space_inj hbr har])
    obtain ⟨-, -, hhuge, hwalk⟩ := hext va
    obtain ⟨hpml4', hhuge', hwalk'⟩ := h₁.walk_write_other has₁ hpt (by rw [hpml4₁]; exact hother)
      (by rw [hst.kernelPml4]; exact hk) hs' va
    rw [hpml4₁] at hpml4' hhuge' hwalk'
    rw [Machine.vmmVirtToPhys, Machine.vmmVirtToPhys, hpml4', Mem.virtToPhys_eq hoff,
      Mem.virtToPhys_eq (hhuge'.trans (hhuge.trans hoff)), hwalk', hwalk]

/-! ### Spawning -/

namespace Kernel
variable {fw : Platform} {image : KernelImage} {k k' : Kernel} {img : Image}

/-- The processes that have not exited keep their translations and their bytes. -/
def Isolated (k k' : Kernel) : Prop := ∀ i < maxProcesses, (k.procs i).Active → ∀ a, (k.procs i).addressSpace = some a →
  k.machine.SameFor k'.machine a

theorem prepareSpawn_overlaid {use : Nat → Use} {slot : Nat} {p : Process} (h : HeapMemory k use)
    (hcan : k.CanSpawn img) (hs : k.prepareSpawn img = .ok (some (slot, p), k')) :
    ∃ use' r, k.machine.Overlaid use img k'.machine use' r := by
  cases prepareSpawn_cases hs with
  | @task _ _ machine _ _ hslot hl hc =>
    obtain ⟨use', r, hov⟩ := h.layout.loadProgram_overlaid (hcan.avoids hslot) hl
    have hm : HeapMemory { k.withMachine machine with nextPid := k.nextPid + 1 } use' :=
      ⟨hov.layout, h.tasks, fun r hr => (h.held r hr).grows hov.grows⟩
    obtain ⟨use'', hst⟩ := hm.taskCreate (hcan.merges hslot hl) hc
    exact ⟨use'', r, hov.heapStep rfl hst⟩

theorem MemInv.isolated_iff {e : KernelEvent} {pid : Int} (h : k.MemInv) (hok : k.Orderly e)
    (he : spawnImage e = some img) (hs : k.processSpawnFromElf img = .ok (pid, k')) (hpid : pid ≠ -1) :
    k.Isolated k' ↔ (∀ i < maxProcesses, ¬(k.procs i).Active) ∨ k.machine.Spares img := by
  obtain ⟨ht, use, hi⟩ := h
  have hidle : k.shell = .idle := by
    by_contra hc
    rw [hok.undisturbed hc] at he
    cases he
  rw [settle_of_idle hidle] at hi
  have hcan := hok.spawn img he
  obtain ⟨⟨found, k₁⟩, hprep, hs⟩ := of_bind_eq_ok hs
  cases found with
  | none =>
    cases hs
    exact absurd rfl hpid
  | some found =>
    obtain ⟨slot, p⟩ := found
    cases hs
    obtain ⟨use', r, hov⟩ := prepareSpawn_overlaid hi.memory hcan hprep
    have hiff : ∀ i < maxProcesses, (k.procs i).Active → ∀ a, (k.procs i).addressSpace = some a →
        (k.machine.SameFor k₁.machine a ↔ k.machine.Spares img) := fun i him hact a ha => by
      obtain ⟨q, hq⟩ := hi.spaces.alive i him hact.1 a ha
      exact hov.sameFor_iff hi.memory.layout hq
    constructor
    · intro hiso
      by_cases hnone : ∀ i < maxProcesses, ¬(k.procs i).Active
      · exact Or.inl hnone
      · simp only [not_forall, not_not] at hnone
        obtain ⟨i, him, hact⟩ := hnone
        obtain ⟨t, -, hrun⟩ := (ht.agree_of_idle hidle).active i him hact
        obtain ⟨a, ha, -⟩ := hrun.space
        exact Or.inr ((hiff i him hact a ha).mp (hiso i him hact a ha))
    · rintro (hnone | hsp) i him hact a ha
      · exact absurd hact (hnone i him)
      · exact (hiff i him hact a ha).mpr hsp

/-- In every orderly run a spawn leaves the translations and the bytes of all live processes alone exactly when there
    are none or the image spares what is shared; and `vmm_map` leaves the translations of the other address spaces
    alone exactly when the page does not lie below entry 0 of the PML4. -/
theorem isolation_iff :
    (∀ {k k' : Kernel} {e : KernelEvent} {img : Image} {pid : Int}, ((kernels fw image).guard Orderly).Reachable k →
      k.Orderly e → spawnImage e = some img → k.processSpawnFromElf img = .ok (pid, k') → pid ≠ -1 →
      (k.Isolated k' ↔ (∀ i < maxProcesses, ¬(k.procs i).Active) ∨ k.machine.Spares img)) ∧
    ∀ {s s' : Machine} {a virt phys : Nat} {as : AsPtr} {flags : Word},
      ((vmmCalls fw.toBootInfo image).guard Careful).Reachable s → alive s.log a = true → s.Has as → as ≠ .page a →
      virt < userUpperLimit → s.vmmMap (.page a) virt phys flags = .ok s' →
      ((∀ va < userUpperLimit, s.mem.onHugePage (s.pml4 as) va = false →
        s'.vmmVirtToPhys as va = s.vmmVirtToPhys as va) ↔
        pageIndex 0 virt ≠ 0) := by
  refine ⟨fun h hok he hs hpid => (memInv_of_reachable h).isolated_iff hok he hs hpid,
    fun h ha has hne hvirt hmap => ?_⟩
  obtain ⟨use, hl⟩ := tableLayout_of_reachable h
  exact hl.translations_kept_iff ha has hne hvirt hmap

/-! ### A second process -/

/-- A kernel before its first switch, with the shell, the idle task and one process. -/
structure OneLive (k : Kernel) (use : Nat → Use) : Prop where
  memory : HeapMemory k use
  room : k.machine.pmm.Room 0x10000 0x20000 794
  entry : k.allocProcessSlot = some 1
  slot : k.sched.findFreeSlot = some (3, 0, k.sched)
  live : (k.procs 0).Active
  shell : k.shell = .idle
  nextPid : k.nextPid = 2
  walks : ∀ va, (pageIndex 0 va = 0 → Paging.maxMemory samplePlatform.toBootInfo ≤ pageIndex 1 va * 0x40000000) →
    pageIndex 0 va ≠ 511 →
    k.machine.mem.tableAt k.machine.kernelPml4 va 2 = none

theorem exists_oneLive (mem : Mem) : ∃ k use, (sampleKernels.guard Orderly).Reachable k ∧ k.OneLive use := by
  obtain ⟨k₀, use, stack₀, stack₁, hb, hidle, hsh⟩ := exists_idle mem
  obtain ⟨prog, r, k', use', hsp, hroom⟩ := hidle.spawn
  obtain ⟨m, cr3, hs⟩ := hidle.sched
  obtain ⟨stack, hs'⟩ := hsp.sched
  obtain ⟨hprocs, hpid, hshell⟩ := hsp.tables
  have hr : (sampleKernels.guard Orderly).Reachable k₀ := .init (sampleKernels_init hb)
  refine ⟨_, use', hr.step (hidle.bootSpawn hsh hsp), ⟨hsp.memory.layout, hsp.memory.tasks, hsp.memory.held⟩,
    hroom, ?_, ?_, ?_, hshell.trans hsh, ?_, fun va h0 h511 => ?_⟩
  · unfold allocProcessSlot
    rw [setProc_procs, hprocs, hidle.procs]
    rfl
  · rw [setProc_sched, hs', hs, Sched.install, Sched.modify_three (by decide)]
    exact Sched.findFreeSlot_four (Or.inl rfl) (Or.inl rfl) (Or.inl rfl)
  · rw [setProc_procs, Function.update_self]
    exact ⟨rfl, rfl⟩
  · rw [setProc_nextPid, hpid, hidle.nextPid]
    rfl
  · have hprivate : ¬LoadScope k₀.machine.kernelPml4 use bareImage k₀.machine.kernelPml4 := by
      rintro (hfree | ⟨-, hc⟩)
      · cases hfree.symm.trans hidle.memory.layout.tables.kernelRoot
      · exact hc fun va hva => absurd hva (bareImage_touches va)
    have htree : treeOf k₀.machine.kernelPml4 k₀.machine.kernelPml4 va = k₀.machine.kernelPml4 := owner_kernel _ _ _
    rw [setProc_machine, hsp.kernelPml4,
      hidle.memory.layout.tables.tableAt_eq hsp.grows hidle.memory.layout.tables.kernelRoot hprivate
      (by rw [htree]; exact hprivate) (by decide)]
    exact boot_tableAt_two hb h0 h511

namespace OneLive
variable {use : Nat → Use}

theorem orderly (h : k.OneLive use) (hav : k.machine.Avoids img) : k.Orderly (.bootSpawn img) := by
  refine ⟨fun hne => absurd h.shell hne, fun _ => by rw [h.nextPid]; decide, fun img' himg => ?_, nofun⟩
  cases himg
  exact ⟨fun _ => hav, fun _ _ slot freed s hf hne => by
    cases h.slot.symm.trans hf
    exact absurd rfl hne⟩

theorem spawn (h : k.OneLive use) (hav : k.machine.Avoids img) {b : Budget}
    (hb : Budget.loadProgram k.machine.shares { free := k.machine.pmm.freeCount, pages := [] } img = .ok (true, b))
    (hfree : k.machine.pmm.freeCount ≤ b.free + 13) : ∃ k', k.processSpawnFromElf img = .ok (2, k') := by
  obtain ⟨prog, r, k', use', hsp, -⟩ := prepareSpawn_of_budget h.memory hav h.entry h.slot hb h.room (by omega)
  have hpid : k.nextPid.toInt = 2 := by
    rw [h.nextPid]
    decide
  exact ⟨_, by rw [← hpid]; exact hsp.processSpawnFromElf⟩

end OneLive

/-- With a process alive, one without segments is spawned; and a page is mapped above entry 0. -/
theorem isolation_iff_sample :
    (∃ k k' : Kernel, (sampleKernels.guard Orderly).Reachable k ∧ (k.procs 0).Active ∧
      k.processSpawnFromElf bareImage = .ok (2, k') ∧ k.Isolated k') ∧
    ∃ s s', (sampleCalls.guard Careful).Reachable s ∧ s.vmmMap (.page 2048) 0x8000000000 0x900000 flagUser = .ok s' ∧
      ∀ va < userUpperLimit, s.mem.onHugePage (s.pml4 .kernel) va = false →
        s'.vmmVirtToPhys .kernel va = s.vmmVirtToPhys .kernel va := by
  obtain ⟨hspawns, hmaps⟩ := @isolation_iff samplePlatform Pmm.sampleImage
  constructor
  · obtain ⟨k, use, hr, hk⟩ := exists_oneLive fun _ _ => 0
    have hav := hk.memory.layout.avoids_bare
    have hcount := hk.room.count
    obtain ⟨k', hs⟩ := hk.spawn hav (Budget.loadProgram_bare k.machine.shares_stack (by omega)) (by dsimp only; omega)
    refine ⟨k, k', hr, hk.live, hs,
      (hspawns hr (hk.orderly hav) rfl hs (by decide)).mpr (Or.inr ⟨fun va hva => ?_, fun va _ _ => ?_⟩)⟩
    · exact absurd hva (bareImage_touches va)
    · unfold Image.overlay
      rw [show bareImage.phnum = 0 by decide, Loop.forRange_of_le (Nat.le_refl 0)]
  · obtain ⟨s, hrun, hc⟩ := vmmSample_create fun _ _ => 0
    have hr : (sampleCalls.guard Careful).Reachable s := hrun.reachable (vmmSample_reachable _)
    have has : s.Has (.page 2048) := has_of_created hc
    obtain ⟨use, hl⟩ := tableLayout_of_reachable hr
    have hpml4 : s.pml4 (.page 2048) = 2049 := by
      rw [Machine.pml4, hc.pointer]
      rfl
    have hnone : s.mem.tableAt (s.pml4 (.page 2048)) 0x8000000000 1 = none := by
      rw [hpml4, Mem.tableAt_succ rfl, hc.empty _ (by decide) (by decide)]
      exact link_zero 0
    have hroom : 3 ≤ s.pmm.freeCount := Pmm.le_freeCount fun q (hlo : 2050 ≤ q) hhi => by
      rw [hc.pmm, Pmm.free_takePage_iff, Pmm.free_takePage_iff, free_vmmSample_iff]
      omega
    obtain ⟨s', hmap⟩ : ∃ s', s.vmmMap (.page 2048) 0x8000000000 0x900000 flagUser = .ok s' :=
      (hl.vmmMap_ok_iff has (by decide) (by decide)
        (Mem.onHugePage_of_none (Mem.tableAt_eq_none hnone (by decide)))).mpr ⟨Mem.tableAt_eq_none hnone (by decide), by
        unfold Mem.missingTables Mem.missing
        split <;> split <;> split <;> omega⟩
    exact ⟨s, s', hr, hmap, (hmaps hr has (show s.Has .kernel from True.intro) (fun h => by cases h) (by decide)
      hmap).mpr (by decide)⟩

/-- A process whose program is linked at the address of the user programs gives a page to one that is alive already. -/
theorem spawn_maps_into_other : ∃ k k', sampleKernels.Reachable k ∧ (k.procs 0).Active ∧
    k.processSpawnFromElf (pageImage 0x2000000000) = .ok (2, k') ∧ ¬k.Isolated k' := by
  obtain ⟨k, use, hr, hk⟩ := exists_oneLive fun _ _ => 0
  have hone : (pageImage 0x2000000000).OnePage 0x2000000000 :=
    ⟨by decide, by decide, ⟨by decide, by decide, by decide, by decide⟩⟩
  have hwalk := hk.walks 0x2000000000 (by decide) (by decide)
  have hav : k.machine.Avoids (pageImage 0x2000000000) := hk.memory.layout.avoids fun va hva => by
    rw [hone.touches_iff.mp hva]
    exact Mem.onHugePage_of_none hwalk
  have hnew : k.machine.shares 0x2000000000 4 = false := by
    simp [Machine.shares, Mem.tableAt_eq_none hwalk (show 2 ≤ 4 by decide)]
  have hcount := hk.room.count
  obtain ⟨b, hb, -, hfree⟩ := Budget.loadProgram_onePage (n := k.machine.pmm.freeCount) hone k.machine.shares_stack
    (by decide) hnew (by omega)
  obtain ⟨k', hs⟩ := hk.spawn hav hb hfree
  obtain ⟨es, k₀, h₀, hp⟩ := hr
  refine ⟨k, k', ⟨es, k₀, h₀, hp.of_guard⟩, hk.live, hs, fun hiso => ?_⟩
  rcases ((memInv_of_reachable ⟨es, k₀, h₀, hp⟩).isolated_iff (hk.orderly hav) rfl hs (by decide)).mp
    hiso with hnone | hsp
  · exact hnone 0 (by decide) hk.live
  · have hlow := hsp.mapped 0x2000000000 (hone.touches_iff.mpr rfl) (by decide)
    rw [Machine.MapsLow, Mem.tableAt_eq_none hwalk (show 2 ≤ 4 by decide)] at hlow
    cases hlow.2

end Kernel
end SamOS
