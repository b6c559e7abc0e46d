import SamOS.VmmRuns

/-! What a mapping does to the walks of every address space. Making tables changes no walk to a page, writing the
    entry of a page table changes the walks to one page, and `vmm_map` returns exactly when the page is unmapped and
    there are free pages for the tables that are missing. -/

namespace SamOS
open Lts Paging

section Walks
variable {s s' s₁ : Machine} {use use₁ : Nat → Use} {as : AsPtr} {virt va phys pt : Nat} {flags : Word} {m : Mem}
  {r : Nat}

theorem Mem.onHugePage_of_tableAt {t : Nat} (h : m.tableAt r va 3 = some t) : m.onHugePage r va = false := by
  obtain ⟨pd, hpd, hlink⟩ := tableAt_eq_some h
  obtain ⟨-, hh, -⟩ := link_eq_some.mp hlink
  unfold onHugePage
  rw [hpd]
  simp only [true_and, Bool.not_eq_true] at hh
  simp [hh]

theorem Mem.virtToPhys_of_tableAt {f : Nat} (h : m.tableAt r va 4 = some f) :
    m.virtToPhys r va = f * 4096 + va % 4096 := by
  obtain ⟨t, ht, -⟩ := tableAt_eq_some h
  rw [virtToPhys_eq (onHugePage_of_tableAt ht), h]

theorem Mem.onHugePage_of_none (h : m.tableAt r va 2 = none) : m.onHugePage r va = false := by
  rw [onHugePage, h]

theorem Mem.tableAt_page (m : Mem) (r va : Nat) :
    m.tableAt r va 4 = (m.tableAt r va 3).bind fun t => link 3 (m t (pageIndex 3 va)) := rfl

/-- Calls that keep the pages of address spaces keep what an address space is. -/
theorem TableLayout.has_of_steady (h : TableLayout s use) (hst : s.Steady s₁)
    (hm : ∀ {a r}, use a = .space r → s₁.mem a = s.mem a) (has : s.Has as) :
    s₁.Has as ∧ s₁.pml4 as = s.pml4 as := by
  cases as with
  | null => exact has.elim
  | kernel => exact ⟨True.intro, hst.kernelPml4⟩
  | page a =>
    obtain ⟨r, ha⟩ := (h.live a).mp has
    refine ⟨?_, by rw [Machine.pml4, Machine.pml4, hm ha]⟩
    show alive s₁.log a = true
    rw [hst.log]
    exact has

/-- Making tables changes no walk to a page: new page tables are empty. -/
theorem TableLayout.walk_extends {way : List Nat} (h : TableLayout s use) (h₁ : TableLayout s₁ use₁)
    (hg : Extends r way s.mem use s₁.mem use₁) (hst : s.Steady s₁) (has : s.Has as) (va : Nat) :
    s₁.Has as ∧ s₁.pml4 as = s.pml4 as ∧ s₁.mem.onHugePage (s.pml4 as) va = s.mem.onHugePage (s.pml4 as) va ∧
    s₁.mem.tableAt (s.pml4 as) va 4 = s.mem.tableAt (s.pml4 as) va 4 := by
  obtain ⟨has₁, hpml4⟩ := h.has_of_steady hst (fun ha => hg.other (by rw [ha]; exact nofun)
    (by rw [ha]; exact nofun)) has
  have hhuge₁ : s₁.mem.onHugePage (s₁.pml4 as) va = true ↔ _ := h₁.onHugePage_iff has₁
  have hiff₁ : ∀ t, s₁.mem.tableAt (s₁.pml4 as) va 3 = some t ↔ _ := fun t => h₁.tableAt_iff has₁ (by decide)
  rw [hpml4, hst.kernelPml4] at hhuge₁ hiff₁
  have hiff : ∀ t, s.mem.tableAt (s.pml4 as) va 3 = some t ↔ _ := fun t => h.tableAt_iff has (by decide)
  have hhuge : s₁.mem.onHugePage (s.pml4 as) va = s.mem.onHugePage (s.pml4 as) va := by
    rw [Bool.eq_iff_iff, h.onHugePage_iff has, hhuge₁]
    constructor
    · rintro ⟨pd, hpd, hh⟩
      exact ⟨pd, hg.noHuge hpd (pagePath_length _ _) hh⟩
    · rintro ⟨pd, hpd, hh⟩
      exact ⟨pd, hg.node hpd, by rw [hg.huge hpd (pagePath_length _ _) hh]; exact hh⟩
  refine ⟨has₁, hpml4, hhuge, ?_⟩
  rw [Mem.tableAt_page, Mem.tableAt_page]
  cases ht₁ : s₁.mem.tableAt (s.pml4 as) va 3 with
  | none =>
    cases ht : s.mem.tableAt (s.pml4 as) va 3 with
    | none => rfl
    | some t =>
      rw [(hiff₁ t).mpr (hg.node ((hiff t).mp ht))] at ht₁
      cases ht₁
  | some t =>
    have hnode := (hiff₁ t).mp ht₁
    by_cases hfree : use t = .free
    · -- A new page table: there was none before.
      have hnone : s.mem.tableAt (s.pml4 as) va 3 = none := by
        cases ht : s.mem.tableAt (s.pml4 as) va 3 with
        | none => rfl
        | some t' =>
          have ht' := (hiff t').mp ht
          rw [h₁.trees.forest.unique (hg.node ht') hnode] at ht'
          cases hfree.symm.trans ht'
      rcases hg.fresh hfree with hf | ⟨p, hp, -, hz⟩
      · cases hf.symm.trans hnode
      · obtain ⟨-, rfl⟩ := Use.node.inj (hp.symm.trans hnode)
        rw [hnone, Option.bind_some, hz (pagePath_length _ _), link_zero]
        rfl
    · have hnode₀ := (hg.keeps hfree).symm.trans hnode
      rw [(hiff t).mpr hnode₀, Option.bind_some, Option.bind_some, hg.leaf hnode₀ (pagePath_length _ _)]

/-- Writing one entry of a page table changes the walks to one page. -/
theorem TableLayout.walk_writeLeaf (h : TableLayout s use) (has : s.Has as) {w : Word}
    (hpt : use pt = .node (treeOf s.kernelPml4 (s.pml4 as) virt) (pagePath virt 3))
    (hs' : s' = { s with mem := s.mem.write pt (pageIndex 3 virt) w }) (va : Nat) :
    s'.Has as ∧ s'.pml4 as = s.pml4 as ∧ s'.mem.onHugePage (s.pml4 as) va = s.mem.onHugePage (s.pml4 as) va ∧
    (pagePath va 4 = pagePath virt 4 →
      s'.mem.onHugePage (s.pml4 as) va = false ∧ s'.mem.tableAt (s.pml4 as) va 4 = link 3 w) ∧
    (pagePath va 4 ≠ pagePath virt 4 → s'.mem.tableAt (s.pml4 as) va 4 = s.mem.tableAt (s.pml4 as) va 4) := by
  have h' : TableLayout s' use := hs' ▸ h.writeLeaf hpt (pagePath_length _ _)
  have hkernel : s'.kernelPml4 = s.kernelPml4 := by rw [hs']
  have hmem : s'.mem = s.mem.write pt (pageIndex 3 virt) w := by rw [hs']
  obtain ⟨has', hpml4⟩ := h.has_of_steady ⟨hkernel, by rw [hs'], by rw [hs']⟩ (fun ha => by
    rw [hmem, Mem.write_of_ne _ _ _ (by rintro rfl; cases ha.symm.trans hpt)]) has
  -- Both states have the same tables.
  have hat : ∀ t, s'.mem.tableAt (s'.pml4 as) va 3 = some t ↔ use t = .node _ (pagePath va 3) :=
    fun t => h'.tableAt_iff has' (by decide)
  have hhuge' : s'.mem.onHugePage (s'.pml4 as) va = true ↔ _ := h'.onHugePage_iff has'
  rw [hpml4, hkernel] at hat hhuge'
  have hat₀ : ∀ t, s.mem.tableAt (s.pml4 as) va 3 = some t ↔ use t = .node _ (pagePath va 3) :=
    fun t => h.tableAt_iff has (by decide)
  have hsame : s'.mem.tableAt (s.pml4 as) va 3 = s.mem.tableAt (s.pml4 as) va 3 := Option.ext fun t => by
    rw [hat, hat₀]
  refine ⟨has', hpml4, ?_, fun hva => ?_, fun hva => ?_⟩
  · rw [Bool.eq_iff_iff, hhuge', h.onHugePage_iff has]
    refine exists_congr fun pd => and_congr_right fun hpd => ?_
    have hne : pd ≠ pt := by
      rintro rfl
      have hlen := congrArg List.length (Use.node.inj (hpd.symm.trans hpt)).2
      rw [pagePath_length, pagePath_length] at hlen
      cases hlen
    rw [hmem, Mem.write_of_ne _ _ _ hne]
  · have hidx : pageIndex 3 va = pageIndex 3 virt := (List.cons.inj hva).1
    have hpath : pagePath va 3 = pagePath virt 3 := (List.cons.inj hva).2
    have hroot : treeOf s.kernelPml4 (s.pml4 as) va = treeOf s.kernelPml4 (s.pml4 as) virt := by
      rw [treeOf, treeOf, (List.cons.inj (List.cons.inj (List.cons.inj hpath).2).2).1]
    have ht := (hat pt).mpr (by rw [hroot, hpath]; exact hpt)
    exact ⟨Mem.onHugePage_of_tableAt ht, by rw [Mem.tableAt_succ ht, hmem, hidx, Mem.write_same]⟩
  · rw [Mem.tableAt_page, Mem.tableAt_page, hsame]
    cases ht : s.mem.tableAt (s.pml4 as) va 3 with
    | none => rfl
    | some t =>
      rw [Option.bind_some, Option.bind_some, hmem]
      rcases s.mem.write_cases pt (pageIndex 3 virt) t (pageIndex 3 va) w with ⟨-, he⟩ | ⟨rfl, hidx, -⟩
      · rw [he]
      · -- The same entry of the same page table is that of the same page.
        have hpath := (Use.node.inj (((hat₀ t).mp ht).symm.trans hpt)).2
        exact absurd (congrArg₂ List.cons hidx hpath) hva

/-- Writing an entry of a table of another tree changes no walk. -/
theorem TableLayout.walk_write_other (h : TableLayout s use) (has : s.Has as) {i : Nat} {p : List Nat} {w : Word}
    (hpt : use pt = .node r p) (hr : r ≠ s.pml4 as) (hk : r ≠ s.kernelPml4)
    (hs' : s' = { s with mem := s.mem.write pt i w }) (va : Nat) :
    s'.pml4 as = s.pml4 as ∧ s'.mem.onHugePage (s.pml4 as) va = s.mem.onHugePage (s.pml4 as) va ∧
    s'.mem.tableAt (s.pml4 as) va 4 = s.mem.tableAt (s.pml4 as) va 4 := by
  have hmem : s'.mem = s.mem.write pt i w := by rw [hs']
  obtain ⟨-, hpml4⟩ := h.has_of_steady (show s.Steady s' from ⟨by rw [hs'], by rw [hs'], by rw [hs']⟩) (fun ha => by
    rw [hmem, Mem.write_of_ne _ _ _ (by rintro rfl; cases ha.symm.trans hpt)]) has
  -- The tables of a walk are those of the address space or of the kernel.
  have hsame : ∀ k ≤ 3, ∀ t, s.mem.tableAt (s.pml4 as) va k = some t → s'.mem t = s.mem t := by
    intro k hk3 t ht
    rw [hmem]
    refine Mem.write_of_ne _ _ _ ?_
    rintro rfl
    cases k with
    | zero =>
      cases ht
      exact hr (Use.node.inj (hpt.symm.trans (h.root has))).1
    | succ k =>
      have hroot := (Use.node.inj (hpt.symm.trans ((h.tableAt_iff has (by omega)).mp ht))).1
      unfold treeOf owner at hroot
      split at hroot
      · exact hk hroot
      · exact hr hroot
  have hwalk : ∀ n ≤ 4, s'.mem.tableAt (s.pml4 as) va n = s.mem.tableAt (s.pml4 as) va n := fun n hn =>
    Mem.tableAt_congr fun k hkn t ht => hsame k (by omega) t ht
  refine ⟨hpml4, ?_, hwalk 4 (Nat.le_refl 4)⟩
  unfold Mem.onHugePage
  rw [hwalk 2 (by decide)]
  cases ht : s.mem.tableAt (s.pml4 as) va 2 with
  | none => rfl
  | some t =>
    dsimp only
    rw [hsame 2 (by decide) t ht]

end Walks

/-! ### The tables that a mapping needs -/

theorem Mem.tableAt_upgrade (m : Mem) (t i r virt n : Nat) :
    (m.write t i (m t i ||| flagUser)).tableAt r virt n = m.tableAt r virt n := by
  induction n with
  | zero => rfl
  | succ n ih =>
    rw [tableAt, tableAt, ih]
    congr 1
    funext f
    rcases m.write_cases t i f (pageIndex n virt) (m t i ||| flagUser) with ⟨-, he⟩ | ⟨rfl, rfl, he⟩ <;> rw [he]
    exact link_or_flagUser _ _

/-- One for a table on the way to `virt` that does not exist. -/
def Mem.missing (m : Mem) (r virt n : Nat) : Nat := if (m.tableAt r virt n).isSome then 0 else 1

/-- The number of tables on the way to `virt` that do not exist. -/
def Mem.missingTables (m : Mem) (r virt : Nat) : Nat := m.missing r virt 1 + m.missing r virt 2 + m.missing r virt 3

/-- What `get_or_create_table` at level `n` on the way to `virt` did. -/
structure Stage (s : Machine) (as : AsPtr) (virt n g : Nat) (s' : Machine) (use' : Nat → Use) : Prop where
  layout : TableLayout s' use'
  has : s'.Has as
  pml4 : s'.pml4 as = s.pml4 as
  off : s'.mem.onHugePage (s'.pml4 as) virt = false
  table : s'.mem.tableAt (s'.pml4 as) virt (n + 1) = some g
  below : ∀ k, n + 2 ≤ k → (s'.mem.tableAt (s'.pml4 as) virt k).isSome = (s.mem.tableAt (s.pml4 as) virt k).isSome
  count : s.pmm.freeCount = s'.pmm.freeCount + s.mem.missing (s.pml4 as) virt (n + 1)

variable {virt k : Nat}

theorem Stage.missing {s s' : Machine} {as : AsPtr} {n g : Nat} {use' : Nat → Use} (h : Stage s as virt n g s' use')
    (hk : n + 2 ≤ k) : s'.mem.missing (s'.pml4 as) virt k = s.mem.missing (s.pml4 as) virt k := by
  rw [Mem.missing, Mem.missing, h.below k hk]

namespace TableLayout
variable {s s' : Machine} {use : Nat → Use} {as : AsPtr} {virt phys n t g : Nat} {flags : Word}

theorem huge_eq_false (h : TableLayout s use) (has : s.Has as) (hoff : s.mem.onHugePage (s.pml4 as) virt = false)
    (ht : s.mem.tableAt (s.pml4 as) virt 2 = some t) : (s.mem t (pageIndex 2 virt)).huge = false := by
  by_contra hh
  rw [(h.onHugePage_iff has).mpr ⟨t, (h.tableAt_iff has (by decide)).mp ht, by simpa using hh⟩] at hoff
  cases hoff

theorem next_isSome (h : TableLayout s use) (has : s.Has as) (hoff : s.mem.onHugePage (s.pml4 as) virt = false)
    (ht : s.mem.tableAt (s.pml4 as) virt n = some t) :
    (s.mem.tableAt (s.pml4 as) virt (n + 1)).isSome = (s.mem t (pageIndex n virt)).present := by
  have hnot : ¬(n = 2 ∧ (s.mem t (pageIndex n virt)).huge = true) := by
    rintro ⟨rfl, hh⟩
    rw [h.huge_eq_false has hoff ht] at hh
    cases hh
  rw [Mem.tableAt_succ ht, link]
  cases hp : (s.mem t (pageIndex n virt)).present with
  | true => rw [if_pos ⟨rfl, hnot⟩]; rfl
  | false => rw [if_neg (by simp)]; rfl

theorem stage (h : TableLayout s use) (has : s.Has as) (hoff : s.mem.onHugePage (s.pml4 as) virt = false) (hn : n < 3)
    (ht : s.mem.tableAt (s.pml4 as) virt n = some t)
    (hg : s.getOrCreateTable t (pageIndex n virt) (Machine.tableFlags flags) = .ok (g, s')) :
    ∃ use', Stage s as virt n g s' use' := by
  obtain ⟨use', hgr, hnode⟩ : ∃ use', Grown s.kernelPml4 (treeOf s.kernelPml4 (s.pml4 as) virt)
    (pagePath virt 3) s use s' use' ∧
      use' g = .node (treeOf s.kernelPml4 (s.pml4 as) virt) (pagePath virt (n + 1)) := by
    cases n with
    | zero =>
      cases ht
      exact h.trees.firstTable h.owned (h.root has) (fun _ => h.shared) hg
    | succ n =>
      refine h.trees.nextTable h.owned (by omega) hn ((h.tableAt_iff has (by omega)).mp ht) (fun hn2 => ?_) hg
      rw [hn2] at ht ⊢
      exact h.huge_eq_false has hoff ht
  have h' := h.grown hgr
  obtain ⟨has', hpml4, hhuge, -⟩ := h.walk_extends h' hgr.grows hgr.steady has virt
  have hoff' : s'.mem.onHugePage (s'.pml4 as) virt = false := by rw [hpml4, hhuge, hoff]
  have htable : s'.mem.tableAt (s'.pml4 as) virt (n + 1) = some g := by
    refine (h'.tableAt_iff has' hn).mpr ?_
    rw [hpml4, hgr.steady.kernelPml4]
    exact hnode
  have hnext := h.next_isSome has hoff ht
  have hcount : s.pmm.freeCount = s'.pmm.freeCount + s.mem.missing (s.pml4 as) virt (n + 1) := by
    rw [Mem.missing, hnext]
    exact Machine.freeCount_getOrCreateTable hg
  refine ⟨use', h', has', hpml4, hoff', htable, fun k hk => ?_, hcount⟩
  rcases Machine.getOrCreateTable_cases hg with ⟨-, -, hs'⟩ | ⟨hp, hfree, -, hs'⟩
  · -- The tables below are those from before.
    have hmem : s'.mem.tableAt (s.pml4 as) virt k = s.mem.tableAt (s.pml4 as) virt k := by
      rw [hs']
      dsimp only
      split
      · exact Mem.tableAt_upgrade ..
      · rfl
    rw [hpml4, hmem]
  · -- There was no table, and the new one is empty.
    have hzero : s'.mem g (pageIndex (n + 1) virt) = 0 := by
      have hgt : g ≠ t := by
        rintro rfl
        obtain ⟨r, p, hnode⟩ : ∃ r p, use g = .node r p := by
          cases n with
          | zero => cases ht; exact ⟨_, _, h.root has⟩
          | succ n => exact ⟨_, _, (h.tableAt_iff has (by omega)).mp ht⟩
        cases ((h.owned.free_iff g).mpr hfree).symm.trans hnode
      rw [hs']
      dsimp only
      rw [Mem.write_of_ne _ _ _ hgt, Mem.zeroPage_same]
    have hnone : s.mem.tableAt (s.pml4 as) virt (n + 1) = none := by
      rw [hp] at hnext
      simpa using hnext
    have hnone' : s'.mem.tableAt (s'.pml4 as) virt (n + 2) = none := by
      rw [Mem.tableAt_succ htable, hzero, link_zero]
    rw [Mem.tableAt_eq_none hnone (by omega), Mem.tableAt_eq_none hnone' hk]

/-- The three tables of a `vmm_map`, once they exist. -/
structure Staged (s : Machine) (as : AsPtr) (virt pt : Nat) (s' : Machine) (use' : Nat → Use) : Prop where
  layout : TableLayout s' use'
  has : s'.Has as
  pml4 : s'.pml4 as = s.pml4 as
  table : s'.mem.tableAt (s'.pml4 as) virt 3 = some pt
  page : (s'.mem pt (pageIndex 3 virt)).present = (s.mem.tableAt (s.pml4 as) virt 4).isSome
  count : s.pmm.freeCount = s'.pmm.freeCount + s.mem.missingTables (s.pml4 as) virt

theorem stages (h : TableLayout s use) (has : s.Has as) (hoff : s.mem.onHugePage (s.pml4 as) virt = false)
    {s₁ s₂ s₃ : Machine} {pdpt pd pt : Nat}
    (h₁ : s.getOrCreateTable (s.pml4 as) (pageIndex 0 virt) (Machine.tableFlags flags) = .ok (pdpt, s₁))
    (h₂ : s₁.getOrCreateTable pdpt (pageIndex 1 virt) (Machine.tableFlags flags) = .ok (pd, s₂))
    (h₃ : s₂.getOrCreateTable pd (pageIndex 2 virt) (Machine.tableFlags flags) = .ok (pt, s₃)) :
    ∃ use', Staged s as virt pt s₃ use' := by
  obtain ⟨use₁, g₁⟩ := h.stage has hoff (by decide) rfl h₁
  obtain ⟨use₂, g₂⟩ := g₁.layout.stage g₁.has g₁.off (by decide) g₁.table h₂
  obtain ⟨use₃, g₃⟩ := g₂.layout.stage g₂.has g₂.off (by decide) g₂.table h₃
  refine ⟨use₃, g₃.layout, g₃.has, by rw [g₃.pml4, g₂.pml4, g₁.pml4], g₃.table, ?_, ?_⟩
  · rw [← g₃.layout.next_isSome g₃.has g₃.off g₃.table, g₃.below 4 (by decide), g₂.below 4 (by decide),
      g₁.below 4 (by decide)]
  · have c₁ : s.pmm.freeCount = s₁.pmm.freeCount + s.mem.missing (s.pml4 as) virt 1 := g₁.count
    have c₂ : s₁.pmm.freeCount = s₂.pmm.freeCount + s₁.mem.missing (s₁.pml4 as) virt 2 := g₂.count
    have c₃ : s₂.pmm.freeCount = s₃.pmm.freeCount + s₂.mem.missing (s₂.pml4 as) virt 3 := g₃.count
    rw [g₁.missing (by decide)] at c₂
    rw [g₂.missing (by decide), g₁.missing (by decide)] at c₃
    unfold Mem.missingTables
    omega

/-- `vmm_map` takes one page for each missing table. -/
theorem freeCount_vmmMap (h : TableLayout s use) (has : s.Has as) (hoff : s.mem.onHugePage (s.pml4 as) virt = false)
    (hmap : s.vmmMap as virt phys flags = .ok s') :
    s.mem.tableAt (s.pml4 as) virt 4 = none ∧ s.pmm.freeCount = s'.pmm.freeCount + s.mem.missingTables
      (s.pml4 as) virt := by
  obtain ⟨-, -, pdpt, s₁, pd, s₂, pt, s₃, h₁, h₂, -, h₃, hpres, rfl⟩ := Layout.vmmMap_ok hmap
  obtain ⟨use', hst⟩ := h.stages has hoff h₁ h₂ h₃
  have hpage := hst.page
  rw [hpres] at hpage
  exact ⟨by simpa using hpage.symm, hst.count⟩

/-- Off the 2 MiB pages `vmm_map` returns exactly for unmapped addresses with enough free pages for the missing
    tables. -/
theorem vmmMap_ok_iff (h : TableLayout s use) (has : s.Has as) (hv : virt % 4096 = 0) (hp : phys % 4096 = 0)
    (hoff : s.mem.onHugePage (s.pml4 as) virt = false) :
    (∃ s', s.vmmMap as virt phys flags = .ok s') ↔
      s.mem.tableAt (s.pml4 as) virt 4 = none ∧ s.mem.missingTables (s.pml4 as) virt ≤ s.pmm.freeCount := by
  constructor
  · rintro ⟨s', hmap⟩
    obtain ⟨hnone, hcount⟩ := h.freeCount_vmmMap has hoff hmap
    exact ⟨hnone, by omega⟩
  rintro ⟨hun, hroom⟩
  have htable : ∀ {s : Machine} {use : Nat → Use} {n t : Nat}, TableLayout s use → s.Has as →
      s.mem.onHugePage (s.pml4 as) virt = false → s.mem.tableAt (s.pml4 as) virt n = some t →
      s.mem.missing (s.pml4 as) virt (n + 1) ≤ s.pmm.freeCount →
      ∃ r, s.getOrCreateTable t (pageIndex n virt) (Machine.tableFlags flags) = .ok r := by
    intro s use n t h has hoff ht hle
    rw [Mem.missing, h.next_isSome has hoff ht] at hle
    refine (Machine.getOrCreateTable_ok_iff h.owned.zero).mpr ?_
    split at hle
    · exact Or.inl ‹_›
    · exact Or.inr hle
  unfold Mem.missingTables at hroom
  obtain ⟨⟨pdpt, s₁⟩, h₁⟩ := htable h has hoff rfl (by rw [Nat.zero_add]; omega)
  obtain ⟨use₁, g₁⟩ := h.stage has hoff (by decide) rfl h₁
  have c₁ : s.pmm.freeCount = s₁.pmm.freeCount + s.mem.missing (s.pml4 as) virt 1 := g₁.count
  have m₂ : s₁.mem.missing (s₁.pml4 as) virt 2 = s.mem.missing (s.pml4 as) virt 2 := g₁.missing (by decide)
  obtain ⟨⟨pd, s₂⟩, h₂⟩ := htable g₁.layout g₁.has g₁.off g₁.table (by rw [Nat.zero_add, m₂]; omega)
  obtain ⟨use₂, g₂⟩ := g₁.layout.stage g₁.has g₁.off (by decide) g₁.table h₂
  have c₂ : s₁.pmm.freeCount = s₂.pmm.freeCount + s₁.mem.missing (s₁.pml4 as) virt 2 := g₂.count
  have m₃ : s₂.mem.missing (s₂.pml4 as) virt 3 = s.mem.missing (s.pml4 as) virt 3 :=
    (g₂.missing (by decide)).trans (g₁.missing (by decide))
  obtain ⟨⟨pt, s₃⟩, h₃⟩ := htable g₂.layout g₂.has g₂.off g₂.table (by rw [Nat.zero_add, m₃]; omega)
  obtain ⟨use₃, hst⟩ := h.stages has hoff h₁ h₂ h₃
  have hpres := hst.page
  rw [hun] at hpres
  exact ⟨_, Machine.vmmMap_of_tables (by rintro rfl; exact has) hv hp h₁ h₂
    (g₂.layout.huge_eq_false g₂.has g₂.off g₂.table) h₃
    hpres⟩

end TableLayout

/-! ### The walks after a mapping -/

theorem pagePath_eq_of_le {va n : Nat} (h : pagePath va k = pagePath virt k) (hn : n ≤ k) :
    pagePath va n = pagePath virt n := by
  have hva := pagePath_suffix va hn
  rw [h] at hva
  have hsuffix := List.suffix_of_suffix_length_le hva (pagePath_suffix virt hn)
    (by rw [pagePath_length, pagePath_length])
  exact hsuffix.eq_of_length (by rw [pagePath_length, pagePath_length])

theorem treeOf_eq_of_path {va : Nat} (h : pagePath va k = pagePath virt k) (hk : 0 < k) (kernel r : Nat) :
    treeOf kernel r va = treeOf kernel r virt := by
  have h₁ : [pageIndex 0 va] = [pageIndex 0 virt] := pagePath_eq_of_le h hk
  rw [treeOf, treeOf, (List.cons.inj h₁).1]

namespace TableLayout
variable {s s' : Machine} {use : Nat → Use} {as : AsPtr} {virt phys : Nat} {flags : Word}

theorem link_mapped (f : Nat) (flags : Word) :
    link 3 (entry f (flags ||| flagPresent)) = some (entry f (flags ||| flagPresent)).frame := by
  have hp : (entry f (flags ||| flagPresent)).present = true := by
    rw [present_entry, Word.present_eq, BitVec.getLsbD_or]
    simp [show flagPresent.getLsbD 0 = true from rfl]
  rw [Mem.link_of_ne_two (by decide), if_pos hp]

/-- `vmm_map` changes the walks to its page, and no other walk. -/
theorem walk_vmmMap (h : TableLayout s use) (has : s.Has as) (hmap : s.vmmMap as virt phys flags = .ok s') :
    s'.Has as ∧ s'.pml4 as = s.pml4 as ∧ ∀ va, s'.mem.onHugePage (s.pml4 as) va = s.mem.onHugePage (s.pml4 as) va ∧
      (pagePath va 4 = pagePath virt 4 → s'.mem.onHugePage (s.pml4 as) va = false ∧
        s'.mem.tableAt (s.pml4 as) va 4 = some (entry (phys / 4096) (flags ||| flagPresent)).frame) ∧
      (pagePath va 4 ≠ pagePath virt 4 → s'.mem.tableAt (s.pml4 as) va 4 = s.mem.tableAt (s.pml4 as) va 4) := by
  obtain ⟨s₁, use₁, pt, h₁, hg, hst, hpt, -, hs'⟩ := h.vmmMap has hmap
  -- Making the tables changes no walk, and the new entry is read for the page of `virt` only.
  have hext := fun va => h.walk_extends h₁ hg hst has va
  obtain ⟨has₁, hpml4₁, -, -⟩ := hext virt
  rw [← hpml4₁, ← hst.kernelPml4] at hpt
  have hwrite := fun va => h₁.walk_writeLeaf has₁ hpt hs' va
  rw [hpml4₁] at hwrite
  obtain ⟨has', hpml4', -, -, -⟩ := hwrite virt
  refine ⟨has', hpml4', fun va => ⟨(hwrite va).2.2.1.trans (hext va).2.2.1, fun hva => ?_, fun hva => ?_⟩⟩
  · rw [← link_mapped]
    exact (hwrite va).2.2.2.1 hva
  · exact ((hwrite va).2.2.2.2 hva).trans (hext va).2.2.2

/-- After `vmm_map` the tables and pages of every address are those from before, and those on the way to `virt`. -/
theorem tableAt_vmmMap (h : TableLayout s use) (has : s.Has as) (hmap : s.vmmMap as virt phys flags = .ok s')
    (va : Nat) :
    s'.Has as ∧ s'.pml4 as = s.pml4 as ∧ s'.mem.onHugePage (s.pml4 as) va = s.mem.onHugePage (s.pml4 as) va ∧
    ∀ k, 0 < k → k ≤ 4 → ((s'.mem.tableAt (s.pml4 as) va k).isSome = true ↔
      (s.mem.tableAt (s.pml4 as) va k).isSome = true ∨ pagePath va k = pagePath virt k) := by
  obtain ⟨has', hpml4', hwalks⟩ := h.walk_vmmMap has hmap
  obtain ⟨hhuge, hsame, hother⟩ := hwalks va
  obtain ⟨s₁, use₁, pt, h₁, hg, hst, hpt, -, hs'⟩ := h.vmmMap has hmap
  have h' : TableLayout s' use₁ := hs' ▸ h₁.writeLeaf hpt (pagePath_length _ _)
  have hkernel : s'.kernelPml4 = s.kernelPml4 := by rw [hs']; exact hst.kernelPml4
  refine ⟨has', hpml4', hhuge, fun k hk hk4 => ?_⟩
  by_cases h4 : k = 4
  · subst h4
    by_cases hva : pagePath va 4 = pagePath virt 4
    · rw [(hsame hva).2]
      exact ⟨fun _ => Or.inr hva, fun _ => rfl⟩
    · rw [hother hva]
      exact ⟨Or.inl, fun hc => hc.resolve_right hva⟩
  · obtain ⟨n, rfl⟩ : ∃ n, k = n + 1 := ⟨k - 1, by omega⟩
    have hat' : ∀ g, s'.mem.tableAt (s.pml4 as) va (n + 1) = some g ↔
        use₁ g = .node (treeOf s.kernelPml4 (s.pml4 as) va) (pagePath va (n + 1)) := fun g => by
      rw [← hpml4', ← hkernel]
      exact h'.tableAt_iff has' (by omega)
    constructor
    · intro hsome
      obtain ⟨g, hg'⟩ := Option.isSome_iff_exists.mp hsome
      have hnode := (hat' g).mp hg'
      by_cases hfree : use g = .free
      · -- A new table lies on the way to `virt`.
        rcases hg.fresh hfree with hf | ⟨p, hp, hway, -⟩
        · cases hf.symm.trans hnode
        · obtain ⟨-, rfl⟩ := Use.node.inj (hp.symm.trans hnode)
          have hsuffix := List.suffix_of_suffix_length_le hway (pagePath_suffix virt (show n + 1 ≤ 3 by omega))
            (by rw [pagePath_length, pagePath_length])
          exact Or.inr (hsuffix.eq_of_length (by rw [pagePath_length, pagePath_length]))
      · have hold := (h.tableAt_iff has (by omega)).mpr ((hg.keeps hfree).symm.trans hnode)
        exact Or.inl (by rw [hold]; rfl)
    · rintro (hsome | hpath)
      · obtain ⟨g, hg'⟩ := Option.isSome_iff_exists.mp hsome
        rw [(hat' g).mpr (hg.node ((h.tableAt_iff has (by omega)).mp hg'))]
        rfl
      · obtain ⟨p', hp'⟩ := pagePath_suffix virt (show n + 1 ≤ 3 by omega)
        rw [← hp'] at hpt
        obtain ⟨x, hx⟩ := h'.trees.forest.ancestor hpt
        rw [(hat' x).mpr (by rw [treeOf_eq_of_path hpath hk, hpath]; exact hx)]
        rfl

end TableLayout
end SamOS
