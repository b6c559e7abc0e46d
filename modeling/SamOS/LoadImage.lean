import SamOS.LoadBytes
import SamOS.LoadTrace
import SamOS.KernelRuns

/-! The memory image of a program that is loaded into pages which were not mapped: the bytes at its addresses and the
    flags of its pages. Whatever else the address space maps, a load that starts so writes only pages that it takes
    from the PMM. -/

namespace SamOS
open Function Result Loop

/-! ### Pages that are no tables -/

/-- The entry of the page table for `va`. -/
def Mem.leafEntry (m : Mem) (r va : Nat) : Option Word := (m.tableAt r va 3).map fun pt => m pt (pageIndex 3 va)

theorem Mem.tableAt_leafEntry (m : Mem) (r va : Nat) : m.tableAt r va 4 = (m.leafEntry r va).bind (link 3) := by
  rw [tableAt_page, leafEntry, Option.bind_map]
  rfl

/-- All walks from `r` end at the same entries and pages. -/
structure Mem.SameWalks (r : Nat) (m m' : Mem) : Prop where
  tableAt : ∀ va, m'.tableAt r va 4 = m.tableAt r va 4
  leafEntry : ∀ va, m'.leafEntry r va = m.leafEntry r va
  onHugePage : ∀ va, m'.onHugePage r va = m.onHugePage r va

namespace TableLayout
variable {s s' : Machine} {use use' : Nat → Use} {as : AsPtr} {f : Nat} {m' : Mem}

/-- The tables and the pages of address spaces are the same. -/
def Same (use : Nat → Use) (m m' : Mem) : Prop := ∀ f, ((∃ r p, use f = .node r p) ∨ ∃ r, use f = .space r) → m' f = m f

theorem same_of_ne (hf : (∀ r p, use f ≠ .node r p) ∧ ∀ r, use f ≠ .space r) {m : Mem}
    (hm : ∀ g, g ≠ f → m' g = m g) : Same use m m' := by
  rintro g (⟨r, p, hg⟩ | ⟨r, hg⟩)
  · exact hm g (by rintro rfl; exact hf.1 r p hg)
  · exact hm g (by rintro rfl; exact hf.2 r hg)

theorem of_same (h : TableLayout s use) {pmm : Pmm} (hn : ∀ f r p, use' f = .node r p ↔ use f = .node r p)
    (hs : ∀ a r, use' a = .space r ↔ use a = .space r) (ho : Owned s.kernelPml4 pmm use') (hm : Same use s.mem m') :
    TableLayout { s with mem := m', pmm } use' where
  trees := h.trees.congr hn hs (fun {f r p i} hf _ _ => Or.inl (congrFun (hm f (Or.inl ⟨r, p, hf⟩)) i))
    fun {a r} ha => congrFun (hm a (Or.inr ⟨r, ha⟩)) 0
  shared := by
    have hroot {r : Nat} (hr : use r = .node r []) : m' r = s.mem r := hm r (Or.inl ⟨r, [], hr⟩)
    refine ⟨(hn ..).mpr h.shared.root, fun hi => ?_, fun hr hi => ?_⟩ <;> dsimp only
    · rw [hroot h.shared.root]
      exact h.shared.present hi
    · rw [hroot ((hn ..).mp hr), hroot h.shared.root]
      exact h.shared.same ((hn ..).mp hr) hi
  owned := ho
  live a := (h.live a).trans (exists_congr fun r => (hs a r).symm)

theorem take (h : TableLayout s use) (hf : use f = .free) (hm : ∀ g, g ≠ f → m' g = s.mem g) :
    TableLayout { s with mem := m', pmm := s.pmm.takePage f } (update use f .held) := by
  have hne {u : Use} (hu : u ≠ .held ∧ u ≠ .free) (g : Nat) : update use f .held g = u ↔ use g = u := by
    by_cases hg : g = f
    · subst hg
      rw [update_self, hf]
      exact ⟨fun he => absurd he.symm hu.1, fun he => absurd he.symm hu.2⟩
    · rw [update_of_ne hg]
  refine h.of_same (fun g r p => hne (u := .node r p) ⟨nofun, nofun⟩ g)
    (fun a r => hne (u := .space r) ⟨nofun, nofun⟩ a)
    (h.owned.take ((h.owned.free_iff f).mp hf)) ?_
  exact same_of_ne (by rw [hf]; exact ⟨nofun, nofun⟩) hm

theorem of_held (h : TableLayout s use) (hf : use f = .held) (hm : ∀ g, g ≠ f → m' g = s.mem g) :
    TableLayout { s with mem := m' } use :=
  h.of_same (fun _ _ _ => Iff.rfl) (fun _ _ => Iff.rfl) h.owned (same_of_ne (by rw [hf]; exact ⟨nofun, nofun⟩) hm)

theorem sameWalks (h : TableLayout s use) (has : s.Has as) (hm : Same use s.mem m') :
    Mem.SameWalks (s.pml4 as) s.mem m' := by
  have hwalk (va : Nat) {n : Nat} (hn : n ≤ 4) : m'.tableAt (s.pml4 as) va n = s.mem.tableAt (s.pml4 as) va n := by
    refine Mem.tableAt_congr fun k hk t ht => hm t (Or.inl ?_)
    cases k with
    | zero =>
      cases ht
      exact ⟨_, _, h.root has⟩
    | succ k => exact ⟨_, _, (h.tableAt_iff has (by omega)).mp ht⟩
  refine ⟨fun va => hwalk va (Nat.le_refl 4), fun va => ?_, fun va => ?_⟩
  · unfold Mem.leafEntry
    rw [hwalk va (by decide)]
    cases ht : s.mem.tableAt (s.pml4 as) va 3 with
    | none => rfl
    | some pt => rw [Option.map_some, Option.map_some, hm pt (Or.inl ⟨_, _, (h.tableAt_iff has (by decide)).mp ht⟩)]
  · unfold Mem.onHugePage
    rw [hwalk va (by decide)]
    cases ht : s.mem.tableAt (s.pml4 as) va 2 with
    | none => rfl
    | some pd =>
      dsimp only
      rw [hm pd (Or.inl ⟨_, _, (h.tableAt_iff has (by decide)).mp ht⟩)]

/-- `vmm_map` writes the entry of its page, and no other page is mapped anew or elsewhere; pages that are held stay. -/
theorem vmmMap_leaf (h : TableLayout s use) (has : s.Has as) {virt phys : Nat} {flags : Word}
    (hmap : s.vmmMap as virt phys flags = .ok s') :
    ∃ use', TableLayout s' use' ∧ s'.Has as ∧ s'.pml4 as = s.pml4 as ∧
      (∀ va, s'.mem.onHugePage (s.pml4 as) va = s.mem.onHugePage (s.pml4 as) va) ∧
      (∀ va, pagePath va 4 = pagePath virt 4 → s'.mem.leafEntry (s.pml4 as) va = some
        (entry (phys / 4096) (flags ||| flagPresent))) ∧
      (∀ va, pagePath va 4 ≠ pagePath virt 4 → s'.mem.tableAt (s.pml4 as) va 4 = s.mem.tableAt (s.pml4 as) va 4 ∧
        ∀ w, s.mem.leafEntry (s.pml4 as) va = some w → s'.mem.leafEntry (s.pml4 as) va = some w) ∧
      ∀ f, use f = .held → use' f = .held ∧ s'.mem f = s.mem f := by
  obtain ⟨s₁, use₁, pt, h₁, hg, hst, hpt, -, hs'⟩ := h.vmmMap has hmap
  have hmem : s'.mem = s₁.mem.write pt (pageIndex 3 virt) (entry (phys / 4096) (flags ||| flagPresent)) := by rw [hs']
  have h' : TableLayout s' use₁ := hs' ▸ h₁.writeLeaf hpt (pagePath_length _ _)
  have hkernel : s'.kernelPml4 = s.kernelPml4 := by rw [hs']; exact hst.kernelPml4
  obtain ⟨has', hpml4', hwalks⟩ := h.walk_vmmMap has hmap
  have hat (va t : Nat) : s'.mem.tableAt (s.pml4 as) va 3 = some t ↔
      use₁ t = .node (treeOf s.kernelPml4 (s.pml4 as) va) (pagePath va 3) := by
    rw [← hpml4', ← hkernel]
    exact h'.tableAt_iff has' (by decide)
  refine ⟨use₁, h', has', hpml4', fun va => (hwalks va).1, fun va hva => ?_,
    fun va hva => ⟨(hwalks va).2.2 hva, fun w hw => ?_⟩, fun f hf => ?_⟩
  · have hpath := pagePath_eq_of_le hva (show 3 ≤ 4 by decide)
    have ht := (hat va pt).mpr (by rw [treeOf_eq_of_path hpath (by decide), hpath]; exact hpt)
    rw [Mem.leafEntry, ht, Option.map_some, hmem, (List.cons.inj hva).1, Mem.write_same]
  · obtain ⟨t, ht, rfl⟩ := Option.map_eq_some_iff.mp hw
    have hnode := (h.tableAt_iff has (by decide)).mp ht
    rw [Mem.leafEntry, (hat va t).mpr (hg.node hnode), Option.map_some, hmem]
    rcases s₁.mem.write_cases pt (pageIndex 3 virt) t (pageIndex 3 va)
      (entry (phys / 4096) (flags ||| flagPresent)) with
      ⟨-, he⟩ | ⟨rfl, hidx, -⟩
    · rw [he, hg.leaf hnode (pagePath_length _ _)]
    · have hpath := (Use.node.inj ((hg.node hnode).symm.trans hpt)).2
      exact absurd (congrArg₂ List.cons hidx hpath) hva
  · have hne : f ≠ pt := by
      rintro rfl
      rw [hg.keeps (by rw [hf]; nofun), hf] at hpt
      cases hpt
    refine ⟨(hg.keeps (by rw [hf]; nofun)).trans hf, ?_⟩
    rw [hmem, Mem.write_of_ne _ _ _ hne, hg.other (by rw [hf]; nofun) (by rw [hf]; nofun)]

/-- A free page `f` is mapped at `va` and cleared. -/
structure NewPage (as : AsPtr) (va f : Nat) (flags : Word) (s : Machine) (use : Nat → Use) (s' : Machine)
    (use' : Nat → Use) : Prop where
  free : use f = .free
  pos : 0 < f
  layout : TableLayout s' use'
  has : s'.Has as
  walks : s'.pml4 as = s.pml4 as ∧ (∀ va', s'.mem.onHugePage (s.pml4 as) va' = s.mem.onHugePage (s.pml4 as) va') ∧
    s'.mem.leafEntry (s.pml4 as) va = some (entry f (flags ||| flagPresent)) ∧
      s'.mem.tableAt (s.pml4 as) va 4 = some f ∧
    ∀ va', pagePath va' 4 ≠ pagePath va 4 → s'.mem.tableAt (s.pml4 as) va' 4 = s.mem.tableAt (s.pml4 as) va' 4 ∧
      ∀ w, s.mem.leafEntry (s.pml4 as) va' = some w → s'.mem.leafEntry (s.pml4 as) va' = some w
  held : use' f = .held
  zero : ∀ i, s'.mem f i = 0
  kept : ∀ g, use g = .held → use' g = .held ∧ s'.mem g = s.mem g

theorem mapNewPage (h : TableLayout s use) (has : s.Has as) {va : Nat} {flags : Word} (hfl : FlagsOnly flags)
    (hm : s.mapNewPage as va flags = .ok (true, s')) : ∃ f use', NewPage as va f flags s use s' use' := by
  unfold Machine.mapNewPage Machine.allocPage at hm
  rcases s.pmm.pmmAllocPage_cases with ⟨f, hf, -, heq⟩ | ⟨-, heq⟩ <;> rw [heq] at hm <;> dsimp only at hm
  swap
  · cases hm
  have hfree := (h.owned.free_iff f).mpr hf
  obtain ⟨hpos, hlt⟩ := h.owned.pos hfree
  have hlt40 : f < 2 ^ 40 := Nat.lt_of_lt_of_le hlt h.owned.total
  rw [if_neg (by omega)] at hm
  obtain ⟨s₂, hmap, hm⟩ := of_bind_eq_ok hm
  cases hm
  have hoff (g : Nat) (hg : g ≠ f) : s.mem.zeroPage f g = s.mem g := Mem.zeroPage_of_ne _ hg
  have hsame : Same use s.mem (s.mem.zeroPage f) := same_of_ne (by rw [hfree]; exact ⟨nofun, nofun⟩) hoff
  have h₁ := h.take hfree hoff
  set s₁ : Machine := { s with mem := s.mem.zeroPage f, pmm := s.pmm.takePage f } with hs₁
  obtain ⟨has₁, hpml4₁⟩ := h.has_of_steady (show s.Steady s₁ from ⟨rfl, rfl, rfl⟩)
    (fun ha => hsame _ (Or.inr ⟨_, ha⟩)) has
  have hwalks := h.sameWalks has hsame
  obtain ⟨use', h', has', hpml4, hhuge, hnew, hother, hkeep⟩ := h₁.vmmMap_leaf has₁ hmap
  rw [hpml4₁] at hpml4 hhuge hnew hother
  rw [Nat.mul_div_cancel _ (by decide)] at hnew
  obtain ⟨hheld, hmem⟩ := hkeep f (update_self ..)
  have hentry := hnew va rfl
  refine ⟨f, use', hfree, hpos, h', has', ⟨hpml4, fun va' => (hhuge va').trans (hwalks.onHugePage va'), hentry, ?_,
    fun va' hva' => ?_⟩, hheld, fun i => ?_, fun g hg => ?_⟩
  · rw [Mem.tableAt_leafEntry, hentry, Option.bind_some, Mem.link_of_ne_two (by decide), if_pos, frame_entry hlt40]
    · exact hfl.or (show flagPresent &&& addrMask = 0#64 by decide)
    · rw [present_entry, Word.present_eq, BitVec.getLsbD_or]
      simp [show flagPresent.getLsbD 0 = true from rfl]
  · obtain ⟨hwalk, hleaf⟩ := hother va' hva'
    exact ⟨hwalk.trans (hwalks.tableAt va'), fun w hw => hleaf w ((hwalks.leafEntry va').trans hw)⟩
  · rw [hmem]
    exact Mem.zeroPage_same s.mem f i
  · have hgf : g ≠ f := by
      rintro rfl
      cases hfree.symm.trans hg
    obtain ⟨hu, hmem⟩ := hkeep g (by rw [update_of_ne hgf]; exact hg)
    exact ⟨hu, hmem.trans (hoff g hgf)⟩

end TableLayout

/-! ### What an address space shows of some pages -/

/-- The flags of each page that is mapped, and the byte at each address, by the 48 bits of an address that the tables
    look at. -/
@[ext]
structure View where
  perm : Nat → Option Word
  byte : Nat → BitVec 8

/-- The page gets the flags unless it has some. -/
def mapPage (flags : Word) (p : Nat) (perm : Nat → Option Word) : Nat → Option Word :=
  if perm p = none then update perm p (some flags) else perm

/-- The flags of the pages after the page loop of the segment. -/
def Phdr.permissions (ph : Phdr) (perm : Nat → Option Word) : Nat → Option Word :=
  forRange 0 ph.pages (fun j perm => mapPage ph.mapFlags (ph.vaddr / 4096 + j) perm) perm

/-- The flags of the pages after the segments of the image. -/
def Image.permissions (img : Image) : Nat → Option Word :=
  forRange 0 img.phnum (fun i perm => if (img.phdr i).type = 1 then (img.phdr i).permissions perm else perm)
    fun _ => none

theorem Image.fold_permissions (img : Image) :
    img.fold (fun i j => mapPage (img.phdr i).mapFlags ((img.phdr i).vaddr / 4096 + j))
    (fun _ _ perm => perm) (fun _ => none) = img.permissions := by
  unfold fold permissions Phdr.permissions
  simp only [forRange_id]

/-- Pages change the flags, and bytes the bytes. -/
theorem Image.fold_view (img : Image) (page : Nat → Nat → (Nat → Option Word) → Nat → Option Word)
    (byte : Nat → Nat → (Nat → BitVec 8) → Nat → BitVec 8) (v : View) :
    img.fold (fun i j v => { v with perm := page i j v.perm }) (fun i off v => { v with byte := byte i off v.byte }) v =
      ⟨img.fold page (fun _ _ perm => perm) v.perm, img.fold (fun _ _ bytes => bytes) byte v.byte⟩ :=
  View.ext (fold_map (π := View.perm) (fun _ _ _ => rfl) (fun _ _ _ => rfl) img v)
    (fold_map (π := View.byte) (fun _ _ _ => rfl) (fun _ _ _ => rfl) img v)

/-- The number of the page of an address. -/
def pageOf (va : Nat) : Nat := va / 4096 % 2 ^ 36

/-- The address space shows the view on the pages of `P`. They lie off the 2 MiB pages, and what is mapped there is
    one page for each, no table and zero where nothing was written. -/
structure Views (P : Nat → Prop) (as : AsPtr) (r : Nat) (s : Machine) (v : View) : Prop where
  pml4 : s.pml4 as = r
  layout : ∃ use, TableLayout s use ∧ s.Has as ∧ ∀ p f, P p → s.mem.tableAt r (p * 4096) 4 = some f → use f = .held
  clear : ∀ p, P p → s.mem.onHugePage r (p * 4096) = false
  unmapped : ∀ p, P p → v.perm p = none → s.mem.tableAt r (p * 4096) 4 = none ∧ ∀ o < 4096, v.byte (p * 4096 + o) = 0
  mapped : ∀ p flags, P p → v.perm p = some flags → ∃ f, s.mem.leafEntry r (p * 4096) = some
    (entry f (flags ||| flagPresent)) ∧
    s.mem.tableAt r (p * 4096) 4 = some f ∧ 0 < f ∧ ∀ o < 4096, s.mem.readByte (f * 4096 + o) = v.byte (p * 4096 + o)
  inj : ∀ p q f, P p → P q → s.mem.tableAt r (p * 4096) 4 = some f → s.mem.tableAt r (q * 4096) 4 = some f → p = q

theorem pagePath_page_inj {p q : Nat} (hp : p < 2 ^ 36) (hq : q < 2 ^ 36) :
    pagePath (p * 4096) 4 = pagePath (q * 4096) 4 ↔ p = q := by
  rw [pagePath_four_inj]
  omega

namespace Views
variable {P : Nat → Prop} {as : AsPtr} {r p : Nat} {s s' : Machine} {v : View} {flags : Word}

theorem mapNewPage (h : Views P as r s v) (hP : ∀ q, P q → q < 2 ^ 36) (hp : P p) (hnone : v.perm p = none)
    (hfl : FlagsOnly flags) (hm : s.mapNewPage as (p * 4096) flags = .ok (true, s')) :
    Views P as r s' { v with perm := update v.perm p (some flags) } := by
  obtain ⟨use, hl, has, hheld⟩ := h.layout
  obtain ⟨-, hzero⟩ := h.unmapped p hp hnone
  obtain ⟨f, use', hnew⟩ := hl.mapNewPage has hfl hm
  obtain ⟨hpml4, hclear, hentry, hpage, hother⟩ := hnew.walks
  rw [h.pml4] at hpml4 hclear hentry hpage hother
  have hpath {q : Nat} (hq : P q) (hne : q ≠ p) : pagePath (q * 4096) 4 ≠ pagePath (p * 4096) 4 :=
    fun he => hne ((pagePath_page_inj (hP q hq) (hP p hp)).mp he)
  have hwalk {q : Nat} (hq : P q) (hne : q ≠ p) : s'.mem.tableAt r (q * 4096) 4 = s.mem.tableAt r (q * 4096) 4 :=
    (hother _ (hpath hq hne)).1
  refine ⟨hpml4, ⟨use', hnew.layout, hnew.has, fun q g hq hg => ?_⟩, fun q hq => (hclear _).trans (h.clear q hq),
    fun q hq hn => ?_, fun q fl hq hs => ?_, fun q q' g hq hq' hg hg' => ?_⟩
  · by_cases hqp : q = p
    · subst hqp
      rw [hpage] at hg
      cases hg
      exact hnew.held
    · rw [hwalk hq hqp] at hg
      exact (hnew.kept g (hheld q g hq hg)).1
  · dsimp only at hn
    have hqp : q ≠ p := by
      rintro rfl
      rw [update_self] at hn
      cases hn
    rw [update_of_ne hqp] at hn
    rw [hwalk hq hqp]
    exact h.unmapped q hq hn
  · by_cases hqp : q = p
    · subst hqp
      dsimp only at hs
      rw [update_self] at hs
      cases hs
      refine ⟨f, hentry, hpage, hnew.pos, fun o ho => ?_⟩
      rw [hzero o ho]
      unfold Mem.readByte
      rw [show (f * 4096 + o) / 4096 = f by omega, hnew.zero]
      simp [Word.byte]
    · dsimp only at hs
      rw [update_of_ne hqp] at hs
      obtain ⟨g, he, hg, hpos, hbytes⟩ := h.mapped q fl hq hs
      refine ⟨g, (hother _ (hpath hq hqp)).2 _ he, (hwalk hq hqp).trans hg, hpos, fun o ho => ?_⟩
      rw [← hbytes o ho]
      unfold Mem.readByte
      rw [show (g * 4096 + o) / 4096 = g by omega, (hnew.kept g (hheld q g hq hg)).2]
  · -- the new page was free, the others are held
    have hfresh {q : Nat} (hq : P q) (hne : q ≠ p) : s'.mem.tableAt r (q * 4096) 4 ≠ some f := by
      intro he
      rw [hwalk hq hne] at he
      cases (hheld q f hq he).symm.trans hnew.free
    by_cases hqp : q = p <;> by_cases hqp' : q' = p
    · rw [hqp, hqp']
    · rw [hqp, hpage] at hg
      cases hg
      exact absurd hg' (hfresh hq' hqp')
    · rw [hqp', hpage] at hg'
      cases hg'
      exact absurd hg (hfresh hq hqp)
    · rw [hwalk hq hqp] at hg
      rw [hwalk hq' hqp'] at hg'
      exact h.inj q q' g hq hq' hg hg'

theorem pagePath_pageOf (va n : Nat) (hn : n ≤ 4) : pagePath va n = pagePath (pageOf va * 4096) n := by
  refine pagePath_eq_of_le (pagePath_four_inj.mpr ?_) hn
  unfold pageOf
  omega

theorem virtToPhys_eq_zero_iff (h : Views P as r s v) {va : Nat} (hp : P (pageOf va)) :
    s.vmmVirtToPhys as va = 0 ↔ v.perm (pageOf va) = none := by
  have hhuge : s.mem.onHugePage r va = false := by
    rw [Mem.onHugePage_of_pagePath (pagePath_pageOf va 3 (by decide))]
    exact h.clear _ hp
  unfold Machine.vmmVirtToPhys
  rw [h.pml4, Mem.virtToPhys_eq hhuge, Mem.tableAt_of_pagePath (pagePath_pageOf va 4 (Nat.le_refl 4))]
  cases hv : v.perm (pageOf va) with
  | none =>
    rw [(h.unmapped _ hp hv).1]
    simp
  | some flags =>
    obtain ⟨f, -, hf, hpos, -⟩ := h.mapped _ flags hp hv
    rw [hf]
    simp only [reduceCtorEq, iff_false]
    omega

theorem read (h : Views P as r s v) {va : Nat} (hp : P (pageOf va)) (hv : v.perm (pageOf va) = some flags) :
    ∃ f, s.mem.tableAt r (pageOf va * 4096) 4 = some f ∧ s.vmmVirtToPhys as va = f * 4096 + va % 4096 ∧
      s.mem.readByte (f * 4096 + va % 4096) = v.byte (va % 2 ^ 48) := by
  obtain ⟨f, -, hf, hpos, hbytes⟩ := h.mapped _ flags hp hv
  refine ⟨f, hf, ?_, ?_⟩
  · unfold Machine.vmmVirtToPhys
    rw [h.pml4]
    exact Mem.virtToPhys_of_tableAt ((Mem.tableAt_of_pagePath (pagePath_pageOf va 4 (Nat.le_refl 4))).trans hf)
  · rw [hbytes _ (Nat.mod_lt _ (by decide))]
    congr 1
    unfold pageOf
    omega

theorem loadPage (h : Views P as r s v) (hP : ∀ q, P q → q < 2 ^ 36) (hp : P p) (hfl : FlagsOnly flags)
    (hm : s.loadPage as flags (p * 4096) = .ok (true, s')) :
    Views P as r s' { v with perm := mapPage flags p v.perm } := by
  have hpage : pageOf (p * 4096) = p := by
    have := hP p hp
    unfold pageOf
    omega
  have hiff : s.vmmVirtToPhys as (p * 4096) = 0 ↔ _ := h.virtToPhys_eq_zero_iff (by rw [hpage]; exact hp)
  rw [hpage] at hiff
  unfold Machine.loadPage at hm
  unfold mapPage
  split at hm
  · rename_i hv
    cases hm
    rw [if_neg (mt hiff.mpr hv)]
    exact h
  · rename_i hv
    have hnone := hiff.mp (not_not.mp hv)
    rw [if_pos hnone]
    exact h.mapNewPage hP hp hnone hfl hm

theorem loadByte (h : Views P as r s v) (hP : ∀ q, P q → q < 2 ^ 36) {img : Image} {ph : Phdr} {off : Nat}
    (hp : P (pageOf ((ph.vaddr + off) % 2 ^ 64))) (hm : s.loadByte img as ph off = .ok (true, s')) :
    Views P as r s' { v with byte := update v.byte ((ph.vaddr + off) % 2 ^ 48) (img.byte ((ph.offset + off) % 2 ^ 64)) } := by
  obtain ⟨use, hl, has, hheld⟩ := h.layout
  have hzero := h.virtToPhys_eq_zero_iff hp
  unfold Machine.loadByte at hm
  rw [show (ph.vaddr + off) % 2 ^ 48 = (ph.vaddr + off) % 2 ^ 64 % 2 ^ 48 by omega]
  generalize (ph.vaddr + off) % 2 ^ 64 = va at *
  generalize img.byte ((ph.offset + off) % 2 ^ 64) = b at *
  dsimp only at hm
  split at hm
  · cases hm
  rename_i hv
  cases hm
  obtain ⟨flags, hflags⟩ := Option.ne_none_iff_exists'.mp (mt hzero.mpr hv)
  obtain ⟨f, hf, hphys, -⟩ := h.read hp hflags
  rw [hphys]
  have hoff (g : Nat) (hg : g ≠ f) :
    s.mem.writeByte (f * 4096 + va % 4096) b g = s.mem g := Mem.writeByte_of_ne _ _ (by omega)
  have hf' := hheld _ f hp hf
  have hsame : TableLayout.Same use s.mem (s.mem.writeByte (f * 4096 + va % 4096) b) :=
    TableLayout.same_of_ne (by rw [hf']; exact ⟨nofun, nofun⟩) hoff
  have hwalks := hl.sameWalks has hsame
  have hother {q : Nat} (hq : q < 2 ^ 36) (hne : q ≠ pageOf va) {o : Nat} (ho : o < 4096) :
      q * 4096 + o ≠ va % 2 ^ 48 := by
    unfold pageOf at hne
    omega
  set s₁ : Machine := { s with mem := s.mem.writeByte (f * 4096 + va % 4096) b } with hs₁
  obtain ⟨has₁, hpml4⟩ := hl.has_of_steady (show s.Steady s₁ from ⟨rfl, rfl, rfl⟩)
    (fun ha => hsame _ (Or.inr ⟨_, ha⟩)) has
  rw [h.pml4] at hpml4 hwalks
  refine ⟨hpml4, ⟨use, hl.of_held hf' hoff, has₁, fun q g hq hg => ?_⟩, fun q hq => ?_, fun q hq hn => ?_,
    fun q fl hq hs => ?_, fun q q' g hq hq' hg hg' => ?_⟩
  · exact hheld q g hq ((hwalks.tableAt _).symm.trans hg)
  · exact (hwalks.onHugePage _).trans (h.clear q hq)
  · obtain ⟨hun, hbytes⟩ := h.unmapped q hq hn
    refine ⟨(hwalks.tableAt _).trans hun, fun o ho => ?_⟩
    have hne : q ≠ pageOf va := by
      rintro rfl
      cases hn.symm.trans hflags
    dsimp only
    rw [update_of_ne (hother (hP q hq) hne ho)]
    exact hbytes o ho
  · obtain ⟨g, he, hg, hpos, hbytes⟩ := h.mapped q fl hq hs
    refine ⟨g, (hwalks.leafEntry _).trans he, (hwalks.tableAt _).trans hg, hpos, fun o ho => ?_⟩
    dsimp only [s₁]
    rw [Mem.readByte_writeByte, hbytes o ho, update_apply]
    refine if_congr ?_ rfl rfl
    by_cases hq' : q = pageOf va
    · subst hq'
      cases hg.symm.trans hf
      unfold pageOf
      omega
    · have hgf : g ≠ f := by
        rintro rfl
        exact hq' (h.inj q _ g hq hp hg hf)
      have := hother (hP q hq) hq' ho
      omega
  · exact h.inj q q' g hq hq' ((hwalks.tableAt _).symm.trans hg) ((hwalks.tableAt _).symm.trans hg')

theorem loadElfIntoAs {img : Image} (h : Views P as r s ⟨fun _ => none, fun _ => 0⟩) (hP : ∀ q, P q → q < 2 ^ 36)
    (hp : ∀ va, img.Touches va → P (pageOf va)) {entry : Nat} (hl : s.loadElfIntoAs as img = .ok (some entry, s')) :
    Views P as r s' ⟨img.permissions, img.overlay fun _ => 0⟩ := by
  rw [← Image.fold_permissions, ← Image.fold_overlay, ← Image.fold_view img _ _ ⟨fun _ => none, fun _ => 0⟩]
  refine Image.load_fold (R := Views P as r) (Machine.load_of_some hl).2 h (fun i j t t' v hat ht hstep => ?_)
    fun i off t t' v hat ht hstep => ht.loadByte hP (hp _ hat.touches) hstep
  have hva : (img.phdr i).segStart + j * 4096 = ((img.phdr i).vaddr / 4096 + j) * 4096 := by
    unfold Phdr.segStart
    omega
  have hlt := hat.in_user.2
  have hpj := hp _ hat.touches
  unfold Machine.pageBody at hstep
  rw [hva] at hstep hpj hlt
  have hpage : pageOf (((img.phdr i).vaddr / 4096 + j) * 4096) = (img.phdr i).vaddr / 4096 + j := by
    unfold pageOf
    unfold userUpperLimit at hlt
    omega
  rw [hpage] at hpj
  exact ht.loadPage hP hpj (Layout.mapFlags_userFlags _).only hstep

end Views

/-- Nothing is mapped at the address, and no 2 MiB page is on the way to it. -/
def Machine.Unmapped (s : Machine) (as : AsPtr) (va : Nat) : Prop :=
  s.mem.tableAt (s.pml4 as) va 4 = none ∧ s.mem.onHugePage (s.pml4 as) va = false

theorem Machine.unmapped_of_pagePath {s : Machine} {as : AsPtr} {va va' : Nat} (h : pagePath va 4 = pagePath va' 4)
    (hu : s.Unmapped as va') :
    s.Unmapped as va := by
  unfold Unmapped
  rw [Mem.tableAt_of_pagePath h, Mem.onHugePage_of_pagePath (pagePath_eq_of_le h (by decide))]
  exact hu

/-- The pages of the addresses that the load touches. -/
def Image.TouchesPage (img : Image) (p : Nat) : Prop := ∃ va, img.Touches va ∧ pageOf va = p

variable {img : Image}

/-- A load into pages that were not mapped. -/
theorem TableLayout.load_views {s s' : Machine} {use : Nat → Use} {as : AsPtr} {entry : Nat} (h : TableLayout s use)
    (has : s.Has as) (hu : ∀ va, img.Touches va → s.Unmapped as va)
    (hl : s.loadElfIntoAs as img = .ok (some entry, s')) :
    Views img.TouchesPage as (s.pml4 as) s' ⟨img.permissions, img.overlay fun _ => 0⟩ := by
  have hun {p : Nat} (hp : img.TouchesPage p) : s.Unmapped as (p * 4096) := by
    obtain ⟨va, hva, rfl⟩ := hp
    exact Machine.unmapped_of_pagePath (Views.pagePath_pageOf va 4 (Nat.le_refl 4)).symm (hu va hva)
  have hinit : Views img.TouchesPage as (s.pml4 as) s ⟨fun _ => none, fun _ => 0⟩ := by
    refine ⟨rfl, ⟨use, h, has, fun p f hp hf => ?_⟩, fun p hp => (hun hp).2, fun p hp _ => ⟨(hun hp).1, fun _ _ => rfl⟩,
      fun p flags _ hs => ?_, fun p q f hp _ hf _ => ?_⟩
    · cases (hun hp).1.symm.trans hf
    · cases hs
    · cases (hun hp).1.symm.trans hf
  refine hinit.loadElfIntoAs ?_ (fun va hva => ⟨va, hva, rfl⟩) hl
  rintro q ⟨va, -, rfl⟩
  exact Nat.mod_lt _ (by decide)

/-! ### The flags of a page -/

/-- The page loop of segment `i` goes over page `p`. -/
def Image.Visits (img : Image) (i p : Nat) : Prop :=
  (img.phdr i).type = 1 ∧ ∃ j < (img.phdr i).pages, p = (img.phdr i).vaddr / 4096 + j

theorem mapPage_apply (flags : Word) (p q : Nat) (perm : Nat → Option Word) :
    mapPage flags p perm q = if perm q = none ∧ q = p then some flags else perm q := by
  unfold mapPage
  by_cases hq : q = p
  · subst hq
    by_cases hn : perm q = none
    · rw [if_pos hn, if_pos ⟨hn, rfl⟩, update_self]
    · rw [if_neg hn, if_neg fun h => hn h.1]
  · rw [if_neg (show ¬(perm q = none ∧ q = p) from fun h => hq h.2)]
    split
    · exact update_of_ne hq ..
    · rfl

/-- A segment gives its flags to the pages that have none. -/
theorem Phdr.permissions_apply (ph : Phdr) (perm : Nat → Option Word) (p : Nat) :
    (perm p ≠ none → ph.permissions perm p = perm p) ∧
    (perm p = none → ((∃ j < ph.pages, p = ph.vaddr / 4096 + j) → ph.permissions perm p = some ph.mapFlags) ∧
      ((¬∃ j < ph.pages, p = ph.vaddr / 4096 + j) → ph.permissions perm p = none)) := by
  refine forRange_invariant (P := fun n (perm' : Nat → Option Word) => (perm p ≠ none → perm' p = perm p) ∧
    (perm p = none → ((∃ j < n, p = ph.vaddr / 4096 + j) → perm' p = some ph.mapFlags) ∧
      ((¬∃ j < n, p = ph.vaddr / 4096 + j) → perm' p = none))) (Nat.zero_le _)
    ⟨fun _ => rfl, fun hn => ⟨fun ⟨j, hj, _⟩ => absurd hj (Nat.not_lt_zero j), fun _ => hn⟩⟩ fun n perm' _ hn ih => ?_
  rw [mapPage_apply]
  refine ⟨fun hs => ?_, fun hs => ⟨?_, fun hno => ?_⟩⟩
  · rw [if_neg fun h => hs ((ih.1 hs).symm.trans h.1), ih.1 hs]
  · rintro ⟨j, hj, rfl⟩
    split
    · rfl
    · rename_i hnot
      by_contra hne
      have hbefore : ¬∃ j' < n, ph.vaddr / 4096 + j = ph.vaddr / 4096 + j' := fun hb => hne ((ih.2 hs).1 hb)
      have hjn : j = n := by
        by_contra hjn
        exact hbefore ⟨j, by omega, rfl⟩
      exact hnot ⟨(ih.2 hs).2 hbefore, by rw [hjn]⟩
  · rw [if_neg fun h => hno ⟨n, Nat.lt_succ_self n, h.2⟩]
    exact (ih.2 hs).2 fun ⟨j, hj, he⟩ => hno ⟨j, Nat.lt_succ_of_lt hj, he⟩

/-- A page has the flags of the first segment that goes over it. -/
theorem Image.permissions_apply (img : Image) (p : Nat) :
    (img.permissions p = none ↔ ∀ i < img.phnum, ¬img.Visits i p) ∧
    ∀ i < img.phnum, img.Visits i p → (∀ j < i, ¬img.Visits j p) → img.permissions p = some (img.phdr i).mapFlags := by
  refine forRange_invariant (P := fun n (perm : Nat → Option Word) => (perm p = none ↔ ∀ i < n, ¬img.Visits i p) ∧
    ∀ i < n, img.Visits i p → (∀ j < i, ¬img.Visits j p) → perm p = some (img.phdr i).mapFlags) (Nat.zero_le _)
    ⟨⟨fun _ i hi => absurd hi (Nat.not_lt_zero i), fun _ => rfl⟩, fun i hi => absurd hi (Nat.not_lt_zero i)⟩
      fun n perm _ hn ih => ?_
  obtain ⟨hnone, hfirst⟩ := ih
  -- what header `n` does to the page
  have hstep : (perm p ≠ none → (if (img.phdr n).type = 1 then (img.phdr n).permissions perm else perm) p = perm p) ∧
      (perm p = none → (img.Visits n p → (if (img.phdr n).type = 1 then (img.phdr n).permissions perm else perm) p =
        some (img.phdr n).mapFlags) ∧
        (¬img.Visits n p → (if (img.phdr n).type = 1 then (img.phdr n).permissions perm else perm) p = none)) := by
    by_cases htype : (img.phdr n).type = 1
    · rw [if_pos htype]
      obtain ⟨hkeep, hset⟩ := (img.phdr n).permissions_apply perm p
      exact ⟨hkeep, fun hs => ⟨fun hv => (hset hs).1 hv.2, fun hv => (hset hs).2 fun he => hv ⟨htype, he⟩⟩⟩
    · rw [if_neg htype]
      exact ⟨fun _ => rfl, fun hs => ⟨fun hv => absurd hv.1 htype, fun _ => hs⟩⟩
  generalize (if (img.phdr n).type = 1 then (img.phdr n).permissions perm else perm) = perm' at hstep
  refine ⟨⟨fun h i hi => ?_, fun h => ?_⟩, fun i hi hv hbefore => ?_⟩
  · have hs : perm p = none := by
      by_contra hs
      exact hs ((hstep.1 hs).symm.trans h)
    rcases Nat.lt_succ_iff_lt_or_eq.mp hi with hi | rfl
    · exact hnone.mp hs i hi
    · intro hv
      cases ((hstep.2 hs).1 hv).symm.trans h
  · exact (hstep.2 (hnone.mpr fun i hi => h i (Nat.lt_succ_of_lt hi))).2 (h n (Nat.lt_succ_self n))
  · rcases Nat.lt_succ_iff_lt_or_eq.mp hi with hi | rfl
    · have hs := hfirst i hi hv hbefore
      rw [hstep.1 (by rw [hs]; nofun), hs]
    · exact (hstep.2 (hnone.mpr hbefore)).1 hv

/-! ### The bytes at an address -/

/-- The file bytes of segment `i` include one for the address. -/
def Image.Holds (img : Image) (i va : Nat) : Prop :=
  (img.phdr i).type = 1 ∧ (img.phdr i).vaddr ≤ va ∧ va < (img.phdr i).vaddr + (img.phdr i).filesz

/-- A segment that does not wrap around lays its file bytes over the addresses from `p_vaddr` on. -/
theorem Phdr.overlay_apply (ph : Phdr) (img : Image) (hv : ph.vaddr + ph.filesz ≤ 2 ^ 48)
    (ho : ph.offset + ph.filesz ≤ 2 ^ 64) (bytes : Nat → BitVec 8) (va : Nat) : ph.overlay img bytes va =
      if ph.vaddr ≤ va ∧ va < ph.vaddr + ph.filesz then img.byte (ph.offset + (va - ph.vaddr)) else bytes va := by
  refine forRange_invariant (P := fun n (bytes' : Nat → BitVec 8) => bytes' va =
    if ph.vaddr ≤ va ∧ va < ph.vaddr + n then img.byte (ph.offset + (va - ph.vaddr)) else bytes va) (Nat.zero_le _)
    (by rw [if_neg (by omega)]) fun n bytes' _ hn ih => ?_
  rw [Nat.mod_eq_of_lt (show ph.vaddr + n < 2 ^ 48 by omega), Nat.mod_eq_of_lt (show ph.offset + n < 2 ^ 64 by omega),
    update_apply, ih]
  by_cases he : va = ph.vaddr + n
  · rw [if_pos he, if_pos (by omega), he, Nat.add_sub_cancel_left]
  · rw [if_neg he]
    refine if_congr ?_ rfl rfl
    omega

/-- The last segment with a byte for the address decides. -/
theorem Image.overlay_apply (img : Image)
    (hfit : ∀ i < img.phnum, (img.phdr i).type = 1 → (img.phdr i).vaddr + (img.phdr i).filesz ≤ 2 ^ 48 ∧
      (img.phdr i).offset + (img.phdr i).filesz ≤ 2 ^ 64)
    (bytes : Nat → BitVec 8) (va : Nat) :
    (∀ j < img.phnum, img.Holds j va → (∀ k, j < k → k < img.phnum → ¬img.Holds k va) →
      img.overlay bytes va = img.byte ((img.phdr j).offset + (va - (img.phdr j).vaddr))) ∧
    ((∀ j < img.phnum, ¬img.Holds j va) → img.overlay bytes va = bytes va) := by
  refine forRange_invariant (P := fun n (bytes' : Nat → BitVec 8) =>
    (∀ j < n, img.Holds j va → (∀ k, j < k → k < n → ¬img.Holds k va) →
      bytes' va = img.byte ((img.phdr j).offset + (va - (img.phdr j).vaddr))) ∧
    ((∀ j < n, ¬img.Holds j va) → bytes' va = bytes va)) (Nat.zero_le _)
    ⟨fun j hj => absurd hj (Nat.not_lt_zero j), fun _ => rfl⟩ fun n bytes' _ hn ih => ?_
  obtain ⟨hlast, hrest⟩ := ih
  have hstep : (img.Holds n va → (if (img.phdr n).type = 1 then (img.phdr n).overlay img bytes' else bytes') va =
      img.byte ((img.phdr n).offset + (va - (img.phdr n).vaddr))) ∧
      (¬img.Holds n va → (if (img.phdr n).type = 1 then (img.phdr n).overlay img bytes' else bytes') va =
        bytes' va) := by
    by_cases htype : (img.phdr n).type = 1
    · obtain ⟨hv, ho⟩ := hfit n (by omega) htype
      rw [if_pos htype, Phdr.overlay_apply _ img hv ho]
      exact ⟨fun h => if_pos h.2, fun h => if_neg fun h' => h ⟨htype, h'⟩⟩
    · rw [if_neg htype]
      exact ⟨fun h => absurd h.1 htype, fun _ => rfl⟩
  generalize (if (img.phdr n).type = 1 then (img.phdr n).overlay img bytes' else bytes') = bytes'' at hstep
  refine ⟨fun j hj hh hafter => ?_, fun h => ?_⟩
  · rcases Nat.lt_succ_iff_lt_or_eq.mp hj with hj | rfl
    · rw [hstep.2 (hafter n hj (Nat.lt_succ_self n))]
      exact hlast j hj hh fun k hk hkn => hafter k hk (Nat.lt_succ_of_lt hkn)
    · exact hstep.1 hh
  · rw [hstep.2 (h n (Nat.lt_succ_self n))]
    exact hrest fun j hj => h j (Nat.lt_succ_of_lt hj)

/-! ### Two sample loads -/

theorem Budget.loadSegment_eq_ok {old : Nat → Nat → Bool} {b b' : Budget} {ph : Phdr} (htype : ph.type = 1)
    (hok : ph.ok img.size = true) (hpages : ph.pages = 1) (hpage : b.loadPage old ph.segStart = .ok (true, b'))
    (hbytes : ∀ off < ph.filesz, b'.has old ((ph.vaddr + off) % 2 ^ 64) 4 = true) :
    b.loadSegment old img ph = .ok (true, b') := by
  have hloop : ∃ u, forWhile (fun off b => b.loadByte old ph off) 0 ph.filesz b' = .ok (true, u) ∧ u = b' :=
    forWhile_total (P := fun _ u => u = b') rfl fun off t _ hoff ht =>
      ⟨t, by rw [loadByte, ht, hbytes off (by omega)], ht⟩
  obtain ⟨u, hu, rfl⟩ := hloop
  unfold loadSegment
  rw [if_neg (not_not_intro htype), if_neg (not_not_intro hok), hpages,
    forWhile_true (by rw [Nat.zero_mul, Nat.add_zero]; exact hpage)]
  exact hu

/-- An image that stays under entry 1 of the PML4 and needs no more than four pages is loaded into a new address space
    of the sample machine. -/
theorem Image.exists_load (htop : ∀ va, img.Touches va → pageIndex 0 va = 1)
    (hbudget : ∀ (old : Nat → Nat → Bool) (free : Nat), (∀ va n, pageIndex 0 va = 1 → old va n = false) → 4 ≤ free →
      ∃ b, Budget.loadElfIntoAs old { free, pages := [] } img = .ok (true, b)) :
    ∃ s use a r s', Layout s use ∧ use a = .space r ∧ (∀ va, img.Touches va → s.Unmapped (.page a) va) ∧
      s.loadElfIntoAs (.page a) img = .ok (some img.entry, s') := by
  obtain ⟨k, use, stack₀, stack₁, hb, hidle, -⟩ := Kernel.exists_idle fun _ _ => 0
  have hcount := hidle.room.count
  have hlayout := hidle.memory.layout
  have hclear : ∀ va, img.Touches va → k.machine.mem.onHugePage k.machine.kernelPml4 va = false := fun va hva =>
    Mem.onHugePage_of_none (Kernel.boot_tableAt_two hb (fun h0 => by rw [htop va hva] at h0; cases h0)
      (by rw [htop va hva]; decide))
  have hshares (va n : Nat) (hva : pageIndex 0 va = 1) : k.machine.shares va n = false := by simp [Machine.shares, hva]
  rcases hlayout.vmmCreateAddressSpace_budget with ⟨hzero, -⟩ | ⟨hone, -⟩ | ⟨a, s, hfree, hc⟩
  · omega
  · omega
  obtain ⟨r, use₁, hn⟩ : ∃ r use₁, Layout.NewSpace k.machine use a r s use₁ := by
    rcases hlayout.vmmCreateAddressSpace hc with ⟨hnone, -⟩ | ⟨a', r, use₁, ha, hn⟩
    · cases hnone
    · obtain rfl := Option.some.inj ha
      exact ⟨r, use₁, hn⟩
  obtain ⟨b, hload⟩ := hbudget k.machine.shares (k.machine.pmm.freeCount - 2) hshares (by omega)
  have hsim := (hn.tracks hlayout hfree).loadElfIntoAs (hlayout.avoids hclear a s hc)
  rw [hload] at hsim
  obtain ⟨entry, s', hl, hsome, -⟩ := hsim.of_ok
  obtain ⟨entry, rfl⟩ := Option.isSome_iff_exists.mp hsome
  rw [(Machine.load_of_some hl).1] at hl
  refine ⟨s, use₁, a, r, s', hn.layout, hn.space, fun va hva => ?_, hl⟩
  unfold Machine.Unmapped
  rw [hn.layout.pml4_eq hn.space]
  refine ⟨?_, hn.off hlayout (hclear va hva)⟩
  rw [← Option.isNone_iff_eq_none, ← Option.isSome_eq_false_iff, hn.tableAt_isSome hlayout va (by decide)]
  exact hshares va 4 (htop va hva)

theorem Image.OnePage.exists_load {va : Nat} (h : img.OnePage va) (hva : pageIndex 0 va = 1) :
    ∃ s use a r s', Layout s use ∧ use a = .space r ∧ (∀ va, img.Touches va → s.Unmapped (.page a) va) ∧
      s.loadElfIntoAs (.page a) img = .ok (some img.entry, s') := by
  refine Image.exists_load (fun virt hvirt => by rw [h.touches_iff.mp hvirt]; exact hva) fun old free hold hfree => ?_
  have hnew : Budget.has old { free, pages := [] } va 4 = false := by simp [Budget.has, hold va 4 hva]
  have hle : Budget.missing old { free, pages := [] } va ≤ 3 := Budget.missing_le
  rw [Budget.loadElfIntoAs_onePage h, Budget.loadPage, if_neg (by simp [hnew])]
  exact ⟨_, Budget.mapNewPage_eq_ok hnew (by dsimp only; omega)⟩

/-- The image has two segments on one page, code and then data. -/
structure Image.SharesPage (img : Image) : Prop where
  header : img.headerOk = true
  table : img.phoff = 64
  count : img.phnum = 2
  code : img.phdr 0 = { type := 1, flags := 5, offset := 0, vaddr := 0x8000001000, filesz := 4, memsz := 0x800 }
  data : img.phdr 1 = { type := 1, flags := 6, offset := 0, vaddr := 0x8000001800, filesz := 0, memsz := 0x800 }
  magic : img.byte 3 = 0x46
  size : img.size = 176

namespace Image.SharesPage
variable {img : Image}

theorem exists_image : ∃ img : Image, img.SharesPage :=
  ⟨ofFields 176 (ehdr 64 2 ++ [(64, 4, 1), (68, 4, 5), (80, 8, 0x8000001000), (96, 8, 4), (104, 8, 0x800),
    (120, 4, 1), (124, 4, 6), (136, 8, 0x8000001800), (160, 8, 0x800)]), by decide +kernel, by decide +kernel,
    by decide +kernel, by decide +kernel, by decide +kernel, by decide +kernel, rfl⟩

theorem segment (h : img.SharesPage) {i : Nat} (hi : i < img.phnum) :
    (img.phdr i).type = 1 ∧ (img.phdr i).ok img.size = true ∧
    (img.phdr i).segStart = 0x8000001000 ∧ (img.phdr i).segEnd = 0x8000002000 ∧ (img.phdr i).pages = 1 ∧
    ∀ off < (img.phdr i).filesz, ((img.phdr i).vaddr + off) % 2 ^ 64 / 4096 = 0x8000001 := by
  rw [h.count] at hi
  obtain rfl | rfl : i = 0 ∨ i = 1 := by omega
  · rw [h.code, h.size]
    exact ⟨rfl, by decide, by decide, by decide, by decide, by decide⟩
  · rw [h.data, h.size]
    exact ⟨rfl, by decide, by decide, by decide, by decide, fun off hoff => absurd hoff (Nat.not_lt_zero off)⟩

theorem touches (h : img.SharesPage) {va : Nat} (hva : img.Touches va) : va / 4096 = 0x8000001 := by
  obtain ⟨i, hc, -, ⟨j, hj, rfl⟩ | ⟨off, hoff, rfl⟩⟩ := hva
  · obtain ⟨-, -, hstart, -, hpages, -⟩ := h.segment hc.2.1
    rw [hstart]
    omega
  · exact (h.segment hc.2.1).2.2.2.2.2 off hoff

theorem exists_load (h : img.SharesPage) : ∃ s use a r s', Layout s use ∧ use a = .space r ∧
    (∀ va, img.Touches va → s.Unmapped (.page a) va) ∧ s.loadElfIntoAs (.page a) img = .ok (some img.entry, s') := by
  refine Image.exists_load (fun va hva => ?_) fun old free hold hfree => ?_
  · have := h.touches hva
    unfold pageIndex
    omega
  -- The first segment takes the page, the second one finds it.
  have hhas {b : Budget} {va : Nat} (hb : 0x8000001000 ∈ b.pages) (hva : va / 4096 = 0x8000001) :
      b.has old va 4 = true := by
    unfold Budget.has
    rw [Bool.or_eq_true, List.any_eq_true]
    refine Or.inr ⟨_, hb, ?_⟩
    rw [beq_iff_eq, pagePath_four_inj, hva]
  have hnew : Budget.has old { free, pages := [] } 0x8000001000 4 = false := by
    simp [Budget.has, hold 0x8000001000 4 (by decide)]
  have hle : Budget.missing old { free, pages := [] } 0x8000001000 ≤ 3 := Budget.missing_le
  have hpage := Budget.mapNewPage_eq_ok hnew (by dsimp only; omega)
  set b : Budget := { free := free - 1 - Budget.missing old { free, pages := [] } 0x8000001000, pages := [0x8000001000] }
  have hsegment (i : Nat) (hi : i < 2) (c : Budget) (hc : c.loadPage old 0x8000001000 = .ok (true, b)) :
      c.loadSegment old img (img.phdr i) = .ok (true, b) := by
    rw [← h.count] at hi
    obtain ⟨htype, hok, hstart, -, hpages, hbytes⟩ := h.segment hi
    exact Budget.loadSegment_eq_ok htype hok hpages (hstart ▸ hc) fun off hoff => hhas List.mem_cons_self
      (hbytes off hoff)
  have hfirst := hsegment 0 (by decide) { free, pages := [] } (by
    rw [Budget.loadPage, if_neg (by simp [hnew])]
    exact hpage)
  have hsecond := hsegment 1 (by decide) b (by rw [Budget.loadPage, if_pos (hhas List.mem_cons_self rfl)])
  refine ⟨b, ?_⟩
  unfold Budget.loadElfIntoAs
  rw [if_neg (not_not_intro h.header), h.count, forWhile_true hfirst, forWhile_true hsecond]
  rfl

end Image.SharesPage

/-! ### The memory image -/

/-- No 64-bit sum of the loader wraps around. -/
structure Image.NoWrap (img : Image) : Prop where
  table : img.phoff + img.phnum * 56 < 2 ^ 64
  file : ∀ i < img.phnum, (img.phdr i).type = 1 → (img.phdr i).offset + (img.phdr i).filesz < 2 ^ 64
  memory : ∀ i < img.phnum, (img.phdr i).type = 1 → (img.phdr i).vaddr + (img.phdr i).memsz + 0xFFF < 2 ^ 64

/-- The byte that is read at an address of the address space. -/
def Machine.byteAt (s : Machine) (as : AsPtr) (va : Nat) : BitVec 8 := s.mem.readByte (s.vmmVirtToPhys as va)

namespace Phdr
variable {ph : Phdr} {size : Nat}

/-- An accepted segment that does not wrap around ends in user space. -/
theorem end_le (hok : ph.ok size = true) (hfit : ph.vaddr + ph.memsz + 0xFFF < 2 ^ 64) :
    ph.filesz ≤ ph.memsz ∧ ph.vaddr + ph.memsz ≤ userUpperLimit := by
  simp only [ok, Bool.and_eq_true, decide_eq_true_eq] at hok
  have hend := hok.2.2
  unfold segEnd at hend
  rw [Nat.mod_eq_of_lt hfit] at hend
  unfold userUpperLimit at hend ⊢
  exact ⟨hok.1.1, by omega⟩

theorem page_of_lt {va : Nat} (hlo : ph.segStart ≤ va) (hhi : va < ph.segEnd) :
    ∃ j < ph.pages, va / 4096 = ph.vaddr / 4096 + j := by
  refine ⟨va / 4096 - ph.vaddr / 4096, ?_, ?_⟩
  · unfold pages segEnd segStart at *
    omega
  · unfold segStart at hlo
    omega

end Phdr

namespace Image
variable {img : Image} {s s' : Machine} {use : Nat → Use} {as : AsPtr} {entry : Nat}

/-- Without a wrap the load touches the pages of the segments only. -/
theorem NoWrap.unmapped (hfit : img.NoWrap)
    (hu : ∀ i < img.phnum, (img.phdr i).type = 1 → ∀ j < (img.phdr i).pages,
      s.Unmapped as ((img.phdr i).segStart + j * 4096)) :
    ∀ va, img.Touches va → s.Unmapped as va := by
  rintro va ⟨i, ⟨-, hi, -⟩, ⟨htype, hok⟩, ⟨j, hj, rfl⟩ | ⟨off, hoff, rfl⟩⟩
  · exact hu i hi htype j hj
  · have hmem := hfit.memory i hi htype
    have hsize := ((img.phdr i).end_le hok hmem).1
    obtain ⟨j, hj, hpage⟩ := (img.phdr i).page_of_address hmem (show off < (img.phdr i).memsz by omega)
    refine Machine.unmapped_of_pagePath ?_ (hu i hi htype j hj)
    rw [← hpage, pagePath_four_inj]
    omega

/-- A load into pages that were not mapped leaves the memory image of the program: at every address of the pages of
    its segments the byte of the last segment that has one for it, and zero where none has. -/
theorem load_memory_image (h : TableLayout s use) (has : s.Has as) (hfit : img.NoWrap)
    (hu : ∀ i < img.phnum, (img.phdr i).type = 1 → ∀ j < (img.phdr i).pages,
      s.Unmapped as ((img.phdr i).segStart + j * 4096))
    (hl : s.loadElfIntoAs as img = .ok (some entry, s')) :
    entry = img.entry ∧ ∀ i < img.phnum, (img.phdr i).type = 1 → ∀ va, (img.phdr i).segStart ≤ va →
      va < (img.phdr i).segEnd →
      s'.vmmVirtToPhys as va ≠ 0 ∧
      (∀ j < img.phnum, img.Holds j va → (∀ k, j < k → k < img.phnum → ¬img.Holds k va) →
        s'.byteAt as va = img.byte ((img.phdr j).offset + (va - (img.phdr j).vaddr))) ∧
      ((∀ j < img.phnum, ¬img.Holds j va) → s'.byteAt as va = 0) := by
  obtain ⟨hentry, hload⟩ := Machine.load_of_some hl
  have hacc := (accepts_of_load hload).2.2
  refine ⟨hentry, fun i hi htype va hlo hhi => ?_⟩
  have hviews := h.load_views has (hfit.unmapped hu) hl
  obtain ⟨j, hj, hpage⟩ := Phdr.page_of_lt hlo hhi
  have hin := (Phdr.page_in_user (hacc i hi htype) hj).2
  have hstart : (img.phdr i).segStart + j * 4096 = va / 4096 * 4096 := by
    rw [hpage]
    unfold Phdr.segStart
    omega
  rw [hstart] at hin
  have hlt : va < 2 ^ 47 := by
    unfold userUpperLimit at hin
    omega
  have hpageOf : pageOf va = va / 4096 := Nat.mod_eq_of_lt (by omega)
  have htouch : img.TouchesPage (pageOf va) := by
    obtain ⟨hc, hseg⟩ := comesTo_of_load hload hi htype
    refine ⟨_, ⟨i, hc, hseg, Or.inl ⟨j, hj, rfl⟩⟩, ?_⟩
    rw [hstart]
    unfold pageOf
    omega
  have hperm : img.permissions (pageOf va) ≠ none := by
    rw [hpageOf]
    exact fun hn => (img.permissions_apply _).1.mp hn i hi ⟨htype, j, hj, hpage⟩
  obtain ⟨flags, hflags⟩ := Option.ne_none_iff_exists'.mp hperm
  obtain ⟨f, -, hphys, hbyte⟩ := hviews.read htouch hflags
  have hread : s'.byteAt as va = img.overlay (fun _ => 0) va := by
    unfold Machine.byteAt
    rw [hphys, hbyte, Nat.mod_eq_of_lt (by omega)]
  rw [hread]
  refine ⟨mt (hviews.virtToPhys_eq_zero_iff htouch).mp hperm, img.overlay_apply (fun k hk hload => ?_) (fun _ => 0) va⟩
  obtain ⟨hsize, hend⟩ := Phdr.end_le (hacc k hk hload) (hfit.memory k hk hload)
  have hfile := hfit.file k hk hload
  unfold userUpperLimit at hend
  exact ⟨by omega, by omega⟩

/-- The last byte of the magic number is at its address, and behind the file bytes there are zeros. -/
theorem load_memory_image_shared : ∃ (img : Image) (s s' : Machine) (a : Nat), img.phnum = 2 ∧
    s.loadElfIntoAs (.page a) img = .ok (some img.entry, s') ∧ s'.byteAt (.page a) 0x8000001003 = 0x46 ∧
    s'.byteAt (.page a) 0x8000001FFF = 0 := by
  obtain ⟨img, h⟩ := SharesPage.exists_image
  obtain ⟨s, use, a, r, s', hlayout, ha, hu, hl⟩ := h.exists_load
  have htwo (i : Nat) (hi : i < img.phnum) : i = 0 ∨ i = 1 := by
    rw [h.count] at hi
    omega
  have hfit : img.NoWrap := by
    refine ⟨by rw [h.table, h.count]; decide, fun i hi _ => ?_, fun i hi _ => ?_⟩ <;> rcases htwo i hi with rfl | rfl
    · rw [h.code]; decide
    · rw [h.data]; decide
    · rw [h.code]; decide
    · rw [h.data]; decide
  have hzero : 0 < img.phnum := by
    rw [h.count]
    decide
  obtain ⟨htype, -, hstart, hend, -, -⟩ := h.segment hzero
  have hpages : ∀ i < img.phnum, (img.phdr i).type = 1 → ∀ j < (img.phdr i).pages,
      s.Unmapped (.page a) ((img.phdr i).segStart + j * 4096) :=
    fun i hi htype j hj => by
      obtain ⟨hc, hseg⟩ := comesTo_of_load (Machine.load_of_some hl).2 hi htype
      exact hu _ ⟨i, hc, hseg, Or.inl ⟨j, hj, rfl⟩⟩
  have himage := (load_memory_image hlayout.tableLayout (hlayout.has_of_space ha) hfit hpages hl).2 0 hzero htype
  rw [hstart, hend] at himage
  refine ⟨img, s, s', a, h.count, hl, ?_, ?_⟩
  · rw [(himage 0x8000001003 (by decide) (by decide)).2.1 0 hzero ⟨htype, by rw [h.code]; decide⟩
      fun k hk hk2 hh => ?_, h.code]
    · exact h.magic
    · obtain rfl : k = 1 := by have := htwo k hk2; omega
      have := hh.2
      rw [h.data] at this
      exact absurd this (by decide)
  · refine (himage 0x8000001FFF (by decide) (by decide)).2.2 fun j hj hh => ?_
    have := hh.2
    rcases htwo j hj with rfl | rfl
    · rw [h.code] at this
      exact absurd this (by decide)
    · rw [h.data] at this
      exact absurd this (by decide)

end Image

/-! ### The permissions -/

/-- `VMM_FLAG_NX` is set. -/
def Word.noExec (e : Word) : Bool := e &&& flagNx != 0

theorem Word.noExec_eq (e : Word) : e.noExec = e.getLsbD 63 := Bits.and_bit_ne_zero e (by decide)

theorem Word.frame_lt (e : Word) : e.frame < 2 ^ 40 := by
  unfold Word.frame
  have hle : (e &&& addrMask).toNat ≤ addrMask.toNat := by
    rw [BitVec.toNat_and]
    exact Nat.and_le_right
  have hmask : addrMask.toNat < 2 ^ 52 := by decide
  omega

theorem noExec_entry {f : Nat} (hf : f < 2 ^ 40) (flags : Word) : (entry f flags).noExec = flags.noExec := by
  rw [Word.noExec_eq, Word.noExec_eq, entry, BitVec.getLsbD_or, getLsbD_pageAddr (by decide),
    testBit_page hf (by decide), Bool.and_false, Bool.false_or]

theorem Phdr.entry_mapFlags (ph : Phdr) {f : Nat} (hf : f < 2 ^ 40) :
    (entry f (ph.mapFlags ||| flagPresent)).present = true ∧
    (entry f (ph.mapFlags ||| flagPresent)).writable = ph.flags.testBit 1 ∧
    (entry f (ph.mapFlags ||| flagPresent)).noExec = !ph.flags.testBit 0 := by
  rw [present_entry, writable_entry, noExec_entry hf]
  unfold mapFlags
  cases ph.flags.testBit 1 <;> cases ph.flags.testBit 0 <;> decide

namespace Image
variable {img : Image} {s s' : Machine} {use : Nat → Use} {as : AsPtr} {entry : Nat}

/-- An address of segment `i` lies in page `p`. -/
def Covers (img : Image) (i p : Nat) : Prop :=
  (img.phdr i).type = 1 ∧ ∃ off < (img.phdr i).memsz, ((img.phdr i).vaddr + off) % 2 ^ 64 / 4096 = p

/-- A segment that covers the page has the bit of `p_flags`. -/
def Grants (img : Image) (p bit : Nat) : Prop := ∃ i < img.phnum, img.Covers i p ∧ (img.phdr i).flags.testBit bit = true

/-- On every page the first segment whose page loop comes to it has `PF_W` and `PF_X` exactly if some segment that
    covers the page has. -/
def FirstGrantsAll (img : Image) : Prop :=
  ∀ i < img.phnum, ∀ p, img.Visits i p → (∀ j < i, ¬img.Visits j p) →
    ((img.phdr i).flags.testBit 1 = true ↔ img.Grants p 1) ∧ ((img.phdr i).flags.testBit 0 = true ↔ img.Grants p 0)

end Image

/-- Every page of the image is mapped, writable exactly if a segment that covers it has `PF_W` and executable exactly
    if one has `PF_X`. The tables above it are made with the write bit and without NX. -/
def Machine.Permits (s : Machine) (as : AsPtr) (img : Image) : Prop :=
  ∀ p, (∃ i < img.phnum, img.Visits i p) → ∃ e, s.mem.leafEntry (s.pml4 as) (p * 4096) = some e ∧ e.present = true ∧
    (e.writable = true ↔ img.Grants p 1) ∧ (e.noExec = false ↔ img.Grants p 0)

namespace Image
variable {img : Image} {s s' : Machine} {use : Nat → Use} {as : AsPtr} {entry : Nat}

theorem leafEntry_of_first (h : TableLayout s use) (has : s.Has as) (hu : ∀ va, img.Touches va → s.Unmapped as va)
    (hl : s.loadElfIntoAs as img = .ok (some entry, s')) {i p : Nat} (hi : i < img.phnum) (hv : img.Visits i p)
    (hfirst : ∀ j < i, ¬img.Visits j p) :
    ∃ e, s'.mem.leafEntry (s'.pml4 as) (p * 4096) = some e ∧ e.present = true ∧
      e.writable = (img.phdr i).flags.testBit 1 ∧
      e.noExec = !(img.phdr i).flags.testBit 0 := by
  have hviews := h.load_views has hu hl
  have htouch : img.TouchesPage p := by
    obtain ⟨htype, j, hj, rfl⟩ := hv
    obtain ⟨hc, hseg⟩ := comesTo_of_load (Machine.load_of_some hl).2 hi htype
    have hin := (Phdr.page_in_user hseg.2 hj).2
    refine ⟨_, ⟨i, hc, hseg, Or.inl ⟨j, hj, rfl⟩⟩, ?_⟩
    generalize img.phdr i = ph at *
    unfold pageOf Phdr.segStart at *
    unfold userUpperLimit at hin
    omega
  obtain ⟨f, hentry, hf, -, -⟩ := hviews.mapped p _ htouch ((img.permissions_apply p).2 i hi hv hfirst)
  have hlt : f < 2 ^ 40 := by
    rw [Mem.tableAt_leafEntry, hentry, Option.bind_some] at hf
    rw [← (link_eq_some.mp hf).2.2]
    exact Word.frame_lt _
  rw [hviews.pml4]
  exact ⟨_, hentry, (img.phdr i).entry_mapFlags hlt⟩

/-- The pages of an image that is loaded where nothing was mapped have the permissions of the segments exactly if the
    first segment on each page has those of all. -/
theorem load_permissions_iff (h : TableLayout s use) (has : s.Has as) (hu : ∀ va, img.Touches va → s.Unmapped as va)
    (hl : s.loadElfIntoAs as img = .ok (some entry, s')) : s'.Permits as img ↔ img.FirstGrantsAll := by
  constructor
  · intro hp i hi p hv hfirst
    obtain ⟨e, he, -, hw, hx⟩ := leafEntry_of_first h has hu hl hi hv hfirst
    obtain ⟨e', he', -, hw', hx'⟩ := hp p ⟨i, hi, hv⟩
    cases Option.some.inj (he.symm.trans he')
    rw [hw] at hw'
    rw [hx, Bool.not_eq_false'] at hx'
    exact ⟨hw', hx'⟩
  · intro hg p hex
    classical
    obtain ⟨hi, hv⟩ := Nat.find_spec hex
    have hfirst : ∀ j < Nat.find hex, ¬img.Visits j p := fun j hj hvj => Nat.find_min hex hj ⟨Nat.lt_trans hj hi, hvj⟩
    obtain ⟨e, he, hpresent, hw, hx⟩ := leafEntry_of_first h has hu hl hi hv hfirst
    refine ⟨e, he, hpresent, ?_⟩
    rw [hw, hx, Bool.not_eq_false']
    exact hg _ hi p hv hfirst

/-- A program of one page that may only be read. -/
theorem load_permissions_one_page : ∃ (s s' : Machine) (a : Nat),
    s.loadElfIntoAs (.page a) (pageImage 0x8000000000) = .ok (some (pageImage 0x8000000000).entry, s') ∧
    s'.Permits (.page a) (pageImage 0x8000000000) := by
  have hone : (pageImage 0x8000000000).OnePage 0x8000000000 :=
    ⟨by decide, by decide, ⟨by decide, by decide, by decide, by decide⟩⟩
  generalize pageImage 0x8000000000 = img at hone ⊢
  obtain ⟨s, use, a, r, s', hlayout, ha, hu, hl⟩ := hone.exists_load (by decide)
  refine ⟨s, s', a, hl, (load_permissions_iff hlayout.tableLayout (hlayout.has_of_space ha) hu hl).mpr
    fun i hi p _ _ => ?_⟩
  have hnone (k bit : Nat) (hk : k < img.phnum) : (img.phdr k).flags.testBit bit = false := by
    rw [hone.count] at hk
    obtain rfl : k = 0 := by omega
    rw [hone.segment.header]
    exact Nat.zero_testBit bit
  have hgrants (bit : Nat) : ¬img.Grants p bit := fun ⟨k, hk, _, hbit⟩ => by rw [hnone k bit hk] at hbit; cases hbit
  rw [hnone i 1 hi, hnone i 0 hi]
  exact ⟨iff_of_false (by decide) (hgrants 1), iff_of_false (by decide) (hgrants 0)⟩

/-- Code and data on one page: the page is mapped for the code, and the data cannot be written. -/
theorem load_drops_write_permission :
    ∃ (img : Image) (s s' : Machine) (use : Nat → Use) (a : Nat), TableLayout s use ∧ s.Has (.page a) ∧
    (∀ va, img.Touches va → s.Unmapped (.page a) va) ∧ s.loadElfIntoAs (.page a) img = .ok (some img.entry, s') ∧
    img.Grants 0x8000001 1 ∧ ∃ e, s'.mem.leafEntry (s'.pml4 (.page a)) 0x8000001000 = some e ∧ e.present = true ∧
      e.writable = false := by
  obtain ⟨img, h⟩ := SharesPage.exists_image
  obtain ⟨s, use, a, r, s', hlayout, ha, hu, hl⟩ := h.exists_load
  have htable := hlayout.tableLayout
  have has := hlayout.has_of_space ha
  have hzero : 0 < img.phnum := by
    rw [h.count]
    decide
  obtain ⟨e, he, hpresent, hwritable, -⟩ := leafEntry_of_first htable has hu hl hzero (p := 0x8000001)
    (by rw [Visits, h.code]; exact ⟨rfl, 0, by decide, by decide⟩) (fun j hj => absurd hj (Nat.not_lt_zero j))
  refine ⟨img, s, s', _, a, htable, has, hu, hl, ⟨1, by rw [h.count]; decide, ?_, by rw [h.data]; decide⟩, e, he,
    hpresent, ?_⟩
  · rw [Covers, h.data]
    exact ⟨rfl, 0, by decide, by decide⟩
  · rw [hwritable, h.code]
    decide

end Image
end SamOS
