import SamOS.LoadLoops
import SamOS.Translation

/-! What loading a program does to the layout of memory. Away from 2 MiB pages the loader writes only free pages and
    the trees that its segments lie in. Every page that it maps was free, and nothing frees it again short of the
    address space; a load that maps no page changes nothing but bytes of mapped pages. -/

namespace SamOS
open Function Result

/-- The page loop or the byte loop of the segment visits `virt`. -/
def Phdr.Touches (ph : Phdr) (virt : Nat) : Prop :=
  (∃ i < ph.pages, virt = ph.segStart + i * 4096) ∨ ∃ off < ph.filesz, virt = (ph.vaddr + off) % 2 ^ 64

/-- A segment that the checks let the load come to touches `virt`. -/
def Image.Touches (img : Image) (virt : Nat) : Prop := ∃ i, img.ComesTo i ∧ img.Segment i ∧ (img.phdr i).Touches virt

section Points
variable {σ : Type} {page byte : Nat → Nat → σ → Except String (Bool × σ)} {img : Image} {s t : σ} {i j : Nat}

theorem Image.AtPage.touches (h : img.AtPage page byte s i j t) : img.Touches ((img.phdr i).segStart + j * 4096) := by
  obtain ⟨t₀, hat, hseg, -, hj, -⟩ := h
  exact ⟨i, hat.comesTo, hseg, .inl ⟨j, by omega, rfl⟩⟩

theorem Image.AtByte.touches (h : img.AtByte page byte s i j t) : img.Touches (((img.phdr i).vaddr + j) % 2 ^ 64) := by
  obtain ⟨t₀, t₁, hat, hseg, -, -, hj, -⟩ := h
  exact ⟨i, hat.comesTo, hseg, .inr ⟨j, by omega, rfl⟩⟩

theorem Phdr.page_in_user {ph : Phdr} {size : Nat} (hok : ph.ok size = true) (hj : j < ph.pages) :
    userLowerLimit ≤ ph.segStart + j * 4096 ∧ ph.segStart + j * 4096 < userUpperLimit := by
  simp only [ok, Bool.and_eq_true, decide_eq_true_eq] at hok
  have hlow := hok.2.1
  have hhigh := hok.2.2
  unfold pages at hj
  omega

theorem Image.AtPage.in_user (h : img.AtPage page byte s i j t) :
    userLowerLimit ≤ (img.phdr i).segStart + j * 4096 ∧ (img.phdr i).segStart + j * 4096 < userUpperLimit := by
  obtain ⟨t₀, -, hseg, -, hj, -⟩ := h
  exact Phdr.page_in_user hseg.2 (by omega)

end Points

/-- The load comes to no address on a 2 MiB page. -/
structure Machine.LoadsOff (s : Machine) (as : AsPtr) (img : Image) : Prop where
  page : ∀ i j t, img.AtPage (pageBody as img) (byteBody as img) s i j t →
    t.mem.onHugePage (t.pml4 as) ((img.phdr i).segStart + j * 4096) = false
  byte : ∀ i off t, img.AtByte (pageBody as img) (byteBody as img) s i off t →
    t.mem.onHugePage (t.pml4 as) (((img.phdr i).vaddr + off) % 2 ^ 64) = false

/-- The highest page of the user stack. -/
def stackPage : Nat := processStackVirt - 4096

/-- The label of a page that no code frees: held, or mapped. -/
def Use.Kept (u : Use) : Prop := u = .held ∨ ∃ r p, p.length = 4 ∧ u = .node r p

theorem Use.Kept.ne_free {u : Use} (h : u.Kept) : u ≠ .free := by
  rcases h with rfl | ⟨r, p, -, rfl⟩ <;> exact nofun

theorem Use.Kept.destroy {u : Use} (h : u.Kept) (r : Nat) : (u.destroy r).Kept := by
  rcases h with rfl | ⟨r', p, hp, rfl⟩
  · exact Or.inl rfl
  · by_cases hr : r' = r
    · exact Or.inl (by simp [Use.destroy, hr, hp])
    · exact Or.inr ⟨r', p, hp, by simp [Use.destroy, hr]⟩

/-- Memory changed in mapped pages at most. -/
def PagesOnly (use : Nat → Use) (m m' : Mem) : Prop := ∀ f, (∀ r p, use f = .node r p → p.length ≠ 4) → m' f = m f

/-- No page was mapped, or a free page was. -/
def Effect (s : Machine) (use : Nat → Use) (s' : Machine) (use' : Nat → Use) : Prop :=
  (use' = use ∧ s'.pmm = s.pmm ∧ PagesOnly use s.mem s'.mem) ∨ ∃ f, use f = .free ∧ (use' f).Kept

/-- What a part of the loader does. -/
structure Loaded (scope : Nat → Prop) (s : Machine) (use : Nat → Use) (s' : Machine) (use' : Nat → Use) : Prop where
  layout : Layout s' use'
  grows : Grows scope s.mem use s'.mem use'
  steady : s.Steady s'
  effect : Effect s use s' use'

namespace Loaded
variable {scope : Nat → Prop} {s s' s'' : Machine} {use use' use'' : Nat → Use}

theorem refl (scope : Nat → Prop) (h : Layout s use) : Loaded scope s use s use :=
  ⟨h, .refl _ _ _, .refl _, Or.inl ⟨rfl, rfl, fun _ _ => rfl⟩⟩

theorem trans (h : Loaded scope s use s' use') (h' : Loaded scope s' use' s'' use'') :
    Loaded scope s use s'' use'' := by
  refine ⟨h'.layout, h.grows.trans h'.grows, h.steady.trans h'.steady, ?_⟩
  rcases h.effect with ⟨rfl, hpmm, hm⟩ | ⟨f, hf, hk⟩
  · rcases h'.effect with ⟨rfl, hpmm', hm'⟩ | hf
    · exact Or.inl ⟨rfl, hpmm'.trans hpmm, fun f hf => (hm' f hf).trans (hm f hf)⟩
    · exact Or.inr hf
  · exact Or.inr ⟨f, hf, by rw [h'.grows.keeps hk.ne_free]; exact hk⟩

end Loaded

namespace Layout
variable {scope : Nat → Prop} {s s' : Machine} {use : Nat → Use} {a r va : Nat} {b : Bool}

theorem mapNewPage (h : Layout s use) (ha : use a = .space r) {flags : Word} (hfl : UserFlags flags)
    (h511 : pageIndex 0 va ≠ 511) (hs : scope r) (hst : scope (treeOf s.kernelPml4 r va))
    (hm : s.mapNewPage (.page a) va flags = .ok (b, s')) :
    (b = false ∧ s' = s ∧ ∀ f, use f ≠ .free) ∨
    (b = true ∧ ∃ use' f, Loaded scope s use s' use' ∧ use f = .free ∧
      use' f = .node (treeOf s.kernelPml4 r va) (pagePath va 4)) := by
  unfold Machine.mapNewPage at hm
  rcases h.allocPage with ⟨f, hf, heq, hl₁⟩ | ⟨hnone, heq⟩ <;> rw [heq] at hm <;> dsimp only at hm
  · have hpos := h.owned.pos hf
    rw [if_neg (by omega)] at hm
    obtain ⟨s₁, hmap, hm⟩ := of_bind_eq_ok hm
    cases hm
    have haf : a ≠ f := by rintro rfl; cases hf.symm.trans ha
    have hzero : ∀ g, g ≠ f → s.mem.zeroPage f g = s.mem g := fun g hg => Mem.zeroPage_of_ne _ hg
    have hl₂ := hl₁.of_held (update_self ..) hzero
    obtain ⟨use', hl', hnode, hg, hsteady⟩ := hl₂.vmmMap_page (by rw [update_of_ne haf]; exact ha) hfl h511
      (update_self ..) hpos hmap
    refine Or.inr ⟨rfl, use', f, ⟨hl', ?_, ⟨hsteady.kernelPml4, hsteady.log, hsteady.totalPages⟩, ?_⟩, hf, hnode⟩
    · rw [update_idem, ← hf, update_eq_self] at hg
      refine (Grows.of_free hf fun g hg => Mem.zeroPage_of_ne _ hg).trans (hg.mono ?_)
      rintro r' (rfl | rfl)
      · exact hs
      · exact hst
    · exact Or.inr ⟨f, hf, Or.inr ⟨_, _, pagePath_length _ _, hnode⟩⟩
  · cases hm
    exact Or.inl ⟨rfl, rfl, hnone⟩

variable {img : Image}

theorem loadByte (h : Layout s use) (ha : use a = .space r) {ph : Phdr} {off : Nat}
    (hh : s.mem.onHugePage r ((ph.vaddr + off) % 2 ^ 64) = false)
    (hst : scope (treeOf s.kernelPml4 r ((ph.vaddr + off) % 2 ^ 64)))
    (hb : s.loadByte img (.page a) ph off = .ok (b, s')) : Loaded scope s use s' use := by
  unfold Machine.loadByte Machine.vmmVirtToPhys at hb
  rw [h.pml4_eq ha] at hb
  generalize (ph.vaddr + off) % 2 ^ 64 = va at *
  dsimp only at hb
  split at hb
  · cases hb
    exact .refl _ h
  · rename_i hv
    cases hb
    obtain ⟨f, -, hf, hphys⟩ := h.tables.virtToPhys_node (h.tables.space ha).2.1 hh hv
    have hframe : s.mem.virtToPhys r va / 4096 = f := by rw [hphys]; omega
    have hf' : use (s.mem.virtToPhys r va / 4096) = .node (treeOf s.kernelPml4 r va) (pagePath va 4) := hframe ▸ hf
    refine ⟨h.writeByte hf' (pagePath_length _ _) _, .write _ hf' hst fun hl => ?_, ⟨rfl, rfl, rfl⟩,
      Or.inl ⟨rfl, rfl, fun g hg => Mem.writeByte_of_ne _ _ ?_⟩⟩
    · rw [pagePath_length] at hl
      cases hl
    · rintro rfl
      exact hg _ _ hf' (pagePath_length _ _)

theorem mapFlags_userFlags (ph : Phdr) : UserFlags ph.mapFlags := by
  unfold Phdr.mapFlags
  by_cases hw : ph.flags.testBit 1 <;> by_cases hx : ph.flags.testBit 0 <;>
    simp only [hw, hx, if_true, Bool.false_eq_true, if_false]
  all_goals exact ⟨by decide, rfl⟩

theorem loadPage (h : Layout s use) (ha : use a = .space r) {ph : Phdr} (h511 : pageIndex 0 va ≠ 511) (hs : scope r)
    (hst : scope (treeOf s.kernelPml4 r va)) (hp : s.loadPage (.page a) ph.mapFlags va = .ok (b, s')) :
    ∃ use', Loaded scope s use s' use' := by
  unfold Machine.loadPage at hp
  split at hp
  · cases hp
    exact ⟨use, .refl _ h⟩
  · rcases h.mapNewPage ha (mapFlags_userFlags ph) h511 hs hst hp with ⟨-, rfl, -⟩ | ⟨-, use', f, hl, -⟩
    · exact ⟨use, .refl _ h⟩
    · exact ⟨use', hl⟩

theorem off_of_loaded {use' : Nat → Use} (h : Layout s use) (ha : use a = .space r) (hl : Loaded scope s use s' use')
    (hoff : s.mem.onHugePage r va = false) : s'.mem.onHugePage r va = false := by
  by_contra hc
  have ht' := hl.layout.tables
  rw [hl.steady.kernelPml4] at ht'
  rw [h.tables.onHugePage_of_grows ht' hl.grows (h.tables.space ha).2.1 (by simpa using hc)] at hoff
  cases hoff

theorem pageIndex_zero_lt {va : Nat} (h : va < userUpperLimit) : pageIndex 0 va < 256 := by
  simp only [pageIndex, userUpperLimit] at *
  omega

/-- The bodies of the loops are parts of the loader, if the bytes go to addresses off the 2 MiB pages. -/
theorem keeps_loaded (h : Layout s use) (ha : use a = .space r) (hs : scope r)
    (hst : ∀ va, img.Touches va → scope (treeOf s.kernelPml4 r va))
    (hoff : ∀ i off t use', img.AtByte (Machine.pageBody (.page a) img) (Machine.byteBody (.page a) img) s i off t →
      Loaded scope s use t use' → t.mem.onHugePage r (((img.phdr i).vaddr + off) % 2 ^ 64) = false) :
    Image.Keeps (Machine.pageBody (.page a) img) (Machine.byteBody (.page a) img) img s fun t =>
      ∃ use', Loaded scope s use t use' where
  onPage i j t b t' hat := by
    rintro ⟨use', ht⟩ hp
    have hlow := pageIndex_zero_lt hat.in_user.2
    obtain ⟨use'', ht'⟩ := ht.layout.loadPage (ht.grows.space ha) (by omega) hs
      (by rw [ht.steady.kernelPml4]; exact hst _ hat.touches) hp
    exact ⟨use'', ht.trans ht'⟩
  onByte i off t b t' hat := by
    rintro ⟨use', ht⟩ hb
    exact ⟨use', ht.trans (ht.layout.loadByte (ht.grows.space ha) (hoff i off t use' hat ht)
      (by rw [ht.steady.kernelPml4]; exact hst _ hat.touches) hb)⟩

theorem loadElfIntoAs (h : Layout s use) (ha : use a = .space r) {res : Option Nat} (hs : scope r)
    (hst : ∀ va, img.Touches va → scope (treeOf s.kernelPml4 r va)) (hoff : s.LoadsOff (.page a) img)
    (hl : s.loadElfIntoAs (.page a) img = .ok (res, s')) : ∃ use', Loaded scope s use s' use' := by
  refine (h.keeps_loaded ha hs hst fun i off t use' hat ht => ?_).load ⟨use, .refl scope h⟩
    (Machine.load_of_loadElfIntoAs (by simp) hl)
  rw [← ht.layout.pml4_eq (ht.grows.space ha)]
  exact hoff.byte i off t hat

/-- A load whose segments are off the 2 MiB pages comes to none of them. -/
theorem loadsOff (h : Layout s use) (ha : use a = .space r)
    (hclear : ∀ va, img.Touches va → s.mem.onHugePage r va = false) : s.LoadsOff (.page a) img := by
  have hoff : ∀ {t use' va}, img.Touches va → Loaded (fun _ => True) s use t use' → t.mem.onHugePage r va = false :=
    fun hva ht => h.off_of_loaded ha ht (hclear _ hva)
  have hkeeps : Image.Keeps (Machine.pageBody (.page a) img) (Machine.byteBody (.page a) img) img s fun t =>
      ∃ use', Loaded (fun _ => True) s use t use' :=
    h.keeps_loaded ha trivial (fun _ _ => trivial) fun i off t use' hat ht => hoff hat.touches ht
  have hstart : ∃ use', Loaded (fun _ => True) s use s use' := ⟨use, .refl _ h⟩
  refine ⟨fun i j t hat => ?_, fun i off t hat => ?_⟩
  · obtain ⟨use', ht⟩ := hkeeps.atPage hstart hat
    rw [ht.layout.pml4_eq (ht.grows.space ha)]
    exact hoff hat.touches ht
  · obtain ⟨use', ht⟩ := hkeeps.atByte hstart hat
    rw [ht.layout.pml4_eq (ht.grows.space ha)]
    exact hoff hat.touches ht

theorem stackFlags_userFlags : UserFlags Machine.stackFlags := ⟨by decide, rfl⟩

theorem pageIndex_stack {i : Nat} (hi : i < processStackPages) :
    pageIndex 0 (processStackVirt - (i + 1) * 4096) = 255 := by
  simp only [pageIndex, processStackVirt, processStackPages] at *
  omega

theorem treeOf_stack (kernel r : Nat) {i : Nat} (hi : i < processStackPages) :
    treeOf kernel r (processStackVirt - (i + 1) * 4096) = r := by
  unfold treeOf owner
  rw [pageIndex_stack hi]
  simp

/-- `map_user_stack`: it maps at least the highest page, or there was none. -/
theorem mapUserStack (h : Layout s use) (ha : use a = .space r) {res : Option Nat} (hs : scope r)
    (hm : s.mapUserStack (.page a) = .ok (res, s')) :
    (res = none ∧ s' = s ∧ ∀ f, use f ≠ .free) ∨
    ∃ use' f, Loaded scope s use s' use' ∧ use f = .free ∧ use' f = .node r (pagePath stackPage 4) := by
  unfold Machine.mapUserStack at hm
  rw [if_neg (by simp), if_neg (by decide)] at hm
  obtain ⟨⟨ok, s₁⟩, hpages, hm⟩ := of_bind_eq_ok hm
  cases hm
  have hstep : ∀ {t : Machine} {use' : Nat → Use} {i b t'}, i < processStackPages → Layout t use' → use' a = .space r →
      t.mapNewPage (.page a) (processStackVirt - (i + 1) * 4096) Machine.stackFlags = .ok (b, t') →
      (b = false ∧ t' = t ∧ ∀ f, use' f ≠ .free) ∨
        (b = true ∧ ∃ use'' f, Loaded scope t use' t' use'' ∧ use' f = .free ∧
        use'' f = .node r (pagePath (processStackVirt - (i + 1) * 4096) 4)) := by
    intro t use' i b t' hi ht hat hmap
    have hres := ht.mapNewPage hat stackFlags_userFlags (by rw [pageIndex_stack hi]; decide) hs
      (by rw [treeOf_stack _ _ hi]; exact hs) hmap
    rwa [treeOf_stack _ _ hi] at hres
  -- The first page decides.
  rw [show processStackPages = 3 + 1 from rfl, forWhile] at hpages
  cases hfirst : s.mapNewPage (.page a) (processStackVirt - (0 + 1) * 4096) Machine.stackFlags with
  | error e => rw [hfirst] at hpages; cases hpages
  | ok res =>
    obtain ⟨b, s₂⟩ := res
    rw [hfirst] at hpages
    rcases hstep (by decide) h ha hfirst with ⟨rfl, rfl, hnone⟩ | ⟨rfl, use₂, f, hl₂, hf, hnode⟩
    · cases hpages
      exact Or.inl ⟨rfl, rfl, hnone⟩
    · obtain ⟨use', hl'⟩ : ∃ use', Loaded scope s₂ use₂ s' use' :=
        forWhile_keeps (P := fun t => ∃ use', Loaded scope s₂ use₂ t use') hpages ⟨use₂, .refl _ hl₂.layout⟩
          fun i t b t' hi ht hmap => by
          obtain ⟨use', ht⟩ := ht
          rcases hstep (by have := hi.2.1; simp only [processStackPages]; omega) ht.layout
            (ht.grows.space (hl₂.grows.space ha)) hmap with
            ⟨-, rfl, -⟩ | ⟨-, use'', -, hl, -⟩
          · exact ⟨use', ht⟩
          · exact ⟨use'', ht.trans hl⟩
      exact Or.inr ⟨use', f, hl₂.trans hl', hf, hl'.grows.node hnode⟩

end Layout
end SamOS
