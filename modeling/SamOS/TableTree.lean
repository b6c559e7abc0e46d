import SamOS.Translation
import SamOS.PmmCount
import SamOS.PmmTaken
import SamOS.Lib.Forest

/-! The tables of the address spaces as a forest, whatever they map: leaf frames and flags are the caller's. A PML4
    and the tables below it, down to the page tables, form one tree; the two shared entries of a user PML4 lead into
    the kernel's tree and are not part of its own. -/

namespace SamOS
open Function Forest

/-- Entry `i` of the table `f` of the given level leads to a table of the same tree. -/
def Inside (kernel level f i : Nat) : Prop := i < 512 ∧ ¬(level = 0 ∧ f ≠ kernel ∧ (i = 0 ∨ i = 511))

instance (kernel level f i : Nat) : Decidable (Inside kernel level f i) :=
  inferInstanceAs (Decidable (i < 512 ∧ ¬(level = 0 ∧ f ≠ kernel ∧ (i = 0 ∨ i = 511))))

/-- The table that an entry leads to in its own tree. -/
def tableLink (kernel : Nat) (m : Mem) (level f i : Nat) : Option Nat :=
  if Inside kernel level f i then link level (m f i) else none

theorem tableLink_of_inside {kernel level f i : Nat} (h : Inside kernel level f i) (m : Mem) :
    tableLink kernel m level f i = link level (m f i) := if_pos h

theorem tableLink_eq_some {kernel level f i g : Nat} {m : Mem} :
    tableLink kernel m level f i = some g ↔ Inside kernel level f i ∧ link level (m f i) = some g := by
  unfold tableLink
  split <;> simp_all

/-- The tables form a forest that the code's masks follow. Only the kernel's tree maps 2 MiB pages, and only with
    supervisor entries. -/
structure Trees (kernel : Nat) (m : Mem) (use : Nat → Use) : Prop where
  forest : IsForest 3 (tableLink kernel m) fun f r p => use f = .node r p
  low : ∀ {f r p i}, use f = .node r p → p.length < 3 → Inside kernel p.length f i → (m f i).present = true →
    (m f i).huge = false → (m f i).frameLow = (m f i).frame
  huge : ∀ {f r p i}, use f = .node r p → p.length < 3 → Inside kernel p.length f i → (m f i).huge = true →
    p.length = 2 ∧ r = kernel ∧ (m f i).present = true ∧ (m f i).user = false
  space : ∀ {a r}, use a = .space r → r ≠ kernel ∧ use r = .node r [] ∧ m a 0 = BitVec.ofNat 64 (r * 4096)
  space_inj : ∀ {a b r}, use a = .space r → use b = .space r → a = b
  range : ∀ {f r p}, use f = .node r p → 0 < f ∧ f < 2 ^ 40

/-- The two shared entries of every PML4 are the kernel's, the user bit apart. -/
structure SharedSlots (kernel : Nat) (m : Mem) (use : Nat → Use) : Prop where
  root : use kernel = .node kernel []
  present : ∀ {i}, i = 0 ∨ i = 511 → (m kernel i).present = true
  same : ∀ {r i}, use r = .node r [] → i = 0 ∨ i = 511 → m r i ||| flagUser = m kernel i ||| flagUser

namespace SharedSlots
variable {kernel : Nat} {m : Mem} {use : Nat → Use} {f r t i : Nat}

theorem present_of_root (h : SharedSlots kernel m use) (hr : use r = .node r []) (hi : i = 0 ∨ i = 511) :
    (m r i).present = true := by
  rw [← Word.present_or_flagUser, h.same hr hi, Word.present_or_flagUser]
  exact h.present hi

theorem upgrade (h : SharedSlots kernel m use) (t i : Nat) :
    SharedSlots kernel (m.write t i (m t i ||| flagUser)) use := by
  have hsame : ∀ x j, m.write t i (m t i ||| flagUser) x j ||| flagUser = m x j ||| flagUser := by
    intro x j
    rcases m.write_cases t i x j (m t i ||| flagUser) with ⟨-, he⟩ | ⟨rfl, rfl, he⟩ <;> rw [he]
    rw [BitVec.or_assoc, BitVec.or_self]
  refine ⟨h.root, fun hi => ?_, fun hr hi => by rw [hsame, hsame]; exact h.same hr hi⟩
  rw [← Word.present_or_flagUser, hsame, Word.present_or_flagUser]
  exact h.present hi

/-- A new table leaves the roots alone: their shared entries are present, so none of them is the missing one. -/
theorem install {e : Word} {i' : Nat} {p : List Nat} (h : SharedSlots kernel m use) (hn : (m t i).present = false)
    (hf : use f = .free) :
    SharedSlots kernel ((m.zeroPage f).write t i e) (update use f (.node r (i' :: p))) := by
  have hne : ∀ {x r p}, use x = .node r p → x ≠ f := fun hx => by rintro rfl; cases hf.symm.trans hx
  have hkeep : ∀ {r j}, use r = .node r [] → j = 0 ∨ j = 511 → (m.zeroPage f).write t i e r j = m r j := by
    intro r j hr hj
    rcases (m.zeroPage f).write_cases t i r j e with ⟨-, he⟩ | ⟨rfl, rfl, -⟩
    · rw [he, Mem.zeroPage_of_ne _ (hne hr)]
    · rw [h.present_of_root hr hj] at hn
      cases hn
  refine ⟨by rw [update_of_ne (hne h.root)]; exact h.root,
    fun hj => by rw [hkeep h.root hj]; exact h.present hj, fun hr hj => ?_⟩
  rcases Tables.update_node_cases hr with ⟨-, hr⟩ | ⟨-, -, hnil⟩
  · rw [hkeep hr hj, hkeep h.root hj]
    exact h.same hr hj
  · cases hnil

theorem writeLeaf (h : SharedSlots kernel m use) {p : List Nat} {w : Word} (ht : use t = .node r p)
    (hl : p.length = 3) :
    SharedSlots kernel (m.write t i w) use := by
  have hkeep : ∀ {r}, use r = .node r [] → m.write t i w r = m r := fun hr => Mem.write_of_ne _ _ _ (by
    rintro rfl
    obtain ⟨-, rfl⟩ := Use.node.inj (ht.symm.trans hr)
    cases hl)
  exact ⟨h.root, fun hi => by rw [hkeep h.root]; exact h.present hi,
    fun hr hi => by rw [hkeep hr, hkeep h.root]; exact h.same hr hi⟩

end SharedSlots

namespace Trees
variable {kernel : Nat} {m m' : Mem} {use use' : Nat → Use} {f g r t i : Nat} {p : List Nat}

/-- Entries may gain the user bit, unless they map a 2 MiB page; what is not a table may change. -/
theorem congr (h : Trees kernel m use) (hn : ∀ f r p, use' f = .node r p ↔ use f = .node r p)
    (hs : ∀ a r, use' a = .space r ↔ use a = .space r)
    (hm : ∀ {f r p i}, use f = .node r p → p.length < 3 → Inside kernel p.length f i →
      m' f i = m f i ∨ ((m f i).huge = false ∧ m' f i = m f i ||| flagUser))
    (ha : ∀ {a r}, use a = .space r → m' a 0 = m a 0) : Trees kernel m' use' where
  forest := h.forest.congr hn fun {f r p i} hf hl => by
    unfold tableLink
    split
    · rename_i hin
      rcases hm hf hl hin with he | ⟨-, he⟩ <;> rw [he]
      exact link_or_flagUser _ _
    · rfl
  low hf hl hin hp hh := by
    have hf := (hn ..).mp hf
    rcases hm hf hl hin with he | ⟨hne, he⟩ <;> rw [he] at hp hh ⊢
    · exact h.low hf hl hin hp hh
    · rw [Word.frameLow_or_flagUser, Word.frame_or_flagUser]
      exact h.low hf hl hin (by simpa using hp) hne
  huge hf hl hin hh := by
    have hf := (hn ..).mp hf
    rcases hm hf hl hin with he | ⟨hne, he⟩ <;> rw [he] at hh ⊢
    · exact h.huge hf hl hin hh
    · rw [Word.huge_or_flagUser, hne] at hh
      cases hh
  space hf := by
    obtain ⟨hr, hroot, hw⟩ := h.space ((hs ..).mp hf)
    exact ⟨hr, (hn ..).mpr hroot, by rw [ha ((hs ..).mp hf)]; exact hw⟩
  space_inj hf hg := h.space_inj ((hs ..).mp hf) ((hs ..).mp hg)
  range hf := h.range ((hn ..).mp hf)

/-- Setting the user bit of an entry that maps no 2 MiB page, or that leads out of its tree. -/
theorem upgrade (h : Trees kernel m use) (ht : use t = .node r p)
    (hh : p.length < 3 → Inside kernel p.length t i → (m t i).huge = false) :
    Trees kernel (m.write t i (m t i ||| flagUser)) use := by
  refine h.congr (fun _ _ _ => Iff.rfl) (fun _ _ => Iff.rfl) (fun {f r' q j} hf hq hin => ?_) fun {a r'} ha => ?_
  · rcases m.write_cases t i f j (m t i ||| flagUser) with ⟨-, he⟩ | ⟨rfl, rfl, he⟩
    · exact Or.inl he
    · obtain ⟨-, rfl⟩ := Use.node.inj (ht.symm.trans hf)
      exact Or.inr ⟨hh hq hin, he⟩
  · rw [Mem.write_of_ne]
    rintro rfl
    cases ht.symm.trans ha

theorem install {e : Word} (h : Trees kernel m use) (ht : use t = .node r p) (hl : p.length < 3)
    (hin : Inside kernel p.length t i) (hn : (m t i).present = false) (hf : ∀ r p, use f ≠ .node r p)
    (hfs : ∀ r, use f ≠ .space r) (hpos : 0 < f ∧ f < 2 ^ 40) (hp : e.present = true) (hframe : e.frame = f)
    (hlow : e.frameLow = f) (hhuge : e.huge = false) (hzero : ∀ j, m f j = 0) :
    Trees kernel (m.write t i e) (update use f (.node r (i :: p))) := by
  have htf : f ≠ t := by rintro rfl; exact hf _ _ ht
  have hnode : ∀ x r' q, update use f (.node r (i :: p)) x = .node r' q ↔
      use x = .node r' q ∨ (x = f ∧ r' = r ∧ q = i :: p) := by
    intro x r' q
    by_cases hx : x = f
    · subst hx
      rw [update_self, Use.node.injEq]
      constructor
      · rintro ⟨rfl, rfl⟩
        exact Or.inr ⟨rfl, rfl, rfl⟩
      · rintro (h | ⟨-, rfl, rfl⟩)
        · exact absurd h (hf _ _)
        · exact ⟨rfl, rfl⟩
    · rw [update_of_ne hx]
      exact ⟨Or.inl, fun h => h.elim id fun h => absurd h.1 hx⟩
  have hspace : ∀ a r', update use f (.node r (i :: p)) a = .space r' ↔ use a = .space r' := by
    intro a r'
    by_cases ha : a = f
    · subst ha
      rw [update_self]
      exact ⟨nofun, fun h => absurd h (hfs _)⟩
    · rw [update_of_ne ha]
  have hnone : ∀ l j, tableLink kernel (m.write t i e) l f j = none := by
    intro l j
    unfold tableLink
    rw [Mem.write_of_ne _ _ _ htf, hzero, link_zero, ite_self]
  -- An entry of a table is the new one, an old one, or empty in the new table.
  have hentry : ∀ {x r' q j}, update use f (.node r (i :: p)) x = .node r' q →
      (use x = .node r' q ∧ m.write t i e x j = m x j) ∨ m.write t i e x j = e ∨ m.write t i e x j = 0 := by
    intro x r' q j hx
    rcases m.write_cases t i x j e with ⟨-, hw⟩ | ⟨-, -, hw⟩
    · rcases (hnode ..).mp hx with hx | ⟨rfl, -, -⟩
      · exact Or.inl ⟨hx, hw⟩
      · exact Or.inr (Or.inr (hw.trans (hzero j)))
    · exact Or.inr (Or.inl hw)
  exact {
    forest := h.forest.install ht hl (by rw [tableLink_of_inside hin]; simp [link, hn]) (fun r p => hf r p) hnode
      (by
        rw [tableLink_of_inside hin, Mem.write_same]
        exact link_eq_some.mpr ⟨hp, (fun hh => by rw [hhuge] at hh; cases hh.2), hframe⟩)
      (fun {x r' q j} _ _ hne => by
        unfold tableLink
        rcases m.write_cases t i x j e with ⟨-, hw⟩ | ⟨rfl, rfl, -⟩
        · rw [hw]
        · exact absurd ⟨rfl, rfl⟩ hne)
      (hnone _)
    low := fun {x r' q j} hx hq hin' hpr hh => by
      rcases hentry (j := j) hx with ⟨hx, he⟩ | he | he <;> rw [he] at hpr hh ⊢
      · exact h.low hx hq hin' hpr hh
      · rw [hlow, hframe]
      · exact absurd hpr (by decide)
    huge := fun {x r' q j} hx hq hin' hh => by
      rcases hentry (j := j) hx with ⟨hx, he⟩ | he | he <;> rw [he] at hh ⊢
      · exact h.huge hx hq hin' hh
      · rw [hhuge] at hh
        cases hh
      · exact absurd hh (by decide)
    space := fun {a r'} ha => by
      obtain ⟨hk, hroot, hw⟩ := h.space ((hspace ..).mp ha)
      have hat : a ≠ t := by
        rintro rfl
        cases ht.symm.trans ((hspace ..).mp ha)
      exact ⟨hk, (hnode ..).mpr (Or.inl hroot), by rw [Mem.write_of_ne _ _ _ hat]; exact hw⟩
    space_inj := fun ha hb => h.space_inj ((hspace ..).mp ha) ((hspace ..).mp hb)
    range := fun hx => by
      rcases (hnode ..).mp hx with hx | ⟨rfl, -, -⟩
      · exact h.range hx
      · exact hpos }

end Trees

/-! ### Growing a tree -/

/-- From one moment to another, labels are given to free pages only, as nodes of the tree of `r` on the way `way`;
    page tables keep their entries and new ones are empty; the entries of 2 MiB pages stay as they are, and no new
    ones appear. -/
structure Extends (r : Nat) (way : List Nat) (m : Mem) (use : Nat → Use) (m' : Mem) (use' : Nat → Use) : Prop where
  keeps : ∀ {f}, use f ≠ .free → use' f = use f
  fresh : ∀ {f}, use f = .free → use' f = .free ∨
    ∃ p, use' f = .node r p ∧ p <:+ way ∧ (p.length = 3 → ∀ i, m' f i = 0)
  other : ∀ {f}, use f ≠ .free → (∀ r p, use f ≠ .node r p) → m' f = m f
  leaf : ∀ {f r' p}, use f = .node r' p → p.length = 3 → m' f = m f
  huge : ∀ {f r' p i}, use f = .node r' p → p.length = 2 → (m f i).huge = true → m' f i = m f i
  noHuge : ∀ {f r' p i}, use' f = .node r' p → p.length = 2 → (m' f i).huge = true →
    use f = .node r' p ∧ (m f i).huge = true

namespace Extends
variable {r : Nat} {way : List Nat} {m m' m'' : Mem} {use use' use'' : Nat → Use} {f r' i : Nat} {p : List Nat}

theorem refl (r : Nat) (way : List Nat) (m : Mem) (use : Nat → Use) : Extends r way m use m use :=
  ⟨fun _ => rfl, fun h => Or.inl h, fun _ _ => rfl, fun _ _ => rfl, fun _ _ _ => rfl, fun h _ hh => ⟨h, hh⟩⟩

theorem node (h : Extends r way m use m' use') (hf : use f = .node r' p) : use' f = .node r' p := by
  rw [h.keeps (by rw [hf]; exact nofun), hf]

theorem space (h : Extends r way m use m' use') (hf : use f = .space r') : use' f = .space r' := by
  rw [h.keeps (by rw [hf]; exact nofun), hf]

theorem trans (h : Extends r way m use m' use') (h' : Extends r way m' use' m'' use'') :
    Extends r way m use m'' use'' where
  keeps hf := by
    have hk := h.keeps hf
    rw [h'.keeps (by rw [hk]; exact hf), hk]
  fresh hf := by
    rcases h.fresh hf with hf | ⟨p, hf, hp, hz⟩
    · exact h'.fresh hf
    · exact Or.inr ⟨p, h'.node hf, hp, fun hl i => by rw [h'.leaf hf hl]; exact hz hl i⟩
  other hf hn := by
    have hk := h.keeps hf
    rw [h'.other (by rw [hk]; exact hf) (by rw [hk]; exact hn), h.other hf hn]
  leaf hf hl := (h'.leaf (h.node hf) hl).trans (h.leaf hf hl)
  huge hf hl hh := by
    have he := h.huge hf hl hh
    rw [h'.huge (h.node hf) hl (by rw [he]; exact hh), he]
  noHuge hf hl hh := by
    obtain ⟨hf, hh⟩ := h'.noHuge hf hl hh
    exact h.noHuge hf hl hh

theorem upgrade (r : Nat) (way : List Nat) {t : Nat} (ht : use t = .node r' p) (hl : p.length < 3)
    (hh : p.length = 2 → (m t i).huge = false) : Extends r way m use (m.write t i (m t i ||| flagUser)) use where
  keeps _ := rfl
  fresh h := Or.inl h
  other _ hn := Mem.write_of_ne _ _ _ (by rintro rfl; exact hn _ _ ht)
  leaf hf hlen := Mem.write_of_ne _ _ _ (by
    rintro rfl
    obtain ⟨-, rfl⟩ := Use.node.inj (ht.symm.trans hf)
    omega)
  huge {f r' q j} hf hlen hhuge := by
    rcases m.write_cases t i f j (m t i ||| flagUser) with ⟨-, he⟩ | ⟨rfl, rfl, -⟩
    · exact he
    · obtain ⟨-, rfl⟩ := Use.node.inj (ht.symm.trans hf)
      rw [hh hlen] at hhuge
      cases hhuge
  noHuge {f r' q j} hf hlen hhuge := by
    refine ⟨hf, ?_⟩
    rcases m.write_cases t i f j (m t i ||| flagUser) with ⟨-, he⟩ | ⟨rfl, rfl, he⟩ <;> rw [he] at hhuge
    · exact hhuge
    · rwa [Word.huge_or_flagUser] at hhuge

theorem install {t g : Nat} {e : Word} (ht : use t = .node r p) (hl : p.length < 3) (hg : use g = .free)
    (hh : (m t i).huge = false) (he : e.huge = false) (hway : i :: p <:+ way) :
    Extends r way m use ((m.zeroPage g).write t i e) (update use g (.node r (i :: p))) := by
  have htg : g ≠ t := by rintro rfl; cases hg.symm.trans ht
  have hkeep : ∀ {f}, use f ≠ .free → f ≠ t → (m.zeroPage g).write t i e f = m f := fun {f} hf hft => by
    have hfg : f ≠ g := by rintro rfl; exact hf hg
    rw [Mem.write_of_ne _ _ _ hft, Mem.zeroPage_of_ne _ hfg]
  have hnew : ∀ j, (m.zeroPage g).write t i e g j = 0 := fun j => by rw [Mem.write_of_ne _ _ _ htg, Mem.zeroPage_same]
  -- The entries of the table that changes.
  have hentry : ∀ j, (m.zeroPage g).write t i e t j = if j = i then e else m t j := fun j => by
    rw [Mem.write_apply, Mem.zeroPage_of_ne _ htg.symm]
    simp
  refine ⟨fun {f} hf => update_of_ne (by rintro rfl; exact hf hg) _ _, fun {f} hf => ?_, fun {f} hf hn => ?_,
    fun {f r' q} hf hlen => ?_, fun {f r' q j} hf hlen hhuge => ?_, fun {f r' q j} hf hlen hhuge => ?_⟩
  · by_cases hfg : f = g
    · subst hfg
      exact Or.inr ⟨i :: p, update_self .., hway, fun _ => hnew⟩
    · exact Or.inl (by rw [update_of_ne hfg]; exact hf)
  · exact hkeep hf (by rintro rfl; exact hn _ _ ht)
  · refine hkeep (by rw [hf]; exact nofun) ?_
    rintro rfl
    obtain ⟨-, rfl⟩ := Use.node.inj (ht.symm.trans hf)
    omega
  · by_cases hft : f = t
    · subst hft
      rw [hentry]
      by_cases hji : j = i
      · subst hji
        rw [hh] at hhuge
        cases hhuge
      · rw [if_neg hji]
    · rw [hkeep (by rw [hf]; exact nofun) hft]
  · rcases Tables.update_node_cases hf with ⟨hfg, hf⟩ | ⟨rfl, -, -⟩
    · refine ⟨hf, ?_⟩
      by_cases hft : f = t
      · subst hft
        rw [hentry] at hhuge
        by_cases hji : j = i
        · rw [if_pos hji, he] at hhuge
          cases hhuge
        · rwa [if_neg hji] at hhuge
      · rwa [hkeep (by rw [hf]; exact nofun) hft] at hhuge
    · rw [hnew] at hhuge
      exact absurd hhuge (by decide)

end Extends

/-- What a step of `vmm_map` above the page tables did to the tree of `r`. -/
structure Grown (kernel r : Nat) (way : List Nat) (s : Machine) (use : Nat → Use) (s' : Machine) (use' : Nat → Use) :
    Prop where
  trees : Trees kernel s'.mem use'
  owned : Owned kernel s'.pmm use'
  grows : Extends r way s.mem use s'.mem use'
  steady : s.Steady s'
  taken : ∃ T, s.pmm.Taken T s'.pmm
  shared : SharedSlots kernel s.mem use → SharedSlots kernel s'.mem use'

theorem Grown.trans {kernel r : Nat} {way : List Nat} {s s' s'' : Machine} {use use' use'' : Nat → Use}
    (h : Grown kernel r way s use s' use') (h' : Grown kernel r way s' use' s'' use'') :
    Grown kernel r way s use s'' use'' where
  trees := h'.trees
  owned := h'.owned
  grows := h.grows.trans h'.grows
  steady := h.steady.trans h'.steady
  taken := by
    obtain ⟨T, hT⟩ := h.taken
    obtain ⟨U, hU⟩ := h'.taken
    exact ⟨T ∪ U, hT.trans hU⟩
  shared hs := h'.shared (h.shared hs)

namespace Machine
variable {s s' : Machine} {t i g : Nat} {flags : Word}

theorem getOrCreateTable_cases (h : s.getOrCreateTable t i flags = .ok (g, s')) :
    ((s.mem t i).present = true ∧ g = (s.mem t i).frame ∧
      s' = { s with mem := if flags.user then s.mem.write t i (s.mem t i ||| flagUser) else s.mem }) ∨
    ((s.mem t i).present = false ∧ s.pmm.Free g ∧ g ≠ 0 ∧
      s' = { s with mem := (s.mem.zeroPage g).write t i (entry g (flags ||| flagPresent)), pmm := s.pmm.takePage g }) := by
  unfold getOrCreateTable at h
  cases hp : (s.mem t i).present with
  | true =>
    rw [if_pos hp] at h
    dsimp only at h
    split at h
    · rename_i hu
      cases h
      exact Or.inl ⟨rfl, by simp, by simp [hu]⟩
    · rename_i hu
      cases h
      exact Or.inl ⟨rfl, rfl, by simp [hu]⟩
  | false =>
    rw [if_neg (by simp [hp])] at h
    obtain ⟨⟨g', s₁⟩, halloc, h⟩ := Result.of_bind_eq_ok h
    cases h
    unfold allocPageTable allocPage at halloc
    rcases s.pmm.pmmAllocPage_cases with ⟨f, hf, -, heq⟩ | ⟨-, heq⟩ <;> rw [heq] at halloc <;> dsimp only at halloc
    · split at halloc
      · cases halloc
      · rename_i h0
        cases halloc
        exact Or.inr ⟨rfl, hf, h0, rfl⟩
    · rw [if_pos rfl] at halloc
      cases halloc

/-- `get_or_create_table` panics only when a table is missing and no page is free. -/
theorem getOrCreateTable_ok_iff (h0 : ¬s.pmm.Free 0) :
    (∃ r, s.getOrCreateTable t i flags = .ok r) ↔ (s.mem t i).present = true ∨ 0 < s.pmm.freeCount := by
  constructor
  · rintro ⟨⟨g, s'⟩, h⟩
    rcases getOrCreateTable_cases h with ⟨hp, -⟩ | ⟨-, hf, -⟩
    · exact Or.inl hp
    · exact Or.inr (Pmm.freeCount_pos_iff.mpr ⟨g, hf⟩)
  · intro h
    unfold getOrCreateTable
    split
    · exact ⟨_, rfl⟩
    · rename_i hp
      obtain ⟨q, hq⟩ := Pmm.freeCount_pos_iff.mp (h.resolve_left hp)
      unfold allocPageTable allocPage
      rcases s.pmm.pmmAllocPage_cases with ⟨f, hf, -, heq⟩ | ⟨hnone, -⟩
      · rw [heq]
        dsimp only
        rw [if_neg (by rintro rfl; exact h0 hf)]
        exact ⟨_, rfl⟩
      · exact absurd hq (hnone q)

theorem freeCount_getOrCreateTable (h : s.getOrCreateTable t i flags = .ok (g, s')) :
    s.pmm.freeCount = s'.pmm.freeCount + if (s.mem t i).present then 0 else 1 := by
  rcases getOrCreateTable_cases h with ⟨hp, -, rfl⟩ | ⟨hp, hf, -, rfl⟩
  · rw [if_pos hp]
    rfl
  · rw [if_neg (by simp [hp])]
    exact Pmm.freeCount_takePage hf

theorem vmmMap_of_tables {as : AsPtr} {virt phys pdpt pd pt : Nat} {s₁ s₂ s₃ : Machine} (has : as ≠ .null)
    (hv : virt % 4096 = 0) (hp : phys % 4096 = 0)
    (h₁ : s.getOrCreateTable (s.pml4 as) (pageIndex 0 virt) (tableFlags flags) = .ok (pdpt, s₁))
    (h₂ : s₁.getOrCreateTable pdpt (pageIndex 1 virt) (tableFlags flags) = .ok (pd, s₂))
    (hhuge : (s₂.mem pd (pageIndex 2 virt)).huge = false)
    (h₃ : s₂.getOrCreateTable pd (pageIndex 2 virt) (tableFlags flags) = .ok (pt, s₃))
    (hpres : (s₃.mem pt (pageIndex 3 virt)).present = false) :
    s.vmmMap as virt phys flags =
      .ok { s₃ with mem := s₃.mem.write pt (pageIndex 3 virt) (entry (phys / 4096) (flags ||| flagPresent)) } := by
  unfold vmmMap
  rw [if_neg has, if_neg (by omega), if_neg (by omega)]
  simp only [h₁, h₂, h₃, hhuge, hpres, bind, Except.bind]
  rfl

end Machine

/-- Flags of a table entry: below bit 12, without the bit of a 2 MiB page. -/
structure TableFlags (flags : Word) : Prop where
  low : LowFlags flags
  huge : flags.huge = false

theorem tableFlags_spec (flags : Word) : TableFlags (Machine.tableFlags flags ||| flagPresent) := by
  unfold Machine.tableFlags
  split <;> exact ⟨rfl, rfl⟩

namespace Trees
variable {kernel : Nat} {s s' : Machine} {use : Nat → Use} {f g r t i : Nat} {p : List Nat} {flags : Word}

/-- `get_or_create_table` inside a tree: the node that the entry leads to, made when it is missing. -/
theorem getOrCreateTable (h : Trees kernel s.mem use) (ho : Owned kernel s.pmm use) (ht : use t = .node r p)
    (hl : p.length < 3) (hin : Inside kernel p.length t i) (hh : p.length = 2 → (s.mem t i).huge = false)
    {way : List Nat} (hway : i :: p <:+ way) (hg : s.getOrCreateTable t i (Machine.tableFlags flags) = .ok (g, s')) :
    ∃ use', Grown kernel r way s use s' use' ∧ use' g = .node r (i :: p) := by
  have hnot : (s.mem t i).huge = false := by
    by_contra hhuge
    have hhuge : (s.mem t i).huge = true := by simpa using hhuge
    rw [hh (h.huge ht hl hin hhuge).1] at hhuge
    cases hhuge
  rcases Machine.getOrCreateTable_cases hg with ⟨hp, rfl, rfl⟩ | ⟨hp, hfree, -, rfl⟩
  · have hnode : use (s.mem t i).frame = .node r (i :: p) := h.forest.child ht hl (by
      rw [tableLink_of_inside hin]
      exact link_eq_some.mpr ⟨hp, (fun hc => by rw [hnot] at hc; cases hc.2), rfl⟩)
    refine ⟨use, ?_, hnode⟩
    split
    · exact ⟨h.upgrade ht fun _ _ => hnot, ho, .upgrade r way ht hl hh, ⟨rfl, rfl, rfl⟩, ⟨∅, .refl _⟩,
        fun hs => hs.upgrade t i⟩
    · exact ⟨h, ho, .refl .., .refl s, ⟨∅, .refl _⟩, id⟩
  · have hgfree := (ho.free_iff g).mpr hfree
    have hpos := ho.pos hgfree
    have hlt := Nat.lt_of_lt_of_le hpos.2 ho.total
    have hfl := tableFlags_spec flags
    have htg : t ≠ g := by rintro rfl; cases hgfree.symm.trans ht
    have hne : ∀ {x}, use x ≠ .free → x ≠ g := fun hx => by rintro rfl; exact hx hgfree
    refine ⟨update use g (.node r (i :: p)),
      ⟨?_, ?_, ?_, ⟨rfl, rfl, rfl⟩, ⟨{g}, ?_⟩, fun hs => hs.install hp hgfree⟩, update_self ..⟩
    · have hz : Trees kernel (s.mem.zeroPage g) use := h.congr (fun _ _ _ => Iff.rfl) (fun _ _ => Iff.rfl)
        (fun hf _ _ => Or.inl (by rw [Mem.zeroPage_of_ne _ (hne (by rw [hf]; exact nofun))]))
        (fun ha => by rw [Mem.zeroPage_of_ne _ (hne (by rw [ha]; exact nofun))])
      refine hz.install ht hl hin (by rw [Mem.zeroPage_of_ne _ htg]; exact hp) (by rw [hgfree]; intro r p h; cases h)
        (by rw [hgfree]; intro r h; cases h) ⟨hpos.1, hlt⟩ ?_ (frame_entry hlt hfl.low.flagsOnly)
          (frameLow_entry hlt hfl.low)
        (by rw [huge_entry]; exact hfl.huge) (Mem.zeroPage_same _ _)
      rw [present_entry, Word.present_eq, BitVec.getLsbD_or]
      simp [show flagPresent.getLsbD 0 = true from rfl]
    · have hheld := (ho.take hfree).label (f := g) (u := .node r (i :: p)) (update_self ..) nofun hpos
      rwa [update_idem] at hheld
    · exact .install ht hl hgfree hnot (by rw [huge_entry]; exact hfl.huge) hway
    · have htake := (Pmm.Taken.refl s.pmm).take hfree
      rwa [insert_empty_eq] at htake

/-- `get_or_create_table` on a shared entry of a user PML4: the table of the kernel that the entry leads to. -/
theorem getOrCreateTable_shared (h : Trees kernel s.mem use) (hs : SharedSlots kernel s.mem use)
    (ho : Owned kernel s.pmm use) (hr : use r = .node r []) (hk : r ≠ kernel) (hi : i = 0 ∨ i = 511) (way : List Nat)
    (hg : s.getOrCreateTable r i (Machine.tableFlags flags) = .ok (g, s')) :
    ∃ use', Grown kernel kernel way s use s' use' ∧ use' g = .node kernel [i] := by
  have hout : ¬Inside kernel 0 r i := fun hin => hin.2 ⟨rfl, hk, hi⟩
  have hin : Inside kernel 0 kernel i := ⟨by omega, fun hc => hc.2.1 rfl⟩
  have hpk := hs.present hi
  have hnode : use (s.mem r i).frame = .node kernel [i] := by
    refine h.forest.child hs.root (by decide) ?_
    rw [List.length_nil, tableLink_of_inside hin, ← Word.frame_or_flagUser, hs.same hr hi, Word.frame_or_flagUser]
    exact link_eq_some.mpr ⟨hpk, fun hc => absurd hc.1 (by decide), rfl⟩
  rcases Machine.getOrCreateTable_cases hg with ⟨-, rfl, rfl⟩ | ⟨hp, -, -, -⟩
  · refine ⟨use, ?_, hnode⟩
    split
    · exact ⟨h.upgrade hr fun _ hin => absurd hin hout, ho, .upgrade kernel way hr (by decide) nofun,
        ⟨rfl, rfl, rfl⟩, ⟨∅, .refl _⟩, fun hs => hs.upgrade r i⟩
    · exact ⟨h, ho, .refl .., .refl s, ⟨∅, .refl _⟩, id⟩
  · rw [hs.present_of_root hr hi] at hp
    cases hp

/-- The first table on the way of a mapping, in the tree of the PML4 or through a shared entry in the kernel's. -/
theorem firstTable (h : Trees kernel s.mem use) (ho : Owned kernel s.pmm use) {virt : Nat} (hr : use r = .node r [])
    (hs : pageIndex 0 virt = 0 ∨ pageIndex 0 virt = 511 → SharedSlots kernel s.mem use)
    (hg : s.getOrCreateTable r (pageIndex 0 virt) (Machine.tableFlags flags) = .ok (g, s')) :
    ∃ use', Grown kernel (treeOf kernel r virt) (pagePath virt 3) s use s' use' ∧
      use' g = .node (treeOf kernel r virt) (pagePath virt 1) := by
  have hidx := pageIndex_lt 0 virt
  have hway : pagePath virt 1 <:+ pagePath virt 3 := pagePath_suffix virt (by decide)
  rw [show pagePath virt 1 = [pageIndex 0 virt] from rfl]
  unfold treeOf owner
  by_cases hi : pageIndex 0 virt = 0 ∨ pageIndex 0 virt = 511
  · rw [if_pos ⟨rfl, hi⟩]
    by_cases hk : r = kernel
    · rw [hk] at hr hg
      exact h.getOrCreateTable ho hr (by decide) ⟨hidx, fun hc => hc.2.1 rfl⟩ nofun hway hg
    · exact h.getOrCreateTable_shared (hs hi) ho hr hk hi _ hg
  · rw [if_neg fun hc => hi hc.2]
    exact h.getOrCreateTable ho hr (by decide) ⟨hidx, fun hc => hi hc.2.2⟩ nofun hway hg

theorem nextTable (h : Trees kernel s.mem use) (ho : Owned kernel s.pmm use) {virt n : Nat} (hn : 0 < n) (hn3 : n < 3)
    (ht : use t = .node r (pagePath virt n)) (hh : n = 2 → (s.mem t (pageIndex n virt)).huge = false)
    (hg : s.getOrCreateTable t (pageIndex n virt) (Machine.tableFlags flags) = .ok (g, s')) :
    ∃ use', Grown kernel r (pagePath virt 3) s use s' use' ∧ use' g = .node r (pagePath virt (n + 1)) :=
  h.getOrCreateTable ho ht (by rw [pagePath_length]; exact hn3)
    ⟨pageIndex_lt _ _, fun hc => by rw [pagePath_length] at hc; omega⟩ (fun hl => hh (by rwa [pagePath_length] at hl))
    (pagePath_suffix virt hn3) hg

/-- The tables on the way of a mapping exist after `vmm_map` has walked them, and their entry is unused. -/
theorem vmmMap (h : Trees kernel s.mem use) (ho : Owned kernel s.pmm use) {as : AsPtr} {virt phys : Nat}
    (hr : use (s.pml4 as) = .node (s.pml4 as) [])
    (hs : pageIndex 0 virt = 0 ∨ pageIndex 0 virt = 511 → SharedSlots kernel s.mem use)
    (hmap : s.vmmMap as virt phys flags = .ok s') :
    ∃ s₁ use₁ pt, Grown kernel (treeOf kernel (s.pml4 as) virt) (pagePath virt 3) s use s₁ use₁ ∧
      use₁ pt = .node (treeOf kernel (s.pml4 as) virt) (pagePath virt 3) ∧
        (s₁.mem pt (pageIndex 3 virt)).present = false ∧
      s' = { s₁ with mem := s₁.mem.write pt (pageIndex 3 virt) (entry (phys / 4096) (flags ||| flagPresent)) } := by
  obtain ⟨-, -, pdpt, s₁, pd, s₂, pt, s₃, h₁, h₂, hhuge, h₃, hpres, rfl⟩ := Layout.vmmMap_ok hmap
  obtain ⟨use₁, g₁, hn₁⟩ := h.firstTable ho hr hs h₁
  obtain ⟨use₂, g₂, hn₂⟩ := g₁.trees.nextTable g₁.owned (by decide) (by decide) hn₁ nofun h₂
  obtain ⟨use₃, g₃, hn₃⟩ := g₂.trees.nextTable g₂.owned (by decide) (by decide) hn₂ (fun _ => hhuge) h₃
  exact ⟨s₃, use₃, pt, (g₁.trans g₂).trans g₃, hn₃, hpres, rfl⟩

end Trees

/-! ### Page tables -/

namespace Trees
variable {kernel : Nat} {m : Mem} {use : Nat → Use} {r t i : Nat} {p : List Nat} {w : Word}

theorem writeLeaf (h : Trees kernel m use) (ht : use t = .node r p) (hl : p.length = 3) :
    Trees kernel (m.write t i w) use := by
  refine h.congr (fun _ _ _ => Iff.rfl) (fun _ _ => Iff.rfl) (fun hf hq _ => Or.inl ?_) fun ha =>
    ?_ <;> rw [Mem.write_of_ne]
  · rintro rfl
    obtain ⟨-, rfl⟩ := Use.node.inj (ht.symm.trans hf)
    omega
  · rintro rfl
    cases ht.symm.trans ha

/-- An entry inside a tree leads to the next node, also by the mask of `vmm_unmap`. -/
theorem descend (h : Trees kernel m use) (ht : use t = .node r p) (hl : p.length < 3) (hin : Inside kernel p.length t i)
    (hp : (m t i).present = true) (hh : (m t i).huge = false) :
    use (m t i).frameLow = .node r (i :: p) := by
  rw [h.low ht hl hin hp hh]
  refine h.forest.child ht hl ?_
  rw [tableLink_of_inside hin]
  exact link_eq_some.mpr ⟨hp, (fun hc => by rw [hh] at hc; cases hc.2), rfl⟩

theorem present_of_child {g : Nat} (h : Trees kernel m use) (ht : use t = .node r p) (hg : use g = .node r (i :: p)) :
    (m t i).present = true := (link_eq_some.mp (tableLink_eq_some.mp (h.forest.next_of_child ht hg)).2).1

theorem not_huge (h : Trees kernel m use) (ht : use t = .node r p) (hl : p.length < 3)
    (hin : Inside kernel p.length t i) (hc : p.length < 2 ∨ r ≠ kernel) : (m t i).huge = false := by
  by_contra hh
  obtain ⟨hlen, hk, -⟩ := h.huge ht hl hin (by simpa using hh)
  rcases hc with hc | hc
  · omega
  · exact hc hk

/-- The first table of a walk: in the tree of the PML4, or through a shared entry in the kernel's. -/
theorem first_descend (h : Trees kernel m use) {virt : Nat} (hr : use r = .node r [])
    (hs : pageIndex 0 virt = 0 ∨ pageIndex 0 virt = 511 → SharedSlots kernel m use) :
    ((m r (pageIndex 0 virt)).present = true →
      use (m r (pageIndex 0 virt)).frameLow = .node (treeOf kernel r virt) [pageIndex 0 virt] ∧
      (m r (pageIndex 0 virt)).frame = (m r (pageIndex 0 virt)).frameLow) ∧
    ((m r (pageIndex 0 virt)).present = false → ∀ g, use g ≠ .node (treeOf kernel r virt) [pageIndex 0 virt]) := by
  have hidx := pageIndex_lt 0 virt
  unfold treeOf owner
  by_cases hi : pageIndex 0 virt = 0 ∨ pageIndex 0 virt = 511
  · rw [if_pos ⟨rfl, hi⟩]
    have hs := hs hi
    have hin : Inside kernel 0 kernel (pageIndex 0 virt) := ⟨hidx, fun hc => hc.2.1 rfl⟩
    have hp := hs.present hi
    have hsame := hs.same hr hi
    refine ⟨fun _ => ?_, fun hn => ?_⟩
    · rw [← Word.frameLow_or_flagUser, ← Word.frame_or_flagUser, hsame, Word.frameLow_or_flagUser,
        Word.frame_or_flagUser]
      have hh := h.not_huge hs.root (by decide) hin (Or.inl (by decide))
      exact ⟨h.descend hs.root (by decide) hin hp hh, (h.low hs.root (by decide) hin hp hh).symm⟩
    · rw [hs.present_of_root hr hi] at hn
      cases hn
  · rw [if_neg fun hc => hi hc.2]
    have hin : Inside kernel 0 r (pageIndex 0 virt) := ⟨hidx, fun hc => hi hc.2.2⟩
    refine ⟨fun hp => ?_, fun hn g hg => ?_⟩
    · have hh := h.not_huge hr (by decide) hin (Or.inl (by decide))
      exact ⟨h.descend hr (by decide) hin hp hh, (h.low hr (by decide) hin hp hh).symm⟩
    · rw [h.present_of_child hr hg] at hn
      cases hn

end Trees

section Unmap
variable {kernel : Nat} {s s' : Machine} {use : Nat → Use} {as : AsPtr} {virt : Nat}

/-- Away from 2 MiB pages `vmm_unmap` comes to the page table of the address, if there is one. -/
theorem Trees.unmapTable (h : Trees kernel s.mem use) (hr : use (s.pml4 as) = .node (s.pml4 as) [])
    (hs : pageIndex 0 virt = 0 ∨ pageIndex 0 virt = 511 → SharedSlots kernel s.mem use)
    (hh : ∀ {pd}, use pd = .node (treeOf kernel (s.pml4 as) virt) (pagePath virt 2) →
      (s.mem pd (pageIndex 2 virt)).huge = false) :
    (s.unmapTable as virt = none ∧ ∀ pt, use pt ≠ .node (treeOf kernel (s.pml4 as) virt) (pagePath virt 3)) ∨
      ∃ pt, s.unmapTable as virt = some pt ∧ use pt = .node (treeOf kernel (s.pml4 as) virt) (pagePath virt 3) := by
  have hidx := fun n => pageIndex_lt n virt
  have hdeep : ∀ {n t}, 0 < n → Inside kernel n t (pageIndex n virt) := fun hn => ⟨hidx _, fun hc => by omega⟩
  obtain ⟨hfirst, hnone⟩ := h.first_descend hr hs
  -- A missing table leaves the walk without the tables below it.
  have hmissing : ∀ {n}, (∀ g, use g ≠ .node (treeOf kernel (s.pml4 as) virt) (pagePath virt n)) →
      ∀ g, use g ≠ .node (treeOf kernel (s.pml4 as) virt) (pagePath virt (n + 1)) := fun hn g hg => by
    obtain ⟨-, f, hf, -⟩ := h.forest.parent hg
    exact hn f hf
  unfold Machine.unmapTable
  split
  · rename_i hp
    exact Or.inl ⟨rfl, hmissing (hmissing (hnone (by simpa using hp)))⟩
  rename_i hp₀
  obtain ⟨hn₁, -⟩ := hfirst (by simpa using hp₀)
  dsimp only
  split
  · rename_i hp
    refine Or.inl ⟨rfl, hmissing fun g hg => ?_⟩
    exact hp (h.present_of_child hn₁ hg)
  rename_i hp₁
  have hn₂ := h.descend hn₁ (by simp) (hdeep (by simp)) (by simpa using hp₁)
    (h.not_huge hn₁ (by simp) (hdeep (by simp)) (Or.inl (by simp)))
  split
  · rename_i hp
    refine Or.inl ⟨rfl, fun g hg => ?_⟩
    exact hp (h.present_of_child hn₂ hg)
  rename_i hp₂
  have hn₃ := h.descend hn₂ (by simp) (hdeep (by simp)) (by simpa using hp₂) (hh hn₂)
  exact Or.inr ⟨_, rfl, hn₃⟩

/-- What a `vmm_unmap` that returns did: the page table of the address was missing, or its entry is cleared. -/
theorem Trees.vmmUnmap (h : Trees kernel s.mem use) (hr : use (s.pml4 as) = .node (s.pml4 as) [])
    (hs : pageIndex 0 virt = 0 ∨ pageIndex 0 virt = 511 → SharedSlots kernel s.mem use)
    (hh : ∀ {pd}, use pd = .node (treeOf kernel (s.pml4 as) virt) (pagePath virt 2) →
      (s.mem pd (pageIndex 2 virt)).huge = false)
    (hunmap : s.vmmUnmap as virt = .ok s') :
    virt % 4096 = 0 ∧
    ((s' = s ∧ ∀ pt, use pt ≠ .node (treeOf kernel (s.pml4 as) virt) (pagePath virt 3)) ∨
      ∃ pt, use pt = .node (treeOf kernel (s.pml4 as) virt) (pagePath virt 3) ∧
        s' = { s with mem := s.mem.write pt (pageIndex 3 virt) 0 }) := by
  unfold Machine.vmmUnmap at hunmap
  split at hunmap
  · cases hunmap
  split at hunmap
  · cases hunmap
  rename_i hv
  refine ⟨by omega, ?_⟩
  rcases h.unmapTable hr hs hh with ⟨hnone, hmissing⟩ | ⟨pt, hsome, hpt⟩
  · rw [hnone] at hunmap
    cases hunmap
    exact Or.inl ⟨rfl, hmissing⟩
  · rw [hsome] at hunmap
    cases hunmap
    exact Or.inr ⟨pt, hpt, rfl⟩

end Unmap

end SamOS
