import SamOS.Vmm
import SamOS.PmmBitmap

/-! Who owns a page of page-table memory. A labelling says what each physical page is used for; a table or a mapped
    page is a node of the tree of one PML4, named by the PML4's page and the indices that lead to it, the last one
    first. Nodes below entries 0 and 511 belong to the kernel's tree, which all address spaces share. The invariant
    ties the labels to the entries in memory and to the bitmap. -/

namespace SamOS
open Function

/-- What a physical page is used for. A held page is reserved, in the heap or lost: nothing frees it. -/
inductive Use where
  | free
  | held
  | space (root : Nat)
  | node (root : Nat) (path : List Nat)
  deriving DecidableEq

/-- The page that an entry in a table of the given level leads to; a 2 MiB page ends the walk. -/
def link (level : Nat) (e : Word) : Option Nat :=
  if e.present = true ∧ ¬(level = 2 ∧ e.huge = true) then some e.frame else none

theorem link_eq_some {level g : Nat} {e : Word} :
    link level e = some g ↔ e.present = true ∧ ¬(level = 2 ∧ e.huge = true) ∧ e.frame = g := by
  unfold link
  split <;> simp_all

theorem link_zero (level : Nat) : link level 0 = none := by
  unfold link
  simp [Word.present]

@[simp] theorem link_or_flagUser (level : Nat) (e : Word) : link level (e ||| flagUser) = link level e := by
  unfold link
  simp

/-- An entry for the page `f` as `vmm_map` makes it for a user mapping. -/
structure LeadsTo (level : Nat) (e : Word) (f : Nat) : Prop where
  present : e.present = true
  user : e.user = true
  frame : e.frame = f
  huge : level < 3 → e.huge = false
  low : level < 3 → e.frameLow = f

theorem LeadsTo.link {level f : Nat} {e : Word} (h : LeadsTo level e f) : link level e = some f :=
  link_eq_some.mpr ⟨h.present, fun hh => by simp [h.huge (by omega)] at hh, h.frame⟩

/-- The tree that entry `i` of the table at `path` in the tree of `r` leads into. -/
def owner (kernel r : Nat) (path : List Nat) (i : Nat) : Nat :=
  if path = [] ∧ (i = 0 ∨ i = 511) then kernel else r

theorem owner_kernel (kernel : Nat) (path : List Nat) (i : Nat) : owner kernel kernel path i = kernel := by
  unfold owner
  split <;> rfl

theorem pageIndex_lt (n virt : Nat) : pageIndex n virt < 512 := Nat.mod_lt _ (by decide)

/-- The indices that lead to the page of `virt`, the last one first: those of the first `n` levels. -/
def pagePath (virt : Nat) : Nat → List Nat
  | 0 => []
  | n + 1 => pageIndex n virt :: pagePath virt n

/-- The tree that a mapping of `virt` in the address space of `r` goes into. -/
def treeOf (kernel r virt : Nat) : Nat := owner kernel r [] (pageIndex 0 virt)

/-- The trees that a mapping of `virt` in the address space of `r` may change. -/
def MapScope (kernel r virt r' : Nat) : Prop := r' = r ∨ r' = treeOf kernel r virt

theorem pagePath_length (virt n : Nat) : (pagePath virt n).length = n := by
  induction n with
  | zero => rfl
  | succ n ih => rw [pagePath, List.length_cons, ih]

theorem pagePath_suffix (virt : Nat) {n k : Nat} (h : n ≤ k) : pagePath virt n <:+ pagePath virt k := by
  induction h with
  | refl => exact List.suffix_refl _
  | step _ ih => exact ih.trans (List.suffix_cons _ _)

/-- The labels agree with the entries in memory. -/
structure Tables (kernel : Nat) (m : Mem) (use : Nat → Use) : Prop where
  kernelRoot : use kernel = .node kernel []
  kernelSlots : (m kernel 0).present = true ∧ (m kernel 511).present = true
  root : ∀ {f r}, use f = .node r [] → f = r
  space : ∀ {a r}, use a = .space r → r ≠ kernel ∧ use r = .node r [] ∧ m a 0 = BitVec.ofNat 64 (r * 4096)
  space_inj : ∀ {a b r}, use a = .space r → use b = .space r → a = b
  shared : ∀ {r}, use r = .node r [] → r ≠ kernel → m r 0 = m kernel 0 ||| flagUser ∧ m r 511 = m kernel 511
  child : ∀ {f r p i g}, use f = .node r p → p.length < 4 → i < 512 → link p.length (m f i) = some g →
    use g = .node (owner kernel r p i) (i :: p)
  parent : ∀ {g r i p}, use g = .node r (i :: p) →
    i < 512 ∧ p.length < 4 ∧ ∃ f, use f = .node r p ∧ link p.length (m f i) = some g
  low : ∀ {f r p i g}, use f = .node r p → p.length < 3 → i < 512 → link p.length (m f i) = some g →
    (m f i).frameLow = g
  huge : ∀ {f r p i}, use f = .node r p → p.length < 3 → i < 512 → (m f i).present = true → (m f i).huge = true →
    p.length = 2 ∧ r = kernel ∧ (m f i).user = false
  absent : ∀ {f r p i}, use f = .node r p → p.length < 3 → i < 512 → (m f i).huge = true → (m f i).present = true
  user : ∀ {f r p i g}, use f = .node r p → p.length < 4 → i < 512 → link p.length (m f i) = some g →
    (r ≠ kernel ∧ ¬(p = [] ∧ i = 511)) ∨ 2 ≤ p.length → (m f i).user = true
  userPd : ∀ {g i₂ i₁ i₀}, use g = .node kernel [i₂, i₁, i₀] → ∃ f, use f = .node kernel [i₀] ∧ (m f i₁).user = true
  range : ∀ {f r p}, use f = .node r p → 0 < f ∧ f < 2 ^ 40

/-- The labels agree with the bitmap. -/
structure Owned (kernel : Nat) (pmm : Pmm) (use : Nat → Use) : Prop where
  free_iff : ∀ f, use f = .free ↔ pmm.Free f
  zero : ¬pmm.Free 0
  total : pmm.totalPages ≤ 2 ^ 40
  node_lt : ∀ {f r p}, use f = .node r p → r ≠ kernel → f < pmm.totalPages
  space_lt : ∀ {a r}, use a = .space r → 0 < a ∧ a < pmm.totalPages

/-- The labels when two pages become an address space and its PML4. -/
def addSpace (use : Nat → Use) (a r : Nat) : Nat → Use :=
  update (update use a (.space r)) r (.node r [])

section AddSpace
variable {use : Nat → Use} {a r : Nat} {f : Nat}

theorem addSpace_of_ne (ha : f ≠ a) (hr : f ≠ r) : addSpace use a r f = use f := by
  rw [addSpace, update_of_ne hr, update_of_ne ha]

theorem addSpace_eq_node (ha : use a = .free) (hr : use r = .free) {r' : Nat} {p : List Nat} :
    addSpace use a r f = .node r' p ↔ use f = .node r' p ∨ (f = r ∧ r' = r ∧ p = []) := by
  unfold addSpace
  by_cases hfr : f = r
  · subst hfr
    rw [update_self, hr, Use.node.injEq]
    simp [eq_comm]
  · rw [update_of_ne hfr]
    by_cases hfa : f = a
    · subst hfa
      simp [ha, hfr]
    · simp [update_of_ne hfa, hfr]

theorem addSpace_eq_space (ha : use a = .free) (hr : use r = .free) (har : a ≠ r) {r' : Nat} :
    addSpace use a r f = .space r' ↔ use f = .space r' ∨ (f = a ∧ r' = r) := by
  unfold addSpace
  by_cases hfr : f = r
  · subst hfr
    simp [hr, har.symm]
  · rw [update_of_ne hfr]
    by_cases hfa : f = a
    · subst hfa
      simp [ha, eq_comm]
    · simp [hfa]

end AddSpace

namespace Tables
variable {kernel : Nat} {m : Mem} {use : Nat → Use} {f g r i : Nat} {p : List Nat}

theorem node_root (h : Tables kernel m use) (hf : use f = .node r p) : use r = .node r [] := by
  induction p generalizing f with
  | nil => rw [h.root hf] at hf; exact hf
  | cons i p ih =>
    obtain ⟨-, -, x, hx, -⟩ := h.parent hf
    exact ih hx

theorem unique (h : Tables kernel m use) (hf : use f = .node r p) (hg : use g = .node r p) : f = g := by
  induction p generalizing f g with
  | nil => rw [h.root hf, h.root hg]
  | cons i p ih =>
    obtain ⟨-, -, x, hx, hlink⟩ := h.parent hf
    obtain ⟨-, -, y, hy, hlink'⟩ := h.parent hg
    rw [ih hx hy] at hlink
    exact Option.some.inj (hlink.symm.trans hlink')

/-- An entry that is not present is not one of those shared with the kernel. -/
theorem owner_of_not_present (h : Tables kernel m use) (hf : use f = .node r p) (hn : (m f i).present = false) :
    owner kernel r p i = r := by
  unfold owner
  rw [if_neg]
  rintro ⟨rfl, hi⟩
  obtain rfl := h.root hf
  obtain ⟨h0, h511⟩ := h.kernelSlots
  by_cases hk : f = kernel
  · subst hk
    rcases hi with rfl | rfl <;> simp_all
  · obtain ⟨hs0, hs511⟩ := h.shared hf hk
    rcases hi with rfl | rfl
    · rw [hs0] at hn
      simp_all
    · rw [hs511] at hn
      simp_all

/-! ### What keeps the labels right -/

variable {m' : Mem}

/-- Entries of the tables below a PML4 may gain the user bit, unless they map a 2 MiB page; what is not a table may
    change. -/
theorem congr {use' : Nat → Use} (h : Tables kernel m use)
    (hn : ∀ f r p, use' f = .node r p ↔ use f = .node r p) (hs : ∀ a r, use' a = .space r ↔ use a = .space r)
    (hm : ∀ {f r p i}, use f = .node r p → p.length < 4 → m' f i = m f i ∨
      (p ≠ [] ∧ ¬(p.length = 2 ∧ (m f i).huge = true) ∧ m' f i = m f i ||| flagUser))
    (ha : ∀ {a r}, use a = .space r → m' a = m a) : Tables kernel m' use' := by
  have hroot : ∀ {r i}, use r = .node r [] → m' r i = m r i := fun hr =>
    (hm hr (by decide)).resolve_right fun hc => hc.1 rfl
  have hbits : ∀ {f r p i}, use f = .node r p → p.length < 4 → link p.length (m' f i) = link p.length (m f i) ∧
      (m' f i).present = (m f i).present ∧ (m' f i).huge = (m f i).huge ∧ (m' f i).frameLow = (m f i).frameLow ∧
      ((m f i).user = true → (m' f i).user = true) := by
    intro f r p i hf hl
    rcases hm (i := i) hf hl with he | ⟨-, -, he⟩ <;> rw [he] <;> simp
  exact {
    kernelRoot := (hn ..).mpr h.kernelRoot
    kernelSlots := by rw [hroot h.kernelRoot, hroot h.kernelRoot]; exact h.kernelSlots
    root := fun hf => h.root ((hn ..).mp hf)
    space := fun hf => by
      obtain ⟨hr, hroot, hw⟩ := h.space ((hs ..).mp hf)
      exact ⟨hr, (hn ..).mpr hroot, by rw [ha ((hs ..).mp hf)]; exact hw⟩
    space_inj := fun hf hg => h.space_inj ((hs ..).mp hf) ((hs ..).mp hg)
    shared := fun hr hne => by
      rw [hroot ((hn ..).mp hr), hroot ((hn ..).mp hr), hroot h.kernelRoot, hroot h.kernelRoot]
      exact h.shared ((hn ..).mp hr) hne
    child := fun hf hl hi hlink => by
      have hf' := (hn ..).mp hf
      rw [(hbits hf' hl).1] at hlink
      exact (hn ..).mpr (h.child hf' hl hi hlink)
    parent := fun hg => by
      obtain ⟨hi, hl, f, hf, hlink⟩ := h.parent ((hn ..).mp hg)
      exact ⟨hi, hl, f, (hn ..).mpr hf, by rw [(hbits hf hl).1]; exact hlink⟩
    low := fun hf hl hi hlink => by
      have hf' := (hn ..).mp hf
      obtain ⟨hlink', -, -, hlow, -⟩ := hbits hf' (by omega)
      rw [hlow]
      exact h.low hf' hl hi (hlink' ▸ hlink)
    huge := fun {f r p i} hf hl hi hpr hh => by
      have hf' := (hn ..).mp hf
      obtain ⟨-, hpr', hh', -⟩ := hbits hf' (by omega)
      rw [hpr'] at hpr
      rw [hh'] at hh
      have hhuge := h.huge hf' hl hi hpr hh
      -- The entries that change map no 2 MiB page.
      rcases hm (i := i) hf' (by omega) with he | ⟨-, hne, -⟩
      · rw [he]
        exact hhuge
      · exact absurd ⟨hhuge.1, hh⟩ hne
    absent := fun hf hl hi hh => by
      have hf' := (hn ..).mp hf
      obtain ⟨-, hpr, hh', -⟩ := hbits hf' (by omega)
      rw [hpr]
      exact h.absent hf' hl hi (hh' ▸ hh)
    user := fun hf hl hi hlink hc => by
      have hf' := (hn ..).mp hf
      obtain ⟨hlink', -, -, -, huser⟩ := hbits hf' hl
      exact huser (h.user hf' hl hi (hlink' ▸ hlink) hc)
    userPd := fun hg => by
      obtain ⟨f, hf, hu⟩ := h.userPd ((hn ..).mp hg)
      exact ⟨f, (hn ..).mpr hf, (hbits hf (by simp)).2.2.2.2 hu⟩
    range := fun hf => h.range ((hn ..).mp hf) }

/-- Setting the user bit of an entry of the shared tables, other than that of a 2 MiB page. -/
theorem upgrade {t : Nat} (h : Tables kernel m use) (ht : use t = .node kernel p) (hp : p ≠ [])
    (hh : ¬(p.length = 2 ∧ (m t i).huge = true)) : Tables kernel (m.write t i (m t i ||| flagUser)) use := by
  refine h.congr (fun _ _ _ => Iff.rfl) (fun _ _ => Iff.rfl) (fun {f r q j} hf _ => ?_) fun ha =>
    Mem.write_of_ne _ _ _ ?_
  · rcases m.write_cases t i f j (m t i ||| flagUser) with ⟨-, he⟩ | ⟨rfl, rfl, he⟩
    · exact Or.inl he
    · obtain ⟨-, rfl⟩ := Use.node.inj (ht.symm.trans hf)
      exact Or.inr ⟨hp, hh, he⟩
  · rintro rfl
    cases ht.symm.trans ha

theorem update_node_cases {r' x : Nat} {q : List Nat} (h : update use f (.node r p) x = .node r' q) :
    (x ≠ f ∧ use x = .node r' q) ∨ (x = f ∧ r' = r ∧ q = p) := by
  by_cases hx : x = f
  · subst hx
    rw [update_self] at h
    obtain ⟨rfl, rfl⟩ := Use.node.inj h
    exact Or.inr ⟨rfl, rfl, rfl⟩
  · rw [update_of_ne hx] at h
    exact Or.inl ⟨hx, h⟩

theorem update_of_ne_held {u : Use} {x : Nat} (hf : use f = .held) (hx : use x ≠ .held) :
    update use f u x = use x :=
  update_of_ne (by rintro rfl; exact hx hf) _ _

theorem install {t : Nat} {e : Word} (h : Tables kernel m use) (ht : use t = .node r p) (hl : p.length < 4)
    (hi : i < 512) (hn : (m t i).present = false) (hf : use f = .held) (hpos : 0 < f ∧ f < 2 ^ 40)
    (he : LeadsTo p.length e f) (hzero : p.length < 3 → ∀ j, m f j = 0)
    (hpd : ∀ i₁ i₀, r = kernel → p = [i₁, i₀] → ∃ x, use x = .node kernel [i₀] ∧ (m x i₁).user = true) :
    Tables kernel (m.write t i e) (update use f (.node r (i :: p))) := by
  have htf : t ≠ f := by rintro rfl; cases ht.symm.trans hf
  have hnode : ∀ {x r' q}, use x = .node r' q → update use f (.node r (i :: p)) x = .node r' q := fun hx => by
    rw [update_of_ne_held hf (by rw [hx]; exact nofun), hx]
  have hspace : ∀ {a r'}, update use f (.node r (i :: p)) a = .space r' → a ≠ t ∧ use a = .space r' := by
    intro a r' ha
    rw [update_of_ne_held hf (by rintro h; rw [update_apply, h] at ha; split at ha <;> cases ha)] at ha
    exact ⟨by rintro rfl; exact absurd (ht.symm.trans ha) (by intro h; cases h), ha⟩
  have hkeep : ∀ {x j}, (m x j).present = true → m.write t i e x j = m x j := by
    intro x j hp
    rcases m.write_cases t i x j e with ⟨-, h⟩ | ⟨rfl, rfl, -⟩
    · exact h
    · rw [hn] at hp; cases hp
  -- What a present entry of a table is after the write: the new table has none.
  have hentry : ∀ {x r' q j}, update use f (.node r (i :: p)) x = .node r' q → q.length < 4 →
      (m.write t i e x j).present = true →
      (use x = .node r' q ∧ m.write t i e x j = m x j) ∨ (x = t ∧ j = i ∧ r' = r ∧ q = p ∧ m.write t i e x j = e) := by
    intro x r' q j hx hq hpr
    rcases update_node_cases hx with ⟨-, hx'⟩ | ⟨rfl, rfl, rfl⟩
    · rcases m.write_cases t i x j e with ⟨-, hw⟩ | ⟨rfl, rfl, hw⟩
      · exact Or.inl ⟨hx', hw⟩
      · obtain ⟨rfl, rfl⟩ := Use.node.inj (ht.symm.trans hx')
        exact Or.inr ⟨rfl, rfl, rfl, rfl, hw⟩
    · simp only [List.length_cons] at hq
      rw [Mem.write_of_ne _ _ _ htf.symm, hzero (by omega)] at hpr
      exact absurd hpr (by decide)
  exact {
    kernelRoot := hnode h.kernelRoot
    kernelSlots := by rw [hkeep h.kernelSlots.1, hkeep h.kernelSlots.2]; exact h.kernelSlots
    root := fun hx => by
      rcases update_node_cases hx with ⟨-, hx'⟩ | ⟨-, -, hpath⟩
      · exact h.root hx'
      · cases hpath
    space := fun ha => by
      obtain ⟨hat, ha⟩ := hspace ha
      obtain ⟨hne, hroot, hw⟩ := h.space ha
      exact ⟨hne, hnode hroot, by rw [Mem.write_of_ne _ _ _ hat]; exact hw⟩
    space_inj := fun ha hb => h.space_inj (hspace ha).2 (hspace hb).2
    shared := fun {r'} hr hne => by
      rcases update_node_cases hr with ⟨-, hr'⟩ | ⟨-, -, hpath⟩
      · obtain ⟨h0, h511⟩ := h.shared hr' hne
        have hpr0 : (m r' 0).present = true := by rw [h0, Word.present_or_flagUser]; exact h.kernelSlots.1
        have hpr511 : (m r' 511).present = true := by rw [h511]; exact h.kernelSlots.2
        rw [hkeep hpr0, hkeep hpr511, hkeep h.kernelSlots.1, hkeep h.kernelSlots.2]
        exact ⟨h0, h511⟩
      · cases hpath
    child := fun hx hq hj hlink => by
      rcases hentry hx hq (link_eq_some.mp hlink).1 with ⟨hx', heq⟩ | ⟨rfl, rfl, rfl, rfl, heq⟩ <;> rw [heq] at hlink
      · exact hnode (h.child hx' hq hj hlink)
      · obtain rfl := Option.some.inj (he.link.symm.trans hlink)
        rw [update_self, h.owner_of_not_present ht hn]
    parent := fun hg => by
      rcases update_node_cases hg with ⟨-, hg'⟩ | ⟨rfl, rfl, hpath⟩
      · obtain ⟨hj, hq, x, hx, hlink⟩ := h.parent hg'
        exact ⟨hj, hq, x, hnode hx, by rw [hkeep (link_eq_some.mp hlink).1]; exact hlink⟩
      · obtain ⟨rfl, rfl⟩ := List.cons.inj hpath
        exact ⟨hi, hl, t, hnode ht, by rw [Mem.write_same]; exact he.link⟩
    low := fun hx hq hj hlink => by
      rcases hentry hx (by omega) (link_eq_some.mp hlink).1 with
        ⟨hx', heq⟩ | ⟨rfl, rfl, rfl, rfl, heq⟩ <;> rw [heq] at hlink ⊢
      · exact h.low hx' hq hj hlink
      · rw [he.low hq, ← he.frame]
        exact (link_eq_some.mp hlink).2.2
    huge := fun hx hq hj hpr hhuge => by
      rcases hentry hx (by omega) hpr with ⟨hx', heq⟩ | ⟨rfl, rfl, rfl, rfl, heq⟩ <;> rw [heq] at hpr hhuge ⊢
      · exact h.huge hx' hq hj hpr hhuge
      · rw [he.huge hq] at hhuge; cases hhuge
    absent := fun {x r' q j} hx hq hj hhuge => by
      rcases update_node_cases hx with ⟨-, hx'⟩ | ⟨rfl, -, rfl⟩
      · rcases m.write_cases t i x j e with ⟨-, hw⟩ | ⟨rfl, rfl, hw⟩ <;> rw [hw] at hhuge ⊢
        · exact h.absent hx' hq hj hhuge
        · exact he.present
      · rw [List.length_cons] at hq
        rw [Mem.write_of_ne _ _ _ htf.symm, hzero (by omega)] at hhuge
        exact absurd hhuge (by decide)
    user := fun hx hq hj hlink hc => by
      rcases hentry hx hq (link_eq_some.mp hlink).1 with ⟨hx', heq⟩ | ⟨rfl, rfl, rfl, rfl, heq⟩ <;> rw [heq] at hlink ⊢
      · exact h.user hx' hq hj hlink hc
      · exact he.user
    userPd := fun hg => by
      have hold : ∀ {x j : Nat} {r' : Nat} {q : List Nat}, use x = .node r' q → q.length < 4 → (m x j).user = true →
          (m.write t i e x j).user = true := fun {x j r' q} hx hq hu => by
        rcases m.write_cases t i x j e with ⟨-, h⟩ | ⟨rfl, rfl, h⟩ <;> rw [h]
        · exact hu
        · exact he.user
      rcases update_node_cases hg with ⟨-, hg'⟩ | ⟨rfl, hr, hpath⟩
      · obtain ⟨x, hx, hu⟩ := h.userPd hg'
        exact ⟨x, hnode hx, hold hx (by simp) hu⟩
      · obtain ⟨rfl, rfl⟩ := List.cons.inj hpath
        obtain ⟨x, hx, hu⟩ := hpd _ _ hr.symm rfl
        exact ⟨x, hnode hx, hold hx (by simp) hu⟩
    range := fun hx => by
      rcases update_node_cases hx with ⟨-, hx'⟩ | ⟨rfl, -, -⟩
      · exact h.range hx'
      · exact hpos }

/-- The entries of a PML4 that has only the two shared ones lead where those of the kernel's lead. -/
theorem entry_of_shared (h : Tables kernel m use) (h0 : m' r 0 = m kernel 0 ||| flagUser)
    (h511 : m' r 511 = m kernel 511) (hz : ∀ i, i ≠ 0 → i ≠ 511 → m' r i = 0) (hp : (m' r i).present = true) :
    (i = 0 ∨ i = 511) ∧ link 0 (m' r i) = link 0 (m kernel i) ∧ (m' r i).frameLow = (m kernel i).frameLow ∧
      (m kernel i).present = true ∧ (m' r i).huge = (m kernel i).huge ∧ (i ≠ 511 → (m' r i).user = true) := by
  by_cases hi0 : i = 0
  · subst hi0
    simp [h0, h.kernelSlots]
  by_cases hi511 : i = 511
  · subst hi511
    simp [h511, h.kernelSlots]
  · rw [hz i hi0 hi511] at hp
    exact absurd hp (by decide)

/-- Two free pages become an address space and its PML4, which has only the two shared entries. -/
theorem addSpace {a : Nat} (h : Tables kernel m use) (ha : use a = .free) (hr : use r = .free) (har : a ≠ r)
    (hpos : 0 < r ∧ r < 2 ^ 40) (hm : ∀ f, f ≠ a → f ≠ r → m' f = m f) (hw : m' a 0 = BitVec.ofNat 64 (r * 4096))
    (h0 : m' r 0 = m kernel 0 ||| flagUser) (h511 : m' r 511 = m kernel 511) (hz : ∀ i, i ≠ 0 → i ≠ 511 → m' r i = 0) :
    Tables kernel m' (addSpace use a r) := by
  have hold : ∀ {x}, use x ≠ .free → m' x = m x := fun {x} hx =>
    hm x (by rintro rfl; exact hx ha) (by rintro rfl; exact hx hr)
  have hnode : ∀ {x r' q}, use x = .node r' q → SamOS.addSpace use a r x = .node r' q ∧ m' x = m x := fun hx =>
    ⟨(addSpace_eq_node ha hr).mpr (Or.inl hx), hold (by rw [hx]; exact nofun)⟩
  have hcases : ∀ {x r' q}, SamOS.addSpace use a r x = .node r' q →
      (use x = .node r' q ∧ m' x = m x) ∨ (x = r ∧ r' = r ∧ q = []) := fun hx =>
    ((addSpace_eq_node ha hr).mp hx).imp_left fun hx => ⟨hx, (hnode hx).2⟩
  have hspace : ∀ {b r'}, SamOS.addSpace use a r b = .space r' → (use b = .space r' ∧ m' b = m b) ∨ (b = a ∧ r' = r) :=
    fun hb => ((addSpace_eq_space ha hr har).mp hb).imp_left fun hb => ⟨hb, hold (by rw [hb]; exact nofun)⟩
  have hne : r ≠ kernel := by rintro rfl; cases hr.symm.trans h.kernelRoot
  have hentry {i : Nat} := h.entry_of_shared (i := i) h0 h511 hz
  exact {
    kernelRoot := (hnode h.kernelRoot).1
    kernelSlots := by rw [(hnode h.kernelRoot).2]; exact h.kernelSlots
    root := fun hx => by
      rcases hcases hx with ⟨hx', -⟩ | ⟨rfl, rfl, -⟩
      · exact h.root hx'
      · rfl
    space := fun hb => by
      rcases hspace hb with ⟨hb', hmb⟩ | ⟨rfl, rfl⟩
      · obtain ⟨hk, hroot, hwb⟩ := h.space hb'
        exact ⟨hk, (hnode hroot).1, by rw [hmb]; exact hwb⟩
      · exact ⟨hne, update_self .., hw⟩
    space_inj := fun hb hc => by
      rcases hspace hb with ⟨hb', -⟩ | ⟨rfl, rfl⟩ <;> rcases hspace hc with ⟨hc', -⟩ | ⟨rfl, hrc⟩
      · exact h.space_inj hb' hc'
      · subst hrc
        cases hr.symm.trans (h.space hb').2.1
      · cases hr.symm.trans (h.space hc').2.1
      · rfl
    shared := fun hx hk => by
      rw [(hnode h.kernelRoot).2]
      rcases hcases hx with ⟨hx', hmx⟩ | ⟨rfl, -, -⟩
      · rw [hmx]; exact h.shared hx' hk
      · exact ⟨h0, h511⟩
    child := fun hx hq hj hlink => by
      rcases hcases hx with ⟨hx', hmx⟩ | ⟨rfl, rfl, rfl⟩
      · rw [hmx] at hlink
        exact (hnode (h.child hx' hq hj hlink)).1
      · obtain ⟨hi, hsame, -⟩ := hentry (link_eq_some.mp hlink).1
        rw [List.length_nil, hsame] at hlink
        have hchild := h.child h.kernelRoot (by decide) hj hlink
        rw [owner_kernel] at hchild
        rw [(hnode hchild).1, owner, if_pos ⟨rfl, hi⟩]
    parent := fun hg => by
      rcases hcases hg with ⟨hg', -⟩ | ⟨-, -, hpath⟩
      · obtain ⟨hj, hq, x, hx, hlink⟩ := h.parent hg'
        exact ⟨hj, hq, x, (hnode hx).1, by rw [(hnode hx).2]; exact hlink⟩
      · cases hpath
    low := fun hx hq hj hlink => by
      rcases hcases hx with ⟨hx', hmx⟩ | ⟨rfl, rfl, rfl⟩
      · rw [hmx] at hlink ⊢
        exact h.low hx' hq hj hlink
      · obtain ⟨-, hsame, hlow, -⟩ := hentry (link_eq_some.mp hlink).1
        rw [List.length_nil, hsame] at hlink
        rw [hlow]
        exact h.low h.kernelRoot hq hj hlink
    huge := fun hx hq hj hpr hhuge => by
      rcases hcases hx with ⟨hx', hmx⟩ | ⟨rfl, rfl, rfl⟩
      · rw [hmx] at hpr hhuge ⊢
        exact h.huge hx' hq hj hpr hhuge
      · obtain ⟨-, -, -, hk, hkh, -⟩ := hentry hpr
        exact absurd (h.huge h.kernelRoot hq hj hk (hkh ▸ hhuge)).1 (by decide)
    absent := fun {x r' q j} hx hq hj hhuge => by
      rcases hcases hx with ⟨hx', hmx⟩ | ⟨rfl, rfl, rfl⟩
      · rw [hmx] at hhuge ⊢
        exact h.absent hx' hq hj hhuge
      · by_cases hj0 : j = 0
        · rw [hj0, h0, Word.present_or_flagUser]
          exact h.kernelSlots.1
        · by_cases hj511 : j = 511
          · rw [hj511, h511]
            exact h.kernelSlots.2
          · rw [hz j hj0 hj511] at hhuge
            exact absurd hhuge (by decide)
    user := fun hx hq hj hlink hc => by
      rcases hcases hx with ⟨hx', hmx⟩ | ⟨rfl, rfl, rfl⟩
      · rw [hmx] at hlink ⊢
        exact h.user hx' hq hj hlink hc
      · refine (hentry (link_eq_some.mp hlink).1).2.2.2.2.2 fun h511 => ?_
        rcases hc with ⟨-, hc⟩ | hc
        · exact hc ⟨rfl, h511⟩
        · exact absurd hc (by decide)
    userPd := fun hg => by
      rcases hcases hg with ⟨hg', -⟩ | ⟨-, -, hpath⟩
      · obtain ⟨x, hx, hu⟩ := h.userPd hg'
        exact ⟨x, (hnode hx).1, by rw [(hnode hx).2]; exact hu⟩
      · cases hpath
    range := fun hx => by
      rcases hcases hx with ⟨hx', -⟩ | ⟨rfl, -, -⟩
      · exact h.range hx'
      · exact hpos }

end Tables

/-- The use of a page after the address space with the PML4 `r` is destroyed: its tables are free, the pages they
    mapped are lost. -/
def Use.destroy (r : Nat) : Use → Use
  | .space r' => if r' = r then .free else .space r'
  | .node r' p => if r' = r then (if p.length < 4 then .free else .held) else .node r' p
  | u => u

variable {r : Nat} {u : Use}

theorem Use.destroy_eq_node {r' : Nat} {p : List Nat} : u.destroy r = .node r' p ↔ u = .node r' p ∧ r' ≠ r := by
  cases u <;> simp only [Use.destroy]
  case free | held => simp
  case space r₁ => split <;> simp
  case node r₁ q =>
    by_cases hr : r₁ = r
    · rw [if_pos hr]
      by_cases hq : q.length < 4
      · rw [if_pos hq]
        simp only [Use.node.injEq, reduceCtorEq, false_iff]
        rintro ⟨⟨rfl, -⟩, hne⟩
        exact hne hr
      · rw [if_neg hq]
        simp only [Use.node.injEq, reduceCtorEq, false_iff]
        rintro ⟨⟨rfl, -⟩, hne⟩
        exact hne hr
    · rw [if_neg hr]
      simp only [Use.node.injEq]
      refine ⟨fun h => ⟨h, h.1 ▸ hr⟩, fun h => h.1⟩

theorem Use.destroy_eq_space {r' : Nat} : u.destroy r = .space r' ↔ u = .space r' ∧ r' ≠ r := by
  cases u <;> simp only [Use.destroy]
  case free | held => simp
  case node r₁ q => split <;> [split; skip] <;> simp
  case space r₁ =>
    by_cases hr : r₁ = r
    · rw [if_pos hr]
      simp only [Use.space.injEq, reduceCtorEq, false_iff]
      rintro ⟨rfl, hne⟩
      exact hne hr
    · rw [if_neg hr]
      simp only [Use.space.injEq]
      exact ⟨fun h => ⟨h, h ▸ hr⟩, fun h => h.1⟩

theorem Use.destroy_eq_free :
    u.destroy r = .free ↔ u = .free ∨ u = .space r ∨ ∃ p, p.length < 4 ∧ u = .node r p := by
  cases u <;> simp only [Use.destroy]
  case free | held => simp
  case space r₁ =>
    by_cases hr : r₁ = r <;> simp [hr]
  case node r₁ q =>
    by_cases hr : r₁ = r
    · subst hr
      by_cases hq : q.length < 4 <;> simp [hq]
    · simp [hr]

/-- Destroying one address space leaves all other trees as they are. -/
theorem Tables.destroy {kernel : Nat} {m : Mem} {use : Nat → Use} (h : Tables kernel m use) (hr : r ≠ kernel) :
    Tables kernel m fun f => (use f).destroy r where
  kernelRoot := Use.destroy_eq_node.mpr ⟨h.kernelRoot, hr.symm⟩
  kernelSlots := h.kernelSlots
  root hf := h.root (Use.destroy_eq_node.mp hf).1
  space ha := by
    obtain ⟨ha, hne⟩ := Use.destroy_eq_space.mp ha
    obtain ⟨hk, hroot, hw⟩ := h.space ha
    exact ⟨hk, Use.destroy_eq_node.mpr ⟨hroot, hne⟩, hw⟩
  space_inj ha hb := h.space_inj (Use.destroy_eq_space.mp ha).1 (Use.destroy_eq_space.mp hb).1
  shared hx := h.shared (Use.destroy_eq_node.mp hx).1
  child hf hl hi hlink := by
    obtain ⟨hf, hne⟩ := Use.destroy_eq_node.mp hf
    refine Use.destroy_eq_node.mpr ⟨h.child hf hl hi hlink, ?_⟩
    unfold owner
    split
    · exact hr.symm
    · exact hne
  parent hg := by
    obtain ⟨hg, hne⟩ := Use.destroy_eq_node.mp hg
    obtain ⟨hi, hl, f, hf, hlink⟩ := h.parent hg
    exact ⟨hi, hl, f, Use.destroy_eq_node.mpr ⟨hf, hne⟩, hlink⟩
  low hf := h.low (Use.destroy_eq_node.mp hf).1
  huge hf := h.huge (Use.destroy_eq_node.mp hf).1
  absent hf := h.absent (Use.destroy_eq_node.mp hf).1
  user hf := h.user (Use.destroy_eq_node.mp hf).1
  userPd hg := by
    obtain ⟨f, hf, hu⟩ := h.userPd (Use.destroy_eq_node.mp hg).1
    exact ⟨f, Use.destroy_eq_node.mpr ⟨hf, hr.symm⟩, hu⟩
  range hf := h.range (Use.destroy_eq_node.mp hf).1

end SamOS
