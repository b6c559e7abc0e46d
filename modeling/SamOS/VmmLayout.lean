import SamOS.PageTables
import SamOS.Lib.Result

/-! What each operation of the virtual memory manager does to the layout of memory: the labels it changes, the pages
    it writes, and that the labels stay right. -/

namespace SamOS
open Function

/-! ### The life of an address space -/

/-- The address space in page `a` was made and not destroyed since. -/
def alive : List AsEvent → Nat → Bool
  | [], _ => false
  | .create b :: log, a => a == b || alive log a
  | .destroy b :: log, a => a != b && alive log a

/-- Only address spaces that were alive have been destroyed. -/
def DestroyedOnce : List AsEvent → Prop
  | [] => True
  | .create _ :: log => DestroyedOnce log
  | .destroy a :: log => alive log a = true ∧ DestroyedOnce log

/-- The labels agree with memory, with the bitmap and with the log. -/
structure Layout (s : Machine) (use : Nat → Use) : Prop where
  tables : Tables s.kernelPml4 s.mem use
  owned : Owned s.kernelPml4 s.pmm use
  live : ∀ a, alive s.log a = true ↔ ∃ r, use a = .space r
  once : DestroyedOnce s.log

/-- What mapping and allocation leave alone. -/
structure Machine.Steady (s s' : Machine) : Prop where
  kernelPml4 : s'.kernelPml4 = s.kernelPml4
  log : s'.log = s.log
  totalPages : s'.pmm.totalPages = s.pmm.totalPages

theorem Machine.Steady.refl (s : Machine) : s.Steady s := ⟨rfl, rfl, rfl⟩

theorem Machine.Steady.trans {s s' s'' : Machine} (h : s.Steady s') (h' : s'.Steady s'') : s.Steady s'' :=
  ⟨h'.kernelPml4.trans h.kernelPml4, h'.log.trans h.log, h'.totalPages.trans h.totalPages⟩

/-- From one layout to another, labels are given to free pages only, memory changes only in free and held pages and in
    the trees of `scope`, and no 2 MiB page is mapped. -/
structure Grows (scope : Nat → Prop) (m : Mem) (use : Nat → Use) (m' : Mem) (use' : Nat → Use) : Prop where
  free : ∀ {f}, use' f = .free → use f = .free
  keeps : ∀ {f}, use f ≠ .free → use' f = use f
  mem : ∀ {f}, use f ≠ .free → use f ≠ .held → (∀ r p, scope r → use f ≠ .node r p) → m' f = m f
  huge : ∀ {f r p i}, use' f = .node r p → p.length = 2 → (m' f i).present = true → (m' f i).huge = true →
    use f = .node r p ∧ (m f i).present = true ∧ (m f i).huge = true

namespace Grows
variable {scope scope' : Nat → Prop} {m m' m'' : Mem} {use use' use'' : Nat → Use}

theorem refl (scope : Nat → Prop) (m : Mem) (use : Nat → Use) : Grows scope m use m use :=
  ⟨id, fun _ => rfl, fun _ _ _ => rfl, fun hf _ hp hh => ⟨hf, hp, hh⟩⟩

theorem trans (h : Grows scope m use m' use') (h' : Grows scope m' use' m'' use'') : Grows scope m use m'' use'' where
  free hf := h.free (h'.free hf)
  keeps hf := by
    have hk := h.keeps hf
    rw [h'.keeps (by rw [hk]; exact hf), hk]
  mem hf hh hs := by
    have hk := h.keeps hf
    rw [h'.mem (by rw [hk]; exact hf) (by rw [hk]; exact hh) (by rw [hk]; exact hs), h.mem hf hh hs]
  huge hf hl hp hh := by
    obtain ⟨hf', hp', hh'⟩ := h'.huge hf hl hp hh
    exact h.huge hf' hl hp' hh'

theorem mono (h : Grows scope m use m' use') (hs : ∀ r, scope r → scope' r) : Grows scope' m use m' use' :=
  ⟨h.free, h.keeps, fun hf hh hn => h.mem hf hh fun r p hr => hn r p (hs r hr), h.huge⟩

variable {f r : Nat} {p : List Nat}

theorem node (h : Grows scope m use m' use') (hf : use f = .node r p) : use' f = .node r p := by
  rw [h.keeps (by rw [hf]; exact nofun), hf]

theorem space {a : Nat} (h : Grows scope m use m' use') (ha : use a = .space r) : use' a = .space r := by
  rw [h.keeps (by rw [ha]; exact nofun), ha]

theorem mem_node (h : Grows scope m use m' use') (hf : use f = .node r p) (hs : ¬scope r) : m' f = m f := by
  refine h.mem (by rw [hf]; exact nofun) (by rw [hf]; exact nofun) fun r' q hr' hq => ?_
  exact hs ((Use.node.inj (hf.symm.trans hq)).1 ▸ hr')

theorem write (scope : Nat → Prop) {t i : Nat} {w : Word} (ht : use t = .node r p) (hs : scope r)
    (hw : p.length = 2 → w.present = true → w.huge = true → (m t i).present = true ∧ (m t i).huge = true) :
    Grows scope m use (m.write t i w) use where
  free := id
  keeps _ := rfl
  mem _ _ hn := Mem.write_of_ne _ _ _ (by rintro rfl; exact hn r p hs ht)
  huge {f r' q j} hf hl hp hh := by
    refine ⟨hf, ?_⟩
    rcases m.write_cases t i f j w with ⟨-, he⟩ | ⟨rfl, rfl, he⟩ <;> rw [he] at hp hh
    · exact ⟨hp, hh⟩
    · obtain ⟨-, rfl⟩ := Use.node.inj (ht.symm.trans hf)
      exact hw hl hp hh

theorem relabel {u : Use} (h : Grows scope m use m' use') (hu : ∀ r p, u = .node r p → p.length ≠ 2) :
    Grows scope m (update use f .free) m' (update use' f u) where
  free {g} hg := by
    by_cases hgf : g = f
    · rw [hgf, update_self]
    · rw [update_of_ne hgf] at hg ⊢
      exact h.free hg
  keeps {g} hg := by
    have hgf : g ≠ f := by rintro rfl; exact hg (update_self ..)
    rw [update_of_ne hgf] at hg ⊢
    rw [update_of_ne hgf]
    exact h.keeps hg
  mem {g} hg hh hs := by
    have hgf : g ≠ f := by rintro rfl; exact hg (update_self ..)
    rw [update_of_ne hgf] at hg hh hs
    exact h.mem hg hh hs
  huge {g r p i} hg hl hp hh := by
    by_cases hgf : g = f
    · subst hgf
      rw [update_self] at hg
      exact absurd hl (hu r p hg)
    · rw [update_of_ne hgf] at hg ⊢
      exact h.huge hg hl hp hh

theorem fresh {u : Use} (hf : use f = .free) (hu : u ≠ .free) (hm : ∀ g, g ≠ f → m' g = m g)
    (hz : ∀ r p, u = .node r p → ∀ i, (m' f i).present = false) :
    Grows scope m use m' (update use f u) where
  free {g} hg := by
    by_cases h : g = f
    · subst h
      rw [update_self] at hg
      exact absurd hg hu
    · rwa [update_of_ne h] at hg
  keeps {g} hg := update_of_ne (by rintro rfl; exact hg hf) _ _
  mem {g} hg _ _ := hm g (by rintro rfl; exact hg hf)
  huge {g r p i} hg _ hp hh := by
    by_cases hgf : g = f
    · subst hgf
      rw [update_self] at hg
      rw [hz r p hg i] at hp
      cases hp
    · rw [update_of_ne hgf] at hg
      rw [hm g hgf] at hp hh
      exact ⟨hg, hp, hh⟩

theorem of_free (hf : use f = .free) (hm : ∀ g, g ≠ f → m' g = m g) : Grows scope m use m' use := by
  have hne : ∀ {g}, use g ≠ .free → m' g = m g := fun hg => hm _ (by rintro rfl; exact hg hf)
  refine ⟨id, fun _ => rfl, fun hg _ _ => hne hg, fun {g r p i} hg _ hp hh => ?_⟩
  rw [hne (by rw [hg]; exact nofun)] at hp hh
  exact ⟨hg, hp, hh⟩

theorem newSpace {a : Nat} (ha : use a = .free) (hr : use r = .free) (hua : use' a = .space r)
    (hur : use' r = .node r []) (hold : ∀ {f}, f ≠ a → f ≠ r → use' f = use f)
    (hm : ∀ f, f ≠ a → f ≠ r → m' f = m f) : Grows scope m use m' use' := by
  have hne : ∀ {f}, use f ≠ .free → f ≠ a ∧ f ≠ r := fun hf =>
    ⟨by rintro rfl; exact hf ha, by rintro rfl; exact hf hr⟩
  refine ⟨fun {f} hf => ?_, fun hf => hold (hne hf).1 (hne hf).2, fun hf _ _ => hm _ (hne hf).1 (hne hf).2,
    fun {f r' p i} hf hl hp hh => ?_⟩
  · by_cases hfa : f = a
    · rw [hfa]; exact ha
    by_cases hfr : f = r
    · rw [hfr]; exact hr
    · rwa [hold hfa hfr] at hf
  · have hfa : f ≠ a := by rintro rfl; cases hf.symm.trans hua
    have hfr : f ≠ r := by
      rintro rfl
      rw [(Use.node.inj (hf.symm.trans hur)).2] at hl
      cases hl
    rw [hold hfa hfr] at hf
    rw [hm f hfa hfr] at hp hh
    exact ⟨hf, hp, hh⟩

end Grows

/-! ### Labels and the bitmap -/

namespace Owned
variable {kernel : Nat} {pmm : Pmm} {use : Nat → Use} {f : Nat}

theorem take (h : Owned kernel pmm use) (hf : pmm.Free f) :
    Owned kernel (pmm.takePage f) (update use f .held) where
  free_iff g := by
    rw [Pmm.free_takePage_iff, ← h.free_iff g]
    by_cases hg : g = f
    · subst hg
      simp
    · simp [hg]
  zero h0 := h.zero (Pmm.free_takePage_iff.mp h0).1
  total := h.total
  node_lt {g r p} hg := by
    refine h.node_lt (p := p) (r := r) ?_
    by_cases hgf : g = f
    · subst hgf
      rw [update_self] at hg
      cases hg
    · rwa [update_of_ne hgf] at hg
  space_lt {a r} ha := by
    refine h.space_lt (r := r) ?_
    by_cases haf : a = f
    · subst haf
      rw [update_self] at ha
      cases ha
    · rwa [update_of_ne haf] at ha

/-- A held page below `total_pages` may be used for anything but be free. -/
theorem label {u : Use} (h : Owned kernel pmm use) (hf : use f = .held) (hu : u ≠ .free)
    (hlt : 0 < f ∧ f < pmm.totalPages) :
    Owned kernel pmm (update use f u) where
  free_iff g := by
    rw [← h.free_iff g]
    by_cases hg : g = f
    · subst hg
      rw [update_self, hf]
      exact ⟨fun h => absurd h hu, nofun⟩
    · rw [update_of_ne hg]
  zero := h.zero
  total := h.total
  node_lt {g r p} hg hr := by
    by_cases hgf : g = f
    · exact hgf ▸ hlt.2
    · rw [update_of_ne hgf] at hg
      exact h.node_lt hg hr
  space_lt {a r} ha := by
    by_cases haf : a = f
    · exact haf ▸ hlt
    · rw [update_of_ne haf] at ha
      exact h.space_lt ha

theorem pos (h : Owned kernel pmm use) (hf : use f = .free) : 0 < f ∧ f < pmm.totalPages := by
  have hfree := (h.free_iff f).mp hf
  refine ⟨Nat.pos_of_ne_zero ?_, hfree.1⟩
  rintro rfl
  exact h.zero hfree

end Owned
namespace Layout
variable {s s' : Machine} {use : Nat → Use} {f : Nat}

theorem of_mem (h : Layout s use) {m' : Mem} (hm : ∀ {f r p}, use f = .node r p → p.length < 4 → m' f = s.mem f)
    (ha : ∀ {a r}, use a = .space r → m' a = s.mem a) : Layout { s with mem := m' } use where
  tables := h.tables.congr (fun _ _ _ => Iff.rfl) (fun _ _ => Iff.rfl) (fun hf hl => Or.inl (congrFun (hm hf hl) _)) ha
  owned := h.owned
  live := h.live
  once := h.once

theorem of_held (h : Layout s use) {m' : Mem} (hf : use f = .held) (hm : ∀ g, g ≠ f → m' g = s.mem g) :
    Layout { s with mem := m' } use :=
  h.of_mem (fun hx _ => hm _ (by rintro rfl; cases hf.symm.trans hx)) fun hx =>
    hm _ (by rintro rfl; cases hf.symm.trans hx)

variable {phys r a t virt : Nat} {flags : Word}

theorem writeByte (h : Layout s use) {p : List Nat} (hf : use (phys / 4096) = .node r p) (hp : p.length = 4)
    (b : BitVec 8) : Layout { s with mem := s.mem.writeByte phys b } use := by
  refine h.of_mem (fun hg hl => Mem.writeByte_of_ne _ _ ?_) fun hg => Mem.writeByte_of_ne _ _ ?_
  · rintro rfl
    rw [(Use.node.inj (hg.symm.trans hf)).2] at hl
    omega
  · rintro rfl
    cases hf.symm.trans hg

theorem space_held (h : Layout s use) (hf : use f = .held) (a : Nat) {u : Use} (hu : ∀ r, u ≠ .space r) :
    alive s.log a = true ↔ ∃ r, update use f u a = .space r := by
  rw [h.live a]
  by_cases ha : a = f
  · subst ha
    rw [update_self, hf]
    exact ⟨fun ⟨_, h⟩ => (by cases h), fun ⟨r, h⟩ => absurd h (hu r)⟩
  · rw [update_of_ne ha]

theorem pml4_eq (h : Layout s use) (ha : use a = .space r) : s.pml4 (.page a) = r := by
  obtain ⟨-, hr, hw⟩ := h.tables.space ha
  have hlt := (h.tables.range hr).2
  rw [Machine.pml4, hw, BitVec.toNat_ofNat, Nat.mod_eq_of_lt (by omega)]
  omega

theorem take (h : Layout s use) (hf : s.pmm.Free f) :
    Layout { s with pmm := s.pmm.takePage f } (update use f .held) := by
  have huse := (h.owned.free_iff f).mpr hf
  refine ⟨h.tables.congr (fun g r p => ?_) (fun a r => ?_) (fun _ _ => Or.inl rfl) (fun _ => rfl), h.owned.take hf,
    fun a => ?_, h.once⟩
  · by_cases hg : g = f
    · subst hg; simp [huse]
    · rw [update_of_ne hg]
  · by_cases ha : a = f
    · subst ha; simp [huse]
    · rw [update_of_ne ha]
  · rw [h.live a]
    by_cases ha : a = f
    · subst ha; simp [huse]
    · rw [update_of_ne ha]

/-- `pmm_alloc_page` returns a free page, which is held from then on, or nothing. -/
theorem allocPage (h : Layout s use) :
    (∃ f, use f = .free ∧ s.allocPage = (f, { s with pmm := s.pmm.takePage f }) ∧
      Layout { s with pmm := s.pmm.takePage f } (update use f .held)) ∨
    ((∀ f, use f ≠ .free) ∧ s.allocPage = (0, s)) := by
  unfold Machine.allocPage
  rcases s.pmm.pmmAllocPage_cases with ⟨f, hf, -, heq⟩ | ⟨hnone, heq⟩ <;> rw [heq]
  · exact Or.inl ⟨f, (h.owned.free_iff f).mpr hf, rfl, h.take hf⟩
  · exact Or.inr ⟨fun f hf => hnone f ((h.owned.free_iff f).mp hf), rfl⟩

/-- The result of `alloc_page_table`: a free page, now held and zeroed. -/
structure NewTable (s : Machine) (use : Nat → Use) (t : Nat) (s' : Machine) : Prop where
  free : use t = .free
  layout : Layout s' (update use t .held)
  zero : ∀ j, s'.mem t j = 0
  mem : ∀ g, g ≠ t → s'.mem g = s.mem g
  lt : 0 < t ∧ t < s'.pmm.totalPages
  steady : s.Steady s'

theorem allocPageTable (h : Layout s use) (ht : s.allocPageTable = .ok (t, s')) : NewTable s use t s' := by
  unfold Machine.allocPageTable at ht
  rcases h.allocPage with ⟨f, hf, heq, hl⟩ | ⟨-, heq⟩ <;> rw [heq] at ht <;> dsimp only at ht
  · have hpos := h.owned.pos hf
    rw [if_neg (by omega)] at ht
    cases ht
    exact {
      free := hf
      layout := hl.of_held (update_self ..) fun g hg => Mem.zeroPage_of_ne _ hg
      zero := Mem.zeroPage_same _ _
      mem := fun g hg => Mem.zeroPage_of_ne _ hg
      lt := hpos
      steady := ⟨rfl, rfl, rfl⟩ }
  · cases ht

theorem install (h : Layout s use) {i : Nat} {p : List Nat} {e : Word} (ht : use t = .node r p) (hl : p.length < 4)
    (hi : i < 512) (hn : (s.mem t i).present = false) (hf : use f = .held) (hlt : 0 < f ∧ f < s.pmm.totalPages)
    (he : LeadsTo p.length e f) (hzero : p.length < 3 → ∀ j, s.mem f j = 0)
    (hpd : ∀ i₁ i₀, r = s.kernelPml4 → p = [i₁, i₀] → ∃ x, use x = .node s.kernelPml4 [i₀] ∧ (s.mem x i₁).user = true) :
    Layout { s with mem := s.mem.write t i e } (update use f (.node r (i :: p))) where
  tables := h.tables.install ht hl hi hn hf ⟨hlt.1, Nat.lt_of_lt_of_le hlt.2 h.owned.total⟩ he hzero hpd
  owned := h.owned.label hf nofun hlt
  live a := h.space_held hf a nofun
  once := h.once

theorem tableFlags_of_user (hu : flags.user = true) : Machine.tableFlags flags = 7#64 := by
  unfold Machine.tableFlags
  rw [if_pos hu]
  rfl

theorem leadsTo_table {n : Nat} (ht : t < 2 ^ 40) : LeadsTo n (entry t (7#64 ||| flagPresent)) t where
  present := by rw [present_entry]; rfl
  user := by rw [user_entry]; rfl
  frame := frame_entry ht rfl
  huge _ := by rw [huge_entry]; rfl
  low _ := frameLow_entry ht rfl

/-- What `get_or_create_table` for a user mapping returns: the node that the entry leads to. -/
structure Descends (s : Machine) (use : Nat → Use) (r : Nat) (p : List Nat) (t i g : Nat) (s' : Machine)
    (use' : Nat → Use) : Prop where
  layout : Layout s' use'
  node : use' g = .node (owner s.kernelPml4 r p i) (i :: p)
  user : (s'.mem t i).user = true
  grows : Grows (· = r) s.mem use s'.mem use'
  steady : s.Steady s'

section Descend
variable {t r i g : Nat} {p : List Nat}

/-- The entry is present: only its user bit may change, and only in the shared tables. -/
theorem descend_present (h : Layout s use) (ht : use t = .node r p) (hl : p.length < 3) (hi : i < 512)
    (hk : r = s.kernelPml4 → p ≠ []) (h511 : p = [] → i ≠ 511) (hhuge : p.length = 2 → (s.mem t i).huge = false)
    (hpres : (s.mem t i).present = true) :
    Descends s use r p t i (s.mem t i).frame { s with mem := s.mem.write t i (s.mem t i ||| flagUser) } use := by
  have hnot : ¬(p.length = 2 ∧ (s.mem t i).huge = true) := by
    rintro ⟨hlen, hh⟩
    rw [hhuge hlen] at hh
    cases hh
  have hlink : link p.length (s.mem t i) = some (s.mem t i).frame := link_eq_some.mpr ⟨hpres, hnot, rfl⟩
  refine ⟨?_, h.tables.child ht (by omega) hi hlink, by simp, .write (· = r) ht rfl ?_, ⟨rfl, rfl, rfl⟩⟩
  swap
  · intro _ hp hh
    rw [Word.present_or_flagUser] at hp
    rw [Word.huge_or_flagUser] at hh
    exact ⟨hp, hh⟩
  by_cases huser : (s.mem t i).user = true
  · have hsame : s.mem.write t i (s.mem t i ||| flagUser) = s.mem := by
      funext x j
      rw [Word.or_flagUser_of_user huser]
      rcases s.mem.write_cases t i x j (s.mem t i) with ⟨-, hw⟩ | ⟨rfl, rfl, hw⟩ <;> exact hw
    rw [hsame]
    exact h
  · -- A user tree has the bit everywhere, so this is a shared table.
    have hr : r = s.kernelPml4 := by
      by_contra hne
      exact huser (h.tables.user ht (by omega) hi hlink (Or.inl ⟨hne, fun hp => h511 hp.1 hp.2⟩))
    subst hr
    exact ⟨h.tables.upgrade ht (hk rfl) hnot, h.owned, h.live, h.once⟩

/-- The entry is not present: a new table is made and entered. -/
theorem descend_new (h : Layout s use) (ht : use t = .node r p) (hl : p.length < 3) (hi : i < 512)
    (hpd : ∀ i₁ i₀, r = s.kernelPml4 → p = [i₁, i₀] → ∃ x, use x = .node s.kernelPml4 [i₀] ∧ (s.mem x i₁).user = true)
    (hpres : (s.mem t i).present = false) (hnew : NewTable s use g s') :
    Descends s use r p t i g { s' with mem := s'.mem.write t i (entry g (7#64 ||| flagPresent)) }
      (update use g (.node r (i :: p))) := by
  have htg : t ≠ g := by rintro rfl; cases hnew.free.symm.trans ht
  have ht' : ∀ u, update use g u t = .node r p := fun u => by rw [update_of_ne htg, ht]
  have hlt40 := Nat.lt_of_lt_of_le hnew.lt.2 hnew.layout.owned.total
  refine ⟨?_, ?_, ?_, ?_, ⟨hnew.steady.kernelPml4, hnew.steady.log, hnew.steady.totalPages⟩⟩
  · have hinst := hnew.layout.install (ht' _) (by omega) hi (by rw [hnew.mem t htg]; exact hpres)
      (update_self ..)
      hnew.lt (leadsTo_table hlt40) (fun _ => hnew.zero) ?_
    · rwa [update_idem] at hinst
    · intro i₁ i₀ hr hp
      obtain ⟨x, hx, hxu⟩ := hpd i₁ i₀ (hr.trans hnew.steady.kernelPml4) hp
      have hxg : x ≠ g := by rintro rfl; cases hnew.free.symm.trans hx
      exact ⟨x, by rw [update_of_ne hxg, hx, hnew.steady.kernelPml4], by rw [hnew.mem x hxg]; exact hxu⟩
  · rw [update_self, h.tables.owner_of_not_present ht hpres]
  · simp only [Mem.write_same]
    exact (leadsTo_table (n := 0) hlt40).user
  · refine (Grows.fresh hnew.free (u := .node r (i :: p)) nofun hnew.mem fun _ _ _ j => ?_).trans
      (.write (· = r) (ht' _) rfl fun _ _ hh => ?_)
    · rw [hnew.zero j]
      rfl
    · rw [(leadsTo_table (n := 0) hlt40).huge (by decide)] at hh
      cases hh

theorem getOrCreateTable (h : Layout s use) {flags : Word} (hu : flags.user = true) (ht : use t = .node r p)
    (hl : p.length < 3) (hi : i < 512) (hk : r = s.kernelPml4 → p ≠ []) (h511 : p = [] → i ≠ 511)
    (hhuge : p.length = 2 → (s.mem t i).huge = false)
    (hpd : ∀ i₁ i₀, r = s.kernelPml4 → p = [i₁, i₀] → ∃ x, use x = .node s.kernelPml4 [i₀] ∧ (s.mem x i₁).user = true)
    (hg : s.getOrCreateTable t i (Machine.tableFlags flags) = .ok (g, s')) :
    ∃ use', Descends s use r p t i g s' use' := by
  unfold Machine.getOrCreateTable at hg
  rw [tableFlags_of_user hu] at hg
  cases hpres : (s.mem t i).present with
  | true =>
    rw [if_pos hpres, if_pos (by decide)] at hg
    cases hg
    simp only [Mem.write_same, Word.frame_or_flagUser]
    exact ⟨use, h.descend_present ht hl hi hk h511 hhuge hpres⟩
  | false =>
    rw [if_neg (by simp [hpres])] at hg
    obtain ⟨⟨t', s₁⟩, halloc, hg⟩ := Result.of_bind_eq_ok hg
    cases hg
    exact ⟨_, h.descend_new ht hl hi hpd hpres (h.allocPageTable halloc)⟩

end Descend
/-! ### Mapping -/

theorem vmmMap_ok {as : AsPtr} (h : s.vmmMap as virt phys flags = .ok s') :
    virt % 4096 = 0 ∧ phys % 4096 = 0 ∧ ∃ pdpt s₁ pd s₂ pt s₃,
      s.getOrCreateTable (s.pml4 as) (pageIndex 0 virt) (Machine.tableFlags flags) = .ok (pdpt, s₁) ∧
      s₁.getOrCreateTable pdpt (pageIndex 1 virt) (Machine.tableFlags flags) = .ok (pd, s₂) ∧
      (s₂.mem pd (pageIndex 2 virt)).huge = false ∧
      s₂.getOrCreateTable pd (pageIndex 2 virt) (Machine.tableFlags flags) = .ok (pt, s₃) ∧
      (s₃.mem pt (pageIndex 3 virt)).present = false ∧
      s' = { s₃ with mem := s₃.mem.write pt (pageIndex 3 virt) (entry (phys / 4096) (flags ||| flagPresent)) } := by
  unfold Machine.vmmMap at h
  split at h
  · cases h
  split at h
  · cases h
  split at h
  · cases h
  rename_i hv hp
  obtain ⟨⟨pdpt, s₁⟩, h₁, h⟩ := Result.of_bind_eq_ok h
  obtain ⟨⟨pd, s₂⟩, h₂, h⟩ := Result.of_bind_eq_ok h
  dsimp only at h
  split at h
  · cases h
  rename_i hhuge
  obtain ⟨⟨pt, s₃⟩, h₃, h⟩ := Result.of_bind_eq_ok h
  dsimp only at h
  split at h
  · cases h
  rename_i hpres
  cases h
  exact ⟨by omega, by omega, pdpt, s₁, pd, s₂, pt, s₃, h₁, h₂, by simpa using hhuge, h₃, by simpa using hpres, rfl⟩

/-- The tables on the way of a user mapping exist after `vmm_map` has walked them. -/
theorem vmmMap_walk (h : Layout s use) (ha : use a = .space r)
    (hu : flags.user = true) (h511 : pageIndex 0 virt ≠ 511) (hmap : s.vmmMap (.page a) virt phys flags = .ok s') :
    ∃ s₁ use₁ pt, Layout s₁ use₁ ∧ Grows (MapScope s.kernelPml4 r virt) s.mem use s₁.mem use₁ ∧
      use₁ pt = .node (treeOf s.kernelPml4 r virt) (pagePath virt 3) ∧ (s₁.mem pt (pageIndex 3 virt)).present = false ∧
      s.Steady s₁ ∧
      s' = { s₁ with mem := s₁.mem.write pt (pageIndex 3 virt) (entry (phys / 4096) (flags ||| flagPresent)) } := by
  obtain ⟨-, -, pdpt, s₁, pd, s₂, pt, s₃, h₁, h₂, hhuge, h₃, hpres, rfl⟩ := vmmMap_ok hmap
  obtain ⟨hne, hroot, -⟩ := h.tables.space ha
  rw [h.pml4_eq ha] at h₁
  obtain ⟨use₁, d₁⟩ := h.getOrCreateTable hu hroot (by simp) (pageIndex_lt _ _) (fun hr => absurd hr hne)
    (fun _ => h511)
    nofun nofun h₁
  have hsame : ∀ {p i}, p ≠ [] → owner s.kernelPml4 (treeOf s.kernelPml4 r virt) p i = treeOf s.kernelPml4 r virt :=
    fun hp => if_neg fun hc => hp hc.1
  obtain ⟨use₂, d₂⟩ := d₁.layout.getOrCreateTable hu d₁.node (by simp) (pageIndex_lt _ _) nofun
    nofun nofun nofun h₂
  have hn₂ := d₂.node
  rw [d₁.steady.kernelPml4] at hn₂
  rw [show owner s.kernelPml4 r [] (pageIndex 0 virt) = treeOf s.kernelPml4 r virt from rfl, hsame (by simp)] at hn₂
  obtain ⟨use₃, d₃⟩ := d₂.layout.getOrCreateTable hu hn₂ (by simp) (pageIndex_lt _ _) nofun
    nofun (fun _ => hhuge) (fun i₁ i₀ hr hp => by
      cases hp
      exact ⟨pdpt, by rw [d₂.grows.node d₁.node, ← hr]; rfl, d₂.user⟩) h₃
  have hn₃ := d₃.node
  rw [d₂.steady.kernelPml4, d₁.steady.kernelPml4, hsame (by simp)] at hn₃
  refine ⟨s₃, use₃, pt, d₃.layout, ?_, hn₃, hpres, (d₁.steady.trans d₂.steady).trans d₃.steady, rfl⟩
  exact ((d₁.grows.mono fun _ h => Or.inl h).trans (d₂.grows.mono fun _ h => Or.inr h)).trans
    (d₃.grows.mono fun _ h => Or.inr h)

/-- The flags of a user mapping: the user bit, and no bit of the address. -/
structure UserFlags (flags : Word) : Prop where
  user : flags.user = true
  only : FlagsOnly flags

theorem UserFlags.leadsTo (h : UserFlags flags) (hf : f < 2 ^ 40) :
    LeadsTo 3 (entry f (flags ||| flagPresent)) f where
  present := by
    rw [present_entry, Word.present_eq, BitVec.getLsbD_or]
    simp [show flagPresent.getLsbD 0 = true from rfl]
  user := by
    have hu := h.user
    rw [Word.user_eq] at hu
    rw [user_entry, Word.user_eq, BitVec.getLsbD_or, hu, Bool.true_or]
  frame := frame_entry hf (h.only.or rfl)
  huge h := absurd h (by decide)
  low h := absurd h (by decide)

/-- Mapping a held page: it becomes the node of its address. -/
theorem vmmMap_page (h : Layout s use) (ha : use a = .space r) (hfl : UserFlags flags)
    (h511 : pageIndex 0 virt ≠ 511) (hf : use f = .held) (hlt : 0 < f ∧ f < s.pmm.totalPages)
    (hmap : s.vmmMap (.page a) virt (f * 4096) flags = .ok s') :
    ∃ use', Layout s' use' ∧ use' f = .node (treeOf s.kernelPml4 r virt) (pagePath virt 4) ∧
      Grows (MapScope s.kernelPml4 r virt) s.mem (update use f .free) s'.mem use' ∧ s.Steady s' := by
  obtain ⟨s₁, use₁, pt, hl₁, hg₁, hpt, hpres, hst, rfl⟩ := h.vmmMap_walk ha hfl.user h511 hmap
  have hf₁ : use₁ f = .held := by rw [hg₁.keeps (by rw [hf]; exact nofun), hf]
  have hlt₁ : 0 < f ∧ f < s₁.pmm.totalPages := by rw [hst.totalPages]; exact hlt
  have hlt40 := Nat.lt_of_lt_of_le hlt₁.2 hl₁.owned.total
  rw [Nat.mul_div_cancel _ (by decide)]
  refine ⟨update use₁ f (.node (treeOf s.kernelPml4 r virt) (pagePath virt 4)), ?_,
    update_self .., ?_, ⟨hst.kernelPml4, hst.log, hst.totalPages⟩⟩
  · exact hl₁.install hpt (by simp [pagePath]) (pageIndex_lt _ _) hpres hf₁ hlt₁ (hfl.leadsTo hlt40)
      (fun h => absurd h (by simp [pagePath])) fun _ _ _ hp => by simp [pagePath] at hp
  · have hpt' : ∀ u, update use₁ f u pt = .node (treeOf s.kernelPml4 r virt) (pagePath virt 3) := fun u => by
      rw [update_of_ne (by rintro rfl; cases hf₁.symm.trans hpt), hpt]
    refine (hg₁.relabel fun _ _ h => ?_).trans (.write _ (hpt' _) (Or.inr rfl) fun h => ?_)
    · rw [← (Use.node.inj h).2, pagePath_length]
      decide
    · rw [pagePath_length] at h
      cases h

end Layout
end SamOS
