import SamOS.TableTree
import Mathlib.Data.List.Nodup

/-! Making and destroying address spaces in the forest of tables. `vmm_destroy_address_space` frees the tables of one
    tree, each of them once. -/

namespace SamOS
open Function Forest Loop

/-! ### Making -/

namespace Machine
variable {s s' : Machine}

/-- What `vmm_create_address_space` did when it returned an address space. -/
structure Created (s : Machine) (a r : Nat) (s' : Machine) : Prop where
  zero : ¬s.pmm.Free 0
  freeSpace : s.pmm.Free a
  freePml4 : (s.pmm.takePage a).Free r
  least : ∀ q < r, ¬(s.pmm.takePage a).Free q
  mem : ∀ f, f ≠ a → f ≠ r → s'.mem f = s.mem f
  pointer : s'.mem a 0 = BitVec.ofNat 64 (r * 4096)
  empty : ∀ i, i ≠ 0 → i ≠ 511 → s'.mem r i = 0
  slots : s.kernelPml4 ≠ a → s.kernelPml4 ≠ r →
    s'.mem r 0 = s.mem s.kernelPml4 0 ||| flagUser ∧ s'.mem r 511 = s.mem s.kernelPml4 511
  pmm : s'.pmm = (s.pmm.takePage a).takePage r
  kernelPml4 : s'.kernelPml4 = s.kernelPml4
  log : s'.log = .create a :: s.log

theorem vmmCreateAddressSpace_cases {as : Option Nat} (h : s.vmmCreateAddressSpace = .ok (as, s')) :
    (as = none ∧ s' = s.allocPage.2 ∧ (s.pmm.Free 0 ∨ (s' = s ∧ ∀ q, ¬s.pmm.Free q))) ∨
      ∃ a r, as = some a ∧ Created s a r s' := by
  unfold vmmCreateAddressSpace allocPage at h
  rcases s.pmm.pmmAllocPage_cases with ⟨a, ha, hleast, heq⟩ | ⟨hnone, heq⟩ <;> rw [heq] at h <;> dsimp only at h
  · split at h
    · rename_i h0
      subst h0
      cases h
      exact Or.inl ⟨rfl, by unfold allocPage; rw [heq], Or.inl ha⟩
    rename_i h0
    obtain ⟨⟨r, s₂⟩, halloc, h⟩ := Result.of_bind_eq_ok h
    unfold allocPageTable allocPage at halloc
    rcases (s.pmm.takePage a).pmmAllocPage_cases with ⟨r', hr, hleast', heq'⟩ | ⟨-, heq'⟩ <;> rw [heq'] at halloc <;>
      dsimp only at halloc
    · split at halloc
      · cases halloc
      cases halloc
      injection h with h
      obtain ⟨rfl, rfl⟩ := Prod.mk.inj h
      have har : a ≠ r := (Pmm.free_takePage_iff.mp hr).2.symm
      refine Or.inr ⟨a, r, rfl, hleast 0 (by omega), ha, hr, hleast', fun f hfa hfr => ?_, ?_, fun i h0 h511 => ?_,
        fun hka hkr => ?_, rfl, rfl, rfl⟩
      · simp only [Mem.write_of_ne _ _ _ hfr, Mem.zeroPage_of_ne _ hfr, Mem.write_of_ne _ _ _ hfa]
      · simp only [Mem.write_of_ne _ _ _ har, Mem.zeroPage_of_ne _ har, Mem.write_same]
      · simp [Mem.write_apply, h0, h511]
      · simp only [Mem.write_same, Mem.write_of_ne _ _ _ hkr, Mem.zeroPage_of_ne _ hkr,
          Mem.write_of_ne _ _ _ hka, and_true]
        simp [Mem.write_apply]
    · rw [if_pos rfl] at halloc
      cases halloc
  · cases h
    exact Or.inl ⟨rfl, by unfold allocPage; rw [heq], Or.inr ⟨rfl, hnone⟩⟩

/-- The two lowest free pages become an address space. -/
theorem vmmCreateAddressSpace_of_least {a r : Nat} (h0 : ¬s.pmm.Free 0) (ha : s.pmm.Free a)
    (hleast : ∀ q < a, ¬s.pmm.Free q) (hr : (s.pmm.takePage a).Free r)
    (hleast' : ∀ q < r, ¬(s.pmm.takePage a).Free q) :
    ∃ s', s.vmmCreateAddressSpace = .ok (some a, s') ∧ Created s a r s' := by
  have hpos : ∀ {q}, s.pmm.Free q → q ≠ 0 := by
    rintro q hq rfl
    exact h0 hq
  obtain ⟨s', hc⟩ : ∃ s', s.vmmCreateAddressSpace = .ok (some a, s') := by
    unfold vmmCreateAddressSpace allocPage
    rw [Pmm.pmmAllocPage_of_least ha hleast]
    dsimp only
    rw [if_neg (hpos ha)]
    unfold allocPageTable allocPage
    dsimp only
    rw [Pmm.pmmAllocPage_of_least hr hleast']
    dsimp only
    rw [if_neg (hpos (Pmm.free_takePage_iff.mp hr).1)]
    exact ⟨_, rfl⟩
  refine ⟨s', hc, ?_⟩
  rcases vmmCreateAddressSpace_cases hc with ⟨h, -⟩ | ⟨a', r', h, hcr⟩
  · cases h
  · cases h
    rcases Nat.lt_trichotomy r r' with hlt | rfl | hlt
    · exact absurd hr (hcr.least r hlt)
    · exact hcr
    · exact absurd hcr.freePml4 (hleast' r' hlt)

end Machine

section AddSpace
variable {kernel : Nat} {s s' : Machine} {use : Nat → Use} {a r : Nat}

theorem Machine.Created.ne (h : Machine.Created s a r s') : a ≠ r := (Pmm.free_takePage_iff.mp h.freePml4).2.symm

/-- A new address space is a tree of its own. -/
theorem Trees.addSpace (h : Trees kernel s.mem use) (ho : Owned kernel s.pmm use) (hc : Machine.Created s a r s')
    (hk : r ≠ kernel) : Trees kernel s'.mem (addSpace use a r) := by
  have ha := (ho.free_iff a).mpr hc.freeSpace
  have hr := (ho.free_iff r).mpr (Pmm.free_takePage_iff.mp hc.freePml4).1
  have hpos := ho.pos hr
  have hnode : ∀ f r' p, SamOS.addSpace use a r f = .node r' p ↔ _ := fun f r' p => addSpace_eq_node ha hr
  have hspace : ∀ f r', SamOS.addSpace use a r f = .space r' ↔ _ := fun f r' => addSpace_eq_space ha hr hc.ne
  have hold : ∀ {f}, use f ≠ .free → s'.mem f = s.mem f := fun {f} hf =>
    hc.mem f (by rintro rfl; exact hf ha) (by rintro rfl; exact hf hr)
  have hmem : ∀ {f r' p}, use f = .node r' p → s'.mem f = s.mem f := fun hf => hold (by rw [hf]; exact nofun)
  -- The new PML4 has no entry of its own yet.
  have hempty : ∀ {i}, Inside kernel 0 r i → s'.mem r i = 0 := fun {i} hin =>
    hc.empty i (fun h0 => hin.2 ⟨rfl, hk, Or.inl h0⟩) (fun h511 => hin.2 ⟨rfl, hk, Or.inr h511⟩)
  exact {
    forest := h.forest.addRoot (fun r' p hf => by rw [hr] at hf; cases hf) hnode
      (fun {x r' q j} hx _ => by unfold tableLink; rw [hmem hx])
      (fun j => by
        unfold tableLink
        split
        · rename_i hin
          rw [hempty hin, link_zero]
        · rfl)
    low := fun {f r' p i} hf hl hin hp hh => by
      rcases (hnode ..).mp hf with hf | ⟨rfl, rfl, rfl⟩
      · rw [hmem hf] at hp hh ⊢
        exact h.low hf hl hin hp hh
      · rw [List.length_nil] at hin
        rw [hempty hin] at hp
        exact absurd hp (by decide)
    huge := fun {f r' p i} hf hl hin hh => by
      rcases (hnode ..).mp hf with hf | ⟨rfl, rfl, rfl⟩
      · rw [hmem hf] at hh ⊢
        exact h.huge hf hl hin hh
      · rw [List.length_nil] at hin
        rw [hempty hin] at hh
        exact absurd hh (by decide)
    space := fun {b r'} hb => by
      rcases (hspace ..).mp hb with hb | ⟨rfl, rfl⟩
      · obtain ⟨hk, hroot, hw⟩ := h.space hb
        exact ⟨hk, (hnode ..).mpr (Or.inl hroot), by rw [hold (by rw [hb]; exact nofun)]; exact hw⟩
      · exact ⟨hk, (hnode ..).mpr (Or.inr ⟨rfl, rfl, rfl⟩), hc.pointer⟩
    space_inj := fun {b c r'} hb hb' => by
      have hne : ∀ {x}, use x = .space r → False := fun hx => by
        have hroot := (h.space hx).2.1
        rw [hr] at hroot
        cases hroot
      rcases (hspace ..).mp hb with hb₁ | ⟨hb₁, hr₁⟩ <;> rcases (hspace ..).mp hb' with hb₂ | ⟨hb₂, hr₂⟩
      · exact h.space_inj hb₁ hb₂
      · exact (hne (hr₂ ▸ hb₁)).elim
      · exact (hne (hr₁ ▸ hb₂)).elim
      · rw [hb₁, hb₂]
    range := fun hf => by
      rcases (hnode ..).mp hf with hf | ⟨rfl, -, -⟩
      · exact h.range hf
      · exact ⟨hpos.1, Nat.lt_of_lt_of_le hpos.2 ho.total⟩ }

theorem Owned.addSpace (ho : Owned kernel s.pmm use) (hc : Machine.Created s a r s') :
    Owned kernel s'.pmm (addSpace use a r) := by
  have ha := ho.pos ((ho.free_iff a).mpr hc.freeSpace)
  have hr := ho.pos ((ho.free_iff r).mpr (Pmm.free_takePage_iff.mp hc.freePml4).1)
  have hne := hc.ne
  have htake := (ho.take hc.freeSpace).take hc.freePml4
  rw [← hc.pmm] at htake
  have htotal : s'.pmm.totalPages = s.pmm.totalPages := by rw [hc.pmm]; rfl
  have hlabel := (htake.label (f := a) (u := .space r) (by rw [update_of_ne hne, update_self])
    nofun (by rw [htotal]; exact ha)).label (f := r) (u := .node r [])
    (by rw [update_of_ne hne.symm, update_self]) nofun (by rw [htotal]; exact hr)
  have huse : update (update (update (update use a .held) r .held) a (.space r)) r
      (.node r []) = SamOS.addSpace use a r := by
    unfold SamOS.addSpace
    rw [update_comm hne.symm, update_idem, update_idem]
  rwa [huse] at hlabel

theorem SharedSlots.addSpace (hs : SharedSlots s.kernelPml4 s.mem use) (ho : Owned s.kernelPml4 s.pmm use)
    (hc : Machine.Created s a r s') : SharedSlots s.kernelPml4 s'.mem (addSpace use a r) := by
  have ha := (ho.free_iff a).mpr hc.freeSpace
  have hr := (ho.free_iff r).mpr (Pmm.free_takePage_iff.mp hc.freePml4).1
  have hne : ∀ {x r' p}, use x = .node r' p → x ≠ a ∧ x ≠ r := fun hx =>
    ⟨(by rintro rfl; cases ha.symm.trans hx), (by rintro rfl; cases hr.symm.trans hx)⟩
  have hk := hne hs.root
  obtain ⟨h0, h511⟩ := hc.slots hk.1 hk.2
  have hkernel := hc.mem _ hk.1 hk.2
  refine ⟨(addSpace_eq_node ha hr).mpr (Or.inl hs.root), fun hi => by rw [hkernel]; exact hs.present hi,
    fun {r' i} hr' hi => ?_⟩
  rw [hkernel]
  rcases (addSpace_eq_node ha hr).mp hr' with hr' | ⟨rfl, -, -⟩
  · rw [hc.mem _ (hne hr').1 (hne hr').2]
    exact hs.same hr' hi
  · rcases hi with rfl | rfl
    · rw [h0, BitVec.or_assoc, BitVec.or_self]
    · rw [h511]

end AddSpace

/-! ### Destroying -/

namespace Machine

/-- The tables that the loops of `vmm_destroy_address_space` find below the entries `is` of the table `t`, in the next
    `n` levels, in the order in which they are freed. -/
def tablesBelow (m : Mem) : Nat → List Nat → Nat → List Nat
  | 0, _, _ => []
  | n + 1, is, t => is.flatMap fun i =>
      if (m t i).present then tablesBelow m n (List.range 512) (m t i).frameLow ++ [(m t i).frameLow] else []

/-- The pages that `vmm_destroy_address_space` passes to `pmm_free_page`, in order. -/
def freedPages (s : Machine) (as : Nat) : List Nat :=
  tablesBelow s.mem 3 (List.range' 1 510) (s.pml4 (.page as)) ++ [s.pml4 (.page as), as]

theorem forRange_tablesBelow (m : Mem) (n t lo hi : Nat) (pmm : Pmm) {g : Nat → Pmm → Pmm}
    (hin : ∀ u pmm, g u pmm = (tablesBelow m n (List.range 512) u).foldl Pmm.pmmFreePage pmm) :
    forRange lo hi (fun i pmm => if (m t i).present then (g (m t i).frameLow pmm).pmmFreePage (m t i).frameLow
      else pmm) pmm = (tablesBelow m (n + 1) (List.range' lo (hi - lo)) t).foldl Pmm.pmmFreePage pmm := by
  rw [tablesBelow, List.foldl_flatMap, forRange]
  congr 1
  funext pmm i
  split
  · rw [List.foldl_append, hin]
    rfl
  · rfl

theorem vmmDestroyAddressSpace_pmm (s : Machine) (as : Nat) :
    (s.vmmDestroyAddressSpace as).pmm = (s.freedPages as).foldl Pmm.pmmFreePage s.pmm := by
  have hpd : ∀ pd pmm, destroyPd s.mem pd pmm = (tablesBelow s.mem 1 (List.range 512) pd).foldl
      Pmm.pmmFreePage pmm := by
    intro pd pmm
    have h := forRange_tablesBelow s.mem 0 pd 0 512 pmm (g := fun _ pmm => pmm) fun _ _ => rfl
    rwa [Nat.sub_zero, ← List.range_eq_range'] at h
  have hpdpt : ∀ pdpt pmm, destroyPdpt s.mem pdpt pmm =
      (tablesBelow s.mem 2 (List.range 512) pdpt).foldl Pmm.pmmFreePage pmm := by
    intro pdpt pmm
    have h := forRange_tablesBelow s.mem 1 pdpt 0 512 pmm hpd
    rwa [Nat.sub_zero, ← List.range_eq_range'] at h
  have hpml4 := forRange_tablesBelow s.mem 2 (s.pml4 (.page as)) 1 511 s.pmm hpdpt
  rw [freedPages, List.foldl_append]
  show ((destroyPml4 s.mem _ s.pmm).pmmFreePage _).pmmFreePage as = _
  rw [destroyPml4, hpml4]
  rfl

end Machine

namespace Trees
variable {kernel : Nat} {m : Mem} {use : Nat → Use} {r : Nat}

/-- The tables below a node of a user tree, through the entries `is`: its descendants there, each once. -/
theorem tablesBelow_spec (h : Trees kernel m use) (hk : r ≠ kernel) {n t : Nat} {is p : List Nat}
    (ht : use t = .node r p) (hn : p.length + n ≤ 3) (his : is.Nodup) (hin : ∀ i ∈ is, Inside kernel p.length t i) :
    (∀ q, q ∈ Machine.tablesBelow m n is t ↔ ∃ p' i, i ∈ is ∧ p'.length < n ∧ use q = .node r (p' ++ i :: p)) ∧
    (Machine.tablesBelow m n is t).Nodup := by
  induction n generalizing t is p with
  | zero => exact ⟨fun q => ⟨nofun, fun ⟨_, _, _, hl, _⟩ => absurd hl (by omega)⟩, List.nodup_nil⟩
  | succ n ih =>
    -- The tables found through one entry: those below its table, and that table.
    have hchild : ∀ i ∈ is, (m t i).present = true → use (m t i).frameLow = .node r (i :: p) := fun i hi hp =>
      h.descend ht (by omega) (hin i hi) hp (h.not_huge ht (by omega) (hin i hi) (Or.inr hk))
    have hbelow : ∀ i ∈ is, (m t i).present = true →
        (∀ q, q ∈ Machine.tablesBelow m n (List.range 512) (m t i).frameLow ↔
          ∃ p' j, j ∈ List.range 512 ∧ p'.length < n ∧ use q = .node r (p' ++ j :: i :: p)) ∧
        (Machine.tablesBelow m n (List.range 512) (m t i).frameLow).Nodup := fun i hi hp =>
      ih (hchild i hi hp) (by simp; omega) List.nodup_range fun j hj =>
        ⟨List.mem_range.mp hj, fun hc => absurd hc.1 (by simp)⟩
    have hone : ∀ i ∈ is, ∀ q, q ∈ (if (m t i).present then
        Machine.tablesBelow m n (List.range 512) (m t i).frameLow ++ [(m t i).frameLow] else []) ↔
        ∃ p', p'.length < n + 1 ∧ use q = .node r (p' ++ i :: p) := by
      intro i hi q
      by_cases hp : (m t i).present = true
      · rw [if_pos hp, List.mem_append, (hbelow i hi hp).1 q, List.mem_singleton]
        constructor
        · rintro (⟨p', j, -, hl, hq⟩ | rfl)
          · exact ⟨p' ++ [j], by simp; omega, by simpa using hq⟩
          · exact ⟨[], by simp, hchild i hi hp⟩
        · rintro ⟨p', hl, hq⟩
          rcases List.eq_nil_or_concat' p' with rfl | ⟨p'', j, rfl⟩
          · exact Or.inr (h.forest.unique hq (hchild i hi hp))
          · rw [List.append_assoc, List.singleton_append] at hq
            obtain ⟨x, hx⟩ := h.forest.ancestor hq
            obtain ⟨-, y, -, hlink⟩ := h.forest.parent hx
            exact Or.inl ⟨p'', j, List.mem_range.mpr (tableLink_eq_some.mp hlink).1.1, (by simp at hl; omega), hq⟩
      · rw [if_neg hp]
        refine ⟨nofun, fun ⟨p', _, hq⟩ => ?_⟩
        obtain ⟨x, hx⟩ := h.forest.ancestor hq
        exact absurd (h.present_of_child ht hx) hp
    refine ⟨fun q => ?_, ?_⟩
    · rw [Machine.tablesBelow, List.mem_flatMap]
      constructor
      · rintro ⟨i, hi, hq⟩
        obtain ⟨p', hl, hq⟩ := (hone i hi q).mp hq
        exact ⟨p', i, hi, hl, hq⟩
      · rintro ⟨p', i, hi, hl, hq⟩
        exact ⟨i, hi, (hone i hi q).mpr ⟨p', hl, hq⟩⟩
    · rw [Machine.tablesBelow, List.nodup_flatMap]
      refine ⟨fun i hi => ?_, List.Pairwise.imp_of_mem (fun {i j} hi hj hij => ?_) his⟩
      · split
        · rename_i hp
          refine List.nodup_append.mpr ⟨(hbelow i hi hp).2, List.nodup_singleton _, fun x hx y hy => ?_⟩
          rintro rfl
          obtain ⟨p', j, -, -, hq⟩ := ((hbelow i hi hp).1 x).mp hx
          rw [List.mem_singleton.mp hy, hchild i hi hp] at hq
          have hlen := congrArg List.length (Use.node.inj hq).2
          simp at hlen
          omega
        · exact List.nodup_nil
      · -- Paths through different entries differ.
        intro x hx hy
        obtain ⟨p', -, hq⟩ := (hone i hi x).mp hx
        obtain ⟨p'', -, hq'⟩ := (hone j hj x).mp hy
        have hpath := (Use.node.inj (hq.symm.trans hq')).2
        have hlen : p'.length = p''.length := by
          have := congrArg List.length hpath
          simpa using this
        exact hij (List.cons.inj (List.append_inj hpath hlen).2).1

theorem removeSpace (h : Trees kernel m use) : Trees kernel m fun f => (use f).destroy r where
  forest := h.forest.removeTree fun _ _ _ => Use.destroy_eq_node
  low hf := h.low (Use.destroy_eq_node.mp hf).1
  huge hf := h.huge (Use.destroy_eq_node.mp hf).1
  space ha := by
    obtain ⟨ha, hne⟩ := Use.destroy_eq_space.mp ha
    obtain ⟨hk, hroot, hw⟩ := h.space ha
    exact ⟨hk, Use.destroy_eq_node.mpr ⟨hroot, hne⟩, hw⟩
  space_inj ha hb := h.space_inj (Use.destroy_eq_space.mp ha).1 (Use.destroy_eq_space.mp hb).1
  range hf := h.range (Use.destroy_eq_node.mp hf).1

end Trees

variable {kernel : Nat} {use : Nat → Use}

theorem SharedSlots.removeSpace {r : Nat} {m : Mem} (h : SharedSlots kernel m use)
    (hr : r ≠ kernel) : SharedSlots kernel m fun f => (use f).destroy r :=
  ⟨Use.destroy_eq_node.mpr ⟨h.root, hr.symm⟩, h.present, fun hx => h.same (Use.destroy_eq_node.mp hx).1⟩

section Destroy
variable {kernel : Nat} {s : Machine} {use : Nat → Use} {a r : Nat}

theorem Trees.pml4_eq (h : Trees kernel s.mem use) (ha : use a = .space r) : s.pml4 (.page a) = r := by
  obtain ⟨-, hr, hw⟩ := h.space ha
  have hlt := (h.range hr).2
  rw [Machine.pml4, hw, BitVec.toNat_ofNat, Nat.mod_eq_of_lt (by omega)]
  omega

/-- `vmm_destroy_address_space` frees the tables of its tree and the page of the address space, each of them once. -/
theorem Trees.freedPages_spec (h : Trees kernel s.mem use) (ha : use a = .space r) :
    (∀ q, q ∈ s.freedPages a ↔ q = a ∨ ∃ p, use q = .node r p) ∧ (s.freedPages a).Nodup := by
  obtain ⟨hk, hroot, -⟩ := h.space ha
  have hslots : (List.range' 1 510).Nodup := List.nodup_range'
  obtain ⟨hmem, hnodup⟩ := h.tablesBelow_spec hk (n := 3) hroot (by simp) hslots fun i hi => by
    have := List.mem_range'_1.mp hi
    exact ⟨by omega, fun hc => by omega⟩
  rw [Machine.freedPages, h.pml4_eq ha]
  refine ⟨fun q => ?_, List.nodup_append.mpr ⟨hnodup, ?_, fun x hx y hy => ?_⟩⟩
  · rw [List.mem_append, hmem q, List.mem_cons, List.mem_singleton]
    constructor
    · rintro (⟨p', i, -, -, hq⟩ | rfl | rfl)
      · exact Or.inr ⟨_, hq⟩
      · exact Or.inr ⟨[], hroot⟩
      · exact Or.inl rfl
    · rintro (rfl | ⟨p, hq⟩)
      · exact Or.inr (Or.inr rfl)
      · rcases List.eq_nil_or_concat' p with rfl | ⟨p', i, rfl⟩
        · exact Or.inr (Or.inl (h.forest.root hq))
        · refine Or.inl ⟨p', i, ?_, ?_, hq⟩
          · obtain ⟨x, hx⟩ := h.forest.ancestor hq
            obtain ⟨-, y, hy, hlink⟩ := h.forest.parent hx
            obtain ⟨⟨hi, hin⟩, -⟩ := tableLink_eq_some.mp hlink
            rw [List.mem_range'_1]
            have hy := h.forest.root hy
            subst hy
            have : ¬(i = 0 ∨ i = 511) := fun hc => hin ⟨rfl, hk, hc⟩
            omega
          · have hlen := h.forest.length_le hq
            rw [List.length_append, List.length_singleton] at hlen
            omega
  · have hne : r ≠ a := by rintro rfl; cases ha.symm.trans hroot
    simp [hne]
  · rintro rfl
    obtain ⟨p', i, -, -, hq⟩ := (hmem x).mp hx
    rcases List.mem_cons.mp hy with rfl | hy
    · cases p' <;> cases hroot.symm.trans hq
    · rw [List.mem_singleton.mp hy, ha] at hq
      cases hq

theorem Owned.removeSpace (ho : Owned kernel s.pmm use) (h : Trees kernel s.mem use) (ha : use a = .space r) :
    Owned kernel (s.vmmDestroyAddressSpace a).pmm fun f => (use f).destroy r := by
  obtain ⟨hk, -, -⟩ := h.space ha
  obtain ⟨hmem, -⟩ := h.freedPages_spec ha
  have hfree : ∀ f, (use f).destroy r = .free ↔ (s.vmmDestroyAddressSpace a).pmm.Free f := by
    intro f
    rw [Machine.vmmDestroyAddressSpace_pmm, Pmm.free_freeEach_iff, hmem f, Use.destroy_eq_free, ho.free_iff f]
    refine or_congr_right ⟨?_, ?_⟩
    · rintro (hf | ⟨p, -, hf⟩)
      · have := ho.space_lt hf
        exact ⟨Or.inl (h.space_inj hf ha), by omega, this.2⟩
      · have := (h.range hf).1
        exact ⟨Or.inr ⟨p, hf⟩, by omega, ho.node_lt hf hk⟩
    · rintro ⟨rfl | ⟨p, hf⟩, -⟩
      · exact Or.inl ha
      · exact Or.inr ⟨p, by have := h.forest.length_le hf; omega, hf⟩
  have htotal : (s.vmmDestroyAddressSpace a).pmm.totalPages = s.pmm.totalPages := by
    rw [Machine.vmmDestroyAddressSpace_pmm, Pmm.freeEach_totalPages]
  refine ⟨hfree, fun h0 => ?_, htotal ▸ ho.total, fun hf => htotal ▸ ho.node_lt (Use.destroy_eq_node.mp hf).1,
    fun ha => htotal ▸ ho.space_lt (Use.destroy_eq_space.mp ha).1⟩
  rw [Machine.vmmDestroyAddressSpace_pmm, Pmm.free_freeEach_iff] at h0
  exact h0.elim ho.zero fun h => h.2.1 rfl

end Destroy

/-! ### Address spaces of mapped pages

The same operations where the mapped pages are labelled too: their tables form a forest once the labels of the pages are
dropped. -/

/-- The label of a page as far as tables go: what a page table maps is the caller's. -/
def Use.table : Use → Use
  | .node r p => if p.length ≤ 3 then .node r p else .held
  | u => u

namespace Use
variable {u : Use} {r : Nat} {p : List Nat}

theorem table_eq_node : u.table = .node r p ↔ u = .node r p ∧ p.length ≤ 3 := by
  cases u with
  | node r' p' =>
    rw [table]
    split
    · rename_i hl
      exact ⟨fun h => ⟨h, by cases h; exact hl⟩, fun h => h.1⟩
    · rename_i hl
      exact ⟨nofun, fun h => absurd (by cases h.1; exact h.2) hl⟩
  | free | held | space => exact ⟨nofun, fun h => by cases h.1⟩

theorem table_eq_space : u.table = .space r ↔ u = .space r := by
  cases u with
  | node r' p' =>
    rw [table]
    split <;> exact ⟨nofun, nofun⟩
  | free | held | space => exact Iff.rfl

theorem table_eq_free : u.table = .free ↔ u = .free := by
  cases u with
  | node r' p' =>
    rw [table]
    split <;> exact ⟨nofun, nofun⟩
  | free | held | space => exact Iff.rfl

end Use

theorem Use.table_destroy_eq_free {u : Use} {r : Nat} : u.table.destroy r = .free ↔ u.destroy r = .free := by
  simp only [Use.destroy_eq_free, Use.table_eq_free, Use.table_eq_space, Use.table_eq_node]
  exact or_congr_right (or_congr_right
    (exists_congr fun p => ⟨fun h => ⟨h.1, h.2.1⟩, fun h => ⟨h.1, h.2, Nat.le_of_lt_succ h.1⟩⟩))

/-- The tables of labelled mappings form a forest. -/
theorem Tables.trees {m : Mem} (h : Tables kernel m use) :
    Trees kernel m fun f => (use f).table where
  forest := {
    label := fun hf hf' => Use.node.inj ((Use.table_eq_node.mp hf).1.symm.trans (Use.table_eq_node.mp hf').1)
    root := fun hf => h.root (Use.table_eq_node.mp hf).1
    child := fun {f r p i g} hf hl hlink => by
      obtain ⟨hf, -⟩ := Use.table_eq_node.mp hf
      obtain ⟨hin, hlink⟩ := tableLink_eq_some.mp hlink
      refine Use.table_eq_node.mpr ⟨?_, hl⟩
      rw [h.child hf (by omega) hin.1 hlink, owner]
      split
      · rename_i hs
        obtain ⟨rfl, hi⟩ := hs
        obtain rfl := h.root hf
        have hk : f = kernel := by
          by_contra hne
          exact hin.2 ⟨rfl, hne, hi⟩
        rw [hk]
      · rfl
    parent := fun {g r i p} hg => by
      obtain ⟨hg, hl⟩ := Use.table_eq_node.mp hg
      obtain ⟨hi, -, f, hf, hlink⟩ := h.parent hg
      refine ⟨hl, f, Use.table_eq_node.mpr ⟨hf, Nat.le_of_lt hl⟩, tableLink_eq_some.mpr ⟨⟨hi, fun hs => ?_⟩, hlink⟩⟩
      obtain rfl := List.length_eq_zero_iff.mp hs.1
      obtain rfl := h.root hf
      have hown := h.child hf (by simp) hi hlink
      rw [owner, if_pos ⟨rfl, hs.2.2⟩] at hown
      exact hs.2.1 (Use.node.inj (hg.symm.trans hown)).1 }
  low hf hl hin hp hh := h.low (Use.table_eq_node.mp hf).1 hl hin.1
    (link_eq_some.mpr ⟨hp, by rw [hh]; exact fun hc => Bool.false_ne_true hc.2, rfl⟩)
  huge hf hl hin hh := by
    obtain ⟨hf, -⟩ := Use.table_eq_node.mp hf
    have hp := h.absent hf hl hin.1 hh
    obtain ⟨h2, hr, hu⟩ := h.huge hf hl hin.1 hp hh
    exact ⟨h2, hr, hp, hu⟩
  space ha := by
    obtain ⟨hr, hroot, hw⟩ := h.space (Use.table_eq_space.mp ha)
    exact ⟨hr, Use.table_eq_node.mpr ⟨hroot, by simp⟩, hw⟩
  space_inj ha hb := h.space_inj (Use.table_eq_space.mp ha) (Use.table_eq_space.mp hb)
  range hf := h.range (Use.table_eq_node.mp hf).1

theorem Owned.table {pmm : Pmm} (h : Owned kernel pmm use) :
    Owned kernel pmm fun f => (use f).table :=
  ⟨fun f => Use.table_eq_free.trans (h.free_iff f), h.zero, h.total, fun hf => h.node_lt (Use.table_eq_node.mp hf).1,
    fun ha => h.space_lt (Use.table_eq_space.mp ha)⟩

namespace Layout
variable {s s' : Machine} {use : Nat → Use} {a r : Nat}

/-- The result of `vmm_create_address_space`: two free pages, the address space and its PML4. -/
structure NewSpace (s : Machine) (use : Nat → Use) (a r : Nat) (s' : Machine) (use' : Nat → Use) : Prop where
  space_free : use a = .free
  root_free : use r = .free
  space : use' a = .space r
  root : use' r = .node r []
  others : ∀ {f}, f ≠ a → f ≠ r → use' f = use f
  layout : Layout s' use'
  grows : Grows (fun _ => False) s.mem use s'.mem use'
  empty : ∀ i, i ≠ 0 → i ≠ 511 → s'.mem r i = 0
  kernelPml4 : s'.kernelPml4 = s.kernelPml4
  log : s'.log = .create a :: s.log
  totalPages : s'.pmm.totalPages = s.pmm.totalPages

theorem vmmCreateAddressSpace (h : Layout s use) {as : Option Nat} (hcall : s.vmmCreateAddressSpace = .ok (as, s')) :
    (as = none ∧ s' = s ∧ ∀ f, use f ≠ .free) ∨ ∃ a r use', as = some a ∧ NewSpace s use a r s' use' := by
  obtain ⟨rfl, -, h0 | ⟨rfl, hnone⟩⟩ | ⟨a, r, rfl, hc⟩ := Machine.vmmCreateAddressSpace_cases hcall
  · exact absurd h0 h.owned.zero
  · exact Or.inl ⟨rfl, rfl, fun f hf => hnone f ((h.owned.free_iff f).mp hf)⟩
  · have ha := (h.owned.free_iff a).mpr hc.freeSpace
    have hr := (h.owned.free_iff r).mpr (Pmm.free_takePage_iff.mp hc.freePml4).1
    have hpos := h.owned.pos hr
    -- The two shared entries are read from the kernel's PML4, which none of the writes reaches.
    obtain ⟨h0, h511⟩ := hc.slots (by rintro rfl; cases ha.symm.trans h.tables.kernelRoot)
      (by rintro rfl; cases hr.symm.trans h.tables.kernelRoot)
    have hspace : addSpace use a r a = .space r := (addSpace_eq_space ha hr hc.ne).mpr (Or.inr ⟨rfl, rfl⟩)
    have hroot : addSpace use a r r = .node r [] := (addSpace_eq_node ha hr).mpr (Or.inr ⟨rfl, rfl, rfl⟩)
    refine Or.inr ⟨a, r, addSpace use a r, rfl, ha, hr, hspace, hroot, addSpace_of_ne, ⟨?_, ?_, fun b => ?_, ?_⟩,
      .newSpace ha hr hspace hroot addSpace_of_ne hc.mem, hc.empty, hc.kernelPml4, hc.log, by rw [hc.pmm]; rfl⟩
    · rw [hc.kernelPml4]
      exact h.tables.addSpace ha hr hc.ne ⟨hpos.1, Nat.lt_of_lt_of_le hpos.2 h.owned.total⟩ hc.mem hc.pointer h0
        h511 hc.empty
    · rw [hc.kernelPml4]
      exact h.owned.addSpace hc
    · simp only [hc.log, alive, Bool.or_eq_true, beq_iff_eq, h.live b, addSpace_eq_space ha hr hc.ne]
      exact ⟨fun hb => hb.elim (fun hb => ⟨r, Or.inr ⟨hb, rfl⟩⟩) fun ⟨r', hb⟩ => ⟨r', Or.inl hb⟩,
        fun ⟨r', hb⟩ => hb.elim (fun hb => Or.inr ⟨r', hb⟩) fun hb => Or.inl hb.1⟩
    · rw [hc.log]
      exact h.once

theorem destroy_totalPages (s : Machine) (a : Nat) :
    (s.vmmDestroyAddressSpace a).pmm.totalPages = s.pmm.totalPages := by
  rw [Machine.vmmDestroyAddressSpace_pmm, Pmm.freeEach_totalPages]

/-- Destroying an address space frees it, its PML4 and its tables, loses the pages that they map, and changes nothing
    else. -/
theorem vmmDestroyAddressSpace (h : Layout s use) (ha : use a = .space r) :
    Layout (s.vmmDestroyAddressSpace a) fun f => (use f).destroy r := by
  have ho := h.owned.table.removeSpace h.tables.trees (Use.table_eq_space.mpr ha)
  have htotal := destroy_totalPages s a
  refine ⟨h.tables.destroy (h.tables.space ha).1,
    ⟨fun f => Use.table_destroy_eq_free.symm.trans (ho.free_iff f), ho.zero, ho.total,
      fun hf => htotal ▸ h.owned.node_lt (Use.destroy_eq_node.mp hf).1,
      fun hb => htotal ▸ h.owned.space_lt (Use.destroy_eq_space.mp hb).1⟩,
    fun b => ?_, (h.live a).mpr ⟨r, ha⟩, h.once⟩
  simp only [Machine.vmmDestroyAddressSpace, alive, Bool.and_eq_true, bne_iff_ne, ne_eq, h.live b, Use.destroy_eq_space]
  constructor
  · rintro ⟨hba, r', hb⟩
    exact ⟨r', hb, fun hrr => hba (h.tables.space_inj hb (hrr ▸ ha))⟩
  · rintro ⟨r', hb, hrr⟩
    refine ⟨?_, r', hb⟩
    rintro rfl
    exact hrr (Use.space.inj (hb.symm.trans ha))

/-- An address space that was made on the way is destroyed again. -/
theorem grows_destroy {scope : Nat → Prop} {s' : Machine} {use' : Nat → Use} (h : Layout s use)
    (hg : Grows scope s.mem use s'.mem use') (hr : use r = .free) :
    Grows scope s.mem use s'.mem fun f => (use' f).destroy r := by
  -- What was labelled before belongs to other trees.
  have hother : ∀ {f}, use f ≠ .free → (use' f).destroy r = use f := fun {f} hf => by
    rw [hg.keeps hf]
    generalize hu : use f = u at hf
    cases u with
    | free => exact absurd rfl hf
    | held => rfl
    | space r' =>
      refine Use.destroy_eq_space.mpr ⟨rfl, ?_⟩
      rintro rfl
      cases hr.symm.trans (h.tables.space hu).2.1
    | node r' p =>
      refine Use.destroy_eq_node.mpr ⟨rfl, ?_⟩
      rintro rfl
      cases hr.symm.trans (h.tables.node_root hu)
  refine ⟨fun {f} hf => ?_, hother, hg.mem, fun hf => hg.huge (Use.destroy_eq_node.mp hf).1⟩
  by_contra hne
  exact hne ((hother hne).symm.trans hf)

end Layout
end SamOS
