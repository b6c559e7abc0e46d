import SamOS.AddressSpaces
import SamOS.Lib.Lts

/-! The life of one address space: `vmm_create_address_space`, any sequence of `vmm_map` and `vmm_unmap` away from the
    shared entries, `vmm_destroy_address_space`. Afterwards the physical memory manager is as it was before, whatever
    was mapped and wherever the pages came from. -/

namespace SamOS
open Lts

/-- A call on the address space, for an address outside the shared entries of its PML4. -/
inductive MapCall where
  | map (virt phys : Nat) (flags : Word)
  | unmap (virt : Nat)

def MapCall.virt : MapCall → Nat
  | .map virt _ _ => virt
  | .unmap virt => virt

/-- The calls that do not panic. -/
def mapCalls (a : Nat) : System Machine MapCall where
  init _ := True
  step s c s' := (1 ≤ pageIndex 0 c.virt ∧ pageIndex 0 c.virt ≤ 510) ∧
    match c with
    | .map virt phys flags => s.vmmMap (.page a) virt phys flags = .ok s'
    | .unmap virt => s.vmmUnmap (.page a) virt = .ok s'

/-- Since `s`, the pages that were free have gone to the address space `a` and the tables of its PML4 `r` only, and
    all other pages are as they were. -/
structure Holds (s : Machine) (a r : Nat) (s' : Machine) (use : Nat → Use) : Prop where
  trees : Trees 0 s'.mem use
  owned : Owned 0 s'.pmm use
  space : use a = .space r
  others : ∀ {f}, ¬s.pmm.Free f → use f = .held ∧ s'.mem f = s.mem f
  own : ∀ {f}, s.pmm.Free f → use f = .free ∨ f = a ∨ ∃ p, use f = .node r p
  taken : ∃ T, s.pmm.Taken T s'.pmm

namespace Holds
variable {s s₁ s₂ : Machine} {a r : Nat} {use : Nat → Use}

theorem created (htotal : s.pmm.totalPages ≤ 2 ^ 40) (hc : Machine.Created s a r s₁) : ∃ use, Holds s a r s₁ use := by
  classical
  have hr := (Pmm.free_takePage_iff.mp hc.freePml4).1
  have hr0 : r ≠ 0 := by rintro rfl; exact hc.zero hr
  -- Before the call there is no table: pages are free or held.
  let use₀ : Nat → Use := fun f => if s.pmm.Free f then .free else .held
  have hfree : ∀ f, use₀ f = .free ↔ s.pmm.Free f := fun f => by
    by_cases hf : s.pmm.Free f <;> simp [use₀, hf]
  have hnode : ∀ {f r p}, use₀ f ≠ .node r p := fun {f r p} h => by
    by_cases hf : s.pmm.Free f <;> simp [use₀, hf] at h
  have hspace : ∀ {f r}, use₀ f ≠ .space r := fun {f r} h => by
    by_cases hf : s.pmm.Free f <;> simp [use₀, hf] at h
  have howned : Owned 0 s.pmm use₀ := ⟨hfree, hc.zero, htotal, fun h => absurd h hnode, fun h => absurd h hspace⟩
  have htrees : Trees 0 s.mem use₀ :=
    ⟨⟨fun h => absurd h hnode, fun h => absurd h hnode, fun h => absurd h hnode, fun h => absurd h hnode⟩,
      fun h => absurd h hnode, fun h => absurd h hnode, fun h => absurd h hspace, fun h => absurd h hspace,
      fun h => absurd h hnode⟩
  have hne := hc.ne
  have hset : ∀ {f}, f ≠ a → f ≠ r → addSpace use₀ a r f = use₀ f := addSpace_of_ne
  refine ⟨addSpace use₀ a r, htrees.addSpace howned hc hr0, howned.addSpace hc, ?_, fun {f} hf => ?_, fun {f} hf => ?_,
    ⟨insert r (insert a ∅), ?_⟩⟩
  · exact (addSpace_eq_space ((hfree a).mpr hc.freeSpace) ((hfree r).mpr hr) hne).mpr (Or.inr ⟨rfl, rfl⟩)
  · have hfa : f ≠ a := by rintro rfl; exact hf hc.freeSpace
    have hfr : f ≠ r := by rintro rfl; exact hf hr
    exact ⟨by rw [hset hfa hfr]; simp [use₀, hf], hc.mem f hfa hfr⟩
  · by_cases hfa : f = a
    · exact Or.inr (Or.inl hfa)
    by_cases hfr : f = r
    · exact Or.inr (Or.inr ⟨[], (addSpace_eq_node ((hfree a).mpr hc.freeSpace) ((hfree r).mpr hr)).mpr
        (Or.inr ⟨hfr, rfl, rfl⟩)⟩)
    · exact Or.inl (by rw [hset hfa hfr]; exact (hfree f).mpr hf)
  · rw [hc.pmm]
    exact ((Pmm.Taken.refl s.pmm).take hc.freeSpace).take hc.freePml4

theorem writeLeaf (h : Holds s a r s₁ use) {pt i : Nat} {p : List Nat} {w : Word} (hpt : use pt = .node r p)
    (hl : p.length = 3) : Holds s a r { s₁ with mem := s₁.mem.write pt i w } use where
  trees := h.trees.writeLeaf hpt hl
  owned := h.owned
  space := h.space
  others hf := by
    obtain ⟨hheld, hmem⟩ := h.others hf
    refine ⟨hheld, (Mem.write_of_ne _ _ _ ?_).trans hmem⟩
    rintro rfl
    cases hheld.symm.trans hpt
  own := h.own
  taken := h.taken

theorem grown (h : Holds s a r s₁ use) {use' : Nat → Use} {way : List Nat} (hg : Grown 0 r way s₁ use s₂ use') :
    Holds s a r s₂ use' where
  trees := hg.trees
  owned := hg.owned
  space := hg.grows.space h.space
  others {f} hf := by
    obtain ⟨hheld, hmem⟩ := h.others hf
    have hne : use f ≠ .free := by rw [hheld]; exact nofun
    exact ⟨(hg.grows.keeps hne).trans hheld, (hg.grows.other hne (by rw [hheld]; exact nofun)).trans hmem⟩
  own hf := by
    rcases h.own hf with hf | hf | ⟨p, hf⟩
    · exact (hg.grows.fresh hf).imp id fun ⟨p, hp, _⟩ => Or.inr ⟨p, hp⟩
    · exact Or.inr (Or.inl hf)
    · exact Or.inr (Or.inr ⟨p, hg.grows.node hf⟩)
  taken := by
    obtain ⟨T, hT⟩ := h.taken
    obtain ⟨U, hU⟩ := hg.taken
    exact ⟨T ∪ U, hT.trans hU⟩

/-- Away from the shared entries a walk stays in the tree of the address space. -/
theorem tree (h : Holds s a r s₁ use) (virt : Nat) (hv : 1 ≤ pageIndex 0 virt ∧ pageIndex 0 virt ≤ 510) :
    s₁.pml4 (.page a) = r ∧ treeOf 0 r virt = r ∧ ¬(pageIndex 0 virt = 0 ∨ pageIndex 0 virt = 511) := by
  have hslot : ¬(pageIndex 0 virt = 0 ∨ pageIndex 0 virt = 511) := by omega
  exact ⟨h.trees.pml4_eq h.space, if_neg fun hc => hslot hc.2, hslot⟩

/-- One call: tables are made from free pages, and the entries of page tables change. -/
theorem step (h : Holds s a r s₁ use) {c : MapCall} (hstep : (mapCalls a).step s₁ c s₂) :
    ∃ use', Holds s a r s₂ use' := by
  obtain ⟨hv, hcall⟩ := hstep
  obtain ⟨hk, hroot, -⟩ := h.trees.space h.space
  cases c with
  | map virt phys flags =>
    obtain ⟨hpml4, htree, hslot⟩ := h.tree virt hv
    obtain ⟨s₃, use₃, pt, hg, hpt, -, rfl⟩ := h.trees.vmmMap h.owned (by rw [hpml4]; exact hroot)
      (fun hc => absurd hc hslot) hcall
    rw [hpml4, htree] at hg hpt
    exact ⟨use₃, (h.grown hg).writeLeaf hpt (pagePath_length _ _)⟩
  | unmap virt =>
    obtain ⟨hpml4, htree, hslot⟩ := h.tree virt hv
    -- A user tree maps no 2 MiB pages.
    have hhuge : ∀ {pd}, use pd = .node (treeOf 0 (s₁.pml4 (.page a)) virt) (pagePath virt 2) →
        (s₁.mem pd (pageIndex 2 virt)).huge = false := fun hpd =>
      h.trees.not_huge hpd (by rw [pagePath_length]; decide)
        ⟨pageIndex_lt _ _, fun hc => by rw [pagePath_length] at hc; omega⟩ (Or.inr (by rw [hpml4, htree]; exact hk))
    rcases (h.trees.vmmUnmap (by rw [hpml4]; exact hroot) (fun hc => absurd hc hslot) hhuge hcall).2 with
      ⟨rfl, -⟩ | ⟨pt, hpt, rfl⟩
    · exact ⟨use, h⟩
    · rw [hpml4, htree] at hpt
      exact ⟨use, h.writeLeaf hpt (pagePath_length _ _)⟩

/-- What was taken since `s` is what `vmm_destroy_address_space` frees. -/
theorem freed (h : Holds s a r s₁ use) :
    (s₁.vmmDestroyAddressSpace a).pmm = s.pmm ∧ ∀ f ∈ s₁.freedPages a, ¬s₁.pmm.Free f := by
  obtain ⟨hmem, hnodup⟩ := h.trees.freedPages_spec h.space
  obtain ⟨T, hT⟩ := h.taken
  have hused : ∀ f ∈ s₁.freedPages a, use f ≠ .free ∧ use f ≠ .held := fun f hf => by
    rcases (hmem f).mp hf with rfl | ⟨p, hp⟩
    · rw [h.space]
      exact ⟨nofun, nofun⟩
    · rw [hp]
      exact ⟨nofun, nofun⟩
  have hnotFree : ∀ f ∈ s₁.freedPages a, ¬s₁.pmm.Free f := fun f hf hfree =>
    (hused f hf).1 ((h.owned.free_iff f).mpr hfree)
  have hsub : ∀ f ∈ s₁.freedPages a, f ∈ T ∧ f ≠ 0 := fun f hf => by
    have hfree : s.pmm.Free f := by
      by_contra hn
      exact (hused f hf).2 (h.others hn).1
    refine ⟨hT.mem_iff.mpr ⟨hfree, hnotFree f hf⟩, ?_⟩
    rcases (hmem f).mp hf with rfl | ⟨p, hp⟩
    · have := h.owned.space_lt h.space
      omega
    · have := h.trees.range hp
      omega
  have hall : T \ (s₁.freedPages a).toFinset = ∅ := by
    refine Finset.sdiff_eq_empty_iff_subset.mpr fun f hf => List.mem_toFinset.mpr ((hmem f).mpr ?_)
    obtain ⟨hfree, hn⟩ := hT.mem_iff.mp hf
    rcases h.own hfree with hlabel | hlabel
    · exact absurd ((h.owned.free_iff f).mp hlabel) hn
    · exact hlabel
  refine ⟨?_, hnotFree⟩
  have hgive := hT.giveAll hnodup hsub
  rw [hall] at hgive
  rw [Machine.vmmDestroyAddressSpace_pmm]
  exact hgive.eq_of_empty

end Holds

/-- Teardown is exact: making an address space, mapping and unmapping in it, and destroying it leaves the bitmap and
    the counter as they were, frees every page at most once and only while it is used, and leaves every page that was
    not free, the kernel's tables among them, as it was. Physical addresses have at most 52 bits. -/
theorem teardown_exact (s s₁ s₂ : Machine) (a : Nat) (calls : List MapCall) (htotal : s.pmm.totalPages ≤ 2 ^ 40)
    (hcreate : s.vmmCreateAddressSpace = .ok (some a, s₁)) (hcalls : (mapCalls a).Path s₁ calls s₂) :
    (s₂.vmmDestroyAddressSpace a).pmm = s.pmm ∧
    (s₂.vmmDestroyAddressSpace a).pmm = (s₂.freedPages a).foldl Pmm.pmmFreePage s₂.pmm ∧
    (s₂.freedPages a).Nodup ∧ (∀ f ∈ s₂.freedPages a, ¬s₂.pmm.Free f) ∧
    ∀ f, ¬s.pmm.Free f → (s₂.vmmDestroyAddressSpace a).mem f = s.mem f := by
  rcases Machine.vmmCreateAddressSpace_cases hcreate with ⟨hnone, -⟩ | ⟨a', r, ha, hc⟩
  · cases hnone
  cases ha
  obtain ⟨use, h⟩ := hcalls.invariant (I := fun s' => ∃ use, Holds s a r s' use)
    (fun ⟨use, h⟩ hs => h.step hs) (Holds.created htotal hc)
  obtain ⟨hpmm, hused⟩ := h.freed
  exact ⟨hpmm, s₂.vmmDestroyAddressSpace_pmm a, (h.trees.freedPages_spec h.space).2, hused, fun f hf => (h.others hf).2⟩

/-- A machine of 16 pages, of which page 0 and the kernel's PML4 in page 1 are used. -/
def smallMachine : Machine where
  mem _ _ := 0
  pmm := { bitmap := fun i => if i = 0 then 3 else 0, bitmapSize := 2, totalPages := 16, freePages := 14 }
  kernelPml4 := 1
  log := []

theorem teardown_exact_sample : ∃ s₁ s₂, smallMachine.vmmCreateAddressSpace = .ok (some 2, s₁) ∧
    (mapCalls 2).Path s₁ [.unmap 0x8000001000, .map 0x8000000000 0xA000 flagWrite] s₂ ∧
    (s₂.vmmDestroyAddressSpace 2).pmm = smallMachine.pmm := by
  have hcalls : ∀ s₁ s₂ s₃, s₁.vmmMap (.page 2) 0x8000000000 0xA000 flagWrite = .ok s₂ →
      s₂.vmmUnmap (.page 2) 0x8000001000 = .ok s₃ →
      (mapCalls 2).Path s₁ [.unmap 0x8000001000, .map 0x8000000000 0xA000 flagWrite] s₃ := fun _ _ _ hmap hunmap =>
    .snoc (.snoc .nil ⟨by decide, hmap⟩) ⟨by decide, hunmap⟩
  exact ⟨_, _, rfl, hcalls _ _ _ rfl rfl,
    (teardown_exact smallMachine _ _ 2 _ (by decide) rfl (hcalls _ _ _ rfl rfl)).1⟩

end SamOS
