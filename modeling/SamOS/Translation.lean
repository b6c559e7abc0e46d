import SamOS.VmmLayout

/-! Translations: the pages that a walk through the tables of an address space visits, what `vmm_virt_to_phys` finds
    there, and what the processor finds. Away from 2 MiB pages a walk visits only the nodes of its path, so a change
    elsewhere does not change the translation. -/

namespace SamOS

namespace Mem

/-- The page that a walk for `virt` reaches after `n` levels, a 2 MiB page being the end of it. -/
def tableAt (m : Mem) (pml4 virt : Nat) : Nat → Option Nat
  | 0 => some pml4
  | n + 1 => (m.tableAt pml4 virt n).bind fun t => link n (m t (pageIndex n virt))

/-- The walk for `virt` ends at a 2 MiB page. -/
def onHugePage (m : Mem) (pml4 virt : Nat) : Bool :=
  match m.tableAt pml4 virt 2 with
  | none => false
  | some pd => (m pd (pageIndex 2 virt)).present && (m pd (pageIndex 2 virt)).huge

/-- The walk of the processor: the physical address, and whether all entries on the way have the user bit. -/
def hardwareWalk (m : Mem) (pml4 virt : Nat) : Option (Nat × Bool) :=
  let e₀ := m pml4 (pageIndex 0 virt)
  let e₁ := m e₀.frame (pageIndex 1 virt)
  let e₂ := m e₁.frame (pageIndex 2 virt)
  let e₃ := m e₂.frame (pageIndex 3 virt)
  if ¬e₀.present then none
  else if ¬e₁.present then none
  else if e₁.huge then some (e₁.frame / 2 ^ 18 * 2 ^ 30 + virt % 2 ^ 30, e₀.user && e₁.user)
  else if ¬e₂.present then none
  else if e₂.huge then some (e₂.frame / 2 ^ 9 * 2 ^ 21 + virt % 2 ^ 21, e₀.user && e₁.user && e₂.user)
  else if ¬e₃.present then none
  else some (e₃.frame * 4096 + virt % 4096, e₀.user && e₁.user && e₂.user && e₃.user)

/-- The processor may write at `virt`: every entry of its walk has the write bit. -/
def writableAt (m : Mem) (pml4 virt : Nat) : Bool :=
  let e₀ := m pml4 (pageIndex 0 virt)
  let e₁ := m e₀.frame (pageIndex 1 virt)
  let e₂ := m e₁.frame (pageIndex 2 virt)
  let e₃ := m e₂.frame (pageIndex 3 virt)
  e₀.writable && e₁.writable && (e₁.huge || e₂.writable && (e₂.huge || e₃.writable))

/-- The entry of the page directory that the walk for `virt` comes to. -/
def pdEntry (m : Mem) (pml4 virt : Nat) : Option Word :=
  (m.tableAt pml4 virt 2).map fun pd => m pd (pageIndex 2 virt)

variable {m : Mem} {pml4 virt n : Nat}

theorem tableAt_succ {t : Nat} (h : m.tableAt pml4 virt n = some t) :
    m.tableAt pml4 virt (n + 1) = link n (m t (pageIndex n virt)) := by
  rw [tableAt, h, Option.bind_some]

theorem tableAt_eq_some {g : Nat} (h : m.tableAt pml4 virt (n + 1) = some g) :
    ∃ t, m.tableAt pml4 virt n = some t ∧ link n (m t (pageIndex n virt)) = some g := Option.bind_eq_some_iff.mp h

theorem tableAt_eq_none {k : Nat} (h : m.tableAt pml4 virt n = none) (hk : n ≤ k) :
    m.tableAt pml4 virt k = none := by
  induction hk with
  | refl => exact h
  | step _ ih => rw [tableAt, ih, Option.bind_none]

theorem tableAt_congr {m' : Mem} (h : ∀ k < n, ∀ t, m.tableAt pml4 virt k = some t → m' t = m t) :
    m'.tableAt pml4 virt n = m.tableAt pml4 virt n := by
  induction n with
  | zero => rfl
  | succ n ih =>
    rw [tableAt, tableAt, ih fun k hk => h k (by omega)]
    cases ht : m.tableAt pml4 virt n with
    | none => rfl
    | some t => rw [Option.bind_some, Option.bind_some, h n (by omega) t ht]

theorem tableAt_of_pagePath {va : Nat} (h : pagePath va n = pagePath virt n) :
    m.tableAt pml4 va n = m.tableAt pml4 virt n := by
  induction n with
  | zero => rfl
  | succ n ih =>
    obtain ⟨hi, hp⟩ := List.cons.inj h
    rw [tableAt, tableAt, ih hp, hi]

theorem onHugePage_of_pagePath {va : Nat} (h : pagePath va 3 = pagePath virt 3) :
    m.onHugePage pml4 va = m.onHugePage pml4 virt := by
  obtain ⟨hi, hp⟩ := List.cons.inj h
  unfold onHugePage
  rw [tableAt_of_pagePath hp, hi]

theorem link_of_ne_two (hn : n ≠ 2) (e : Word) : link n e = if e.present then some e.frame else none := by
  unfold link
  simp [hn]

/-- Away from 2 MiB pages `vmm_virt_to_phys` finds the page at the end of the walk. -/
theorem virtToPhys_eq (h : m.onHugePage pml4 virt = false) :
    m.virtToPhys pml4 virt = match m.tableAt pml4 virt 4 with
      | none => 0
      | some f => f * 4096 + virt % 4096 := by
  simp only [onHugePage, tableAt, Option.bind_some, link_of_ne_two (show 0 ≠ 2 by decide),
    link_of_ne_two (show 1 ≠ 2 by decide), link_of_ne_two (show 3 ≠ 2 by decide)] at h ⊢
  unfold virtToPhys
  by_cases h₀ : (m pml4 (pageIndex 0 virt)).present = true
  · simp only [h₀, if_true, Option.bind_some, not_true_eq_false, if_false] at h ⊢
    by_cases h₁ : (m (m pml4 (pageIndex 0 virt)).frame (pageIndex 1 virt)).present = true
    · simp only [h₁, if_true, Option.bind_some, not_true_eq_false, if_false] at h ⊢
      by_cases h₂ : (m (m (m pml4 (pageIndex 0 virt)).frame (pageIndex 1 virt)).frame (pageIndex 2 virt)).present = true
      · simp only [h₂, Bool.true_and, not_true_eq_false, if_false, link, true_and] at h ⊢
        simp only [h, Bool.false_eq_true, not_false_eq_true, if_true, Option.bind_some]
        split <;> simp_all
      · simp [h₂, link]
    · simp [h₁]
  · simp [h₀]

theorem hardwareWalk_congr {m' : Mem} (h : ∀ n ≤ 3, ∀ t, m.tableAt pml4 virt n = some t → m' t = m t) :
    m'.hardwareWalk pml4 virt = m.hardwareWalk pml4 virt := by
  have hnext : ∀ {n t}, m.tableAt pml4 virt n = some t → (m t (pageIndex n virt)).present = true →
      ¬(n = 2 ∧ (m t (pageIndex n virt)).huge = true) →
      m.tableAt pml4 virt (n + 1) = some (m t (pageIndex n virt)).frame := fun ht hp hh => by
    rw [tableAt_succ ht]
    exact link_eq_some.mpr ⟨hp, hh, rfl⟩
  dsimp only [hardwareWalk]
  rw [h 0 (by decide) pml4 rfl]
  by_cases h₀ : (m pml4 (pageIndex 0 virt)).present = true
  swap
  · simp [h₀]
  have ht₁ := hnext rfl h₀ (fun hc => by cases hc.1)
  rw [h 1 (by decide) _ ht₁]
  generalize m pml4 (pageIndex 0 virt) = e₀ at *
  by_cases h₁ : (m e₀.frame (pageIndex 1 virt)).present = true
  swap
  · simp [h₁]
  have ht₂ := hnext ht₁ h₁ (fun hc => by cases hc.1)
  rw [h 2 (by decide) _ ht₂]
  generalize m e₀.frame (pageIndex 1 virt) = e₁ at *
  by_cases hp : (m e₁.frame (pageIndex 2 virt)).present = true
  swap
  · simp [hp]
  by_cases hh : (m e₁.frame (pageIndex 2 virt)).huge = true
  · simp only [hh, if_true]
  · rw [h 3 (by decide) _ (hnext ht₂ hp fun hc => hh hc.2)]

end Mem

namespace Tables
variable {kernel : Nat} {m : Mem} {use : Nat → Use} {r virt n g : Nat}

theorem tableAt_node (h : Tables kernel m use) (hr : use r = .node r []) (hn : n < 4)
    (ht : m.tableAt r virt (n + 1) = some g) : use g = .node (treeOf kernel r virt) (pagePath virt (n + 1)) := by
  induction n generalizing g with
  | zero =>
    obtain ⟨t, ht, hlink⟩ := Mem.tableAt_eq_some ht
    cases ht
    exact h.child hr (by simp) (pageIndex_lt _ _) hlink
  | succ n ih =>
    obtain ⟨t, ht, hlink⟩ := Mem.tableAt_eq_some ht
    have hnode := ih (by omega) ht
    have hlen := pagePath_length virt (n + 1)
    have hchild := h.child hnode (by omega) (pageIndex_lt _ _) (by rw [hlen]; exact hlink)
    rwa [owner, if_neg (by simp [pagePath])] at hchild

theorem tableAt_or (h : Tables kernel m use) (hr : use r = .node r []) (hn : n ≤ 4) (ht : m.tableAt r virt n = some g) :
    ∃ p, use g = .node r p ∨ use g = .node (treeOf kernel r virt) p := by
  cases n with
  | zero =>
    cases ht
    exact ⟨[], Or.inl hr⟩
  | succ n => exact ⟨_, Or.inr (h.tableAt_node hr (by omega) ht)⟩

theorem tableAt_of_node (h : Tables kernel m use) (hr : use r = .node r []) (hn : n < 4)
    (hg : use g = .node (treeOf kernel r virt) (pagePath virt (n + 1))) : m.tableAt r virt (n + 1) = some g := by
  induction n generalizing g with
  | zero =>
    obtain ⟨-, -, f, hf, hlink⟩ := h.parent hg
    obtain rfl := h.root hf
    refine (Mem.tableAt_succ rfl).trans ?_
    unfold treeOf owner at hlink hf
    split at hlink
    · -- A shared entry: the same in both PML4s, the user bit apart.
      rename_i hi
      by_cases hk : r = kernel
      · rw [hk]
        exact hlink
      · obtain ⟨h0, h511⟩ := h.shared hr hk
        rcases hi.2 with hi | hi <;> rw [hi] at hlink ⊢
        · rw [h0, link_or_flagUser]
          exact hlink
        · rw [h511]
          exact hlink
    · exact hlink
  | succ n ih =>
    obtain ⟨-, -, f, hf, hlink⟩ := h.parent hg
    have hlen := pagePath_length virt (n + 1)
    rw [show (pagePath virt (n + 1)).length = n + 1 from hlen] at hlink
    rw [Mem.tableAt_succ (ih (by omega) hf)]
    exact hlink

/-- Below the shared entries of the PML4 all address spaces have the tables and pages of the kernel. -/
theorem tableAt_shared (h : Tables kernel m use) (hr : use r = .node r [])
    (hs : pageIndex 0 virt = 0 ∨ pageIndex 0 virt = 511) (hn : n < 4) :
    m.tableAt r virt (n + 1) = m.tableAt kernel virt (n + 1) := by
  have htree : ∀ x, treeOf kernel x virt = kernel := fun x => if_pos ⟨rfl, hs⟩
  refine Option.ext fun g => ⟨fun hg => ?_, fun hg => ?_⟩
  · have hnode := h.tableAt_node hr hn hg
    rw [htree] at hnode
    exact h.tableAt_of_node h.kernelRoot hn (by rw [htree]; exact hnode)
  · have hnode := h.tableAt_node h.kernelRoot hn hg
    rw [htree] at hnode
    exact h.tableAt_of_node hr hn (by rw [htree]; exact hnode)

theorem onHugePage_shared (h : Tables kernel m use) (hr : use r = .node r [])
    (hs : pageIndex 0 virt = 0 ∨ pageIndex 0 virt = 511) :
    m.onHugePage r virt = m.onHugePage kernel virt := by
  unfold Mem.onHugePage
  rw [h.tableAt_shared hr hs (by decide)]

theorem onHugePage_iff (h : Tables kernel m use) (hr : use r = .node r []) : m.onHugePage r virt = true ↔
    ∃ pd, use pd = .node (treeOf kernel r virt) (pagePath virt 2) ∧ (m pd (pageIndex 2 virt)).present = true ∧
      (m pd (pageIndex 2 virt)).huge = true := by
  unfold Mem.onHugePage
  constructor
  · intro hh
    cases ht : m.tableAt r virt 2 with
    | none => rw [ht] at hh; cases hh
    | some pd =>
      rw [ht] at hh
      exact ⟨pd, h.tableAt_node hr (by decide) ht, by simpa using hh⟩
  · rintro ⟨pd, hpd, hp, hh⟩
    rw [h.tableAt_of_node hr (by decide) hpd]
    simp [hp, hh]

theorem onHugePage_kernel (h : Tables kernel m use) (hr : use r = .node r []) (hh : m.onHugePage r virt = true) :
    m.onHugePage kernel virt = true := by
  obtain ⟨pd, hpd, hp, hh⟩ := (h.onHugePage_iff hr).mp hh
  have hk := (h.huge hpd (by rw [pagePath_length]; decide) (pageIndex_lt _ _) hp hh).2.1
  rw [hk] at hpd
  exact (h.onHugePage_iff h.kernelRoot).mpr ⟨pd, by rw [treeOf, owner_kernel]; exact hpd, hp, hh⟩

/-- No new 2 MiB page appears on any walk. -/
theorem onHugePage_of_grows {scope : Nat → Prop} {m' : Mem} {use' : Nat → Use} (h : Tables kernel m use)
    (h' : Tables kernel m' use') (hg : Grows scope m use m' use') (hr : use r = .node r [])
    (hh : m'.onHugePage r virt = true) : m.onHugePage r virt = true := by
  obtain ⟨pd, hpd, hp, hh⟩ := (h'.onHugePage_iff (hg.node hr)).mp hh
  exact (h.onHugePage_iff hr).mpr ⟨pd, hg.huge hpd (pagePath_length _ _) hp hh⟩

section Unchanged
variable {scope : Nat → Prop} {m' : Mem} {use' : Nat → Use}

/-- A change outside the trees of a walk does not reach the pages that it visits. -/
theorem mem_tableAt (h : Tables kernel m use) (hg : Grows scope m use m' use') (hr : use r = .node r [])
    (hsr : ¬scope r) (hst : ¬scope (treeOf kernel r virt)) (hn : n ≤ 4) (ht : m.tableAt r virt n = some g) :
    m' g = m g := by
  obtain ⟨p, hp | hp⟩ := h.tableAt_or hr hn ht
  · exact hg.mem_node hp hsr
  · exact hg.mem_node hp hst

theorem tableAt_eq (h : Tables kernel m use) (hg : Grows scope m use m' use') (hr : use r = .node r []) (hsr : ¬scope r)
    (hst : ¬scope (treeOf kernel r virt)) (hn : n ≤ 4) : m'.tableAt r virt n = m.tableAt r virt n := by
  induction n with
  | zero => rfl
  | succ n ih =>
    rw [Mem.tableAt, Mem.tableAt, ih (by omega)]
    cases ht : m.tableAt r virt n with
    | none => rfl
    | some t => rw [Option.bind_some, Option.bind_some, h.mem_tableAt hg hr hsr hst (by omega) ht]

theorem onHugePage_eq (h : Tables kernel m use) (hg : Grows scope m use m' use') (hr : use r = .node r [])
    (hsr : ¬scope r) (hst : ¬scope (treeOf kernel r virt)) : m'.onHugePage r virt = m.onHugePage r virt := by
  unfold Mem.onHugePage
  rw [h.tableAt_eq hg hr hsr hst (by decide)]
  cases ht : m.tableAt r virt 2 with
  | none => rfl
  | some pd =>
    dsimp only
    rw [h.mem_tableAt hg hr hsr hst (by decide) ht]

theorem virtToPhys_unchanged (h : Tables kernel m use) (hg : Grows scope m use m' use') (hr : use r = .node r [])
    (hsr : ¬scope r) (hst : ¬scope (treeOf kernel r virt)) (hh : m.onHugePage r virt = false) :
    m'.virtToPhys r virt = m.virtToPhys r virt := by
  rw [Mem.virtToPhys_eq hh, Mem.virtToPhys_eq (by rw [h.onHugePage_eq hg hr hsr hst]; exact hh),
    h.tableAt_eq hg hr hsr hst (Nat.le_refl _)]

end Unchanged

/-! ### Mapped pages -/

/-- Away from 2 MiB pages a translation leads to a mapped page. -/
theorem virtToPhys_node (h : Tables kernel m use) (hr : use r = .node r []) (hh : m.onHugePage r virt = false)
    (hv : m.virtToPhys r virt ≠ 0) : ∃ f, m.tableAt r virt 4 = some f ∧
      use f = .node (treeOf kernel r virt) (pagePath virt 4) ∧ m.virtToPhys r virt = f * 4096 + virt % 4096 := by
  rw [Mem.virtToPhys_eq hh] at hv ⊢
  cases ht : m.tableAt r virt 4 with
  | none => rw [ht] at hv; exact absurd rfl hv
  | some f => exact ⟨f, rfl, h.tableAt_node hr (by decide) ht, rfl⟩

theorem virtToPhys_ne_zero_iff (h : Tables kernel m use) (hr : use r = .node r []) (hh : m.onHugePage r virt = false) :
    m.virtToPhys r virt ≠ 0 ↔ ∃ f, m.tableAt r virt 4 = some f := by
  constructor
  · intro hv
    obtain ⟨f, hf, -⟩ := h.virtToPhys_node hr hh hv
    exact ⟨f, hf⟩
  · rintro ⟨f, hf⟩
    have hpos := (h.range (h.tableAt_node hr (by decide) hf)).1
    rw [Mem.virtToPhys_eq hh, hf]
    show f * 4096 + virt % 4096 ≠ 0
    omega

/-! ### The walk of the processor -/

/-- The tables of levels 1 and 2 map no large pages of their own. -/
theorem not_huge (h : Tables kernel m use) {t i : Nat} {p : List Nat} (ht : use t = .node r p) (hl : p.length < 2)
    (hi : i < 512) (hp : (m t i).present = true) : (m t i).huge = false := by
  by_contra hh
  have := (h.huge ht (by omega) hi hp (by simpa using hh)).1
  omega

/-- The processor lets user code reach every page that a user address space maps. -/
theorem hardwareWalk_user (h : Tables kernel m use) (hr : use r = .node r []) (hk : r ≠ kernel)
    (h511 : pageIndex 0 virt ≠ 511) {f : Nat} (hf : m.tableAt r virt 4 = some f) :
    m.hardwareWalk r virt = some (f * 4096 + virt % 4096, true) := by
  obtain ⟨t₃, ht₃, hl₃⟩ := Mem.tableAt_eq_some hf
  obtain ⟨t₂, ht₂, hl₂⟩ := Mem.tableAt_eq_some ht₃
  obtain ⟨t₁, ht₁, hl₁⟩ := Mem.tableAt_eq_some ht₂
  obtain ⟨t₀, ht₀, hl₀⟩ := Mem.tableAt_eq_some ht₁
  cases ht₀
  have hn₁ := h.tableAt_node hr (by decide) ht₁
  have hn₂ := h.tableAt_node hr (by decide) ht₂
  have hn₃ := h.tableAt_node hr (by decide) ht₃
  have hlen := fun n => pagePath_length virt n
  have hu₀ : (m r (pageIndex 0 virt)).user = true :=
    h.user hr (by simp) (pageIndex_lt _ _) hl₀ (Or.inl ⟨hk, fun hp => h511 hp.2⟩)
  have hu₁ : (m t₁ (pageIndex 1 virt)).user = true := by
    -- In the shared tables the bit was set when the page table below was made.
    by_cases htree : treeOf kernel r virt = kernel
    · rw [htree] at hn₁ hn₃
      obtain ⟨x, hx, hu⟩ := h.userPd hn₃
      rwa [h.unique hn₁ hx]
    · exact h.user hn₁ (by rw [hlen]; decide) (pageIndex_lt _ _) (by rw [hlen]; exact hl₁)
        (Or.inl ⟨htree, fun hp => by simp [pagePath] at hp⟩)
  have hu₂ : (m t₂ (pageIndex 2 virt)).user = true :=
    h.user hn₂ (by rw [hlen]; decide) (pageIndex_lt _ _) (by rw [hlen]; exact hl₂) (Or.inr (by rw [hlen]))
  have hu₃ : (m t₃ (pageIndex 3 virt)).user = true :=
    h.user hn₃ (by rw [hlen]; decide) (pageIndex_lt _ _) (by rw [hlen]; exact hl₃) (Or.inr (by rw [hlen]; decide))
  obtain ⟨hp₀, -, rfl⟩ := link_eq_some.mp hl₀
  obtain ⟨hp₁, -, rfl⟩ := link_eq_some.mp hl₁
  obtain ⟨hp₂, hh₂, rfl⟩ := link_eq_some.mp hl₂
  obtain ⟨hp₃, -, rfl⟩ := link_eq_some.mp hl₃
  have hh₁ := h.not_huge hn₁ (by rw [hlen]; decide) (pageIndex_lt _ _) hp₁
  simp only [true_and, Bool.not_eq_true] at hh₂
  simp only [Mem.hardwareWalk, hp₀, hp₁, hp₂, hp₃, hh₁, hh₂, hu₀, hu₁, hu₂, hu₃]
  rfl

theorem hardwareWalk_mapped (h : Tables kernel m use) (hr : use r = .node r []) {phys : Nat}
    (hw : m.hardwareWalk r virt = some (phys, true)) :
    ∃ f, m.tableAt r virt 4 = some f ∧ phys = f * 4096 + virt % 4096 := by
  simp only [Mem.hardwareWalk] at hw
  split at hw
  · cases hw
  rename_i hp₀
  simp only [not_not] at hp₀
  have ht₁ : m.tableAt r virt 1 = some (m r (pageIndex 0 virt)).frame :=
    (Mem.tableAt_succ rfl).trans ((Mem.link_of_ne_two (by decide) _).trans (if_pos hp₀))
  have hn₁ := h.tableAt_node hr (by decide) ht₁
  generalize (m r (pageIndex 0 virt)).frame = t₁ at hw ht₁ hn₁
  split at hw
  · cases hw
  rename_i hp₁
  simp only [not_not] at hp₁
  rw [if_neg (by rw [h.not_huge hn₁ (by rw [pagePath_length]; decide) (pageIndex_lt _ _) hp₁]; decide)] at hw
  have ht₂ : m.tableAt r virt 2 = some (m t₁ (pageIndex 1 virt)).frame :=
    (Mem.tableAt_succ ht₁).trans ((Mem.link_of_ne_two (by decide) _).trans (if_pos hp₁))
  have hn₂ := h.tableAt_node hr (by decide) ht₂
  generalize (m t₁ (pageIndex 1 virt)).frame = t₂ at hw ht₂ hn₂
  split at hw
  · cases hw
  rename_i hp₂
  simp only [not_not] at hp₂
  split at hw
  · -- A 2 MiB page has no user bit.
    rename_i hh
    rw [(h.huge hn₂ (by rw [pagePath_length]; decide) (pageIndex_lt _ _) hp₂ hh).2.2, Bool.and_false] at hw
    cases hw
  rename_i hh₂
  have ht₃ : m.tableAt r virt 3 = some (m t₂ (pageIndex 2 virt)).frame :=
    (Mem.tableAt_succ ht₂).trans (link_eq_some.mpr ⟨hp₂, fun hh => hh₂ hh.2, rfl⟩)
  generalize (m t₂ (pageIndex 2 virt)).frame = t₃ at hw ht₃
  split at hw
  · cases hw
  rename_i hp₃
  simp only [not_not] at hp₃
  refine ⟨_, (Mem.tableAt_succ ht₃).trans ((Mem.link_of_ne_two (by decide) _).trans (if_pos hp₃)), ?_⟩
  exact (Prod.mk.inj (Option.some.inj hw)).1.symm

/-- User code reaches no 2 MiB page. -/
theorem hardwareWalk_huge (h : Tables kernel m use) (hr : use r = .node r []) (hh : m.onHugePage r virt = true) :
    ∃ phys, m.hardwareWalk r virt = some (phys, false) := by
  unfold Mem.onHugePage at hh
  cases ht₂ : m.tableAt r virt 2 with
  | none => rw [ht₂] at hh; cases hh
  | some t₂ =>
    rw [ht₂] at hh
    simp only [Bool.and_eq_true] at hh
    obtain ⟨t₁, ht₁, hl₁⟩ := Mem.tableAt_eq_some ht₂
    obtain ⟨t₀, ht₀, hl₀⟩ := Mem.tableAt_eq_some ht₁
    cases ht₀
    have hlen := fun n => pagePath_length virt n
    have hn₁ := h.tableAt_node hr (by decide) ht₁
    have hn₂ := h.tableAt_node hr (by decide) ht₂
    obtain ⟨hp₀, -, rfl⟩ := link_eq_some.mp hl₀
    obtain ⟨hp₁, -, rfl⟩ := link_eq_some.mp hl₁
    have hh₁ := h.not_huge hn₁ (by rw [hlen]; decide) (pageIndex_lt _ _) hp₁
    have hu₂ := (h.huge hn₂ (by rw [hlen]; decide) (pageIndex_lt _ _) hh.1 hh.2).2.2
    simp only [Mem.hardwareWalk, hp₀, hp₁, hh₁, hh.1, hh.2, hu₂]
    exact ⟨_, by simp; rfl⟩

end Tables
end SamOS
