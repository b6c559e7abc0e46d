import SamOS.SpawnBudget

/-! The bytes that a load leaves at the addresses of an address space: those that were there, with the file bytes of
    the segments laid over them, one segment after the other. -/

namespace SamOS
open Function Result Loop

/-! ### The overlay -/

/-- The file bytes of the segment are laid over `bytes`. The tables look at 48 bits of an address. -/
def Phdr.overlay (ph : Phdr) (img : Image) (bytes : Nat → BitVec 8) : Nat → BitVec 8 :=
  forRange 0 ph.filesz
    (fun off bytes => update bytes ((ph.vaddr + off) % 2 ^ 48) (img.byte ((ph.offset + off) % 2 ^ 64))) bytes

/-- The segments of the image are laid over `bytes`. -/
def Image.overlay (img : Image) (bytes : Nat → BitVec 8) : Nat → BitVec 8 :=
  forRange 0 img.phnum (fun i bytes => if (img.phdr i).type = 1 then (img.phdr i).overlay img bytes else bytes) bytes

theorem Image.fold_overlay (img : Image) (bytes : Nat → BitVec 8) : img.fold (fun _ _ c => c)
    (fun i off bytes => update bytes (((img.phdr i).vaddr + off) % 2 ^ 48)
      (img.byte (((img.phdr i).offset + off) % 2 ^ 64))) bytes =
      img.overlay bytes := by
  unfold fold overlay Phdr.overlay
  simp only [forRange_id]

/-! ### Mapping -/

theorem Layout.mapNewPage_leaf {s s' : Machine} {use : Nat → Use} {a r va f r' : Nat} {flags : Word} {b : Bool}
    {p : List Nat} (h : Layout s use) (ha : use a = .space r) (hm : s.mapNewPage (.page a) va flags = .ok (b, s'))
    (hf : use f = .node r' p) (hp : p.length = 4) : s'.mem f = s.mem f := by
  unfold Machine.mapNewPage at hm
  rcases h.allocPage with ⟨g, hg, heq, hl₁⟩ | ⟨-, heq⟩ <;> rw [heq] at hm <;> dsimp only at hm
  swap
  · cases hm
    rfl
  rw [if_neg (by have := h.owned.pos hg; omega)] at hm
  obtain ⟨s₁, hmap, hm⟩ := of_bind_eq_ok hm
  cases hm
  have hne : ∀ {x}, use x ≠ .free → x ≠ g := fun hx hxg => hx (hxg ▸ hg)
  have hfg := hne (show use f ≠ .free by simp [hf])
  have hag := hne (show use a ≠ .free by simp [ha])
  have hl₂ := hl₁.of_held (update_self ..) fun x hx => Mem.zeroPage_of_ne s.mem hx
  -- Seen from the tables, a mapped page is a held one.
  have hheld : (update use g .held f).table = .held := by
    rw [update_of_ne hfg, hf, Use.table, if_neg (by omega)]
  obtain ⟨s₂, use₂, pt, -, hext, -, hpt, -, rfl⟩ :=
    hl₂.tableLayout.vmmMap (hl₂.has_of_space (by rw [update_of_ne hag]; exact ha)) hmap
  have hpt' : f ≠ pt := by
    rintro rfl
    rw [hext.keeps (by simp [hheld]), hheld] at hpt
    cases hpt
  show s₂.mem.write pt _ _ f = s.mem f
  rw [Mem.write_of_ne _ _ _ hpt', hext.other (by simp [hheld]) (by simp [hheld])]
  exact Mem.zeroPage_of_ne _ hfg

/-! ### What an address space shows -/

/-- The addresses in `mapped` are mapped in the address space `a` with the PML4 `r`, and `bytes` are the bytes there. -/
structure Shows (mapped : Nat → Prop) (a r : Nat) (s : Machine) (bytes : Nat → BitVec 8) : Prop where
  layout : ∃ use, Layout s use ∧ use a = .space r
  bytes : ∀ va, mapped va → ∃ f, s.mem.tableAt r va 4 = some f ∧ s.mem.readByte (f * 4096 + va % 4096) = bytes
    (va % 2 ^ 48)

namespace Shows
variable {mapped : Nat → Prop} {a r va : Nat} {s s' : Machine} {bytes : Nat → BitVec 8} {flags : Word} {img : Image}
  {ph : Phdr} {b : Bool}

theorem mapNewPage (h : Shows mapped a r s bytes) (hfl : Layout.UserFlags flags) (h511 : pageIndex 0 va ≠ 511)
    (hm : s.mapNewPage (.page a) va flags = .ok (b, s')) : Shows mapped a r s' bytes := by
  obtain ⟨use, hl, ha⟩ := h.layout
  rcases @Layout.mapNewPage (fun _ => True) _ _ _ _ _ _ _ hl ha _ hfl h511 True.intro True.intro hm with
    ⟨-, rfl, -⟩ | ⟨-, use', -, hload, -⟩
  · exact h
  have hroot := (hl.tables.space ha).2.1
  have ht' := hload.layout.tables
  rw [hload.steady.kernelPml4] at ht'
  refine ⟨⟨use', hload.layout, hload.grows.space ha⟩, fun va hva => ?_⟩
  obtain ⟨f, hf, hb⟩ := h.bytes va hva
  have hnode := hl.tables.tableAt_node hroot (by decide) hf
  refine ⟨f, ht'.tableAt_of_node (hload.grows.node hroot) (by decide) (hload.grows.node hnode), ?_⟩
  rw [← hb]
  unfold Mem.readByte
  rw [show (f * 4096 + va % 4096) / 4096 = f by omega, hl.mapNewPage_leaf ha hm hnode (pagePath_length _ _)]

theorem loadPage (h : Shows mapped a r s bytes) (h511 : pageIndex 0 va ≠ 511)
    (hp : s.loadPage (.page a) ph.mapFlags va = .ok (b, s')) : Shows mapped a r s' bytes := by
  unfold Machine.loadPage at hp
  split at hp
  · cases hp
    exact h
  · exact h.mapNewPage (Layout.mapFlags_userFlags ph) h511 hp

theorem loadByte (h : Shows mapped a r s bytes) {off : Nat}
    (hoff : s.mem.onHugePage r ((ph.vaddr + off) % 2 ^ 64) = false)
    (hb : s.loadByte img (.page a) ph off = .ok (true, s')) :
    Shows mapped a r s' (update bytes ((ph.vaddr + off) % 2 ^ 48)
      (img.byte ((ph.offset + off) % 2 ^ 64))) := by
  obtain ⟨use, hl, ha⟩ := h.layout
  have hroot := (hl.tables.space ha).2.1
  unfold Machine.loadByte Machine.vmmVirtToPhys at hb
  rw [hl.pml4_eq ha] at hb
  rw [show (ph.vaddr + off) % 2 ^ 48 = (ph.vaddr + off) % 2 ^ 64 % 2 ^ 48 by omega]
  generalize (ph.vaddr + off) % 2 ^ 64 = va at *
  dsimp only at hb
  split at hb
  · cases hb
  rename_i hv
  cases hb
  obtain ⟨f, hf, hnode, hphys⟩ := hl.tables.virtToPhys_node hroot hoff hv
  obtain ⟨hl', hsame⟩ := hl.writeByte_tables hroot hoff hv (img.byte ((ph.offset + off) % 2 ^ 64))
  refine ⟨⟨use, hl', ha⟩, fun va' hva' => ?_⟩
  obtain ⟨f', hf', hb'⟩ := h.bytes va' hva'
  refine ⟨f', (hl.tableAt_congr hroot hsame va' (Nat.le_refl 4)).trans hf', ?_⟩
  dsimp only
  rw [Mem.readByte_writeByte, hphys, hb', update_apply]
  refine if_congr ?_ rfl rfl
  -- Two addresses lead to one byte exactly when they agree in 48 bits.
  have hnode' := hl.tables.tableAt_node hroot (by decide) hf'
  constructor
  · intro he
    have hff : f' = f := by omega
    rw [hff, hnode] at hnode'
    have := pagePath_four_inj.mp (Use.node.inj hnode').2
    omega
  · intro he
    have hpath : pagePath va' 4 = pagePath va 4 := pagePath_four_inj.mpr (by omega)
    have h0 : pageIndex 0 va' = pageIndex 0 va := by
      have := pagePath_eq_of_le hpath (show 1 ≤ 4 by decide)
      exact (List.cons.inj this).1
    rw [hpath, treeOf, h0] at hnode'
    have hff : f' = f := hl.tables.unique hnode' hnode
    rw [hff]
    omega

theorem loadElfIntoAs (h : Shows mapped a r s bytes) (hoff : s.LoadsOff (.page a) img) {entry : Nat}
    (hl : s.loadElfIntoAs (.page a) img = .ok (some entry, s')) : Shows mapped a r s' (img.overlay bytes) := by
  rw [← Image.fold_overlay]
  refine Image.load_fold (R := Shows mapped a r) (Machine.load_of_some hl).2 h (fun i j t t' c hat ht hp => ?_)
    fun i off t t' c hat ht hb => ?_
  · have := Layout.pageIndex_zero_lt hat.in_user.2
    exact ht.loadPage (by omega) hp
  · obtain ⟨use, hlay, ha⟩ := ht.layout
    have hclear := hoff.byte i off t hat
    rw [hlay.pml4_eq ha] at hclear
    exact ht.loadByte hclear hb

theorem mapUserStack (h : Shows mapped a r s bytes) {rsp : Nat} (hm : s.mapUserStack (.page a) = .ok (some rsp, s')) :
    Shows mapped a r s' bytes := by
  unfold Machine.mapUserStack at hm
  rw [if_neg (by simp), if_neg (by decide)] at hm
  obtain ⟨⟨ok, s₁⟩, hpages, hm⟩ := of_bind_eq_ok hm
  cases ok with
  | false => cases hm
  | true =>
    cases hm
    refine forWhile_keeps (P := fun t => Shows mapped a r t bytes) hpages h fun i t b t' hat ht hstep => ?_
    have hi := hat.2.1
    exact ht.mapNewPage Layout.stackFlags_userFlags (by rw [Layout.pageIndex_stack (by omega)]; decide) hstep

end Shows

/-! ### The pages of a load -/

namespace Budget
variable {old : Nat → Nat → Bool} {T : Nat → Prop} {b b' b'' : Budget} {c : Bool} {va : Nat} {img : Image}

/-- Pages are mapped where there were none and where `T` holds, and stay. -/
structure Grows (old : Nat → Nat → Bool) (T : Nat → Prop) (b b' : Budget) : Prop where
  fresh : ∀ va ∈ b'.pages, va ∈ b.pages ∨ (T va ∧ old va 4 = false)
  keeps : ∀ va n, b.has old va n = true → b'.has old va n = true

theorem Grows.refl (old : Nat → Nat → Bool) (T : Nat → Prop) (b : Budget) : Grows old T b b :=
  ⟨fun _ h => Or.inl h, fun _ _ h => h⟩

theorem Grows.trans (h : Grows old T b b') (h' : Grows old T b' b'') : Grows old T b b'' where
  fresh va hva := (h'.fresh va hva).elim (h.fresh va) Or.inr
  keeps va n hn := h'.keeps va n (h.keeps va n hn)

theorem mapNewPage_grows (ht : T va) (hm : b.mapNewPage old va = .ok (c, b')) :
    Grows old T b b' ∧ (c = true → b'.has old va 4 = true) := by
  unfold mapNewPage at hm
  split at hm
  · cases hm
    exact ⟨.refl .., nofun⟩
  split at hm
  · cases hm
  rename_i hnew
  split at hm
  · cases hm
  cases hm
  refine ⟨⟨fun v hv => ?_, fun v n hv => has_cons.mpr (Or.inl hv)⟩, fun _ => by simp [has]⟩
  rcases List.mem_cons.mp hv with rfl | hv
  · simp only [has, Bool.or_eq_true, not_or, Bool.not_eq_true] at hnew
    exact Or.inr ⟨ht, hnew.1⟩
  · exact Or.inl hv

theorem loadPage_grows (ht : T va) (hl : b.loadPage old va = .ok (c, b')) :
    Grows old T b b' ∧ (c = true → b'.has old va 4 = true) := by
  unfold loadPage at hl
  split at hl
  · rename_i hhas
    cases hl
    exact ⟨.refl .., fun _ => hhas⟩
  · exact mapNewPage_grows ht hl

theorem keeps_grows (old : Nat → Nat → Bool) (img : Image) (b : Budget) :
    Image.Keeps (pageBody old img) (byteBody old img) img b (Grows old img.Loads b) where
  onPage i j t c t' hat ht hf := ht.trans (loadPage_grows (T := img.Loads) (.inl hat.touches) hf).1
  onByte i off t c t' _ ht hf := by
    cases hf
    exact ht

/-- What a load that succeeds touches is mapped at its end. -/
theorem has_of_touches (hl : b.loadElfIntoAs old img = .ok (true, b')) (hva : img.Touches va) :
    b'.has old va 4 = true := by
  have hkeeps : Image.Keeps (pageBody old img) (byteBody old img) img b fun t => t.has old va 4 = true :=
    ⟨fun i j t c t' _ ht hf => (loadPage_grows (T := fun _ => True) trivial hf).1.keeps va 4 ht,
      fun i off t c t' _ ht hf => by
      cases hf
      exact ht⟩
  obtain ⟨i, hc, hseg, ⟨j, hj, rfl⟩ | ⟨off, hoff, rfl⟩⟩ := hva
  · exact hkeeps.visitsPage hc.2.1 hseg.1 hj
      (fun t t' _ hf => (loadPage_grows (T := fun _ => True) trivial hf).2 rfl) hl
  · refine hkeeps.visitsByte hc.2.1 hseg.1 hoff (fun t t' _ hf => ?_) hl
    obtain ⟨hhas, rfl⟩ := Prod.mk.inj (Except.ok.inj hf)
    exact hhas

/-- The pages that a load maps were not there and are touched by it, and it leaves nothing unmapped that it touches. -/
theorem loadProgram_grows {n : Nat} (hl : loadProgram old { free := n, pages := [] } img = .ok (true, b)) :
    (∀ va ∈ b.pages, img.Loads va ∧ old va 4 = false) ∧ ∀ va, img.Touches va → b.has old va 4 = true := by
  unfold loadProgram at hl
  split at hl
  · cases hl
  split at hl
  · cases hl
  obtain ⟨⟨ok, b₁⟩, helf, hl⟩ := of_bind_eq_ok hl
  cases ok with
  | false => cases hl
  | true =>
    have hg := (keeps_grows old img _).load (.refl ..) helf
    have hg' : Grows old img.Loads b₁ b := forWhile_keeps (P := Grows old img.Loads b₁) hl (.refl ..)
      fun i t c t' hat ht hf =>
      ht.trans (mapNewPage_grows (T := img.Loads) (.inr ⟨i, by have := hat.2.1; omega, rfl⟩) hf).1
    exact ⟨fun va hva => ((hg.trans hg').fresh va hva).resolve_left nofun,
      fun va hva => hg'.keeps va 4 (has_of_touches helf hva)⟩

end Budget

/-! ### A new program -/

/-- The byte at an address of the kernel's address space. -/
def Machine.kernelByte (s : Machine) (va : Nat) : BitVec 8 := s.mem.readByte (s.mem.virtToPhys s.kernelPml4 va)

/-- The address is mapped below entry 0 of the kernel's PML4, which all address spaces share. -/
def Machine.MapsLow (s : Machine) (va : Nat) : Prop :=
  pageIndex 0 va = 0 ∧ (s.mem.tableAt s.kernelPml4 va 4).isSome = true

namespace Layout
variable {s s₁ s' : Machine} {use use₁ : Nat → Use} {a r : Nat} {img : Image}

/-- A new address space shows what the kernel has below entry 0. -/
theorem NewSpace.shows (h : NewSpace s use a r s₁ use₁) (hl : Layout s use) : Shows s.MapsLow a r s₁ s.kernelByte := by
  have ht₁ := h.layout.tables
  rw [h.kernelPml4] at ht₁
  refine ⟨⟨use₁, h.layout, h.space⟩, fun va hva => ?_⟩
  obtain ⟨f, hf⟩ := Option.isSome_iff_exists.mp hva.2
  have hnode := hl.tables.tableAt_node hl.tables.kernelRoot (by decide) hf
  have hkernel : s₁.mem.tableAt s.kernelPml4 va 4 = some f :=
    (hl.tables.tableAt_eq h.grows hl.tables.kernelRoot id id (Nat.le_refl 4)).trans hf
  refine ⟨f, (ht₁.tableAt_shared h.root (Or.inl hva.1) (by decide)).trans hkernel, ?_⟩
  -- The walk looks at 48 bits.
  have hf' : s.mem.tableAt s.kernelPml4 (va % 2 ^ 48) 4 = some f :=
    (Mem.tableAt_of_pagePath (pagePath_four_inj.mpr (by omega))).trans hf
  rw [Machine.kernelByte, Mem.virtToPhys_of_tableAt hf', show va % 2 ^ 48 % 4096 = va % 4096 by omega]
  unfold Mem.readByte
  rw [show (f * 4096 + va % 4096) / 4096 = f by omega, h.grows.mem_node hnode id]

/-- A program that is loaded lays its segments over what all address spaces share. -/
theorem loadProgram_shows (h : Layout s use) (hav : s.Avoids img) {p : Kernel.Program}
    (hl : s.loadProgram img = .ok (some p, s')) :
    ∃ r, Shows s.MapsLow p.space r s' (img.overlay s.kernelByte) := by
  cases Machine.loadProgram_cases hl with
  | loaded hc hi hm =>
    rcases h.vmmCreateAddressSpace hc with ⟨hnone, -⟩ | ⟨a', r, use₁, ha, hn⟩
    · cases hnone
    · obtain rfl := Option.some.inj ha
      exact ⟨r, ((hn.shows h).loadElfIntoAs (hav _ _ hc) hi).mapUserStack hm⟩

end Layout
end SamOS
