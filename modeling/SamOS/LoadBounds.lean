import SamOS.LoadImage

/-! The addresses through which `load_elf_into_as` maps and writes, and what a load that succeeds leaves mapped. The
    range check is made on ends that may have wrapped around. -/

namespace SamOS
open Result

namespace Machine

/-- Every address that the load passes to `vmm_map` or writes through lies in user space. -/
structure InBounds (s : Machine) (as : AsPtr) (img : Image) : Prop where
  mapped : ∀ i j t, s.AtPage as img i j t → t.vmmVirtToPhys as ((img.phdr i).segStart + j * 4096) = 0 →
    t.allocPage.1 ≠ 0 →
    userLowerLimit ≤ (img.phdr i).segStart + j * 4096 ∧ (img.phdr i).segStart + j * 4096 < userUpperLimit
  written : ∀ i off t, s.AtByte as img i off t → t.vmmVirtToPhys as (((img.phdr i).vaddr + off) % 2 ^ 64) ≠ 0 →
    userLowerLimit ≤ ((img.phdr i).vaddr + off) % 2 ^ 64 ∧ ((img.phdr i).vaddr + off) % 2 ^ 64 < userUpperLimit

/-- Moreover, a load that succeeds leaves all addresses of its segments mapped. -/
structure StaysInUserSpace (s : Machine) (as : AsPtr) (img : Image) : Prop extends s.InBounds as img where
  whole : ∀ entry s', s.loadElfIntoAs as img = .ok (some entry, s') → ∀ i < img.phnum, (img.phdr i).type = 1 →
    ∀ off < (img.phdr i).memsz, s'.vmmVirtToPhys as (((img.phdr i).vaddr + off) % 2 ^ 64) ≠ 0

/-- What the page loops of a load went over is mapped at its end. -/
def KeepsPages (s : Machine) (as : AsPtr) (img : Image) : Prop :=
  ∀ entry s', s.loadElfIntoAs as img = .ok (some entry, s') → ∀ i < img.phnum, (img.phdr i).type = 1 →
    ∀ j < (img.phdr i).pages, s'.vmmVirtToPhys as ((img.phdr i).segStart + j * 4096) ≠ 0

theorem vmmVirtToPhys_ne_zero {s : Machine} {as : AsPtr} {va : Nat} (h : s.vmmVirtToPhys as (va / 4096 * 4096) ≠ 0) :
    s.vmmVirtToPhys as va ≠ 0 := by
  have hindex (n : Nat) (hn : n ≤ 3) : pageIndex n (va / 4096 * 4096) = pageIndex n va := by
    unfold pageIndex
    obtain rfl | rfl | rfl | rfl : n = 0 ∨ n = 1 ∨ n = 2 ∨ n = 3 := by omega
    all_goals omega
  have hwalk (c₀ c₁ c₂ c₃ : Prop) [Decidable c₀] [Decidable c₁] [Decidable c₂] [Decidable c₃] (page x : Nat)
      (h : (if c₀ then 0 else if c₁ then 0 else if c₂ then 0 else if c₃ then 0 else page + 0) ≠ 0) :
      (if c₀ then 0 else if c₁ then 0 else if c₂ then 0 else if c₃ then 0 else page + x) ≠ 0 := by
    by_cases h₀ : c₀ <;> by_cases h₁ : c₁ <;> by_cases h₂ : c₂ <;> by_cases h₃ : c₃ <;>
      simp only [h₀, h₁, h₂, h₃, if_true, if_false] at h ⊢ <;> omega
  unfold vmmVirtToPhys Mem.virtToPhys at h ⊢
  simp only [hindex 0 (by decide), hindex 1 (by decide), hindex 2 (by decide), hindex 3 (by decide),
    Nat.mul_mod_left] at h
  exact hwalk _ _ _ _ _ _ h

end Machine

namespace Image
variable {img : Image}

/-- The bytes of every segment that the load comes to end inside user space, and if the load can succeed, the end of
    no segment wraps around. -/
def EndsFit (img : Image) : Prop :=
  (∀ i, img.ComesTo i → img.Segment i → (img.phdr i).filesz = 0 ∨ (img.phdr i).vaddr + (img.phdr i).filesz ≤
    userUpperLimit) ∧
  (img.headerOk = true → (∀ i < img.phnum, img.Accepts i) → ∀ i < img.phnum, (img.phdr i).type = 1 →
    (img.phdr i).memsz = 0 ∨ (img.phdr i).vaddr + (img.phdr i).memsz + 0xFFF < 2 ^ 64)

theorem EndsFit.inBounds (h : img.EndsFit) (s : Machine) (as : AsPtr) : s.InBounds as img := by
  refine ⟨fun i j t hat _ _ => hat.2.in_user, fun i off t hat _ => ?_⟩
  obtain ⟨-, t₀, t₁, hhead, hs, -, hr⟩ := hat
  have hoff := hr.2.1
  have hok := hs.2
  have hend := h.1 i hhead.comesTo hs
  generalize img.phdr i = ph at *
  simp only [Phdr.ok, Bool.and_eq_true, decide_eq_true_eq] at hok
  have hlow := hok.2.1
  simp only [Phdr.segStart, userLowerLimit, userUpperLimit] at hlow hend ⊢
  omega

theorem EndsFit.stays (h : img.EndsFit) {s : Machine} {as : AsPtr} (hkeeps : s.KeepsPages as img) :
    s.StaysInUserSpace as img := by
  refine ⟨h.inBounds s as, fun entry s' hl i hi htype off hoff => ?_⟩
  obtain ⟨hok, -, hacc⟩ := accepts_of_load (Machine.load_of_some hl).2
  rcases h.2 hok hacc i hi htype with hzero | hfit
  · exact absurd hoff (by rw [hzero]; exact Nat.not_lt_zero off)
  · obtain ⟨j, hj, hpage⟩ := Phdr.page_of_address hfit hoff
    refine Machine.vmmVirtToPhys_ne_zero ?_
    rw [hpage]
    exact hkeeps entry s' hl i hi htype j hj

end Image

/-- A load into an address space of the VMM keeps the pages that its loops went over, if it comes to no 2 MiB page. -/
theorem Layout.keepsPages {s : Machine} {use : Nat → Use} {a r : Nat} {img : Image} (h : Layout s use)
    (ha : use a = .space r) (hoff : s.LoadsOff (.page a) img) : s.KeepsPages (.page a) img := by
  intro entry s' hl i hi htype j hj
  obtain ⟨-, hload⟩ := Machine.load_of_some hl
  obtain ⟨hc, hseg⟩ := Image.comesTo_of_load hload hi htype
  have hva : img.Touches ((img.phdr i).segStart + j * 4096) := ⟨i, hc, hseg, .inl ⟨j, hj, rfl⟩⟩
  set old : Nat → Nat → Bool := fun va n => (s.mem.tableAt r va n).isSome with hold
  have htracks : Tracks old (s.mem.onHugePage r) a r s { free := s.pmm.freeCount, pages := [] } :=
    ⟨⟨use, h, ha⟩, fun _ => rfl, rfl, fun va _ n _ _ => by simp [Budget.has, hold]⟩
  have hsim := htracks.load hoff
  rw [hload] at hsim
  obtain ⟨b, hb, ht⟩ := hsim.of_left_ok
  obtain ⟨use', hl', ha'⟩ := ht.layout
  have hclear := htracks.off_of_load hoff hload hva
  have hhas := Budget.has_of_touches hb hva
  rw [← ht.has _ hclear 4 (by decide) (by decide), Option.isSome_iff_exists] at hhas
  unfold Machine.vmmVirtToPhys
  rw [hl'.pml4_eq ha']
  exact (hl'.tables.virtToPhys_ne_zero_iff (hl'.tables.space ha').2.1 ((ht.onHuge _).trans hclear)).mpr hhas

/-! ### Images whose ends do not fit -/

namespace Machine.IsFlat
variable {top : Nat → Bool} {img : Image} {t : Machine}

theorem onHugePage (h : IsFlat top t) (va : Nat) : t.mem.onHugePage (t.pml4 (.page 6)) va = false := by
  rw [h.pml4]
  have hlinks (n : Nat) : link 0 (t.mem 1 n) = if top n then some 2 else none := by
    rw [h 1 (by decide), flatMem]
    cases top n <;> rfl
  have hpdpt : link 1 (t.mem 2 (pageIndex 1 va)) = some 3 := by
    rw [h 2 (by decide), flatMem]
    decide
  unfold Mem.onHugePage
  simp only [Mem.tableAt, Option.bind_some, hlinks]
  cases top (pageIndex 0 va) with
  | false => rfl
  | true =>
    simp only [if_true, Option.bind_some, hpdpt]
    rw [h 3 (by decide), flatMem]
    decide

theorem keeps (hlow : ∀ n < 256, top n = true) :
    Image.Keeps (pageBody (.page 6) img) (byteBody (.page 6) img) img (flat top) (IsFlat top) where
  onPage i j t b t' hat ht hf := by
    rw [pageBody, ht.loadPage (hlow _ (Layout.pageIndex_zero_lt hat.in_user.2))] at hf
    cases hf
    exact ht
  onByte i off t b t' _ ht hf := by
    by_cases htop : top (pageIndex 0 (((img.phdr i).vaddr + off) % 2 ^ 64)) = true
    · obtain ⟨u, hu, hflat⟩ : ∃ u, t.loadByte img (.page 6) (img.phdr i) off = .ok (true, u) ∧ IsFlat top u :=
        ht.loadByte htop
      rw [byteBody, hu] at hf
      cases hf
      exact hflat
    · rw [byteBody, Machine.loadByte, ht.virtToPhys, if_neg htop] at hf
      cases hf
      exact ht

theorem loadsOff (hlow : ∀ n < 256, top n = true) : (flat top).LoadsOff (.page 6) img :=
  ⟨fun _ _ _ hat => ((keeps hlow).atPage (fun _ _ => rfl) hat).onHugePage _,
    fun _ _ _ hat => ((keeps hlow).atByte (fun _ _ => rfl) hat).onHugePage _⟩

theorem keepsPages (hlow : ∀ n < 256, top n = true) : (flat top).KeepsPages (.page 6) img := by
  intro entry s' h i hi htype j hj
  obtain ⟨-, hload⟩ := load_of_some h
  have hflat := (keeps hlow).load (fun _ _ => rfl) hload
  have huser := Phdr.page_in_user (Image.comesTo_of_load hload hi htype).2.2 hj
  rw [hflat.virtToPhys, hlow _ (Layout.pageIndex_zero_lt huser.2), if_pos rfl]
  omega

theorem loadElfIntoAs (top : Nat → Bool) (hlow : ∀ n < 256, top n = true) (hok : img.headerOk = true)
    (hacc : ∀ i < img.phnum, img.Accepts i)
    (hbytes : ∀ i < img.phnum, img.Segment i → ∀ off < (img.phdr i).filesz,
      top (pageIndex 0 (((img.phdr i).vaddr + off) % 2 ^ 64)) = true) :
    ∃ t, (flat top).loadElfIntoAs (.page 6) img = .ok (some img.entry, t) ∧ IsFlat top t := by
  obtain ⟨t, ht, hflat⟩ : ∃ t, forWhile (fun i s => s.loadSegment img (.page 6) (img.phdr i)) 0 img.phnum (flat top) =
    .ok (true, t) ∧
      IsFlat top t := forWhile_total (P := fun _ u => IsFlat top u) (fun _ _ => rfl) fun i u _ hi hu =>
    hu.loadSegment hlow (hacc i (by omega)) fun htype => hbytes i (by omega) ⟨htype, hacc i (by omega) htype⟩
  refine ⟨t, ?_, hflat⟩
  unfold Machine.loadElfIntoAs
  rw [if_neg (by simp [hok]), ht]
  rfl

end Machine.IsFlat

namespace Image
variable {img : Image}

/-- Bytes that end above user space are written there, if they are mapped. -/
theorem bytes_leave_user_space {i : Nat} (hc : img.ComesTo i) (hs : img.Segment i) (hpos : (img.phdr i).filesz ≠ 0)
    (hend : ¬(img.phdr i).vaddr + (img.phdr i).filesz ≤ userUpperLimit) :
    ¬(Machine.flat fun _ => true).InBounds (.page 6) img := by
  intro hin
  obtain ⟨t, hat, ht⟩ := Machine.IsFlat.atByte (fun _ => true) (fun _ _ => rfl) hc hs (fun _ _ _ _ _ _ => rfl)
    (show userUpperLimit - (img.phdr i).vaddr < (img.phdr i).filesz by omega)
  have hwritten := (hin.written i _ t hat (by rw [ht.virtToPhys, if_pos rfl]; omega)).2
  have hv := (img.phdr_fields i).vaddr
  simp only [userUpperLimit] at hwritten hend
  omega

/-- Where nothing is mapped above user space, a segment whose end wraps around is not mapped. -/
theorem wrapped_segment_unmapped (hok : img.headerOk = true) (hacc : ∀ i < img.phnum, img.Accepts i)
    (hbytes : ∀ i, img.ComesTo i → img.Segment i → (img.phdr i).filesz = 0 ∨
      (img.phdr i).vaddr + (img.phdr i).filesz ≤ userUpperLimit)
    {i : Nat} (hi : i < img.phnum) (htype : (img.phdr i).type = 1) (hpos : (img.phdr i).memsz ≠ 0)
    (hwrap : ¬(img.phdr i).vaddr + (img.phdr i).memsz + 0xFFF < 2 ^ 64) :
    ¬(Machine.flat fun n => decide (n < 256)).StaysInUserSpace (.page 6) img := by
  intro hin
  have hlow (i : Nat) (hi : i < img.phnum) (hs : img.Segment i) (off : Nat) (hoff : off < (img.phdr i).filesz) :
      (decide (pageIndex 0 (((img.phdr i).vaddr + off) % 2 ^ 64) < 256)) = true := by
    have hend := hbytes i ⟨hok, hi, fun j hj => hacc j (by omega)⟩ hs
    refine decide_eq_true (Layout.pageIndex_zero_lt ?_)
    rw [Nat.mod_eq_of_lt] <;> simp only [userUpperLimit] at hend ⊢ <;> omega
  obtain ⟨t, hl, ht⟩ := Machine.IsFlat.loadElfIntoAs (fun n => decide (n < 256))
    (fun _ hn => decide_eq_true hn) hok hacc hlow
  obtain ⟨off, hoff, hlast⟩ := Phdr.last_page_of_wrap (img.phdr_fields i).vaddr hpos hwrap
  refine hin.whole _ t hl i hi htype off hoff ?_
  rw [ht.virtToPhys, hlast]
  rfl

/-- If the ends fit, every load maps and writes in user space, and one into an address space of the VMM that comes to
    no 2 MiB page leaves its segments mapped when it succeeds. If they do not, there is a machine without 2 MiB pages
    whose loads leave user space or a segment unmapped, though what its page loops went over is mapped. -/
theorem load_stays_in_user_space (img : Image) :
    (img.EndsFit → (∀ (s : Machine) (as : AsPtr), s.InBounds as img) ∧ ∀ (s : Machine) (use : Nat → Use) (a r : Nat),
      Layout s use → use a = .space r → s.LoadsOff (.page a) img →
      s.StaysInUserSpace (.page a) img) ∧
    (¬img.EndsFit → ∃ (s : Machine) (as : AsPtr), s.LoadsOff as img ∧ s.KeepsPages as img ∧
      ¬s.StaysInUserSpace as img) := by
  refine ⟨fun h => ⟨h.inBounds, fun s use a r hl ha hoff => h.stays (hl.keepsPages ha hoff)⟩, fun hnot => ?_⟩
  by_contra hnone
  push_neg at hnone
  have hbytes : ∀ i, img.ComesTo i → img.Segment i →
      (img.phdr i).filesz = 0 ∨ (img.phdr i).vaddr + (img.phdr i).filesz ≤ userUpperLimit := by
    intro i hc hs
    by_contra hout
    rw [not_or] at hout
    have hlow : ∀ n < 256, (fun _ => true) n = true := fun _ _ => rfl
    have hstays := hnone _ _ (Machine.IsFlat.loadsOff hlow) (Machine.IsFlat.keepsPages hlow)
    exact bytes_leave_user_space hc hs hout.1 hout.2 hstays.toInBounds
  refine hnot ⟨hbytes, fun hok hacc i hi htype => ?_⟩
  by_contra hwrap
  rw [not_or] at hwrap
  have hlow : ∀ n < 256, decide (n < 256) = true := fun _ hn => decide_eq_true hn
  exact wrapped_segment_unmapped hok hacc hbytes hi htype hwrap.1 hwrap.2
    (hnone _ _ (Machine.IsFlat.loadsOff hlow) (Machine.IsFlat.keepsPages hlow))

/-- An image with code and data on one page, in a new address space of the sample machine. -/
theorem load_stays_in_user_space_shared : ∃ (img : Image) (s s' : Machine) (a : Nat), img.phnum = 2 ∧
    s.loadElfIntoAs (.page a) img = .ok (some img.entry, s') ∧ s.StaysInUserSpace (.page a) img := by
  obtain ⟨img, h⟩ := SharesPage.exists_image
  obtain ⟨s, use, a, r, s', hlayout, ha, hu, hl⟩ := h.exists_load
  have hends : img.EndsFit := by
    have htwo (i : Nat) (hi : i < img.phnum) : i = 0 ∨ i = 1 := by
      rw [h.count] at hi
      omega
    refine ⟨fun i hc _ => ?_, fun _ _ i hi _ => ?_⟩
    · rcases htwo i hc.2.1 with rfl | rfl
      · rw [h.code]; decide
      · rw [h.data]; decide
    · rcases htwo i hi with rfl | rfl
      · rw [h.code]; decide
      · rw [h.data]; decide
  have hoff : s.LoadsOff (.page a) img := hlayout.loadsOff ha fun va hva => by
    rw [← hlayout.pml4_eq ha]
    exact (hu va hva).2
  exact ⟨img, s, s', a, h.count, hl, ((load_stays_in_user_space img).1 hends).2 s use a r hlayout ha hoff⟩

end Image

/-- A segment in the last page of the address space: its end wraps around to `0`, so that no page is mapped, and the
    load succeeds. -/
theorem Image.load_leaves_segment_unmapped : ∃ img : Image, img.phnum = 1 ∧
    img.phdr 0 = { type := 1, flags := 6, offset := 0, vaddr := 2 ^ 64 - 4096, filesz := 0, memsz := 4096 } ∧
    ∀ (s : Machine) (as : AsPtr), as ≠ .null → s.vmmVirtToPhys as (2 ^ 64 - 4096) = 0 →
      s.loadElfIntoAs as img = .ok (some 0x400000, s) ∧ s.LoadsOff as img ∧ s.KeepsPages as img ∧
        ¬s.StaysInUserSpace as img := by
  obtain ⟨img, hnum, hphdr, hok, hpages, hentry, haccept⟩ : ∃ img : Image, img.phnum = 1 ∧
      img.phdr 0 = { type := 1, flags := 6, offset := 0, vaddr := 2 ^ 64 - 4096, filesz := 0, memsz := 4096 } ∧
        img.headerOk = true ∧
      (img.phdr 0).pages = 0 ∧ img.entry = 0x400000 ∧ (img.phdr 0).ok img.size = true :=
    ⟨ofFields 120 (ehdr 64 1 ++ [(64, 4, 1), (68, 4, 6), (80, 8, 2 ^ 64 - 4096), (104, 8, 4096)]), by decide +kernel⟩
  refine ⟨img, hnum, hphdr, fun s as has hzero => ?_⟩
  have hseg : s.loadSegment img as (img.phdr 0) = .ok (true, s) := by
    unfold Machine.loadSegment
    rw [if_neg (by rw [hphdr]; decide), if_neg (not_not_intro haccept), hpages, hphdr]
    rfl
  have hl : s.loadElfIntoAs as img = .ok (some 0x400000, s) := by
    unfold Machine.loadElfIntoAs
    rw [if_neg (not_or_intro has (not_not_intro hok)), hnum, forWhile_true hseg, hentry]
    rfl
  have hnone (va : Nat) : ¬img.Touches va := by
    rintro ⟨i, hc, -, ht⟩
    obtain rfl : i = 0 := by have := hc.2.1; omega
    rw [Phdr.Touches, hpages, hphdr] at ht
    simp at ht
  refine ⟨hl, ⟨fun _ _ _ hat => absurd hat.touches (hnone _), fun _ _ _ hat => absurd hat.touches (hnone _)⟩,
    fun _ _ _ i hi _ j hj => ?_, fun h => ?_⟩
  · obtain rfl : i = 0 := by omega
    rw [hpages] at hj
    exact absurd hj (Nat.not_lt_zero j)
  · refine h.whole _ _ hl 0 (by omega) (by rw [hphdr]) 0 (by rw [hphdr]; decide) ?_
    rw [hphdr]
    exact hzero

end SamOS
