import SamOS.Loader

/-! What `load_elf_into_as` reads of the image, and the addresses through which it maps and writes. The checks compare
    sums of 64-bit fields that may wrap around, and an image can choose the fields. -/

namespace SamOS
open Result

namespace Image
variable {img : Image}

theorem read_lt (img : Image) (off n : Nat) : img.read off n < 256 ^ n := by
  induction n generalizing off with
  | zero => exact Nat.one_pos
  | succ n ih =>
    have hb := (img.byte (off % 2 ^ 64)).isLt
    have hrest := ih (off + 1)
    rw [read, Nat.pow_succ]
    omega

theorem phoff_lt (img : Image) : img.phoff < 2 ^ 64 := img.read_lt 32 8

end Image

/-- The fields of a program header are 64-bit numbers. -/
structure Phdr.Fields (ph : Phdr) : Prop where
  offset : ph.offset < 2 ^ 64
  vaddr : ph.vaddr < 2 ^ 64
  filesz : ph.filesz < 2 ^ 64
  memsz : ph.memsz < 2 ^ 64

theorem Image.phdr_fields (img : Image) (i : Nat) : (img.phdr i).Fields :=
  ⟨img.read_lt _ 8, img.read_lt _ 8, img.read_lt _ 8, img.read_lt _ 8⟩

/-! ### The points of a load -/

namespace Machine
variable {s t t' : Machine} {as : AsPtr} {img : Image} {i j off : Nat}

/-- The loop over the program headers comes to header `i`. -/
def AtHeader (s : Machine) (as : AsPtr) (img : Image) (i : Nat) (t : Machine) : Prop :=
  as ≠ .null ∧ img.AtHeader (pageBody as img) (byteBody as img) s i t

/-- The loop over the pages of segment `i` comes to page `j`. -/
def AtPage (s : Machine) (as : AsPtr) (img : Image) (i j : Nat) (t : Machine) : Prop :=
  as ≠ .null ∧ img.AtPage (pageBody as img) (byteBody as img) s i j t

/-- The loop over the file bytes of segment `i` comes to byte `off`. -/
def AtByte (s : Machine) (as : AsPtr) (img : Image) (i off : Nat) (t : Machine) : Prop :=
  as ≠ .null ∧ img.AtByte (pageBody as img) (byteBody as img) s i off t

/-! ### A memory where everything is mapped

One table of each level, all of whose entries lead to the next, and one page at the end of all walks: the load
never needs a page, and what it writes does not reach the tables. -/

/-- The tables in pages 1 to 4, with the entries `top` of the PML4; page 5 at the end, and the address space in page
    6. -/
def flatMem (top : Nat → Bool) : Mem
  | 1, i => if top i then entry 2 flagPresent else 0
  | 2, _ => entry 3 flagPresent
  | 3, _ => entry 4 flagPresent
  | 4, _ => entry 5 flagPresent
  | 6, _ => BitVec.ofNat 64 4096
  | _, _ => 0

def flat (top : Nat → Bool) : Machine :=
  { mem := flatMem top, pmm := { bitmap := fun _ => 0, bitmapSize := 0, totalPages := 0, freePages := 0 }, kernelPml4 := 0, log := [] }

/-- The machine has these tables. -/
def IsFlat (top : Nat → Bool) (t : Machine) : Prop := ∀ f, f ≠ 5 → t.mem f = flatMem top f

namespace IsFlat
variable {top : Nat → Bool} {ph : Phdr} {va : Nat}

theorem pml4 (h : IsFlat top t) : t.pml4 (.page 6) = 1 := by
  have hword : t.mem 6 0 = BitVec.ofNat 64 4096 := congrFun (h 6 (by decide)) 0
  show (t.mem 6 0).toNat / 4096 = 1
  rw [hword]
  decide

theorem virtToPhys (h : IsFlat top t) (va : Nat) :
    t.vmmVirtToPhys (.page 6) va = if top (pageIndex 0 va) then 5 * 4096 + va % 4096 else 0 := by
  have hframe (f : Nat) (hf : f < 6) : (entry f flagPresent).frame = f :=
    frame_entry (by omega) (show flagPresent &&& addrMask = 0#64 by decide)
  have hpresent (f : Nat) : (entry f flagPresent).present = true := present_entry f flagPresent
  have h₁ (n : Nat) : t.mem 1 n = if top n then entry 2 flagPresent else 0 := congrFun (h 1 (by decide)) n
  have h₂ (n : Nat) : t.mem 2 n = entry 3 flagPresent := congrFun (h 2 (by decide)) n
  have h₃ (n : Nat) : t.mem 3 n = entry 4 flagPresent := congrFun (h 3 (by decide)) n
  have h₄ (n : Nat) : t.mem 4 n = entry 5 flagPresent := congrFun (h 4 (by decide)) n
  unfold vmmVirtToPhys Mem.virtToPhys
  rw [h.pml4, h₁]
  cases htop : top (pageIndex 0 va) with
  | false => rfl
  | true =>
    simp only [if_true, hpresent, not_true_eq_false, if_false, hframe 2 (by decide), h₂, hframe 3 (by decide), h₃,
      hframe 4 (by decide), h₄, hframe 5 (by decide)]

theorem loadPage (h : IsFlat top t) (htop : top (pageIndex 0 va) = true) (flags : Word) :
    t.loadPage (.page 6) flags va = .ok (true, t) := by
  unfold Machine.loadPage
  rw [h.virtToPhys, htop, if_pos rfl, if_pos (by omega)]

theorem loadByte (h : IsFlat top t) (htop : top (pageIndex 0 ((ph.vaddr + off) % 2 ^ 64)) = true) :
    ∃ t', t.loadByte img (.page 6) ph off = .ok (true, t') ∧ IsFlat top t' := by
  unfold Machine.loadByte
  rw [h.virtToPhys, htop, if_pos rfl]
  dsimp only
  rw [if_neg (by omega)]
  refine ⟨_, rfl, fun f hf => ?_⟩
  exact (Mem.writeByte_of_ne t.mem _ (by omega)).trans (h f hf)

theorem loadPages (h : IsFlat top t) (hlow : ∀ n < 256, top n = true) {size : Nat} (hok : ph.ok size = true) :
    forWhile (fun j s => s.loadPage (.page 6) ph.mapFlags (ph.segStart + j * 4096)) 0 ph.pages t = .ok (true, t) := by
  have hloop : ∃ u, forWhile (fun j s => s.loadPage (.page 6) ph.mapFlags (ph.segStart + j * 4096)) 0 ph.pages t = .ok
      (true, u) ∧ u = t := by
    refine forWhile_total (P := fun _ u => u = t) rfl ?_
    rintro j u - hj rfl
    refine ⟨u, h.loadPage (hlow _ (Layout.pageIndex_zero_lt ?_)) _, rfl⟩
    simp only [Phdr.ok, Bool.and_eq_true, decide_eq_true_eq] at hok
    have := hok.2.2
    unfold Phdr.pages at hj
    omega
  obtain ⟨u, hu, rfl⟩ := hloop
  exact hu

theorem loadSegment (h : IsFlat top t) (hlow : ∀ n < 256, top n = true) (ha : ph.type = 1 → ph.ok img.size = true)
    (hbytes : ph.type = 1 → ∀ off < ph.filesz, top (pageIndex 0 ((ph.vaddr + off) % 2 ^ 64)) = true) :
    ∃ t', t.loadSegment img (.page 6) ph = .ok (true, t') ∧ IsFlat top t' := by
  unfold Machine.loadSegment
  by_cases htype : ph.type = 1
  swap
  · rw [if_pos htype]
    exact ⟨t, rfl, h⟩
  obtain ⟨t', ht', hflat⟩ : ∃ t', forWhile (fun off s => s.loadByte img (.page 6) ph off) 0 ph.filesz t = .ok (true,
      t') ∧ IsFlat top t' :=
    forWhile_total (P := fun _ u => IsFlat top u) h fun off u _ hoff hu => hu.loadByte (hbytes htype off (by omega))
  refine ⟨t', ?_, hflat⟩
  rw [if_neg (not_not_intro htype), if_neg (not_not_intro (ha htype)), h.loadPages hlow (ha htype)]
  exact ht'

theorem atHeader (top : Nat → Bool) (hlow : ∀ n < 256, top n = true) (hc : img.ComesTo i)
    (hbytes : ∀ j < i, img.Segment j → ∀ off < (img.phdr j).filesz,
      top (pageIndex 0 (((img.phdr j).vaddr + off) % 2 ^ 64)) = true) :
    ∃ t, img.AtHeader (pageBody (.page 6) img) (byteBody (.page 6) img) (flat top) i t ∧ IsFlat top t := by
  obtain ⟨hok, hi, hacc⟩ := hc
  obtain ⟨t, hr, ht⟩ : ∃ t, Reaches (fun i s => s.loadSegment img (.page 6) (img.phdr i)) 0 img.phnum (flat top) i t ∧
      IsFlat top t :=
    exists_reaches (P := fun _ u => IsFlat top u) (fun _ _ => rfl) (Nat.zero_le i) (by omega) fun j u _ hj hu =>
      hu.loadSegment hlow (hacc j hj) fun htype => hbytes j hj ⟨htype, hacc j hj htype⟩
  exact ⟨t, ⟨hok, hr⟩, ht⟩

theorem atByte (top : Nat → Bool) (hlow : ∀ n < 256, top n = true) (hc : img.ComesTo i) (hs : img.Segment i)
    (hbytes : ∀ j ≤ i, img.Segment j → ∀ n < (img.phdr j).filesz, (j < i ∨ n < off) →
      top (pageIndex 0 (((img.phdr j).vaddr + n) % 2 ^ 64)) = true) (hoff : off < (img.phdr i).filesz) :
    ∃ t, (flat top).AtByte (.page 6) img i off t ∧ IsFlat top t := by
  obtain ⟨t₀, hat, h₀⟩ := atHeader top hlow hc fun j hj hseg n hn => hbytes j (Nat.le_of_lt hj) hseg n hn (Or.inl hj)
  obtain ⟨t, hr, ht⟩ : ∃ t, Reaches (fun off s => s.loadByte img (.page 6) (img.phdr i) off) 0
      (img.phdr i).filesz t₀ off t ∧ IsFlat top t :=
    exists_reaches (P := fun _ u => IsFlat top u) h₀ (Nat.zero_le off) (by omega) fun n u _ hn hu =>
      hu.loadByte (hbytes i (Nat.le_refl i) hs n (by omega) (Or.inr hn))
  exact ⟨t, ⟨by simp, t₀, t₀, hat, hs, h₀.loadPages hlow hs.2, hr⟩, ht⟩

end IsFlat

/-! ### What is read -/

/-- Every program header and every segment byte that the load reads lies inside the image. -/
structure ReadsInside (s : Machine) (as : AsPtr) (img : Image) : Prop where
  header : ∀ i t, s.AtHeader as img i t → (img.phoff + 56 * i) % 2 ^ 64 + 56 ≤ img.size
  byte : ∀ i off t, s.AtByte as img i off t → t.vmmVirtToPhys as (((img.phdr i).vaddr + off) % 2 ^ 64) ≠ 0 →
    ((img.phdr i).offset + off) % 2 ^ 64 < img.size

end Machine

namespace Image
variable {img : Image} {i : Nat}

/-- At every header that the loop comes to, the program headers do not wrap around or this one lies inside the image
    all the same, and the file bytes of an accepted segment do not wrap around. -/
def SumsFit (img : Image) : Prop :=
  ∀ i, img.ComesTo i → (img.phoff + img.phnum * 56 < 2 ^ 64 ∨ img.phoff + 56 * (i + 1) ≤ img.size) ∧
    (img.Segment i → (img.phdr i).filesz = 0 ∨ (img.phdr i).offset + (img.phdr i).filesz < 2 ^ 64)

theorem ComesTo.table (hc : img.ComesTo i) : (img.phoff + img.phnum * 56) % 2 ^ 64 ≤ img.size := by
  have hok := hc.1
  simp only [headerOk, Bool.and_eq_true, decide_eq_true_eq] at hok
  exact hok.2

/-- Headers that all lie inside the image do not wrap around. -/
theorem phdr_end_le {img : Image} (hsize : img.size < 2 ^ 64) {i : Nat}
    (h : ∀ j ≤ i, (img.phoff + 56 * j) % 2 ^ 64 + 56 ≤ img.size) :
    img.phoff + 56 * (i + 1) ≤ img.size := by
  have hoff := img.phoff_lt
  induction i with
  | zero =>
    have h0 := h 0 (Nat.le_refl 0)
    omega
  | succ i ih =>
    have hprev := ih fun j hj => h j (by omega)
    have hlast := h (i + 1) (Nat.le_refl _)
    omega

/-- The last byte below `2 ^ 64` is among those of a segment that wraps around. -/
theorem byte_outside {offset filesz size : Nat} (hsize : size < 2 ^ 64) (ho : offset < 2 ^ 64)
    (h : ∀ off < filesz, (offset + off) % 2 ^ 64 < size) : filesz = 0 ∨ offset + filesz < 2 ^ 64 := by
  by_contra hc
  have hlast := h (2 ^ 64 - 1 - offset) (by omega)
  omega

/-- The loads of an image read inside of it, in every machine and address space, exactly if the sums fit. -/
theorem load_reads_inside_iff (img : Image) (hsize : img.size < 2 ^ 64) :
    (∀ (s : Machine) (as : AsPtr), s.ReadsInside as img) ↔ img.SumsFit := by
  constructor
  · intro h i hc
    have hin := h (Machine.flat fun _ => true) (.page 6)
    refine ⟨Or.inr (phdr_end_le hsize fun j hj => ?_),
      fun hs => byte_outside hsize (img.phdr_fields i).offset fun off hoff => ?_⟩
    · obtain ⟨t, hat, -⟩ := Machine.IsFlat.atHeader (fun _ => true) (fun _ _ => rfl) (hc.le hj) fun _ _ _ _ _ => rfl
      exact hin.header j t ⟨by simp, hat⟩
    · obtain ⟨t, hat, ht⟩ := Machine.IsFlat.atByte (fun _ => true) (fun _ _ => rfl) hc hs (fun _ _ _ _ _ _ => rfl) hoff
      refine hin.byte i off t hat ?_
      rw [ht.virtToPhys, if_pos rfl]
      omega
  · intro hfit s as
    refine ⟨fun i t hat => ?_, fun i off t hat _ => ?_⟩
    · have hc := hat.2.comesTo
      have htable := hc.table
      have hi := hc.2.1
      rcases (hfit i hc).1 with hfits | hinside <;> omega
    · obtain ⟨-, t₀, t₁, hhead, hs, -, hr⟩ := hat
      have hoff := hr.2.1
      have hok := hs.2
      have hsum := (hfit i hhead.comesTo).2 hs
      generalize img.phdr i = ph at *
      simp only [Phdr.ok, Bool.and_eq_true, decide_eq_true_eq] at hok
      have hlim := hok.1.2
      omega

/-- An image of `size` bytes with the numbers `fields` in it: offset, width and value. The other bytes are zero. -/
def ofFields (size : Nat) (fields : List (Nat × Nat × Nat)) : Image where
  addr := 0x200000
  size
  byte i :=
    match fields.find? fun (off, n, _) => off ≤ i && i < off + n with
    | some (off, _, value) => BitVec.ofNat 8 (value / 256 ^ (i - off))
    | none => 0

/-- The fields that every image needs: the magic number and the entry, and then where the program headers are. -/
def ehdr (phoff phnum : Nat) : List (Nat × Nat × Nat) :=
  [(0, 4, 0x464C457F), (24, 8, 0x400000), (32, 8, phoff), (56, 2, phnum)]

/-- An image with a segment of eight file bytes is read inside. -/
theorem load_reads_inside_segment : ∃ img : Image,
    img.phdr 0 = { type := 1, flags := 6, offset := 120, vaddr := 0x8000000000, filesz := 8, memsz := 4096 } ∧
    (Machine.flat fun _ => true).ReadsInside (.page 6) img := by
  obtain ⟨img, hsize, hnum, hphdr, hfit⟩ : ∃ img : Image, img.size < 2 ^ 64 ∧ img.phnum = 1 ∧
      img.phdr 0 = { type := 1, flags := 6, offset := 120, vaddr := 0x8000000000, filesz := 8, memsz := 4096 } ∧
      img.phoff + img.phnum * 56 < 2 ^ 64 :=
    ⟨ofFields 128 (ehdr 64 1 ++ [(64, 4, 1), (68, 4, 6), (72, 8, 120), (80, 8, 0x8000000000), (96, 8, 8),
      (104, 8, 4096)]), by decide +kernel⟩
  refine ⟨img, hphdr, (load_reads_inside_iff img hsize).mpr (fun i hc => ⟨.inl hfit, fun _ => .inr ?_⟩) _ _⟩
  obtain rfl : i = 0 := by have := hc.2.1; omega
  rw [hphdr]
  decide

/-- The program header lies right before the image: `e_phoff + 56` is `0`. -/
theorem load_reads_before_image :
    ∃ img : Image, img.size = 64 ∧ img.phnum = 1 ∧ ∀ (s : Machine) (as : AsPtr), as ≠ .null →
    s.AtHeader as img 0 s ∧ (img.phoff + 56 * 0) % 2 ^ 64 = 2 ^ 64 - 56 ∧ ¬s.ReadsInside as img := by
  refine ⟨ofFields 64 (ehdr (2 ^ 64 - 56) 1), rfl, by decide +kernel, fun s as has => ?_⟩
  have hat : s.AtHeader as (ofFields 64 (ehdr (2 ^ 64 - 56) 1)) 0 s :=
    ⟨has, by decide +kernel, Nat.le_refl 0, by decide +kernel, rfl⟩
  refine ⟨hat, by decide +kernel, fun h => ?_⟩
  exact absurd (h.header 0 s hat) (by decide +kernel)

end Image

namespace Phdr
variable {ph : Phdr} {off : Nat}

/-- Without a wrap the page loop goes over the pages of all addresses of the segment. -/
theorem page_of_address (hfit : ph.vaddr + ph.memsz + 0xFFF < 2 ^ 64) (hoff : off < ph.memsz) :
    ∃ j < ph.pages, (ph.vaddr + off) % 2 ^ 64 / 4096 * 4096 = ph.segStart + j * 4096 := by
  refine ⟨(ph.vaddr + off) / 4096 - ph.vaddr / 4096, ?_, ?_⟩
  · unfold pages segEnd segStart
    rw [Nat.mod_eq_of_lt hfit]
    omega
  · unfold segStart
    rw [Nat.mod_eq_of_lt (by omega)]
    omega

/-- A segment whose end wraps around has an address in the last page. -/
theorem last_page_of_wrap (hv : ph.vaddr < 2 ^ 64) (hpos : ph.memsz ≠ 0)
    (hwrap : ¬ph.vaddr + ph.memsz + 0xFFF < 2 ^ 64) :
    ∃ off < ph.memsz, pageIndex 0 ((ph.vaddr + off) % 2 ^ 64) = 511 := by
  refine ⟨2 ^ 64 - 4096 - ph.vaddr, by omega, ?_⟩
  unfold pageIndex
  omega

end Phdr
end SamOS
