import SamOS.SpawnMemory
import SamOS.VmmWalks

/-! The page budget of a load. Away from 2 MiB pages the course of `load_elf_into_as` and `map_user_stack` depends on
    two things only: the number of free pages, and the tables and pages that exist on the way to each address. The
    budget keeps these two and goes through the same loops; it stops with an error exactly when the code panics. -/

namespace SamOS
open Function Result

/-! ### The budget -/

/-- The number of free pages, and the addresses of the pages that were mapped in the new address space. -/
structure Budget where
  free : Nat
  pages : List Nat
  deriving DecidableEq, Repr

namespace Budget

section Loops
-- `old va n` says whether a new address space has the table or page at depth `n` on the way to `va`.
variable (old : Nat → Nat → Bool)

def has (b : Budget) (va n : Nat) : Bool := old va n || b.pages.any fun virt => pagePath va n == pagePath virt n

/-- The number of tables that a mapping of `va` makes. -/
def missing (b : Budget) (va : Nat) : Nat :=
  (if b.has old va 1 then 0 else 1) + (if b.has old va 2 then 0 else 1) + if b.has old va 3 then 0 else 1

/-- A page is taken and mapped at `va`. -/
def mapNewPage (va : Nat) (b : Budget) : Except String (Bool × Budget) :=
  if b.free = 0 then .ok (false, b)
  else if b.has old va 4 then .error "vmm_map: virtual page is already mapped"
  else if b.free - 1 < b.missing old va then .error "VMM: out of memory allocating page table"
  else .ok (true, { free := b.free - 1 - b.missing old va, pages := va :: b.pages })

def loadPage (va : Nat) (b : Budget) : Except String (Bool × Budget) :=
  if b.has old va 4 then .ok (true, b) else b.mapNewPage old va

def loadByte (ph : Phdr) (off : Nat) (b : Budget) : Except String (Bool × Budget) :=
  .ok (b.has old ((ph.vaddr + off) % 2 ^ 64) 4, b)

def loadSegment (img : Image) (ph : Phdr) (b : Budget) : Except String (Bool × Budget) :=
  if ph.type ≠ 1 then .ok (true, b)
  else if ¬ph.ok img.size then .ok (false, b)
  else do
    let (ok, b) ← forWhile (fun i b => b.loadPage old (ph.segStart + i * 4096)) 0 ph.pages b
    if ok then forWhile (fun off b => b.loadByte old ph off) 0 ph.filesz b else .ok (false, b)

def loadElfIntoAs (b : Budget) (img : Image) : Except String (Bool × Budget) :=
  if ¬img.headerOk then .ok (false, b) else forWhile (fun i b => b.loadSegment old img (img.phdr i)) 0 img.phnum b

def mapUserStack (b : Budget) : Except String (Bool × Budget) :=
  forWhile (fun i b => b.mapNewPage old (processStackVirt - (i + 1) * 4096)) 0 processStackPages b

/-- A new address space takes two pages. -/
def loadProgram (b : Budget) (img : Image) : Except String (Bool × Budget) :=
  if b.free = 0 then .ok (false, b)
  else if b.free = 1 then .error "VMM: out of memory allocating page table"
  else do
    let (ok, b) ← { b with free := b.free - 2 }.loadElfIntoAs old img
    if ok then b.mapUserStack old else .ok (false, b)

/-- The bodies of the two loops over segment `i`. -/
def pageBody (img : Image) (i j : Nat) (b : Budget) : Except String (Bool × Budget) :=
  b.loadPage old ((img.phdr i).segStart + j * 4096)

def byteBody (img : Image) (i off : Nat) (b : Budget) : Except String (Bool × Budget) := b.loadByte old (img.phdr i) off

end Loops

theorem has_cons {old : Nat → Nat → Bool} {free free' virt va n : Nat} {pages : List Nat} :
    has old ⟨free, virt :: pages⟩ va n = true ↔ has old ⟨free', pages⟩ va n = true ∨
      pagePath va n = pagePath virt n := by
  simp only [has, List.any_cons, Bool.or_eq_true, beq_iff_eq]
  tauto

end Budget

theorem Layout.tableLayout {s : Machine} {use : Nat → Use} (h : Layout s use) :
    TableLayout s fun f => (use f).table := by
  have ht := h.tables
  refine ⟨ht.trees, ⟨Use.table_eq_node.mpr ⟨ht.kernelRoot, by decide⟩, fun hi => ?_, fun {r i} hr hi => ?_⟩,
    h.owned.table, fun a => (h.live a).trans (exists_congr fun r => Use.table_eq_space.symm)⟩
  · rcases hi with rfl | rfl
    · exact ht.kernelSlots.1
    · exact ht.kernelSlots.2
  · by_cases hk : r = s.kernelPml4
    · rw [hk]
    · obtain ⟨h0, h511⟩ := ht.shared (Use.table_eq_node.mp hr).1 hk
      rcases hi with rfl | rfl
      · rw [h0, BitVec.or_assoc, BitVec.or_self]
      · rw [h511]

/-! ### The machine and its budget -/

/-- The budget agrees with the machine, in which the addresses of `huge` are those on 2 MiB pages. -/
structure Tracks (old : Nat → Nat → Bool) (huge : Nat → Bool) (a r : Nat) (s : Machine) (b : Budget) : Prop where
  layout : ∃ use, Layout s use ∧ use a = .space r
  onHuge : ∀ va, s.mem.onHugePage r va = huge va
  free : s.pmm.freeCount = b.free
  has : ∀ va, huge va = false → ∀ n, 0 < n → n ≤ 4 → (s.mem.tableAt r va n).isSome = b.has old va n

namespace Layout
variable {s : Machine} {use : Nat → Use} {a r f : Nat}

theorem freeCount_pos_iff (h : Layout s use) : 0 < s.pmm.freeCount ↔ ∃ f, use f = .free := by
  rw [Pmm.freeCount_pos_iff]
  exact exists_congr fun f => (h.owned.free_iff f).symm

theorem has_of_space (h : Layout s use) (ha : use a = .space r) : s.Has (.page a) := (h.live a).mpr ⟨r, ha⟩

theorem tableAt_congr (h : Layout s use) (hr : use r = .node r []) {m' : Mem}
    (hm : ∀ {f r' p}, use f = .node r' p → p.length < 4 → m' f = s.mem f) (va : Nat) {n : Nat} (hn : n ≤ 4) :
    m'.tableAt r va n = s.mem.tableAt r va n := by
  refine Mem.tableAt_congr fun k hk t ht => ?_
  cases k with
  | zero => cases ht; exact hm hr (by decide)
  | succ k => exact hm (h.tables.tableAt_node hr (by omega) ht) (by rw [pagePath_length]; omega)

theorem onHugePage_congr (h : Layout s use) (hr : use r = .node r []) {m' : Mem}
    (hm : ∀ {f r' p}, use f = .node r' p → p.length < 4 → m' f = s.mem f) (va : Nat) :
    m'.onHugePage r va = s.mem.onHugePage r va := by
  unfold Mem.onHugePage
  rw [h.tableAt_congr hr hm va (by decide)]
  cases ht : s.mem.tableAt r va 2 with
  | none => rfl
  | some t =>
    dsimp only
    rw [hm (h.tables.tableAt_node hr (by decide) ht) (by rw [pagePath_length]; decide)]

theorem writeByte_tables (h : Layout s use) (hr : use r = .node r []) {va : Nat} (hoff : s.mem.onHugePage r va = false)
    (hv : s.mem.virtToPhys r va ≠ 0) (w : BitVec 8) :
    Layout { s with mem := s.mem.writeByte (s.mem.virtToPhys r va) w } use ∧
    ∀ {g r' p}, use g = .node r' p → p.length < 4 → s.mem.writeByte (s.mem.virtToPhys r va) w g = s.mem g := by
  obtain ⟨f, -, hf, hphys⟩ := h.tables.virtToPhys_node hr hoff hv
  have hnode : use (s.mem.virtToPhys r va / 4096) = .node (treeOf s.kernelPml4 r va) (pagePath va 4) := by
    rw [hphys, show (f * 4096 + va % 4096) / 4096 = f by omega]
    exact hf
  refine ⟨h.writeByte hnode (pagePath_length _ _) w, fun hg hlen => Mem.writeByte_of_ne _ _ ?_⟩
  rintro rfl
  obtain ⟨-, rfl⟩ := Use.node.inj (hnode.symm.trans hg)
  rw [pagePath_length] at hlen
  omega

/-- `vmm_create_address_space` needs two pages: without the first one it fails, without the second one it panics. -/
theorem vmmCreateAddressSpace_budget (h : Layout s use) :
    (s.pmm.freeCount = 0 ∧ s.vmmCreateAddressSpace = .ok (none, s)) ∨
    (s.pmm.freeCount = 1 ∧ ∃ e, s.vmmCreateAddressSpace = .error e) ∨
    ∃ a s₁, s.pmm.freeCount = s₁.pmm.freeCount + 2 ∧ s.vmmCreateAddressSpace = .ok (some a, s₁) := by
  have hnoPage : ∀ {s : Machine} {use}, Layout s use → (∀ f, use f ≠ .free) → s.pmm.freeCount = 0 := fun hl hnone => by
    have := mt hl.freeCount_pos_iff.mp fun ⟨f, hf⟩ => hnone f hf
    omega
  unfold Machine.vmmCreateAddressSpace
  rcases h.allocPage with ⟨a, ha, heq, hl₁⟩ | ⟨hnone, heq⟩ <;> rw [heq] <;> dsimp only
  swap
  · exact Or.inl ⟨hnoPage h hnone, rfl⟩
  have hcount := Pmm.freeCount_takePage ((h.owned.free_iff a).mp ha)
  rw [if_neg (by have := h.owned.pos ha; omega)]
  unfold Machine.allocPageTable
  rcases hl₁.allocPage with ⟨r, hr, heq, -⟩ | ⟨hnone, heq⟩ <;> rw [heq] <;> dsimp only
  · have hcount' : (s.pmm.takePage a).freeCount = ((s.pmm.takePage a).takePage r).freeCount + 1 :=
      Pmm.freeCount_takePage ((hl₁.owned.free_iff r).mp hr)
    rw [if_neg (by have := hl₁.owned.pos hr; omega)]
    exact Or.inr (Or.inr ⟨a, _, by dsimp only; omega, rfl⟩)
  · have h0 := hnoPage hl₁ hnone
    dsimp only at h0
    exact Or.inr (Or.inl ⟨by omega, _, rfl⟩)

end Layout

namespace Tracks
variable {old : Nat → Nat → Bool} {huge : Nat → Bool} {a r va : Nat} {s s' : Machine} {b : Budget} {flags : Word}
  {img : Image}

theorem missing (h : Tracks old huge a r s b) (hoff : huge va = false) :
    s.mem.missingTables r va = b.missing old va := by
  unfold Mem.missingTables Mem.missing Budget.missing
  rw [h.has va hoff 1 (by decide) (by decide), h.has va hoff 2 (by decide) (by decide),
    h.has va hoff 3 (by decide) (by decide)]

theorem mapNewPage (h : Tracks old huge a r s b) (hva : va % 4096 = 0) (hoff : huge va = false)
    (hfl : Layout.UserFlags flags) (h511 : pageIndex 0 va ≠ 511) :
    Simulates id (fun _ => Tracks old huge a r) (s.mapNewPage (.page a) va flags) (b.mapNewPage old va) := by
  obtain ⟨use, hl, ha⟩ := h.layout
  have hroot := (hl.tables.space ha).2.1
  unfold Machine.mapNewPage Budget.mapNewPage
  rcases hl.allocPage with ⟨f, hf, heq, hl₁⟩ | ⟨hnone, heq⟩ <;> rw [heq] <;> dsimp only
  swap
  · -- No page is left.
    have h0 : b.free = 0 := by
      have := mt hl.freeCount_pos_iff.mp fun ⟨f, hf⟩ => hnone f hf
      rw [h.free] at this
      omega
    rw [if_pos rfl, if_pos h0]
    exact .ok h
  have hpos := hl.owned.pos hf
  have hcount := Pmm.freeCount_takePage ((hl.owned.free_iff f).mp hf)
  rw [h.free] at hcount
  rw [if_neg (by omega), if_neg (show ¬b.free = 0 by omega)]
  -- The page is zeroed: the walks stay as they are.
  have hfheld : update use f .held f = .held := update_self ..
  have hl₂ := hl₁.of_held hfheld fun g hg => Mem.zeroPage_of_ne s.mem hg
  have haf : a ≠ f := by rintro rfl; cases hf.symm.trans ha
  have ha₂ : update use f .held a = .space r := by rw [update_of_ne haf]; exact ha
  have hsame : ∀ {g r' p}, use g = .node r' p → p.length < 4 → s.mem.zeroPage f g = s.mem g := fun hg _ =>
    Mem.zeroPage_of_ne _ (by rintro rfl; cases hf.symm.trans hg)
  have hwalk := fun va n (hn : n ≤ 4) => hl.tableAt_congr hroot hsame va hn
  have hhuge := fun va => hl.onHugePage_congr hroot hsame va
  set s₁ : Machine := { s with mem := s.mem.zeroPage f, pmm := s.pmm.takePage f } with hs₁
  have hpml4 : s₁.pml4 (.page a) = r := hl₂.pml4_eq ha₂
  have has := hl₂.has_of_space ha₂
  have htl := hl₂.tableLayout
  have hoff₁ : s₁.mem.onHugePage (s₁.pml4 (.page a)) va = false := by
    rw [hpml4]
    exact (hhuge va).trans ((h.onHuge va).trans hoff)
  have hmissing : s₁.mem.missingTables (s₁.pml4 (.page a)) va = b.missing old va := by
    rw [← h.missing hoff, hpml4]
    unfold Mem.missingTables Mem.missing
    rw [hwalk va 1 (by decide), hwalk va 2 (by decide), hwalk va 3 (by decide)]
  have hpage : (s₁.mem.tableAt (s₁.pml4 (.page a)) va 4).isSome = b.has old va 4 := by
    rw [← h.has va hoff 4 (by decide) (by decide), hpml4, hwalk va 4 (by decide)]
  have hiff : (∃ s', s₁.vmmMap (.page a) va (f * 4096) flags = .ok s') ↔ _ :=
    htl.vmmMap_ok_iff has hva (Nat.mul_mod_left f 4096) hoff₁
  rw [hmissing] at hiff
  cases hmap : s₁.vmmMap (.page a) va (f * 4096) flags with
  | error e =>
    have hnot := mt hiff.mpr fun ⟨s', hs'⟩ => by rw [hmap] at hs'; cases hs'
    show Simulates _ _ (.error e) _
    by_cases hhas : b.has old va 4 = true
    · rw [if_pos hhas]
      exact .error
    · rw [if_neg hhas, if_pos]
      · exact .error
      · by_contra hroom
        refine hnot ⟨?_, by dsimp only [s₁]; omega⟩
        rw [← Option.not_isSome_iff_eq_none, hpage]
        exact hhas
  | ok s' =>
    obtain ⟨hun, hroom⟩ := hiff.mp ⟨s', hmap⟩
    have hhas : ¬b.has old va 4 = true := by rw [← hpage, hun]; simp
    have hroom : ¬b.free - 1 < b.missing old va := by dsimp only [s₁] at hroom; omega
    rw [if_neg hhas, if_neg hroom]
    show Simulates _ _ (.ok (true, s')) (.ok (id true, _))
    obtain ⟨-, hcount'⟩ := htl.freeCount_vmmMap has hoff₁ hmap
    rw [hmissing] at hcount'
    obtain ⟨use', hl', -, hg, -⟩ := hl₂.vmmMap_page ha₂ hfl h511 hfheld hpos hmap
    have hwalk' := htl.tableAt_vmmMap has hmap
    rw [hpml4] at hwalk'
    have hclear : ∀ va', s'.mem.onHugePage r va' = s.mem.onHugePage r va' := fun va' =>
      (hwalk' va').2.2.1.trans (hhuge va')
    refine .ok ⟨⟨use', hl', hg.space ?_⟩, fun va' => ?_, ?_, fun va' hva' n hn hn4 => ?_⟩
    · rw [update_of_ne haf]
      exact ha₂
    · rw [hclear va']
      exact h.onHuge va'
    · dsimp only [s₁] at hcount'
      dsimp only
      omega
    · rw [Bool.eq_iff_iff, (hwalk' va').2.2.2 n hn hn4, hwalk va' n hn4, h.has va' hva' n hn hn4]
      exact Budget.has_cons.symm

theorem loadPage (h : Tracks old huge a r s b) (hva : va % 4096 = 0) (hoff : huge va = false)
    (hfl : Layout.UserFlags flags) (h511 : pageIndex 0 va ≠ 511) :
    Simulates id (fun _ => Tracks old huge a r) (s.loadPage (.page a) flags va) (b.loadPage old va) := by
  obtain ⟨use, hl, ha⟩ := h.layout
  have hpage := hl.tables.virtToPhys_ne_zero_iff (hl.tables.space ha).2.1 ((h.onHuge va).trans hoff)
  rw [← Option.isSome_iff_exists, h.has va hoff 4 (by decide) (by decide)] at hpage
  unfold Machine.loadPage Budget.loadPage Machine.vmmVirtToPhys
  rw [hl.pml4_eq ha, if_congr hpage rfl rfl]
  split
  · exact .ok h
  · exact h.mapNewPage hva hoff hfl h511

theorem loadByte (h : Tracks old huge a r s b) (img : Image) (ph : Phdr) (off : Nat)
    (hoff : huge ((ph.vaddr + off) % 2 ^ 64) = false) :
    Simulates id (fun _ => Tracks old huge a r) (s.loadByte img (.page a) ph off) (b.loadByte old ph off) := by
  obtain ⟨use, hl, ha⟩ := h.layout
  have hroot := (hl.tables.space ha).2.1
  unfold Machine.loadByte Budget.loadByte Machine.vmmVirtToPhys
  rw [hl.pml4_eq ha]
  generalize (ph.vaddr + off) % 2 ^ 64 = va at hoff
  have hclear := (h.onHuge va).trans hoff
  have hpage := hl.tables.virtToPhys_ne_zero_iff hroot hclear
  rw [← Option.isSome_iff_exists, h.has va hoff 4 (by decide) (by decide)] at hpage
  dsimp only
  by_cases hv : s.mem.virtToPhys r va = 0
  · rw [if_pos hv, show b.has old va 4 = id false by simpa [hv] using hpage]
    exact .ok h
  rw [if_neg hv, show b.has old va 4 = id true from hpage.mp hv]
  have hwrite := fun w => hl.writeByte_tables hroot hclear hv w
  refine .ok ⟨⟨use, (hwrite _).1, ha⟩, fun va' => ?_, h.free, fun va' hva' n hn hn4 => ?_⟩
  · exact (hl.onHugePage_congr hroot (hwrite _).2 va').trans (h.onHuge va')
  · dsimp only
    rw [hl.tableAt_congr hroot (hwrite _).2 va' hn4]
    exact h.has va' hva' n hn hn4

section Load
variable (hoff : s.LoadsOff (.page a) img)
include hoff

/-- The bodies of the loops go side by side at the points of a load that keeps off the 2 MiB pages. -/
theorem pageBody {i j : Nat} {t : Machine}
    (hat : img.AtPage (Machine.pageBody (.page a) img) (Machine.byteBody (.page a) img) s i j t)
    (h : Tracks old huge a r t b) :
    Simulates id (fun _ => Tracks old huge a r) (Machine.pageBody (.page a) img i j t)
      (Budget.pageBody old img i j b) := by
  obtain ⟨use, hl, ha⟩ := h.layout
  have hclear := hoff.page i j t hat
  rw [hl.pml4_eq ha, h.onHuge] at hclear
  have := Layout.pageIndex_zero_lt hat.in_user.2
  exact h.loadPage (by unfold Phdr.segStart; omega) hclear (Layout.mapFlags_userFlags _) (by omega)

theorem byteBody {i off : Nat} {t : Machine}
    (hat : img.AtByte (Machine.pageBody (.page a) img) (Machine.byteBody (.page a) img) s i off t)
    (h : Tracks old huge a r t b) :
    Simulates id (fun _ => Tracks old huge a r) (Machine.byteBody (.page a) img i off t)
      (Budget.byteBody old img i off b) := by
  obtain ⟨use, hl, ha⟩ := h.layout
  have hclear := hoff.byte i off t hat
  rw [hl.pml4_eq ha, h.onHuge] at hclear
  exact h.loadByte img _ off hclear

theorem load (h : Tracks old huge a r s b) : Simulates id (fun _ => Tracks old huge a r)
    (img.load (Machine.pageBody (.page a) img) (Machine.byteBody (.page a) img) s) (b.loadElfIntoAs old img) :=
  Image.load_simulates h (fun _ _ _ _ hat ht => ht.pageBody hoff hat) fun _ _ _ _ hat ht => ht.byteBody hoff hat

theorem loadElfIntoAs (h : Tracks old huge a r s b) :
    Simulates Option.isSome (fun _ => Tracks old huge a r) (s.loadElfIntoAs (.page a) img)
      (b.loadElfIntoAs old img) := by
  rw [Machine.loadElfIntoAs_eq (by simp)]
  exact (h.load hoff).map fun ok s t ht => ⟨_, s, rfl, by cases ok <;> rfl, ht⟩

/-- The addresses that a load touches which succeeds are off the 2 MiB pages. -/
theorem off_of_load (h : Tracks old huge a r s b)
    (hl : img.load (Machine.pageBody (.page a) img) (Machine.byteBody (.page a) img) s = .ok (true, s')) {va : Nat}
    (hva : img.Touches va) : huge va = false := by
  have hkeeps : Image.Keeps (Machine.pageBody (.page a) img) (Machine.byteBody (.page a) img) img s fun t =>
      ∃ b, Tracks old huge a r t b := by
    refine ⟨fun i j t b t' hat ⟨c, hc⟩ hf => ?_, fun i j t b t' hat ⟨c, hc⟩ hf => ?_⟩
    · have hsim := hc.pageBody hoff hat
      rw [hf] at hsim
      exact hsim.of_left_ok.imp fun _ h => h.2
    · have hsim := hc.byteBody hoff hat
      rw [hf] at hsim
      exact hsim.of_left_ok.imp fun _ h => h.2
  obtain ⟨i, hc, hseg, ⟨j, hj, rfl⟩ | ⟨off, hlt, rfl⟩⟩ := hva
  · obtain ⟨t, -, hat, -⟩ := Image.exists_atPage hl hc.2.1 hseg.1 hj
    obtain ⟨c, hc⟩ := hkeeps.atPage ⟨b, h⟩ hat
    obtain ⟨use, hl, ha⟩ := hc.layout
    rw [← hc.onHuge, ← hl.pml4_eq ha]
    exact hoff.page i j t hat
  · obtain ⟨t, -, hat, -⟩ := Image.exists_atByte hl hc.2.1 hseg.1 hlt
    obtain ⟨c, hc⟩ := hkeeps.atByte ⟨b, h⟩ hat
    obtain ⟨use, hl, ha⟩ := hc.layout
    rw [← hc.onHuge, ← hl.pml4_eq ha]
    exact hoff.byte i off t hat

end Load

theorem off_stack (h : Tracks old huge a r s b) {i : Nat} (hi : i < processStackPages) :
    huge (processStackVirt - (i + 1) * 4096) = false := by
  obtain ⟨use, hl, ha⟩ := h.layout
  rw [← h.onHuge]
  by_contra hh
  obtain ⟨pd, hpd, hp, hh⟩ := (hl.tables.onHugePage_iff (hl.tables.space ha).2.1).mp (by simpa using hh)
  rw [Layout.treeOf_stack _ _ hi] at hpd
  exact (hl.tables.space ha).1 (hl.tables.huge hpd (by rw [pagePath_length]; decide) (pageIndex_lt _ _) hp hh).2.1

theorem mapUserStack (h : Tracks old huge a r s b) :
    Simulates Option.isSome (fun _ => Tracks old huge a r) (s.mapUserStack (.page a)) (b.mapUserStack old) := by
  unfold Machine.mapUserStack Budget.mapUserStack
  rw [if_neg (by simp), if_neg (by decide)]
  refine (Simulates.forWhile h fun i t b hat ht => ?_).map fun ok s t ht => ⟨_, s, rfl, by cases ok <;> rfl, ht⟩
  have hi : i < processStackPages := by have := hat.2.1; omega
  refine ht.mapNewPage ?_ (ht.off_stack hi) Layout.stackFlags_userFlags (by rw [Layout.pageIndex_stack hi]; decide)
  simp only [processStackVirt, processStackPages] at *
  omega

end Tracks

/-! ### A new address space -/

/-- The tables and pages that a new address space has from the start: those under the shared entries of the PML4. -/
def Machine.shares (s : Machine) (va n : Nat) : Bool :=
  (decide (pageIndex 0 va = 0) || decide (pageIndex 0 va = 511)) && (s.mem.tableAt s.kernelPml4 va n).isSome

/-- The addresses that the load of an image touches. -/
def Image.Loads (img : Image) (va : Nat) : Prop :=
  img.Touches va ∨ ∃ i < processStackPages, va = processStackVirt - (i + 1) * 4096

namespace Layout.NewSpace
variable {s s₁ : Machine} {use use₁ : Nat → Use} {a r : Nat} {img : Image}

theorem tableAt_isSome (h : NewSpace s use a r s₁ use₁) (hl : Layout s use) (va : Nat) {n : Nat} (hn : n < 4) :
    (s₁.mem.tableAt r va (n + 1)).isSome = s.shares va (n + 1) := by
  have ht₁ := h.layout.tables
  rw [h.kernelPml4] at ht₁
  unfold Machine.shares
  by_cases hs : pageIndex 0 va = 0 ∨ pageIndex 0 va = 511
  · rw [ht₁.tableAt_shared h.root hs hn, hl.tables.tableAt_eq h.grows hl.tables.kernelRoot id id (by omega)]
    simp [hs]
  · rw [not_or] at hs
    have hnone : s₁.mem.tableAt r va 1 = none := by
      rw [Mem.tableAt_succ rfl, h.empty _ hs.1 hs.2]
      decide
    rw [Mem.tableAt_eq_none hnone (by omega)]
    simp [hs.1, hs.2]

theorem tracks (h : NewSpace s use a r s₁ use₁) (hl : Layout s use) (hcount : s.pmm.freeCount = s₁.pmm.freeCount + 2) :
    Tracks s.shares (s₁.mem.onHugePage r) a r s₁ { free := s.pmm.freeCount - 2, pages := [] } := by
  refine ⟨⟨use₁, h.layout, h.space⟩, fun va => rfl, by dsimp only; omega, fun va _ n hn hn4 => ?_⟩
  obtain ⟨n, rfl⟩ : ∃ m, n = m + 1 := ⟨n - 1, by omega⟩
  rw [h.tableAt_isSome hl va (by omega)]
  simp [Budget.has]

/-- Below entry 0 it has the 2 MiB pages of the kernel. -/
theorem onHugePage_low (h : NewSpace s use a r s₁ use₁) (hl : Layout s use) {va : Nat} (h0 : pageIndex 0 va = 0) :
    s₁.mem.onHugePage r va = s.mem.onHugePage s.kernelPml4 va := by
  have ht₁ := h.layout.tables
  rw [h.kernelPml4] at ht₁
  rw [ht₁.onHugePage_shared h.root (Or.inl h0)]
  exact hl.onHugePage_congr hl.tables.kernelRoot (fun hf _ => h.grows.mem_node hf id) va

end Layout.NewSpace

theorem Layout.loadProgram_budget {s : Machine} {use : Nat → Use} {img : Image} (h : Layout s use)
    (hav : s.Avoids img) :
    Simulates Option.isSome (fun prog s' b => ∀ p, prog = some p → ∃ r huge, Tracks s.shares huge p.space r s' b ∧
        ∀ va, img.Touches va → huge va = false ∧ (pageIndex 0 va = 0 → s.mem.onHugePage s.kernelPml4 va = false))
      (s.loadProgram img) (Budget.loadProgram s.shares { free := s.pmm.freeCount, pages := [] } img) := by
  unfold Machine.loadProgram Budget.loadProgram
  rcases h.vmmCreateAddressSpace_budget with ⟨hcount, hc⟩ | ⟨hcount, e, hc⟩ | ⟨a, s₁, hcount, hc⟩ <;> rw [hc]
  · rw [if_pos hcount]
    exact .ok nofun
  · rw [if_neg (by dsimp only; omega), if_pos hcount]
    exact .error
  rw [if_neg (by dsimp only; omega), if_neg (by dsimp only; omega)]
  obtain ⟨r, use₁, hn⟩ : ∃ r use₁, NewSpace s use a r s₁ use₁ := by
    rcases h.vmmCreateAddressSpace hc with ⟨hnone, -⟩ | ⟨a', r, use₁, ha, hn⟩
    · cases hnone
    · obtain rfl := Option.some.inj ha
      exact ⟨r, use₁, hn⟩
  have hoff := hav a s₁ hc
  refine ((hn.tracks h hcount).loadElfIntoAs hoff).self.bind fun entry t b ⟨ht, hx⟩ => ?_
  cases entry with
  | none => exact .ok nofun
  | some entry =>
    have hclear (va : Nat) (hva : img.Touches va) : s₁.mem.onHugePage r va = false :=
      (hn.tracks h hcount).off_of_load hoff (Machine.load_of_some hx).2 hva
    refine ht.mapUserStack.map fun rsp s₃ b₃ ht => ?_
    cases rsp with
    | none => exact ⟨_, _, rfl, rfl, nofun⟩
    | some rsp =>
      refine ⟨_, _, rfl, rfl, fun p hp => ⟨r, _, by cases hp; exact ht, fun va hva => ⟨hclear va hva, fun h0 => ?_⟩⟩⟩
      exact (hn.onHugePage_low h h0).symm.trans (hclear va hva)

end SamOS
