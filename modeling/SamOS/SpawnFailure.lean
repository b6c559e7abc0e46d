import SamOS.KernelRuns
import SamOS.PmmTaken

/-! Spawns that fail. `process_spawn_from_elf` undoes what it did by destroying the new address space, which gives the
    tables back but not the pages that were mapped. So a failed call leaves everything as it was exactly when it fails
    before the first page is mapped. -/

namespace SamOS
open Result

/-! ### Pages that a budget spends -/

namespace Budget
variable {old : Nat → Nat → Bool} {b b' b'' : Budget} {c : Bool} {va : Nat} {img : Image}

/-- Nothing happened, or pages were mapped and are not free any more. -/
def Spends (b b' : Budget) : Prop := b' = b ∨ (b'.free < b.free ∧ b'.pages ≠ [])

theorem Spends.trans (h : Spends b b') (h' : Spends b' b'') : Spends b b'' := by
  rcases h' with rfl | ⟨hlt, hne⟩
  · exact h
  · rcases h with rfl | ⟨hlt', -⟩
    · exact Or.inr ⟨hlt, hne⟩
    · exact Or.inr ⟨by omega, hne⟩

theorem mapNewPage_spends (h : b.mapNewPage old va = .ok (c, b')) : Spends b b' := by
  unfold mapNewPage at h
  split at h
  · cases h
    exact Or.inl rfl
  split at h
  · cases h
  split at h
  · cases h
  cases h
  exact Or.inr ⟨by dsimp only; omega, by simp⟩

theorem keeps_spends (old : Nat → Nat → Bool) (img : Image) (b : Budget) :
    Image.Keeps (pageBody old img) (byteBody old img) img b (Spends b) where
  onPage i j t c t' _ ht hf := by
    unfold pageBody loadPage at hf
    split at hf
    · cases hf
      exact ht
    · exact ht.trans (mapNewPage_spends hf)
  onByte i off t c t' _ ht hf := by
    cases hf
    exact ht

theorem loadElfIntoAs_spends (h : b.loadElfIntoAs old img = .ok (c, b')) : Spends b b' :=
  (keeps_spends old img b).load (.inl rfl) h

theorem mapUserStack_spends (h : b.mapUserStack old = .ok (c, b')) : Spends b b' :=
  forWhile_keeps (P := Spends b) h (.inl rfl) fun _ _ _ _ _ ht hf => ht.trans (mapNewPage_spends hf)

end Budget

theorem Pmm.freeCount_lt {s t : Pmm} {f : Nat} (htotal : t.totalPages = s.totalPages) (hsub : ∀ p, t.Free p → s.Free p)
    (hf : s.Free f) (hn : ¬t.Free f) : t.freeCount < s.freeCount := by
  have hle : t.freeCount ≤ (s.takePage f).freeCount := by
    unfold freeCount
    rw [htotal]
    refine Nat.count_mono_left fun p hp hfree => ?_
    have hp' : t.Free p := ⟨by rw [htotal]; exact hp, hfree⟩
    exact (free_takePage_iff.mpr ⟨hsub p hp', by rintro rfl; exact hn hp'⟩).2
  have := freeCount_takePage hf
  omega

/-! ### Destroying the new address space -/

namespace Layout
variable {s s₁ s₂ s' : Machine} {use use₁ use₂ : Nat → Use} {a r : Nat} {img : Image}

theorem NewSpace.pmm (hn : NewSpace s use a r s₁ use₁) (h : Layout s use)
    (hc : s.vmmCreateAddressSpace = .ok (some a, s₁)) :
    s.pmm.Taken {r, a} s₁.pmm := by
  rcases Machine.vmmCreateAddressSpace_cases hc with ⟨hnone, -⟩ | ⟨a', r', ha, hcr⟩
  · cases hnone
  obtain rfl := Option.some.inj ha
  have hlt := (Pmm.free_takePage_iff.mp hcr.freePml4).1.1
  have := h.owned.total
  obtain rfl : r' = r := by
    rw [← hn.layout.pml4_eq hn.space, Machine.pml4, hcr.pointer, BitVec.toNat_ofNat, Nat.mod_eq_of_lt (by omega)]
    omega
  rw [hcr.pmm]
  exact ((Pmm.Taken.refl s.pmm).take hcr.freeSpace).take hcr.freePml4

theorem NewSpace.undone (hn : NewSpace s use a r s₁ use₁) (h : Layout s use)
    (hc : s.vmmCreateAddressSpace = .ok (some a, s₁)) (hpmm : s₂.pmm = s₁.pmm) (hm : PagesOnly use₁ s₁.mem s₂.mem) :
    (s₂.vmmDestroyAddressSpace a).pmm = s.pmm := by
  have hpml4 : s₂.pml4 (.page a) = r := by
    rw [← hn.layout.pml4_eq hn.space, Machine.pml4, Machine.pml4, hm a fun r' p hp => by cases hn.space.symm.trans hp]
  -- The PML4 has no tables of its own.
  have hnone : Machine.tablesBelow s₂.mem 3 (List.range' 1 510) r = [] := by
    refine List.flatMap_eq_nil_iff.mpr fun i hi => if_neg ?_
    have := List.mem_range'_1.mp hi
    rw [hm r fun r' p hp => by cases hn.root.symm.trans hp; decide, hn.empty i (by omega) (by omega)]
    decide
  have hne : r ≠ a := by rintro rfl; cases hn.space.symm.trans hn.root
  rw [Machine.vmmDestroyAddressSpace_pmm, Machine.freedPages, hpml4, hnone, hpmm]
  have hgive := (hn.pmm h hc).giveAll (l := [r, a]) (by simp [hne]) fun p hp => by
    have h0 := fun {f} => h.owned.pos (f := f)
    rcases List.mem_pair.mp hp with rfl | rfl
    · exact ⟨by simp, by have := h0 hn.root_free; omega⟩
    · exact ⟨by simp, by have := h0 hn.space_free; omega⟩
  rw [show ({r, a} : Finset Nat) \ [r, a].toFinset = ∅ by simp] at hgive
  exact hgive.eq_of_empty

/-- What a failed load leaves: the bitmap, the tables and the address spaces as they were, or less free pages. -/
def Restores (s : Machine) (use : Nat → Use) (b : Budget) (s' : Machine) : Prop :=
  (b.pages = [] ∧ s'.pmm = s.pmm ∧
    ∀ f, use f ≠ .free → use f ≠ .held → (∀ r p, use f = .node r p → p.length ≠ 4) → s'.mem f = s.mem f) ∨
  (b.pages ≠ [] ∧ ∃ f, use f = .free ∧ ¬s'.pmm.Free f)

theorem NewSpace.restores {scope : Nat → Prop} {old : Nat → Nat → Bool} {huge : Nat → Bool} {b : Budget}
    (hn : NewSpace s use a r s₁ use₁) (h : Layout s use) (hc : s.vmmCreateAddressSpace = .ok (some a, s₁))
    (hcount : s.pmm.freeCount = s₁.pmm.freeCount + 2) (hl : Loaded scope s₁ use₁ s₂ use₂)
    (ht : Tracks old huge a r s₂ b) (hb : Budget.Spends { free := s.pmm.freeCount - 2, pages := [] } b) :
    Restores s use b (s₂.vmmDestroyAddressSpace a) := by
  have hfree := ht.free
  rcases hl.effect with ⟨rfl, hpmm, hm⟩ | ⟨f, hf, hk⟩
  · -- No page was mapped.
    refine Or.inl ⟨?_, hn.undone h hc hpmm hm, fun f hf hh hp => ?_⟩
    · rcases hb with rfl | ⟨hlt, -⟩
      · rfl
      · rw [hpmm] at hfree
        dsimp only at hlt
        omega
    · exact (hm f fun r' p hq => hp r' p ((hn.grows.keeps hf).symm.trans hq)).trans
        (hn.grows.mem hf hh fun _ _ h => h.elim)
  · have hlost : ¬s₂.pmm.Free f := fun hc => hk.ne_free ((hl.layout.owned.free_iff f).mpr hc)
    refine Or.inr ⟨?_, f, hn.grows.free hf, fun hc => ?_⟩
    · have hlt := Pmm.freeCount_lt hl.steady.totalPages (fun p hp =>
        (hn.layout.owned.free_iff p).mp (hl.grows.free ((hl.layout.owned.free_iff p).mpr hp)))
        ((hn.layout.owned.free_iff f).mp hf) hlost
      rcases hb with rfl | ⟨-, hne⟩
      · dsimp only at hfree
        omega
      · exact hne
    · have hdes := hl.layout.vmmDestroyAddressSpace (hl.grows.space hn.space)
      exact (hk.destroy r).ne_free ((hdes.owned.free_iff f).mpr hc)

theorem loadImage_budget {entry : Option Nat} (h : Layout s use) (hav : s.Avoids img)
    (hc : s.vmmCreateAddressSpace = .ok (some a, s₁)) (hcount : s.pmm.freeCount = s₁.pmm.freeCount + 2)
    (hi : s₁.loadElfIntoAs (.page a) img = .ok (entry, s₂)) :
    ∃ r use₁ use₂ b, NewSpace s use a r s₁ use₁ ∧ Loaded (LoadScope s.kernelPml4 use img) s₁ use₁ s₂ use₂ ∧
      Budget.loadElfIntoAs s.shares { free := s.pmm.freeCount - 2, pages := [] } img = .ok (entry.isSome, b) ∧
      Tracks s.shares (s₁.mem.onHugePage r) a r s₂ b := by
  obtain ⟨r, use₁, use₂, hn, hload⟩ := h.loadImage hav hc hi
  have hsim := (hn.tracks h hcount).loadElfIntoAs (hav _ _ hc)
  rw [hi] at hsim
  generalize Budget.loadElfIntoAs s.shares _ img = res at hsim ⊢
  cases hsim with
  | ok ht => exact ⟨r, use₁, use₂, _, hn, hload, rfl, ht⟩

/-- A load that fails ends with the budget's failure, and leaves what the budget says. -/
theorem loadProgram_fails (h : Layout s use) (hav : s.Avoids img) (hl : s.loadProgram img = .ok (none, s')) :
    ∃ b, Budget.loadProgram s.shares { free := s.pmm.freeCount, pages := [] } img = .ok (false, b) ∧
      Restores s use b s' := by
  unfold Budget.loadProgram
  rcases h.vmmCreateAddressSpace_budget with ⟨hcount, hnone⟩ | ⟨-, e, herr⟩ | ⟨a, s₁, hcount, hc⟩
  · rw [if_pos hcount]
    cases Machine.loadProgram_cases hl with
    | noSpace hc =>
      cases hnone.symm.trans hc
      exact ⟨_, rfl, Or.inl ⟨rfl, rfl, fun _ _ _ _ => rfl⟩⟩
    | rejected hc _ => cases hnone.symm.trans hc
    | noStack hc _ _ => cases hnone.symm.trans hc
  · cases Machine.loadProgram_cases hl with
    | noSpace hc => cases herr.symm.trans hc
    | rejected hc _ => cases herr.symm.trans hc
    | noStack hc _ _ => cases herr.symm.trans hc
  rw [if_neg (by dsimp only; omega), if_neg (by dsimp only; omega)]
  have hsame : ∀ {a' s₁'}, s.vmmCreateAddressSpace = .ok (some a', s₁') → a' = a ∧ s₁' = s₁ := fun hc' => by
    have := Prod.mk.inj (Except.ok.inj (hc'.symm.trans hc))
    exact ⟨Option.some.inj this.1, this.2⟩
  cases Machine.loadProgram_cases hl with
  | noSpace hc' =>
    cases hc.symm.trans hc'
  | rejected hc' hi =>
    obtain ⟨rfl, rfl⟩ := hsame hc'
    obtain ⟨r, use₁, use₂, b, hn, hload, hb, ht⟩ := h.loadImage_budget hav hc hcount hi
    rw [hb]
    exact ⟨_, rfl, hn.restores h hc hcount hload ht (Budget.loadElfIntoAs_spends hb)⟩
  | @noStack _ _ _ s₂ s₃ hc' hi hm =>
    obtain ⟨rfl, rfl⟩ := hsame hc'
    obtain ⟨r, use₁, use₂, b, hn, hload, hb, ht⟩ := h.loadImage_budget hav hc hcount hi
    have hstack := ht.mapUserStack
    rw [hm] at hstack
    rw [hb]
    generalize hb' : Budget.mapUserStack s.shares _ = res at hstack
    cases hstack with
    | ok ht' =>
      have hroot : LoadScope s.kernelPml4 use img r := Or.inl hn.root_free
      obtain ⟨use₃, hload'⟩ : ∃ use₃, Loaded (LoadScope s.kernelPml4 use img) s₂ use₂ s₃ use₃ := by
        rcases hload.layout.mapUserStack (hload.grows.space hn.space) hroot hm with ⟨-, hs₃, -⟩ | ⟨use₃, f, hl₃, -⟩
        · rw [hs₃]
          exact ⟨use₂, .refl _ hload.layout⟩
        · exact ⟨use₃, hl₃⟩
      exact ⟨_, hb', hn.restores h hc hcount (hload.trans hload') ht'
        ((Budget.loadElfIntoAs_spends hb).trans (Budget.mapUserStack_spends hb'))⟩

end Layout

/-! ### Failed spawns -/

namespace Kernel
variable {k k' : Kernel} {use : Nat → Use} {img : Image}

/-- The free pages with their counter, the process table and the user translations of all address spaces are as
    before. An address on a 2 MiB page is the kernel's. -/
structure Unchanged (k k' : Kernel) : Prop where
  pmm : k'.machine.pmm = k.machine.pmm
  procs : k'.procs = k.procs
  translations : ∀ a, alive k.machine.log a = true → ∀ va < userUpperLimit,
    k.machine.mem.onHugePage (k.machine.pml4 (.page a)) va = false →
    k'.machine.vmmVirtToPhys (.page a) va = k.machine.vmmVirtToPhys (.page a) va

/-- A spawn fails before it has mapped a page: the process table is full, or the load comes to no 2 MiB page and its
    page budget ends with a failure and no pages. -/
def FailsEarly (k : Kernel) (img : Image) : Prop :=
  k.allocProcessSlot = none ∨ k.machine.Avoids img ∧
  ∃ b, Budget.loadProgram k.machine.shares { free := k.machine.pmm.freeCount, pages := [] } img = .ok (false, b) ∧
    b.pages = []

theorem Unchanged.of_tables (h : Layout k.machine use) (hpmm : k'.machine.pmm = k.machine.pmm)
    (hprocs : k'.procs = k.procs)
    (hm : ∀ f, use f ≠ .free → use f ≠ .held → (∀ r p, use f = .node r p → p.length ≠ 4) →
      k'.machine.mem f = k.machine.mem f) :
    k.Unchanged k' := by
  refine ⟨hpmm, hprocs, fun a ha va _ hoff => ?_⟩
  obtain ⟨r, ha⟩ := (h.live a).mp ha
  have hroot := (h.tables.space ha).2.1
  have hpage : k'.machine.mem a = k.machine.mem a :=
    hm a (by rw [ha]; exact nofun) (by rw [ha]; exact nofun) fun r p hp => by cases ha.symm.trans hp
  have htable : ∀ {f r p}, use f = .node r p → p.length < 4 → k'.machine.mem f = k.machine.mem f :=
    fun {f r p} hf hlt =>
    hm f (by rw [hf]; exact nofun) (by rw [hf]; exact nofun) fun r' q hq => by
      rw [← (Use.node.inj (hf.symm.trans hq)).2]
      omega
  have hpml4 : k'.machine.pml4 (.page a) = k.machine.pml4 (.page a) := by rw [Machine.pml4, Machine.pml4, hpage]
  rw [Machine.vmmVirtToPhys, Machine.vmmVirtToPhys, hpml4]
  rw [h.pml4_eq ha] at hoff ⊢
  rw [Mem.virtToPhys_eq hoff, Mem.virtToPhys_eq ((h.onHugePage_congr hroot htable va).trans hoff),
    h.tableAt_congr hroot htable va (Nat.le_refl 4)]

/-- A program that was loaded has taken a page for its stack, and what comes later does not give it back. -/
theorem lost_of_loaded (h : HeapMemory k use) (hcan : k.CanSpawn img) {slot : Nat} {prog : Program} {machine : Machine}
    {tid : Option Nat} (hslot : k.allocProcessSlot = some slot)
    (hl : k.machine.loadProgram img = .ok (some prog, machine))
    (hc : { k.withMachine machine with nextPid := k.nextPid + 1 }.taskCreate
      (prog.newTask k.nextPid.toInt (machine.pml4 (.page prog.space))) = .ok (tid, k')) :
    ∃ f, use f = .free ∧ ¬k'.machine.pmm.Free f ∧ ¬(k'.machine.vmmDestroyAddressSpace prog.space).pmm.Free f := by
  obtain ⟨use', hev, hp⟩ := h.layout.loadProgram (hcan.avoids hslot) hl
  obtain ⟨r, hprog⟩ := hp prog rfl
  have hm : HeapMemory { k.withMachine machine with nextPid := k.nextPid + 1 } use' :=
    ⟨hev.layout, h.tasks, fun r hr => (h.held r hr).grows hev.grows⟩
  obtain ⟨use'', hst⟩ := hm.taskCreate (hcan.merges hslot hl) hc
  have hprog' := hprog.grows hst.grows
  obtain ⟨f, hf, hk⟩ := hprog'.page
  have hkept : (use'' f).Kept := Or.inr ⟨r, _, pagePath_length _ _, hk⟩
  have hdes := hst.memory.layout.vmmDestroyAddressSpace hprog'.space
  exact ⟨f, hf, fun hc => hkept.ne_free ((hst.memory.layout.owned.free_iff f).mpr hc),
    fun hc => (hkept.destroy r).ne_free ((hdes.owned.free_iff f).mpr hc)⟩

/-- A call that fails early leaves everything as it was. -/
theorem unchanged_of_failsEarly (h : HeapMemory k use) {found : Option (Nat × Process)}
    (hprep : k.prepareSpawn img = .ok (found, k')) (hearly : k.FailsEarly img) : found = none ∧ k.Unchanged k' := by
  -- The budget says that no program is loaded.
  have hnone : ∀ {slot prog machine}, k.allocProcessSlot = some slot → k.machine.loadProgram img ≠ .ok (some prog,
      machine) := by
    intro slot prog machine hslot hl
    rcases hearly with hfull | ⟨hav, b, hb, -⟩
    · cases hslot.symm.trans hfull
    · have hsim := h.layout.loadProgram_budget hav
      rw [hl, hb] at hsim
      cases hsim
  cases prepareSpawn_cases hprep with
  | full hslot => exact ⟨rfl, rfl, rfl, fun _ _ _ _ _ => rfl⟩
  | noProgram hslot hl =>
    refine ⟨rfl, ?_⟩
    rcases hearly with hfull | ⟨hav, b, hb, hnil⟩
    · cases hslot.symm.trans hfull
    obtain ⟨b', hb', ⟨-, hpmm, hm⟩ | ⟨hpages, -⟩⟩ := h.layout.loadProgram_fails hav hl
    · exact .of_tables h.layout hpmm rfl hm
    · cases hb.symm.trans hb'
      exact absurd hnil hpages
  | noTask hslot hl hc => exact absurd hl (hnone hslot)
  | task hslot hl hc => exact absurd hl (hnone hslot)

/-- A call that returns `-1` leaves everything as it was if it fails early, and otherwise only where it came to a 2
    MiB page or merged blocks of two page runs. -/
theorem failed_spawn_iff (h : HeapMemory k use) (hs : k.processSpawnFromElf img = .ok (-1, k')) :
    (k.FailsEarly img → k.Unchanged k') ∧ (k.CanSpawn img → k.Unchanged k' → k.FailsEarly img) := by
  obtain ⟨⟨found, k₁⟩, hprep, hs⟩ := of_bind_eq_ok hs
  refine ⟨fun hearly => ?_, fun hcan hu => ?_⟩
  · obtain ⟨rfl, hu⟩ := unchanged_of_failsEarly h hprep hearly
    cases hs
    exact hu
  have hkept : ∀ {f}, use f = .free → k'.machine.pmm.Free f := fun {f} hf => by
    rw [hu.pmm]
    exact (h.layout.owned.free_iff f).mp hf
  cases prepareSpawn_cases hprep with
  | full hslot => exact Or.inl hslot
  | noProgram hslot hl =>
    cases hs
    obtain ⟨b, hb, ⟨hnone, -⟩ | ⟨-, f, hf, hn⟩⟩ := h.layout.loadProgram_fails (hcan.avoids hslot) hl
    · exact Or.inr ⟨hcan.avoids hslot, b, hb, hnone⟩
    · exact absurd (hkept hf) hn
  | noTask hslot hl hc =>
    cases hs
    obtain ⟨f, hf, -, hn⟩ := lost_of_loaded h hcan hslot hl hc
    exact absurd (hkept hf) hn
  | task hslot hl hc =>
    -- The pid of the new process happens to be `-1`.
    obtain rfl := (Prod.mk.inj (Except.ok.inj hs)).2
    obtain ⟨f, hf, hn, -⟩ := lost_of_loaded h hcan hslot hl hc
    exact absurd (hkept hf) hn

theorem spawn_fails_of_budget (h : HeapMemory k use) (hav : k.machine.Avoids img) {slot : Nat} {b : Budget}
    (hslot : k.allocProcessSlot = some slot)
    (hb : Budget.loadProgram k.machine.shares { free := k.machine.pmm.freeCount, pages := [] } img = .ok (false, b)) :
    ∃ machine, k.machine.loadProgram img = .ok (none, machine) ∧ k.processSpawnFromElf img = .ok
      (-1, k.withMachine machine) := by
  have hsim := h.layout.loadProgram_budget hav
  rw [hb] at hsim
  obtain ⟨prog, machine, hl, hnone, -⟩ := hsim.of_ok
  obtain rfl := Option.isSome_eq_false_iff.mp hnone |> Option.isNone_iff_eq_none.mp
  refine ⟨machine, hl, ?_⟩
  unfold processSpawnFromElf prepareSpawn
  rw [hslot]
  dsimp only
  rw [hl]
  rfl

/-- A file of zeros is rejected. -/
theorem failed_spawn_iff_sample : ∃ k k' : Kernel, sampleKernels.Reachable k ∧
    k.processSpawnFromElf { bareImage with byte := fun _ => 0 } = .ok (-1, k') ∧ k.Unchanged k' := by
  obtain ⟨k, use, stack₀, stack₁, hb, hidle, -⟩ := exists_idle fun _ _ => 0
  have hav : k.machine.Avoids { bareImage with byte := fun _ => 0 } :=
    hidle.memory.layout.avoids fun va ⟨i, hc, _⟩ => absurd hc.2.1 (Nat.not_lt_zero i)
  have hcount := hidle.room.count
  have hbudget : Budget.loadProgram k.machine.shares { free := k.machine.pmm.freeCount, pages := [] }
    { bareImage with byte := fun _ => 0 } =
      .ok (false, { free := k.machine.pmm.freeCount - 2, pages := [] }) := by
    unfold Budget.loadProgram
    rw [if_neg (by dsimp only; omega), if_neg (by dsimp only; omega)]
    rfl
  obtain ⟨machine, -, hs⟩ := spawn_fails_of_budget hidle.memory hav hidle.allocProcessSlot hbudget
  exact ⟨k, _, .init (sampleKernels_init hb), hs,
    (failed_spawn_iff hidle.memory hs).1 (Or.inr ⟨hav, _, hbudget, rfl⟩)⟩

end Kernel

/-! ### A page that is lost -/

/-- A program with a page at `0x8000000000` and a second segment at address 0, which is not a user address. -/
def brokenImage : Image where
  addr := 0x200000
  size := 176
  byte i := if i = 56 then 2 else if i = 120 then 1 else (pageImage 0x8000000000).byte i

theorem brokenImage_segments : brokenImage.phnum = 2 ∧ (brokenImage.phdr 0).OnePage 0x8000000000 ∧
    brokenImage.phdr 1 = { type := 1, flags := 0, offset := 0, vaddr := 0, filesz := 0, memsz := 0 } :=
  ⟨by decide, ⟨by decide, by decide, by decide, by decide⟩, by decide⟩

theorem Budget.loadProgram_broken {old : Nat → Nat → Bool} {n : Nat} (hold : old 0x8000000000 4 = false) (hn : 6 ≤ n) :
    ∃ b, loadProgram old { free := n, pages := [] } brokenImage = .ok (false, b) ∧ b.pages ≠ [] := by
  obtain ⟨htwo, hone, hbad⟩ := brokenImage_segments
  have hnew : has old { free := n - 2, pages := [] } 0x8000000000 4 = false := by simp [has, hold]
  have hle : missing old { free := n - 2, pages := [] } 0x8000000000 ≤ 3 := missing_le
  have hpage := mapNewPage_eq_ok hnew (by dsimp only; omega)
  generalize missing old { free := n - 2, pages := [] } 0x8000000000 = d at hpage
  have hfirst : loadSegment old brokenImage (brokenImage.phdr 0) { free := n - 2, pages := [] } =
      .ok (true, { free := n - 2 - 1 - d, pages := [0x8000000000] }) := by
    rw [loadSegment_onePage hone, loadPage, if_neg (by simp [hnew])]
    exact hpage
  have hload : loadElfIntoAs old { free := n - 2, pages := [] } brokenImage =
      .ok (false, { free := n - 2 - 1 - d, pages := [0x8000000000] }) := by
    unfold loadElfIntoAs
    rw [if_neg (by decide), htwo, forWhile_true hfirst]
    simp only [forWhile, hbad]
    rfl
  refine ⟨{ free := n - 2 - 1 - d, pages := [0x8000000000] }, ?_, by simp⟩
  unfold loadProgram
  rw [if_neg (by dsimp only; omega), if_neg (by dsimp only; omega)]
  dsimp only
  rw [hload]
  rfl

namespace Kernel

/-- The page of the first segment is lost when the second one is rejected. -/
theorem failed_spawn_loses_page :
    ∃ k k' : Kernel, sampleKernels.Reachable k ∧ k.processSpawnFromElf brokenImage = .ok (-1, k') ∧
    ∃ f, k.machine.pmm.Free f ∧ ¬k'.machine.pmm.Free f := by
  obtain ⟨k, use, stack₀, stack₁, hb, hidle, -⟩ := exists_idle fun _ _ => 0
  obtain ⟨htwo, hone, hbad⟩ := brokenImage_segments
  have hav : k.machine.Avoids brokenImage := by
    refine hidle.memory.layout.avoids ?_
    rintro va ⟨i, hc, -, ht⟩
    have hi := hc.2.1
    rw [htwo] at hi
    obtain rfl | rfl : i = 0 ∨ i = 1 := by omega
    · rw [hone.touches_iff.mp ht]
      exact Mem.onHugePage_of_none (boot_tableAt_two hb (by decide) (by decide))
    · rw [hbad] at ht
      rcases ht with ⟨j, hj, -⟩ | ⟨off, hoff, -⟩
      · exact absurd hj (Nat.not_lt_zero j)
      · exact absurd hoff (Nat.not_lt_zero off)
  have hcount := hidle.room.count
  have hshared : k.machine.shares 0x8000000000 4 = false := by
    simp [Machine.shares, show pageIndex 0 0x8000000000 = 1 by decide]
  obtain ⟨b, hbudget, hpages⟩ := Budget.loadProgram_broken (n := k.machine.pmm.freeCount) hshared (by omega)
  obtain ⟨machine, hl, hs⟩ := spawn_fails_of_budget hidle.memory hav hidle.allocProcessSlot hbudget
  refine ⟨k, _, .init (sampleKernels_init hb), hs, ?_⟩
  obtain ⟨b', hb', ⟨hnone, -⟩ | ⟨-, f, hf, hn⟩⟩ := hidle.memory.layout.loadProgram_fails hav hl
  · cases hbudget.symm.trans hb'
    exact absurd hnone hpages
  · exact ⟨f, (hidle.memory.layout.owned.free_iff f).mp hf, hn⟩

end Kernel
end SamOS
