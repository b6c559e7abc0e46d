import SamOS.AddressSpaces
import SamOS.HeapMemory
import SamOS.Loader
import SamOS.ProcessTable

/-! What a spawn does to memory. The program gets an address space of free pages; whatever fails afterwards, the
    address space is destroyed again. Apart from free and held pages only the new tree is written, and the tree that
    all address spaces share if the image reaches into it. -/

namespace SamOS
open Result

/-- No segment touches an address below entries 0 and 511 of the PML4, which all address spaces share. -/
def Image.Private (img : Image) : Prop := ∀ va, img.Touches va → pageIndex 0 va ≠ 0 ∧ pageIndex 0 va ≠ 511

/-- The load of the image into a new address space comes to no address on a 2 MiB page. -/
def Machine.Avoids (s : Machine) (img : Image) : Prop :=
  ∀ a s₁, s.vmmCreateAddressSpace = .ok (some a, s₁) → s₁.LoadsOff (.page a) img

/-- The trees that a spawn of the image may change: new ones, and the shared one unless the image is private. -/
def LoadScope (kernel : Nat) (use : Nat → Use) (img : Image) (r : Nat) : Prop :=
  use r = .free ∨ (r = kernel ∧ ¬img.Private)

/-! ### Loading -/

/-- Where loading a program ends. -/
inductive Machine.Loads (s : Machine) (img : Image) : Option Kernel.Program → Machine → Prop
  | noSpace {s' : Machine} (hc : s.vmmCreateAddressSpace = .ok (none, s')) : Loads s img none s'
  | rejected {a : Nat} {s₁ s₂ : Machine} (hc : s.vmmCreateAddressSpace = .ok (some a, s₁))
      (hl : s₁.loadElfIntoAs (.page a) img = .ok (none, s₂)) : Loads s img none (s₂.vmmDestroyAddressSpace a)
  | noStack {a entry : Nat} {s₁ s₂ s₃ : Machine} (hc : s.vmmCreateAddressSpace = .ok (some a, s₁))
      (hl : s₁.loadElfIntoAs (.page a) img = .ok (some entry, s₂)) (hm : s₂.mapUserStack (.page a) = .ok (none, s₃)) :
      Loads s img none (s₃.vmmDestroyAddressSpace a)
  | loaded {a entry userRsp : Nat} {s₁ s₂ s₃ : Machine} (hc : s.vmmCreateAddressSpace = .ok (some a, s₁))
      (hl : s₁.loadElfIntoAs (.page a) img = .ok (some entry, s₂))
        (hm : s₂.mapUserStack (.page a) = .ok (some userRsp, s₃)) :
      Loads s img (some { space := a, entry, userRsp }) s₃

theorem Machine.loadProgram_cases {s s' : Machine} {img : Image} {prog : Option Kernel.Program}
    (h : s.loadProgram img = .ok (prog, s')) : s.Loads img prog s' := by
  obtain ⟨⟨as, s₁⟩, hc, h⟩ := of_bind_eq_ok h
  cases as with
  | none =>
    cases h
    exact .noSpace hc
  | some a =>
    obtain ⟨⟨entry, s₂⟩, hl, h⟩ := of_bind_eq_ok h
    cases entry with
    | none =>
      cases h
      exact .rejected hc hl
    | some entry =>
      obtain ⟨⟨rsp, s₃⟩, hm, h⟩ := of_bind_eq_ok h
      cases rsp with
      | none =>
        cases h
        exact .noStack hc hl hm
      | some rsp =>
        cases h
        exact .loaded hc hl hm

/-- From one machine to another: the labels after it agree, and only the trees in scope changed. -/
structure Machine.Evolves (scope : Nat → Prop) (s : Machine) (use : Nat → Use) (s' : Machine) (use' : Nat → Use) :
    Prop where
  layout : Layout s' use'
  grows : Grows scope s.mem use s'.mem use'
  kernelPml4 : s'.kernelPml4 = s.kernelPml4

/-- The address space of a new program: its two pages were free, and so was the highest page of its stack. -/
structure NewProgram (use use' : Nat → Use) (space root : Nat) : Prop where
  space_free : use space = .free
  root_free : use root = .free
  space : use' space = .space root
  page : ∃ f, use f = .free ∧ use' f = .node root (pagePath stackPage 4)

theorem NewProgram.grows {scope : Nat → Prop} {use use' use'' : Nat → Use} {m m' : Mem} {a r : Nat}
    (h : NewProgram use use' a r) (hg : Grows scope m use' m' use'') : NewProgram use use'' a r := by
  obtain ⟨f, hf, hk⟩ := h.page
  exact ⟨h.space_free, h.root_free, hg.space h.space, f, hf, hg.node hk⟩

namespace Layout
variable {s s₁ s₂ s' : Machine} {use : Nat → Use} {img : Image} {a : Nat}

/-- A new address space has the 2 MiB pages of the kernel at most. -/
theorem NewSpace.off {r va : Nat} {use₁ : Nat → Use} (hn : NewSpace s use a r s₁ use₁) (h : Layout s use)
    (hoff : s.mem.onHugePage s.kernelPml4 va = false) : s₁.mem.onHugePage r va = false := by
  by_contra hh
  have ht₁ := hn.layout.tables
  rw [hn.kernelPml4] at ht₁
  rw [h.tables.onHugePage_of_grows ht₁ hn.grows h.tables.kernelRoot
    (ht₁.onHugePage_kernel hn.root (by simpa using hh))] at hoff
  cases hoff

theorem avoids (h : Layout s use) (hclear : ∀ va, img.Touches va → s.mem.onHugePage s.kernelPml4 va = false) :
    s.Avoids img := by
  intro a s₁ hc
  rcases h.vmmCreateAddressSpace hc with ⟨hnone, -⟩ | ⟨a', r, use₁, ha, hn⟩
  · cases hnone
  obtain rfl := Option.some.inj ha
  exact hn.layout.loadsOff hn.space fun va hva => hn.off h (hclear va hva)

theorem loadImage (h : Layout s use) (hav : s.Avoids img) (hc : s.vmmCreateAddressSpace = .ok (some a, s₁))
    {entry : Option Nat} (hl : s₁.loadElfIntoAs (.page a) img = .ok (entry, s₂)) :
    ∃ r use₁ use₂, NewSpace s use a r s₁ use₁ ∧ Loaded (LoadScope s.kernelPml4 use img) s₁ use₁ s₂ use₂ := by
  rcases h.vmmCreateAddressSpace hc with ⟨hnone, -⟩ | ⟨a', r, use₁, ha, hn⟩
  · cases hnone
  obtain rfl := Option.some.inj ha
  have hst : ∀ va, img.Touches va → LoadScope s.kernelPml4 use img (treeOf s₁.kernelPml4 r va) := by
    intro va hva
    rw [hn.kernelPml4]
    unfold treeOf owner
    split
    · rename_i hshared
      exact Or.inr ⟨rfl, fun hp => hshared.2.elim (hp va hva).1 (hp va hva).2⟩
    · exact Or.inl hn.root_free
  obtain ⟨use₂, hl₂⟩ := hn.layout.loadElfIntoAs hn.space (Or.inl hn.root_free) hst (hav a s₁ hc) hl
  exact ⟨r, use₁, use₂, hn, hl₂⟩

/-- The program is loaded, or nothing but free pages and the shared tree is changed. -/
theorem loadProgram (h : Layout s use) (hav : s.Avoids img) {prog : Option Kernel.Program}
    (hl : s.loadProgram img = .ok (prog, s')) :
    ∃ use', s.Evolves (LoadScope s.kernelPml4 use img) use s' use' ∧
      ∀ p, prog = some p → ∃ r, NewProgram use use' p.space r := by
  -- What the new address space and the image have changed so far.
  have hgrows : ∀ {a r s₁ use₁ s₂ use₂}, NewSpace s use a r s₁ use₁ →
    Loaded (LoadScope s.kernelPml4 use img) s₁ use₁ s₂ use₂ →
      Grows (LoadScope s.kernelPml4 use img) s.mem use s₂.mem use₂ := fun hn hl =>
    (hn.grows.mono fun _ h => h.elim).trans hl.grows
  have hdestroy : ∀ {a r s₁ use₁ s₂ use₂}, NewSpace s use a r s₁ use₁ →
    Loaded (LoadScope s.kernelPml4 use img) s₁ use₁ s₂ use₂ →
      s.Evolves (LoadScope s.kernelPml4 use img) use (s₂.vmmDestroyAddressSpace a) fun f => (use₂ f).destroy r :=
    fun hn hl => by
      have hg := h.grows_destroy (hgrows hn hl) hn.root_free
      exact ⟨hl.layout.vmmDestroyAddressSpace (hl.grows.space hn.space), hg, hl.steady.kernelPml4.trans hn.kernelPml4⟩
  cases Machine.loadProgram_cases hl with
  | noSpace hc =>
    rcases h.vmmCreateAddressSpace hc with ⟨-, rfl, -⟩ | ⟨a, r, use₁, ha, -⟩
    · exact ⟨use, ⟨h, .refl _ _ _, rfl⟩, nofun⟩
    · cases ha
  | rejected hc hi =>
    obtain ⟨r, use₁, use₂, hn, hl₂⟩ := h.loadImage hav hc hi
    exact ⟨_, hdestroy hn hl₂, nofun⟩
  | noStack hc hi hm =>
    obtain ⟨r, use₁, use₂, hn, hl₂⟩ := h.loadImage hav hc hi
    have hroot : LoadScope s.kernelPml4 use img r := Or.inl hn.root_free
    rcases hl₂.layout.mapUserStack (hl₂.grows.space hn.space) hroot hm with
      ⟨-, rfl, -⟩ | ⟨use₃, f, hl₃, -⟩
    · exact ⟨_, hdestroy hn hl₂, nofun⟩
    · exact ⟨_, hdestroy hn (hl₂.trans hl₃), nofun⟩
  | loaded hc hi hm =>
    obtain ⟨r, use₁, use₂, hn, hl₂⟩ := h.loadImage hav hc hi
    have hroot : LoadScope s.kernelPml4 use img r := Or.inl hn.root_free
    rcases hl₂.layout.mapUserStack (hl₂.grows.space hn.space) hroot hm with
      ⟨hnone, -⟩ | ⟨use₃, f, hl₃, hf, hk⟩
    · cases hnone
    · have hl' := hl₂.trans hl₃
      refine ⟨use₃, ⟨hl'.layout, hgrows hn hl', hl'.steady.kernelPml4.trans hn.kernelPml4⟩, fun p hp => ?_⟩
      cases hp
      exact ⟨r, hn.space_free, hn.root_free, hl'.grows.space hn.space, f, hn.grows.free (hl₂.grows.free hf), hk⟩

end Layout

/-! ### Spawning -/

namespace Kernel
variable {k k' : Kernel} {use : Nat → Use} {img : Image}

/-- What a spawn needs of the state, if it gets that far: the load keeps off the 2 MiB pages, and the stack of an
    ended task that is freed for the new one merges with no block of another page run. -/
structure CanSpawn (k : Kernel) (img : Image) : Prop where
  avoids : ∀ {p}, k.allocProcessSlot = some p → k.machine.Avoids img
  merges : ∀ {p prog machine}, k.allocProcessSlot = some p → k.machine.loadProgram img = .ok (some prog, machine) →
    ∀ slot freed s, k.sched.findFreeSlot = some (slot, freed, s) → freed ≠ 0 → k.heap.MergesInside (.free freed)

/-- The task of a new process, and its address space. -/
structure NewProcess (k : Kernel) (use : Nat → Use) (p : Process) (k' : Kernel) (use' : Nat → Use) (t r : Nat) :
    Prop where
  space : ∃ a, p.addressSpace = some a ∧ NewProgram use use' a r ∧
    ∃ stack, k'.sched = k.sched.modify t fun _ => Sched.created stack k.nextPid.toInt r true (.page a)
  lt : t < maxTasks
  dead : ¬(k.sched.tasks t).Live

/-- `process_spawn_from_elf` up to the writes to the process table. -/
theorem prepareSpawn_memory (h : HeapMemory k use) (hcan : k.CanSpawn img) {found : Option (Nat × Process)}
    (hs : k.prepareSpawn img = .ok (found, k')) :
    ∃ use', HeapMemory k' use' ∧ Grows (LoadScope k.machine.kernelPml4 use img) k.machine.mem use k'.machine.mem use' ∧
      k'.machine.kernelPml4 = k.machine.kernelPml4 ∧
      ∀ slot p, found = some (slot, p) → ∃ t r, NewProcess k use p k' use' t r := by
  have hloaded : ∀ {slot prog machine}, k.allocProcessSlot = some slot →
    k.machine.loadProgram img = .ok (prog, machine) →
      ∃ use', k.machine.Evolves (LoadScope k.machine.kernelPml4 use img) use machine use' ∧
        (∀ p, prog = some p → ∃ r, NewProgram use use' p.space r) ∧
        ∀ next, HeapMemory { k.withMachine machine with nextPid := next } use' := fun hslot hl => by
    obtain ⟨use', hev, hp⟩ := h.layout.loadProgram (hcan.avoids hslot) hl
    exact ⟨use', hev, hp, fun next => ⟨hev.layout, h.tasks, fun r hr => (h.held r hr).grows hev.grows⟩⟩
  cases prepareSpawn_cases hs with
  | full => exact ⟨use, h, .refl _ _ _, rfl, nofun⟩
  | noProgram hslot hl =>
    obtain ⟨use', hev, -, hmem⟩ := hloaded hslot hl
    exact ⟨use', hmem k.nextPid, hev.grows, hev.kernelPml4, nofun⟩
  | noTask hslot hl hc =>
    obtain ⟨use', hev, hp, hmem⟩ := hloaded hslot hl
    obtain ⟨r, hprog⟩ := hp _ rfl
    obtain ⟨use'', hst⟩ := (hmem _).taskCreate (hcan.merges hslot hl) hc
    have hg := hev.grows.trans (hst.grows.mono fun _ h => h.elim)
    have hg' := h.layout.grows_destroy hg hprog.root_free
    refine ⟨_, ⟨hst.memory.layout.vmmDestroyAddressSpace (hst.grows.space hprog.space), hst.memory.tasks,
      fun x hx => ?_⟩, hg', hst.steady.kernelPml4.trans hev.kernelPml4, nofun⟩
    exact ⟨(hst.memory.held x hx).pos, (hst.memory.held x hx).le, fun y h1 h2 => by
      show (use'' (y / 4096)).destroy r = .held
      rw [(hst.memory.held x hx).held y h1 h2]
      rfl⟩
  | task hslot hl hc =>
    obtain ⟨use', hev, hp, hmem⟩ := hloaded hslot hl
    obtain ⟨r, hprog⟩ := hp _ rfl
    obtain ⟨use'', hst⟩ := (hmem _).taskCreate (hcan.merges hslot hl) hc
    refine ⟨use'', hst.memory, hev.grows.trans (hst.grows.mono fun _ h => h.elim),
      hst.steady.kernelPml4.trans hev.kernelPml4, fun slot p hp => ?_⟩
    cases hp
    obtain ⟨hcr, -⟩ := taskCreate_tables hc
    generalize hs' : k'.sched = s' at hcr
    cases hcr with
    | created ht hd hstack =>
      rw [Program.newTask, hev.layout.pml4_eq hprog.space] at hs'
      exact ⟨_, r, ⟨_, rfl, hprog.grows hst.grows, _, hs'⟩, ht, hd⟩

end Kernel
end SamOS
