import SamOS.IrqRouting

/-! What `irq_try_enable_apic` promises its callers: after a switch-over the timer and the keyboard have their
    redirection entries, and after a failure the PIC is in charge as before. Neither holds for every MADT; the exact
    conditions are read off the list of writes. -/

namespace SamOS
open Function

/-- The low half of the redirection entry `index`, if the IOAPIC has it. It must also have a register number. -/
def IoApic.redir? (io : IoApic) (index : Nat) : Option (BitVec 32) :=
  if index ≤ io.maxRedir.toNat ∧ 0x10 + 2 * index < 256 then some (io.regs (BitVec.ofNat 8 (0x10 + 2 * index)))
    else none

namespace AcpiMadtInfo
variable {madt : AcpiMadtInfo}

theorem lowReg_eq_iff {i j : Nat} :
    madt.lowReg i = madt.lowReg j ↔ (madt.gsiOf i - madt.base) % 128 = (madt.gsiOf j - madt.base) % 128 := by
  rw [← BitVec.toNat_inj]
  simp only [lowReg, Irq.toNat_redirReg]
  omega

end AcpiMadtInfo

namespace Irq
open AcpiMadtInfo

/-! ### The critical interrupts after a switch-over -/

theorem getLsbD_redirLow (vector : BitVec 8) (flags : BitVec 16) {i : Nat} (hi : i < 32) :
    (redirLow vector flags).getLsbD i =
      ((vector.getLsbD i || decide (i = 13) && flags.getLsbD 1 || decide (i = 15) && flags.getLsbD 3) &&
        decide (i ≠ 16)) := by
  have h1 : (flags &&& 2 ≠ 0) ↔ flags.getLsbD 1 = true := by
    rw [← Bits.and_bit_ne_zero flags (show 1 < 16 by decide), bne_iff_ne]
    rfl
  have h3 : (flags &&& 8 ≠ 0) ↔ flags.getLsbD 3 = true := by
    rw [← Bits.and_bit_ne_zero flags (show 3 < 16 by decide), bne_iff_ne]
    rfl
  unfold redirLow
  simp only [h1, h3]
  rw [Bits.getLsbD_and_not_bit _ hi]
  congr 1
  cases flags.getLsbD 1 <;> cases flags.getLsbD 3 <;>
    simp only [reduceIte, Bool.false_eq_true, Bits.getLsbD_or_bit _ hi, BitVec.getLsbD_setWidth, hi, decide_true,
      Bool.true_and, Bool.and_true, Bool.and_false, Bool.or_false]

theorem redirLow_vector (vector : BitVec 8) (flags : BitVec 16) : (redirLow vector flags).setWidth 8 = vector := by
  apply BitVec.eq_of_getLsbD_eq
  intro i hi
  rw [BitVec.getLsbD_setWidth, getLsbD_redirLow vector flags (by omega)]
  have h13 : i ≠ 13 := by omega
  have h15 : i ≠ 15 := by omega
  have h16 : i ≠ 16 := by omega
  simp [hi, h13, h15, h16]

/-- The redirection entry of the interrupt exists, and holds its vector with the polarity and the trigger mode of its
    override, not masked. -/
def EntryHolds (s : Irq) (irq : Nat) : Prop :=
  ∃ index low, (s.gsi irq).toNat = s.madt.base + index ∧ (s.ioapics s.madt.ioapicAddr).redir? index = some low ∧
    low.setWidth 8 = BitVec.ofNat 8 (vectorBase + irq) ∧ low.getLsbD 13 = (s.madt.flagsOf irq).getLsbD 1 ∧
    low.getLsbD 15 = (s.madt.flagsOf irq).getLsbD 3 ∧ low.getLsbD 16 = false

section Critical
variable {s s' : Irq}

theorem irq_of_vector {i j : Nat} (hi : i < 16) (hj : j < 16)
    (h : BitVec.ofNat 8 (vectorBase + i) = BitVec.ofNat 8 (vectorBase + j)) : i = j := by
  have h := congrArg BitVec.toNat h
  simp only [BitVec.toNat_ofNat, vectorBase] at h
  omega

/-- After the switch-over the entry of a critical interrupt holds what its last writer wrote. -/
theorem EntryHolds.of_written (hs : RoutedTo s 16 16 s') (hexist : ∀ j < 16, ¬s.madt.Beyond s.lastRedir j) {irq : Nat}
    (hirq : irq < 2) (hbase : s.madt.base ≤ s.madt.gsiOf irq) (hreg : s.madt.gsiOf irq - s.madt.base < 120)
    (halone : ∀ i < 16, s.madt.Routes i → s.madt.lowReg i = s.madt.lowReg irq → i = irq) : s'.EntryHolds irq := by
  obtain ⟨i, -, hi, hroutes, hsame, hval⟩ := apply_routeWrites s.destination (s.ioapics s.madt.ioapicAddr).regs
    (show irq < 16 by omega) ⟨hbase, Or.inl hirq⟩
  obtain rfl := halone i hi hroutes hsame
  have hio : s'.ioapics s.madt.ioapicAddr = { s.ioapics s.madt.ioapicAddr with
      regs := Writes.apply (s.ioapics s.madt.ioapicAddr).regs (s.madt.routeWrites s.destination 16) } := by
    rw [hs.ioapics, update_self]
  refine ⟨s.madt.gsiOf i - s.madt.base, _, ?_, ?_, redirLow_vector _ (s.madt.flagsOf i), ?_, ?_, ?_⟩
  · rw [hs.gsi, if_pos hi, hs.madt]
    exact (Nat.add_sub_cancel' hbase).symm
  · have hle : s.madt.gsiOf i - s.madt.base ≤ s.lastRedir := Nat.le_of_not_lt fun hlt => hexist i hi ⟨hbase, hlt⟩
    unfold IoApic.redir?
    rw [hs.madt, hio, if_pos ⟨hle, by omega⟩]
    exact congrArg some hval
  all_goals
    rw [getLsbD_redirLow _ _ (by decide)]
    simp [hs.madt, BitVec.getLsbD_of_ge]

theorem EntryHolds.last_writer (hs : RoutedTo s 16 16 s') {irq : Nat} (hirq : irq < 2) (h : s'.EntryHolds irq) :
    s.madt.base ≤ s.madt.gsiOf irq ∧ s.madt.gsiOf irq - s.madt.base < 120 ∧
    ∀ i < 16, ∀ flags, Writes.apply (s.ioapics s.madt.ioapicAddr).regs (s.madt.routeWrites s.destination 16)
      (s.madt.lowReg irq) = redirLow (BitVec.ofNat 8 (vectorBase + i)) flags → i = irq := by
  obtain ⟨index, low, hgsi, hlow, hvector, -⟩ := h
  rw [hs.gsi, if_pos (by omega), hs.madt] at hgsi
  have hgsi : s.madt.gsiOf irq = s.madt.base + index := hgsi
  have hindex : s.madt.gsiOf irq - s.madt.base = index := by omega
  unfold IoApic.redir? at hlow
  split at hlow
  · rename_i hin
    refine ⟨by omega, by omega, fun i hi flags hval => irq_of_vector hi (by omega) ?_⟩
    rw [← hvector, ← Option.some.inj hlow, hs.madt, hs.ioapics, update_self, ← hindex]
    have hvec := congrArg (BitVec.setWidth 8) hval
    rw [redirLow_vector] at hvec
    exact hvec.symm
  · cases hlow

end Critical

end Irq

/-- Each critical interrupt has an entry of this IOAPIC with a register number, and no other interrupt is routed to
    it. -/
def AcpiMadtInfo.CriticalClear (madt : AcpiMadtInfo) : Prop :=
  ∀ irq < 2, madt.base ≤ madt.gsiOf irq ∧ madt.gsiOf irq - madt.base < 120 ∧
    ∀ j < 16, j ≠ irq → madt.Routes j → (madt.gsiOf j - madt.base) % 128 ≠ madt.gsiOf irq - madt.base

namespace Irq
open AcpiMadtInfo

/-- After a switch-over the timer and the keyboard have their entries exactly when the MADT keeps them apart. -/
theorem critical_entries_hold_iff (s : Irq) (table : Option (Nat → BitVec 8))
    (h : (s.acpiInit table).irqTryEnableApic.1 = true) :
    (∀ irq < 2, (s.acpiInit table).irqTryEnableApic.2.EntryHolds irq) ↔ (s.acpiInit table).madt.CriticalClear := by
  generalize s.acpiInit table = s at h
  rcases s.irqTryEnableApic_cases with ⟨-, h0, -⟩ | ⟨-, h0, -⟩ | ⟨-, -, hexist, s', m1, m2, klog, hs, hresult⟩
  · rw [h0] at h
    cases h
  · rw [h0] at h
    cases h
  have hentry (irq : Nat) : s.irqTryEnableApic.2.EntryHolds irq ↔ s'.EntryHolds irq := by
    rw [hresult]
    rfl
  simp only [hentry]
  constructor
  · intro hall irq hirq
    obtain ⟨hbase, hreg, hlast⟩ := (hall irq hirq).last_writer hs hirq
    refine ⟨hbase, hreg, fun j hj hne hroutes hclash => ?_⟩
    have hsame : s.madt.lowReg j = s.madt.lowReg irq := lowReg_eq_iff.mpr (by omega)
    -- an interrupt that comes later has written over the entry
    have hlater (irq : Nat) (hirq : irq < 2) (j : Nat) (hj : j < 16) (hroutes : s.madt.Routes j)
        (hsame : s.madt.lowReg j = s.madt.lowReg irq) : j ≤ irq := by
      obtain ⟨-, -, hlast⟩ := (hall irq hirq).last_writer hs hirq
      obtain ⟨i, hji, hi, -, -, hval⟩ := apply_routeWrites s.destination (s.ioapics s.madt.ioapicAddr).regs hj hroutes
      rw [hsame] at hval
      have := hlast i hi _ hval
      omega
    have hle := hlater irq hirq j hj hroutes hsame
    have hge := hlater j (by omega) irq (by omega) ⟨hbase, Or.inl hirq⟩ hsame.symm
    omega
  · intro hclear irq hirq
    obtain ⟨hbase, hreg, halone⟩ := hclear irq hirq
    refine EntryHolds.of_written hs hexist hirq hbase hreg fun i hi hroutes hsame => ?_
    by_contra hne
    refine halone i hi hne hroutes ?_
    rw [lowReg_eq_iff] at hsame
    omega

/-! ### The PIC after a failure -/

/-- The PIC is in charge as before: the GSIs, the redirection entries of every IOAPIC and the masks of the PICs are
    what they were, and an interrupt is acknowledged to the PICs. -/
structure PicAsBefore (s s' : Irq) : Prop where
  backend : s'.backend = .pic
  gsi : ∀ irq < 16, s'.gsi irq = s.gsi irq
  entries : ∀ addr reg, 0x10 ≤ reg → (s'.ioapics addr).regs reg = (s.ioapics addr).regs reg
  masks : s'.pic1Mask = s.pic1Mask ∧ s'.pic2Mask = s.pic2Mask
  eoi : ∀ irq, (s'.irqSendEoi irq).eois = s'.eois ++ (if 8 ≤ irq then [.pic2] else []) ++ [.pic1]

/-- There is no APIC to try, or what the loops wrote before they failed was there already: the GSI of each interrupt
    up to the first one `f` without an entry, and in each register the last value written to it. -/
def FailsUnseen (s : Irq) : Prop :=
  ¬s.HasApic ∨ ∃ f < 16, s.madt.Beyond s.lastRedir f ∧ (∀ j < f, ¬s.madt.Beyond s.lastRedir j) ∧
    (∀ j ≤ f, (s.madt.acpiGetIrqOverride (BitVec.ofNat 8 j)).2.1 = s.gsi j) ∧
    ∀ reg value, 0x10 ≤ reg → Writes.Last (s.madt.routeWrites s.destination f) reg value →
      (s.ioapics s.madt.ioapicAddr).regs reg = value

section Fallback
variable {s s' : Irq}

theorem irqSendEoi_pic (h : s.backend = .pic) (irq : Nat) :
    (s.irqSendEoi irq).eois = s.eois ++ (if 8 ≤ irq then [.pic2] else []) ++ [.pic1] := by
  unfold irqSendEoi
  dsimp only
  rw [h]
  rfl

theorem Untouched.picAsBefore (h : Untouched s s') (hpic : s.backend = .pic) : PicAsBefore s s' :=
  ⟨h.backend.trans hpic, fun _ _ => by rw [h.gsi], fun _ _ _ => by rw [h.ioapics], ⟨h.pic1Mask, h.pic2Mask⟩,
    irqSendEoi_pic (h.backend.trans hpic)⟩

theorem FailedAt.unique {f f' : Nat} (h : FailedAt s f s') (hb : s.madt.Beyond s.lastRedir f')
    (hfirst : ∀ j < f', ¬s.madt.Beyond s.lastRedir j) : f' = f := by
  rcases Nat.lt_trichotomy f' f with hlt | heq | hgt
  · exact absurd hb (h.first f' hlt)
  · exact heq
  · exact absurd h.beyond (hfirst f hgt)

/-- What a failure leaves behind is seen in the GSIs and in the registers of the one IOAPIC. -/
theorem FailedAt.picAsBefore_iff {f : Nat} (h : FailedAt s f s') (hpic : s.backend = .pic) :
    PicAsBefore s s' ↔ (∀ j ≤ f, (s.madt.acpiGetIrqOverride (BitVec.ofNat 8 j)).2.1 = s.gsi j) ∧
      ∀ reg value, 0x10 ≤ reg → Writes.Last (s.madt.routeWrites s.destination f) reg value →
        (s.ioapics s.madt.ioapicAddr).regs reg = value := by
  have hlt := h.lt
  have hr := h.routed
  have hregs : (s'.ioapics s.madt.ioapicAddr).regs =
      Writes.apply (s.ioapics s.madt.ioapicAddr).regs (s.madt.routeWrites s.destination f) := by
    rw [hr.ioapics, update_self]
  constructor
  · intro hp
    refine ⟨fun j hj => ?_, fun reg value hreg hlast => ?_⟩
    · rw [← hp.gsi j (by omega), hr.gsi, if_pos (by omega)]
    · have hsame := hp.entries s.madt.ioapicAddr reg hreg
      rw [hregs] at hsame
      exact Writes.apply_eq_iff.mp hsame value hlast
  · rintro ⟨hgsi, hvalue⟩
    refine ⟨hr.backend.trans hpic, fun irq _ => ?_, fun addr reg hreg => ?_, ⟨hr.pic1Mask, hr.pic2Mask⟩,
      irqSendEoi_pic (hr.backend.trans hpic)⟩
    · rw [hr.gsi]
      split
      · exact hgsi irq (by omega)
      · rfl
    · by_cases haddr : addr = s.madt.ioapicAddr
      · rw [haddr, hregs]
        exact Writes.apply_eq_iff.mpr fun value hlast => hvalue reg value hreg hlast
      · rw [hr.ioapics, update_of_ne haddr]

end Fallback

/-- When the call fails, the PIC is in charge as before exactly when the failure is unseen. -/
theorem pic_as_before_iff (s : Irq) (table : Option (Nat → BitVec 8)) (hpic : s.backend = .pic)
    (h : (s.acpiInit table).irqTryEnableApic.1 = false) :
    PicAsBefore (s.acpiInit table) (s.acpiInit table).irqTryEnableApic.2 ↔ (s.acpiInit table).FailsUnseen := by
  have hpic : (s.acpiInit table).backend = .pic := hpic
  generalize s.acpiInit table = s at h hpic
  rcases s.irqTryEnableApic_cases with ⟨hno, -, hsame⟩ | ⟨happ, -, f, hf⟩ | ⟨-, h1, -⟩
  · exact iff_of_true (hsame.picAsBefore hpic) (Or.inl hno)
  · rw [hf.picAsBefore_iff hpic]
    constructor
    · rintro ⟨hgsi, hvalue⟩
      exact Or.inr ⟨f, hf.lt, hf.beyond, hf.first, hgsi, hvalue⟩
    · rintro (hno | ⟨f', -, hb, hfirst, hgsi, hvalue⟩)
      · exact absurd happ hno
      · obtain rfl := hf.unique hb hfirst
        exact ⟨hgsi, hvalue⟩
  · rw [h1] at h
    cases h

/-! ### Sample machines -/

/-- A MADT with a local APIC and the given entries. -/
def madtTable (entries : List Nat) : Nat → BitVec 8 := fun i =>
  let header := [0x41, 0x50, 0x49, 0x43, 44 + entries.length, 0, 0, 0] ++ List.replicate 28 0
  BitVec.ofNat 8 ((header ++ [0, 0, 0xE0, 0xFE, 1, 0, 0, 0] ++ entries).getD i 0)

/-- The entry of an IOAPIC whose GSIs start at `base`. -/
def ioapicEntry (id base : Nat) : List Nat := [1, 12, id, 0, 0, 16 * id, 0xC0, 0xFE, base, 0, 0, 0]

/-- The entry of an interrupt source override. -/
def overrideEntry (source gsi : Nat) : List Nat := [2, 10, 0, source, gsi, 0, 0, 0, 0, 0]

/-- A machine whose IOAPICs have entries up to `maxRedir`, all of them masked. -/
def machine (maxRedir : Nat) : Irq :=
  { backend := .pic, gsi := fun _ => 0, stats := ⟨0, 0, 0, 0, 0, 0⟩, addrs := ⟨0, 0, 0⟩, madt := .zero, klog := .initial
    ioapics := fun _ => { version := BitVec.ofNat 32 (maxRedir * 65536 + 0x11), regs := fun _ => 0x10000 }
    lapics := fun _ => ⟨0, 0xFF⟩, apicBase := 0xFEE00900, pic1Mask := 0, pic2Mask := 0, eois := [] }

/-- The machine after `irq_controller_init`. -/
def sample (maxRedir : Nat) : Irq := (machine maxRedir).irqControllerInit

/-- One IOAPIC with 24 entries, and the timer on its pin 2. -/
theorem critical_entries_hold_usual :
    (∀ irq < 2, ((sample 23).acpiInit
      (some (madtTable (ioapicEntry 0 0 ++ overrideEntry 0 2)))).irqTryEnableApic.2.EntryHolds irq) ∧
    ((sample 23).acpiInit (some (madtTable (ioapicEntry 0 0 ++ overrideEntry 0 2)))).irqTryEnableApic.1 = true := by
  have hok : ((sample 23).acpiInit (some (madtTable (ioapicEntry 0 0 ++ overrideEntry 0 2)))).irqTryEnableApic.1 =
      true := by
    decide +kernel
  refine ⟨(critical_entries_hold_iff (sample 23) (some (madtTable (ioapicEntry 0 0 ++ overrideEntry 0 2))) hok).mpr
    ?_, hok⟩
  unfold CriticalClear
  decide +kernel

/-- A second IOAPIC, for the GSIs from 24 on: it is the one that is used, the call succeeds, and neither the timer nor
    the keyboard has an entry. -/
theorem second_ioapic_loses_timer :
    ((sample 23).acpiInit (some (madtTable (ioapicEntry 0 0 ++ ioapicEntry 1 24)))).irqTryEnableApic.1 = true ∧
    ¬((sample 23).acpiInit (some (madtTable (ioapicEntry 0 0 ++ ioapicEntry 1 24)))).irqTryEnableApic.2.EntryHolds
      0 := by
  refine ⟨by decide +kernel, ?_⟩
  rintro ⟨index, low, hgsi, -⟩
  have h0 : (((sample 23).acpiInit (some (madtTable (ioapicEntry 0 0 ++ ioapicEntry 1 24)))).irqTryEnableApic.2.gsi
      0).toNat = 0 := by
    decide +kernel
  have h24 : ((sample 23).acpiInit
      (some (madtTable (ioapicEntry 0 0 ++ ioapicEntry 1 24)))).irqTryEnableApic.2.madt.base = 24 := by
    decide +kernel
  omega

/-- An IOAPIC with six entries: the call fails at interrupt 6 and leaves the entries of the first six unmasked. -/
theorem failure_leaves_entries :
    ((sample 5).acpiInit (some (madtTable (ioapicEntry 0 0)))).irqTryEnableApic.1 = false ∧
    ¬PicAsBefore ((sample 5).acpiInit (some (madtTable (ioapicEntry 0 0))))
      ((sample 5).acpiInit (some (madtTable (ioapicEntry 0 0)))).irqTryEnableApic.2 := by
  refine ⟨by decide +kernel, fun h => ?_⟩
  have hentry := h.entries 0xFEC00000 0x10 (by decide)
  revert hentry
  decide +kernel

/-- A machine on which the call has failed: its IOAPIC has six entries, and those are set. -/
def triedOnce : Irq := ((sample 5).acpiInit (some (madtTable (ioapicEntry 0 0)))).irqTryEnableApic.2

/-- There the call fails again and finds what it writes. -/
theorem pic_as_before_second_try : (triedOnce.acpiInit (some (madtTable (ioapicEntry 0 0)))).HasApic ∧
    (triedOnce.acpiInit (some (madtTable (ioapicEntry 0 0)))).irqTryEnableApic.1 = false ∧
    PicAsBefore (triedOnce.acpiInit (some (madtTable (ioapicEntry 0 0))))
      (triedOnce.acpiInit (some (madtTable (ioapicEntry 0 0)))).irqTryEnableApic.2 := by
  have hfail : (triedOnce.acpiInit (some (madtTable (ioapicEntry 0 0)))).irqTryEnableApic.1 = false := by decide +kernel
  have hset : (((triedOnce.acpiInit (some (madtTable (ioapicEntry 0 0)))).madt.routeWrites
      (triedOnce.acpiInit (some (madtTable (ioapicEntry 0 0)))).destination 6).all fun w =>
      ((triedOnce.acpiInit (some (madtTable (ioapicEntry 0 0)))).ioapics 0xFEC00000).regs w.1 == w.2) = true := by
    decide +kernel
  refine ⟨by unfold HasApic; decide +kernel, hfail,
    (pic_as_before_iff triedOnce (some (madtTable (ioapicEntry 0 0))) (by decide +kernel) hfail).mpr
    (Or.inr ⟨6, by decide, ?_, ?_, by decide +kernel, fun reg value _ hlast => ?_⟩)⟩
  · unfold AcpiMadtInfo.Beyond
    decide +kernel
  · unfold AcpiMadtInfo.Beyond
    decide +kernel
  · obtain ⟨l₁, l₂, hws, -⟩ := hlast
    exact eq_of_beq (List.all_eq_true.mp hset (reg, value) (by rw [hws]; simp))

end Irq
end SamOS
