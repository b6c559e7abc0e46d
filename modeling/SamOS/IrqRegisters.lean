import SamOS.IrqLaws

/-! The registers that `apic_route_irq` and `apic_set_irq_mask` write. Entry `index` of the IOAPIC is in registers
    `0x10 + 2 * index` and `0x11 + 2 * index`; the register number has 8 bits, so the entries from 120 on have none,
    and the numbers start again. -/

namespace SamOS
open Function

/-- The calls that change the redirection entry of a GSI. -/
inductive RedirCall where
  | route (vector : BitVec 8) (flags : BitVec 16)
  | setMask (masked : Bool)

namespace RedirCall

def exec (call : RedirCall) (s : Irq) (gsi : BitVec 32) : Irq :=
  match call with
  | .route vector flags => (s.apicRouteIrq gsi vector flags).2
  | .setMask masked => s.apicSetIrqMask gsi masked

/-- The two halves of an entry after the call, where `high` names this processor. -/
def halves (high : BitVec 32) : RedirCall → BitVec 32 × BitVec 32 → BitVec 32 × BitVec 32
  | .route vector flags, _ => (Irq.redirLow vector flags, high)
  | .setMask masked, (low, hi) => (if masked then low ||| 1#32 <<< 16 else low &&& ~~~(1#32 <<< 16), hi)

end RedirCall

/-- What the two calls read besides the entry: the addresses and the version register. -/
structure IoApicSetup where
  addrs : ApicAddresses
  version : BitVec 32

namespace IoApicSetup
variable (io : IoApicSetup)

def index (gsi : BitVec 32) : Nat := gsi.toNat - io.addrs.ioapicGsiBase.toNat

def maxRedir : Nat := ((io.version >>> 16) &&& 0xFF).toNat

/-- There is an IOAPIC, and the GSI is not below its GSIs. -/
def Reaches (gsi : BitVec 32) : Prop := io.addrs.ioapicAddr ≠ 0 ∧ io.addrs.ioapicGsiBase ≤ gsi

/-- `apic_route_irq` accepts the GSI. -/
def Accepts (gsi : BitVec 32) : Prop := io.Reaches gsi ∧ io.index gsi ≤ io.maxRedir

/-- The number of the low register of the entry. -/
def lowReg (gsi : BitVec 32) : BitVec 8 := Irq.redirReg (io.index gsi)

/-- The entry exists and has registers of its own. -/
def Addressed (gsi : BitVec 32) : Prop := io.index gsi ≤ io.maxRedir ∧ io.index gsi < 120

end IoApicSetup

namespace Irq

/-- `s'` differs from `s` only in registers of the IOAPIC that meet `P`. -/
structure ChangesOnly (P : BitVec 8 → Prop) (s s' : Irq) : Prop where
  rest : { s' with ioapics := s.ioapics } = s
  others : ∀ addr, addr ≠ s.addrs.ioapicAddr → s'.ioapics addr = s.ioapics addr
  version : (s'.ioapics s.addrs.ioapicAddr).version = (s.ioapics s.addrs.ioapicAddr).version
  regs : ∀ reg, ¬P reg → (s'.ioapics s.addrs.ioapicAddr).regs reg = (s.ioapics s.addrs.ioapicAddr).regs reg

/-- The setup of the machine. -/
def setup (s : Irq) : IoApicSetup := ⟨s.addrs, (s.ioapics s.addrs.ioapicAddr).version⟩

/-- The registers of the IOAPIC. -/
def ioRegs (s : Irq) : BitVec 8 → BitVec 32 := (s.ioapics s.addrs.ioapicAddr).regs

/-- The entry whose low register is `reg`. -/
def halvesAt (s : Irq) (reg : BitVec 8) : BitVec 32 × BitVec 32 := (s.ioRegs reg, s.ioRegs (reg + 1))

def withRegs (s : Irq) (regs : BitVec 8 → BitVec 32) : Irq :=
  { s with ioapics := update s.ioapics s.addrs.ioapicAddr { s.ioapics s.addrs.ioapicAddr with regs } }

def setHalves (s : Irq) (reg : BitVec 8) (halves : BitVec 32 × BitVec 32) : Irq :=
  s.withRegs (update (update s.ioRegs (reg + 1) halves.2) reg halves.1)

theorem ioRegs_withRegs (s : Irq) (regs : BitVec 8 → BitVec 32) : (s.withRegs regs).ioRegs = regs := by
  unfold ioRegs withRegs
  dsimp only
  rw [update_self]

theorem version_withRegs (s : Irq) (regs : BitVec 8 → BitVec 32) :
    ((s.withRegs regs).ioapics s.addrs.ioapicAddr).version = (s.ioapics s.addrs.ioapicAddr).version := by
  unfold withRegs
  dsimp only
  rw [update_self]

theorem withRegs_withRegs (s : Irq) (regs regs' : BitVec 8 → BitVec 32) :
    (s.withRegs regs).withRegs regs' = s.withRegs regs' := by
  unfold withRegs
  dsimp only
  rw [update_self, update_idem]

end Irq

namespace IoApicSetup
variable (io : IoApicSetup)

/-- What is asked of the calls for a GSI: a route that succeeds changes the two registers of the entry at most, and a
    mask bit 16 of the low one, if the entry exists. -/
structure Framed (gsi : BitVec 32) : Prop where
  route : ∀ s, s.setup = io → ∀ vector flags s', s.apicRouteIrq gsi vector flags = (true, s') →
    Irq.ChangesOnly (fun reg => reg.toNat = 0x10 + 2 * io.index gsi ∨ reg.toNat = 0x11 + 2 * io.index gsi) s s'
  setMask : ∀ s, s.setup = io → ∀ masked,
    Irq.ChangesOnly (fun reg => io.Accepts gsi ∧ reg.toNat = 0x10 + 2 * io.index gsi) s (s.apicSetIrqMask gsi masked) ∧
    ∀ reg i, i ≠ 16 → ((s.apicSetIrqMask gsi masked).ioRegs reg).getLsbD i = (s.ioRegs reg).getLsbD i

/-- Calls for the two GSIs commute, and the second one leaves the entry of the first as it was. -/
def Independent (gsi gsi' : BitVec 32) : Prop :=
  ∀ s, s.setup = io → ∀ call call' : RedirCall,
    call'.exec (call.exec s gsi) gsi' = call.exec (call'.exec s gsi') gsi ∧
    (call'.exec (call.exec s gsi) gsi').halvesAt (io.lowReg gsi) = (call.exec s gsi).halvesAt (io.lowReg gsi)

end IoApicSetup

/-! ### What the calls write -/

section Calls
variable {io : IoApicSetup} {s : Irq} {gsi gsi' : BitVec 32}

theorem setup_setHalves (s : Irq) (reg : BitVec 8) (halves : BitVec 32 × BitVec 32) :
    (s.setHalves reg halves).setup = s.setup :=
  congrArg (IoApicSetup.mk s.addrs) (s.version_withRegs _)

/-- A call for a GSI that is not accepted, without an IOAPIC or below its GSIs, does nothing. -/
theorem exec_of_not_reaches (h : s.setup = io) (hno : ¬io.Reaches gsi) (call : RedirCall) :
    call.exec s gsi = s ∧ ∀ vector flags, s.apicRouteIrq gsi vector flags = (false, s) := by
  subst h
  have hout : s.addrs.ioapicAddr = 0 ∨ gsi < s.addrs.ioapicGsiBase := by
    by_contra hc
    rw [not_or, BitVec.not_lt] at hc
    exact hno hc
  have hroute (vector : BitVec 8) (flags : BitVec 16) : s.apicRouteIrq gsi vector flags = (false, s) := by
    unfold Irq.apicRouteIrq
    rcases hout with h0 | hlt
    · rw [if_pos h0]
    · rw [if_pos hlt, ite_self]
  refine ⟨?_, hroute⟩
  cases call with
  | route vector flags =>
    show (s.apicRouteIrq gsi vector flags).2 = s
    rw [hroute]
  | setMask masked =>
    show s.apicSetIrqMask gsi masked = s
    unfold Irq.apicSetIrqMask
    rcases hout with h0 | hlt
    · rw [if_pos h0]
    · rw [if_pos hlt, ite_self]

/-- `apic_set_irq_mask` of a GSI that is not below those of the IOAPIC, whether the entry exists or not. -/
theorem apicSetIrqMask_eq (h : s.setup = io) (hin : io.Reaches gsi) (masked : Bool) (high : BitVec 32) :
    s.apicSetIrqMask gsi masked =
      s.setHalves (io.lowReg gsi) ((RedirCall.setMask masked).halves high (s.halvesAt (io.lowReg gsi))) := by
  have hreg : ((0x10 + (gsi - io.addrs.ioapicGsiBase) * 2).setWidth 8 : BitVec 8) = io.lowReg gsi :=
    Irq.redirReg_narrowed hin.2
  have hread : s.ioapicRead (io.lowReg gsi) = s.ioRegs (io.lowReg gsi) := by
    have hne : io.lowReg gsi ≠ IoApic.regVer := by
      intro he
      have : (io.lowReg gsi).toNat % 2 = 0 := Irq.redirReg_mod_two _
      rw [he] at this
      cases this
    exact if_neg hne
  subst h
  unfold Irq.apicSetIrqMask
  rw [if_neg (show ¬s.addrs.ioapicAddr = 0 from hin.1),
    if_neg (show ¬gsi < s.addrs.ioapicGsiBase from BitVec.not_lt.mpr hin.2)]
  dsimp only [Irq.setup] at hreg ⊢
  rw [hreg]
  dsimp only [Irq.setup] at hread
  rw [hread]
  unfold Irq.setHalves RedirCall.halves Irq.halvesAt
  dsimp only
  rw [update_eq_self]
  rfl

theorem apicRouteIrq_accepts (h : s.setup = io) (hin : io.Accepts gsi) (vector : BitVec 8) (flags : BitVec 16) :
    s.apicRouteIrq gsi vector flags = (true, s.setHalves (io.lowReg gsi)
      ((RedirCall.route vector flags).halves (Irq.destinationOf s.apicLapicId) (s.halvesAt (io.lowReg gsi)))) := by
  subst h
  obtain ⟨⟨haddr, hbase⟩, hle⟩ := hin
  rw [Irq.apicRouteIrq_eq s gsi vector flags haddr (BitVec.not_lt.mpr hbase), if_neg]
  · rfl
  · exact Nat.not_lt.mpr hle

theorem apicRouteIrq_rejects (h : s.setup = io) (hno : ¬io.Accepts gsi) (vector : BitVec 8) (flags : BitVec 16) :
    s.apicRouteIrq gsi vector flags = (false, s) := by
  by_cases hin : io.Reaches gsi
  · subst h
    rw [Irq.apicRouteIrq_eq s gsi vector flags hin.1 (BitVec.not_lt.mpr hin.2), if_pos]
    exact Nat.lt_of_not_le fun hle => hno ⟨hin, hle⟩
  · exact (exec_of_not_reaches h hin (.setMask true)).2 vector flags

theorem exec_of_accepts (h : s.setup = io) (hin : io.Accepts gsi) (call : RedirCall) :
    call.exec s gsi = s.setHalves (io.lowReg gsi)
      (call.halves (Irq.destinationOf s.apicLapicId) (s.halvesAt (io.lowReg gsi))) := by
  cases call with
  | route vector flags =>
    unfold RedirCall.exec
    dsimp only
    rw [apicRouteIrq_accepts h hin]
  | setMask masked => exact apicSetIrqMask_eq h hin.1 masked _

end Calls

/-! ### Entries -/

section Entries
variable {s : Irq} {r r' : BitVec 8} {halves halves' : BitVec 32 × BitVec 32}

theorem ioRegs_setHalves (s : Irq) (r : BitVec 8) (halves : BitVec 32 × BitVec 32) :
    (s.setHalves r halves).ioRegs = update (update s.ioRegs (r + 1) halves.2) r halves.1 :=
      s.ioRegs_withRegs _

theorem setHalves_changesOnly {P : BitVec 8 → Prop} (hlow : halves.1 ≠ s.ioRegs r → P r)
    (hhigh : halves.2 ≠ s.ioRegs (r + 1) → P (r + 1)) :
    Irq.ChangesOnly P s (s.setHalves r halves) := by
  refine ⟨rfl, fun addr hne => update_of_ne hne .., s.version_withRegs _, fun reg hreg => ?_⟩
  refine (congrFun (ioRegs_setHalves s r halves) reg).trans ?_
  by_cases h0 : reg = r
  · subst h0
    rw [update_self]
    exact not_not.mp fun hne => hreg (hlow hne)
  · rw [update_of_ne h0]
    by_cases h1 : reg = r + 1
    · subst h1
      rw [update_self]
      exact not_not.mp fun hne => hreg (hhigh hne)
    · rw [update_of_ne h1]
      rfl

/-- The registers of two entries are four different ones. -/
structure ApartRegs (r r' : BitVec 8) : Prop where
  low : r ≠ r'
  high : r + 1 ≠ r' + 1
  lowHigh : r ≠ r' + 1
  highLow : r + 1 ≠ r'

theorem ApartRegs.symm (h : ApartRegs r r') : ApartRegs r' r :=
  ⟨h.low.symm, h.high.symm, h.highLow.symm, h.lowHigh.symm⟩

theorem halvesAt_setHalves_of_apart (h : ApartRegs r r') (s : Irq) (halves : BitVec 32 × BitVec 32) :
    (s.setHalves r' halves).halvesAt r = s.halvesAt r := by
  unfold Irq.halvesAt
  rw [ioRegs_setHalves, update_of_ne h.low, update_of_ne h.lowHigh, update_of_ne h.highLow,
    update_of_ne h.high]

theorem setHalves_comm (h : ApartRegs r r') (s : Irq) (halves halves' : BitVec 32 × BitVec 32) :
    (s.setHalves r halves).setHalves r' halves' = (s.setHalves r' halves').setHalves r halves := by
  rw [Irq.setHalves, ioRegs_setHalves, Irq.setHalves.eq_1 (s.setHalves r' halves'), ioRegs_setHalves, Irq.setHalves,
    Irq.setHalves, Irq.withRegs_withRegs, Irq.withRegs_withRegs]
  refine congrArg s.withRegs ?_
  rw [update_comm h.lowHigh, update_comm h.high, update_comm h.low,
    update_comm h.highLow]

end Entries

namespace IoApicSetup
variable {io : IoApicSetup} {gsi gsi' : BitVec 32}

theorem apartRegs (hin : io.Reaches gsi) (hin' : io.Reaches gsi') (hlt : io.index gsi < 120)
    (hlt' : io.index gsi' < 120) (hne : gsi ≠ gsi') :
    ApartRegs (io.lowReg gsi) (io.lowReg gsi') := by
  have hindex : io.index gsi ≠ io.index gsi' := by
    intro he
    refine hne (BitVec.eq_of_toNat_eq ?_)
    have h1 : io.addrs.ioapicGsiBase.toNat ≤ gsi.toNat := hin.2
    have h2 : io.addrs.ioapicGsiBase.toNat ≤ gsi'.toNat := hin'.2
    unfold index at he
    omega
  have hlow : (io.lowReg gsi).toNat ≠ (io.lowReg gsi').toNat := by
    unfold lowReg
    rw [Irq.toNat_redirReg, Irq.toNat_redirReg]
    omega
  have heven (gsi : BitVec 32) : (io.lowReg gsi).toNat % 2 = 0 := Irq.redirReg_mod_two _
  have hhigh (gsi : BitVec 32) : (io.lowReg gsi + 1).toNat = (io.lowReg gsi).toNat + 1 := Irq.redirReg_add_one _
  have := heven gsi
  have := heven gsi'
  have := hhigh gsi
  have := hhigh gsi'
  refine ⟨fun he => hlow (congrArg BitVec.toNat he), fun he => ?_, fun he => ?_, fun he => ?_⟩ <;> replace he :=
    congrArg BitVec.toNat he <;> omega

theorem independent_of_apart (hin : io.Accepts gsi) (hin' : io.Accepts gsi')
    (h : ApartRegs (io.lowReg gsi) (io.lowReg gsi')) :
    io.Independent gsi gsi' := by
  intro s hs call call'
  rw [exec_of_accepts hs hin, exec_of_accepts hs hin', exec_of_accepts ((setup_setHalves ..).trans hs) hin',
    exec_of_accepts ((setup_setHalves ..).trans hs) hin,
    halvesAt_setHalves_of_apart h, halvesAt_setHalves_of_apart h.symm]
  exact ⟨setHalves_comm h s _ _, halvesAt_setHalves_of_apart h _ _⟩

theorem toNat_lowReg (hlt : io.index gsi < 120) : (io.lowReg gsi).toNat = 0x10 + 2 * io.index gsi := by
  unfold lowReg
  rw [Irq.toNat_redirReg, Nat.mod_eq_of_lt (by omega)]

theorem getLsbD_setMask (masked : Bool) (low : BitVec 32) {i : Nat} (hi : i ≠ 16) :
    (if masked then low ||| 1#32 <<< 16 else low &&& ~~~(1#32 <<< 16)).getLsbD i = low.getLsbD i := by
  by_cases hlt : i < 32
  · cases masked with
    | true => exact (Bits.getLsbD_or_bit low hlt).trans (by simp [hi])
    | false => exact (Bits.getLsbD_and_not_bit low hlt).trans (by simp [hi])
  · rw [BitVec.getLsbD_of_ge _ i (by omega), BitVec.getLsbD_of_ge _ i (by omega)]

theorem framed_of_addressed (h : io.Reaches gsi → io.Addressed gsi) : io.Framed gsi := by
  refine ⟨fun s hs vector flags s' hr => ?_, fun s hs masked => ?_⟩
  · by_cases hin : io.Accepts gsi
    · rw [apicRouteIrq_accepts hs hin] at hr
      cases hr
      have hlow := toNat_lowReg (h hin.1).2
      exact setHalves_changesOnly (fun _ => Or.inl hlow) fun _ =>
        Or.inr (by rw [lowReg, Irq.redirReg_add_one, ← lowReg, hlow]; omega)
    · rw [apicRouteIrq_rejects hs hin] at hr
      cases hr
  · by_cases hin : io.Reaches gsi
    · obtain ⟨hle, hlt⟩ := h hin
      rw [apicSetIrqMask_eq hs hin masked 0]
      refine ⟨setHalves_changesOnly (fun _ => ⟨⟨hin, hle⟩, toNat_lowReg hlt⟩) fun hne => absurd rfl hne,
        fun reg i hi => ?_⟩
      rw [ioRegs_setHalves]
      by_cases h0 : reg = io.lowReg gsi
      · rw [h0, update_self]
        exact getLsbD_setMask masked _ hi
      · rw [update_of_ne h0]
        exact congrArg (BitVec.getLsbD · i) (congrFun (update_eq_self _ _) reg)
    · have hsame : s.apicSetIrqMask gsi masked = s := (exec_of_not_reaches hs hin (.setMask masked)).1
      rw [hsame]
      exact ⟨⟨rfl, fun _ _ => rfl, rfl, fun _ _ => rfl⟩, fun _ _ _ => rfl⟩

/-- A machine with this setup and registers that are all zero. -/
def blank (io : IoApicSetup) : Irq :=
  { Irq.machine 23 with addrs := io.addrs, ioapics := fun _ => ⟨io.version, fun _ => 0⟩ }

/-- The mask of an entry without registers of its own lands in another register. -/
theorem addressed_of_framed (h : io.Framed gsi) (hin : io.Reaches gsi) : io.Addressed gsi := by
  have hs : io.blank.setup = io := rfl
  have hmask := (h.setMask io.blank hs true).1.regs (io.lowReg gsi)
  have hset : (io.blank.apicSetIrqMask gsi true).ioRegs (io.lowReg gsi) = 1#32 <<< 16 := by
    rw [apicSetIrqMask_eq hs hin true 0, ioRegs_setHalves, update_self]
    exact BitVec.zero_or
  by_contra hno
  have hregs : (io.blank.apicSetIrqMask gsi true).ioRegs (io.lowReg gsi) = 0 := by
    have haddrs := (h.setMask io.blank hs true).1.rest
    refine (?_ : _ = _).trans (hmask fun hp => hno ⟨hp.1.2, ?_⟩)
    · unfold Irq.ioRegs
      rw [← congrArg (fun t : Irq => t.addrs.ioapicAddr) haddrs]
    · have := (io.lowReg gsi).isLt
      omega
  rw [hset] at hregs
  exact absurd hregs (by decide)

end IoApicSetup

/-- For two GSIs, whatever the registers hold: routing and masking each of them changes only the registers of its
    entry, and the calls for the two are independent if both are accepted, exactly if each GSI that is not below those
    of the IOAPIC has an entry that exists, below 120. -/
theorem ioapic_calls_framed_iff (io : IoApicSetup) (gsi gsi' : BitVec 32) :
    (io.Framed gsi ∧ io.Framed gsi' ∧ (gsi ≠ gsi' → io.Accepts gsi → io.Accepts gsi' → io.Independent gsi gsi')) ↔
    (io.Reaches gsi → io.Addressed gsi) ∧ (io.Reaches gsi' → io.Addressed gsi') := by
  constructor
  · rintro ⟨h, h', -⟩
    exact ⟨IoApicSetup.addressed_of_framed h, IoApicSetup.addressed_of_framed h'⟩
  · rintro ⟨h, h'⟩
    refine ⟨IoApicSetup.framed_of_addressed h, IoApicSetup.framed_of_addressed h', fun hne hin hin' => ?_⟩
    exact IoApicSetup.independent_of_apart hin hin' (IoApicSetup.apartRegs hin.1 hin'.1 (h hin.1).2 (h' hin'.1).2 hne)

/-- An IOAPIC with 24 entries after `irq_try_enable_apic`: masking GSI 128, which it does not have, masks its entry
    0. -/
theorem setMask_of_missing_entry : ∃ s : Irq, s.setup.maxRedir = 23 ∧ s.setup.index 128 = 128 ∧
    s.ioRegs 0x10 = 0x20 ∧ (s.apicSetIrqMask 128 true).ioRegs 0x10 = 0x10020 ∧ ¬s.setup.Framed 128 := by
  let s := ((Irq.sample 23).acpiInit (some (Irq.madtTable (Irq.ioapicEntry 0 0)))).irqTryEnableApic.2
  have hmax : s.setup.maxRedir = 23 := by decide +kernel
  have hindex : s.setup.index 128 = 128 := by decide +kernel
  have hin : s.setup.Reaches 128 := ⟨by decide +kernel, by decide +kernel⟩
  refine ⟨s, hmax, hindex, by decide +kernel, by decide +kernel, fun h => ?_⟩
  have hle := (IoApicSetup.addressed_of_framed h hin).1
  rw [hmax, hindex] at hle
  exact absurd hle (by decide)

end SamOS
