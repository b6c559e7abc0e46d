import SamOS.AmlDecode
import SamOS.Lib.Interact

/-! Power-off through ACPI: what `acpi_init` takes from the tables (`parse_fadt_poweroff`), and `shutdown`, which
    changes to ACPI mode if the firmware is still in legacy mode and then asks for the state S5. On hardware that the
    tables describe the machine goes off. -/

namespace SamOS
namespace Acpi
open AcpiMemory Interact
open AcpiMadtInfo (readU32)

/-! ### `acpi.c` -/

/-- The static variables from `g_pm1a_cnt_port` to `g_have_acpi_poweroff`. -/
structure Poweroff where
  pm1aCntPort : BitVec 16
  pm1bCntPort : BitVec 16
  slpTypa : BitVec 16
  slpTypb : BitVec 16
  smiCmd : BitVec 32
  acpiEnable : BitVec 8
  haveAcpiPoweroff : Bool

structure AcpiState where
  roots : Roots
  madt : AcpiMadtInfo
  poweroff : Poweroff

/-- The static variables at the start. -/
def AcpiState.initial : AcpiState := ⟨⟨0, 0⟩, .zero, ⟨0, 0, 0, 0, 0, 0, false⟩⟩

/-- The bytes of a string. -/
def ascii (s : String) (i : Nat) : BitVec 8 := BitVec.ofNat 8 (s.toList.getD i '\x00').toNat

/-- `parse_fadt_poweroff` and the line that it logs. There is no result if the scan of the AML does not end. -/
def parseFadtPoweroff (mem : AcpiMemory) (roots : Roots) (p : Poweroff) : Option (Poweroff × KlogLevel × String) :=
  let fadt := (acpiFindTable mem roots (ascii "FACP")).value
  if tableValid mem fadt = false then some (p, .warn, "ACPI FADT not found")
  else if tableLength mem fadt < 90 then some (p, .warn, "ACPI FADT too small for poweroff fields")
  else
    let f := mem.at_ fadt
    let p := { p with
      smiCmd := readU32 f 48
      acpiEnable := f 52
      pm1aCntPort := (readU32 f 64).setWidth 16
      pm1bCntPort := (readU32 f 68).setWidth 16 }
    let dsdt := (readU32 f 40).setWidth 64
    if tableValid mem dsdt = false then some (p, .warn, "ACPI DSDT invalid")
    else
      match (amlExtractS5Types (some (mem.at_ dsdt)) (tableLength mem dsdt) (p.slpTypa, p.slpTypb)).value with
      | none => none
      | some (found, a, b) =>
        let p := { p with slpTypa := a, slpTypb := b }
        if found = false then some (p, .warn, "ACPI _S5 object not found in DSDT")
        else if p.pm1aCntPort = 0 then some (p, .warn, "ACPI PM1a control block missing")
        else some ({ p with haveAcpiPoweroff := true }, .info, "ACPI S5 poweroff path ready")

/-- The root tables that the RSDP points to; the XSDT counts from revision 2 on, if the whole structure is valid. -/
def rootsAt (mem : AcpiMemory) (rsdp : BitVec 64) (roots : Roots) : Roots :=
  let r := mem.at_ rsdp
  let length := readU32 r 20
  { rsdt := (readU32 r 16).setWidth 64
    xsdt := if 2 ≤ r 15 ∧ 36 ≤ length ∧ checksum r length.toNat = 0 then readU64 r 24 else roots.xsdt }

/-- `acpi_init`, up to what it logs. -/
def acpiInit (mem : AcpiMemory) (rsdp : BitVec 64) (s : AcpiState) : Option AcpiState :=
  let s := { s with madt := .zero }
  if rsdp = 0 then some s
  else if memeq (mem.at_ rsdp) (ascii "RSD PTR ") 8 = false then some s
  else if checksum (mem.at_ rsdp) 20 ≠ 0 then some s
  else
    let roots := rootsAt mem rsdp s.roots
    let table := (acpiFindTable mem roots (ascii "APIC")).value
    (parseFadtPoweroff mem roots s.poweroff).map fun r =>
      { roots, madt := s.madt.parseMadt (if table = 0 then none else some (mem.at_ table)), poweroff := r.1 }

/-- One round of the wait for ACPI mode. -/
def pollAcpiMode (p : Poweroff) (_ : Unit) : Prog ports (Unit ⊕ Unit) := do
  let cnt ← inw p.pm1aCntPort
  if cnt &&& 1 ≠ 0 then pure (.inr ())
  else do
    outb 0x80 0
    pure (.inl ())

/-- The value with which a control register asks for a sleep state. -/
def sleepValue (cnt slpTyp : BitVec 16) : BitVec 16 := (cnt &&& 0xE3FF) ||| (slpTyp <<< 10) ||| 0x2000

/-- The change to ACPI mode in `shutdown`, when the firmware still uses legacy mode. -/
def enableAcpi (p : Poweroff) : Prog ports Unit := do
  let cnt ← inw p.pm1aCntPort
  if cnt &&& 1 = 0 ∧ p.smiCmd ≠ 0 ∧ p.acpiEnable ≠ 0 then do
    outb (p.smiCmd.setWidth 16) p.acpiEnable
    let _ ← Prog.loop (pollAcpiMode p) 30000 ()

/-- The writes of `shutdown` to the control registers. -/
def askS5 (p : Poweroff) : Prog ports Unit := do
  let a ← inw p.pm1aCntPort
  outw p.pm1aCntPort (sleepValue a p.slpTypa)
  if p.pm1bCntPort ≠ 0 then do
    let b ← inw p.pm1bCntPort
    outw p.pm1bCntPort (sleepValue b p.slpTypb)

/-- `shutdown`, up to the endless `hlt` at its end. -/
def shutdown (p : Poweroff) : Prog ports Unit := do
  if p.haveAcpiPoweroff then do
    enableAcpi p
    askS5 p
  outw 0x604 0x2000
  outw 0xB004 0x2000
  outw 0x4004 0x3400

/-! ### The hardware -/

/-- The power management of a machine: the ports of its control registers (0 for the second one if there is none), the
    command that changes to ACPI mode and the reads that still see legacy mode after it, and the sleep types of S5. -/
structure PowerHardware where
  pm1a : BitVec 16
  pm1b : BitVec 16
  smiCmd : BitVec 16
  enable : BitVec 8
  delay : Nat
  typa : BitVec 3
  typb : BitVec 3
  exists_pm1a : pm1a ≠ 0
  apart : pm1b ≠ pm1a

/-- In how many reads ACPI mode is there, and which registers have been asked for S5 in ACPI mode. -/
structure PowerState where
  mode : Option Nat
  askedA : Bool
  askedB : Bool

namespace PowerHardware
variable (hw : PowerHardware)

/-- The register value asks for the sleep state of type `typ`. -/
def Asks (v : BitVec 16) (typ : BitVec 3) : Prop := v.getLsbD 13 = true ∧ v.extractLsb' 10 3 = typ

instance (v : BitVec 16) (typ : BitVec 3) : Decidable (Asks v typ) := inferInstanceAs (Decidable (_ ∧ _))

/-- Bit 0 of the first control register is ACPI mode. What else is read is arbitrary, and every other port is without
    effect. -/
def serves : Server ports PowerState
  | s, .inb _, _, t => t = s
  | s, .outb port v, _, t => t = if port = hw.smiCmd ∧ v = hw.enable ∧
    s.mode = none then { s with mode := some hw.delay } else s
  | s, .inw port, (r : BitVec 16), t =>
    if port = hw.pm1a then (r &&& 1 ≠ 0 ↔ s.mode = some 0) ∧ t = { s with mode := s.mode.map (· - 1) } else t = s
  | s, .outw port v, _, t =>
    t = if port = hw.pm1a ∧ s.mode = some 0 ∧ Asks v hw.typa then { s with askedA := true }
      else if port = hw.pm1b ∧ s.mode = some 0 ∧ Asks v hw.typb then { s with askedB := true }
      else s

/-- The machine is off: every control register that it has was asked for S5. -/
def Off (s : PowerState) : Prop := s.askedA = true ∧ (hw.pm1b = 0 ∨ s.askedB = true)

/-- ACPI mode is there, or the command leads to it in time. -/
def Ready (s : PowerState) : Prop :=
  s.mode = some 0 ∨ s.mode = none ∧ hw.smiCmd ≠ 0 ∧ hw.enable ≠ 0 ∧ hw.delay ≤ 30000

/-- The static variables are those of this hardware. -/
structure Known (p : Poweroff) : Prop where
  pm1aCntPort : p.pm1aCntPort = hw.pm1a
  pm1bCntPort : p.pm1bCntPort = hw.pm1b
  slpTypa : p.slpTypa = hw.typa.setWidth 16
  slpTypb : p.slpTypb = hw.typb.setWidth 16
  smiCmd : p.smiCmd = hw.smiCmd.setWidth 32
  acpiEnable : p.acpiEnable = hw.enable
  haveAcpiPoweroff : p.haveAcpiPoweroff = true

end PowerHardware

/-! ### `shutdown` -/

theorem asks_sleepValue (cnt : BitVec 16) (typ : BitVec 3) :
    PowerHardware.Asks (sleepValue cnt (typ.setWidth 16)) typ := by
  refine ⟨by simp [sleepValue], BitVec.eq_of_getLsbD_eq ?_⟩
  intro i hi
  have hi' : i = 0 ∨ i = 1 ∨ i = 2 := by omega
  rcases hi' with rfl | rfl | rfl <;> simp [sleepValue]

section Shutdown
variable {hw : PowerHardware} {p : Poweroff} {s t : PowerState} {n : Nat}

theorem ensures_readMode (hk : hw.Known p) {Q : BitVec 16 → PowerState → Prop}
    (h : ∀ r, (r &&& 1 ≠ 0 ↔ s.mode = some 0) → Q r { s with mode := s.mode.map (· - 1) }) :
    (inw p.pm1aCntPort).Ensures hw.serves s Q := by
  rw [ensures_inw, hk.pm1aCntPort]
  intro r t hr
  simp only [PowerHardware.serves, if_true] at hr
  obtain ⟨hbit, rfl⟩ := hr
  exact h r hbit

/-- The wait ends in ACPI mode if that comes within the rounds of the loop. -/
theorem ensures_wait (hk : hw.Known p) {d : Nat} (hd : d ≤ n) (hm : s.mode = some d) :
    (Prog.loop (pollAcpiMode p) n ()).Ensures hw.serves s fun _ t => t.mode = some 0 := by
  refine Prog.ensures_loop (fun n _ s => ∃ d ≤ n, s.mode = some d) ?_ ?_ ⟨d, hd, hm⟩
  · rintro n - s ⟨d, hd, hm⟩
    simp only [pollAcpiMode, Prog.ensures_bind]
    refine ensures_readMode hk fun r hbit => ?_
    rw [hm, Option.some.injEq] at hbit
    rw [hm]
    split
    · rename_i hset
      obtain rfl := hbit.mp hset
      rfl
    · rename_i hclear
      have hpos : d ≠ 0 := fun h => hclear (hbit.mpr h)
      simp only [Prog.ensures_bind, ensures_outb]
      intro t ht
      simp only [PowerHardware.serves, Option.map_some, reduceCtorEq, and_false, if_false] at ht
      rw [ht]
      exact ⟨d - 1, by omega, rfl⟩
  · rintro - s ⟨d, hd, hm⟩
    rw [hm, Nat.le_zero.mp hd]

theorem off_serves {c : PortCall} {r : c.Answer} (h : hw.Off s) (hs : hw.serves s c r t) : hw.Off t := by
  cases c with
  | inb port => exact (show t = s from hs) ▸ h
  | outb port v =>
    obtain rfl := (show t = _ from hs)
    split <;> exact h
  | inw port =>
    by_cases hp : port = hw.pm1a
    · simp only [PowerHardware.serves, if_pos hp] at hs
      obtain ⟨-, rfl⟩ := hs
      exact h
    · simp only [PowerHardware.serves, if_neg hp] at hs
      exact hs ▸ h
  | outw port v =>
    obtain rfl := (show t = _ from hs)
    split
    · exact ⟨rfl, h.2⟩
    · split
      · exact ⟨h.1, h.2.imp_right fun _ => rfl⟩
      · exact h

theorem ensures_enableAcpi (hk : hw.Known p) (hr : hw.Ready s) :
    (enableAcpi p).Ensures hw.serves s fun _ t => t.mode = some 0 := by
  simp only [enableAcpi, Prog.ensures_bind]
  refine ensures_readMode hk fun r hbit => ?_
  rcases hr with hm | ⟨hm, hsmi, hen, hdelay⟩
  · have hset : r &&& 1 ≠ 0 := hbit.mpr hm
    rw [if_neg fun h => hset h.1, hm]
    rfl
  · have hclear : r &&& 1 = 0 := not_not.mp fun h => by
      cases hm.symm.trans (hbit.mp h)
    have hport : (p.smiCmd.setWidth 16) = hw.smiCmd := by
      rw [hk.smiCmd]
      simp
    have hne : p.smiCmd ≠ 0 := fun h => hsmi (by rw [← hport, h]; rfl)
    rw [if_pos ⟨hclear, hne, by rw [hk.acpiEnable]; exact hen⟩, hm]
    simp only [Prog.ensures_bind, ensures_outb]
    intro t ht
    rw [hport, hk.acpiEnable] at ht
    obtain rfl := (show t = _ from ht).trans (if_pos ⟨rfl, rfl, rfl⟩)
    exact (ensures_wait hk hdelay rfl).imp fun _ _ hmode => hmode

/-- In ACPI mode the two writes turn the machine off. -/
theorem ensures_askS5 (hk : hw.Known p) (hm : s.mode = some 0) : (askS5 p).Ensures hw.serves s fun _ t => hw.Off t := by
  simp only [askS5, Prog.ensures_bind, hk.slpTypa, hk.slpTypb, hk.pm1bCntPort]
  refine ensures_readMode hk fun a _ => ?_
  rw [ensures_outw, hk.pm1aCntPort, hm]
  intro t ht
  obtain rfl := (show t = _ from ht).trans (if_pos ⟨rfl, rfl, asks_sleepValue a hw.typa⟩)
  split
  · simp only [Prog.ensures_bind, ensures_inw, ensures_outw]
    intro b t hb u hu
    simp only [PowerHardware.serves, if_neg hw.apart] at hb
    obtain rfl := hb
    obtain rfl := ((show u = _ from hu).trans (if_neg fun h => hw.apart h.1)).trans
      (if_pos ⟨rfl, rfl, asks_sleepValue b hw.typb⟩)
    exact ⟨rfl, .inr rfl⟩
  · rename_i hzero
    exact ⟨rfl, .inl (not_not.mp hzero)⟩

/-- `shutdown` turns the machine off, and the writes for virtual machines come too late to matter. -/
theorem ensures_shutdown (hk : hw.Known p) (hr : hw.Ready s) :
    (shutdown p).Ensures hw.serves s fun _ t => hw.Off t := by
  simp only [shutdown, hk.haveAcpiPoweroff, if_true]
  rw [Prog.ensures_bind]
  refine (ensures_enableAcpi hk hr).imp fun _ t hm => ?_
  rw [Prog.ensures_bind]
  exact (ensures_askS5 hk hm).imp fun _ u hu => Prog.ensures_keeps (P := hw.Off) off_serves _ hu

theorem exists_serves (hw : PowerHardware) (s : PowerState) (c : PortCall) : ∃ r t, hw.serves s c r t := by
  cases c with
  | inb port => exact ⟨(0 : BitVec 8), s, rfl⟩
  | outb port v => exact ⟨(), _, rfl⟩
  | inw port =>
    refine ⟨(if s.mode = some 0 then 1 else 0 : BitVec 16),
      if port = hw.pm1a then { s with mode := s.mode.map (· - 1) } else s, ?_⟩
    by_cases hp : port = hw.pm1a
    · simp only [PowerHardware.serves, if_pos hp]
      by_cases hm : s.mode = some 0 <;> simp [hm]
    · simp only [PowerHardware.serves, if_neg hp]
  | outw port v => exact ⟨(), _, rfl⟩

end Shutdown

/-! ### From the tables to the hardware -/

/-- The tables that the RSDP leads to describe the hardware: the FADT has its ports, and the AML of the DSDT the types
    of S5. -/
structure Described (mem : AcpiMemory) (rsdp : BitVec 64) (hw : PowerHardware) (fadt dsdt : BitVec 64)
    (aml : List (BitVec 8)) : Prop where
  exists_rsdp : rsdp ≠ 0
  signature : memeq (mem.at_ rsdp) (ascii "RSD PTR ") 8 = true
  rsdpSum : checksum (mem.at_ rsdp) 20 = 0
  found : (acpiFindTable mem (rootsAt mem rsdp ⟨0, 0⟩) (ascii "FACP")).value = fadt
  fadtValid : tableValid mem fadt = true
  fadtLength : 90 ≤ tableLength mem fadt
  dsdtAt : (readU32 (mem.at_ fadt) 40).setWidth 64 = dsdt
  smiCmd : readU32 (mem.at_ fadt) 48 = hw.smiCmd.setWidth 32
  enable : mem.at_ fadt 52 = hw.enable
  pm1a : (readU32 (mem.at_ fadt) 64).setWidth 16 = hw.pm1a
  pm1b : (readU32 (mem.at_ fadt) 68).setWidth 16 = hw.pm1b
  dsdtValid : tableValid mem dsdt = true
  dsdtLength : (tableLength mem dsdt).toNat = 36 + aml.length
  bytes : Holds (mem.at_ dsdt) 36 aml
  types : ∃ pre pfx pkg ea eb rest num, S5Stream aml (hw.typa.setWidth 8)
    (hw.typb.setWidth 8) pre pfx pkg ea eb rest num

section Tables
variable {mem : AcpiMemory} {rsdp fadt dsdt : BitVec 64} {hw : PowerHardware} {aml : List (BitVec 8)}

theorem Described.parse (h : Described mem rsdp hw fadt dsdt aml) (p : Poweroff) :
    ∃ p', parseFadtPoweroff mem (rootsAt mem rsdp ⟨0, 0⟩) p = some (p', .info, "ACPI S5 poweroff path ready") ∧
      hw.Known p' := by
  obtain ⟨pre, pfx, pkg, ea, eb, rest, num, hs⟩ := h.types
  have htypes := hs.extract h.dsdtLength h.bytes (p.slpTypa, p.slpTypb)
  have hlong : ¬tableLength mem fadt < 90 := BitVec.not_lt.mpr h.fadtLength
  unfold parseFadtPoweroff
  simp only [h.found, h.fadtValid, Bool.true_eq_false, if_false, hlong, h.dsdtAt, h.dsdtValid, htypes, h.pm1a,
    hw.exists_pm1a]
  refine ⟨_, rfl, rfl, h.pm1b, ?_, ?_, h.smiCmd, h.enable, rfl⟩ <;> simp

theorem Described.acpiInit (h : Described mem rsdp hw fadt dsdt aml) :
    ∃ st, acpiInit mem rsdp .initial = some st ∧ hw.Known st.poweroff := by
  obtain ⟨p, hp, hk⟩ := h.parse AcpiState.initial.poweroff
  have hsum : ¬checksum (mem.at_ rsdp) 20 ≠ 0 := not_not.mpr h.rsdpSum
  unfold Acpi.acpiInit
  simp only [h.exists_rsdp, h.signature, Bool.true_eq_false, if_false, hsum]
  rw [show AcpiState.initial.roots = ⟨0, 0⟩ from rfl, hp]
  exact ⟨_, rfl, hk⟩

/-- For every memory whose ACPI tables describe the hardware, and from every state of the hardware that is or can be
    brought in ACPI mode: after `acpi_init`, `shutdown` ends, and however the hardware answers, the machine is off. -/
theorem shutdown_powers_off (h : Described mem rsdp hw fadt dsdt aml) {s : PowerState} (hr : hw.Ready s) :
    ∃ st, acpiInit mem rsdp .initial = some st ∧ (∃ t, (shutdown st.poweroff).Ends hw.serves s () t) ∧
      ∀ t, (shutdown st.poweroff).Ends hw.serves s () t → hw.Off t := by
  obtain ⟨st, hst, hk⟩ := h.acpiInit
  obtain ⟨⟨⟩, t, ht⟩ := Prog.exists_ends (exists_serves hw) (shutdown st.poweroff) s
  exact ⟨st, hst, ⟨t, ht⟩, fun t ht => (ensures_shutdown hk hr).of_ends ht⟩

end Tables

/-- A memory with an RSDP, an RSDT, a FADT and a DSDT; what is not listed is 0. -/
def sampleMemory : AcpiMemory := fun a =>
  ([(0x100, [82, 83, 68, 32, 80, 84, 82, 32, 223]), (0x110, [0, 2]), (0x204, [40]), (0x209, [213]), (0x224, [0, 3]),
    (0x300, [70, 65, 67, 80, 90]), (0x309, [44]), (0x328, [0, 4]), (0x330, [0xB2]), (0x334, [0xA0]), (0x340, [4, 6]),
    (0x404, [48]), (0x409, [74]), (0x424, [0x08, 0x5F, 0x53, 0x35, 0x5F, 0x12, 0x06, 0x02, 0x0A, 5, 0x0A, 5])] :
    List (Nat × List (BitVec 8))).foldr (fun run byte => if run.1 ≤ a.toNat then run.2.getD (a.toNat - run.1) byte
      else byte) 0

/-- The hardware that it describes, which is slow to change to ACPI mode. -/
def sampleHardware : PowerHardware := ⟨0x604, 0, 0xB2, 0xA0, 30000, 5, 5, by decide, by decide⟩

/-- From legacy mode. -/
theorem shutdown_from_legacy : ∃ st, acpiInit sampleMemory 0x100 .initial = some st ∧
    (∃ t, (shutdown st.poweroff).Ends sampleHardware.serves ⟨none, false, false⟩ () t) ∧
      ∀ t, (shutdown st.poweroff).Ends sampleHardware.serves ⟨none, false, false⟩ () t → sampleHardware.Off t := by
  have h : Described sampleMemory 0x100 sampleHardware 0x300 0x400 [0x08, 0x5F, 0x53, 0x35, 0x5F, 0x12, 0x06, 0x02,
      0x0A, 5, 0x0A, 5] := by
    constructor
    case bytes =>
      unfold Holds
      decide +kernel
    case types =>
      exact ⟨[], [], [0x06], [0x0A, 5], [0x0A, 5], [], 0x02, by decide, ⟨rfl⟩, .byte 5, .byte 5, rfl,
        fun j hj => absurd hj (Nat.not_lt_zero j)⟩
    all_goals decide +kernel
  exact shutdown_powers_off h (Or.inr ⟨rfl, by decide, by decide, Nat.le_refl _⟩)

end Acpi
end SamOS
