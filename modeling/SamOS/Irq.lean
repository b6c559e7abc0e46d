import SamOS.Acpi
import SamOS.Klog

/-! The interrupt controllers (`irq.c`, `apic.c`, `pic.c`): the state of `irq.c` and `apic.c` and the devices behind
    them. `mmio_read32` and `mmio_write32` reach the local APIC and the IOAPIC at the addresses of the MADT. -/

namespace SamOS
open Function

inductive IrqBackend where
  | pic
  | apic
  deriving DecidableEq, Repr

structure IrqStats where
  timerIrqCount : BitVec 64
  keyboardIrqCount : BitVec 64
  spuriousIrqCount : BitVec 64
  eoiCount : BitVec 64
  apicRouteFailures : BitVec 64
  healthFaults : BitVec 64
  deriving DecidableEq, Repr

structure ApicAddresses where
  lapicAddr : BitVec 32
  ioapicAddr : BitVec 32
  ioapicGsiBase : BitVec 32
  deriving DecidableEq, Repr

/-- The registers of an IOAPIC. The version register is read-only. -/
structure IoApic where
  version : BitVec 32
  regs : BitVec 8 → BitVec 32

namespace IoApic

def regVer : BitVec 8 := 1

def read (io : IoApic) (reg : BitVec 8) : BitVec 32 := if reg = regVer then io.version else io.regs reg

/-- A write to the version register stays without effect on what is read. -/
def write (io : IoApic) (reg : BitVec 8) (value : BitVec 32) : IoApic :=
  { io with regs := update io.regs reg value }

/-- The index of the last redirection entry. -/
def maxRedir (io : IoApic) : BitVec 32 := (io.read regVer >>> 16) &&& 0xFF

end IoApic

/-- The registers of a local APIC. -/
structure Lapic where
  id : BitVec 32
  svr : BitVec 32

/-- An end-of-interrupt command, to one of the two PICs or to the local APIC. -/
inductive Eoi where
  | pic1
  | pic2
  | lapic
  deriving DecidableEq, Repr

/-- The static state of `irq.c` and `apic.c`, what `acpi.c` has read, and the devices. `eois` lists the commands
    sent. -/
structure Irq where
  backend : IrqBackend
  gsi : Nat → BitVec 32
  stats : IrqStats
  addrs : ApicAddresses
  madt : AcpiMadtInfo
  klog : Klog
  ioapics : BitVec 32 → IoApic
  lapics : BitVec 32 → Lapic
  apicBase : BitVec 64
  pic1Mask : BitVec 8
  pic2Mask : BitVec 8
  eois : List Eoi

namespace Irq

/-! ### The PICs -/

/-- `pic_init`: it ends with all interrupts masked. -/
def picInit (s : Irq) : Irq := { s with pic1Mask := 0xFF, pic2Mask := 0xFF }

def picSendEoi (s : Irq) (irq : Nat) : Irq := { s with eois := s.eois ++ (if 8 ≤ irq then [.pic2] else []) ++ [.pic1] }

def picMask (s : Irq) (irq : Nat) : Irq :=
  if irq < 8 then { s with pic1Mask := s.pic1Mask ||| 1#8 <<< irq }
  else { s with pic2Mask := s.pic2Mask ||| 1#8 <<< (irq - 8) }

/-! ### The local APIC and the IOAPIC -/

def apicSetAddresses (s : Irq) (addrs : ApicAddresses) : Irq := { s with addrs }

def apicCanEnable (s : Irq) : Bool := s.addrs.lapicAddr != 0 && s.addrs.ioapicAddr != 0

def apicEnable (s : Irq) : Bool × Irq :=
  if s.apicCanEnable then
    (true, { s with
      apicBase := s.apicBase ||| 1#64 <<< 11
      lapics := update s.lapics s.addrs.lapicAddr { s.lapics s.addrs.lapicAddr with svr := 0x100 ||| 0xFF }
      klog := s.klog.klogInfo "APIC: local APIC enabled".toList })
  else (false, s)

def apicSendEoi (s : Irq) : Irq := if s.addrs.lapicAddr = 0 then s else { s with eois := s.eois ++ [.lapic] }

def apicMaskLegacyPic (s : Irq) : Irq := (List.range 16).foldl picMask s

def apicLapicId (s : Irq) : BitVec 8 :=
  if s.addrs.lapicAddr = 0 then 0 else ((s.lapics s.addrs.lapicAddr).id >>> 24).setWidth 8

def ioapicRead (s : Irq) (reg : BitVec 8) : BitVec 32 := (s.ioapics s.addrs.ioapicAddr).read reg

def ioapicWrite (s : Irq) (reg : BitVec 8) (value : BitVec 32) : Irq :=
  { s with ioapics := update s.ioapics s.addrs.ioapicAddr ((s.ioapics s.addrs.ioapicAddr).write reg value) }

/-- Unlike `apic_route_irq`, it does not compare the index with the last one of the IOAPIC. -/
def apicSetIrqMask (s : Irq) (gsi : BitVec 32) (masked : Bool) : Irq :=
  if s.addrs.ioapicAddr = 0 then s
  else if gsi < s.addrs.ioapicGsiBase then s
  else
    let index := gsi - s.addrs.ioapicGsiBase
    let lowReg : BitVec 8 := (0x10 + index * 2).setWidth 8
    let low := s.ioapicRead lowReg
    s.ioapicWrite lowReg (if masked then low ||| 1#32 <<< 16 else low &&& ~~~(1#32 <<< 16))

/-- The low half of a redirection entry as `apic_route_irq` writes it: the vector, the polarity (bit 13) and the
    trigger mode (bit 15) from the flags of the override, and not masked (bit 16). -/
def redirLow (vector : BitVec 8) (flags : BitVec 16) : BitVec 32 :=
  let low := vector.setWidth 32
  let low := if flags &&& 2 ≠ 0 then low ||| 1#32 <<< 13 else low
  let low := if flags &&& 8 ≠ 0 then low ||| 1#32 <<< 15 else low
  low &&& ~~~(1#32 <<< 16)

def apicRouteIrq (s : Irq) (gsi : BitVec 32) (vector : BitVec 8) (flags : BitVec 16) : Bool × Irq :=
  if s.addrs.ioapicAddr = 0 then (false, s)
  else if gsi < s.addrs.ioapicGsiBase then (false, s)
  else
    let index := gsi - s.addrs.ioapicGsiBase
    if (s.ioapics s.addrs.ioapicAddr).maxRedir < index then (false, s)
    else
      let lowReg : BitVec 8 := (0x10 + index * 2).setWidth 8
      let hiReg := lowReg + 1
      let high := s.apicLapicId.setWidth 32 <<< 24
      (true, (s.ioapicWrite hiReg high).ioapicWrite lowReg (redirLow vector flags))

/-! ### The backend -/

def vectorBase : Nat := 0x20

def irqControllerInit (s : Irq) : Irq :=
  let s := { s with
    gsi := fun i => if i < 16 then BitVec.ofNat 32 i else s.gsi i
    stats := ⟨0, 0, 0, 0, 0, 0⟩ }
  { s.picInit with backend := .pic, klog := s.klog.klogInfo "IRQ controller: legacy PIC backend active".toList }

/-- `acpi_init`, as far as the MADT goes. -/
def acpiInit (s : Irq) (table : Option (Nat → BitVec 8)) : Irq := { s with madt := AcpiMadtInfo.zero.parseMadt table }

def healthFault (s : Irq) (message : String) : Irq :=
  { s with klog := s.klog.klogWarn message.toList, stats := { s.stats with healthFaults := s.stats.healthFaults + 1 } }

/-- The body of the two loops in `irq_try_enable_apic` for one interrupt; only the second one skips a GSI that is
    claimed. An error stands for `return 0`. -/
def routeIrq (skipClaimed : Bool) (r : Irq × (Nat → Bool)) (irq : Nat) : Except Irq (Irq × (Nat → Bool)) :=
  let (s, claimed) := r
  let (_, gsi, flags) := s.madt.acpiGetIrqOverride (BitVec.ofNat 8 irq)
  let s := { s with gsi := update s.gsi irq gsi }
  if gsi < s.madt.ioapicGsiBase then .ok (s, claimed)
  else if skipClaimed && decide (gsi.toNat < 256) && claimed gsi.toNat then
    .ok ({ s with klog := s.klog.klogWarn "IRQ controller: skipping duplicate GSI route".toList }, claimed)
  else
    match s.apicRouteIrq gsi (BitVec.ofNat 8 (vectorBase + irq)) flags with
    | (false, s) =>
      let s := { s with stats := { s.stats with apicRouteFailures := s.stats.apicRouteFailures + 1 } }
      .error (s.healthFault "IRQ controller: IOAPIC routing failed for an IRQ")
    | (true, s) => .ok (s, if gsi.toNat < 256 then update claimed gsi.toNat true else claimed)

/-- The two loops of `irq_try_enable_apic`: first the critical interrupts 0 and 1, then all others. -/
def routeAll (s : Irq) : Except Irq (Irq × (Nat → Bool)) := do
  let r ← [0, 1].foldlM (routeIrq false) (s, fun _ => false)
  ((List.range 16).filter fun irq => !(irq == 0 || irq == 1)).foldlM (routeIrq true) r

def irqTryEnableApic (s : Irq) : Bool × Irq :=
  if s.madt.present then
    let s := s.apicSetAddresses
      { lapicAddr := s.madt.lapicAddr, ioapicAddr := s.madt.ioapicAddr, ioapicGsiBase := s.madt.ioapicGsiBase }
    match s.apicEnable with
    | (false, s) => (false, s.healthFault "IRQ controller: APIC enable failed, keeping PIC")
    | (true, s) =>
      match s.routeAll with
      | .error s => (false, s)
      | .ok (s, _) =>
        let s := s.apicMaskLegacyPic
        (true, { s with backend := .apic, klog := s.klog.klogInfo "IRQ controller: APIC/IOAPIC backend active".toList })
  else (false, s.healthFault "IRQ controller: MADT not available, keeping PIC")

def irqSendEoi (s : Irq) (irq : Nat) : Irq :=
  let s := { s with stats := { s.stats with eoiCount := s.stats.eoiCount + 1 } }
  match s.backend with
  | .apic => s.apicSendEoi
  | .pic => s.picSendEoi irq

def irqNoteTimerIrq (s : Irq) : Irq := { s with stats := { s.stats with timerIrqCount := s.stats.timerIrqCount + 1 } }

end Irq
end SamOS
