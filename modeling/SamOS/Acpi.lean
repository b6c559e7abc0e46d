import Mathlib.Data.List.Basic

/-! The interrupt tables of ACPI (`acpi.c`): what `parse_madt` reads from the MADT, and the interrupt source
    overrides. -/

namespace SamOS

/-- An `AcpiIsoOverride`. -/
structure AcpiIsoOverride where
  sourceIrq : BitVec 8
  gsi : BitVec 32
  flags : BitVec 16
  valid : Bool
  deriving DecidableEq, Repr

/-- An `AcpiMadtInfo`: `iso` holds the first `iso_count` entries of the array. -/
structure AcpiMadtInfo where
  present : Bool
  lapicAddr : BitVec 32
  ioapicAddr : BitVec 32
  ioapicGsiBase : BitVec 32
  cpuLapicCount : BitVec 32
  iso : List AcpiIsoOverride
  deriving DecidableEq, Repr

namespace AcpiMadtInfo

/-- `g_madt` as `acpi_init` clears it. -/
def zero : AcpiMadtInfo :=
  { present := false, lapicAddr := 0, ioapicAddr := 0, ioapicGsiBase := 0, cpuLapicCount := 0, iso := [] }

/-- `*(uint16_t*)p`. -/
def readU16 (bytes : Nat → BitVec 8) (p : Nat) : BitVec 16 := bytes (p + 1) ++ bytes p

/-- `*(uint32_t*)p`. -/
def readU32 (bytes : Nat → BitVec 8) (p : Nat) : BitVec 32 := bytes (p + 3) ++ bytes (p + 2) ++ bytes (p + 1) ++ bytes p

/-- The body of the loop in `parse_madt` for the entry at `entry`, whose header gives its type and length. -/
def parseEntry (info : AcpiMadtInfo) (bytes : Nat → BitVec 8) (entry : Nat) : AcpiMadtInfo :=
  let type := (bytes entry).toNat
  let length := (bytes (entry + 1)).toNat
  if type = 0 ∧ 8 ≤ length then { info with cpuLapicCount := info.cpuLapicCount + 1 }
  else if type = 1 ∧ 12 ≤ length then
    { info with ioapicAddr := readU32 bytes (entry + 4), ioapicGsiBase := readU32 bytes (entry + 8) }
  else if type = 2 ∧ 10 ≤ length then
    if info.iso.length < 16 then
      { info with
        iso := info.iso ++
          [{ sourceIrq := bytes (entry + 3), gsi := readU32 bytes (entry + 4), flags := readU16 bytes (entry + 8), valid := true }] }
    else info
  else info

/-- The loop of `parse_madt` from `entry` up to `end_`, with at most `fuel` iterations. -/
def parseEntries (bytes : Nat → BitVec 8) (end_ : Nat) : Nat → Nat → AcpiMadtInfo → AcpiMadtInfo
  | 0, _, info => info
  | fuel + 1, entry, info =>
    if end_ < entry + 2 then info
    else
      let length := (bytes (entry + 1)).toNat
      if length < 2 ∨ end_ < entry + length then info
      else parseEntries bytes end_ fuel (entry + length) (info.parseEntry bytes entry)

/-- `parse_madt`, where `table` holds the bytes from the start of the table that `acpi_find_table("APIC")` returns.
    The table has a header of 36 bytes with its length at 4, then the address of the local APIC and the flags. -/
def parseMadt (info : AcpiMadtInfo) : Option (Nat → BitVec 8) → AcpiMadtInfo
  | none => info
  | some bytes =>
    let length := (readU32 bytes 4).toNat
    parseEntries bytes length length 44 { info with present := true, lapicAddr := readU32 bytes 36 }

/-- `acpi_get_irq_override`: whether there is an override, and the GSI and the flags. -/
def acpiGetIrqOverride (info : AcpiMadtInfo) (irq : BitVec 8) : Bool × BitVec 32 × BitVec 16 :=
  match info.iso.find? fun iso => iso.valid && iso.sourceIrq == irq with
  | some iso => (true, iso.gsi, iso.flags)
  | none => (false, irq.setWidth 32, 0)

end AcpiMadtInfo
end SamOS
