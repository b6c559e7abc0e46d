import SamOS.Acpi
import SamOS.Klog
import SamOS.Lib.Logged
import Mathlib.Data.BitVec

/-! Finding ACPI tables (`acpi.c`). The root tables XSDT and RSDT hold pointers behind a header of 36 bytes; how many
    there are follows from the length in the header, by a subtraction in 64 bits that wraps for a length below 36.
    Each computation notes the pointer slots that it reads. -/

namespace SamOS
open AcpiMadtInfo (readU32)

/-- The bytes in memory. -/
abbrev AcpiMemory := BitVec 64 → BitVec 8

namespace AcpiMemory

/-- The bytes from `p` on. -/
def at_ (mem : AcpiMemory) (p : BitVec 64) : Nat → BitVec 8 := fun i => mem (p + BitVec.ofNat 64 i)

/-- `*(uint64_t*)p`. -/
def readU64 (bytes : Nat → BitVec 8) (p : Nat) : BitVec 64 := readU32 bytes (p + 4) ++ readU32 bytes p

end AcpiMemory

namespace Acpi
open AcpiMemory

def memeq (a b : Nat → BitVec 8) (len : Nat) : Bool := (List.range len).all fun i => a i == b i

def checksum (bytes : Nat → BitVec 8) (len : Nat) : BitVec 8 := Loop.forRange 0 len (fun i sum => sum + bytes i) 0

/-- `table->length`. -/
def tableLength (mem : AcpiMemory) (table : BitVec 64) : BitVec 32 := readU32 (mem.at_ table) 4

def tableValid (mem : AcpiMemory) (table : BitVec 64) : Bool :=
  table != 0 && checksum (mem.at_ table) (tableLength mem table).toNat == 0

/-- The condition under which `acpi_find_table` returns a table. -/
def isTable (mem : AcpiMemory) (signature : Nat → BitVec 8) (table : BitVec 64) : Bool :=
  tableValid mem table && memeq (mem.at_ table) signature 4

/-- The two root tables. -/
inductive Root where
  | xsdt
  | rsdt
  deriving DecidableEq, Repr

/-- The size of a pointer in the table. -/
def Root.width : Root → Nat
  | .xsdt => 8
  | .rsdt => 4

/-- `ptrs[i]`, where the table starts at `bytes`. -/
def Root.slot (root : Root) (bytes : Nat → BitVec 8) (i : Nat) : BitVec 64 :=
  match root with
  | .xsdt => readU64 bytes (36 + 8 * i)
  | .rsdt => (readU32 bytes (36 + 4 * i)).setWidth 64

/-- `entries`. The difference has the width of `sizeof`. -/
def Root.entries (root : Root) (length : BitVec 32) : BitVec 32 :=
  ((length.setWidth 64 - 36#64) / BitVec.ofNat 64 root.width).setWidth 32

/-- The static pointers `rsdt` and `xsdt`. -/
structure Roots where
  rsdt : BitVec 64
  xsdt : BitVec 64

def Roots.ptr (roots : Roots) : Root → BitVec 64
  | .xsdt => roots.xsdt
  | .rsdt => roots.rsdt

/-- A read of slot `index` of a root table. -/
structure SlotRead where
  root : Root
  index : Nat
  deriving DecidableEq, Repr

section Search
variable (mem : AcpiMemory) (roots : Roots)

/-- The table that slot `i` points to. -/
def tableIn (root : Root) (i : Nat) : BitVec 64 := root.slot (mem.at_ (roots.ptr root)) i

/-- The loop of `acpi_find_table` over `n` slots from slot `i` on. -/
def searchFrom (root : Root) (signature : Nat → BitVec 8) : Nat → Nat → Logged SlotRead (Option (BitVec 64))
  | 0, _ => pure none
  | n + 1, i => do
    Logged.note ⟨root, i⟩
    if isTable mem signature (tableIn mem roots root i) then pure (some (tableIn mem roots root i))
    else searchFrom root signature n (i + 1)

/-- The part of `acpi_find_table` for one root table. -/
def searchRoot (root : Root) (signature : Nat → BitVec 8) : Logged SlotRead (Option (BitVec 64)) :=
  if tableValid mem (roots.ptr root) then
    searchFrom mem roots root signature (root.entries (tableLength mem (roots.ptr root))).toNat 0
  else pure none

def acpiFindTable (signature : Nat → BitVec 8) : Logged SlotRead (BitVec 64) := do
  match ← searchRoot mem roots .xsdt signature with
  | some table => pure table
  | none =>
    match ← searchRoot mem roots .rsdt signature with
    | some table => pure table
    | none => pure 0

def printSignature (k : Klog) (table : BitVec 64) : Klog :=
  k.klogInfo ((List.range 4).map fun i => Char.ofNat (mem.at_ table i).toNat)

/-- The loop of `list_tables`. -/
def listRoot (root : Root) (k : Klog) : Logged SlotRead Klog :=
  Logged.forRange 0 (root.entries (tableLength mem (roots.ptr root))).toNat
    (fun i k => do
      Logged.note ⟨root, i⟩
      pure (if tableValid mem (tableIn mem roots root i) then printSignature mem k (tableIn mem roots root i) else k)) k

def listTables (k : Klog) : Logged SlotRead Klog :=
  if tableValid mem (roots.ptr .xsdt) then listRoot mem roots .xsdt (k.klogInfo "ACPI XSDT tables:".toList)
  else if tableValid mem (roots.ptr .rsdt) then listRoot mem roots .rsdt (k.klogInfo "ACPI RSDT tables:".toList)
  else pure k

/-! ### The search in terms of the slots inside the table -/

/-- The number of slots that lie wholly inside the root table. -/
def slotsInside (root : Root) : Nat := ((tableLength mem (roots.ptr root)).toNat - 36) / root.width

/-- The slot lies inside the table. -/
def Inside (e : SlotRead) : Prop :=
  36 + e.root.width * e.index + e.root.width ≤ (tableLength mem (roots.ptr e.root)).toNat

/-- The first table with the signature in the root table, if that is valid. -/
def firstIn (root : Root) (signature : Nat → BitVec 8) : Option (BitVec 64) :=
  if tableValid mem (roots.ptr root) then
    ((List.range (slotsInside mem roots root)).map (tableIn mem roots root)).find? (isTable mem signature)
  else none

/-- The slots up to the first table with the signature. -/
def slotsUpTo (root : Root) (signature : Nat → BitVec 8) : List SlotRead :=
  if tableValid mem (roots.ptr root) then
    let slots := List.range (slotsInside mem roots root)
    (slots.take (slots.findIdx (fun i => isTable mem signature (tableIn mem roots root i)) + 1)).map (SlotRead.mk root)
  else []

/-- All slots of the root table that is listed. -/
def slotsListed : List SlotRead :=
  if tableValid mem (roots.ptr .xsdt) then (List.range (slotsInside mem roots .xsdt)).map (SlotRead.mk .xsdt)
  else if tableValid mem (roots.ptr .rsdt) then (List.range (slotsInside mem roots .rsdt)).map (SlotRead.mk .rsdt)
  else []

/-- Both functions stay inside the root tables, the listing reads every slot and the search those up to the table that
    it returns: the first one with the signature, of the XSDT before the RSDT, or 0. -/
structure StaysInside (signature : Nat → BitVec 8) : Prop where
  inside : (acpiFindTable mem roots signature).All (Inside mem roots)
  listInside : ∀ k, (listTables mem roots k).All (Inside mem roots)
  slots : (acpiFindTable mem roots signature).log =
    slotsUpTo mem roots .xsdt signature ++ if firstIn mem roots .xsdt signature = none then slotsUpTo mem roots .rsdt
      signature else []
  listSlots : ∀ k, (listTables mem roots k).log = slotsListed mem roots
  found : (acpiFindTable mem roots signature).value =
    ((firstIn mem roots .xsdt signature).or (firstIn mem roots .rsdt signature)).getD 0

end Search

/-! ### Counting the slots -/

section Count
variable {mem : AcpiMemory} {roots : Roots} {root : Root} {signature : Nat → BitVec 8}

theorem Root.width_pos (root : Root) : 0 < root.width := by cases root <;> decide

theorem entries_eq (h : 36 ≤ (tableLength mem (roots.ptr root)).toNat) :
    (root.entries (tableLength mem (roots.ptr root))).toNat = slotsInside mem roots root := by
  have hlt := (tableLength mem (roots.ptr root)).isLt
  unfold Root.entries slotsInside
  generalize tableLength mem (roots.ptr root) = length at h hlt
  have hsub : (length.setWidth 64 - 36#64).toNat = length.toNat - 36 := by
    rw [BitVec.toNat_sub_of_le (by rw [BitVec.le_def, BitVec.toNat_setWidth, BitVec.toNat_ofNat]; omega),
      BitVec.toNat_setWidth, BitVec.toNat_ofNat, Nat.mod_eq_of_lt (by omega)]
  rw [BitVec.toNat_setWidth, BitVec.toNat_udiv, hsub]
  cases root with
  | xsdt =>
    show (length.toNat - 36) / 8 % 2 ^ 32 = (length.toNat - 36) / 8
    omega
  | rsdt =>
    show (length.toNat - 36) / 4 % 2 ^ 32 = (length.toNat - 36) / 4
    omega

/-- Below 36 bytes the difference wraps, and almost `2 ^ 32` slots are counted. -/
theorem entries_wraps (root : Root) {length : BitVec 32} (h : length.toNat < 36) :
    2 ^ 32 - 9 ≤ (root.entries length).toNat := by
  have hsub : (length.setWidth 64 - 36#64).toNat = 2 ^ 64 - 36 + length.toNat := by
    rw [BitVec.toNat_sub, BitVec.toNat_setWidth, BitVec.toNat_ofNat]
    omega
  unfold Root.entries
  rw [BitVec.toNat_setWidth, BitVec.toNat_udiv, hsub]
  cases root with
  | xsdt =>
    show 2 ^ 32 - 9 ≤ (2 ^ 64 - 36 + length.toNat) / 8 % 2 ^ 32
    omega
  | rsdt =>
    show 2 ^ 32 - 9 ≤ (2 ^ 64 - 36 + length.toNat) / 4 % 2 ^ 32
    omega

theorem inside_iff {i : Nat} :
    Inside mem roots ⟨root, i⟩ ↔ 36 ≤ (tableLength mem (roots.ptr root)).toNat ∧ i < slotsInside mem roots root := by
  have hdiv : i < slotsInside mem roots root ↔
      (i + 1) * root.width ≤ (tableLength mem (roots.ptr root)).toNat - 36 := by
    unfold slotsInside
    rw [← Nat.le_div_iff_mul_le root.width_pos]
    exact Iff.rfl
  have hpos := root.width_pos
  rw [hdiv, Inside, Nat.succ_mul, Nat.mul_comm]
  dsimp only
  omega

/-! ### The loops -/

theorem value_searchFrom (n i : Nat) : (searchFrom mem roots root signature n i).value =
    ((List.range' i n).map (tableIn mem roots root)).find? (isTable mem signature) := by
  induction n generalizing i with
  | zero => rfl
  | succ n ih =>
    rw [List.range'_succ, List.map_cons, searchFrom, Logged.value_bind, List.find?_cons]
    split
    · rename_i h
      rw [h]
      rfl
    · rename_i h
      rw [Bool.not_eq_true] at h
      rw [h, ih]

theorem log_searchFrom (n i : Nat) : (searchFrom mem roots root signature n i).log =
    ((List.range' i n).take ((List.range' i n).findIdx
      (fun i => isTable mem signature (tableIn mem roots root i)) + 1)).map
      (SlotRead.mk root) := by
  induction n generalizing i with
  | zero => rfl
  | succ n ih =>
    rw [List.range'_succ, searchFrom, Logged.log_bind, Logged.log_note, List.findIdx_cons]
    split
    · rename_i h
      rw [h]
      rfl
    · rename_i h
      rw [Bool.not_eq_true] at h
      rw [h, ih]
      rfl

theorem log_listRoot (k : Klog) : (listRoot mem roots root k).log =
    (List.range (root.entries (tableLength mem (roots.ptr root))).toNat).map (SlotRead.mk root) := by
  unfold listRoot Logged.forRange
  rw [Nat.sub_zero, List.range_eq_range']
  generalize List.range' 0 _ = is
  induction is generalizing k with
  | nil => rfl
  | cons i is ih =>
    rw [List.foldlM_cons, Logged.log_bind, ih]
    rfl

/-- A valid root table of at least a header. -/
def Whole (mem : AcpiMemory) (roots : Roots) (root : Root) : Prop :=
  tableValid mem (roots.ptr root) = true → 36 ≤ (tableLength mem (roots.ptr root)).toNat

theorem value_searchRoot (h : Whole mem roots root) :
    (searchRoot mem roots root signature).value = firstIn mem roots root signature := by
  unfold searchRoot firstIn
  split
  · rename_i hvalid
    rw [value_searchFrom, entries_eq (h hvalid), ← List.range_eq_range']
  · rfl

theorem log_searchRoot (h : Whole mem roots root) :
    (searchRoot mem roots root signature).log = slotsUpTo mem roots root signature := by
  unfold searchRoot slotsUpTo
  split
  · rename_i hvalid
    rw [log_searchFrom, entries_eq (h hvalid), ← List.range_eq_range']
  · rfl

/-- A search in a valid root table of less than a header reads slot 0, which is not inside. -/
theorem searchRoot_outside (signature : Nat → BitVec 8) (hvalid : tableValid mem (roots.ptr root) = true)
    (hshort : (tableLength mem (roots.ptr root)).toNat < 36) :
    ∃ e ∈ (searchRoot mem roots root signature).log, ¬Inside mem roots e := by
  refine ⟨⟨root, 0⟩, ?_, fun h => ?_⟩
  · have hmany := entries_wraps root hshort
    unfold searchRoot
    rw [if_pos hvalid]
    obtain ⟨n, hn⟩ : ∃ n, (root.entries (tableLength mem (roots.ptr root))).toNat = n + 1 :=
      ⟨_, (Nat.succ_pred_eq_of_pos (by omega)).symm⟩
    rw [hn, searchFrom, Logged.log_bind]
    exact List.mem_append_left _ List.mem_cons_self
  · have := (inside_iff.mp h).1
    omega

theorem acpiFindTable_log : (acpiFindTable mem roots signature).log = (searchRoot mem roots .xsdt signature).log ++
    if (searchRoot mem roots .xsdt signature).value = none then (searchRoot mem roots .rsdt signature).log else [] := by
  unfold acpiFindTable
  rw [Logged.log_bind]
  cases (searchRoot mem roots .xsdt signature).value with
  | some table => rfl
  | none =>
    refine congrArg _ ?_
    rw [if_pos rfl, Logged.log_bind]
    cases (searchRoot mem roots .rsdt signature).value <;> exact List.append_nil _

theorem acpiFindTable_value : (acpiFindTable mem roots signature).value =
    ((searchRoot mem roots .xsdt signature).value.or (searchRoot mem roots .rsdt signature).value).getD 0 := by
  unfold acpiFindTable
  rw [Logged.value_bind]
  cases (searchRoot mem roots .xsdt signature).value with
  | some table => rfl
  | none =>
    rw [Option.none_or]
    show (searchRoot mem roots .rsdt signature >>= _).value = _
    rw [Logged.value_bind]
    cases (searchRoot mem roots .rsdt signature).value <;> rfl

theorem slotsUpTo_inside (h : Whole mem roots root) : ∀ e ∈ slotsUpTo mem roots root signature, Inside mem roots e := by
  unfold slotsUpTo
  split
  · rename_i hvalid
    intro e he
    obtain ⟨i, hi, rfl⟩ := List.mem_map.mp he
    exact inside_iff.mpr ⟨h hvalid, List.mem_range.mp (List.mem_of_mem_take hi)⟩
  · exact fun e he => absurd he List.not_mem_nil

theorem whole_of_inside (h : ∀ e ∈ (searchRoot mem roots root signature).log, Inside mem roots e) :
    Whole mem roots root := by
  intro hvalid
  by_contra hshort
  obtain ⟨e, he, hout⟩ := searchRoot_outside signature hvalid (Nat.lt_of_not_le hshort)
  exact hout (h e he)

end Count

section Whole
variable {mem : AcpiMemory} {roots : Roots} {signature : Nat → BitVec 8} (hxsdt : Whole mem roots .xsdt)
  (hrsdt : firstIn mem roots .xsdt signature = none → Whole mem roots .rsdt)
include hxsdt hrsdt

theorem acpiFindTable_log_whole : (acpiFindTable mem roots signature).log = slotsUpTo mem roots .xsdt signature ++
    if firstIn mem roots .xsdt signature = none then slotsUpTo mem roots .rsdt signature else [] := by
  rw [acpiFindTable_log, value_searchRoot hxsdt, log_searchRoot hxsdt]
  by_cases hnone : firstIn mem roots .xsdt signature = none
  · rw [if_pos hnone, if_pos hnone, log_searchRoot (hrsdt hnone)]
  · rw [if_neg hnone, if_neg hnone]

theorem acpiFindTable_inside (e : SlotRead) (he : e ∈ (acpiFindTable mem roots signature).log) :
    Inside mem roots e := by
  rw [acpiFindTable_log_whole hxsdt hrsdt] at he
  rcases List.mem_append.mp he with he | he
  · exact slotsUpTo_inside hxsdt e he
  · split at he
    · rename_i hnone
      exact slotsUpTo_inside (hrsdt hnone) e he
    · exact absurd he List.not_mem_nil

theorem acpiFindTable_value_whole : (acpiFindTable mem roots signature).value =
    ((firstIn mem roots .xsdt signature).or (firstIn mem roots .rsdt signature)).getD 0 := by
  rw [acpiFindTable_value, value_searchRoot hxsdt]
  by_cases hnone : firstIn mem roots .xsdt signature = none
  · rw [value_searchRoot (hrsdt hnone)]
  · obtain ⟨table, htable⟩ := Option.ne_none_iff_exists'.mp hnone
    rw [htable]
    rfl

/-- The listing reads every slot of the XSDT, or of the RSDT, which it comes to only when the XSDT is not valid. -/
theorem listTables_log_whole (k : Klog) : (listTables mem roots k).log = slotsListed mem roots := by
  unfold listTables slotsListed
  split
  · rename_i hvalid
    rw [log_listRoot, entries_eq (hxsdt hvalid)]
  · rename_i hinvalid
    have hnone : firstIn mem roots .xsdt signature = none := if_neg hinvalid
    split
    · rename_i hvalid
      rw [log_listRoot, entries_eq (hrsdt hnone hvalid)]
    · rfl

theorem slotsListed_inside (e : SlotRead) (he : e ∈ slotsListed mem roots) : Inside mem roots e := by
  unfold slotsListed at he
  split at he
  · rename_i hvalid
    obtain ⟨i, hi, rfl⟩ := List.mem_map.mp he
    exact inside_iff.mpr ⟨hxsdt hvalid, List.mem_range.mp hi⟩
  · rename_i hinvalid
    have hnone : firstIn mem roots .xsdt signature = none := if_neg hinvalid
    split at he
    · rename_i hvalid
      obtain ⟨i, hi, rfl⟩ := List.mem_map.mp he
      exact inside_iff.mpr ⟨hrsdt hnone hvalid, List.mem_range.mp hi⟩
    · exact absurd he List.not_mem_nil

end Whole

/-- The search for a signature and the listing stay inside the root tables exactly if each root table they come to is
    at least as long as its header: a valid XSDT, and a valid RSDT if the XSDT does not have the table. -/
theorem acpi_tables_inside_iff (mem : AcpiMemory) (roots : Roots) (signature : Nat → BitVec 8) :
    StaysInside mem roots signature ↔
      Whole mem roots .xsdt ∧ (firstIn mem roots .xsdt signature = none → Whole mem roots .rsdt) := by
  constructor
  · intro h
    have hlog := h.inside
    rw [Logged.All, acpiFindTable_log] at hlog
    have hxsdt : Whole mem roots .xsdt := whole_of_inside fun e he => hlog e (List.mem_append_left _ he)
    refine ⟨hxsdt, fun hnone => ?_⟩
    rw [value_searchRoot hxsdt, if_pos hnone] at hlog
    exact whole_of_inside fun e he => hlog e (List.mem_append_right _ he)
  · rintro ⟨hxsdt, hrsdt⟩
    have hlist := listTables_log_whole hxsdt hrsdt
    refine ⟨acpiFindTable_inside hxsdt hrsdt, fun k e he => ?_, acpiFindTable_log_whole hxsdt hrsdt, hlist,
      acpiFindTable_value_whole hxsdt hrsdt⟩
    rw [hlist] at he
    exact slotsListed_inside hxsdt hrsdt e he

/-- Memory of zeros, with the XSDT at `0x1000`: its length is 0, its checksum is that of no bytes, and `2 ^ 32 - 5`
    slots are counted. -/
theorem acpi_find_table_outside : ∃ (mem : AcpiMemory) (roots : Roots), tableValid mem roots.xsdt = true ∧
    tableLength mem roots.xsdt = 0 ∧ (Root.entries .xsdt (tableLength mem roots.xsdt)).toNat = 2 ^ 32 - 5 ∧
    ∀ signature, ¬(acpiFindTable mem roots signature).All (Inside mem roots) := by
  let mem : AcpiMemory := fun _ => 0
  let roots : Roots := ⟨0, 0x1000⟩
  refine ⟨mem, roots, by decide, by decide, by decide, fun signature h => ?_⟩
  have hvalid : tableValid mem (roots.ptr .xsdt) = true := by decide
  obtain ⟨e, he, hout⟩ := searchRoot_outside signature hvalid (by decide)
  refine hout (h e ?_)
  rw [acpiFindTable_log]
  exact List.mem_append_left _ he

end Acpi
end SamOS
