import SamOS.Acpi
import SamOS.Lib.Logged
import Mathlib.Algebra.Group.Nat.Defs
import Mathlib.Data.BitVec
import Mathlib.Data.List.Find

/-! The walk of `parse_madt` over the entries of the MADT, each with its type and its length in front. The walk is
    written once more with the offsets that it reads noted, and compared with the entries that the bytes of the table
    start with. -/

namespace SamOS
namespace AcpiMadtInfo

/-! ### The reads of the walk -/

/-- `*(uint8_t*)p`, noted. -/
def byteAt (bytes : Nat → BitVec 8) (p : Nat) : Logged Nat (BitVec 8) := do
  Logged.note p
  pure (bytes p)

/-- `*(uint16_t*)p`, noted. -/
def u16At (bytes : Nat → BitVec 8) (p : Nat) : Logged Nat (BitVec 16) := do
  let b0 ← byteAt bytes p
  let b1 ← byteAt bytes (p + 1)
  pure (b1 ++ b0)

/-- `*(uint32_t*)p`, noted. -/
def u32At (bytes : Nat → BitVec 8) (p : Nat) : Logged Nat (BitVec 32) := do
  let b0 ← byteAt bytes p
  let b1 ← byteAt bytes (p + 1)
  let b2 ← byteAt bytes (p + 2)
  let b3 ← byteAt bytes (p + 3)
  pure (b3 ++ b2 ++ b1 ++ b0)

/-- What the loop body does with an entry whose header it has accepted. -/
def recordAt (info : AcpiMadtInfo) (bytes : Nat → BitVec 8) (entry : Nat) (type length : Nat) :
    Logged Nat AcpiMadtInfo :=
  if type = 0 ∧ 8 ≤ length then pure { info with cpuLapicCount := info.cpuLapicCount + 1 }
  else if type = 1 ∧ 12 ≤ length then do
    let ioapicAddr ← u32At bytes (entry + 4)
    let ioapicGsiBase ← u32At bytes (entry + 8)
    pure { info with ioapicAddr, ioapicGsiBase }
  else if type = 2 ∧ 10 ≤ length then do
    let sourceIrq ← byteAt bytes (entry + 3)
    let gsi ← u32At bytes (entry + 4)
    let flags ← u16At bytes (entry + 8)
    pure (if info.iso.length < 16 then { info with iso := info.iso ++ [{ sourceIrq, gsi, flags, valid := true }] }
      else info)
  else pure info

/-- The loop of `parse_madt` for the entry at `entry`: it goes on behind the entry, or leaves. -/
def walkStep (bytes : Nat → BitVec 8) (end_ : Nat) (s : Nat × AcpiMadtInfo) :
    Logged Nat ((Nat × AcpiMadtInfo) ⊕ AcpiMadtInfo) :=
  if end_ < s.1 + 2 then pure (.inr s.2)
  else do
    let length ← byteAt bytes (s.1 + 1)
    if length.toNat < 2 ∨ end_ < s.1 + length.toNat then pure (.inr s.2)
    else do
      let type ← byteAt bytes s.1
      let info ← recordAt s.2 bytes s.1 type.toNat length.toNat
      pure (.inl (s.1 + length.toNat, info))

/-- The loop of `parse_madt` over a table, cut off after as many iterations as the table has bytes, and one. -/
def walk (bytes : Nat → BitVec 8) (info : AcpiMadtInfo) : Logged Nat (Option AcpiMadtInfo) :=
  let length := (readU32 bytes 4).toNat
  Logged.loop (walkStep bytes length) (length + 1) (44, { info with present := true, lapicAddr := readU32 bytes 36 })

/-! ### Entries -/

/-- The bytes of a table from `pos` up to `end_`. -/
def bytesFrom (bytes : Nat → BitVec 8) (pos end_ : Nat) : List (BitVec 8) :=
  (List.range (end_ - pos)).map fun i => bytes (pos + i)

/-- An entry of at least its header, with its own length in it. -/
def WellFormed (e : List (BitVec 8)) : Prop := 2 ≤ e.length ∧ (e.getD 1 0).toNat = e.length

/-- The well-formed entries that the bytes start with: no further one follows them. -/
structure MaximalPrefix (bytes : List (BitVec 8)) (es : List (List (BitVec 8))) : Prop where
  wellFormed : ∀ e ∈ es, WellFormed e
  split : ∃ rest, bytes = es.flatten ++ rest ∧ ∀ e rest', WellFormed e → rest ≠ e ++ rest'

/-- What `parse_madt` records of an entry. -/
def record (info : AcpiMadtInfo) (e : List (BitVec 8)) : AcpiMadtInfo := info.parseEntry (fun i => e.getD i 0) 0

def isCpu (e : List (BitVec 8)) : Bool := (e.getD 0 0).toNat = 0 ∧ 8 ≤ e.length
def isIoapic (e : List (BitVec 8)) : Bool := (e.getD 0 0).toNat = 1 ∧ 12 ≤ e.length
def isOverride (e : List (BitVec 8)) : Bool := (e.getD 0 0).toNat = 2 ∧ 10 ≤ e.length

/-- Address and GSI base of an IOAPIC entry. -/
def ioapicOf (e : List (BitVec 8)) : BitVec 32 × BitVec 32 :=
  (readU32 (fun i => e.getD i 0) 4, readU32 (fun i => e.getD i 0) 8)

def overrideOf (e : List (BitVec 8)) : AcpiIsoOverride where
  sourceIrq := e.getD 3 0
  gsi := readU32 (fun i => e.getD i 0) 4
  flags := readU16 (fun i => e.getD i 0) 8
  valid := true

/-- The state that `parse_madt` leaves, in terms of the entries. -/
structure Describes (es : List (List (BitVec 8))) (info : AcpiMadtInfo) : Prop where
  cpus : info.cpuLapicCount.toNat = es.countP isCpu
  ioapic : (info.ioapicAddr, info.ioapicGsiBase) = ((es.filter isIoapic).getLast?.map ioapicOf).getD (0, 0)
  iso : info.iso = ((es.filter isOverride).take 16).map overrideOf
  override : ∀ irq, info.acpiGetIrqOverride irq = ((((es.filter isOverride).take 16).map overrideOf).find? fun iso =>
    iso.sourceIrq == irq).elim
    (false, irq.setWidth 32, 0) fun iso => (true, iso.gsi, iso.flags)

section Bytes
variable {bytes : Nat → BitVec 8} {pos end_ : Nat} {e t : List (BitVec 8)}

theorem length_bytesFrom : (bytesFrom bytes pos end_).length = end_ - pos := by simp [bytesFrom]

theorem bytesFrom_add (bytes : Nat → BitVec 8) {n : Nat} (h : pos + n ≤ end_) :
    bytesFrom bytes pos end_ = bytesFrom bytes pos (pos + n) ++ bytesFrom bytes (pos + n) end_ := by
  unfold bytesFrom
  rw [Nat.add_sub_cancel_left, show end_ - pos = n + (end_ - (pos + n)) by omega, List.range_add, List.map_append,
    List.map_map]
  simp only [Function.comp_def, Nat.add_assoc]

theorem of_bytesFrom_eq_append (h : bytesFrom bytes pos end_ = e ++ t) :
    e.length ≤ end_ - pos ∧ (∀ i < e.length, bytes (pos + i) = e.getD i 0) ∧
      bytesFrom bytes (pos + e.length) end_ = t := by
  have hlen : e.length ≤ end_ - pos := by
    have := congrArg List.length h
    rw [length_bytesFrom, List.length_append] at this
    omega
  rcases Nat.eq_zero_or_pos e.length with h0 | hpos
  · have hnil := List.length_eq_zero_iff.mp h0
    subst hnil
    exact ⟨Nat.zero_le _, fun i hi => absurd hi (Nat.not_lt_zero i), h⟩
  · rw [bytesFrom_add bytes (show pos + e.length ≤ end_ by omega)] at h
    obtain ⟨he, ht⟩ := List.append_inj h (by rw [length_bytesFrom]; omega)
    refine ⟨hlen, fun i hi => ?_, ht⟩
    rw [← he]
    unfold bytesFrom
    rw [List.getD_eq_getElem?_getD, List.getElem?_map, List.getElem?_range (by omega)]
    rfl

theorem parseEntry_eq_record (hw : WellFormed e) (h : ∀ i < e.length, bytes (pos + i) = e.getD i 0)
    (info : AcpiMadtInfo) :
    info.parseEntry bytes pos = info.record e := by
  have hlen := hw.1
  have h0 : bytes pos = e.getD 0 0 := h 0 (by omega)
  have h1 : bytes (pos + 1) = e.getD 1 0 := h 1 (by omega)
  have hu16 (p : Nat) (hp : p + 1 < e.length) : readU16 bytes (pos + p) = readU16 (fun i => e.getD i 0) p := by
    unfold readU16
    rw [Nat.add_assoc, h p (by omega), h (p + 1) hp]
  have hu32 (p : Nat) (hp : p + 3 < e.length) : readU32 bytes (pos + p) = readU32 (fun i => e.getD i 0) p := by
    unfold readU32
    simp only [Nat.add_assoc]
    rw [h p (by omega), h (p + 1) (by omega), h (p + 2) (by omega), h (p + 3) hp]
  unfold record parseEntry
  simp only [Nat.zero_add]
  rw [h0, h1, hw.2]
  split
  · rfl
  · split
    · rename_i h12
      rw [hu32 4 (by omega), hu32 8 (by omega)]
    · split
      · rename_i h10
        rw [hu32 4 (by omega), hu16 8 (by omega), h 3 (by omega)]
      · rfl

/-! ### The entries of a table -/

/-- Every string of bytes starts with a maximal prefix of entries. -/
theorem exists_maximalPrefix (l : List (BitVec 8)) : ∃ es, MaximalPrefix l es := by
  obtain ⟨n, hn⟩ : ∃ n, l.length ≤ n := ⟨_, Nat.le_refl _⟩
  induction n generalizing l with
  | zero =>
    refine ⟨[], fun e he => absurd he List.not_mem_nil, l, rfl, fun e rest' hw he => ?_⟩
    have := hw.1
    rw [he, List.length_append] at hn
    omega
  | succ n ih =>
    by_cases hnext : ∃ e rest, WellFormed e ∧ l = e ++ rest
    · obtain ⟨e, rest, hw, rfl⟩ := hnext
      have := hw.1
      rw [List.length_append] at hn
      obtain ⟨es, hes, rest', rfl, hend⟩ := ih rest (by omega)
      exact ⟨e :: es, List.forall_mem_cons.mpr ⟨hw, hes⟩, rest', by simp, hend⟩
    · exact ⟨[], fun e he => absurd he List.not_mem_nil, l, rfl, fun e rest hw he => hnext ⟨e, rest, hw, he⟩⟩

variable {es : List (List (BitVec 8))} {p : Nat}

theorem MaximalPrefix.cons (h : MaximalPrefix (bytesFrom bytes pos end_) (e :: es)) :
    WellFormed e ∧ pos + e.length ≤ end_ ∧ (∀ i < e.length, bytes (pos + i) = e.getD i 0) ∧
    MaximalPrefix (bytesFrom bytes (pos + e.length) end_) es := by
  obtain ⟨rest, hsplit, hend⟩ := h.split
  obtain ⟨hw, hes⟩ := List.forall_mem_cons.mp h.wellFormed
  rw [List.flatten_cons, List.append_assoc] at hsplit
  obtain ⟨hle, hbytes, htail⟩ := of_bytesFrom_eq_append hsplit
  have := hw.1
  exact ⟨hw, by omega, hbytes, hes, rest, htail, hend⟩

theorem MaximalPrefix.nil (h : MaximalPrefix (bytesFrom bytes pos end_) []) :
    end_ < pos + 2 ∨ (bytes (pos + 1)).toNat < 2 ∨ end_ < pos + (bytes (pos + 1)).toNat := by
  obtain ⟨rest, hsplit, hend⟩ := h.split
  by_contra hc
  rw [not_or, not_or] at hc
  obtain ⟨n, hn⟩ : ∃ n, (bytes (pos + 1)).toNat = n := ⟨_, rfl⟩
  rw [hn] at hc
  have hlen : (bytesFrom bytes pos (pos + n)).length = n := by
    rw [length_bytesFrom, Nat.add_sub_cancel_left]
  refine hend (bytesFrom bytes pos (pos + n)) (bytesFrom bytes (pos + n) end_) ⟨by omega, ?_⟩ ?_
  · rw [hlen, ← hn]
    unfold bytesFrom
    rw [List.getD_eq_getElem?_getD, List.getElem?_map, List.getElem?_range (by omega)]
    rfl
  · rw [← bytesFrom_add bytes (by omega), hsplit]
    rfl

/-! ### The walk -/

theorem all_byteAt (h : p < end_) : (byteAt bytes p).All (· < end_) := by
  simp only [byteAt, Logged.all_bind, Logged.all_note, Logged.all_pure, and_true]
  exact h

theorem all_u16At (h : p + 1 < end_) : (u16At bytes p).All (· < end_) := by
  simp only [u16At, Logged.all_bind, Logged.all_pure, and_true]
  exact ⟨all_byteAt (by omega), all_byteAt h⟩

theorem all_u32At (h : p + 3 < end_) : (u32At bytes p).All (· < end_) := by
  simp only [u32At, Logged.all_bind, Logged.all_pure, and_true]
  exact ⟨all_byteAt (by omega), all_byteAt (by omega), all_byteAt (by omega), all_byteAt h⟩

theorem value_recordAt (info : AcpiMadtInfo) (bytes : Nat → BitVec 8) (pos : Nat) :
    (recordAt info bytes pos (bytes pos).toNat (bytes (pos + 1)).toNat).value = info.parseEntry bytes pos := by
  unfold recordAt parseEntry
  dsimp only
  split
  · rfl
  · split
    · rfl
    · split <;> rfl

theorem all_recordAt (info : AcpiMadtInfo) {type length : Nat} (h : pos + length ≤ end_) :
    (recordAt info bytes pos type length).All (· < end_) := by
  unfold recordAt
  split
  · exact Logged.all_pure _
  · split
    · simp only [Logged.all_bind, Logged.all_pure, and_true]
      exact ⟨all_u32At (by omega), all_u32At (by omega)⟩
    · split
      · simp only [Logged.all_bind, Logged.all_pure, and_true]
        exact ⟨all_byteAt (by omega), all_u32At (by omega), all_u16At (by omega)⟩
      · exact Logged.all_pure _

theorem all_walkStep (s : Nat × AcpiMadtInfo) : (walkStep bytes end_ s).All (· < end_) := by
  unfold walkStep
  split
  · exact Logged.all_pure _
  · rw [Logged.all_bind]
    refine ⟨all_byteAt (by omega), ?_⟩
    split
    · exact Logged.all_pure _
    · rename_i hlen
      simp only [Logged.all_bind, Logged.all_pure, and_true]
      have hlen' : ¬((bytes (s.1 + 1)).toNat < 2 ∨ end_ < s.1 + (bytes (s.1 + 1)).toNat) := hlen
      exact ⟨all_byteAt (by omega), all_recordAt s.2 (show s.1 + (bytes (s.1 + 1)).toNat ≤ end_ by omega)⟩

theorem value_walkStep (s : Nat × AcpiMadtInfo) : (walkStep bytes end_ s).value =
    if end_ < s.1 + 2 ∨ (bytes (s.1 + 1)).toNat < 2 ∨ end_ < s.1 + (bytes (s.1 + 1)).toNat then .inr s.2
    else .inl (s.1 + (bytes (s.1 + 1)).toNat, s.2.parseEntry bytes s.1) := by
  unfold walkStep
  by_cases h2 : end_ < s.1 + 2
  · rw [if_pos h2, if_pos (Or.inl h2)]
    rfl
  · rw [if_neg h2, Logged.value_bind]
    show (if (bytes (s.1 + 1)).toNat < 2 ∨ end_ < s.1 + (bytes (s.1 + 1)).toNat then _ else _ : Logged Nat _).value = _
    by_cases hlen : (bytes (s.1 + 1)).toNat < 2 ∨ end_ < s.1 + (bytes (s.1 + 1)).toNat
    · rw [if_pos hlen, if_pos (Or.inr hlen)]
      rfl
    · rw [if_neg hlen, if_neg (not_or.mpr ⟨h2, hlen⟩), ← value_recordAt]
      rfl

theorem value_loop (h : MaximalPrefix (bytesFrom bytes pos end_) es) {fuel : Nat} (hfuel : es.length < fuel)
    (info : AcpiMadtInfo) :
    (Logged.loop (walkStep bytes end_) fuel (pos, info)).value = some (es.foldl record info) := by
  induction es generalizing pos fuel info with
  | nil =>
    obtain ⟨fuel, rfl⟩ := Nat.exists_eq_succ_of_ne_zero (Nat.ne_of_gt hfuel)
    have hstep : (walkStep bytes end_ (pos, info)).value = .inr info := by rw [value_walkStep, if_pos h.nil]
    unfold Logged.loop
    rw [Logged.value_bind, hstep]
    rfl
  | cons e es ih =>
    rw [List.length_cons] at hfuel
    obtain ⟨fuel, rfl⟩ := Nat.exists_eq_succ_of_ne_zero (show fuel ≠ 0 by omega)
    obtain ⟨hw, hle, hbytes, hrest⟩ := h.cons
    have h2 := hw.1
    have hlen : (bytes (pos + 1)).toNat = e.length := by rw [hbytes 1 (by omega), hw.2]
    have hstep : (walkStep bytes end_ (pos, info)).value = .inl (pos + e.length, info.record e) := by
      rw [value_walkStep]
      dsimp only
      rw [hlen, if_neg (by omega), parseEntry_eq_record hw hbytes]
    unfold Logged.loop
    rw [Logged.value_bind, hstep]
    exact ih hrest (by omega) _

theorem parseEntries_eq_foldl (h : MaximalPrefix (bytesFrom bytes pos end_) es) {fuel : Nat}
    (hfuel : es.length ≤ fuel) (info : AcpiMadtInfo) :
    parseEntries bytes end_ fuel pos info = es.foldl record info := by
  induction es generalizing pos fuel info with
  | nil =>
    cases fuel with
    | zero => rfl
    | succ fuel =>
      unfold parseEntries
      rcases h.nil with h2 | hlen
      · rw [if_pos h2]
        rfl
      · dsimp only
        rw [if_pos hlen, ite_self]
        rfl
  | cons e es ih =>
    rw [List.length_cons] at hfuel
    obtain ⟨fuel, rfl⟩ := Nat.exists_eq_succ_of_ne_zero (show fuel ≠ 0 by omega)
    obtain ⟨hw, hle, hbytes, hrest⟩ := h.cons
    have h2 := hw.1
    have hlen : (bytes (pos + 1)).toNat = e.length := by rw [hbytes 1 (by omega), hw.2]
    unfold parseEntries
    rw [if_neg (by omega)]
    dsimp only
    rw [hlen, if_neg (by omega), parseEntry_eq_record hw hbytes]
    exact ih hrest (by omega) _

theorem MaximalPrefix.length_le {l : List (BitVec 8)} (h : MaximalPrefix l es) : 2 * es.length ≤ l.length := by
  obtain ⟨rest, rfl, -⟩ := h.split
  have hlen : ∀ es : List (List (BitVec 8)), (∀ e ∈ es, WellFormed e) → 2 * es.length ≤ es.flatten.length := by
    intro es hes
    induction es with
    | nil => exact Nat.le_refl 0
    | cons e es ih =>
      obtain ⟨hw, hes⟩ := List.forall_mem_cons.mp hes
      have := ih hes
      have := hw.1
      rw [List.length_cons, List.flatten_cons, List.length_append]
      omega
  have := hlen es h.wellFormed
  rw [List.length_append]
  omega

end Bytes

/-! ### What the entries leave -/

section Fold
variable {e : List (BitVec 8)} {es : List (List (BitVec 8))}

theorem record_eq (hw : WellFormed e) (info : AcpiMadtInfo) :
    (info.record e).cpuLapicCount = (if isCpu e then info.cpuLapicCount + 1 else info.cpuLapicCount) ∧
    ((info.record e).ioapicAddr, (info.record e).ioapicGsiBase) = (if isIoapic e then ioapicOf e
      else (info.ioapicAddr, info.ioapicGsiBase)) ∧
    (info.record e).iso = (if isOverride e ∧ info.iso.length < 16 then info.iso ++ [overrideOf e] else info.iso) := by
  unfold record parseEntry isCpu isIoapic isOverride
  simp only [Nat.zero_add, hw.2, decide_eq_true_eq]
  generalize (e.getD 0 0).toNat = type
  by_cases h0 : type = 0
  · by_cases h8 : 8 ≤ e.length <;> simp [h0, h8]
  · by_cases h1 : type = 1
    · by_cases h12 : 12 ≤ e.length <;> simp [h1, h12, ioapicOf]
    · by_cases h2 : type = 2
      · by_cases h10 : 10 ≤ e.length <;> by_cases h16 : info.iso.length < 16 <;> simp [h2, h10, h16, overrideOf]
      · simp [h0, h1, h2]

theorem cpuLapicCount_foldl (h : ∀ e ∈ es, WellFormed e) (info : AcpiMadtInfo) :
    (es.foldl record info).cpuLapicCount = info.cpuLapicCount + BitVec.ofNat 32 (es.countP isCpu) := by
  induction es generalizing info with
  | nil => exact (BitVec.add_zero _).symm
  | cons e es ih =>
    obtain ⟨hw, hes⟩ := List.forall_mem_cons.mp h
    rw [List.foldl_cons, ih hes, (record_eq hw info).1, List.countP_cons]
    split
    · rw [BitVec.ofNat_add, BitVec.add_assoc, BitVec.add_comm 1]
      rfl
    · rfl

theorem ioapic_foldl (h : ∀ e ∈ es, WellFormed e) (info : AcpiMadtInfo) :
    ((es.foldl record info).ioapicAddr, (es.foldl record info).ioapicGsiBase) =
      ((es.filter isIoapic).getLast?.map ioapicOf).getD (info.ioapicAddr, info.ioapicGsiBase) := by
  induction es generalizing info with
  | nil => rfl
  | cons e es ih =>
    obtain ⟨hw, hes⟩ := List.forall_mem_cons.mp h
    rw [List.foldl_cons, ih hes, (record_eq hw info).2.1, List.filter_cons]
    split
    · rw [List.getLast?_cons]
      cases (es.filter isIoapic).getLast? <;> rfl
    · rfl

theorem iso_foldl (h : ∀ e ∈ es, WellFormed e) (info : AcpiMadtInfo) (hlen : info.iso.length ≤ 16) :
    (es.foldl record info).iso = (info.iso ++ (es.filter isOverride).map overrideOf).take 16 := by
  induction es generalizing info with
  | nil => simp [List.take_of_length_le hlen]
  | cons e es ih =>
    obtain ⟨hw, hes⟩ := List.forall_mem_cons.mp h
    have hiso := (record_eq hw info).2.2
    have hle : (info.record e).iso.length ≤ 16 := by
      rw [hiso]
      split
      · rw [List.length_append, List.length_singleton]
        omega
      · exact hlen
    rw [List.foldl_cons, ih hes _ hle, hiso, List.filter_cons]
    by_cases ho : isOverride e = true
    · rw [if_pos ho, List.map_cons]
      by_cases h16 : info.iso.length < 16
      · rw [if_pos ⟨ho, h16⟩, List.append_assoc, List.singleton_append]
      · rw [if_neg fun hc => h16 hc.2, List.take_append_of_le_length (by omega),
          List.take_append_of_le_length (by omega)]
    · rw [if_neg ho, if_neg fun hc => ho hc.1]

theorem acpiGetIrqOverride_eq {info : AcpiMadtInfo} (h : ∀ iso ∈ info.iso, iso.valid = true) (irq : BitVec 8) :
    info.acpiGetIrqOverride irq = (info.iso.find? fun iso => iso.sourceIrq == irq).elim (false, irq.setWidth 32,
      0) fun iso =>
      (true, iso.gsi, iso.flags) := by
  have hfind : (info.iso.find? fun iso => iso.valid && iso.sourceIrq == irq) = info.iso.find? fun iso =>
      iso.sourceIrq == irq := by
    refine List.find?_congr fun iso hiso => ?_
    rw [h iso hiso, Bool.true_and]
  unfold acpiGetIrqOverride
  rw [hfind]
  cases info.iso.find? fun iso => iso.sourceIrq == irq <;> rfl

end Fold

section Madt
variable {bytes : Nat → BitVec 8} {es : List (List (BitVec 8))}

theorem walk_inside (bytes : Nat → BitVec 8) : (walk bytes zero).All (· < (readU32 bytes 4).toNat) := by
  refine (Logged.loop_ends (I := fun _ => True) (Q := fun _ => True) (fun s => (readU32 bytes 4).toNat - s.1) trivial
    (by dsimp only; omega) (fun s _ => all_walkStep s) (fun s t _ hs => ⟨trivial, ?_⟩) fun _ _ _ _ => trivial).1
  rw [value_walkStep] at hs
  split at hs
  · cases hs
  · cases hs
    dsimp only
    omega

theorem length_entries_le (h : MaximalPrefix (bytesFrom bytes 44 (readU32 bytes 4).toNat) es) :
    es.length ≤ (readU32 bytes 4).toNat := by
  have hlen := h.length_le
  rw [length_bytesFrom] at hlen
  omega

theorem parseMadt_eq_foldl (h : MaximalPrefix (bytesFrom bytes 44 (readU32 bytes 4).toNat) es) :
    zero.parseMadt (some bytes) = es.foldl record { zero with present := true, lapicAddr := readU32 bytes 36 } :=
  parseEntries_eq_foldl h (length_entries_le h) _

theorem parseMadt_describes (h : MaximalPrefix (bytesFrom bytes 44 (readU32 bytes 4).toNat) es) :
    Describes es (zero.parseMadt (some bytes)) := by
  have hparse := parseMadt_eq_foldl h
  have hiso : (zero.parseMadt (some bytes)).iso = ((es.filter isOverride).take 16).map overrideOf := by
    rw [hparse, iso_foldl h.wellFormed, List.map_take]
    · rfl
    · exact Nat.zero_le 16
  refine ⟨?_, ?_, hiso, fun irq => ?_⟩
  · have hcount : es.countP isCpu ≤ es.length := List.countP_le_length
    have hlen := length_entries_le h
    have hlt := (readU32 bytes 4).isLt
    rw [hparse, cpuLapicCount_foldl h.wellFormed]
    show (0#32 + BitVec.ofNat 32 (es.countP isCpu)).toNat = _
    rw [BitVec.zero_add, BitVec.toNat_ofNat, Nat.mod_eq_of_lt (by omega)]
  · rw [hparse]
    exact ioapic_foldl h.wellFormed _
  · rw [acpiGetIrqOverride_eq, hiso]
    rw [hiso]
    intro iso hm
    obtain ⟨e, -, rfl⟩ := List.mem_map.mp hm
    rfl

end Madt

/-- For every MADT, whatever its bytes and its length: the entries that it starts with exist, and whichever they are,
    the walk ends, reads only bytes below the length, and leaves the fold over them. -/
theorem madt_walk_reads_entries (bytes : Nat → BitVec 8) :
    (walk bytes zero).All (· < (readU32 bytes 4).toNat) ∧ (walk bytes zero).value = some (zero.parseMadt (some bytes)) ∧
    (∃ es, MaximalPrefix (bytesFrom bytes 44 (readU32 bytes 4).toNat) es) ∧
    ∀ es, MaximalPrefix (bytesFrom bytes 44 (readU32 bytes 4).toNat) es →
      zero.parseMadt (some bytes) = es.foldl record { zero with present := true, lapicAddr := readU32 bytes 36 } ∧
      Describes es (zero.parseMadt (some bytes)) := by
  obtain ⟨es, hes⟩ := exists_maximalPrefix (bytesFrom bytes 44 (readU32 bytes 4).toNat)
  refine ⟨walk_inside bytes, ?_, ⟨es, hes⟩, fun es h => ⟨parseMadt_eq_foldl h, parseMadt_describes h⟩⟩
  rw [parseMadt_eq_foldl hes]
  exact value_loop hes (Nat.lt_succ_of_le (length_entries_le hes)) _

end AcpiMadtInfo
end SamOS
