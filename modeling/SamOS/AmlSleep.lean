import SamOS.AcpiTables

/-! The search for the sleep types of the state S5 in the DSDT (`aml_extract_s5_types`): a scan of the AML bytes for
    the name `_S5_` and the package after it, of which it takes the first two numbers. The scan notes the indices that
    it reads, the exact value of every index that it computes in 32 bits, and its writes to the two outputs. -/

namespace SamOS
namespace Acpi

/-- What the scan does besides its result. -/
inductive AmlNote where
  | read (k : Nat)
  | index (exact : Int)
  | output
  deriving DecidableEq, Repr

/-- The body of the scan loop. Giving up is `continue`. -/
abbrev AmlScan := OptionT (Logged AmlNote)

section Scan
variable (aml : Nat → BitVec 8) (amlLen : BitVec 32)

/-- `aml[k]`. -/
def amlGet (k : BitVec 32) : AmlScan (BitVec 8) :=
  OptionT.lift do
    Logged.note (.read k.toNat)
    pure (aml k.toNat)

/-- `read_u16(&aml[k])`. -/
def amlGetU16 (k : BitVec 32) : AmlScan (BitVec 16) :=
  OptionT.lift do
    Logged.note (.read k.toNat)
    Logged.note (.read (k.toNat + 1))
    pure (AcpiMadtInfo.readU16 aml k.toNat)

/-- `k + n` in 32 bits. -/
def plus (k : BitVec 32) (n : Nat) : Logged AmlNote (BitVec 32) := do
  Logged.note (.index (k.toNat + n))
  pure (k + BitVec.ofNat 32 n)

/-- `k - n` in 32 bits. -/
def minus (k : BitVec 32) (n : Nat) : Logged AmlNote (BitVec 32) := do
  Logged.note (.index (k.toNat - n))
  pure (k - BitVec.ofNat 32 n)

/-- One character of the name. -/
def charAt (i : BitVec 32) (n : Nat) (c : BitVec 8) : AmlScan Unit := do
  let k ← OptionT.lift (plus i n)
  guard ((← amlGet aml k) = c)

/-- The name `_S5_` at `i`. -/
def nameAt (i : BitVec 32) : AmlScan Unit := do
  charAt aml i 0 0x5F
  charAt aml i 1 0x53
  charAt aml i 2 0x35
  charAt aml i 3 0x5F

/-- `NameOp` before `i`, with a root or parent prefix between them or not. -/
def nameOpBefore (i : BitVec 32) : AmlScan Unit := do
  guard (i ≠ 0)
  let pre ← amlGet aml (← OptionT.lift (minus i 1))
  if pre ≠ 0x08 then do
    guard (2 ≤ i)
    guard ((← amlGet aml (← OptionT.lift (minus i 2))) = 0x08)
    guard (pre = 0x5C ∨ pre = 0x5E)

/-- `PackageOp`, the length of the package and the number of its elements: the position after them. -/
def packageAt (i : BitVec 32) : AmlScan (BitVec 32) := do
  let pos ← OptionT.lift (plus i 4)
  guard (pos < amlLen)
  guard ((← amlGet aml pos) = 0x12)
  let pos ← OptionT.lift (plus pos 1)
  guard (pos < amlLen)
  let lead ← amlGet aml pos
  let pos ← OptionT.lift (plus pos 1)
  let follow := (lead >>> 6) &&& 3
  guard ((← OptionT.lift (plus pos follow.toNat)) < amlLen)
  let pos ← OptionT.lift (plus pos follow.toNat)
  guard (pos < amlLen)
  let pos ← OptionT.lift (plus pos 1)
  guard (pos < amlLen)
  pure pos

/-- A number at `pos`, and the position of its last byte. -/
def numberAt (pos : BitVec 32) : AmlScan (BitVec 8 × BitVec 32) := do
  let a ← amlGet aml pos
  if a = 0x0A then do
    guard ((← OptionT.lift (plus pos 1)) < amlLen)
    let pos ← OptionT.lift (plus pos 1)
    let a ← amlGet aml pos
    pure (a, pos)
  else if a = 0x0B then do
    guard ((← OptionT.lift (plus pos 2)) < amlLen)
    let w ← amlGetU16 aml (← OptionT.lift (plus pos 1))
    let pos ← OptionT.lift (plus pos 2)
    pure (w.setWidth 8, pos)
  else pure (a, pos)

/-- The loop body for the index `i`. -/
def s5At (i : BitVec 32) : AmlScan (BitVec 8 × BitVec 8) := do
  nameAt aml i
  nameOpBefore aml i
  let pos ← packageAt aml amlLen i
  let (a, pos) ← numberAt aml amlLen pos
  let pos ← OptionT.lift (plus pos 1)
  guard (pos < amlLen)
  let (b, _) ← numberAt aml amlLen pos
  pure (a, b)

/-- One iteration of the scan loop. -/
def scanStep (i : BitVec 32) : Logged AmlNote (BitVec 32 ⊕ Option (BitVec 8 × BitVec 8)) := do
  if (← plus i 7) < amlLen then
    match ← (s5At aml amlLen i).run with
    | some types => pure (.inr (some types))
    | none => do
      let i ← plus i 1
      pure (.inl i)
  else pure (.inr none)

end Scan

/-- `aml_extract_s5_types` with the values of the outputs before the call: whether it found the types, and the
    outputs. The scan is cut off after as many iterations as there are AML bytes, and one. -/
def amlExtractS5Types (dsdt : Option (Nat → BitVec 8)) (dsdtLen : BitVec 32) (outs : BitVec 16 × BitVec 16) :
    Logged AmlNote (Option (Bool × BitVec 16 × BitVec 16)) :=
  match dsdt with
  | none => pure (some (false, outs))
  | some dsdt =>
    if dsdtLen.toNat < 36 + 8 then pure (some (false, outs))
    else do
      let aml := fun i => dsdt (36 + i)
      let amlLen ← minus dsdtLen 36
      match ← Logged.loop (scanStep aml amlLen) (amlLen.toNat + 1) 0 with
      | none => pure none
      | some none => pure (some (false, outs))
      | some (some (a, b)) => do
        Logged.note .output
        Logged.note .output
        pure (some (true, a.setWidth 16, b.setWidth 16))

/-- A read below `n`, an index that does not wrap, or a write. -/
def AmlNote.Ok (n : Nat) : AmlNote → Prop
  | .read k => k < n
  | .index exact => 0 ≤ exact ∧ exact < 2 ^ 32
  | .output => True

/-- The same, without writes. -/
def AmlNote.Inside (n : Nat) (e : AmlNote) : Prop := e ≠ .output ∧ e.Ok n

variable {n : Nat}

theorem AmlNote.inside_read {k : Nat} (h : k < n) : (AmlNote.read k).Inside n := ⟨fun he => AmlNote.noConfusion he, h⟩

theorem AmlNote.inside_index {i : Int} (h0 : 0 ≤ i) (h : i < 2 ^ 32) : (AmlNote.index i).Inside n :=
  ⟨fun he => AmlNote.noConfusion he, h0, h⟩

theorem all_ok {α : Type} {x : Logged AmlNote α} (h : x.All (AmlNote.Inside n)) : x.All (AmlNote.Ok n) :=
  fun e he => (h e he).2

/-! ### Each part of the scan -/

section Parts
variable {aml : Nat → BitVec 8} {amlLen : BitVec 32} {i k : BitVec 32} {n : Nat}
open Logged

theorem sat_amlGet (hk : k.toNat < amlLen.toNat) :
    Sat (AmlNote.Inside amlLen.toNat) (fun c => c = aml k.toNat) (amlGet aml k) := by
  refine Sat.of_lift ?_ rfl
  simp only [all_bind, all_note, all_pure, and_true]
  exact AmlNote.inside_read hk

theorem sat_amlGetU16 (hk : k.toNat + 1 < amlLen.toNat) :
    Sat (AmlNote.Inside amlLen.toNat) (fun _ => True) (amlGetU16 aml k) := by
  refine Sat.of_lift ?_ trivial
  simp only [all_bind, all_note, all_pure, and_true]
  exact ⟨AmlNote.inside_read (by omega), AmlNote.inside_read hk⟩

theorem toNat_plus (h : k.toNat + n < 2 ^ 32) : (plus k n).value.toNat = k.toNat + n := by
  show (k + BitVec.ofNat 32 n).toNat = _
  rw [BitVec.toNat_add, BitVec.toNat_ofNat, Nat.mod_eq_of_lt (show n < 2 ^ 32 by omega), Nat.mod_eq_of_lt h]

theorem all_plus (h : k.toNat + n < 2 ^ 32) : All (AmlNote.Inside amlLen.toNat) (plus k n) := by
  simp only [plus, all_bind, all_note, all_pure, and_true]
  exact AmlNote.inside_index (by omega) (by omega)

theorem sat_plus (h : k.toNat + n < 2 ^ 32) :
    Sat (AmlNote.Inside amlLen.toNat) (fun p => p.toNat = k.toNat + n) (OptionT.lift (plus k n)) :=
  .of_lift (all_plus h) (toNat_plus h)

theorem all_minus (h : n ≤ k.toNat) : All (AmlNote.Inside amlLen.toNat) (minus k n) := by
  have hlt := k.isLt
  simp only [minus, all_bind, all_note, all_pure, and_true]
  exact AmlNote.inside_index (by omega) (by omega)

theorem toNat_minus (h : n ≤ k.toNat) : (minus k n).value.toNat = k.toNat - n := by
  have hlt := k.isLt
  have hn : (BitVec.ofNat 32 n).toNat = n := by rw [BitVec.toNat_ofNat, Nat.mod_eq_of_lt (by omega)]
  show (k - BitVec.ofNat 32 n).toNat = _
  rw [BitVec.toNat_sub_of_le (by rw [BitVec.le_def, hn]; exact h), hn]

theorem sat_minus (h : n ≤ k.toNat) :
    Sat (AmlNote.Inside amlLen.toNat) (fun p => p.toNat = k.toNat - n) (OptionT.lift (minus k n)) :=
  .of_lift (all_minus h) (toNat_minus h)

theorem sat_charAt {c : BitVec 8} (h : i.toNat + n < amlLen.toNat) :
    Sat (AmlNote.Inside amlLen.toNat) (fun _ => aml (i.toNat + n) = c) (charAt aml i n c) := by
  have hlt := amlLen.isLt
  refine (sat_plus (by omega)).bind fun k hk => (sat_amlGet (by omega)).bind fun d hd => ?_
  have hguard := Sat.of_guard (P := AmlNote.Inside amlLen.toNat) (d = c)
  rw [← hk, ← hd]
  exact hguard

/-- The name `_S5_` is at `i`. -/
def IsName (aml : Nat → BitVec 8) (i : Nat) : Prop :=
  aml i = 0x5F ∧ aml (i + 1) = 0x53 ∧ aml (i + 2) = 0x35 ∧ aml (i + 3) = 0x5F

theorem sat_nameAt (h : i.toNat + 3 < amlLen.toNat) :
    Sat (AmlNote.Inside amlLen.toNat) (fun _ => IsName aml i.toNat) (nameAt aml i) :=
  (sat_charAt (by omega)).bind fun _ h0 => (sat_charAt (by omega)).bind fun _ h1 =>
    (sat_charAt (by omega)).bind fun _ h2 =>
    (sat_charAt h).imp fun _ h3 => ⟨h0, h1, h2, h3⟩

/-- `NameOp` stands before `i`, with a prefix between them or not. -/
def IsNamed (aml : Nat → BitVec 8) (i : Nat) : Prop :=
  (1 ≤ i ∧ aml (i - 1) = 0x08) ∨ (2 ≤ i ∧ aml (i - 2) = 0x08 ∧ (aml (i - 1) = 0x5C ∨ aml (i - 1) = 0x5E))

theorem sat_nameOpBefore (h : i.toNat < amlLen.toNat) :
    Sat (AmlNote.Inside amlLen.toNat) (fun _ => IsNamed aml i.toNat) (nameOpBefore aml i) := by
  refine (Sat.of_guard _).bind fun _ h0 => ?_
  have hpos : 1 ≤ i.toNat := Nat.pos_of_ne_zero fun hz => h0 (BitVec.eq_of_toNat_eq hz)
  refine (sat_minus hpos).bind fun k hk => (sat_amlGet (by omega)).bind fun pre hpre => ?_
  rw [hk] at hpre
  split
  · refine (Sat.of_guard _).bind fun _ h2 => ?_
    replace h2 : 2 ≤ i.toNat := h2
    refine (sat_minus h2).bind fun k hk => (sat_amlGet (by omega)).bind fun c hc => ?_
    refine (Sat.of_guard _).bind fun _ h8 => (Sat.of_guard _).imp fun _ hroot => ?_
    rw [hc, hk] at h8
    rw [hpre] at hroot
    exact Or.inr ⟨h2, h8, hroot⟩
  · rename_i h8
    exact .of_pure (Or.inl ⟨hpos, hpre.symm.trans (not_not.mp h8)⟩)

/-- The AML bytes follow a header in a table whose length has 32 bits. -/
def Fits (amlLen : BitVec 32) : Prop := amlLen.toNat + 36 < 2 ^ 32

theorem sat_packageAt (hlen : Fits amlLen) (h : i.toNat + 7 < amlLen.toNat) : Sat (AmlNote.Inside amlLen.toNat)
    (fun pos => pos.toNat < amlLen.toNat ∧ aml (i.toNat + 4) = 0x12) (packageAt aml amlLen i) := by
  unfold Fits at hlen
  refine (sat_plus (by omega)).bind fun pos hpos => (Sat.of_guard _).bind fun _ hin =>
    (sat_amlGet hin).bind fun c hc => ?_
  refine (Sat.of_guard _).bind fun _ hop => ?_
  rw [hc, hpos] at hop
  refine (sat_plus (by omega)).bind fun pos1 hpos1 => (Sat.of_guard _).bind fun _ hin1 =>
    (sat_amlGet hin1).bind fun lead _ => ?_
  have hfollow : ((lead >>> 6) &&& 3).toNat ≤ 3 := by
    rw [BitVec.toNat_and]
    exact Nat.and_le_right
  refine (sat_plus (by omega)).bind fun pos2 hpos2 => (sat_plus (by omega)).bind fun _ _ =>
    (Sat.of_guard _).bind fun _ _ => ?_
  refine (sat_plus (by omega)).bind fun pos3 _ => (Sat.of_guard _).bind fun _ hin3 => ?_
  replace hin3 : pos3.toNat < amlLen.toNat := hin3
  refine (sat_plus (by omega)).bind fun pos4 _ => (Sat.of_guard _).bind fun _ hin4 => .of_pure ⟨hin4, hop⟩

theorem sat_numberAt (hlen : Fits amlLen) {pos : BitVec 32} (h : pos.toNat < amlLen.toNat) :
    Sat (AmlNote.Inside amlLen.toNat) (fun r => r.2.toNat < amlLen.toNat) (numberAt aml amlLen pos) := by
  unfold Fits at hlen
  refine (sat_amlGet h).bind fun a _ => ?_
  split
  · refine (sat_plus (by omega)).bind fun p hp => (Sat.of_guard _).bind fun _ hin => ?_
    replace hin : p.toNat < amlLen.toNat := hin
    refine (sat_plus (by omega)).bind fun pos1 hpos1 => (sat_amlGet (by omega)).bind fun a _ => .of_pure ?_
    dsimp only
    omega
  · split
    · refine (sat_plus (by omega)).bind fun p hp => (Sat.of_guard _).bind fun _ hin => ?_
      replace hin : p.toNat < amlLen.toNat := hin
      refine (sat_plus (by omega)).bind fun p1 hp1 => (sat_amlGetU16 (by omega)).bind fun w _ => ?_
      refine (sat_plus (by omega)).bind fun pos2 hpos2 => .of_pure ?_
      dsimp only
      omega
    · exact .of_pure h

/-- What the scan looks for at `i`. -/
structure S5Pattern (aml : Nat → BitVec 8) (i : Nat) : Prop where
  name : IsName aml i
  named : IsNamed aml i
  package : aml (i + 4) = 0x12

theorem sat_s5At (hlen : Fits amlLen) (h : i.toNat + 7 < amlLen.toNat) :
    Sat (AmlNote.Inside amlLen.toNat) (fun _ => S5Pattern aml i.toNat) (s5At aml amlLen i) := by
  refine (sat_nameAt (by omega)).bind fun _ hname => (sat_nameOpBefore (by omega)).bind fun _ hnamed => ?_
  refine (sat_packageAt hlen h).bind fun pos hpos => (sat_numberAt hlen hpos.1).bind fun r hr => ?_
  unfold Fits at hlen
  refine (sat_plus (by omega)).bind fun pos1 _ => (Sat.of_guard _).bind fun _ hin => ?_
  exact (sat_numberAt hlen hin).bind fun _ _ => .of_pure ⟨hname, hnamed, hpos.2⟩

/-! ### The scan -/

theorem value_scanStep (h : i.toNat + 7 < 2 ^ 32) : (scanStep aml amlLen i).value =
    if i.toNat + 7 < amlLen.toNat then
      match (s5At aml amlLen i).run.value with
      | some types => .inr (some types)
      | none => .inl (plus i 1).value
    else .inr none := by
  have hlt : ((plus i 7).value < amlLen) = (i.toNat + 7 < amlLen.toNat) := by rw [BitVec.lt_def, toNat_plus h]
  unfold scanStep
  rw [value_bind]
  simp only [hlt]
  split
  · rw [value_bind]
    cases (s5At aml amlLen i).run.value <;> rfl
  · rfl

theorem all_scanStep (hlen : Fits amlLen) (h : i.toNat < amlLen.toNat) :
    All (AmlNote.Inside amlLen.toNat) (scanStep aml amlLen i) := by
  unfold Fits at hlen
  unfold scanStep
  rw [all_bind]
  refine ⟨all_plus (by omega), ?_⟩
  split
  · rename_i hin
    rw [BitVec.lt_def, toNat_plus (by omega)] at hin
    rw [all_bind]
    refine ⟨(sat_s5At hlen hin).1, ?_⟩
    split
    · exact all_pure _
    · rw [all_bind]
      exact ⟨all_plus (by omega), all_pure _⟩
  · exact all_pure _

theorem scanStep_next {i' : BitVec 32} (hlen : Fits amlLen) (h : i.toNat < amlLen.toNat)
    (hs : (scanStep aml amlLen i).value = .inl i') :
    i'.toNat = i.toNat + 1 ∧ i.toNat + 7 < amlLen.toNat ∧ (s5At aml amlLen i).run.value = none := by
  unfold Fits at hlen
  rw [value_scanStep (by omega)] at hs
  split at hs
  · rename_i hin
    cases hv : (s5At aml amlLen i).run.value with
    | some types =>
      rw [hv] at hs
      cases hs
    | none =>
      rw [hv] at hs
      cases hs
      exact ⟨toNat_plus (by omega), hin, rfl⟩
  · cases hs

theorem scan_ends (aml : Nat → BitVec 8) (hlen : Fits amlLen) (h0 : 0 < amlLen.toNat) :
    All (AmlNote.Inside amlLen.toNat) (loop (scanStep aml amlLen) (amlLen.toNat + 1) 0) ∧
    ∃ r, (loop (scanStep aml amlLen) (amlLen.toNat + 1) 0).value = some r := by
  obtain ⟨hall, r, hr, -⟩ := loop_ends (I := fun i : BitVec 32 => i.toNat < amlLen.toNat) (Q := fun _ => True)
    (fun i => amlLen.toNat - i.toNat)
    (show (0 : BitVec 32).toNat < amlLen.toNat from h0) (show amlLen.toNat - 0 < amlLen.toNat + 1 by omega)
      (fun i hi => all_scanStep hlen hi)
    (fun i i' hi hs => by
      obtain ⟨hi', hin, -⟩ := scanStep_next hlen hi hs
      omega) fun _ _ _ _ => trivial
  exact ⟨hall, r, hr⟩

end Parts

theorem toNat_amlLen {dsdtLen : BitVec 32} (h : ¬dsdtLen.toNat < 36 + 8) :
    (minus dsdtLen 36).value.toNat = dsdtLen.toNat - 36 :=
  toNat_minus (by omega)

/-- For every DSDT and every length: the scan ends, each AML byte that it reads is below the length without the
    header, no index wraps, and the outputs are written only if it returns 1. -/
theorem aml_extract_s5_types_inside (dsdt : Nat → BitVec 8) (dsdtLen : BitVec 32) (outs : BitVec 16 × BitVec 16) :
    ∃ found outs', (amlExtractS5Types (some dsdt) dsdtLen outs).value = some (found, outs') ∧
      (amlExtractS5Types (some dsdt) dsdtLen outs).All (AmlNote.Ok (dsdtLen.toNat - 36)) ∧
      (found = false → outs' = outs ∧ .output ∉ (amlExtractS5Types (some dsdt) dsdtLen outs).log) := by
  unfold amlExtractS5Types
  dsimp only
  by_cases hshort : dsdtLen.toNat < 36 + 8
  · rw [if_pos hshort]
    exact ⟨false, outs, rfl, Logged.all_pure _, fun _ => ⟨rfl, List.not_mem_nil⟩⟩
  rw [if_neg hshort]
  have hlen := toNat_amlLen hshort
  have hlt := dsdtLen.isLt
  have hminus : Logged.All (AmlNote.Inside (minus dsdtLen 36).value.toNat) (minus dsdtLen 36) := all_minus (by omega)
  have hfits : Fits (minus dsdtLen 36).value := by
    unfold Fits
    omega
  obtain ⟨hall, r, hr⟩ := scan_ends (fun i => dsdt (36 + i)) hfits (by omega)
  simp only [Logged.value_bind, Logged.log_bind, Logged.all_bind, hr]
  rw [← hlen]
  rcases r with _ | ⟨a, b⟩
  · refine ⟨false, outs, rfl, ⟨all_ok hminus, all_ok hall, Logged.all_pure _⟩, fun _ => ⟨rfl, fun hmem => ?_⟩⟩
    rcases List.mem_append.mp hmem with hmem | hmem
    · exact (hminus _ hmem).1 rfl
    · rcases List.mem_append.mp hmem with hmem | hmem
      · exact (hall _ hmem).1 rfl
      · cases hmem
  · refine ⟨true, (a.setWidth 16, b.setWidth 16), rfl, ⟨all_ok hminus, all_ok hall, ?_⟩,
      fun hfalse => Bool.noConfusion hfalse⟩
    exact Logged.all_bind.mpr ⟨Logged.all_note.mpr trivial,
      Logged.all_bind.mpr ⟨Logged.all_note.mpr trivial, Logged.all_pure _⟩⟩

end Acpi
end SamOS
