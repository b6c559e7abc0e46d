import SamOS.ShellCommand
import SamOS.Lib.Decimal
import SamOS.Lib.Logged

/-! Decimal output (`print_dec` in `display.c`, `serial_write_dec` in `serial.c`). Both collect the digits from the
    lowest one on in a buffer of 32 characters and then write them out backwards, each with a loop of its own. -/

namespace SamOS
open Function Logged

/-- An access to `buf`, or a character for `print_char` or `serial_write_char`. -/
inductive DecNote where
  | buf (i : Nat)
  | emit (c : BitVec 8)
  deriving DecidableEq, Repr

/-- An access is inside the 32 characters. -/
def DecNote.Fits : DecNote → Prop
  | .buf i => i < 32
  | .emit _ => True

/-- The characters that are written out. -/
def emitted (log : List DecNote) : List (BitVec 8) := log.filterMap fun
  | .buf _ => none
  | .emit c => some c

/-- The variables of the loop over the digits. -/
structure DigitLoop where
  value : BitVec 64
  i : Nat
  buf : Nat → BitVec 8

/-- `while (value > 0)`: one iteration, or the end of the loop. -/
def digitStep (s : DigitLoop) : Logged DecNote (DigitLoop ⊕ DigitLoop) :=
  if 0 < s.value then do
    note (.buf s.i)
    pure (.inl ⟨s.value / 10, s.i + 1, update s.buf s.i ((0x30 + s.value % 10).setWidth 8)⟩)
  else pure (.inr s)

/-- `print_dec`, where `buf` is what the stack holds before; `none` would be a loop that does not end. -/
def printDec (buf : Nat → BitVec 8) (val : BitVec 64) : Logged DecNote (Option Unit) :=
  if val = 0 then do
    note (.emit 0x30)
    pure (some ())
  else do
    match ← Logged.loop digitStep (val.toNat + 1) ⟨val, 0, buf⟩ with
    | none => pure none
    | some s =>
      -- `for (int j = i - 1; j >= 0; j--)`
      Logged.forRange 0 s.i (fun k _ => do
        note (.buf (s.i - 1 - k))
        note (.emit (s.buf (s.i - 1 - k)))) ()
      pure (some ())

/-- `while (i > 0) serial_write_char(buf[--i])`. -/
def writeDown (buf : Nat → BitVec 8) : Nat → Logged DecNote Unit
  | 0 => pure ()
  | i + 1 => do
    note (.buf i)
    note (.emit (buf i))
    writeDown buf i

def serialWriteDec (buf : Nat → BitVec 8) (value : BitVec 64) : Logged DecNote (Option Unit) :=
  if value = 0 then do
    note (.emit 0x30)
    pure (some ())
  else do
    match ← Logged.loop digitStep (value.toNat + 1) ⟨value, 0, buf⟩ with
    | none => pure none
    | some s =>
      writeDown s.buf s.i
      pure (some ())

/-- The bytes that `serial_write_char` sends, once the line is free. -/
def serialWriteChar (ready : Bool) (c : BitVec 8) : List (BitVec 8) :=
  if ¬ready then [] else if c = 0x0A#8 then [0x0D#8, c] else [c]

/-! ### The digits in the buffer -/

/-- The characters of the first `i` cells, from the last one down. -/
def readDown (buf : Nat → BitVec 8) (i : Nat) : List (BitVec 8) := ((List.range i).map buf).reverse

theorem readDown_succ (buf : Nat → BitVec 8) (i : Nat) : readDown buf (i + 1) = buf i :: readDown buf i := by
  unfold readDown
  rw [List.range_succ, List.map_append, List.reverse_append]
  rfl

theorem readDown_congr {buf buf' : Nat → BitVec 8} {i : Nat} (h : ∀ j < i, buf' j = buf j) :
    readDown buf' i = readDown buf i := by
  unfold readDown
  rw [List.map_congr_left fun j hj => h j (List.mem_range.mp hj)]

theorem digitStep_digits {s t : DigitLoop} (h : (digitStep s).value = .inl t) :
    t.value.toNat = s.value.toNat / 10 ∧ 0 < s.value.toNat ∧ t.i = s.i + 1 ∧
      Decimal.digits t.value.toNat ++ readDown t.buf t.i = Decimal.digits s.value.toNat ++ readDown s.buf s.i := by
  unfold digitStep at h
  split at h
  · rename_i hpos
    replace hpos : 0 < s.value.toNat := hpos
    obtain rfl : _ = t := Sum.inl.inj h
    have hdiv : (s.value / 10).toNat = s.value.toNat / 10 := BitVec.toNat_udiv
    refine ⟨hdiv, hpos, rfl, ?_⟩
    have hkept : readDown (update s.buf s.i ((0x30 + s.value % 10).setWidth 8)) s.i = readDown s.buf s.i :=
      readDown_congr fun j hj => update_of_ne (Nat.ne_of_lt hj) _ _
    dsimp only
    rw [hdiv, readDown_succ, update_self, hkept, Decimal.digits_of_pos hpos,
      Decimal.digit_setWidth (by decide), List.append_assoc]
    rfl
  · cases h

theorem digitStep_leaves {s t : DigitLoop} (h : (digitStep s).value = .inr t) : t = s ∧ s.value.toNat = 0 := by
  unfold digitStep at h
  split at h
  · cases h
  · rename_i hzero
    exact ⟨(Sum.inr.inj h).symm, Nat.eq_zero_of_not_pos hzero⟩

/-- The digits of a 64-bit number, with those that are in the buffer already, are at most 20. -/
def Collects (v : BitVec 64) (s : DigitLoop) : Prop :=
  Decimal.digits s.value.toNat ++ readDown s.buf s.i = Decimal.digits v.toNat

theorem length_readDown (buf : Nat → BitVec 8) (i : Nat) : (readDown buf i).length = i := by
  rw [readDown, List.length_reverse, List.length_map, List.length_range]

theorem Collects.length_le {v : BitVec 64} {s : DigitLoop} (h : Collects v s) :
    (Decimal.digits s.value.toNat).length + s.i ≤ 20 := by
  have hlt := v.isLt
  have hlen : (Decimal.digits v.toNat).length ≤ 20 := Decimal.length_digits_le_iff.mpr (Nat.lt_trans hlt (by decide))
  rwa [← h, List.length_append, length_readDown] at hlen

/-- The loop ends with all digits in the buffer, and has only written there. -/
theorem digitLoop_ends (buf : Nat → BitVec 8) (v : BitVec 64) :
    All (fun e => ∃ i < 32, e = .buf i) (Logged.loop digitStep (v.toNat + 1) ⟨v, 0, buf⟩) ∧
    ∃ s, (Logged.loop digitStep (v.toNat + 1) ⟨v, 0, buf⟩).value = some s ∧
      readDown s.buf s.i = Decimal.digits v.toNat ∧ s.i ≤ 20 := by
  refine loop_ends (I := Collects v) (fun s => s.value.toNat) (List.append_nil _) (Nat.lt_succ_self _) (fun s hs => ?_)
    (fun s t hs hstep => ?_) fun s t hs hleave => ?_
  · unfold digitStep
    split
    · rename_i hpos
      have hle := hs.length_le
      refine all_bind.mpr ⟨all_note.mpr ⟨s.i, by omega, rfl⟩, all_pure _⟩
    · exact all_pure _
  · obtain ⟨hdiv, hpos, -, hdigits⟩ := digitStep_digits hstep
    refine ⟨hdigits.trans hs, ?_⟩
    rw [hdiv]
    exact Nat.div_lt_self hpos (by decide)
  · obtain ⟨rfl, hzero⟩ := digitStep_leaves hleave
    have hle := hs.length_le
    unfold Collects at hs
    rw [hzero, Decimal.digits_zero, List.nil_append] at hs
    exact ⟨hs, by omega⟩

/-! ### Writing out -/

theorem emitted_append (l l' : List DecNote) : emitted (l ++ l') = emitted l ++ emitted l' := List.filterMap_append

theorem emitted_eq_nil {l : List DecNote} (h : ∀ e ∈ l, ∃ i < 32, e = .buf i) : emitted l = [] := by
  refine List.filterMap_eq_nil_iff.mpr fun e he => ?_
  obtain ⟨i, -, rfl⟩ := h e he
  rfl

theorem emitted_writeDown (buf : Nat → BitVec 8) (i : Nat) : emitted (writeDown buf i).log = readDown buf i := by
  induction i with
  | zero => rfl
  | succ i ih =>
    rw [readDown_succ, ← ih]
    rfl

theorem writeDown_fits (buf : Nat → BitVec 8) {i : Nat} (hi : i ≤ 32) : All DecNote.Fits (writeDown buf i) := by
  induction i with
  | zero => exact all_pure ()
  | succ i ih => exact all_bind.mpr ⟨all_note.mpr hi, all_bind.mpr ⟨all_note.mpr trivial, ih (Nat.le_of_succ_le hi)⟩⟩

theorem forRange_eq_writeDown (buf : Nat → BitVec 8) (i : Nat) :
    Logged.forRange 0 i (fun k _ => do
      note (.buf (i - 1 - k))
      note (.emit (buf (i - 1 - k)))) () = writeDown buf i := by
  -- with `n` cells to go, the loop is at `k`
  have hrest (n k : Nat) (hk : k + n = i) :
      (List.range' k n).flatMap (fun k => [DecNote.buf (i - 1 - k), .emit (buf (i - 1 - k))]) =
        (writeDown buf n).log := by
    induction n generalizing k with
    | zero => rfl
    | succ n ih =>
      rw [List.range'_succ, List.flatMap_cons, ih (k + 1) (by omega), show i - 1 - k = n by omega]
      rfl
  exact congrArg (Logged.mk ()) ((log_forRange_unit 0 i _).trans (hrest i 0 (Nat.zero_add i)))

theorem printDec_eq (buf : Nat → BitVec 8) (v : BitVec 64) : printDec buf v = serialWriteDec buf v := by
  unfold printDec serialWriteDec
  simp only [forRange_eq_writeDown]

/-- A function that writes a number out: it ends, stays in its buffer, and writes `chars`. -/
structure Writes (x : Logged DecNote (Option Unit)) (chars : List (BitVec 8)) : Prop where
  ends : x.value = some ()
  fits : All DecNote.Fits x
  chars : emitted x.log = chars

theorem serialWriteDec_writes (buf : Nat → BitVec 8) (v : BitVec 64) :
    Writes (serialWriteDec buf v) (Decimal.text v.toNat) := by
  unfold serialWriteDec
  split
  · rename_i h0
    rw [h0]
    exact ⟨rfl, all_bind.mpr ⟨all_note.mpr trivial, all_pure _⟩, rfl⟩
  · rename_i h0
    obtain ⟨hall, s, hs, hdigits, hi⟩ := digitLoop_ends buf v
    have hpos : v.toNat ≠ 0 := fun h => h0 (BitVec.eq_of_toNat_eq h)
    refine ⟨?_, all_bind.mpr ⟨fun e he => ?_, ?_⟩, ?_⟩
    · rw [value_bind, hs]
      rfl
    · obtain ⟨i, hi, rfl⟩ := hall e he
      exact hi
    · rw [hs]
      exact all_bind.mpr ⟨writeDown_fits s.buf (Nat.le_trans hi (by decide)), all_pure _⟩
    · rw [log_bind, emitted_append, emitted_eq_nil hall, hs, List.nil_append, Decimal.text, if_neg hpos, ← hdigits,
        ← emitted_writeDown]
      exact congrArg emitted (List.append_nil _)

theorem printDec_writes (buf : Nat → BitVec 8) (v : BitVec 64) : Writes (printDec buf v) (Decimal.text v.toNat) :=
  printDec_eq buf v ▸ serialWriteDec_writes buf v

/-! ### Reading back -/

theorem isDigit_digit (n : Nat) : isDigit (Decimal.digit n) = true := by
  have hdigits : ∀ k < 10, isDigit (Decimal.digit k) = true := by decide
  rw [← Decimal.digit_mod]
  exact hdigits (n % 10) (Nat.mod_lt n (by decide))

/-- The text of a number is a numeral. -/
def numeralOf (n : Nat) : Numeral where
  digits := Decimal.text n
  nonempty := Decimal.text_ne_nil n
  decimal c hc := by
    obtain ⟨k, rfl⟩ := Decimal.eq_digit_of_mem_text hc
    exact isDigit_digit k

theorem value_numeralOf (n : Nat) : (numeralOf n).value = n := Decimal.value_text n

theorem parseU64_spaces (k : Nat) (s : List (BitVec 8)) : parseU64 (List.replicate k 0x20#8 ++ s) = parseU64 s := by
  induction k with
  | zero => rfl
  | succ k ih => exact (Numeral.parseU64_space _).trans ih

/-- `print_dec` and `serial_write_dec` write the same characters, whatever their buffers hold before, and both stay
    inside them. The characters are digits without a leading zero and go to the serial line as they are; `parse_u64`
    makes `v` of them again. -/
theorem decimal_output_reads_back (v : BitVec 64) : ∃ chars : List (BitVec 8),
    (∀ buf, Writes (printDec buf v) chars) ∧ (∀ buf, Writes (serialWriteDec buf v) chars) ∧
      chars.flatMap (serialWriteChar true) = chars ∧
    (∀ c ∈ chars, isDigit c = true) ∧ (chars.head? = some 0x30#8 → chars = [0x30#8]) ∧
    ∀ k rest, (∀ c ∈ rest.head?, isDigit c = false) → parseU64 (List.replicate k 0x20#8 ++ chars ++ rest) = some v := by
  refine ⟨Decimal.text v.toNat, fun buf => printDec_writes buf v, fun buf => serialWriteDec_writes buf v, ?_,
    (numeralOf v.toNat).decimal, ?_, fun k rest hrest => ?_⟩
  · have hsame : ∀ c ∈ Decimal.text v.toNat, serialWriteChar true c = [c] := by
      intro c hc
      have hline : c ≠ 0x0A#8 := by
        rintro rfl
        exact absurd ((numeralOf v.toNat).decimal _ hc) (by decide)
      exact if_neg hline
    rw [List.flatMap_congr hsame]
    exact List.flatMap_singleton' _
  · unfold Decimal.text
    split
    · exact fun _ => rfl
    · exact fun hhead => absurd hhead (Decimal.head_digits_ne v.toNat)
  · have hparse := (numeralOf v.toNat).parseU64_append rest hrest
    rw [value_numeralOf, BitVec.ofNat_toNat, BitVec.setWidth_eq] at hparse
    rw [List.append_assoc, parseU64_spaces]
    exact hparse

end SamOS
