import SamOS.Lib.CString
import SamOS.Lib.Decimal
import SamOS.Lib.Logged

/-! The wall-clock time as text (`append_2`, `append_4` and `rtc_format` in `rtc.c`). Each append is skipped when what
    it writes and a NUL do not fit any more; a later, shorter one may still be written then. -/

namespace SamOS
open Function
namespace Rtc
open Logged CString

structure RtcDateTime where
  year : BitVec 16
  month : BitVec 8
  day : BitVec 8
  hour : BitVec 8
  minute : BitVec 8
  second : BitVec 8
  deriving DecidableEq, Repr

/-- `out`, and the index for the next character. -/
structure Output where
  out : Nat → BitVec 8
  pos : BitVec 32

/-- `out[(*pos)++] = c`; the notes are the indices that are written. -/
def put (c : BitVec 8) (s : Output) : Logged Nat Output := do
  note s.pos.toNat
  pure ⟨update s.out s.pos.toNat c, s.pos + 1⟩

def append2 (max value : BitVec 32) (s : Output) : Logged Nat Output :=
  if max ≤ s.pos + 2 then pure s
  else do
    let s ← put ((0x30 + value / 10 % 10).setWidth 8) s
    put ((0x30 + value % 10).setWidth 8) s

def append4 (max value : BitVec 32) (s : Output) : Logged Nat Output :=
  if max ≤ s.pos + 4 then pure s
  else do
    let s ← put ((0x30 + value / 1000 % 10).setWidth 8) s
    let s ← put ((0x30 + value / 100 % 10).setWidth 8) s
    let s ← put ((0x30 + value / 10 % 10).setWidth 8) s
    put ((0x30 + value % 10).setWidth 8) s

/-- `if (p + 1 < out_len) out[p++] = c`. -/
def appendChar (max : BitVec 32) (c : BitVec 8) (s : Output) : Logged Nat Output :=
  if s.pos + 1 < max then put c s else pure s

/-- The appends of `rtc_format`, in their order. -/
def appends (dt : RtcDateTime) (max : BitVec 32) : List (Output → Logged Nat Output) :=
  [append4 max (dt.year.setWidth 32), appendChar max 0x2D, append2 max (dt.month.setWidth 32), appendChar max 0x2D,
    append2 max (dt.day.setWidth 32), appendChar max 0x20, append2 max (dt.hour.setWidth 32), appendChar max 0x3A,
    append2 max (dt.minute.setWidth 32), appendChar max 0x3A, append2 max (dt.second.setWidth 32)]

def runAppends (fs : List (Output → Logged Nat Output)) (s : Output) : Logged Nat Output :=
  fs.foldlM (fun s append => append s) s

/-- `rtc_format`, where `none` is a null pointer. -/
def rtcFormat (dt : Option RtcDateTime) (out : Option (Nat → BitVec 8)) (outLen : BitVec 32) :
    Logged Nat (Option (Nat → BitVec 8)) :=
  match out with
  | none => pure none
  | some out =>
    if outLen = 0 then pure (some out)
    else
      match dt with
      | none => do
        note 0
        pure (some (update out 0 0))
      | some dt => do
        let s ← runAppends (appends dt outLen) ⟨out, 0⟩
        let p := if outLen ≤ s.pos then outLen - 1 else s.pos
        note p.toNat
        pure (some (update s.out p.toNat 0))

/-! ### The text -/

/-- What the appends write. -/
def pieces (dt : RtcDateTime) : List (List (BitVec 8)) :=
  [Decimal.fixed 4 dt.year.toNat, [0x2D], Decimal.fixed 2 dt.month.toNat, [0x2D], Decimal.fixed 2 dt.day.toNat, [0x20],
    Decimal.fixed 2 dt.hour.toNat, [0x3A], Decimal.fixed 2 dt.minute.toNat, [0x3A], Decimal.fixed 2 dt.second.toNat]

/-- `YYYY-MM-DD HH:MM:SS`. -/
def timestamp (dt : RtcDateTime) : List (BitVec 8) := (pieces dt).flatten

/-- The `w` digits at `i`. -/
def fieldAt (text : List (BitVec 8)) (i w : Nat) : Nat := Decimal.value ((text.drop i).take w)

/-- The fields, by their columns. -/
def ofTimestamp (text : List (BitVec 8)) : RtcDateTime where
  year := BitVec.ofNat 16 (fieldAt text 0 4)
  month := BitVec.ofNat 8 (fieldAt text 5 2)
  day := BitVec.ofNat 8 (fieldAt text 8 2)
  hour := BitVec.ofNat 8 (fieldAt text 11 2)
  minute := BitVec.ofNat 8 (fieldAt text 14 2)
  second := BitVec.ofNat 8 (fieldAt text 17 2)

/-- The fields have no more digits than their columns. -/
structure Printable (dt : RtcDateTime) : Prop where
  year : dt.year.toNat ≤ 9999
  month : dt.month.toNat ≤ 99
  day : dt.day.toNat ≤ 99
  hour : dt.hour.toNat ≤ 99
  minute : dt.minute.toNat ≤ 99
  second : dt.second.toNat ≤ 99

theorem length_timestamp (dt : RtcDateTime) : (timestamp dt).length = 19 := rfl

example :
    timestamp ⟨2024, 2, 29, 23, 59, 7⟩ = "2024-02-29 23:59:07".toList.map fun c => BitVec.ofNat 8 c.toNat := by decide

theorem ofNat_value_fixed {k w : Nat} {v : BitVec k} (h : v.toNat < 10 ^ w) :
    BitVec.ofNat k (Decimal.value (Decimal.fixed w v.toNat)) = v := by
  rw [Decimal.value_fixed, Nat.mod_eq_of_lt h, BitVec.ofNat_toNat, BitVec.setWidth_eq]

theorem ofTimestamp_timestamp {dt : RtcDateTime} (h : Printable dt) : ofTimestamp (timestamp dt) = dt := by
  have hyear := ofNat_value_fixed (w := 4) (Nat.lt_succ_of_le h.year)
  have hmonth := ofNat_value_fixed (w := 2) (Nat.lt_succ_of_le h.month)
  have hday := ofNat_value_fixed (w := 2) (Nat.lt_succ_of_le h.day)
  have hhour := ofNat_value_fixed (w := 2) (Nat.lt_succ_of_le h.hour)
  have hminute := ofNat_value_fixed (w := 2) (Nat.lt_succ_of_le h.minute)
  have hsecond := ofNat_value_fixed (w := 2) (Nat.lt_succ_of_le h.second)
  calc ofTimestamp (timestamp dt)
      = ⟨BitVec.ofNat 16 (Decimal.value (Decimal.fixed 4 dt.year.toNat)),
        BitVec.ofNat 8 (Decimal.value (Decimal.fixed 2 dt.month.toNat)),
          BitVec.ofNat 8 (Decimal.value (Decimal.fixed 2 dt.day.toNat)),
          BitVec.ofNat 8 (Decimal.value (Decimal.fixed 2 dt.hour.toNat)),
        BitVec.ofNat 8 (Decimal.value (Decimal.fixed 2 dt.minute.toNat)),
          BitVec.ofNat 8 (Decimal.value (Decimal.fixed 2 dt.second.toNat))⟩ := rfl
    _ = dt := by rw [hyear, hmonth, hday, hhour, hminute, hsecond]

/-! ### The appends -/

/-- A piece is added when there is room for it and for a NUL. -/
def addPiece (max : Nat) (text piece : List (BitVec 8)) : List (BitVec 8) :=
  if text.length + piece.length < max then text ++ piece else text

theorem length_addPiece_le (max : Nat) (text piece : List (BitVec 8)) :
    (addPiece max text piece).length ≤ text.length + piece.length := by
  unfold addPiece
  split
  · exact Nat.le_of_eq List.length_append
  · exact Nat.le_add_right _ _

theorem foldl_addPiece {max : Nat} {text : List (BitVec 8)} {ps : List (List (BitVec 8))}
    (h : text.length + ps.flatten.length < max) :
    ps.foldl (addPiece max) text = text ++ ps.flatten := by
  induction ps generalizing text with
  | nil => exact (List.append_nil text).symm
  | cons p ps ih =>
    rw [List.flatten_cons, List.length_append] at h
    have hp : addPiece max text p = text ++ p := if_pos (by omega)
    rw [List.foldl_cons, hp, ih (by rw [List.length_append]; omega), List.flatten_cons, List.append_assoc]

/-- The state with `text` written to the start of `out`, which has room for a NUL. -/
structure Writing (out : Nat → BitVec 8) (max : Nat) (text : List (BitVec 8)) (s : Output) : Prop where
  pos : s.pos.toNat = text.length
  room : text.length < max
  chars : ∀ i (h : i < text.length), s.out i = text[i]
  nonzero : ∀ c ∈ text, c ≠ 0
  kept : ∀ i, text.length ≤ i → s.out i = out i

/-- The characters of a piece, one after the other. -/
def puts (piece : List (BitVec 8)) (s : Output) : Logged Nat Output := piece.foldlM (fun s c => put c s) s

section Appends
variable {out : Nat → BitVec 8} {text piece : List (BitVec 8)} {max : BitVec 32} {c : BitVec 8} {s : Output}

theorem Writing.toNat_add (h : Writing out max.toNat text s) {n : Nat} (hn : text.length + n < 2 ^ 32) :
    (s.pos + BitVec.ofNat 32 n).toNat = text.length + n := by
  rw [BitVec.toNat_add, h.pos, BitVec.toNat_ofNat, Nat.add_mod_mod, Nat.mod_eq_of_lt hn]

theorem Writing.put (h : Writing out max.toNat text s) (hc : c ≠ 0) (hroom : text.length + 1 < max.toNat) :
    All (· < max.toNat) (put c s) ∧ Writing out max.toNat (text ++ [c]) (put c s).value := by
  have hpos := h.pos
  have hlen : (text ++ [c]).length = text.length + 1 := List.length_append
  refine ⟨all_bind.mpr ⟨all_note.mpr (hpos ▸ h.room), all_pure _⟩, ?_, hlen ▸ hroom, fun i hi => ?_, ?_, fun i hi => ?_⟩
  · rw [hlen]
    exact h.toNat_add (Nat.lt_trans hroom max.isLt)
  · show update s.out s.pos.toNat c i = _
    rw [hlen] at hi
    rcases Nat.lt_or_ge i text.length with hlt | hge
    · rw [update_of_ne (by omega), List.getElem_append_left hlt, h.chars i hlt]
    · obtain rfl : i = text.length := by omega
      rw [hpos, update_self, List.getElem_concat_length rfl]
  · exact fun e he => (List.mem_append.mp he).elim (h.nonzero e) fun he => List.mem_singleton.mp he ▸ hc
  · rw [hlen] at hi
    show update s.out s.pos.toNat c i = _
    rw [update_of_ne (by omega), h.kept i (by omega)]

theorem Writing.puts (h : Writing out max.toNat text s) (hne : ∀ c ∈ piece, c ≠ 0)
    (hroom : text.length + piece.length < max.toNat) :
    All (· < max.toNat) (puts piece s) ∧ Writing out max.toNat (text ++ piece) (puts piece s).value := by
  induction piece generalizing text s with
  | nil => exact ⟨all_pure s, (List.append_nil text).symm ▸ h⟩
  | cons c piece ih =>
    rw [List.length_cons] at hroom
    obtain ⟨hall, hput⟩ := h.put (hne c List.mem_cons_self) (by omega)
    obtain ⟨halls, hputs⟩ := ih hput (fun e he => hne e (List.mem_cons_of_mem c he))
      (by rw [List.length_append, List.length_singleton]; omega)
    rw [List.append_assoc] at hputs
    exact ⟨all_bind.mpr ⟨hall, halls⟩, hputs⟩

/-- An append adds a piece, provided that the index does not wrap around. -/
def Appends (out : Nat → BitVec 8) (max : Nat) (append : Output → Logged Nat Output) (piece : List (BitVec 8)) : Prop :=
  ∀ text s, Writing out max text s → text.length + piece.length < 2 ^ 32 →
    All (· < max) (append s) ∧ Writing out max (addPiece max text piece) (append s).value

theorem appends_of_puts {append : Output → Logged Nat Output} (hne : ∀ c ∈ piece, c ≠ 0)
    (heq : ∀ s, append s = if s.pos + BitVec.ofNat 32 piece.length < max then puts piece s else pure s) :
    Appends out max.toNat append piece := by
  intro text s h hlen
  have hroom : s.pos + BitVec.ofNat 32 piece.length < max ↔ text.length + piece.length < max.toNat := by
    rw [BitVec.lt_def, h.toNat_add hlen]
  rw [heq, addPiece]
  split
  · rename_i hlt
    rw [if_pos (hroom.mp hlt)]
    exact h.puts hne (hroom.mp hlt)
  · rename_i hge
    rw [if_neg fun hlt => hge (hroom.mpr hlt)]
    exact ⟨all_pure s, h⟩

theorem appendChar_appends (hc : c ≠ 0) : Appends out max.toNat (appendChar max c) [c] :=
  appends_of_puts (List.forall_mem_singleton.mpr hc) fun _ => rfl

theorem fixed_ne_zero {w n : Nat} (h : c ∈ Decimal.fixed w n) : c ≠ 0 := by
  obtain ⟨k, rfl⟩ := Decimal.eq_digit_of_mem_fixed h
  exact Decimal.digit_ne_zero k

theorem append2_appends (value : BitVec 32) :
    Appends out max.toNat (append2 max value) (Decimal.fixed 2 value.toNat) := by
  refine appends_of_puts (fun _ => fixed_ne_zero) fun s => ?_
  have hdigits : Decimal.fixed 2 value.toNat = [(0x30 + value / 10 % 10).setWidth 8,
      (0x30 + value % 10).setWidth 8] := by
    rw [Decimal.digit_setWidth (by decide), Decimal.digit_setWidth (by decide), BitVec.toNat_udiv]
    rfl
  rw [hdigits, append2, ← ite_not]
  simp only [BitVec.not_le]
  rfl

theorem append4_appends (value : BitVec 32) :
    Appends out max.toNat (append4 max value) (Decimal.fixed 4 value.toNat) := by
  refine appends_of_puts (fun _ => fixed_ne_zero) fun s => ?_
  have hdigits : Decimal.fixed 4 value.toNat = [(0x30 + value / 1000 % 10).setWidth 8,
    (0x30 + value / 100 % 10).setWidth 8,
      (0x30 + value / 10 % 10).setWidth 8, (0x30 + value % 10).setWidth 8] := by
    have hhundreds : value.toNat / 100 = value.toNat / 10 / 10 := by
      rw [Nat.div_div_eq_div_mul]
    have hthousands : value.toNat / 1000 = value.toNat / 10 / 10 / 10 := by
      rw [Nat.div_div_eq_div_mul, Nat.div_div_eq_div_mul]
    simp only [Decimal.digit_setWidth (show 8 ≤ 32 by decide), BitVec.toNat_udiv]
    show _ = [Decimal.digit (value.toNat / 1000), Decimal.digit (value.toNat / 100),
      Decimal.digit (value.toNat / 10), _]
    rw [hhundreds, hthousands]
    rfl
  rw [hdigits, append4, ← ite_not]
  simp only [BitVec.not_le]
  rfl

theorem runAppends_writing {fs : List (Output → Logged Nat Output)} {ps : List (List (BitVec 8))}
    (hfs : List.Forall₂ (Appends out max.toNat) fs ps) (h : Writing out max.toNat text s)
    (hlen : text.length + ps.flatten.length < 2 ^ 32) :
    All (· < max.toNat) (runAppends fs s) ∧ Writing out max.toNat (ps.foldl (addPiece max.toNat) text)
      (runAppends fs s).value := by
  induction hfs generalizing text s with
  | nil => exact ⟨all_pure s, h⟩
  | @cons f p fs ps hf hfs ih =>
    rw [List.flatten_cons, List.length_append] at hlen
    have hle := length_addPiece_le max.toNat text p
    obtain ⟨hall, hadd⟩ := hf text s h (by omega)
    obtain ⟨halls, hadds⟩ := ih hadd (by omega)
    exact ⟨all_bind.mpr ⟨hall, halls⟩, hadds⟩

theorem appends_pieces (dt : RtcDateTime) : List.Forall₂ (Appends out max.toNat) (appends dt max) (pieces dt) := by
  have hyear : Appends out max.toNat (append4 max (dt.year.setWidth 32)) (Decimal.fixed 4 dt.year.toNat) := by
    have hwide : (dt.year.setWidth 32).toNat = dt.year.toNat := BitVec.toNat_setWidth_of_le (by decide)
    exact hwide ▸ append4_appends _
  have hfield (v : BitVec 8) : Appends out max.toNat (append2 max (v.setWidth 32)) (Decimal.fixed 2 v.toNat) := by
    have hwide : (v.setWidth 32).toNat = v.toNat := BitVec.toNat_setWidth_of_le (by decide)
    exact hwide ▸ append2_appends _
  exact .cons hyear <| .cons (appendChar_appends (by decide)) <| .cons (hfield dt.month) <|
    .cons (appendChar_appends (by decide)) <|
    .cons (hfield dt.day) <| .cons (appendChar_appends (by decide)) <| .cons (hfield dt.hour) <|
      .cons (appendChar_appends (by decide)) <|
    .cons (hfield dt.minute) <| .cons (appendChar_appends (by decide)) <| .cons (hfield dt.second) .nil

theorem writing_nil (h : 0 < max) : Writing out max.toNat [] ⟨out, 0⟩ :=
  ⟨rfl, h, fun _ hi => absurd hi (Nat.not_lt_zero _), fun _ hc => absurd hc List.not_mem_nil, fun _ _ => rfl⟩

theorem Writing.holds (h : Writing out max.toNat text s) : Holds (update s.out s.pos.toNat 0) text where
  chars i hi := by
    rw [h.pos, update_of_ne (Nat.ne_of_lt hi), h.chars i hi]
  nonzero := h.nonzero
  ends := by rw [h.pos, update_self]

theorem Writing.behind (h : Writing out max.toNat text s) {i : Nat} (hi : text.length < i) :
    update s.out s.pos.toNat 0 i = out i := by
  rw [h.pos, update_of_ne (Nat.ne_of_gt hi), h.kept i (Nat.le_of_lt hi)]

end Appends

/-! ### The result -/

/-- `text` has been formatted into `out`: the indices are below `outLen`, the text ends with a NUL there, and nothing
    behind it changed. -/
structure Formatted (out : Nat → BitVec 8) (outLen : BitVec 32) (x : Logged Nat (Option (Nat → BitVec 8)))
    (text : List (BitVec 8)) :
    Prop where
  inside : All (· < outLen.toNat) x
  short : text.length < outLen.toNat
  holds : ∃ buf, x.value = some buf ∧ Holds buf text ∧ ∀ i, text.length < i → buf i = out i

/-- The text for a buffer of any size. -/
def formatText (outLen : BitVec 32) : Option RtcDateTime → List (BitVec 8)
  | none => []
  | some dt => (pieces dt).foldl (addPiece outLen.toNat) []

variable {outLen : BitVec 32}

theorem formatText_of_le (h : 20 ≤ outLen) (dt : RtcDateTime) : formatText outLen (some dt) = timestamp dt :=
  foldl_addPiece (Nat.lt_of_succ_le h)

theorem rtcFormat_formatted (dt : Option RtcDateTime) (out : Nat → BitVec 8) (h : 0 < outLen) :
    Formatted out outLen (rtcFormat dt (some out) outLen) (formatText outLen dt) := by
  have hne : outLen ≠ 0 := by
    rintro rfl
    exact absurd h (by decide)
  have hnil : Writing out outLen.toNat [] ⟨out, 0⟩ := writing_nil h
  unfold rtcFormat
  dsimp only
  rw [if_neg hne]
  cases dt with
  | none => exact ⟨all_bind.mpr ⟨all_note.mpr h, all_pure _⟩, h, _, rfl, hnil.holds, fun _ => hnil.behind⟩
  | some dt =>
    obtain ⟨hall, hwriting⟩ := runAppends_writing (appends_pieces dt) hnil (show 0 + 19 < 2 ^ 32 by decide)
    -- the appends leave room for the NUL, so the index is not cut
    have hroom : ¬outLen ≤ (runAppends (appends dt outLen) ⟨out, 0⟩).value.pos := by
      rw [BitVec.le_def, hwriting.pos]
      exact Nat.not_le_of_lt hwriting.room
    refine ⟨all_bind.mpr ⟨hall, ?_⟩, hwriting.room, _, rfl, ?_⟩
    · rw [if_neg hroom]
      exact all_bind.mpr ⟨all_note.mpr (hwriting.pos ▸ hwriting.room), all_pure _⟩
    · rw [if_neg hroom]
      exact ⟨hwriting.holds, fun _ => hwriting.behind⟩

/-- What is read back from the buffer. -/
def formatted (dt : RtcDateTime) (out : Nat → BitVec 8) (outLen : BitVec 32) : Option (List (BitVec 8)) :=
  (rtcFormat (some dt) (some out) outLen).value.map (read outLen.toNat)

theorem rtcFormat_timestamp (dt : RtcDateTime) (out : Nat → BitVec 8) (h : 20 ≤ outLen) :
    Formatted out outLen (rtcFormat (some dt) (some out) outLen) (timestamp dt) := by
  rw [← formatText_of_le h]
  exact rtcFormat_formatted (some dt) out (Nat.lt_of_lt_of_le (by decide : 0 < 20) h)

theorem formatted_eq (dt : RtcDateTime) (out : Nat → BitVec 8) (h : 20 ≤ outLen) :
    formatted dt out outLen = some (timestamp dt) := by
  have htext := rtcFormat_timestamp dt out h
  obtain ⟨buf, hbuf, hholds, -⟩ := htext.holds
  rw [formatted, hbuf, Option.map_some, hholds.read_eq htext.short]

/-- For every date and every buffer, `rtc_format` stays below `out_len` and leaves a string. With room for 20
    characters it is the timestamp, from whose columns the fields can be read, so that two dates with fields of that
    width are never formatted alike. -/
theorem timestamps_fit_and_read_back :
    (∀ dt out outLen, 0 < outLen → ∃ text, Formatted out outLen (rtcFormat dt (some out) outLen) text) ∧
    (∀ dt out outLen, Printable dt → 20 ≤ outLen → Formatted out outLen (rtcFormat (some dt) (some out) outLen)
      (timestamp dt) ∧
      (timestamp dt).length = 19 ∧ ofTimestamp (timestamp dt) = dt) ∧
    ∀ dt dt' out out' outLen outLen', Printable dt → Printable dt' → 20 ≤ outLen → 20 ≤ outLen' →
      formatted dt out outLen = formatted dt' out' outLen' → dt = dt' := by
  refine ⟨fun dt out outLen h => ⟨_, rtcFormat_formatted dt out h⟩,
    fun dt out outLen hp h => ⟨rtcFormat_timestamp dt out h, length_timestamp dt, ofTimestamp_timestamp hp⟩, ?_⟩
  intro dt dt' out out' outLen outLen' hp hp' h h' hsame
  rw [formatted_eq dt out h, formatted_eq dt' out' h'] at hsame
  rw [← ofTimestamp_timestamp hp, Option.some.inj hsame, ofTimestamp_timestamp hp']

/-- The last second of a leap day, in a buffer that is too short and in one of 32 characters. -/
theorem timestamps_fit_and_read_back_leap_day : Printable ⟨2024, 2, 29, 23, 59, 59⟩ ∧
    (∃ text, Formatted (fun _ => 0xFF) 5 (rtcFormat (some ⟨2024, 2, 29, 23, 59, 59⟩) (some fun _ => 0xFF) 5) text) ∧
    Formatted (fun _ => 0xFF) 32 (rtcFormat (some ⟨2024, 2, 29, 23, 59, 59⟩) (some fun _ => 0xFF) 32)
      (timestamp ⟨2024, 2, 29, 23, 59, 59⟩) ∧
    ofTimestamp (timestamp ⟨2024, 2, 29, 23, 59, 59⟩) = ⟨2024, 2, 29, 23, 59, 59⟩ := by
  have hp : Printable ⟨2024, 2, 29, 23, 59, 59⟩ := by constructor <;> decide
  obtain ⟨hfits, hback, -⟩ := timestamps_fit_and_read_back
  obtain ⟨hformat, -, hread⟩ := hback _ (fun _ => 0xFF) 32 hp (by decide)
  exact ⟨hp, hfits _ _ 5 (by decide), hformat, hread⟩

end Rtc
end SamOS
