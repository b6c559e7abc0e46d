import SamOS.Lib.CString
import SamOS.Lib.Lts
import Mathlib.Data.BitVec
import Mathlib.Data.List.Destutter

/-! The line editor and the command history of the shell (`shell.c`). The history keeps commands under absolute
    indices, of which slot `k % 16` holds the last one congruent to `k`, and a cursor that Up and Down move. What the
    shell prints, and what a command does beyond the line and the history, is left out. -/

namespace SamOS
open Function CString

def inputMax : Nat := 256
def historyMax : Int := 16
def kbEventUp : BitVec 8 := 0x11#8
def kbEventDown : BitVec 8 := 0x12#8

/-- The statics of `shell.c`. -/
structure Shell where
  inputBuf : Nat → BitVec 8
  inputLen : Nat
  inputOverflow : Bool
  history : Int → Nat → BitVec 8
  historyCount : Int
  historyCursor : Int

/-- The loop of `kstrcmp` from byte `i` on, over buffers whose strings end within `fuel` bytes. -/
def kstrcmpFrom (a b : Nat → BitVec 8) : Nat → Nat → Int
  | 0, i => (a i).toInt - (b i).toInt
  | fuel + 1, i =>
    if a i ≠ 0 ∧ b i ≠ 0 then
      if a i ≠ b i then (a i).toInt - (b i).toInt else kstrcmpFrom a b fuel (i + 1)
    else (a i).toInt - (b i).toInt

def kstrcmp (a b : Nat → BitVec 8) : Int := kstrcmpFrom a b inputMax 0

namespace Shell

def boot : Shell where
  inputBuf := fun _ => 0
  inputLen := 0
  inputOverflow := false
  history := fun _ _ => 0
  historyCount := 0
  historyCursor := -1

def clearTypedLine (s : Shell) : Shell := { s with inputLen := 0, inputBuf := update s.inputBuf 0 0 }

/-- `history_push` of a command that is not `NULL`. `history_count` is an `int`. -/
def historyPush (s : Shell) (cmd : Nat → BitVec 8) : Shell :=
  if cmd 0 = 0 then s
  else if 0 < s.historyCount ∧ kstrcmp (s.history ((s.historyCount - 1).tmod historyMax)) cmd = 0 then s
  else
    let idx := s.historyCount.tmod historyMax
    { s with
      history := update s.history idx (copyFrom cmd (inputMax - 1) 0 (s.history idx)).2
      historyCount := (s.historyCount + 1).bmod (2 ^ 32) }

/-- `oldest` of `history_apply`. -/
def oldest (s : Shell) : Int := if s.historyCount > historyMax then s.historyCount - historyMax else 0

def historyApply (s : Shell) (absoluteIndex : Int) : Shell :=
  if absoluteIndex < s.oldest ∨ s.historyCount ≤ absoluteIndex then s
  else
    let s := s.clearTypedLine
    let (len, buf) := copyFrom (s.history (absoluteIndex.tmod historyMax)) (inputMax - 1) s.inputLen s.inputBuf
    { s with inputLen := len, inputBuf := buf }

def handleHistoryUp (s : Shell) : Shell :=
  if s.historyCount ≤ 0 then s
  else
    let cursor := if s.historyCursor < 0 then s.historyCount - 1 else if 0 < s.historyCursor then s.historyCursor - 1
      else s.historyCursor
    { s with historyCursor := cursor }.historyApply cursor

def handleHistoryDown (s : Shell) : Shell :=
  if s.historyCount ≤ 0 ∨ s.historyCursor < 0 then s
  else if s.historyCount ≤ s.historyCursor + 1 then { s with historyCursor := -1 }.clearTypedLine
  else { s with historyCursor := s.historyCursor + 1 }.historyApply (s.historyCursor + 1)

def processCommand (s : Shell) : Shell :=
  let s := { s with inputBuf := update s.inputBuf s.inputLen 0 }
  let s := if 0 < s.inputLen then s.historyPush s.inputBuf else s
  { s with historyCursor := -1, inputLen := 0, inputOverflow := false }

/-- `c == '\n' || c == '\r'`. -/
def isEnter (c : BitVec 8) : Bool := c == 0x0A#8 || c == 0x0D#8

def eraseChar (s : Shell) : Shell :=
  if 0 < s.inputLen then { s with inputLen := s.inputLen - 1, inputBuf := update s.inputBuf (s.inputLen - 1) 0 } else s

def typeChar (s : Shell) (c : BitVec 8) : Shell :=
  if s.inputLen < inputMax - 1 then
    { s with inputLen := s.inputLen + 1, inputBuf := update (update s.inputBuf s.inputLen c) (s.inputLen + 1) 0 }
  else { s with inputOverflow := true }

/-- The loop body of `shell_task` for a character of the keyboard. -/
def key (s : Shell) (c : BitVec 8) : Shell :=
  if isEnter c then s.processCommand
  else if c = 0x08#8 then s.eraseChar
  else if c = kbEventUp then s.handleHistoryUp
  else if c = kbEventDown then s.handleHistoryDown
  else if 32 ≤ c.toInt ∧ c.toInt ≤ 126 then s.typeChar c
  else s

/-- The input line. -/
def line (s : Shell) : List (BitVec 8) := (List.range s.inputLen).map s.inputBuf

/-- The command in a slot. -/
def stored (s : Shell) (absoluteIndex : Int) : List (BitVec 8) :=
  read inputMax (s.history (absoluteIndex.tmod historyMax))

end Shell

/-- The shell, with the non-empty commands that were entered, last first. -/
structure ShellRun where
  shell : Shell
  entered : List (List (BitVec 8))

namespace ShellRun

def key (r : ShellRun) (c : BitVec 8) : ShellRun where
  shell := r.shell.key c
  entered := if Shell.isEnter c ∧ 0 < r.shell.inputLen then r.shell.line :: r.entered else r.entered

/-- The commands left after dropping immediate repeats, first one first. -/
def commands (r : ShellRun) : List (List (BitVec 8)) := (r.entered.destutter (· ≠ ·)).reverse

/-- The history keeps the last commands, at most 16, and the cursor is on one of them or nowhere. -/
structure Sound (r : ShellRun) : Prop where
  count : r.shell.historyCount = r.commands.length
  slots : ∀ k (h : k < r.commands.length), r.commands.length ≤ k + 16 → r.shell.stored k = r.commands[k]
  cursor : r.shell.historyCursor = -1 ∨ (max 0 (r.shell.historyCount - 16) ≤ r.shell.historyCursor ∧
    r.shell.historyCursor < r.shell.historyCount)

/-- The line shows the command at the cursor. -/
def Shows (r : ShellRun) : Prop := r.shell.historyCursor ≠ -1 → r.shell.line = r.shell.stored r.shell.historyCursor

/-- What one more key leads to. -/
def Answers (r : ShellRun) (c : BitVec 8) : Prop :=
  (r.key c).Sound ∧ ((c = kbEventUp ∨ c = kbEventDown) → (r.key c).Shows)

/-- Up on the oldest command that is kept, when others were dropped. -/
def UpAtOldest (r : ShellRun) (c : BitVec 8) : Prop :=
  c = kbEventUp ∧ 16 < r.shell.historyCount ∧ r.shell.historyCursor = r.shell.historyCount - 16

/-- Up is not pressed on the oldest command once others were dropped, and `history_count` does not overflow. -/
structure Steady (r : ShellRun) (c : BitVec 8) : Prop where
  up : ¬r.UpAtOldest c
  count : Shell.isEnter c = true → r.shell.historyCount < 2 ^ 31 - 1

end ShellRun

/-- The shell with the keys typed. -/
def shells : Lts.System ShellRun (BitVec 8) where
  init r := r = ⟨.boot, []⟩
  step r c r' := r' = r.key c

/-! ### Comparing strings -/

section Compare
variable {a b : Nat → BitVec 8} {l l' : List (BitVec 8)} (ha : Holds a l) (hb : Holds b l')
include ha hb

theorem sub_eq_zero_iff {i : Nat} (hi : i ≤ l.length) (hsame : ∀ j < i, a j = b j)
    (hz : a i = 0 ∨ b i = 0 ∨ a i ≠ b i) :
    (a i).toInt - (b i).toInt = 0 ↔ l = l' := by
  rw [Int.sub_eq_zero, BitVec.toInt_inj]
  constructor
  · intro he
    have h0 : a i = 0 := by
      rcases hz with h0 | h0 | hne
      · exact h0
      · exact he.trans h0
      · exact absurd he hne
    obtain rfl := (ha.eq_zero_iff hi).mp h0
    refine (ha.congr fun j hj => ?_).unique hb
    rcases Nat.lt_or_ge j l.length with hlt | hge
    · exact (hsame j hlt).symm
    · obtain rfl : j = l.length := by omega
      exact he.symm
  · rintro rfl
    rcases Nat.lt_or_ge i l.length with hlt | hge
    · exact (ha.chars i hlt).trans (hb.chars i hlt).symm
    · obtain rfl : i = l.length := by omega
      exact ha.ends.trans hb.ends.symm

theorem kstrcmpFrom_eq_zero_iff (fuel i : Nat) (hi : i ≤ l.length) (hn : l.length ≤ i + fuel)
    (hsame : ∀ j < i, a j = b j) :
    kstrcmpFrom a b fuel i = 0 ↔ l = l' := by
  induction fuel generalizing i with
  | zero => exact sub_eq_zero_iff ha hb hi hsame (Or.inl ((ha.eq_zero_iff hi).mpr (by omega)))
  | succ fuel ih =>
    unfold kstrcmpFrom
    by_cases hz : a i ≠ 0 ∧ b i ≠ 0
    · rw [if_pos hz]
      by_cases hne : a i ≠ b i
      · rw [if_pos hne]
        exact sub_eq_zero_iff ha hb hi hsame (Or.inr (Or.inr hne))
      · rw [if_neg hne]
        have hlt : i < l.length := Nat.lt_of_le_of_ne hi fun he => hz.1 ((ha.eq_zero_iff hi).mpr he)
        refine ih (i + 1) hlt (by omega) fun j hj => ?_
        rcases Nat.lt_or_ge j i with hlt | hge
        · exact hsame j hlt
        · obtain rfl : j = i := by omega
          exact not_not.mp hne
    · rw [if_neg hz]
      refine sub_eq_zero_iff ha hb hi hsame ?_
      by_cases h0 : a i = 0
      · exact Or.inl h0
      · exact Or.inr (Or.inl (by_contra fun hb0 => hz ⟨h0, hb0⟩))

theorem kstrcmp_eq_zero_iff (hl : l.length < inputMax) : kstrcmp a b = 0 ↔ l = l' :=
  kstrcmpFrom_eq_zero_iff ha hb inputMax 0 (Nat.zero_le _) (by omega) fun j hj => absurd hj (Nat.not_lt_zero j)

end Compare

namespace ShellRun
variable {r : ShellRun} {c : BitVec 8}

/-! ### The commands -/

theorem destutter_cons (l : List (BitVec 8)) (ls : List (List (BitVec 8))) :
    (l :: ls).destutter (· ≠ ·) = if ls.head? = some l then ls.destutter (· ≠ ·) else l :: ls.destutter (· ≠ ·) := by
  cases ls with
  | nil => rfl
  | cons l' ls =>
    rw [List.destutter_cons_cons, List.head?_cons]
    by_cases he : l' = l
    · subst he
      rw [if_neg (by simp), if_pos rfl]
      rfl
    · rw [if_pos (Ne.symm he), if_neg (by simpa using he)]
      rfl

theorem head?_destutter (ls : List (List (BitVec 8))) : (ls.destutter (· ≠ ·)).head? = ls.head? := by
  induction ls with
  | nil => rfl
  | cons l ls ih =>
    rw [destutter_cons]
    split
    · rename_i he
      rw [ih, he]
      rfl
    · rfl

/-! ### Steps -/

theorem tmod_historyMax (k : Nat) : (k : Int).tmod historyMax = ((k % 16 : Nat) : Int) := by
  rw [Int.tmod_eq_emod_of_nonneg (Int.natCast_nonneg k)]
  rfl

/-- What holds between two keys. -/
structure Inv (r : ShellRun) : Prop where
  len : r.shell.inputLen < inputMax
  typed : ∀ i < r.shell.inputLen, r.shell.inputBuf i ≠ 0
  count : r.shell.historyCount = r.commands.length
  bound : r.commands.length < 2 ^ 31
  slots : ∀ k (h : k < r.commands.length), r.commands.length ≤ k + 16 →
    Holds (r.shell.history ((k % 16 : Nat) : Int)) r.commands[k] ∧ r.commands[k].length < inputMax
  cursor : r.shell.historyCursor = -1 ∨ (max 0 (r.shell.historyCount - 16) ≤ r.shell.historyCursor ∧
    r.shell.historyCursor < r.shell.historyCount)

namespace Inv

theorem stored_eq (h : r.Inv) {k : Nat} (hk : k < r.commands.length) (hold : r.commands.length ≤ k + 16) :
    r.shell.stored k = r.commands[k] := by
  obtain ⟨hs, hlen⟩ := h.slots k hk hold
  unfold Shell.stored
  rw [tmod_historyMax]
  exact hs.read_eq hlen

theorem sound (h : r.Inv) : r.Sound := ⟨h.count, fun _ hk hold => h.stored_eq hk hold, h.cursor⟩

theorem edit (h : r.Inv) {s : Shell} (hh : s.history = r.shell.history) (hc : s.historyCount = r.shell.historyCount)
    (hlen : s.inputLen < inputMax) (htyped : ∀ i < s.inputLen, s.inputBuf i ≠ 0)
    (hcur : s.historyCursor = -1 ∨
      (max 0 (r.shell.historyCount - 16) ≤ s.historyCursor ∧ s.historyCursor < r.shell.historyCount)) :
    Inv ⟨s, r.entered⟩ :=
  ⟨hlen, htyped, hc.trans h.count, h.bound,
    fun k hk hold => by dsimp only; rw [hh]; exact h.slots k hk hold, by dsimp only; rw [hc]; exact hcur⟩

theorem typeChar (h : r.Inv) (hc : 32 ≤ c.toInt) : Inv ⟨r.shell.typeChar c, r.entered⟩ := by
  have hlen := h.len
  unfold Shell.typeChar
  split
  · rename_i hlt
    refine h.edit rfl rfl (show r.shell.inputLen + 1 < inputMax by omega) (fun i hi => ?_) h.cursor
    replace hi : i < r.shell.inputLen + 1 := hi
    show update (update r.shell.inputBuf r.shell.inputLen c) (r.shell.inputLen + 1) 0 i ≠ 0
    rw [update_of_ne (by omega)]
    by_cases he : i = r.shell.inputLen
    · rw [he, update_self]
      rintro rfl
      exact absurd hc (by decide)
    · rw [update_of_ne he]
      exact h.typed i (by omega)
  · exact h.edit rfl rfl h.len h.typed h.cursor

theorem eraseChar (h : r.Inv) : Inv ⟨r.shell.eraseChar, r.entered⟩ := by
  have hlen := h.len
  unfold Shell.eraseChar
  split
  · refine h.edit rfl rfl (show r.shell.inputLen - 1 < inputMax by omega) (fun i hi => ?_) h.cursor
    replace hi : i < r.shell.inputLen - 1 := hi
    show update r.shell.inputBuf (r.shell.inputLen - 1) 0 i ≠ 0
    rw [update_of_ne (by omega)]
    exact h.typed i (by omega)
  · exact h

theorem historyApply (h : r.Inv) {k : Nat} (hk : k < r.commands.length) (hold : r.commands.length ≤ k + 16) :
    Inv ⟨{ r.shell with historyCursor := k }.historyApply k, r.entered⟩ ∧
    Shows ⟨{ r.shell with historyCursor := k }.historyApply k, r.entered⟩ := by
  obtain ⟨hslot, hlen⟩ := h.slots k hk hold
  have hcount := h.count
  have hin : ¬((k : Int) < { r.shell with historyCursor := k }.oldest ∨ r.shell.historyCount ≤ k) := by
    unfold Shell.oldest historyMax
    dsimp only
    split <;> omega
  obtain ⟨hlast, hholds⟩ := copyFrom_spec hslot (inputMax - 1) 0 (update r.shell.inputBuf 0 0)
    (Nat.zero_le _) (by omega)
    fun j hj => absurd hj (Nat.not_lt_zero j)
  have happly : { r.shell with historyCursor := k }.historyApply k =
      { r.shell with
        historyCursor := k
        inputLen := (copyFrom (r.shell.history ((k % 16 : Nat) : Int)) (inputMax - 1) 0
          (update r.shell.inputBuf 0 0)).1
        inputBuf := (copyFrom (r.shell.history ((k % 16 : Nat) : Int)) (inputMax - 1) 0
          (update r.shell.inputBuf 0 0)).2 } := by
    unfold Shell.historyApply
    rw [if_neg hin, tmod_historyMax]
    rfl
  rw [happly]
  generalize copyFrom (r.shell.history ((k % 16 : Nat) : Int)) (inputMax - 1) 0
    (update r.shell.inputBuf 0 0) = copied at hlast hholds
  obtain ⟨len, buf⟩ := copied
  dsimp only at hlast hholds
  subst hlast
  refine ⟨h.edit rfl rfl hlen (fun i hi => ?_) (Or.inr ?_), fun _ => ?_⟩
  · dsimp only at hi ⊢
    rw [hholds.chars i hi]
    exact hholds.nonzero _ (List.getElem_mem hi)
  · dsimp only
    omega
  · show (List.range r.commands[k].length).map buf = r.shell.stored k
    rw [hholds.map_range, h.stored_eq hk hold]

theorem handleHistoryUp (h : r.Inv)
    (hup : ¬(16 < r.shell.historyCount ∧ r.shell.historyCursor = r.shell.historyCount - 16)) :
    Inv ⟨r.shell.handleHistoryUp, r.entered⟩ ∧ Shows ⟨r.shell.handleHistoryUp, r.entered⟩ := by
  have hcount := h.count
  unfold Shell.handleHistoryUp
  by_cases h0 : r.shell.historyCount ≤ 0
  · rw [if_pos h0]
    refine ⟨h, fun hne => ?_⟩
    rcases h.cursor with hc | ⟨h1, h2⟩
    · exact absurd hc hne
    · omega
  · rw [if_neg h0]
    have hcur := h.cursor
    -- the command before the cursor, or the last one
    obtain ⟨k, hk, hlt, hold⟩ : ∃ k : Nat, (if r.shell.historyCursor < 0 then r.shell.historyCount - 1
        else if 0 < r.shell.historyCursor then r.shell.historyCursor - 1 else r.shell.historyCursor) = k ∧
        k < r.commands.length ∧ r.commands.length ≤ k + 16 := by
      split
      · exact ⟨r.commands.length - 1, by omega, by omega, by omega⟩
      · split
        · exact ⟨(r.shell.historyCursor - 1).toNat, by omega, by omega, by omega⟩
        · exact ⟨r.shell.historyCursor.toNat, by omega, by omega, by omega⟩
    dsimp only
    rw [hk]
    exact h.historyApply hlt hold

theorem handleHistoryDown (h : r.Inv) :
    Inv ⟨r.shell.handleHistoryDown, r.entered⟩ ∧ Shows ⟨r.shell.handleHistoryDown, r.entered⟩ := by
  have hcount := h.count
  have hcur := h.cursor
  unfold Shell.handleHistoryDown
  by_cases h0 : r.shell.historyCount ≤ 0 ∨ r.shell.historyCursor < 0
  · rw [if_pos h0]
    refine ⟨h, fun hne => ?_⟩
    rcases hcur with hc | ⟨h1, h2⟩
    · exact absurd hc hne
    · omega
  rw [if_neg h0]
  by_cases hlast : r.shell.historyCount ≤ r.shell.historyCursor + 1
  · rw [if_pos hlast]
    exact ⟨h.edit rfl rfl (show 0 < inputMax by decide) (fun i hi => absurd hi (Nat.not_lt_zero i)) (Or.inl rfl),
      fun hne => absurd rfl hne⟩
  · rw [if_neg hlast]
    obtain ⟨k, hk, hlt, hold⟩ :
        ∃ k : Nat, r.shell.historyCursor + 1 = k ∧ k < r.commands.length ∧ r.commands.length ≤ k + 16 :=
      ⟨(r.shell.historyCursor + 1).toNat, by omega, by omega, by omega⟩
    rw [hk]
    exact h.historyApply hlt hold

theorem holds_line (h : r.Inv) : Holds (update r.shell.inputBuf r.shell.inputLen 0) r.shell.line := by
  have hlen : r.shell.line.length = r.shell.inputLen := by simp [Shell.line]
  refine ⟨fun i hi => ?_, fun c hc => ?_, by rw [hlen, update_self]⟩
  · rw [hlen] at hi
    rw [update_of_ne (by omega)]
    simp [Shell.line]
  · obtain ⟨i, hi, rfl⟩ := List.mem_map.mp hc
    exact h.typed i (List.mem_range.mp hi)

/-- `history_push` compares the line with the command entered before. -/
theorem repeats_iff (h : r.Inv) : (0 < r.shell.historyCount ∧
      kstrcmp (r.shell.history ((r.shell.historyCount - 1).tmod historyMax))
        (update r.shell.inputBuf r.shell.inputLen 0) = 0) ↔
    r.entered.head? = some r.shell.line := by
  have hcount := h.count
  have hhead : r.commands.getLast? = r.entered.head? := by
    unfold commands
    rw [List.getLast?_reverse, head?_destutter]
  rw [← hhead]
  rcases Nat.eq_zero_or_pos r.commands.length with h0 | h0
  · have hnil := List.length_eq_zero_iff.mp h0
    rw [hnil]
    constructor
    · rintro ⟨hpos, -⟩
      omega
    · intro he
      cases he
  · obtain ⟨hs, hlen⟩ := h.slots (r.commands.length - 1) (by omega) (by omega)
    have hidx : r.shell.historyCount - 1 = ((r.commands.length - 1 : Nat) : Int) := by omega
    rw [hidx, tmod_historyMax, kstrcmp_eq_zero_iff hs h.holds_line hlen, List.getLast?_eq_getElem?,
      List.getElem?_eq_getElem (by omega), Option.some_inj]
    exact ⟨fun hp => hp.2, fun he => ⟨by omega, he⟩⟩

theorem commands_enter (l : List (BitVec 8)) (ls : List (List (BitVec 8))) (s s' : Shell) : commands ⟨s, l :: ls⟩ =
    if ls.head? = some l then commands ⟨s', ls⟩ else commands ⟨s', ls⟩ ++ [l] := by
  unfold commands
  dsimp only
  rw [destutter_cons]
  split
  · rfl
  · rw [List.reverse_cons]

theorem enter_again (h : r.Inv) (hrep : r.entered.head? = some r.shell.line) :
    Inv ⟨r.shell, r.shell.line :: r.entered⟩ := by
  have hc : commands ⟨r.shell, r.shell.line :: r.entered⟩ = r.commands := by
    rw [commands_enter _ _ _ r.shell, if_pos hrep]
  refine ⟨h.len, h.typed, by rw [hc]; exact h.count, by rw [hc]; exact h.bound, fun k hk hold => ?_, h.cursor⟩
  simp only [hc] at hk hold ⊢
  exact h.slots k hk hold

theorem enter_new (h : r.Inv) (hnew : r.entered.head? ≠ some r.shell.line) (hlt : r.shell.historyCount < 2 ^ 31 - 1)
    {buf : Nat → BitVec 8} (hbuf : Holds buf r.shell.line) :
    Inv ⟨{ r.shell with
      history := update r.shell.history (r.shell.historyCount.tmod historyMax) buf
      historyCount := (r.shell.historyCount + 1).bmod (2 ^ 32)
      historyCursor := -1 }, r.shell.line :: r.entered⟩ := by
  have hcount := h.count
  have hlen : r.shell.line.length < inputMax := by
    have := h.len
    simpa [Shell.line] using this
  have hc (s : Shell) : commands ⟨s, r.shell.line :: r.entered⟩ = r.commands ++ [r.shell.line] := by
    rw [commands_enter _ _ _ r.shell, if_neg hnew]
  refine ⟨h.len, h.typed, ?_, ?_, fun k hk hold => ?_, Or.inl rfl⟩
  · dsimp only
    rw [hc, List.length_append, hcount, Int.bmod_eq_of_le (by omega) (by omega)]
    rfl
  · rw [hc, List.length_append, List.length_singleton]
    omega
  · simp only [hc, List.length_append, List.length_singleton] at hk hold ⊢
    rw [hcount, tmod_historyMax]
    by_cases hlast : k = r.commands.length
    · subst hlast
      rw [update_self, List.getElem_append_right (Nat.le_refl _)]
      simpa using ⟨hbuf, hlen⟩
    · rw [update_of_ne (by omega), List.getElem_append_left (by omega)]
      exact h.slots k (by omega) (by omega)

theorem processCommand (h : r.Inv) (hlt : r.shell.historyCount < 2 ^ 31 - 1) :
    Inv ⟨r.shell.processCommand, if 0 < r.shell.inputLen then r.shell.line :: r.entered else r.entered⟩ := by
  have hzero {r : ShellRun} (h : r.Inv) (buf : Nat → BitVec 8) :
      Inv ⟨{ r.shell with inputBuf := buf, historyCursor := -1, inputLen := 0, inputOverflow := false }, r.entered⟩ :=
    h.edit rfl rfl (show 0 < inputMax by decide) (fun i hi => absurd hi (Nat.not_lt_zero i)) (Or.inl rfl)
  unfold Shell.processCommand
  dsimp only
  by_cases hpos : 0 < r.shell.inputLen
  · rw [if_pos hpos, if_pos hpos]
    have hfirst : update r.shell.inputBuf r.shell.inputLen 0 0 ≠ 0 := by
      rw [update_of_ne (by omega)]
      exact h.typed 0 hpos
    have hlen : r.shell.line.length ≤ 0 + (inputMax - 1) := by
      have := h.len
      simp only [Shell.line, List.length_map, List.length_range]
      omega
    unfold Shell.historyPush
    dsimp only
    rw [if_neg hfirst]
    by_cases hrep : r.entered.head? = some r.shell.line
    · rw [if_pos (h.repeats_iff.mpr hrep)]
      exact hzero (h.enter_again hrep) _
    · rw [if_neg fun hc => hrep (h.repeats_iff.mp hc)]
      have hcopy := (copyFrom_spec h.holds_line (inputMax - 1) 0
        (r.shell.history (r.shell.historyCount.tmod historyMax)) (Nat.zero_le _) hlen fun j hj =>
          absurd hj (Nat.not_lt_zero j)).2
      exact hzero (h.enter_new hrep hlt hcopy) _
  · rw [if_neg hpos, if_neg hpos]
    exact hzero h _

end Inv

theorem key_of_not_enter (hc : Shell.isEnter c = false) : r.key c = ⟨r.shell.key c, r.entered⟩ := by
  unfold key
  rw [if_neg (by simp [hc])]

theorem key_enter (hc : Shell.isEnter c = true) :
    r.key c = ⟨r.shell.processCommand, if 0 < r.shell.inputLen then r.shell.line :: r.entered else r.entered⟩ := by
  unfold key Shell.key
  simp [hc]

theorem key_up : r.key kbEventUp = ⟨r.shell.handleHistoryUp, r.entered⟩ := key_of_not_enter rfl

theorem key_down : r.key kbEventDown = ⟨r.shell.handleHistoryDown, r.entered⟩ := key_of_not_enter rfl

theorem Inv.key (h : r.Inv) (hok : r.Steady c) :
    (r.key c).Inv ∧ ((c = kbEventUp ∨ c = kbEventDown) → (r.key c).Shows) := by
  by_cases hup : c = kbEventUp
  · subst hup
    rw [key_up]
    obtain ⟨hinv, hshows⟩ := h.handleHistoryUp fun hc => hok.up ⟨rfl, hc⟩
    exact ⟨hinv, fun _ => hshows⟩
  by_cases hdown : c = kbEventDown
  · subst hdown
    rw [key_down]
    obtain ⟨hinv, hshows⟩ := h.handleHistoryDown
    exact ⟨hinv, fun _ => hshows⟩
  refine ⟨?_, fun he => by rcases he with he | he <;> contradiction⟩
  by_cases henter : Shell.isEnter c = true
  · rw [key_enter henter]
    exact h.processCommand (hok.count henter)
  · rw [key_of_not_enter (by simpa using henter)]
    unfold Shell.key
    rw [if_neg henter, if_neg hup, if_neg hdown]
    split
    · exact h.eraseChar
    · split
      · rename_i hprint
        exact h.typeChar hprint.1
      · exact h

theorem Inv.of_reachable (h : (shells.guard Steady).Reachable r) : r.Inv := by
  refine h.invariant ?_ ?_
  · rintro r rfl
    exact ⟨by decide, fun i hi => absurd hi (Nat.not_lt_zero i), rfl, by decide,
      fun k hk => absurd hk (Nat.not_lt_zero k), Or.inl rfl⟩
  · rintro r c r' hinv ⟨hok, rfl⟩
    exact (hinv.key hok).1

/-- Up on the oldest command moves the cursor off the commands that are kept. -/
theorem key_upAtOldest (h : r.UpAtOldest c) : (r.key c).shell.historyCursor = r.shell.historyCount - 17 ∧
    (r.key c).shell.historyCount = r.shell.historyCount := by
  obtain ⟨rfl, hmany, hcur⟩ := h
  rw [key_up]
  unfold Shell.handleHistoryUp
  have hcursor : (if r.shell.historyCursor < 0 then r.shell.historyCount - 1
      else if 0 < r.shell.historyCursor then r.shell.historyCursor - 1 else r.shell.historyCursor) =
        r.shell.historyCount - 17 := by
    rw [if_neg (by omega), if_pos (by omega)]
    omega
  have hout : r.shell.historyCount - 17 < { r.shell with historyCursor := r.shell.historyCount - 17 }.oldest := by
    unfold Shell.oldest historyMax
    rw [if_pos hmany]
    dsimp only
    omega
  rw [if_neg (by omega)]
  dsimp only
  rw [hcursor]
  unfold Shell.historyApply
  rw [if_pos (Or.inl hout)]
  exact ⟨rfl, rfl⟩

end ShellRun

/-- In every run in which Up is not pressed on the oldest command once others were dropped, the history keeps the last
    commands, and one more key keeps it so, with the command at the cursor on the line after Up and Down, exactly if
    it is not such an Up. -/
theorem history_navigates_iff {r : ShellRun} (h : (shells.guard ShellRun.Steady).Reachable r) :
    r.Sound ∧ ∀ c, (Shell.isEnter c = true → r.shell.historyCount < 2 ^ 31 - 1) → (r.Answers c ↔ ¬r.UpAtOldest c) := by
  have hinv := ShellRun.Inv.of_reachable h
  refine ⟨hinv.sound, fun c hc => ⟨fun ha hup => ?_, fun hup => ?_⟩⟩
  · obtain ⟨hcur, hcount⟩ := ShellRun.key_upAtOldest hup
    have hmany := hup.2.1
    rcases ha.1.cursor with hne | ⟨hlo, -⟩
    · rw [hcur] at hne
      omega
    · rw [hcur, hcount] at hlo
      omega
  · obtain ⟨hinv', hshows⟩ := hinv.key ⟨hup, hc⟩
    exact ⟨hinv'.sound, hshows⟩

/-- A command `a`, then Up. -/
theorem history_navigates_one :
    ∃ r, (shells.guard ShellRun.Steady).Reachable r ∧ r.shell.historyCount = 1 ∧ r.Answers kbEventUp := by
  have hinit : (shells.guard ShellRun.Steady).Reachable ⟨.boot, []⟩ := .init rfl
  have htyped := hinit.step (e := 0x61#8) (t := ShellRun.key ⟨.boot, []⟩ 0x61#8)
    ⟨⟨fun h => absurd h.1 (by decide), by decide⟩, rfl⟩
  have hentered := htyped.step (e := 0x0A#8) (t := ShellRun.key (ShellRun.key ⟨.boot, []⟩ 0x61#8) 0x0A#8)
    ⟨⟨fun h => absurd h.1 (by decide), by decide⟩, rfl⟩
  refine ⟨_, hentered, by decide, ((history_navigates_iff hentered).2 kbEventUp (by decide)).mpr fun h => absurd h.2.1
    (by decide)⟩

namespace ShellRun

theorem reachable_foldl (keys : List (BitVec 8)) {r : ShellRun} (h : shells.Reachable r) :
    shells.Reachable (keys.foldl key r) := by
  induction keys generalizing r with
  | nil => exact h
  | cons c keys ih => exact ih (h.step (e := c) rfl)

end ShellRun

/-- The keys of 17 commands of one letter each, and 17 times Up. -/
def seventeenCommands : List (BitVec 8) :=
  ((List.range 17).flatMap fun i => [BitVec.ofNat 8 (0x61 + i), 0x0A#8]) ++ List.replicate 17 kbEventUp

/-- The cursor is on index 0, which is no longer kept. -/
theorem history_cursor_leaves :
    ∃ r, shells.Reachable r ∧ r.shell.historyCount = 17 ∧ r.shell.historyCursor = 0 ∧ ¬r.Sound := by
  have hr := ShellRun.reachable_foldl seventeenCommands (r := ⟨.boot, []⟩) (.init rfl)
  have hcount : (seventeenCommands.foldl ShellRun.key ⟨.boot, []⟩).shell.historyCount = 17 := by decide +kernel
  have hcursor : (seventeenCommands.foldl ShellRun.key ⟨.boot, []⟩).shell.historyCursor = 0 := by decide +kernel
  refine ⟨_, hr, hcount, hcursor, fun h => ?_⟩
  rcases h.cursor with hne | ⟨hlo, -⟩
  · rw [hcursor] at hne
    cases hne
  · rw [hcursor, hcount] at hlo
    exact absurd hlo (by decide)

end SamOS
