import SamOS.ShellHistory

/-! The line editor of the shell against an editor of strings: a line is a string of at most 255 characters, the
    history keeps strings, and a key changes the line as a whole. The buffers of the shell hold what the editor has,
    after every sequence of keys. -/

namespace SamOS
open Function CString

/-- A string that fits the input buffer with its terminating zero. -/
@[ext] structure Line where
  chars : List (BitVec 8)
  short : chars.length < inputMax
  nonzero : ∀ c ∈ chars, c ≠ 0
  deriving DecidableEq

namespace Line

def empty : Line := ⟨[], by decide, fun _ h => absurd h List.not_mem_nil⟩

theorem nonzero_append (l : Line) {c : BitVec 8} (hc : c ≠ 0) : ∀ e ∈ l.chars ++ [c], e ≠ 0 := by
  intro e he
  rcases List.mem_append.mp he with he | he
  · exact l.nonzero e he
  · rw [List.mem_singleton.mp he]
    exact hc

/-- One more character, as long as there is room. -/
def append (l : Line) (c : BitVec 8) (hc : c ≠ 0) : Line :=
  if h : (l.chars ++ [c]).length < inputMax then ⟨l.chars ++ [c], h, l.nonzero_append hc⟩ else l

theorem short_dropLast (l : Line) : l.chars.dropLast.length < inputMax := by
  rw [List.length_dropLast]
  exact Nat.lt_of_le_of_lt (Nat.sub_le _ 1) l.short

/-- The line without its last character. -/
def dropLast (l : Line) : Line :=
  ⟨l.chars.dropLast, l.short_dropLast, fun e he => l.nonzero e (List.dropLast_subset l.chars he)⟩

end Line

/-- The line, and the commands that can be recalled: command `k` is in slot `k` modulo 16. -/
structure Editor where
  line : Line
  slots : Int → Line
  count : Int
  cursor : Int

namespace Editor

def start : Editor := ⟨.empty, fun _ => .empty, 0, -1⟩

/-- The command `k` is one of the last 16. -/
def Recalls (e : Editor) (k : Int) : Prop :=
  (if e.count > historyMax then e.count - historyMax else 0) ≤ k ∧ k < e.count

instance (e : Editor) (k : Int) : Decidable (e.Recalls k) := inferInstanceAs (Decidable (_ ∧ _))

/-- The cursor goes to `k`, and the line becomes the command there, if there is one. -/
def goTo (e : Editor) (k : Int) : Editor :=
  if e.Recalls k then { e with cursor := k, line := e.slots (k.tmod historyMax) } else { e with cursor := k }

def up (e : Editor) : Editor :=
  if e.count ≤ 0 then e else e.goTo (if e.cursor < 0 then e.count - 1 else if 0 < e.cursor then e.cursor - 1
    else e.cursor)

def down (e : Editor) : Editor :=
  if e.count ≤ 0 ∨ e.cursor < 0 then e
  else if e.count ≤ e.cursor + 1 then { e with cursor := -1, line := .empty }
  else e.goTo (e.cursor + 1)

/-- The line is remembered, unless it is empty or the last command again. -/
def remember (e : Editor) : Editor :=
  if e.line = .empty ∨ (0 < e.count ∧ e.slots ((e.count - 1).tmod historyMax) = e.line) then e
  else { e with slots := update e.slots (e.count.tmod historyMax) e.line, count := (e.count + 1).bmod (2 ^ 32) }

def enter (e : Editor) : Editor := { e.remember with line := .empty, cursor := -1 }

theorem ne_zero_of_printable {c : BitVec 8} (h : 32 ≤ c.toInt ∧ c.toInt ≤ 126) : c ≠ 0 := by
  rintro rfl
  exact absurd h.1 (by decide)

def key (e : Editor) (c : BitVec 8) : Editor :=
  if Shell.isEnter c then e.enter
  else if c = 0x08#8 then { e with line := e.line.dropLast }
  else if c = kbEventUp then e.up
  else if c = kbEventDown then e.down
  else if h : 32 ≤ c.toInt ∧ c.toInt ≤ 126 then { e with line := e.line.append c (ne_zero_of_printable h) }
  else e

end Editor

namespace Shell

/-- The buffer that `process_command` looks at. -/
def commandBuf (s : Shell) : Nat → BitVec 8 := update s.inputBuf s.inputLen 0

/-- The buffers of the shell hold the strings of the editor. -/
structure Refines (s : Shell) (e : Editor) : Prop where
  line : s.line = e.line.chars
  slots : ∀ i, Holds (s.history i) (e.slots i).chars
  count : s.historyCount = e.count
  cursor : s.historyCursor = e.cursor

theorem length_line (s : Shell) : s.line.length = s.inputLen := by
  unfold line
  rw [List.length_map, List.length_range]

theorem map_range_update (buf : Nat → BitVec 8) {n i : Nat} (h : n ≤ i) (c : BitVec 8) :
    (List.range n).map (update buf i c) = (List.range n).map buf :=
  List.map_congr_left fun _ hj => update_of_ne (Nat.ne_of_lt (Nat.lt_of_lt_of_le (List.mem_range.mp hj) h)) ..

namespace Refines
variable {s : Shell} {e : Editor}

theorem length (h : s.Refines e) : s.inputLen = e.line.chars.length := by rw [← h.line, length_line]

theorem typeChar (h : s.Refines e) {c : BitVec 8} (hc : c ≠ 0) :
    (s.typeChar c).Refines { e with line := e.line.append c hc } := by
  unfold Shell.typeChar Line.append
  by_cases hroom : s.inputLen < inputMax - 1
  · rw [if_pos hroom, dif_pos (by rw [List.length_append, ← h.length]; exact Nat.succ_lt_succ hroom)]
    refine ⟨?_, h.slots, h.count, h.cursor⟩
    show (List.range (s.inputLen + 1)).map _ = e.line.chars ++ [c]
    rw [map_range_update _ (Nat.le_refl _), List.range_succ, List.map_append,
      map_range_update _ (Nat.le_refl _), ← h.line]
    show _ ++ [update s.inputBuf s.inputLen c s.inputLen] = _
    rw [update_self]
    rfl
  · rw [if_neg hroom, dif_neg fun hlt =>
      hroom (by rw [List.length_append, ← h.length] at hlt; exact Nat.lt_of_succ_lt_succ hlt)]
    exact ⟨h.line, h.slots, h.count, h.cursor⟩

theorem eraseChar (h : s.Refines e) : s.eraseChar.Refines { e with line := e.line.dropLast } := by
  have hlen := h.length
  unfold Shell.eraseChar
  by_cases hpos : 0 < s.inputLen
  · rw [if_pos hpos]
    refine ⟨?_, h.slots, h.count, h.cursor⟩
    show (List.range (s.inputLen - 1)).map _ = e.line.chars.dropLast
    rw [map_range_update _ (Nat.le_refl _), ← h.line]
    unfold Shell.line
    obtain ⟨n, hn⟩ : ∃ n, s.inputLen = n + 1 := Nat.exists_eq_add_one.mpr hpos
    rw [hn, List.range_succ, List.map_append, List.map_singleton, List.dropLast_concat, Nat.add_sub_cancel]
  · rw [if_neg hpos]
    refine ⟨?_, h.slots, h.count, h.cursor⟩
    have hnil : e.line.chars = [] := List.length_eq_zero_iff.mp (by omega)
    show s.line = e.line.chars.dropLast
    rw [h.line, hnil]
    rfl

theorem clear (h : s.Refines e) (cursor : Int) :
    ({ s with historyCursor := cursor }.clearTypedLine).Refines { e with cursor, line := .empty } :=
  ⟨rfl, h.slots, h.count, rfl⟩

theorem recalls_iff (h : s.Refines e) (k : Int) : e.Recalls k ↔ ¬(k < s.oldest ∨ s.historyCount ≤ k) := by
  unfold Editor.Recalls Shell.oldest
  rw [h.count, not_or, Int.not_lt, Int.not_le]

theorem goTo (h : s.Refines e) (k : Int) : ({ s with historyCursor := k }.historyApply k).Refines (e.goTo k) := by
  unfold Editor.goTo
  by_cases hk : e.Recalls k
  · have hin : ¬(k < { s with historyCursor := k }.oldest ∨ s.historyCount ≤ k) := (h.recalls_iff k).mp hk
    have hshort := (e.slots (k.tmod historyMax)).short
    obtain ⟨hlast, hholds⟩ := copyFrom_spec (h.slots (k.tmod historyMax)) (inputMax - 1) 0
      (update s.inputBuf 0 0) (Nat.zero_le _)
      (by omega) fun j hj => absurd hj (Nat.not_lt_zero j)
    unfold Shell.historyApply
    rw [if_pos hk, if_neg hin]
    refine ⟨?_, h.slots, h.count, rfl⟩
    show (List.range (copyFrom (s.history (k.tmod historyMax)) (inputMax - 1) 0 (update s.inputBuf 0 0)).1).map
      (copyFrom (s.history (k.tmod historyMax)) (inputMax - 1) 0 (update s.inputBuf 0 0)).2 = _
    rw [hlast, hholds.map_range]
  · have hout : k < { s with historyCursor := k }.oldest ∨ s.historyCount ≤ k :=
      not_not.mp (mt (h.recalls_iff k).mpr hk)
    unfold Shell.historyApply
    rw [if_neg hk, if_pos hout]
    exact ⟨h.line, h.slots, h.count, rfl⟩

theorem up (h : s.Refines e) : s.handleHistoryUp.Refines e.up := by
  unfold Shell.handleHistoryUp Editor.up
  rw [← h.count, ← h.cursor]
  by_cases h0 : s.historyCount ≤ 0
  · rw [if_pos h0, if_pos h0]
    exact h
  · rw [if_neg h0, if_neg h0]
    exact h.goTo _

theorem down (h : s.Refines e) : s.handleHistoryDown.Refines e.down := by
  have hdown : e.down = if s.historyCount ≤ 0 ∨ s.historyCursor < 0 then e
      else if s.historyCount ≤ s.historyCursor + 1 then { e with cursor := -1, line := .empty }
        else e.goTo (s.historyCursor + 1) := by
    rw [h.count, h.cursor]
    rfl
  unfold Shell.handleHistoryDown
  rw [hdown]
  split
  · exact h
  split
  · exact h.clear (-1)
  · exact h.goTo _

/-- What `process_command` looks at is the line. -/
theorem holds_commandBuf (h : s.Refines e) : Holds s.commandBuf e.line.chars := by
  have hlen := h.length
  unfold commandBuf
  refine ⟨fun i hi => ?_, e.line.nonzero, by rw [← hlen, update_self]⟩
  rw [update_of_ne (by omega)]
  have hget : s.line[i]? = e.line.chars[i]? := by rw [h.line]
  unfold Shell.line at hget
  rw [List.getElem?_map, List.getElem?_range (by omega), List.getElem?_eq_getElem hi] at hget
  exact Option.some.inj hget

theorem remember (h : s.Refines e) {buf : Nat → BitVec 8} (hbuf : Holds buf e.line.chars) :
    (s.historyPush buf).Refines e.remember := by
  have hempty : e.line = .empty ↔ buf 0 = 0 := by
    rw [hbuf.eq_zero_iff (Nat.zero_le _), Line.ext_iff]
    exact List.length_eq_zero_iff.symm.trans eq_comm
  have hsame : 0 < s.historyCount ∧ kstrcmp (s.history ((s.historyCount - 1).tmod historyMax)) buf = 0 ↔
      0 < e.count ∧ e.slots ((e.count - 1).tmod historyMax) = e.line := by
    rw [h.count, kstrcmp_eq_zero_iff (h.slots _) hbuf (Line.short _), Line.ext_iff]
  unfold Shell.historyPush Editor.remember
  by_cases h0 : buf 0 = 0
  · rw [if_pos h0, if_pos (Or.inl (hempty.mpr h0))]
    exact h
  by_cases hrep : 0 < e.count ∧ e.slots ((e.count - 1).tmod historyMax) = e.line
  · rw [if_neg h0, if_pos (hsame.mpr hrep), if_pos (Or.inr hrep)]
    exact h
  rw [if_neg h0, if_neg (mt hsame.mp hrep), if_neg (not_or.mpr ⟨mt hempty.mp h0, hrep⟩)]
  refine ⟨h.line, fun i => ?_, congrArg (fun n => (n + 1).bmod (2 ^ 32)) h.count, h.cursor⟩
  have hshort := e.line.short
  dsimp only
  rw [h.count]
  by_cases hi : i = e.count.tmod historyMax
  · rw [hi, update_self, update_self]
    exact (copyFrom_spec hbuf (inputMax - 1) 0 _ (Nat.zero_le _) (by omega) fun j hj => absurd hj (Nat.not_lt_zero j)).2
  · rw [update_of_ne hi, update_of_ne hi]
    exact h.slots i

theorem remember_of_empty (hline : e.line = .empty) : e.remember = e := if_pos (Or.inl hline)

theorem enter (h : s.Refines e) : s.processCommand.Refines e.enter := by
  have hbuf := h.holds_commandBuf
  have hended : Refines { s with inputBuf := s.commandBuf } e :=
    ⟨(map_range_update s.inputBuf (Nat.le_refl _) 0).trans h.line, h.slots, h.count, h.cursor⟩
  have hpushed : (if 0 < s.inputLen then { s with inputBuf := s.commandBuf }.historyPush s.commandBuf
      else { s with inputBuf := s.commandBuf }).Refines e.remember := by
    split
    · exact hended.remember hbuf
    · rename_i hzero
      have hnil : e.line.chars = [] := List.length_eq_zero_iff.mp (by rw [← h.length]; omega)
      rw [remember_of_empty (Line.ext hnil)]
      exact hended
  exact ⟨rfl, hpushed.slots, hpushed.count, rfl⟩

theorem key (h : s.Refines e) (c : BitVec 8) : (s.key c).Refines (e.key c) := by
  unfold Shell.key Editor.key
  split
  · exact h.enter
  split
  · exact h.eraseChar
  split
  · exact h.up
  split
  · exact h.down
  split
  · rename_i hc
    exact h.typeChar (Editor.ne_zero_of_printable hc)
  · exact h

end Refines

theorem refines_of_keys (keys : List (BitVec 8)) :
    (keys.foldl Shell.key .boot).Refines (keys.foldl Editor.key .start) := by
  have hstart : Shell.boot.Refines .start :=
    ⟨rfl, fun _ => ⟨fun i hi => absurd hi (Nat.not_lt_zero i), fun _ h => absurd h List.not_mem_nil, rfl⟩, rfl, rfl⟩
  generalize Shell.boot = s at hstart
  generalize Editor.start = e at hstart
  induction keys generalizing s e with
  | nil => exact hstart
  | cons c keys ih => exact ih _ _ (hstart.key c)

end Shell

/-- After every sequence of keys, the input buffer holds the line of the editor, which is at most 255 characters long,
    and what `process_command` would see is that line with a zero after it. -/
theorem line_editor_refines (keys : List (BitVec 8)) :
    (keys.foldl Shell.key .boot).line = (keys.foldl Editor.key .start).line.chars ∧
      (keys.foldl Shell.key .boot).inputLen ≤ 255 ∧
    Holds (keys.foldl Shell.key .boot).commandBuf (keys.foldl Editor.key .start).line.chars := by
  have hrefines := Shell.refines_of_keys keys
  refine ⟨hrefines.line, ?_, hrefines.holds_commandBuf⟩
  rw [hrefines.length]
  exact Nat.le_of_lt_succ (keys.foldl Editor.key .start).line.short

end SamOS
