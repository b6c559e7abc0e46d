import Mathlib.Data.List.Induction
import Mathlib.Data.List.TakeWhile
import SamOS.Lib.Ring

/-! The kernel log (`klog.c`): each line goes to the screen, to the serial port and into a ring of 64 slots of 96
    bytes, from which `klog_dump_recent` prints the last ones. A string in memory ends at its first NUL. -/

namespace SamOS
open Function

/-- The levels of a log line. -/
inductive KlogLevel where
  | info
  | warn
  | error
  | panic
  deriving DecidableEq, Repr

/-- The level as `klog_info`, `klog_warn`, `klog_error` and `klog_panic` pass it on. -/
def KlogLevel.text : KlogLevel → List Char
  | .info => ['I', 'N', 'F', 'O']
  | .warn => ['W', 'A', 'R', 'N']
  | .error => ['E', 'R', 'R', 'O', 'R']
  | .panic => ['P', 'A', 'N', 'I', 'C']

/-- The state of `klog.c`. `ring` holds the bytes of `g_ring`, slot after slot; `screen` and `serial` are what was
    passed to `print_char` and `serial_write_char` so far. -/
structure Klog where
  ring : Nat → Char
  ringHead : Nat
  ringCount : Nat
  screen : List Char
  serial : List Char

namespace Klog

def ringLines : Nat := 64
def lineMax : Nat := 96

/-- The static state before the first call. -/
def initial : Klog := { ring := fun _ => '\x00', ringHead := 0, ringCount := 0, screen := [], serial := [] }

/-! ### Strings in memory -/

/-- The string that the bytes `cs` hold: those before the first NUL. -/
def cString (cs : List Char) : List Char := cs.takeWhile (· ≠ '\x00')

/-- `while (*str) print_char(*str++)` at the address `p`, for at most `fuel` bytes. -/
def readString (mem : Nat → Char) : Nat → Nat → List Char
  | 0, _ => []
  | fuel + 1, p => if mem p = '\x00' then [] else mem p :: readString mem fuel (p + 1)

/-- `for (i = 0; str[i] && p < bound; i++) out[p++] = str[i]`. -/
def copyString (out bound : Nat) : List Char → Nat → (Nat → Char) → Nat × (Nat → Char)
  | [], p, mem => (p, mem)
  | c :: cs, p, mem =>
    if c ≠ '\x00' ∧ p < bound then copyString out bound cs (p + 1) (update mem (out + p) c) else (p, mem)

/-- The bytes `cs` are written from `a` on. -/
def writeBytes (mem : Nat → Char) : Nat → List Char → Nat → Char
  | _, [] => mem
  | a, c :: cs => writeBytes (update mem a c) (a + 1) cs

/-! ### The functions of `klog.c` -/

/-- `ring_write_line`, where `none` is a null message. -/
def ringWriteLine (k : Klog) (level : List Char) (message : Option (List Char)) : Klog :=
  let out := lineMax * k.ringHead
  let mem := update k.ring out '['
  let (p, mem) := copyString out (lineMax - 2) level 1 mem
  let mem := update mem (out + p) ']'
  let p := p + 1
  let (p, mem) := if p < lineMax - 1 then (p + 1, update mem (out + p) ' ') else (p, mem)
  let (p, mem) := copyString out (lineMax - 1) (message.getD ['(', 'n', 'u', 'l', 'l', ')']) p mem
  let mem := update mem (out + p) '\x00'
  { k with
    ring := mem
    ringHead := (k.ringHead + 1) % ringLines
    ringCount := if k.ringCount < ringLines then k.ringCount + 1 else k.ringCount }

def print (k : Klog) (str : List Char) : Klog := { k with screen := k.screen ++ cString str }

def serialWrite (k : Klog) (str : List Char) : Klog := { k with serial := k.serial ++ cString str }

def klogPrefix (k : Klog) (level : List Char) : Klog :=
  let k := ((k.print ['[']).print level).print [']', ' ']
  ((k.serialWrite ['[']).serialWrite level).serialWrite [']', ' ']

/-- `klog_line`. Its message is not null: `print` would read on from address 0. -/
def klogLine (k : Klog) (level message : List Char) : Klog :=
  let k := (k.ringWriteLine level (some message)).klogPrefix level
  let k := (k.print message).print ['\n']
  (k.serialWrite message).serialWrite ['\n']

def klogInfo (k : Klog) (message : List Char) : Klog := k.klogLine KlogLevel.info.text message
def klogWarn (k : Klog) (message : List Char) : Klog := k.klogLine KlogLevel.warn.text message
def klogError (k : Klog) (message : List Char) : Klog := k.klogLine KlogLevel.error.text message
def klogPanic (k : Klog) (message : List Char) : Klog := k.klogLine KlogLevel.panic.text message

/-- The string in a slot of the ring, as `print(g_ring[idx])` reads it. -/
def lineAt (mem : Nat → Char) (idx : Nat) : List Char := readString mem (ringLines * lineMax) (lineMax * idx)

/-- What `klog_dump_recent` prints. -/
def klogDumpRecent (k : Klog) (limit : Nat) : List Char :=
  if k.ringCount = 0 then ['d', 'm', 'e', 's', 'g', ':', ' ', 'e', 'm', 'p', 't', 'y', '\n']
  else
    let limit := if limit = 0 ∨ k.ringCount < limit then k.ringCount else limit
    let start := (k.ringHead + ringLines - limit) % ringLines
    (List.range limit).flatMap fun i => lineAt k.ring ((start + i) % ringLines) ++ ['\n']

/-- The call of `klog_info`, `klog_warn`, `klog_error` or `klog_panic`. -/
def call (k : Klog) : KlogLevel × List Char → Klog
  | (.info, message) => k.klogInfo message
  | (.warn, message) => k.klogWarn message
  | (.error, message) => k.klogError message
  | (.panic, message) => k.klogPanic message

/-- The log after the calls, from the static state on. -/
def logged (calls : List (KlogLevel × List Char)) : Klog := calls.foldl call initial

/-! ### Strings that are written and read back -/

variable {mem mem' : Nat → Char} {a out bound fuel p : Nat} {cs cs' level message : List Char}

theorem writeBytes_append : writeBytes mem a (cs ++ cs') = writeBytes (writeBytes mem a cs) (a + cs.length) cs' := by
  induction cs generalizing mem a with
  | nil => rfl
  | cons c cs ih =>
    show writeBytes (update mem a c) (a + 1) (cs ++ cs') = _
    rw [ih, Nat.add_assoc, Nat.add_comm 1]
    rfl

theorem writeBytes_of_outside {x : Nat} (h : x < a ∨ a + cs.length ≤ x) : writeBytes mem a cs x = mem x := by
  induction cs generalizing mem a with
  | nil => rfl
  | cons c cs ih =>
    rw [List.length_cons] at h
    show writeBytes (update mem a c) (a + 1) cs x = mem x
    rw [ih (by omega), update_of_ne (by omega)]

theorem writeBytes_last (c : Char) : writeBytes mem a (cs ++ [c]) (a + cs.length) = c := by
  rw [writeBytes_append]
  exact update_self ..

theorem readString_writeBytes (hcs : ∀ c ∈ cs, c ≠ '\x00') (hfuel : cs.length < fuel) :
    readString (writeBytes mem a (cs ++ ['\x00'])) fuel a = cs := by
  induction cs generalizing mem a fuel with
  | nil =>
    obtain ⟨fuel, rfl⟩ : ∃ n, fuel = n + 1 := ⟨fuel - 1, by omega⟩
    exact if_pos (update_self ..)
  | cons c cs ih =>
    rw [List.length_cons] at hfuel
    obtain ⟨fuel, rfl⟩ : ∃ n, fuel = n + 1 := ⟨fuel - 1, by omega⟩
    have hfirst : writeBytes mem a (c :: cs ++ ['\x00']) a = c :=
      (writeBytes_of_outside (Or.inl (Nat.lt_succ_self a))).trans (update_self ..)
    rw [readString, hfirst, if_neg (hcs c List.mem_cons_self)]
    exact congrArg (c :: ·) (ih (fun d hd => hcs d (List.mem_cons_of_mem c hd)) (by omega))

theorem readString_congr {n : Nat} (hnul : mem (a + n) = '\x00') (hsame : ∀ i ≤ n, mem' (a + i) = mem (a + i)) :
    readString mem' fuel a = readString mem fuel a := by
  induction fuel generalizing a n with
  | zero => rfl
  | succ fuel ih =>
    have hfirst : mem' a = mem a := hsame 0 (Nat.zero_le n)
    rw [readString, readString, hfirst]
    split
    · rfl
    · rename_i hne
      obtain ⟨m, rfl⟩ : ∃ m, n = m + 1 := ⟨n - 1, by cases n with | zero => exact absurd hnul hne | succ m => rfl⟩
      refine congrArg (mem a :: ·) (ih (n := m) ?_ fun i hi => ?_)
      · rw [← hnul]
        congr 1
        omega
      · have h := hsame (i + 1) (by omega)
        rwa [show a + (i + 1) = a + 1 + i by omega] at h

/-- The loop copies the string as far as there is room for it. -/
theorem copyString_eq : copyString out bound cs p mem =
    (p + ((cString cs).take (bound - p)).length, writeBytes mem (out + p) ((cString cs).take (bound - p))) := by
  induction cs generalizing p mem with
  | nil => simp [copyString, cString, writeBytes]
  | cons c cs ih =>
    unfold copyString cString
    split
    · rename_i h
      obtain ⟨m, hm⟩ : ∃ m, bound - p = m + 1 := ⟨bound - p - 1, by omega⟩
      rw [ih, List.takeWhile_cons_of_pos (by simpa using h.1), hm, List.take_succ_cons,
        show bound - (p + 1) = m by omega, List.length_cons]
      exact Prod.ext (by simp only [cString]; omega) rfl
    · rename_i h
      by_cases hc : c = '\x00'
      · rw [List.takeWhile_cons_of_neg (by simpa using hc), List.take_nil]
        rfl
      · rw [show bound - p = 0 by by_contra hb; exact h ⟨hc, by omega⟩, List.take_zero]
        rfl

/-! ### The line of a call -/

/-- `"[LEVEL] "` and the message, cut to 95 characters. -/
def line (level message : List Char) : List Char := (('[' :: level ++ [']', ' ']) ++ cString message).take (lineMax - 1)

theorem cString_ne_nul {c : Char} (h : c ∈ cString cs) : c ≠ '\x00' := by
  have h := List.mem_takeWhile_imp h
  simpa using h

/-- The level is one of those used: it has no NUL, and leaves room for a message. -/
structure LevelOk (level : List Char) : Prop where
  noNul : cString level = level
  short : level.length ≤ 5

theorem levelOk_text (l : KlogLevel) : LevelOk l.text := by
  cases l <;> exact ⟨by decide, by decide⟩

theorem ringWriteLine_ring (k : Klog) (h : LevelOk level) :
    (k.ringWriteLine level (some message)).ring =
      writeBytes k.ring (lineMax * k.ringHead) (line level message ++ ['\x00']) := by
  have hshort := h.short
  have hroom : 1 + level.length + 1 < lineMax - 1 := by
    unfold lineMax
    omega
  have hcopy (mem) : copyString (lineMax * k.ringHead) (lineMax - 2) level 1 mem =
      (1 + level.length, writeBytes mem (lineMax * k.ringHead + 1) level) := by
    rw [copyString_eq, h.noNul, List.take_of_length_le (by unfold lineMax; omega)]
  have hline : line level message =
      ['['] ++ level ++ [']'] ++ [' '] ++ (cString message).take (lineMax - 1 - (1 + level.length + 1 + 1)) := by
    unfold line
    rw [List.take_append, List.take_of_length_le]
    · simp only [List.length_append, List.length_cons, List.length_nil, List.cons_append, List.append_assoc,
        List.nil_append]
      congr 5
      omega
    · simp only [List.length_append, List.length_cons, List.length_nil]
      unfold lineMax
      omega
  unfold ringWriteLine
  dsimp only
  rw [hcopy]
  dsimp only
  rw [if_pos hroom]
  dsimp only
  rw [copyString_eq, hline]
  simp only [writeBytes_append, List.length_append, List.length_cons, List.length_nil, Option.getD_some]
  simp only [writeBytes, Nat.add_assoc, Nat.zero_add]

theorem length_line : (line level message).length < lineMax := by
  unfold line
  rw [List.length_take]
  exact Nat.lt_of_le_of_lt (Nat.min_le_left ..) (by decide)

theorem line_ne_nul (h : LevelOk level) {c : Char} (hc : c ∈ line level message) : c ≠ '\x00' := by
  rcases List.mem_append.mp (List.mem_of_mem_take hc) with hc | hc
  · rcases List.mem_append.mp hc with hc | hc
    · rcases List.mem_cons.mp hc with rfl | hc
      · decide
      · rw [← h.noNul] at hc
        exact cString_ne_nul hc
    · simp only [List.mem_cons, List.not_mem_nil, or_false] at hc
      rcases hc with rfl | rfl <;> decide
  · exact cString_ne_nul hc

/-! ### The slots of the ring -/

/-- The string in a slot ends inside its 96 bytes. -/
def Terminated (mem : Nat → Char) (idx : Nat) : Prop := ∃ p < lineMax, mem (lineMax * idx + p) = '\x00'

section Slots
variable {idx j : Nat}

/-- The memory after a string and its NUL were written to the slot `idx`. -/
def slotWritten (mem : Nat → Char) (idx : Nat) (cs : List Char) : Nat → Char :=
  writeBytes mem (lineMax * idx) (cs ++ ['\x00'])

theorem slotWritten_other (hlen : cs.length < lineMax) (hne : j ≠ idx) (hp : p < lineMax) :
    slotWritten mem idx cs (lineMax * j + p) = mem (lineMax * j + p) := by
  apply writeBytes_of_outside
  rw [List.length_append, List.length_singleton]
  unfold lineMax at *
  omega

theorem terminated_slotWritten (hlen : cs.length < lineMax) (h : Terminated mem j) :
    Terminated (slotWritten mem idx cs) j := by
  by_cases hj : j = idx
  · rw [hj]
    exact ⟨cs.length, hlen, writeBytes_last _⟩
  · obtain ⟨p, hp, hnul⟩ := h
    exact ⟨p, hp, (slotWritten_other hlen hj hp).trans hnul⟩

theorem lineAt_slotWritten (hcs : ∀ c ∈ cs, c ≠ '\x00') (hlen : cs.length < lineMax) (h : Terminated mem j) :
    lineAt (slotWritten mem idx cs) j = update (lineAt mem) idx cs j := by
  by_cases hj : j = idx
  · rw [hj, update_self]
    exact readString_writeBytes hcs (Nat.lt_of_lt_of_le hlen (by decide))
  · rw [update_of_ne hj]
    obtain ⟨p, hp, hnul⟩ := h
    exact readString_congr hnul fun i hi => slotWritten_other hlen hj (by omega)

end Slots

/-! ### The ring refines the list of all lines -/

/-- The log of the lines: the ring keeps the last 64 of them, in order. -/
structure Keeps (k : Klog) (lines : List (List Char)) : Prop where
  head : k.ringHead = lines.length % ringLines
  count : k.ringCount = min lines.length ringLines
  kept : Ring.window (lineAt k.ring) ringLines ((k.ringHead + ringLines - k.ringCount) % ringLines) k.ringCount =
    lines.drop (lines.length - ringLines)
  terminated : ∀ idx < ringLines, Terminated k.ring idx

theorem keeps_initial : initial.Keeps [] :=
  ⟨rfl, rfl, rfl, fun _ _ => ⟨0, by decide, rfl⟩⟩

variable {k : Klog} {lines : List (List Char)}

theorem Keeps.klogLine (h : k.Keeps lines) (hl : LevelOk level) :
    (k.klogLine level message).Keeps (lines ++ [line level message]) := by
  have hhead := h.head
  have hcount := h.count
  have hkept := h.kept
  have hring : (k.klogLine level message).ring = slotWritten k.ring k.ringHead (line level message) :=
    ringWriteLine_ring k hl
  have hhead' : (k.klogLine level message).ringHead = (k.ringHead + 1) % ringLines := rfl
  have hcount' : (k.klogLine level message).ringCount = if k.ringCount < ringLines then k.ringCount + 1
    else k.ringCount := rfl
  have hlines (start len : Nat) : Ring.window (lineAt (k.klogLine level message).ring) ringLines start len =
      Ring.window (update (lineAt k.ring) k.ringHead (line level message)) ringLines start len := by
    refine Ring.window_congr fun i _ => ?_
    rw [hring]
    exact lineAt_slotWritten (fun c => line_ne_nul hl) length_line (h.terminated _ (Nat.mod_lt _ (by decide)))
  have hnew : (k.klogLine level message).ringCount = min (lines.length + 1) ringLines := by
    rw [hcount', hcount]
    split <;> omega
  refine ⟨?_, ?_, ?_, ?_⟩
  · rw [hhead', hhead, Nat.mod_add_mod, List.length_append, List.length_singleton]
  · rw [hnew, List.length_append, List.length_singleton]
  · rw [hhead, hcount] at hkept
    rw [hlines, hnew, hhead', hhead, Nat.mod_add_mod, List.length_append, List.length_singleton]
    exact Ring.window_push (by decide) hkept _
  · intro idx hidx
    rw [hring]
    exact terminated_slotWritten length_line (h.terminated idx hidx)

/-- The line of a call. -/
def callLine (c : KlogLevel × List Char) : List Char := line c.1.text c.2

theorem Keeps.call (h : k.Keeps lines) (c : KlogLevel × List Char) :
    (k.call c).Keeps (lines ++ [callLine c]) := by
  obtain ⟨l, message⟩ := c
  have hline : (k.klogLine l.text message).Keeps _ := h.klogLine (levelOk_text l)
  cases l <;> exact hline

theorem keeps_logged (calls : List (KlogLevel × List Char)) : (logged calls).Keeps (calls.map callLine) := by
  induction calls using List.reverseRecOn with
  | nil => exact keeps_initial
  | append_singleton calls c ih =>
    unfold logged
    rw [List.foldl_append, List.map_append]
    exact ih.call c

/-- The lines that `klog_dump_recent(limit)` prints after `n` lines were logged. -/
def recentCount (limit n : Nat) : Nat := if limit = 0 then min n ringLines else min limit (min n ringLines)

theorem Keeps.klogDumpRecent (h : k.Keeps lines) (hne : lines ≠ []) (limit : Nat) :
    k.klogDumpRecent limit =
      (lines.drop (lines.length - recentCount limit lines.length)).flatMap fun l => l ++ ['\n'] := by
  have hcount := h.count
  have hpos : 0 < lines.length := List.length_pos_iff.mpr hne
  have hlimit : (if limit = 0 ∨ k.ringCount < limit then k.ringCount else limit) = recentCount limit lines.length := by
    unfold recentCount
    rw [hcount]
    split <;> split <;> omega
  have hle : recentCount limit lines.length ≤ k.ringCount := by
    rw [← hlimit]
    split <;> omega
  unfold Klog.klogDumpRecent
  rw [if_neg (by unfold ringLines at hcount; omega)]
  dsimp only
  rw [hlimit]
  generalize recentCount limit lines.length = m at hle
  -- the last `m` lines of the window that the ring keeps
  have hwindow : Ring.window (lineAt k.ring) ringLines ((k.ringHead + ringLines - m) % ringLines) m =
      lines.drop (lines.length - m) := by
    have hdrop := congrArg (List.drop (k.ringCount - m)) h.kept
    rw [Ring.drop_window, List.drop_drop] at hdrop
    unfold ringLines at *
    rwa [show k.ringCount - (k.ringCount - m) = m by omega,
      show ((k.ringHead + 64 - k.ringCount) % 64 + (k.ringCount - m)) % 64 = (k.ringHead + 64 - m) % 64 by omega,
      show lines.length - 64 + (k.ringCount - m) = lines.length - m by omega] at hdrop
  rw [← hwindow, Ring.window, List.flatMap_map]

/-- After any calls the dump prints the last lines, oldest first, each as its level and message cut to 95 characters;
    without a line it says so. Every slot of the ring ends with a NUL. -/
theorem dump_prints_last_lines (calls : List (KlogLevel × List Char)) (limit : Nat) :
    ((logged calls).klogDumpRecent limit =
      if calls = [] then ['d', 'm', 'e', 's', 'g', ':', ' ', 'e', 'm', 'p', 't', 'y', '\n']
      else ((calls.map callLine).drop (calls.length - recentCount limit calls.length)).flatMap fun l => l ++ ['\n']) ∧
    ∀ idx < ringLines, Terminated (logged calls).ring idx := by
  have h := keeps_logged calls
  refine ⟨?_, h.terminated⟩
  split
  · rename_i hnil
    rw [hnil]
    rfl
  · rename_i hne
    have hdump := h.klogDumpRecent (fun hnil => hne (List.map_eq_nil_iff.mp hnil)) limit
    rwa [List.length_map] at hdump

/-- The dump of an empty log is a line that was never logged. -/
theorem dump_prints_unlogged_line :
    ¬∀ (calls : List (KlogLevel × List Char)) (limit : Nat), (logged calls).klogDumpRecent limit =
      ((calls.map callLine).drop (calls.length - recentCount limit calls.length)).flatMap fun l => l ++ ['\n'] := by
  intro h
  have hempty := h [] 0
  revert hempty
  decide

end Klog
end SamOS
