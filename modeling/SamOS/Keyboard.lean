import SamOS.Scheduler

/-! The keyboard (`keyboard.c`): the interrupt handler decodes scancodes, puts characters into a ring and wakes the
    shell's task; the shell takes them out again. -/

namespace SamOS
open Function

/-! ### The ring and the interrupt handler -/

/-- The static state of `keyboard.c`. -/
structure Keyboard where
  buf : Nat → Char
  head : Nat
  tail : Nat
  shellTaskId : Int
  leftShift : Bool
  rightShift : Bool
  haveE0 : Bool

namespace Keyboard

def bufSize : Nat := 64

def eventUp : Char := '\x11'
def eventDown : Char := '\x12'

/-- After `keyboard_init` and `keyboard_set_shell_task`. -/
def init (shell : Int) : Keyboard :=
  { buf := fun _ => '\x00', head := 0, tail := 0, shellTaskId := shell, leftShift := false, rightShift := false, haveE0 := false }

/-- The entries of `scancode_map` up to the last one that is not 0. -/
def scancodeMap : List Char :=
  ['\x00', '\x00', '1', '2', '3', '4', '5', '6', '7', '8', '9', '0', '-', '=', '\x08', '\x00',
   'q', 'w', 'e', 'r', 't', 'y', 'u', 'i', 'o', 'p', '[', ']', '\x0a', '\x00', 'a', 's',
   'd', 'f', 'g', 'h', 'j', 'k', 'l', ';', '\x27', '\x60', '\x00', '\x5c', 'z', 'x', 'c', 'v',
   'b', 'n', 'm', ',', '.', '/', '\x00', '*', '\x00', ' ', '\x00']

/-- The entries of `scancode_map_shift`. -/
def scancodeMapShift : List Char :=
  ['\x00', '\x00', '!', '@', '#', '$', '%', '^', '&', '*', '(', ')', '_', '+', '\x08', '\x00',
   'Q', 'W', 'E', 'R', 'T', 'Y', 'U', 'I', 'O', 'P', '\x7b', '\x7d', '\x0a', '\x00', 'A', 'S',
   'D', 'F', 'G', 'H', 'J', 'K', 'L', ':', '\x22', '~', '\x00', '|', 'Z', 'X', 'C', 'V',
   'B', 'N', 'M', '<', '>', '?', '\x00', '*', '\x00', ' ', '\x00']

def shiftActive (kb : Keyboard) : Bool := kb.leftShift || kb.rightShift

/-- `translate_scancode`, `'\x00'` for no character. -/
def translateScancode (kb : Keyboard) (scancode : Nat) : Char :=
  if scancode ≥ 128 then '\x00'
  else (if kb.shiftActive then scancodeMapShift else scancodeMap).getD scancode '\x00'

/-- The state changes of `keyboard_handler` for one byte from the controller, and the character it passes to
    `kb_push`, if any. -/
def decode (kb : Keyboard) (scancode : Nat) : Option Char × Keyboard :=
  if scancode = 0xE0 then (none, { kb with haveE0 := true })
  else if kb.haveE0 then
    (if scancode = 0x48 then some eventUp else if scancode = 0x50 then some eventDown else none,
      { kb with haveE0 := false })
  else
    let key := scancode % 128
    let released := decide (scancode / 128 % 2 = 1)
    let kb :=
      if key = 0x2A then { kb with leftShift := !released }
      else if key = 0x36 then { kb with rightShift := !released }
      else kb
    if released then (none, kb)
    else if kb.translateScancode key = '\x00' then (none, kb)
    else (some (kb.translateScancode key), kb)

/-- `kb_push`: a full ring drops the character; otherwise it is stored and the shell is woken. -/
def push (kb : Keyboard) (s : Sched) (c : Char) : Keyboard × Sched :=
  let next := (kb.head + 1) % bufSize
  if next = kb.tail then (kb, s)
  else
    ({ kb with buf := update kb.buf kb.head c, head := next },
      if kb.shellTaskId ≥ 0 then s.taskWake kb.shellTaskId else s)

def handler (kb : Keyboard) (s : Sched) (scancode : Nat) : Keyboard × Sched :=
  match kb.decode scancode with
  | (none, kb) => (kb, s)
  | (some c, kb) => kb.push s c

/-- `kb_getchar`, `'\x00'` for an empty ring. -/
def getchar (kb : Keyboard) : Char × Keyboard :=
  if kb.head = kb.tail then ('\x00', kb)
  else (kb.buf kb.tail, { kb with tail := (kb.tail + 1) % bufSize })

def Empty (kb : Keyboard) : Prop := kb.head = kb.tail

/-- The number of characters in the ring. -/
def count (kb : Keyboard) : Nat := (kb.head + bufSize - kb.tail) % bufSize

/-- Head and tail are indices of the ring, and the characters between them are not 0. -/
structure WellFormed (kb : Keyboard) : Prop where
  head : kb.head < bufSize
  tail : kb.tail < bufSize
  chars : ∀ k < kb.count, kb.buf ((kb.tail + k) % bufSize) ≠ '\x00'

theorem wellFormed_init (shell : Int) : (init shell).WellFormed :=
  ⟨Nat.zero_lt_succ 63, Nat.zero_lt_succ 63, fun k hk => absurd hk (by simp [count, init])⟩

variable {kb : Keyboard}

theorem count_eq_zero (h : kb.WellFormed) : kb.count = 0 ↔ kb.Empty := by
  have h1 := h.head
  have h2 := h.tail
  unfold count Empty
  unfold bufSize at *
  omega

/-- Decoding a scancode leaves the ring alone, and never passes on the character 0. -/
theorem decode_spec (kb : Keyboard) (scancode : Nat) :
    (kb.decode scancode).2.buf = kb.buf ∧ (kb.decode scancode).2.head = kb.head ∧
      (kb.decode scancode).2.tail = kb.tail ∧
    (kb.decode scancode).2.shellTaskId = kb.shellTaskId ∧ ∀ c, (kb.decode scancode).1 = some c → c ≠ '\x00' := by
  unfold decode
  dsimp only
  split
  · exact ⟨rfl, rfl, rfl, rfl, nofun⟩
  split
  · refine ⟨rfl, rfl, rfl, rfl, fun c h => ?_⟩
    split at h
    · cases h
      decide
    · split at h
      · cases h
        decide
      · cases h
  generalize hkb : (if scancode % 128 = 0x2A then { kb with leftShift := !decide (scancode / 128 % 2 = 1) }
    else if scancode % 128 = 0x36 then { kb with rightShift := !decide (scancode / 128 % 2 = 1) } else kb) = kb'
  have hsame : kb'.buf = kb.buf ∧ kb'.head = kb.head ∧ kb'.tail = kb.tail ∧ kb'.shellTaskId = kb.shellTaskId := by
    rw [← hkb]
    split
    · exact ⟨rfl, rfl, rfl, rfl⟩
    · split <;> exact ⟨rfl, rfl, rfl, rfl⟩
  split
  · exact ⟨hsame.1, hsame.2.1, hsame.2.2.1, hsame.2.2.2, nofun⟩
  · split
    · exact ⟨hsame.1, hsame.2.1, hsame.2.2.1, hsame.2.2.2, nofun⟩
    · rename_i hne
      exact ⟨hsame.1, hsame.2.1, hsame.2.2.1, hsame.2.2.2, fun c h => by cases h; exact hne⟩

theorem WellFormed.decode (h : kb.WellFormed) (scancode : Nat) : (kb.decode scancode).2.WellFormed := by
  obtain ⟨hbuf, hhead, htail, -, -⟩ := kb.decode_spec scancode
  have hcount : (kb.decode scancode).2.count = kb.count := by
    unfold count
    rw [hhead, htail]
  exact ⟨hhead ▸ h.head, htail ▸ h.tail, fun k hk => by rw [hbuf, htail]; exact h.chars k (hcount ▸ hk)⟩

theorem WellFormed.push (h : kb.WellFormed) (s : Sched) {c : Char} (hc : c ≠ '\x00') :
    (kb.push s c).1.WellFormed := by
  have h1 := h.head
  have h2 := h.tail
  unfold Keyboard.push
  dsimp only
  split
  · exact h
  · rename_i hfull
    refine ⟨Nat.mod_lt _ (by decide), h2, fun k hk => ?_⟩
    have hk : k < kb.count + 1 := by
      unfold count at hk ⊢
      unfold bufSize at *
      dsimp only at hk
      omega
    show update kb.buf kb.head c ((kb.tail + k) % bufSize) ≠ '\x00'
    by_cases hlast : (kb.tail + k) % bufSize = kb.head
    · rw [hlast, update_self]
      exact hc
    · rw [update_of_ne hlast]
      refine h.chars k ?_
      unfold count at hk ⊢
      unfold bufSize at *
      omega

theorem WellFormed.getchar (h : kb.WellFormed) : kb.getchar.2.WellFormed := by
  have h1 := h.head
  have h2 := h.tail
  unfold Keyboard.getchar
  split
  · exact h
  · rename_i hne
    refine ⟨h1, Nat.mod_lt _ (by decide), fun k hk => ?_⟩
    dsimp only at hk ⊢
    have hpos : ((kb.tail + 1) % bufSize + k) % bufSize = (kb.tail + (k + 1)) % bufSize := by
      unfold bufSize
      omega
    rw [hpos]
    refine h.chars (k + 1) ?_
    unfold count at hk ⊢
    unfold bufSize at *
    dsimp only at hk
    omega

theorem empty_of_getchar (h : kb.WellFormed) (h0 : kb.getchar.1 = '\x00') : kb.getchar.2.Empty := by
  unfold Keyboard.getchar at *
  split
  · rename_i he
    exact he
  · rename_i hne
    rw [if_neg hne] at h0
    have hpos : 0 < kb.count := Nat.pos_of_ne_zero fun hz => hne ((count_eq_zero h).mp hz)
    have hfirst := h.chars 0 hpos
    rw [Nat.add_zero, Nat.mod_eq_of_lt h.tail] at hfirst
    exact absurd h0 hfirst

end Keyboard
end SamOS
