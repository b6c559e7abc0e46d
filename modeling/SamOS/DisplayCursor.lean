import SamOS.DisplayAccess

/-! The cursor of the text output. It moves right by a character, to the start of the next line, back by a character
    or to the last column of the line above, and the screen scrolls under it at the bottom. On every screen with room
    for a character and a line it stays where the next character is drawn wholly on the screen. -/

namespace SamOS
open Loop Display Logged

/-- `cursor_x` and `cursor_y`. -/
structure Cursor where
  x : BitVec 32
  y : BitVec 32
  deriving DecidableEq, Repr

/-! ### Moves -/

namespace Mode

/-- The row of the cursor after a new line, which scrolls at the bottom. -/
def lineAfter (m : Mode) (y : BitVec 32) : BitVec 32 := if m.height ≤ y + 10 + 10 then y + 10 - 10 else y + 10

/-- The cursor after a character. -/
def forward (m : Mode) (cur : Cursor) : Cursor :=
  if m.width ≤ cur.x + 8 + 8 then ⟨0, m.lineAfter cur.y⟩ else ⟨cur.x + 8, cur.y⟩

/-- The cursor after `\b`. -/
def back (m : Mode) (cur : Cursor) : Cursor :=
  if 8 ≤ cur.x then ⟨cur.x - 8, cur.y⟩
  else if 10 ≤ cur.y then ⟨if 8 ≤ m.width then m.width - 8 else 0, cur.y - 10⟩
  else cur

variable {m : Mode} {x y : BitVec 32}

theorem forward_keeps (h : x + 8 + 8 < m.width) : m.forward ⟨x, y⟩ = ⟨x + 8, y⟩ := if_neg (BitVec.not_le.mpr h)

theorem forward_wraps (h : m.width ≤ x + 8 + 8) : m.forward ⟨x, y⟩ = ⟨0, m.lineAfter y⟩ := if_pos h

theorem back_left (h : 8 ≤ x) : m.back ⟨x, y⟩ = ⟨x - 8, y⟩ := if_pos h

theorem back_up (hw : 8 ≤ m.width) (hx : x < 8) (hy : 10 ≤ y) : m.back ⟨x, y⟩ = ⟨m.width - 8, y - 10⟩ := by
  unfold back
  rw [if_neg (BitVec.not_le.mpr hx), if_pos hy, if_pos hw]

theorem back_stays (hx : x < 8) (hy : y < 10) : m.back ⟨x, y⟩ = ⟨x, y⟩ := by
  unfold back
  rw [if_neg (BitVec.not_le.mpr hx), if_neg (BitVec.not_le.mpr hy)]

/-! ### Screens with room -/

/-- There is room for a character and for a line under it, and no coordinate wraps. -/
structure Roomy (m : Mode) : Prop where
  width : 8 ≤ m.width.toNat ∧ m.width.toNat + 8 < 2 ^ 32
  height : 10 < m.height.toNat ∧ m.height.toNat + 10 ≤ 2 ^ 32

/-- The character at the cursor, and the line under it, are on the screen. -/
def Inside (m : Mode) (cur : Cursor) : Prop := cur.x.toNat + 8 ≤ m.width.toNat ∧ cur.y.toNat + 10 < m.height.toNat

theorem Roomy.lineAfter (h : m.Roomy) (hy : y.toNat + 10 < m.height.toNat) :
    (m.lineAfter y).toNat + 10 < m.height.toNat ∧ y.toNat ≤ (m.lineAfter y).toNat := by
  have hheight := h.height
  unfold Mode.lineAfter
  split
  · rw [BitVec.add_sub_cancel]
    exact ⟨hy, Nat.le_refl _⟩
  · bv_omega

theorem Roomy.forward (h : m.Roomy) (hc : m.Inside ⟨x, y⟩) :
    m.Inside (m.forward ⟨x, y⟩) ∧ y.toNat ≤ (m.forward ⟨x, y⟩).y.toNat := by
  obtain ⟨hx, hy⟩ := hc
  dsimp only at hx hy
  have hwidth := h.width
  by_cases hwrap : m.width ≤ x + 8 + 8
  · obtain ⟨hline, hle⟩ := h.lineAfter hy
    rw [forward_wraps hwrap]
    exact ⟨⟨show (0 : BitVec 32).toNat + 8 ≤ _ by rw [show (0 : BitVec 32).toNat = 0 from rfl]; omega, hline⟩, hle⟩
  · rw [forward_keeps (BitVec.not_le.mp hwrap)]
    exact ⟨⟨by dsimp only; bv_omega, hy⟩, Nat.le_refl _⟩

theorem Roomy.back (h : m.Roomy) (hc : m.Inside ⟨x, y⟩) : m.Inside (m.back ⟨x, y⟩) := by
  obtain ⟨hx, hy⟩ := hc
  dsimp only at hx hy
  have hwidth := h.width
  have hwide : (8 : BitVec 32) ≤ m.width := by bv_omega
  by_cases hleft : (8 : BitVec 32) ≤ x
  · rw [back_left hleft]
    exact ⟨by dsimp only; bv_omega, hy⟩
  · by_cases hup : (10 : BitVec 32) ≤ y
    · rw [back_up hwide (BitVec.not_le.mp hleft) hup]
      exact ⟨by dsimp only; bv_omega, by dsimp only; bv_omega⟩
    · rw [back_stays (BitVec.not_le.mp hleft) (BitVec.not_le.mp hup)]
      exact ⟨hx, hy⟩

theorem Roomy.origin (h : m.Roomy) : m.Inside ⟨0, 0⟩ := ⟨h.width.1, h.height.1⟩

end Mode

/-- A character that is drawn. -/
def Drawn (c : BitVec 8) : Prop := c ≠ 0x0A#8 ∧ c ≠ 0x0D#8 ∧ c ≠ 0x08#8

instance (c : BitVec 8) : Decidable (Drawn c) := inferInstanceAs (Decidable (_ ∧ _))

namespace Display
variable {font : Font} {c : BitVec 8} {d : Display}

def cursor (d : Display) : Cursor := ⟨d.cursorX, d.cursorY⟩

theorem SameScreen.cursor {d d' : Display} (h : SameScreen d d') : d'.cursor = d.cursor := by
  unfold Display.cursor
  rw [h.cursorX, h.cursorY]

theorem newLine_cursor (d : Display) : d.newLine.cursor = ⟨0, d.mode.lineAfter d.cursorY⟩ := by
  unfold newLine Mode.lineAfter
  dsimp only
  split
  · rename_i hs
    rw [if_pos (show d.mode.height ≤ _ from hs)]
    rfl
  · rename_i hs
    rw [if_neg (show ¬d.mode.height ≤ _ from hs)]
    rfl

theorem printChar_eq (d : Display) (hc : Drawn c) : d.printChar font c =
    if d.screenW ≤ d.cursorX + 8 + 8 then newLine
      { d.drawChar font c d.cursorX d.cursorY with cursorX := d.cursorX + 8 }
    else { d.drawChar font c d.cursorX d.cursorY with cursorX := d.cursorX + 8 } := by
  have hdraw := SameScreen.drawChar font d c d.cursorX d.cursorY
  unfold printChar
  rw [if_neg hc.1, if_neg hc.2.1, if_neg hc.2.2]
  dsimp only
  rw [hdraw.screenW, hdraw.cursorX]

theorem printChar_cursor (d : Display) (hc : Drawn c) : (d.printChar font c).cursor = d.mode.forward d.cursor := by
  have hdraw := SameScreen.drawChar font d c d.cursorX d.cursorY
  rw [printChar_eq d hc]
  generalize Display.drawChar font d c d.cursorX d.cursorY = t at hdraw
  show _ = d.mode.forward ⟨d.cursorX, d.cursorY⟩
  split
  · rename_i hwrap
    rw [Mode.forward_wraps hwrap, newLine_cursor]
    show Cursor.mk 0 (t.mode.lineAfter t.cursorY) = _
    rw [hdraw.mode, hdraw.cursorY]
  · rename_i hkeep
    rw [Mode.forward_keeps (BitVec.not_le.mp hkeep)]
    show Cursor.mk _ t.cursorY = _
    rw [hdraw.cursorY]

theorem backspace_cursor (d : Display) : (d.backspace font).cursor = d.mode.back d.cursor := by
  unfold backspace Mode.back
  split
  · rename_i hx
    rw [if_pos (show 8 ≤ d.cursor.x from hx)]
    exact (SameScreen.drawChar ..).cursor
  · rename_i hx
    rw [if_neg (show ¬8 ≤ d.cursor.x from hx)]
    split
    · rename_i hy
      rw [if_pos (show 10 ≤ d.cursor.y from hy)]
      exact (SameScreen.drawChar ..).cursor
    · rename_i hy
      rw [if_neg (show ¬10 ≤ d.cursor.y from hy)]

theorem printChar_inside (hm : d.mode.Roomy) (h : d.mode.Inside d.cursor) (c : BitVec 8) :
    d.mode.Inside (d.printChar font c).cursor := by
  have hleft : (0 : BitVec 32).toNat + 8 ≤ d.mode.width.toNat := by
    rw [show (0 : BitVec 32).toNat = 0 from rfl]
    exact Nat.le_trans (by decide) hm.width.1
  by_cases hc : Drawn c
  · rw [printChar_cursor d hc]
    exact (hm.forward h).1
  unfold printChar
  split
  · rw [newLine_cursor]
    exact ⟨hleft, (hm.lineAfter h.2).1⟩
  split
  · exact ⟨hleft, h.2⟩
  split
  · rw [backspace_cursor]
    exact hm.back h
  · rename_i h₁ h₂ h₃
    exact absurd ⟨h₁, h₂, h₃⟩ hc

theorem print_inside (hm : d.mode.Roomy) (h : d.mode.Inside d.cursor) (str : List (BitVec 8)) :
    d.mode.Inside (d.print font str).cursor := by
  unfold print
  generalize str.takeWhile (· ≠ 0) = cs
  induction cs generalizing d with
  | nil => exact h
  | cons c cs ih =>
    have hmode := printChar_mode font d c
    rw [← hmode]
    exact ih (hmode ▸ hm) (hmode ▸ printChar_inside hm h c)

end Display

/-! ### What is asked of `draw_char` and `put_pixel` -/

/-- The glyph is wholly on the screen; the pixel is one that `put_pixel` does not clip. -/
def Access.OnScreen (m : Mode) : Access → Prop
  | .drawChar x y => x.toNat + 8 ≤ m.width.toNat ∧ y.toNat + 8 ≤ m.height.toNat
  | .putPixel x y => ¬(m.width ≤ x ∨ m.height ≤ y)
  | .glyph _ | .dirtyRow _ | .shadow .. | .frame _ => True

/-- The calls on a display in use: a character, a new shadow buffer, an empty screen, a flush. -/
inductive ScreenCall where
  | printChar (c : BitVec 8)
  | setShadow (buffer : Nat → BitVec 32)
  | clear
  | flush

def ScreenCall.exec (font : Font) (d : Display) : ScreenCall → Display
  | .printChar c => d.printChar font c
  | .setShadow buffer => d.displaySetShadow buffer
  | .clear => d.displayClear
  | .flush => d.displayFlush

/-- The runs of a display from `display_init` on. -/
def screens (font : Font) (m : Mode) : Lts.System Display ScreenCall where
  init d := ∃ (d₀ : Display) (framebuffer : Nat → BitVec 32), d = d₀.displayInit framebuffer m
  step d call d' := d' = call.exec font d

namespace Traced

/-- Only characters are drawn with `draw_char` and `put_pixel`. -/
def execScreen (font : Font) (d : Display) : ScreenCall → Logged Access Display
  | .printChar c => printChar font d c
  | .setShadow buffer => pure (d.displaySetShadow buffer)
  | .clear => pure d.displayClear
  | .flush => pure d.displayFlush

theorem value_execScreen (font : Font) (d : Display) (call : ScreenCall) :
    (execScreen font d call).value = call.exec font d := by
  cases call with
  | printChar c => exact value_printChar font d c
  | setShadow buffer => rfl
  | clear => rfl
  | flush => rfl

variable {font : Font} {d : Display} {m : Mode}

theorem putPixel_onScreen (d : Display) {x y : BitVec 32} (h : ¬(m.width ≤ x ∨ m.height ≤ y)) (color : BitVec 32) :
    All (Access.OnScreen m) (putPixel d x y color) := by
  refine all_bind.mpr ⟨all_note.mpr h, ?_⟩
  split
  · exact all_pure d
  · split
    · simp only [markDirty, all_bind, all_note, all_pure, and_true]
      exact ⟨trivial, trivial⟩
    · simp only [all_bind, all_note, all_pure, and_true]
      trivial

theorem drawChar_onScreen (hm : m.Roomy) {x y : BitVec 32} (h : m.Inside ⟨x, y⟩) (c : BitVec 8) (d : Display) :
    All (Access.OnScreen m) (drawChar font d c x y) := by
  have hwidth := hm.width
  have hheight := hm.height
  obtain ⟨hx, hy⟩ := h
  dsimp only at hx hy
  refine all_bind.mpr ⟨all_note.mpr ⟨hx, by omega⟩, ?_⟩
  refine all_forRange (I := fun _ _ => True) trivial fun row _ _ hrow _ => ⟨?_, trivial⟩
  refine all_forRange (I := fun _ _ => True) trivial fun col _ _ hcol _ =>
    ⟨all_bind.mpr ⟨all_note.mpr trivial, putPixel_onScreen _ ?_ _⟩, trivial⟩
  rintro (hclip | hclip)
  · rw [BitVec.le_def, BitVec.toNat_add, BitVec.toNat_ofNat] at hclip
    omega
  · rw [BitVec.le_def, BitVec.toNat_add, BitVec.toNat_ofNat] at hclip
    omega

theorem newLine_onScreen (d : Display) : All (Access.OnScreen m) (newLine d) := by
  -- scrolling writes to the shadow and to `dirty_rows` without `put_pixel`
  have hloop {σ : Type} (lo hi : Nat) (f : Nat → σ → Logged Access σ) (s : σ)
    (hf : ∀ i t, All (Access.OnScreen m) (f i t)) :
      All (Access.OnScreen m) (Logged.forRange lo hi f s) :=
    all_forRange (I := fun _ _ => True) trivial fun i t _ _ _ => ⟨hf i t, trivial⟩
  unfold newLine
  dsimp only
  split
  · refine all_bind.mpr ⟨hloop _ _ _ _ fun i t => ?_,
      all_bind.mpr ⟨hloop _ _ _ _ fun y t => ?_, all_bind.mpr ⟨?_, all_pure _⟩⟩⟩
    · simp [copyWord, Access.OnScreen]
    · exact hloop _ _ _ _ fun x t => by simp [Access.OnScreen]
    · exact hloop _ _ _ _ fun y t => by simp [Access.OnScreen]
  · exact all_pure _

theorem backspace_onScreen (hm : d.mode.Roomy) (h : d.mode.Inside d.cursor) :
    All (Access.OnScreen d.mode) (backspace font d) := by
  have hback : d.mode.Inside (d.mode.back d.cursor) := hm.back h
  unfold backspace
  unfold Mode.back at hback
  split
  · rename_i hleft
    rw [if_pos (show 8 ≤ d.cursor.x from hleft)] at hback
    exact drawChar_onScreen hm hback _ _
  rename_i hleft
  rw [if_neg (show ¬8 ≤ d.cursor.x from hleft)] at hback
  split
  · rename_i hup
    rw [if_pos (show 10 ≤ d.cursor.y from hup)] at hback
    exact drawChar_onScreen hm hback _ _
  · exact all_pure d

theorem execScreen_onScreen (hm : d.mode.Roomy) (h : d.mode.Inside d.cursor) (call : ScreenCall) :
    All (Access.OnScreen d.mode) (execScreen font d call) := by
  cases call with
  | printChar c =>
    show All _ (printChar font d c)
    unfold printChar
    split
    · exact newLine_onScreen d
    split
    · exact all_pure _
    split
    · exact backspace_onScreen hm h
    · refine all_bind.mpr ⟨drawChar_onScreen hm h c d, ?_⟩
      dsimp only
      split
      · exact newLine_onScreen _
      · exact all_pure _
  | setShadow buffer => exact all_pure _
  | clear => exact all_pure _
  | flush => exact all_pure _

end Traced

namespace Display

theorem exec_inside {font : Font} {m : Mode} (hm : m.Roomy) {d : Display} (h : d.mode = m ∧ m.Inside d.cursor)
    (call : ScreenCall) :
    (call.exec font d).mode = m ∧ m.Inside (call.exec font d).cursor := by
  obtain ⟨rfl, hin⟩ := h
  cases call with
  | printChar c => exact ⟨printChar_mode font d c, printChar_inside hm hin c⟩
  | setShadow buffer => exact ⟨rfl, hin⟩
  | clear =>
    show d.displayClear.mode = d.mode ∧ d.mode.Inside d.displayClear.cursor
    unfold displayClear
    split
    · exact ⟨rfl, hin⟩
    · exact ⟨rfl, hm.origin⟩
  | flush =>
    show d.displayFlush.mode = d.mode ∧ d.mode.Inside d.displayFlush.cursor
    unfold displayFlush
    split <;> exact ⟨rfl, hin⟩

/-- On every screen of at least 8 by 11 pixels, after `display_init` and whatever calls, the cursor is where the next
    character is wholly on the screen, and the next call draws no glyph that is not and plots no pixel that is
    clipped. -/
theorem cursor_stays_on_screen {font : Font} {m : Mode} (hwidth : 8 ≤ m.width.toNat ∧ m.width.toNat < 2 ^ 31)
    (hheight : 10 < m.height.toNat ∧ m.height.toNat < 2 ^ 31) {d : Display} (h : (screens font m).Reachable d) :
    d.cursorX.toNat + 8 ≤ d.screenW.toNat ∧ d.cursorY.toNat + 10 < d.screenH.toNat ∧ d.mode = m ∧
    ∀ call, (Traced.execScreen font d call).value = call.exec font d ∧ All (Access.OnScreen m)
      (Traced.execScreen font d call) := by
  have hm : m.Roomy := ⟨⟨hwidth.1, by omega⟩, ⟨hheight.1, by omega⟩⟩
  obtain ⟨rfl, hin⟩ : d.mode = m ∧ m.Inside d.cursor := by
    refine h.invariant (I := fun d => d.mode = m ∧ m.Inside d.cursor) ?_ ?_
    · rintro d ⟨d₀, framebuffer, rfl⟩
      exact ⟨rfl, hm.origin⟩
    · rintro d call d' hd rfl
      exact exec_inside hm hd call
  exact ⟨hin.1, hin.2, rfl, fun call => ⟨Traced.value_execScreen font d call, Traced.execScreen_onScreen hm hin call⟩⟩

/-- The smallest such screen, on which every character scrolls. -/
theorem cursor_stays_on_screen_smallest : ∃ d : Display, (screens (fun _ _ => 0) ⟨8, 11, 8⟩).Reachable d ∧
    d = (unset.displayInit (fun _ => 0) ⟨8, 11, 8⟩).printChar (fun _ _ => 0) 0x41 ∧
    d.cursorX.toNat + 8 ≤ d.screenW.toNat ∧ d.cursorY.toNat + 10 < d.screenH.toNat := by
  have hinit : (screens (fun _ _ => 0) ⟨8, 11, 8⟩).Reachable (unset.displayInit (fun _ => 0) ⟨8, 11, 8⟩) :=
    .init ⟨unset, fun _ => 0, rfl⟩
  have hreach := hinit.step (e := .printChar 0x41) rfl
  obtain ⟨hx, hy, -⟩ := cursor_stays_on_screen ⟨by decide, by decide⟩ ⟨by decide, by decide⟩ hreach
  exact ⟨_, hreach, rfl, hx, hy⟩

end Display
end SamOS
