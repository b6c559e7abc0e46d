import SamOS.DisplayCursor
import SamOS.Font
import Mathlib.Data.List.Induction
import Mathlib.Data.List.TakeWhile

/-! Typing and erasing. The shell takes back a character with `\b \b`: the cursor steps back, a space goes over the
    character, and the cursor steps back again. A character at the end of a line moves the cursor to the next line
    before the last column, but a step back over the start of a line always goes to the last column. -/

namespace SamOS
open Function Loop Display

/-! ### The cursor -/

namespace Mode

/-- A character at the cursor scrolls. -/
def ScrollsFrom (m : Mode) (cur : Cursor) : Prop := m.width ≤ cur.x + 8 + 8 ∧ m.height ≤ cur.y + 10 + 10

/-- A character at the cursor leaves it on its line. -/
def KeepsLine (m : Mode) (cur : Cursor) : Prop := cur.x.toNat + 8 < 2 ^ 32 ∧ cur.x + 8 + 8 < m.width

/-- The cursor is on the last column, and a character moves it to the next line. -/
def AtEdge (m : Mode) (cur : Cursor) : Prop :=
  cur.x = m.width - 8 ∧ m.width ≤ cur.x + 8 + 8 ∧ cur.y.toNat + 10 < 2 ^ 32

variable {m : Mode} {x y : BitVec 32}

theorem back_forward (hw : 24 ≤ m.width.toNat) (hstay : ¬m.ScrollsFrom ⟨x, y⟩)
    (h : m.KeepsLine ⟨x, y⟩ ∨ m.AtEdge ⟨x, y⟩) :
    m.back (m.forward ⟨x, y⟩) = ⟨x, y⟩ := by
  rcases h with ⟨hx, hkeep⟩ | ⟨hx, hwrap, hy⟩
  · dsimp only at hx hkeep
    rw [forward_keeps hkeep, back_left (by bv_omega), BitVec.add_sub_cancel]
  · dsimp only at hx hwrap hy
    have hline : m.lineAfter y = y + 10 := if_neg fun hs => hstay ⟨hwrap, hs⟩
    rw [forward_wraps hwrap, hline, back_up (by bv_omega) (by decide) (by bv_omega), BitVec.add_sub_cancel, ← hx]

theorem forward_ne (hstay : ¬m.ScrollsFrom ⟨x, y⟩) : m.forward ⟨x, y⟩ ≠ ⟨x, y⟩ := by
  intro h
  by_cases hwrap : m.width ≤ x + 8 + 8
  · have hline : m.lineAfter y = y + 10 := if_neg fun hs => hstay ⟨hwrap, hs⟩
    rw [forward_wraps hwrap, hline] at h
    have hy : y + 10 = y := congrArg Cursor.y h
    clear hwrap
    bv_omega
  · rw [forward_keeps (BitVec.not_le.mp hwrap)] at h
    have hx : x + 8 = x := congrArg Cursor.x h
    clear hwrap
    bv_omega

theorem back_forward_last (hw : 24 ≤ m.width.toNat) (hstay : ¬m.height ≤ y + 10 + 10) (hy : 10 ≤ y + 10) :
    m.back (m.forward ⟨m.width - 8, y⟩) = ⟨m.width - 8, y⟩ := by
  by_cases hwrap : m.width ≤ m.width - 8 + 8 + 8
  · have hline : m.lineAfter y = y + 10 := if_neg hstay
    rw [forward_wraps hwrap, hline, back_up (by bv_omega) (by decide) hy, BitVec.add_sub_cancel]
  · rw [forward_keeps (BitVec.not_le.mp hwrap), back_left (by bv_omega), BitVec.add_sub_cancel]

theorem lineAfter_above (m : Mode) (y : BitVec 32) : m.lineAfter (y - 10) = y ∨ m.lineAfter (y - 10) = y - 10 := by
  unfold lineAfter
  split
  · exact Or.inr (BitVec.add_sub_cancel ..)
  · exact Or.inl (BitVec.sub_add_cancel ..)

theorem back_row (m : Mode) (y : BitVec 32) : (m.back ⟨0, y⟩).y = y - 10 ∨ y < 10 ∧ (m.back ⟨0, y⟩).y = y := by
  unfold back
  rw [if_neg (show ¬(8 : BitVec 32) ≤ 0 by decide)]
  split
  · exact Or.inl rfl
  · rename_i hy
    exact Or.inr ⟨BitVec.not_le.mp hy, rfl⟩

/-- Going up by a line and typing there does not come back to the row. -/
theorem back_forward_above (hw : 24 ≤ m.width.toNat) (hy : 10 ≤ y) :
    (m.back (m.forward ⟨m.width - 8, y - 10⟩)).y ≠ y := by
  intro h
  by_cases hwrap : m.width ≤ m.width - 8 + 8 + 8
  · rw [forward_wraps hwrap] at h
    clear hw hwrap
    rcases lineAfter_above m y with hline | hline <;> rw [hline] at h <;> rcases back_row m
      _ with hback | ⟨hlt, hback⟩ <;>
      rw [hback] at h <;> bv_omega
  · rw [forward_keeps (BitVec.not_le.mp hwrap), back_left (by bv_omega)] at h
    replace h : y - 10 = y := h
    clear hw hwrap
    bv_omega

/-- Only there `\b \b` comes back to where the character was typed. -/
theorem keepsLine_or_atEdge (hw : 24 ≤ m.width.toNat) (hstay : ¬m.ScrollsFrom ⟨x, y⟩)
    (h : m.back (m.forward (m.back (m.forward ⟨x, y⟩))) = ⟨x, y⟩) : m.KeepsLine ⟨x, y⟩ ∨ m.AtEdge ⟨x, y⟩ := by
  have hwide : (8 : BitVec 32) ≤ m.width := by bv_omega
  by_cases hwrap : m.width ≤ x + 8 + 8
  · have hrow : ¬m.height ≤ y + 10 + 10 := fun hs => hstay ⟨hwrap, hs⟩
    have hline : m.lineAfter y = y + 10 := if_neg hrow
    rw [forward_wraps hwrap, hline] at h
    by_cases hy : (10 : BitVec 32) ≤ y + 10
    · rw [back_up hwide (by decide) hy, BitVec.add_sub_cancel, back_forward_last hw hrow hy] at h
      have hx : m.width - 8 = x := congrArg Cursor.x h
      exact Or.inr ⟨hx.symm, hwrap, by dsimp only; bv_omega⟩
    · -- the row below has wrapped to the top of the screen
      rw [back_stays (by decide) (BitVec.not_le.mp hy), forward_keeps (by bv_omega), back_left (by decide)] at h
      have hy' : y + 10 = y := congrArg Cursor.y h
      bv_omega
  · rw [forward_keeps (BitVec.not_le.mp hwrap)] at h
    by_cases hx : (8 : BitVec 32) ≤ x + 8
    · exact Or.inl ⟨by dsimp only; bv_omega, BitVec.not_le.mp hwrap⟩
    · -- the column has wrapped to the left of the screen
      by_cases hy : (10 : BitVec 32) ≤ y
      · rw [back_up hwide (BitVec.not_le.mp hx) hy] at h
        exact absurd (congrArg Cursor.y h) (back_forward_above hw hy)
      · rw [back_stays (BitVec.not_le.mp hx) (BitVec.not_le.mp hy), forward_keeps (by bv_omega),
          back_left (by bv_omega)] at h
        have hx' : x + 8 + 8 - 8 = x := congrArg Cursor.x h
        bv_omega

theorem not_atEdge_forward (hw : 24 ≤ m.width.toNat) (h : m.KeepsLine ⟨x, y⟩ ∨ m.AtEdge ⟨x, y⟩) :
    ¬m.AtEdge (m.forward ⟨x, y⟩) := by
  rintro ⟨hedge, -, -⟩
  rcases h with ⟨-, hkeep⟩ | ⟨-, hwrap, -⟩
  · dsimp only at hkeep
    rw [forward_keeps hkeep] at hedge
    dsimp only at hedge
    rw [hedge, BitVec.sub_add_cancel] at hkeep
    exact BitVec.lt_irrefl _ hkeep
  · dsimp only at hwrap
    rw [forward_wraps hwrap] at hedge
    dsimp only at hedge
    clear hwrap
    bv_omega

/-! ### Modes in which no coordinate wraps -/

/-- The coordinates of the cursor stay well below `2 ^ 32`. -/
structure Ordinary (m : Mode) : Prop where
  width : 24 ≤ m.width.toNat ∧ m.width.toNat + 8 < 2 ^ 32
  height : 20 < m.height.toNat ∧ m.height.toNat + 10 ≤ 2 ^ 32

theorem Ordinary.roomy (h : m.Ordinary) : m.Roomy :=
  ⟨⟨Nat.le_trans (by decide) h.width.1, h.width.2⟩, ⟨Nat.lt_trans (by decide) h.height.1, h.height.2⟩⟩

theorem Ordinary.wraps (h : m.Ordinary) (hc : m.Inside ⟨x, y⟩) (hbad : ¬m.KeepsLine ⟨x, y⟩) : m.width ≤ x + 8 + 8 := by
  have hwidth := h.width
  have hx : x.toNat + 8 ≤ m.width.toNat := hc.1
  by_contra hwrap
  exact hbad ⟨show x.toNat + 8 < 2 ^ 32 by omega, BitVec.not_le.mp hwrap⟩

/-- Where `\b \b` leads to from the start of the line under `y`, and from there: the last column of `y`. -/
theorem Ordinary.stuck (h : m.Ordinary) (hy : y.toNat + 10 < m.height.toNat) (hstay : ¬m.height ≤ y + 10 + 10) :
    m.back (m.forward (m.back ⟨0, y + 10⟩)) = ⟨m.width - 8, y⟩ ∧ m.back (m.forward (m.back ⟨m.width - 8, y⟩)) =
      ⟨m.width - 8, y⟩ := by
  have hwidth := h.width
  have hheight := h.height
  have hrow : (10 : BitVec 32) ≤ y + 10 := by bv_omega
  have hwide : (8 : BitVec 32) ≤ m.width := by bv_omega
  have hline : m.lineAfter y = y + 10 := if_neg hstay
  refine ⟨?_, ?_⟩
  · rw [back_up hwide (by decide) hrow, BitVec.add_sub_cancel, back_forward_last hwidth.1 hstay hrow]
  · have hleft : (8 : BitVec 32) ≤ m.width - 8 := by bv_omega
    have hwrap : m.width ≤ m.width - 8 - 8 + 8 + 8 := by bv_omega
    rw [back_left hleft, forward_wraps hwrap, hline, back_up hwide (by decide) hrow, BitVec.add_sub_cancel]

end Mode

/-- A character that the shell takes. -/
def Printable (c : BitVec 8) : Prop := 0x20#8 ≤ c ∧ c ≤ 0x7E#8

instance (c : BitVec 8) : Decidable (Printable c) := inferInstanceAs (Decidable (_ ∧ _))

theorem Printable.ne {c e : BitVec 8} (h : Printable c) (he : e < 0x20#8) : c ≠ e := by
  rintro rfl
  exact absurd h.1 (BitVec.not_le.mpr he)

theorem Printable.drawn {c : BitVec 8} (h : Printable c) : Drawn c :=
  ⟨h.ne (by decide), h.ne (by decide), h.ne (by decide)⟩

namespace Display
variable {font : Font} {c : BitVec 8}

theorem scrollsAt_iff (d : Display) (hc : Drawn c) : d.scrollsAt c ↔ d.mode.ScrollsFrom d.cursor := by
  unfold scrollsAt
  rw [if_neg hc.1, and_iff_right hc.2.1, and_iff_right hc.2.2]
  rfl

/-! ### The pixels -/

/-- The pixels that are drawn to. -/
def pixels (d : Display) : Nat → BitVec 32 := if d.sbSet then d.sb else d.fb

/-- If the pixel is on the screen, it has the background colour. -/
def BlankAt (d : Display) (x y : BitVec 32) : Prop :=
  x < d.screenW → y < d.screenH → d.pixels (y * d.pitch + x).toNat = bgColor

/-- The cell of a character at the cursor has the background colour. -/
def CellBlank (d : Display) (cur : Cursor) : Prop :=
  ∀ row < 8, ∀ col < 8, d.BlankAt (cur.x + BitVec.ofNat 32 col) (cur.y + BitVec.ofNat 32 row)

/-- `d'` differs from `d` in the cursor, and in pixels that have the background colour. -/
structure Blanks (d d' : Display) : Prop where
  setup : d'.setup = d.setup
  pixels : ∀ i, d'.pixels i = bgColor ∨ d'.pixels i = d.pixels i

namespace Blanks
variable {d d' d'' : Display}

theorem refl (d : Display) : Blanks d d := ⟨rfl, fun _ => Or.inr rfl⟩

theorem trans (h : Blanks d d') (h' : Blanks d' d'') : Blanks d d'' := by
  refine ⟨h'.setup.trans h.setup, fun i => ?_⟩
  rcases h'.pixels i with hi | hi
  · exact Or.inl hi
  · rw [hi]
    exact h.pixels i

theorem mode (h : Blanks d d') : d'.mode = d.mode := congrArg Prod.fst h.setup

theorem blankAt (h : Blanks d d') {x y : BitVec 32} (hb : d.BlankAt x y) : d'.BlankAt x y := by
  intro hx hy
  have hmode := h.mode
  rw [show d'.screenW = d.screenW from congrArg Mode.width hmode] at hx
  rw [show d'.screenH = d.screenH from congrArg Mode.height hmode] at hy
  rw [show d'.pitch = d.pitch from congrArg Mode.pitch hmode]
  rcases h.pixels (y * d.pitch + x).toNat with hi | hi
  · exact hi
  · rw [hi]
    exact hb hx hy

theorem cellBlank (h : Blanks d d') {cur : Cursor} (hb : d.CellBlank cur) : d'.CellBlank cur :=
  fun row hrow col hcol => h.blankAt (hb row hrow col hcol)

end Blanks

theorem putPixel_pixels (d : Display) (x y color : BitVec 32) : (d.putPixel x y color).pixels =
    if d.screenW ≤ x ∨ d.screenH ≤ y then d.pixels else update d.pixels (y * d.pitch + x).toNat color := by
  unfold putPixel pixels
  split
  · rfl
  · cases d.sbSet <;> rfl

theorem putPixel_blanks (d : Display) (x y : BitVec 32) :
    Blanks d (d.putPixel x y bgColor) ∧ (d.putPixel x y bgColor).BlankAt x y := by
  have hsame := SameScreen.putPixel d x y bgColor
  refine ⟨⟨hsame.setup, fun i => ?_⟩, fun hx hy => ?_⟩
  · rw [putPixel_pixels]
    split
    · exact Or.inr rfl
    · by_cases hi : i = (y * d.pitch + x).toNat
      · rw [hi, update_self]
        exact Or.inl rfl
      · rw [update_of_ne hi]
        exact Or.inr rfl
  · rw [hsame.screenW] at hx
    rw [hsame.screenH] at hy
    rw [putPixel_pixels, hsame.pitch, if_neg (by simp [BitVec.not_le, hx, hy]), update_self]

theorem glyphColor_space (h : font.Basic) {row : Nat} (hrow : row < 8) (col : Nat) :
    glyphColor font 0x20#8 row col = bgColor := by
  unfold glyphColor
  rw [h.space hrow]
  exact if_neg (by simp)

theorem drawChar_space (h : font.Basic) (d : Display) (x y : BitVec 32) :
    Blanks d (d.drawChar font 0x20#8 x y) ∧ (d.drawChar font 0x20#8 x y).CellBlank ⟨x, y⟩ := by
  unfold drawChar
  refine forRange_invariant
    (P := fun n (t : Display) => Blanks d t ∧ ∀ row < n, ∀ col < 8, t.BlankAt (x + BitVec.ofNat 32 col)
      (y + BitVec.ofNat 32 row))
    (Nat.zero_le 8) ⟨.refl d, fun row hrow => absurd hrow (Nat.not_lt_zero row)⟩ fun n t _ hn ht => ?_
  have hrow : Blanks t (t.drawRow font 0x20#8 x y n) ∧
      ∀ col < 8, (t.drawRow font 0x20#8 x y n).BlankAt (x + BitVec.ofNat 32 col) (y + BitVec.ofNat 32 n) := by
    unfold drawRow
    refine forRange_invariant (P := fun k (u : Display) => Blanks t u ∧ ∀ col < k, u.BlankAt (x + BitVec.ofNat 32 col)
      (y + BitVec.ofNat 32 n))
      (Nat.zero_le 8) ⟨.refl t, fun col hcol => absurd hcol (Nat.not_lt_zero col)⟩ fun k u _ hk hu => ?_
    rw [glyphColor_space h hn]
    obtain ⟨hblanks, hpixel⟩ := putPixel_blanks u (x + BitVec.ofNat 32 k) (y + BitVec.ofNat 32 n)
    refine ⟨hu.1.trans hblanks, fun col hcol => ?_⟩
    rcases Nat.lt_succ_iff_lt_or_eq.mp hcol with hcol | rfl
    · exact hblanks.blankAt (hu.2 col hcol)
    · exact hpixel
  refine ⟨ht.1.trans hrow.1, fun row hr col hcol => ?_⟩
  rcases Nat.lt_succ_iff_lt_or_eq.mp hr with hr | rfl
  · exact hrow.1.blankAt (ht.2 row hr col hcol)
  · exact hrow.2 col hcol

theorem backspace_blanks (h : font.Basic) (d : Display) :
    Blanks d (d.backspace font) ∧
      (8 ≤ d.cursorX ∨ 10 ≤ d.cursorY → (d.backspace font).CellBlank (d.backspace font).cursor) := by
  have hdraw (x y : BitVec 32) (t : Display) (ht : t = { d with cursorX := x, cursorY := y }) :
      Blanks d (t.drawChar font 0x20#8 x y) ∧ (t.drawChar font 0x20#8 x y).CellBlank
        (t.drawChar font 0x20#8 x y).cursor := by
    obtain ⟨hblanks, hcell⟩ := drawChar_space h t x y
    rw [(SameScreen.drawChar ..).cursor]
    subst ht
    have hcursor : Blanks d { d with cursorX := x, cursorY := y } := ⟨rfl, fun _ => Or.inr rfl⟩
    exact ⟨hcursor.trans hblanks, hcell⟩
  unfold backspace
  split
  · obtain ⟨hblanks, hcell⟩ := hdraw (d.cursorX - 8) d.cursorY { d with cursorX := d.cursorX - 8 } rfl
    exact ⟨hblanks, fun _ => hcell⟩
  · split
    · dsimp only
      generalize (if 8 ≤ d.screenW then d.screenW - 8 else 0) = x
      obtain ⟨hblanks, hcell⟩ := hdraw x (d.cursorY - 10) { d with cursorX := x, cursorY := d.cursorY - 10 } rfl
      exact ⟨hblanks, fun _ => hcell⟩
    · rename_i hx hy
      exact ⟨.refl d, fun hor => absurd hor (not_or.mpr ⟨hx, hy⟩)⟩

variable {d : Display}

theorem printChar_space_blanks (h : font.Basic) (hstay : ¬d.mode.ScrollsFrom d.cursor) :
    Blanks d (d.printChar font 0x20#8) := by
  have hsame := SameScreen.drawChar font d 0x20#8 d.cursorX d.cursorY
  obtain ⟨hblanks, -⟩ := drawChar_space h d d.cursorX d.cursorY
  rw [printChar_eq d (by decide)]
  generalize Display.drawChar font d 0x20#8 d.cursorX d.cursorY = t at hsame hblanks
  split
  · rename_i hwrap
    have hline : ¬t.screenH ≤ t.cursorY + 10 + 10 := by
      rw [hsame.screenH, hsame.cursorY]
      exact fun hs => hstay ⟨hwrap, hs⟩
    unfold newLine
    dsimp only
    rw [if_neg hline]
    exact hblanks.trans ⟨rfl, fun _ => Or.inr rfl⟩
  · exact hblanks.trans ⟨rfl, fun _ => Or.inr rfl⟩

/-! ### Erasing -/

/-- The string that takes back a character. -/
def eraser : List (BitVec 8) := [0x08, 0x20, 0x08]

/-- `n` times `print("\b \b")`. -/
def eraseChars (font : Font) : Nat → Display → Display
  | 0, d => d
  | n + 1, d => eraseChars font n (d.print font eraser)

/-- A character at the cursor does not scroll, and a step back returns to it. -/
structure Returns (m : Mode) (cur : Cursor) : Prop where
  stays : ¬m.ScrollsFrom cur
  back : m.back (m.forward cur) = cur

theorem Returns.moves {m : Mode} {cur : Cursor} (h : Returns m cur) :
    8 ≤ (m.forward cur).x ∨ 10 ≤ (m.forward cur).y := by
  by_contra hnot
  obtain ⟨hx, hy⟩ := not_or.mp hnot
  have hback : m.back (m.forward cur) = m.forward cur := Mode.back_stays (BitVec.not_le.mp hx) (BitVec.not_le.mp hy)
  exact Mode.forward_ne h.stays (hback.symm.trans h.back)

theorem printChar_backspace (d : Display) : d.printChar font 0x08#8 = d.backspace font := by
  unfold printChar
  rw [if_neg (by decide), if_neg (by decide), if_pos rfl]

theorem print_eraser_eq (d : Display) :
    d.print font eraser = backspace font (printChar font (backspace font d) 0x20#8) := by
  unfold print
  rw [show eraser.takeWhile (· ≠ 0) = [0x08#8, 0x20#8, 0x08#8] by decide, List.foldl_cons, List.foldl_cons,
    List.foldl_cons, List.foldl_nil, printChar_backspace, printChar_backspace]

theorem print_eraser_cursor (d : Display) :
    (d.print font eraser).cursor = d.mode.back (d.mode.forward (d.mode.back d.cursor)) := by
  have hmode₁ : (backspace font d).mode = d.mode := congrArg Prod.fst (backspace_setup font d)
  have hmode₂ : (printChar font (backspace font d) 0x20#8).mode = d.mode := (printChar_mode font _ _).trans hmode₁
  rw [print_eraser_eq, backspace_cursor, hmode₂, printChar_cursor _ (by decide), hmode₁, backspace_cursor]

theorem print_eraser (hfont : font.Basic) {cur : Cursor} (h : Returns d.mode cur)
    (hcur : d.cursor = d.mode.forward cur) :
    (d.print font eraser).cursor = cur ∧ Blanks d (d.print font eraser) ∧ (d.print font eraser).CellBlank cur := by
  rw [print_eraser_eq]
  have hblanks₁ := (backspace_blanks hfont d).1
  have hcur₁ : (backspace font d).cursor = cur := by rw [backspace_cursor, hcur, h.back]
  generalize backspace font d = d₁ at hblanks₁ hcur₁ ⊢
  rw [← hblanks₁.mode] at h hcur
  have hblanks₂ : Blanks d₁ (d₁.printChar font 0x20#8) := printChar_space_blanks hfont (hcur₁ ▸ h.stays)
  have hcur₂ : (d₁.printChar font 0x20#8).cursor = d₁.mode.forward cur := by rw [printChar_cursor d₁ (by decide), hcur₁]
  generalize d₁.printChar font 0x20#8 = d₂ at hblanks₂ hcur₂ ⊢
  rw [← hblanks₂.mode] at h hcur₂
  obtain ⟨hblanks₃, hcell⟩ := backspace_blanks hfont d₂
  have hcur₃ : (backspace font d₂).cursor = cur := by rw [backspace_cursor, hcur₂, h.back]
  have hmoves : 8 ≤ d₂.cursor.x ∨ 10 ≤ d₂.cursor.y := by
    rw [hcur₂]
    exact h.moves
  rw [hcur₃] at hcell
  exact ⟨hcur₃, (hblanks₁.trans hblanks₂).trans hblanks₃, hcell hmoves⟩

/-! ### Typing and erasing -/

/-- Characters drawn one after the other. -/
def typed (font : Font) (d : Display) (s : List (BitVec 8)) : Display := s.foldl (printChar font) d

theorem print_eq_typed (d : Display) {s : List (BitVec 8)} (hs : ∀ c ∈ s, Printable c) :
    d.print font s = d.typed font s := by
  unfold print typed
  rw [List.takeWhile_eq_self_iff.mpr]
  intro c hc
  exact decide_eq_true ((hs c hc).ne (by decide))

theorem print_nil (d : Display) : d.print font [] = d := rfl

theorem typed_append (d : Display) (s : List (BitVec 8)) (c : BitVec 8) :
    d.typed font (s ++ [c]) = (d.typed font s).printChar font c :=
  List.foldl_append

theorem typed_setup (font : Font) (d : Display) (s : List (BitVec 8)) : (d.typed font s).setup = d.setup := by
  unfold typed
  induction s generalizing d with
  | nil => rfl
  | cons c s ih => exact (ih (d.printChar font c)).trans (printChar_setup font d c)

theorem print_cursor (d : Display) {s : List (BitVec 8)} (hs : ∀ c ∈ s, Printable c) :
    (d.print font s).cursor = s.foldl (fun cur _ => d.mode.forward cur) d.cursor := by
  rw [print_eq_typed d hs]
  unfold typed
  induction s generalizing d with
  | nil => rfl
  | cons c s ih =>
    rw [List.foldl_cons, List.foldl_cons, ih _ fun e he => hs e (List.mem_cons_of_mem c he), printChar_mode,
      printChar_cursor d (hs c List.mem_cons_self).drawn]

/-- Erasing a text from a screen with the cursor after it, where each of its characters returns. -/
theorem eraseChars_typed (hfont : font.Basic) {v : List (BitVec 8)} (hv : ∀ c ∈ v, Printable c)
    (hreturns : ∀ u c, u ++ [c] <+: v → Returns d.mode (d.typed font u).cursor) {t : Display} (hmode : t.mode = d.mode)
    (hcur : t.cursor = (d.typed font v).cursor) :
    (t.eraseChars font v.length).cursor = d.cursor ∧ Blanks t (t.eraseChars font v.length) ∧
      ∀ u c, u ++ [c] <+: v → (t.eraseChars font v.length).CellBlank (d.typed font u).cursor := by
  -- the last character is taken back first
  induction v using List.reverseRecOn generalizing t with
  | nil => exact ⟨hcur, .refl t, fun u c h => by simp at h⟩
  | append_singleton v c ih =>
    rw [typed_append, printChar_cursor _ (hv c (List.mem_append_right v (List.mem_singleton_self c))).drawn,
      show (d.typed font v).mode = t.mode from (congrArg Prod.fst (typed_setup font d v)).trans hmode.symm] at hcur
    have hlast := hreturns v c List.prefix_rfl
    rw [← hmode] at hlast
    obtain ⟨hcur', hblanks, hcell⟩ := print_eraser hfont hlast hcur
    rw [List.length_append, List.length_singleton]
    show (eraseChars font v.length (t.print font eraser)).cursor = _ ∧
      Blanks t (eraseChars font v.length (t.print font eraser)) ∧
      ∀ u e, _ → (eraseChars font v.length (t.print font eraser)).CellBlank _
    obtain ⟨hback, hblanks', hcells⟩ := ih (fun e he => hv e (List.mem_append_left _ he))
      (fun u e h => hreturns u e (h.trans (List.prefix_append v [c]))) (hblanks.mode.trans hmode) hcur'
    refine ⟨hback, hblanks.trans hblanks', fun u e h => ?_⟩
    rcases List.prefix_concat_iff.mp h with heq | h
    · rw [(List.append_inj' heq rfl).1]
      exact hblanks'.cellBlank hcell
    · exact hcells u e h

/-- Printing the text and erasing it as many times as it has characters returns the cursor, and leaves the cells of
    the text blank. -/
structure Undone (font : Font) (d : Display) (v : List (BitVec 8)) : Prop where
  cursor : ((d.print font v).eraseChars font v.length).cursor = d.cursor
  cells : ∀ u c, u ++ [c] <+: v → ((d.print font v).eraseChars font v.length).CellBlank (d.print font u).cursor

/-- A text of printable characters that does not scroll, on a screen of at least 24 columns. -/
structure Typing (font : Font) (d : Display) (s : List (BitVec 8)) : Prop where
  width : 24 ≤ d.screenW.toNat
  printable : ∀ c ∈ s, Printable c
  stays : ∀ u c, u ++ [c] <+: s → ¬(d.print font u).scrollsAt c

/-- Each character of the text keeps its line, or is the first one and at the edge of the screen. -/
def KeepsLines (font : Font) (d : Display) (s : List (BitVec 8)) : Prop :=
  ∀ u c, u ++ [c] <+: s → d.mode.KeepsLine (d.print font u).cursor ∨ u = [] ∧ d.mode.AtEdge d.cursor

namespace Typing
variable {d : Display} {s u v : List (BitVec 8)}

theorem last (h : Typing font d s) (hu : u ++ [c] <+: s) : Printable c :=
  h.printable c (hu.subset (List.mem_append_right u (List.mem_singleton_self c)))

theorem print_append (h : Typing font d s) (huv : u ++ v <+: s) :
    d.print font (u ++ v) = (d.print font u).print font v := by
  have hprintable : ∀ c ∈ u ++ v, Printable c := fun c hc => h.printable c (huv.subset hc)
  rw [print_eq_typed d hprintable, print_eq_typed d fun c hc => hprintable c (List.mem_append_left v hc),
    print_eq_typed _ fun c hc => hprintable c (List.mem_append_right u hc)]
  exact List.foldl_append

theorem next (h : Typing font d s) (hu : u ++ [c] <+: s) :
    (d.print font (u ++ [c])).cursor = d.mode.forward (d.print font u).cursor := by
  rw [h.print_append hu, print_cursor _ (List.forall_mem_singleton.mpr (h.last hu)), print_mode]
  rfl

theorem notScrolls (h : Typing font d s) (hu : u ++ [c] <+: s) : ¬d.mode.ScrollsFrom (d.print font u).cursor := by
  have hstay := mt (scrollsAt_iff _ (h.last hu).drawn).mpr (h.stays u c hu)
  rwa [print_mode] at hstay

theorem drop (h : Typing font d s) (huv : u ++ v <+: s) : Typing font (d.print font u) v := by
  refine ⟨?_, fun c hc => h.printable c (huv.subset (List.mem_append_right u hc)), fun w c hwc => ?_⟩
  · rw [show (d.print font u).screenW = d.screenW from congrArg Mode.width (print_mode font d u)]
    exact h.width
  · have hpre : u ++ w ++ [c] <+: s := by
      rw [List.append_assoc]
      exact ((List.prefix_append_right_inj u).mpr hwc).trans huv
    rw [← h.print_append ((List.prefix_append _ [c]).trans hpre)]
    exact h.stays _ c hpre

theorem returns (h : Typing font d s) (hu : u ++ [c] <+: s)
    (hkeep : d.mode.KeepsLine (d.print font u).cursor ∨ d.mode.AtEdge (d.print font u).cursor) :
    Returns d.mode (d.print font u).cursor :=
  ⟨h.notScrolls hu, Mode.back_forward h.width (h.notScrolls hu) hkeep⟩

theorem undone (hfont : font.Basic) (h : Typing font d s) (hkeeps : KeepsLines font d s) : Undone font d s := by
  have htyped {w : List (BitVec 8)} (hw : w <+: s) : d.typed font w = d.print font w :=
    (print_eq_typed d fun c hc => h.printable c (hw.subset hc)).symm
  have hreturns (w : List (BitVec 8)) (c : BitVec 8) (hwc : w ++ [c] <+: s) :
      Returns d.mode (d.typed font w).cursor := by
    rw [htyped ((List.prefix_append w [c]).trans hwc)]
    refine h.returns hwc ((hkeeps w c hwc).imp_right ?_)
    rintro ⟨rfl, hedge⟩
    exact hedge
  obtain ⟨hcur, -, hcells⟩ := eraseChars_typed hfont h.printable hreturns (print_mode font d s)
    (by rw [htyped List.prefix_rfl])
  refine ⟨hcur, fun w c hwc => ?_⟩
  rw [← htyped ((List.prefix_append w [c]).trans hwc)]
  exact hcells w c hwc

/-- A single character that is undone keeps its line, or is at the edge. -/
theorem keeps_of_undone (h : Typing font d [c]) (hundone : Undone font d [c]) :
    d.mode.KeepsLine d.cursor ∨ d.mode.AtEdge d.cursor := by
  have honly : [] ++ [c] <+: [c] := List.prefix_rfl
  have hnext := h.next honly
  have hstays := h.notScrolls honly
  rw [print_nil] at hnext hstays
  have hcur : ((d.print font ([] ++ [c])).print font eraser).cursor = d.cursor := hundone.cursor
  rw [print_eraser_cursor, print_mode, hnext] at hcur
  exact Mode.keepsLine_or_atEdge h.width hstays hcur

/-- If every part of the text that is typed is undone, each character keeps its line, or is the first one and at the
    edge. -/
theorem keepsLines (h : Typing font d s) (hundone : ∀ u v, u ++ v <+: s → Undone font (d.print font u) v) :
    KeepsLines font d s := by
  have hone (u : List (BitVec 8)) (c : BitVec 8) (hu : u ++ [c] <+: s) :
      d.mode.KeepsLine (d.print font u).cursor ∨ d.mode.AtEdge (d.print font u).cursor := by
    have hkeeps := (h.drop hu).keeps_of_undone (hundone u [c] hu)
    rwa [print_mode] at hkeeps
  intro u c hu
  refine (hone u c hu).imp_right fun hedge => ?_
  rcases List.eq_nil_or_concat' u with rfl | ⟨u', e, rfl⟩
  · exact ⟨rfl, hedge⟩
  · -- the character before comes back itself, and does not lead to the edge
    have hu' : u' ++ [e] <+: s := (List.prefix_append _ [c]).trans hu
    rw [h.next hu'] at hedge
    exact absurd hedge (Mode.not_atEdge_forward h.width (hone u' e hu'))

end Typing

/-! ### Cursors that printing reaches -/

/-- The display after `display_init` and calls that print or set the shadow. -/
def Reached (font : Font) (d : Display) : Prop :=
  ∃ (d₀ : Display) (framebuffer : Nat → BitVec 32) (calls : List TextCall),
    d = calls.foldl (TextCall.exec font) (d₀.displayInit framebuffer d.mode)

section Inside
variable {d : Display}

theorem Reached.inside (hm : d.mode.Roomy) (h : Reached font d) : d.mode.Inside d.cursor := by
  obtain ⟨d₀, framebuffer, calls, hd⟩ := h
  generalize d.mode = m at hm hd ⊢
  subst hd
  have hstart : (d₀.displayInit framebuffer m).mode = m ∧ m.Inside (d₀.displayInit framebuffer m).cursor :=
    ⟨rfl, hm.origin⟩
  generalize d₀.displayInit framebuffer m = t at hstart
  induction calls generalizing t with
  | nil => exact hstart.2
  | cons call calls ih =>
    obtain ⟨rfl, hin⟩ := hstart
    refine ih _ ⟨Traced.exec_mode font t call, ?_⟩
    cases call with
    | setShadow buffer => exact hin
    | print str => exact print_inside hm hin str

theorem eraseChars_stuck {m : Mode} (hm : m.Ordinary) {y : BitVec 32} (hy : y.toNat + 10 < m.height.toNat)
    (hstay : ¬m.height ≤ y + 10 + 10) (hmode : d.mode = m) (hcur : d.cursor = ⟨m.width - 8, y⟩) (n : Nat) :
    (d.eraseChars font n).cursor = ⟨m.width - 8, y⟩ := by
  induction n generalizing d with
  | zero => exact hcur
  | succ n ih =>
    refine ih ((print_mode font d eraser).trans hmode) ?_
    rw [print_eraser_cursor, hmode, hcur, (hm.stuck hy hstay).2]

end Inside

namespace Typing
variable {d : Display} {s u v : List (BitVec 8)}

theorem inside (h : Typing font d s) (hm : d.mode.Ordinary) (hin : d.mode.Inside d.cursor) (hu : u <+: s) :
    d.mode.Inside (d.print font u).cursor ∧ d.cursor.y.toNat ≤ (d.print font u).cursor.y.toNat := by
  rw [print_cursor d fun c hc => h.printable c (hu.subset hc)]
  clear hu
  generalize d.cursor = cur at hin
  induction u generalizing cur with
  | nil => exact ⟨hin, Nat.le_refl _⟩
  | cons c u ih =>
    obtain ⟨hnext, hle⟩ := hm.roomy.forward hin
    obtain ⟨hrest, hle'⟩ := ih _ hnext
    exact ⟨hrest, Nat.le_trans hle hle'⟩

theorem next_wraps {c : BitVec 8} (h : Typing font d s) (hv : v ++ [c] <+: s)
    (hwrap : d.mode.width ≤ (d.print font v).cursor.x + 8 + 8) :
    ¬d.mode.height ≤ (d.print font v).cursor.y + 10 + 10 ∧
      (d.print font (v ++ [c])).cursor = ⟨0, (d.print font v).cursor.y + 10⟩ := by
  have hstay : ¬d.mode.height ≤ (d.print font v).cursor.y + 10 + 10 := fun hs => h.notScrolls hv ⟨hwrap, hs⟩
  have hline : d.mode.lineAfter (d.print font v).cursor.y = (d.print font v).cursor.y + 10 := if_neg hstay
  rw [h.next hv, Mode.forward_wraps hwrap, hline]
  exact ⟨hstay, rfl⟩

/-- If a character does not keep its line, erasing ends on the last column of such a one. -/
theorem ends_at_edge (h : Typing font d s) (hm : d.mode.Ordinary) (hin : d.mode.Inside d.cursor) (hv : v <+: s)
    (hbad : ¬KeepsLines font d v) {t : Display} (hmode : t.mode = d.mode)
    (hcur : t.cursor = (d.print font v).cursor) :
    ∃ u c, u ++ [c] <+: v ∧ ¬(d.mode.KeepsLine (d.print font u).cursor ∨ u = [] ∧ d.mode.AtEdge d.cursor) ∧
      (t.eraseChars font v.length).cursor = ⟨d.mode.width - 8, (d.print font u).cursor.y⟩ := by
  induction v using List.reverseRecOn generalizing t with
  | nil => exact absurd (fun u c hu => by simp at hu) hbad
  | append_singleton v c ih =>
    have hpre : v <+: s := (List.prefix_append v [c]).trans hv
    rw [List.length_append, List.length_singleton]
    show ∃ u e, _ ∧ _ ∧ (eraseChars font v.length (t.print font eraser)).cursor = _
    have herase : (t.print font eraser).cursor = d.mode.back
        (d.mode.forward (d.mode.back (d.print font (v ++ [c])).cursor)) := by
      rw [print_eraser_cursor, hmode, hcur]
    by_cases hc : d.mode.KeepsLine (d.print font v).cursor ∨ v = [] ∧ d.mode.AtEdge d.cursor
    · -- it is taken back, and the one that does not keep its line is before it
      have hreturns : Returns d.mode (d.print font v).cursor := by
        refine h.returns hv (hc.imp_right ?_)
        rintro ⟨rfl, hedge⟩
        exact hedge
      rw [h.next hv, hreturns.back, hreturns.back] at herase
      have hbefore : ¬KeepsLines font d v := by
        intro hkeeps
        refine hbad fun u e hu => ?_
        rcases List.prefix_concat_iff.mp hu with heq | hu
        · rw [(List.append_inj' heq rfl).1]
          exact hc
        · exact hkeeps u e hu
      obtain ⟨u, e, hu, hkeep, hend⟩ := ih hpre hbefore ((print_mode font t eraser).trans hmode) herase
      exact ⟨u, e, hu.trans (List.prefix_append v [c]), hkeep, hend⟩
    · refine ⟨v, c, List.prefix_rfl, hc, ?_⟩
      have hinside := (h.inside hm hin hpre).1
      have hwrap := hm.wraps hinside fun hkeep => hc (Or.inl hkeep)
      obtain ⟨hstay, hnext⟩ := h.next_wraps hv hwrap
      rw [hnext, (hm.stuck hinside.2 hstay).1] at herase
      exact eraseChars_stuck hm hinside.2 hstay ((print_mode font t eraser).trans hmode) herase v.length

/-- On a screen without wrapping coordinates the text alone decides. -/
theorem keepsLines_of_undone (h : Typing font d s) (hm : d.mode.Ordinary) (hin : d.mode.Inside d.cursor)
    (hundone : Undone font d s) :
    KeepsLines font d s := by
  by_contra hbad
  obtain ⟨u, c, hu, hkeep, hend⟩ := h.ends_at_edge hm hin List.prefix_rfl hbad (print_mode font d s) rfl
  rw [hundone.cursor] at hend
  have hx : d.cursor.x = d.mode.width - 8 := congrArg Cursor.x hend
  have hy : d.cursor.y = (d.print font u).cursor.y := by
    have := congrArg Cursor.y hend
    exact this
  cases u with
  | nil =>
    -- the first character is at the edge
    have hheight := hm.height
    have hrow := hin.2
    exact hkeep (Or.inr ⟨rfl, hx, hm.wraps hin fun hkeeps => hkeep (Or.inl hkeeps), by omega⟩)
  | cons a u =>
    -- the first character moves the cursor down, and nothing moves it up again
    have hfirst : [] ++ [a] <+: s := (List.prefix_append [a] (u ++ [c])).trans hu
    have hwidth := hm.width
    have hheight := hm.height
    have hrow := hin.2
    have hwrap : d.mode.width ≤ d.cursor.x + 8 + 8 := by
      rw [hx]
      bv_omega
    have hnext : (d.print font [a]).cursor = ⟨0, d.cursor.y + 10⟩ := (h.next_wraps hfirst hwrap).2
    have hmode := print_mode font d [a]
    have hinside := (h.inside hm hin hfirst).1
    have hrest : [a] ++ (u ++ [c]) <+: s := hu
    have hdown := ((h.drop hrest).inside (hmode ▸ hm) (hmode ▸ hinside) (List.prefix_append u [c])).2
    rw [← h.print_append ((List.prefix_append ([a] ++ u) [c]).trans hu), hnext] at hdown
    replace hdown : (d.cursor.y + 10).toNat ≤ (d.print font (a :: u)).cursor.y.toNat := hdown
    rw [← hy] at hdown
    clear hx hy hwrap hnext
    bv_omega

end Typing

/-- While a text is typed that does not scroll, whatever was typed last can be taken back at every moment exactly if
    each character keeps its line, or is the first one and at the edge of the screen. Where no coordinate wraps, the
    same decides whether erasing the whole text undoes it. -/
theorem erase_undoes_typing_iff (hfont : font.Basic) {d : Display} {s : List (BitVec 8)} (h : Typing font d s) :
    ((∀ u v, u ++ v <+: s → Undone font (d.print font u) v) ↔ KeepsLines font d s) ∧
    (d.mode.Ordinary → Reached font d → (Undone font d s ↔ KeepsLines font d s)) := by
  refine ⟨⟨h.keepsLines, fun hkeeps u v huv => (h.drop huv).undone hfont ?_⟩,
    fun hm hreached => ⟨h.keepsLines_of_undone hm (hreached.inside hm.roomy), h.undone hfont⟩⟩
  intro w c hwc
  have hpre : u ++ w ++ [c] <+: s := by
    rw [List.append_assoc]
    exact ((List.prefix_append_right_inj u).mpr hwc).trans huv
  rw [← h.print_append ((List.prefix_append _ [c]).trans hpre), print_mode]
  refine (hkeeps (u ++ w) c hpre).imp_right ?_
  rintro ⟨hnil, hedge⟩
  obtain ⟨rfl, rfl⟩ := List.append_eq_nil_iff.mp hnil
  exact ⟨rfl, hedge⟩

/-- Two characters at the start of a line of 640 pixels. -/
theorem erase_undoes_typing_short :
    Undone font8x8Basic (unset.displayInit (fun _ => 0) ⟨640, 480, 640⟩) [0x6C, 0x73] := by
  have hpre : ∀ u c, u ++ [c] <+: [0x6C#8, 0x73#8] → u = [] ∧ c = 0x6C#8 ∨ u = [0x6C#8] ∧ c = 0x73#8 := by
    intro u c h
    rcases u with _ | ⟨a, _ | ⟨b, u⟩⟩ <;> simp_all [List.cons_prefix_cons]
  refine ((erase_undoes_typing_iff (fun _ _ _ _ => rfl) ⟨by decide, by decide, fun u c h => ?_⟩).2
    ⟨by decide, by decide⟩ ⟨unset, fun _ => 0, [], rfl⟩).mpr fun u c h => Or.inl ?_
  · rcases hpre u c h with ⟨rfl, rfl⟩ | ⟨rfl, rfl⟩ <;>
      rw [scrollsAt_iff _ (by decide), print_mode, print_cursor _ (by decide)] <;> exact fun hs =>
        absurd hs.1 (by decide)
  · rcases hpre u c h with ⟨rfl, rfl⟩ | ⟨rfl, rfl⟩ <;> rw [print_cursor _ (by decide)] <;> exact ⟨by decide, by decide⟩

/-- On a line of 24 pixels, `ab` wraps; erasing it gets stuck on the last column, which neither of the two characters
    was on. -/
theorem erase_leaves_wrapped_text :
    ¬(unset.displayInit (fun _ => 0) ⟨24, 24, 24⟩).scrollsAt 0x61 ∧
    ¬((unset.displayInit (fun _ => 0) ⟨24, 24, 24⟩).print font8x8Basic [0x61]).scrollsAt 0x62 ∧
    (unset.displayInit (fun _ => 0) ⟨24, 24, 24⟩).cursor = ⟨0, 0⟩ ∧
    (((unset.displayInit (fun _ => 0) ⟨24, 24, 24⟩).print font8x8Basic [0x61, 0x62]).eraseChars font8x8Basic
      2).cursor = ⟨16, 0⟩ := by
  refine ⟨?_, ?_, rfl, ?_⟩
  · rw [scrollsAt_iff _ (by decide)]
    exact fun hs => absurd hs.1 (by decide)
  · rw [scrollsAt_iff _ (by decide), print_mode, print_cursor _ (by decide)]
    exact fun hs => absurd hs.2 (by decide)
  · rw [eraseChars, eraseChars, eraseChars, print_eraser_cursor, print_eraser_cursor, print_mode, print_mode,
      print_cursor _ (by decide)]
    decide

end Display
end SamOS
