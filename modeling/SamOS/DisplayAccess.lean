import SamOS.Display
import SamOS.Lib.Logged

/-! The text output with its calls and accesses: `display_init` and `print` with a note for each call of `draw_char`
    and `put_pixel`, and for each access to the font, to `dirty_rows` and to the pixels of a buffer. -/

namespace SamOS
open Function Display Logged

/-- A call of `draw_char` or of `put_pixel` with its place, or an access to an array of the display. A pixel of the
    shadow is noted with whether the pointer `sb` is set. -/
inductive Access where
  | drawChar (x y : BitVec 32)
  | putPixel (x y : BitVec 32)
  | glyph (c : Nat)
  | dirtyRow (y : Nat)
  | shadow (set : Bool) (i : Nat)
  | frame (i : Nat)
  deriving DecidableEq, Repr

namespace Traced

def markDirty (d : Display) (y : BitVec 32) : Logged Access Display := do
  note (.dirtyRow y.toNat)
  pure (d.markDirty y)

def putPixel (d : Display) (x y color : BitVec 32) : Logged Access Display := do
  note (.putPixel x y)
  if d.screenW ≤ x ∨ d.screenH ≤ y then pure d
  else if d.sbSet then do
    note (.shadow d.sbSet (y * d.pitch + x).toNat)
    markDirty { d with sb := update d.sb (y * d.pitch + x).toNat color } y
  else do
    note (.frame (y * d.pitch + x).toNat)
    pure { d with fb := update d.fb (y * d.pitch + x).toNat color }

/-- The loop over the columns of a glyph. -/
def drawRow (font : Font) (c : BitVec 8) (x y : BitVec 32) (row : Nat) (d : Display) : Logged Access Display :=
  Logged.forRange 0 8 (fun col d => do
    note (.glyph c.toNat)
    putPixel d (x + BitVec.ofNat 32 col) (y + BitVec.ofNat 32 row) (glyphColor font c row col)) d

def drawChar (font : Font) (d : Display) (c : BitVec 8) (x y : BitVec 32) : Logged Access Display := do
  note (.drawChar x y)
  Logged.forRange 0 8 (drawRow font c x y) d

/-- The pixels that a 64-bit word holds, from `s` to `t`. -/
def copyWord (d : Display) (s t : Nat) (sb : Nat → BitVec 32) : Logged Access (Nat → BitVec 32) := do
  note (.shadow d.sbSet s)
  note (.shadow d.sbSet (s + 1))
  note (.shadow d.sbSet t)
  note (.shadow d.sbSet (t + 1))
  pure (Display.copyWord sb s t sb)

def fillRow (d : Display) (y : Nat) (sb : Nat → BitVec 32) : Logged Access (Nat → BitVec 32) :=
  Logged.forRange 0 d.pitch.toNat (fun x sb => do
    note (.shadow d.sbSet (BitVec.ofNat 32 y * d.pitch + BitVec.ofNat 32 x).toNat)
    pure (update sb (BitVec.ofNat 32 y * d.pitch + BitVec.ofNat 32 x).toNat bgColor)) sb

/-- `dirty_rows[y] = mark` for all rows below `height`. -/
def setRows (height : Nat) (mark : Bool) (rows : Nat → Bool) : Logged Access (Nat → Bool) :=
  Logged.forRange 0 height (fun y rows => do
    note (.dirtyRow y)
    pure (update rows y mark)) rows

def scroll (d : Display) : Logged Access Display := do
  let rowBytes := (d.pitch * 4).toNat
  let copyBytes := (d.screenH - 10).toNat * rowBytes
  let sb ← Logged.forRange 0 (copyBytes / 8) (fun i sb => copyWord d (10 * rowBytes / 4 + 2 * i) (2 * i) sb) d.sb
  let sb ← Logged.forRange (d.screenH - 10).toNat d.screenH.toNat (fillRow d) sb
  let dirtyRows ← setRows d.screenH.toNat true d.dirtyRows
  pure { d with sb, cursorY := d.cursorY - 10, dirtyRows, dirty := true }

def newLine (d : Display) : Logged Access Display :=
  let d := { d with cursorX := 0, cursorY := d.cursorY + 10 }
  if d.screenH ≤ d.cursorY + 10 then scroll d else pure d

def backspace (font : Font) (d : Display) : Logged Access Display :=
  if 8 ≤ d.cursorX then drawChar font { d with cursorX := d.cursorX - 8 } 0x20#8 (d.cursorX - 8) d.cursorY
  else if 10 ≤ d.cursorY then
    let x := if 8 ≤ d.screenW then d.screenW - 8 else 0
    drawChar font { d with cursorX := x, cursorY := d.cursorY - 10 } 0x20#8 x (d.cursorY - 10)
  else pure d

def printChar (font : Font) (d : Display) (c : BitVec 8) : Logged Access Display :=
  if c = 0x0A#8 then newLine d
  else if c = 0x0D#8 then pure { d with cursorX := 0 }
  else if c = 0x08#8 then backspace font d
  else do
    let d ← drawChar font d c d.cursorX d.cursorY
    let d := { d with cursorX := d.cursorX + 8 }
    if d.screenW ≤ d.cursorX + 8 then newLine d else pure d

/-- `print`, up to the first zero byte. -/
def print (font : Font) (d : Display) (str : List (BitVec 8)) : Logged Access Display :=
  (str.takeWhile (· ≠ 0)).foldlM (printChar font) d

def displayInit (d : Display) (framebuffer : Nat → BitVec 32) (m : Mode) : Logged Access Display := do
  let dirtyRows ← setRows m.height.toNat false d.dirtyRows
  pure { d with
    fbSet := true, fb := framebuffer, screenW := m.width, screenH := m.height, pitch := m.pitch, cursorX := 0,
      cursorY := 0
    dirty := false, dirtyRows }

/-! ### The notes leave the results as they are -/

theorem value_putPixel (d : Display) (x y color : BitVec 32) : (putPixel d x y color).value = d.putPixel x y color := by
  unfold putPixel Display.putPixel
  rw [value_bind]
  split
  · rfl
  · split <;> rfl

theorem value_drawChar (font : Font) (d : Display) (c : BitVec 8) (x y : BitVec 32) :
    (drawChar font d c x y).value = d.drawChar font c x y := by
  unfold drawChar Display.drawChar drawRow Display.drawRow
  simp only [value_forRange, value_bind, value_putPixel]

theorem value_scroll (d : Display) : (scroll d).value = d.scroll := by
  unfold scroll Display.scroll setRows markAll fillRow Display.fillRow copyWord
  simp only [value_bind, value_forRange, value_pure]

theorem value_newLine (d : Display) : (newLine d).value = d.newLine := by
  unfold newLine Display.newLine
  dsimp only
  split
  · exact value_scroll _
  · rfl

theorem value_backspace (font : Font) (d : Display) : (backspace font d).value = d.backspace font := by
  unfold backspace Display.backspace
  split
  · exact value_drawChar ..
  · split
    · exact value_drawChar ..
    · rfl

theorem value_printChar (font : Font) (d : Display) (c : BitVec 8) :
    (printChar font d c).value = d.printChar font c := by
  unfold printChar Display.printChar
  split
  · exact value_newLine d
  split
  · rfl
  split
  · exact value_backspace font d
  · rw [value_bind, value_drawChar]
    dsimp only
    split
    · exact value_newLine _
    · rfl

theorem value_print (font : Font) (d : Display) (str : List (BitVec 8)) :
    (print font d str).value = d.print font str := by
  unfold print Display.print
  simp only [value_foldlM, value_printChar]

theorem value_displayInit (d : Display) (framebuffer : Nat → BitVec 32) (m : Mode) :
    (displayInit d framebuffer m).value = d.displayInit framebuffer m := by
  unfold displayInit Display.displayInit setRows
  simp only [value_bind, value_forRange, value_pure]

end Traced

/-! ### What drawing keeps -/

namespace Display

/-- The mode, the cursor and whether the shadow is set are the same. -/
structure SameScreen (d d' : Display) : Prop where
  mode : d'.mode = d.mode
  sbSet : d'.sbSet = d.sbSet
  cursorX : d'.cursorX = d.cursorX
  cursorY : d'.cursorY = d.cursorY

namespace SameScreen
variable {d d' d'' : Display}

theorem refl (d : Display) : SameScreen d d := ⟨rfl, rfl, rfl, rfl⟩

theorem trans (h : SameScreen d d') (h' : SameScreen d' d'') : SameScreen d d'' :=
  ⟨h'.mode.trans h.mode, h'.sbSet.trans h.sbSet, h'.cursorX.trans h.cursorX, h'.cursorY.trans h.cursorY⟩

theorem screenW (h : SameScreen d d') : d'.screenW = d.screenW := congrArg Mode.width h.mode
theorem screenH (h : SameScreen d d') : d'.screenH = d.screenH := congrArg Mode.height h.mode
theorem pitch (h : SameScreen d d') : d'.pitch = d.pitch := congrArg Mode.pitch h.mode

theorem putPixel (d : Display) (x y color : BitVec 32) : SameScreen d (d.putPixel x y color) := by
  unfold Display.putPixel
  split
  · exact refl d
  · split <;> exact ⟨rfl, rfl, rfl, rfl⟩

theorem drawRow (font : Font) (d : Display) (c : BitVec 8) (x y : BitVec 32) (row : Nat) :
    SameScreen d (d.drawRow font c x y row) :=
  Loop.forRange_keeps (P := SameScreen d) (refl d) fun _ _ _ _ h => h.trans (putPixel ..)

theorem drawChar (font : Font) (d : Display) (c : BitVec 8) (x y : BitVec 32) : SameScreen d (d.drawChar font c x y) :=
  Loop.forRange_keeps (P := SameScreen d) (refl d) fun _ _ _ _ h => h.trans (drawRow ..)

end SameScreen

/-- The mode and whether the shadow is set. -/
def setup (d : Display) : Mode × Bool := (d.mode, d.sbSet)

theorem SameScreen.setup {d d' : Display} (h : SameScreen d d') : d'.setup = d.setup := Prod.ext h.mode h.sbSet

theorem newLine_setup (d : Display) : d.newLine.setup = d.setup := by
  unfold newLine
  dsimp only
  split <;> rfl

theorem backspace_setup (font : Font) (d : Display) : (d.backspace font).setup = d.setup := by
  unfold backspace
  split
  · exact (SameScreen.drawChar ..).setup
  · split
    · exact (SameScreen.drawChar ..).setup
    · rfl

theorem printChar_setup (font : Font) (d : Display) (c : BitVec 8) : (d.printChar font c).setup = d.setup := by
  have hdraw := (SameScreen.drawChar font d c d.cursorX d.cursorY).setup
  unfold printChar
  split
  · exact newLine_setup d
  split
  · rfl
  split
  · exact backspace_setup font d
  dsimp only
  generalize Display.drawChar font d c d.cursorX d.cursorY = t at hdraw
  split
  · exact (newLine_setup _).trans hdraw
  · exact hdraw

theorem print_setup (font : Font) (d : Display) (str : List (BitVec 8)) : (d.print font str).setup = d.setup := by
  unfold print
  generalize str.takeWhile (· ≠ 0) = cs
  induction cs generalizing d with
  | nil => rfl
  | cons c cs ih => exact (ih (d.printChar font c)).trans (printChar_setup font d c)

theorem printChar_mode (font : Font) (d : Display) (c : BitVec 8) : (d.printChar font c).mode = d.mode :=
  congrArg Prod.fst (printChar_setup font d c)

theorem print_mode (font : Font) (d : Display) (str : List (BitVec 8)) : (d.print font str).mode = d.mode :=
  congrArg Prod.fst (print_setup font d str)

end Display

/-! ### Which accesses are inside -/

/-- The index is below the size of the array, and the array exists. -/
def Access.Ok (m : Mode) : Access → Prop
  | .drawChar .. | .putPixel .. => True
  | .glyph c => c < 128
  | .dirtyRow y => y < 2160
  | .shadow set i => set = true ∧ i < m.height.toNat * m.pitch.toNat
  | .frame i => i < m.height.toNat * m.pitch.toNat

/-- What the text output assumes of the mode. -/
structure Mode.Text (m : Mode) : Prop where
  width : m.width ≤ m.pitch
  height : 10 < m.height.toNat
  rows : m.height.toNat ≤ 2160

theorem Mode.pixel_lt {m : Mode} {x y : BitVec 32} (hx : x.toNat < m.pitch.toNat) (hy : y.toNat < m.height.toNat) :
    (y * m.pitch + x).toNat < m.height.toNat * m.pitch.toNat := by
  have hwrap : (y * m.pitch + x).toNat ≤ y.toNat * m.pitch.toNat + x.toNat := by
    rw [BitVec.toNat_add, BitVec.toNat_mul]
    exact Nat.le_trans (Nat.mod_le _ _) (Nat.add_le_add_right (Nat.mod_le _ _) _)
  have hrow : (y.toNat + 1) * m.pitch.toNat ≤ m.height.toNat * m.pitch.toNat := Nat.mul_le_mul_right _ hy
  rw [Nat.add_mul, Nat.one_mul] at hrow
  omega

namespace Traced
variable {d : Display} {font : Font} {c : BitVec 8}

theorem putPixel_ok (h : d.mode.Text) (x y color : BitVec 32) : All (Access.Ok d.mode) (putPixel d x y color) := by
  refine all_bind.mpr ⟨all_note.mpr trivial, ?_⟩
  split
  · exact all_pure d
  · rename_i hout
    obtain ⟨hx, hy⟩ : x < d.screenW ∧ y < d.screenH := by simpa [not_or] using hout
    have hlt := Mode.pixel_lt (m := d.mode) (Nat.lt_of_lt_of_le hx h.width) hy
    split
    · rename_i hset
      simp only [markDirty, all_bind, all_note, all_pure, and_true]
      exact ⟨⟨hset, hlt⟩, Nat.lt_of_lt_of_le hy h.rows⟩
    · simp only [all_bind, all_note, all_pure, and_true]
      exact hlt

theorem value_drawRow (c : BitVec 8) (x y : BitVec 32) (row : Nat) (d : Display) :
    (drawRow font c x y row d).value = d.drawRow font c x y row := by
  unfold drawRow Display.drawRow
  simp only [value_forRange, value_bind, value_putPixel]

theorem drawRow_ok (h : d.mode.Text) (hc : c.toNat < 128) (x y : BitVec 32) (row : Nat) :
    All (Access.Ok d.mode) (drawRow font c x y row d) := by
  unfold drawRow
  refine all_forRange (I := fun _ t => SameScreen d t) (.refl d) fun col t _ _ ht => ?_
  rw [value_bind, value_putPixel]
  refine ⟨?_, ht.trans (.putPixel ..)⟩
  rw [all_bind, all_note, ← ht.mode]
  exact ⟨hc, putPixel_ok (ht.mode ▸ h) _ _ _⟩

/-- A character is drawn inside exactly if the font has it. -/
theorem drawChar_all (h : d.mode.Text) (x y : BitVec 32) :
    All (Access.Ok d.mode) (drawChar font d c x y) ↔ c.toNat < 128 := by
  constructor
  · intro hall
    refine (all_bind.mp hall).2 (.glyph c.toNat) (mem_log_forRange (i := 0) (Nat.le_refl 0) (by decide) fun t => ?_)
    exact mem_log_forRange (i := 0) (Nat.le_refl 0) (by decide) fun u => List.mem_cons_self
  · intro hc
    refine all_bind.mpr ⟨all_note.mpr trivial, ?_⟩
    refine all_forRange (I := fun _ t => SameScreen d t) (.refl d) fun row t _ _ ht => ?_
    rw [value_drawRow, ← ht.mode]
    exact ⟨drawRow_ok (ht.mode ▸ h) hc x y row, ht.trans (.drawRow ..)⟩

theorem setRows_all {m : Mode} {n : Nat} {mark : Bool} {rows : Nat → Bool} :
    All (Access.Ok m) (setRows n mark rows) ↔ n ≤ 2160 := by
  constructor
  · intro hall
    by_contra hlt
    have hrow : Access.Ok m (.dirtyRow 2160) :=
      hall _ (mem_log_forRange (i := 2160) (Nat.zero_le _) (by omega) fun t => List.mem_singleton_self _)
    exact absurd hrow (Nat.lt_irrefl 2160)
  · intro hn
    refine all_forRange (I := fun _ _ => True) trivial fun y t _ hy _ => ⟨?_, trivial⟩
    simp only [all_bind, all_note, all_pure, and_true]
    exact Nat.lt_of_lt_of_le hy hn

theorem screenH_sub (h : d.mode.Text) : (d.screenH - 10).toNat + 10 = d.screenH.toNat := by
  have hten : (10 : BitVec 32) ≤ d.screenH := Nat.le_of_lt h.height
  rw [BitVec.toNat_sub_of_le hten]
  exact Nat.sub_add_cancel hten

theorem copy_ok (h : d.mode.Text) (hset : d.sbSet = true) :
    All (Access.Ok d.mode) (Logged.forRange 0 ((d.screenH - 10).toNat * (d.pitch * 4).toNat / 8)
      (fun i sb => copyWord d (10 * (d.pitch * 4).toNat / 4 + 2 * i) (2 * i) sb) d.sb) := by
  have hheight := screenH_sub h
  -- the bytes of a row, which wrap for a pitch of `2 ^ 30` or more
  obtain ⟨n, hn⟩ : 4 ∣ (d.pitch * 4).toNat := by
    rw [BitVec.toNat_mul]
    exact (Nat.dvd_mod_iff (by decide)).mpr (Nat.dvd_mul_left 4 _)
  have hle : n ≤ d.pitch.toNat := by
    have : (d.pitch * 4).toNat ≤ d.pitch.toNat * 4 := by
      rw [BitVec.toNat_mul]
      exact Nat.mod_le _ _
    omega
  have hsize : ((d.screenH - 10).toNat + 10) * n ≤ d.screenH.toNat * d.pitch.toNat := by
    rw [hheight]
    exact Nat.mul_le_mul_left _ hle
  rw [Nat.add_mul] at hsize
  rw [hn, Nat.mul_left_comm, show 10 * (4 * n) / 4 = 10 * n by omega]
  refine all_forRange (I := fun _ _ => True) trivial fun i t _ hi _ => ⟨?_, trivial⟩
  replace hi : 2 * i + 1 < (d.screenH - 10).toNat * n := by
    generalize (d.screenH - 10).toNat * n = k at hi
    omega
  generalize (d.screenH - 10).toNat * n = k at hi hsize
  have hok (j : Nat) (hj : j < k + 10 * n) : Access.Ok d.mode (.shadow d.sbSet j) := ⟨hset, Nat.lt_of_lt_of_le hj hsize⟩
  simp only [copyWord, all_bind, all_note, all_pure, and_true]
  exact ⟨hok _ (by omega), hok _ (by omega), hok _ (by omega), hok _ (by omega)⟩

/-- The last ten rows are filled inside exactly if there is a shadow, or a row has no pixels. -/
theorem fill_all (h : d.mode.Text) (sb : Nat → BitVec 32) :
    All (Access.Ok d.mode) (Logged.forRange (d.screenH - 10).toNat d.screenH.toNat (fillRow d) sb) ↔
      d.sbSet = true ∨ d.pitch = 0 := by
  have hheight := screenH_sub h
  constructor
  · intro hall
    by_contra hnot
    obtain ⟨hset, hpitch⟩ := not_or.mp hnot
    have hpos : 0 < d.pitch.toNat := Nat.pos_of_ne_zero fun h0 => hpitch (BitVec.eq_of_toNat_eq h0)
    refine hset (hall (.shadow d.sbSet (BitVec.ofNat 32 (d.screenH - 10).toNat * d.pitch + BitVec.ofNat 32 0).toNat)
      (mem_log_forRange (Nat.le_refl _) (by omega) fun t => ?_)).1
    exact mem_log_forRange (Nat.le_refl 0) hpos fun u => List.mem_singleton_self _
  · intro hor
    refine all_forRange (I := fun _ _ => True) trivial fun y t _ hy _ => ⟨?_, trivial⟩
    refine all_forRange (I := fun _ _ => True) trivial fun x u _ hx _ => ⟨?_, trivial⟩
    have hset : d.sbSet = true := by
      refine hor.resolve_right fun h0 => ?_
      rw [h0] at hx
      exact Nat.not_lt_zero x hx
    have hwrap {n : Nat} {b : BitVec 32} (hn : n < b.toNat) : (BitVec.ofNat 32 n).toNat < b.toNat := by
      rw [BitVec.toNat_ofNat]
      exact Nat.lt_of_le_of_lt (Nat.mod_le _ _) hn
    simp only [all_bind, all_note, all_pure, and_true]
    exact ⟨hset, Mode.pixel_lt (m := d.mode) (hwrap hx) (hwrap hy)⟩

/-- Scrolling stays inside exactly if there is a shadow, or a row has no pixels. -/
theorem scroll_all (h : d.mode.Text) : All (Access.Ok d.mode) (scroll d) ↔ d.sbSet = true ∨ d.pitch = 0 := by
  unfold scroll
  simp only [all_bind, all_pure, and_true, fill_all h, setRows_all]
  refine ⟨fun hall => hall.2.1, fun hor => ⟨?_, hor, h.rows⟩⟩
  rcases hor with hset | hpitch
  · exact copy_ok h hset
  · rw [hpitch, show ((0 : BitVec 32) * 4).toNat = 0 from rfl, Nat.mul_zero]
    exact all_pure d.sb

/-! ### Printing -/

end Traced

namespace Display

/-- A new line from the cursor scrolls. -/
def newLineScrolls (d : Display) : Prop := d.screenH ≤ d.cursorY + 10 + 10

/-- Printing the character scrolls. -/
def scrollsAt (d : Display) (c : BitVec 8) : Prop :=
  if c = 0x0A#8 then d.newLineScrolls
  else c ≠ 0x0D#8 ∧ c ≠ 0x08#8 ∧ d.screenW ≤ d.cursorX + 8 + 8 ∧ d.newLineScrolls

/-- There is a shadow to scroll, or a row has no pixels, or the character does not scroll, and it is one of the
    font's. -/
structure CharSafe (d : Display) (c : BitVec 8) : Prop where
  glyph : c.toNat < 128
  shadow : d.sbSet = true ∨ d.pitch = 0 ∨ ¬d.scrollsAt c

/-- Each character of the string is safe where it is printed. -/
def PrintSafe (font : Font) (d : Display) (str : List (BitVec 8)) : Prop :=
  ∀ pre c post, str.takeWhile (· ≠ 0) = pre ++ c :: post → (pre.foldl (printChar font) d).CharSafe c

theorem printSafe_of_shadow {font : Font} {d : Display} {str : List (BitVec 8)} (hset : d.sbSet = true)
    (hascii : ∀ c ∈ str, c.toNat < 128) :
    d.PrintSafe font str := by
  intro pre c post he
  have hc : c ∈ str.takeWhile (· ≠ 0) := by
    rw [he]
    exact List.mem_append_right pre List.mem_cons_self
  refine ⟨hascii c (List.takeWhile_subset _ hc), Or.inl ?_⟩
  clear he hc
  induction pre generalizing d with
  | nil => exact hset
  | cons a pre ih => exact ih ((congrArg Prod.snd (printChar_setup font d a)).trans hset)

end Display

namespace Traced
variable {d : Display} {font : Font} {c : BitVec 8}

theorem newLine_all (h : d.mode.Text) :
    All (Access.Ok d.mode) (newLine d) ↔ d.sbSet = true ∨ d.pitch = 0 ∨ ¬d.newLineScrolls := by
  unfold newLine newLineScrolls
  dsimp only
  split
  · rename_i hs
    have hscroll := scroll_all (d := { d with cursorX := 0, cursorY := d.cursorY + 10 }) h
    simp only [hs, not_true_eq_false, or_false]
    exact hscroll
  · rename_i hs
    exact iff_of_true (all_pure _) (Or.inr (Or.inr hs))

theorem backspace_ok (h : d.mode.Text) : All (Access.Ok d.mode) (backspace font d) := by
  have hdraw (t : Display) (ht : t.mode = d.mode) (x y : BitVec 32) :
      All (Access.Ok d.mode) (drawChar font t 0x20#8 x y) := by
    rw [← ht]
    exact (drawChar_all (ht ▸ h) x y).mpr (by decide)
  unfold backspace
  split
  · exact hdraw { d with cursorX := d.cursorX - 8 } rfl _ _
  · split
    · dsimp only
      generalize (if 8 ≤ d.screenW then d.screenW - 8 else 0) = x
      exact hdraw { d with cursorX := x, cursorY := d.cursorY - 10 } rfl x _
    · exact all_pure d

theorem advance_all (h : d.mode.Text) : All (Access.Ok d.mode)
      (if d.screenW ≤ d.cursorX + 8 + 8 then newLine { d with cursorX := d.cursorX + 8 }
        else pure { d with cursorX := d.cursorX + 8 }) ↔
    d.sbSet = true ∨ d.pitch = 0 ∨ ¬(d.screenW ≤ d.cursorX + 8 + 8 ∧ d.newLineScrolls) := by
  split
  · rename_i hwrap
    have hline := newLine_all (d := { d with cursorX := d.cursorX + 8 }) h
    simp only [hwrap, true_and]
    exact hline
  · rename_i hwrap
    exact iff_of_true (all_pure _) (Or.inr (Or.inr fun hs => hwrap hs.1))

theorem printChar_all (h : d.mode.Text) : All (Access.Ok d.mode) (printChar font d c) ↔ d.CharSafe c := by
  have hsafe : d.CharSafe c ↔ c.toNat < 128 ∧ (d.sbSet = true ∨ d.pitch = 0 ∨ ¬d.scrollsAt c) :=
    ⟨fun hs => ⟨hs.glyph, hs.shadow⟩, fun hs => ⟨hs.1, hs.2⟩⟩
  rw [hsafe]
  unfold printChar scrollsAt
  split
  · rename_i hc
    rw [newLine_all h, hc]
    exact (and_iff_right (by decide)).symm
  rename_i hnl
  split
  · rename_i hc
    refine iff_of_true (all_pure _) ⟨by rw [hc]; decide, Or.inr (Or.inr fun hs => hs.1 hc)⟩
  rename_i hcr
  split
  · rename_i hc
    refine iff_of_true (backspace_ok h) ⟨by rw [hc]; decide, Or.inr (Or.inr fun hs => hs.2.1 hc)⟩
  rename_i hbs
  have hdraw := SameScreen.drawChar font d c d.cursorX d.cursorY
  rw [all_bind, drawChar_all h, value_drawChar]
  generalize Display.drawChar font d c d.cursorX d.cursorY = t at hdraw
  have hnext := advance_all (d := t) (hdraw.mode ▸ h)
  rw [hdraw.mode] at hnext
  refine and_congr_right fun _ => hnext.trans ?_
  unfold newLineScrolls
  rw [hdraw.sbSet, hdraw.pitch, hdraw.screenW, hdraw.screenH, hdraw.cursorX, hdraw.cursorY]
  simp only [ne_eq, hcr, hbs, not_false_eq_true, true_and]

theorem print_all (h : d.mode.Text) (str : List (BitVec 8)) :
    All (Access.Ok d.mode) (print font d str) ↔ d.PrintSafe font str := by
  unfold print PrintSafe
  have hstep (t : Display) (c : BitVec 8) (ht : t.mode = d.mode) :
      (All (Access.Ok d.mode) (printChar font t c) ↔ t.CharSafe c) ∧ (printChar font t c).value.mode = d.mode := by
    rw [value_printChar, ← ht]
    exact ⟨printChar_all (ht ▸ h), printChar_mode font t c⟩
  have hall := all_foldlM hstep rfl (str.takeWhile (· ≠ 0))
  simp only [value_printChar] at hall
  exact hall

end Traced

/-! ### Sessions -/

/-- The calls after `display_init`: the shadow buffer is set, or a string is printed. -/
inductive TextCall where
  | setShadow (buffer : Nat → BitVec 32)
  | print (str : List (BitVec 8))

namespace TextCall

def exec (font : Font) (d : Display) : TextCall → Display
  | .setShadow buffer => d.displaySetShadow buffer
  | .print str => d.print font str

def Safe (font : Font) (d : Display) : TextCall → Prop
  | .setShadow _ => True
  | .print str => d.PrintSafe font str

end TextCall

namespace Traced

def exec (font : Font) (d : Display) : TextCall → Logged Access Display
  | .setShadow buffer => pure (d.displaySetShadow buffer)
  | .print str => print font d str

/-- `display_init` and the calls after it. -/
def session (font : Font) (d : Display) (framebuffer : Nat → BitVec 32) (m : Mode) (calls : List TextCall) :
    Logged Access Display := do
  let d ← displayInit d framebuffer m
  calls.foldlM (exec font) d

theorem value_exec (font : Font) (d : Display) (call : TextCall) : (exec font d call).value = call.exec font d := by
  cases call with
  | setShadow buffer => rfl
  | print str => exact value_print font d str

theorem exec_mode (font : Font) (d : Display) (call : TextCall) : (call.exec font d).mode = d.mode := by
  cases call with
  | setShadow buffer => rfl
  | print str => exact print_mode font d str

theorem exec_all {d : Display} {font : Font} (h : d.mode.Text) (call : TextCall) :
    All (Access.Ok d.mode) (exec font d call) ↔ call.Safe font d := by
  cases call with
  | setShadow buffer => exact iff_of_true (all_pure _) trivial
  | print str => exact print_all h str

theorem displayInit_all (d : Display) (framebuffer : Nat → BitVec 32) (m : Mode) :
    All (Access.Ok m) (displayInit d framebuffer m) ↔ m.height.toNat ≤ 2160 := by
  unfold displayInit
  simp only [all_bind, all_pure, and_true, setRows_all]

/-- In every session, all accesses are inside exactly if the screen has at most 2160 rows and each string is safe
    where it is printed. -/
theorem text_output_inside_iff (font : Font) (d : Display) (framebuffer : Nat → BitVec 32) {m : Mode}
    (hwidth : m.width ≤ m.pitch) (hheight : 10 < m.height.toNat) (calls : List TextCall) :
    All (Access.Ok m) (session font d framebuffer m calls) ↔ m.height.toNat ≤ 2160 ∧
      ∀ pre call post, calls = pre ++ call :: post →
      call.Safe font (pre.foldl (TextCall.exec font) (d.displayInit framebuffer m)) := by
  unfold session
  rw [all_bind, displayInit_all, value_displayInit]
  refine and_congr_right fun hrows => ?_
  have htext : m.Text := ⟨hwidth, hheight, hrows⟩
  have hstep (t : Display) (call : TextCall) (ht : t.mode = m) :
      (All (Access.Ok m) (exec font t call) ↔ call.Safe font t) ∧ (exec font t call).value.mode = m := by
    subst ht
    rw [value_exec, exec_mode]
    exact ⟨exec_all htext call, rfl⟩
  have hall := all_foldlM hstep (show (d.displayInit framebuffer m).mode = m from rfl) calls
  simp only [value_exec] at hall
  exact hall

/-- Text after the shadow is set. -/
theorem text_output_inside_ascii : All (Access.Ok ⟨800, 600, 800⟩)
    (session (fun _ _ => 0) unset (fun _ => 0) ⟨800, 600, 800⟩ [.setShadow fun _ => 0, .print [0x68, 0x69, 0x0A]]) := by
  refine (text_output_inside_iff _ _ _ (by decide) (by decide) _).mpr ⟨by decide, ?_⟩
  intro pre call post he
  rcases pre with _ | ⟨first, _ | ⟨second, pre⟩⟩
  · cases he
    trivial
  · cases he
    exact printSafe_of_shadow rfl (by decide)
  · simp at he

/-- A byte that the font does not have; a screen of 2161 rows; a new line that scrolls on a small screen without a
    shadow. -/
theorem text_output_outside :
    ¬All (Access.Ok ⟨800, 600, 800⟩)
      (session (fun _ _ => 0) unset (fun _ => 0) ⟨800, 600, 800⟩ [.setShadow fun _ => 0, .print [0x80]]) ∧
    ¬All (Access.Ok ⟨800, 2161, 800⟩) (session (fun _ _ => 0) unset (fun _ => 0) ⟨800, 2161, 800⟩ []) ∧
    ¬All (Access.Ok ⟨24, 20, 24⟩) (session (fun _ _ => 0) unset (fun _ => 0) ⟨24, 20, 24⟩ [.print [0x0A]]) := by
  refine ⟨fun hall => ?_, fun hall => ?_, fun hall => ?_⟩
  · rw [session, all_bind, List.foldlM_cons, all_bind, List.foldlM_cons, all_bind] at hall
    have hsafe := (exec_all ⟨by decide, by decide, by decide⟩ _).mp hall.2.2.1
    exact absurd (hsafe [] 0x80 [] rfl).glyph (by decide)
  · exact absurd ((displayInit_all _ _ _).mp (all_bind.mp hall).1) (by decide)
  · rw [session, all_bind, List.foldlM_cons, all_bind] at hall
    have hsafe := (exec_all ⟨by decide, by decide, by decide⟩ _).mp hall.2.1
    rcases (hsafe [] 0x0A [] rfl).shadow with hset | hpitch | hstays
    · cases hset
    · exact absurd hpitch (by decide)
    · exact hstays (show (20 : BitVec 32) ≤ 0 + 10 + 10 by decide)

end Traced
end SamOS
