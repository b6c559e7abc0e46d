import SamOS.Lib.Loop
import SamOS.Lib.Lts
import Mathlib.Algebra.Group.Nat.Even
import Mathlib.Logic.Function.Basic

/-! The display (`display.c`). Text is drawn into a shadow buffer, the rows that change are marked, and
    `display_flush` copies the marked rows to the framebuffer. Pixel `(x, y)` is addressed as `y * pitch + x` in 32
    bits, so that in a mode with more than `2 ^ 32` pixels the rows overlap. -/

namespace SamOS
open Function Loop

def fgColor : BitVec 32 := 0x00FFFFFF#32
def bgColor : BitVec 32 := 0x00303030#32

/-- The statics of `display.c`: whether the pointers `sb` and `fb` are set, with the pixels from there on, and the
    rest. -/
structure Display where
  sbSet : Bool
  sb : Nat → BitVec 32
  fbSet : Bool
  fb : Nat → BitVec 32
  screenW : BitVec 32
  screenH : BitVec 32
  pitch : BitVec 32
  cursorX : BitVec 32
  cursorY : BitVec 32
  dirtyRows : Nat → Bool
  dirty : Bool

/-- The arguments of `display_init` that the firmware gives. -/
structure Mode where
  width : BitVec 32
  height : BitVec 32
  pitch : BitVec 32

/-- `font8x8_basic`. -/
abbrev Font := BitVec 8 → Nat → BitVec 8

namespace Display

def mode (d : Display) : Mode := ⟨d.screenW, d.screenH, d.pitch⟩

def markDirty (d : Display) (y : BitVec 32) : Display :=
  { d with dirtyRows := update d.dirtyRows y.toNat true, dirty := true }

def displaySetShadow (d : Display) (buffer : Nat → BitVec 32) : Display := { d with sbSet := true, sb := buffer }

def displayInit (d : Display) (framebuffer : Nat → BitVec 32) (m : Mode) : Display :=
  { d with
    fbSet := true, fb := framebuffer, screenW := m.width, screenH := m.height, pitch := m.pitch, cursorX := 0,
      cursorY := 0
    dirty := false, dirtyRows := forRange 0 m.height.toNat (fun y rows => update rows y false) d.dirtyRows }

/-! ### Copying -/

/-- A 64-bit word is two pixels. -/
def copyWord (src : Nat → BitVec 32) (s t : Nat) (dst : Nat → BitVec 32) : Nat → BitVec 32 :=
  update (update dst t (src s)) (t + 1) (src (s + 1))

/-- `words` of `display_flush`. -/
def rowWords (d : Display) : Nat := (d.pitch * 4).toNat / 8

/-- The first pixel that `display_flush` copies for the row. -/
def rowStart (d : Display) (y : Nat) : Nat := (BitVec.ofNat 32 y * d.pitch).toNat

/-- The loop over the words of a row. -/
def flushRow (d : Display) (y : Nat) (fb : Nat → BitVec 32) : Nat → BitVec 32 :=
  forRange 0 d.rowWords (fun i fb => copyWord d.sb (d.rowStart y + 2 * i) (d.rowStart y + 2 * i) fb) fb

/-- The loop body of `display_flush`. -/
def flushStep (d : Display) (y : Nat) (s : (Nat → BitVec 32) × (Nat → Bool)) : (Nat → BitVec 32) × (Nat → Bool) :=
  if s.2 y then (d.flushRow y s.1, update s.2 y false) else s

def displayFlush (d : Display) : Display :=
  if ¬d.sbSet ∨ ¬d.fbSet ∨ ¬d.dirty then d
  else
    let s := forRange 0 d.screenH.toNat d.flushStep (d.fb, d.dirtyRows)
    { d with fb := s.1, dirtyRows := s.2, dirty := false }

/-- `sb[y * pitch + x] = bg_color` for all `x`. -/
def fillRow (d : Display) (y : Nat) (sb : Nat → BitVec 32) : Nat → BitVec 32 :=
  forRange 0 d.pitch.toNat
    (fun x sb => update sb (BitVec.ofNat 32 y * d.pitch + BitVec.ofNat 32 x).toNat bgColor) sb

/-- The mark on every row of the screen. -/
def markAll (d : Display) (rows : Nat → Bool) : Nat → Bool :=
  forRange 0 d.screenH.toNat (fun y rows => update rows y true) rows

/-- `scroll`: all rows move up by ten, in words of two pixels. -/
def scroll (d : Display) : Display :=
  let rowBytes := (d.pitch * 4).toNat
  let copyBytes := (d.screenH - 10).toNat * rowBytes
  let sb := forRange 0 (copyBytes / 8) (fun i sb => copyWord sb (10 * rowBytes / 4 + 2 * i) (2 * i) sb) d.sb
  let sb := forRange (d.screenH - 10).toNat d.screenH.toNat d.fillRow sb
  { d with sb, cursorY := d.cursorY - 10, dirtyRows := d.markAll d.dirtyRows, dirty := true }

def displayClear (d : Display) : Display :=
  if ¬d.sbSet then d
  else
    { d with
      sb := forRange 0 d.screenH.toNat d.fillRow d.sb, dirtyRows := d.markAll d.dirtyRows, dirty := true
      cursorX := 0, cursorY := 0 }

/-! ### Drawing -/

def putPixel (d : Display) (x y color : BitVec 32) : Display :=
  if d.screenW ≤ x ∨ d.screenH ≤ y then d
  else if d.sbSet then { d with sb := update d.sb (y * d.pitch + x).toNat color }.markDirty y
  else { d with fb := update d.fb (y * d.pitch + x).toNat color }

/-- The colour of a pixel of the glyph. -/
def glyphColor (font : Font) (c : BitVec 8) (row col : Nat) : BitVec 32 :=
  if (font c row).getLsbD col then fgColor else bgColor

/-- The loop over the columns of a glyph. -/
def drawRow (font : Font) (c : BitVec 8) (x y : BitVec 32) (row : Nat) (d : Display) : Display :=
  forRange 0 8
    (fun col d => d.putPixel (x + BitVec.ofNat 32 col) (y + BitVec.ofNat 32 row) (glyphColor font c row col)) d

def drawChar (font : Font) (d : Display) (c : BitVec 8) (x y : BitVec 32) : Display :=
  forRange 0 8 (drawRow font c x y) d

/-- The start of the next line. -/
def newLine (d : Display) : Display :=
  let d := { d with cursorX := 0, cursorY := d.cursorY + 10 }
  if d.screenH ≤ d.cursorY + 10 then d.scroll else d

/-- The cursor goes back by one character. -/
def backspace (font : Font) (d : Display) : Display :=
  if 8 ≤ d.cursorX then drawChar font { d with cursorX := d.cursorX - 8 } 0x20#8 (d.cursorX - 8) d.cursorY
  else if 10 ≤ d.cursorY then
    let x := if 8 ≤ d.screenW then d.screenW - 8 else 0
    drawChar font { d with cursorX := x, cursorY := d.cursorY - 10 } 0x20#8 x (d.cursorY - 10)
  else d

def printChar (font : Font) (d : Display) (c : BitVec 8) : Display :=
  if c = 0x0A#8 then d.newLine
  else if c = 0x0D#8 then { d with cursorX := 0 }
  else if c = 0x08#8 then d.backspace font
  else
    let d := drawChar font d c d.cursorX d.cursorY
    let d := { d with cursorX := d.cursorX + 8 }
    if d.screenW ≤ d.cursorX + 8 then d.newLine else d

/-- `print`, up to the first zero byte. -/
def print (font : Font) (d : Display) (str : List (BitVec 8)) : Display :=
  (str.takeWhile (· ≠ 0)).foldl (printChar font) d

end Display

/-- The calls that draw and show. -/
inductive DisplayCall where
  | printChar (c : BitVec 8)
  | print (str : List (BitVec 8))
  | drawChar (c : BitVec 8) (x y : BitVec 32)
  | clear
  | flush

namespace Display

def exec (font : Font) (d : Display) : DisplayCall → Display
  | .printChar c => d.printChar font c
  | .print str => d.print font str
  | .drawChar c x y => d.drawChar font c x y
  | .clear => d.displayClear
  | .flush => d.displayFlush

end Display

/-- The runs of a display in a mode that begin with `display_clear`, from any contents of the two buffers. -/
def displays (font : Font) (m : Mode) : Lts.System Display DisplayCall where
  init d := ∃ d₀ : Display, d₀.sbSet = true ∧ d₀.fbSet = true ∧ d₀.mode = m ∧ d = d₀.displayClear
  step d call d' := d' = d.exec font call

namespace Mode

/-- What is assumed of the firmware's mode. -/
structure Assumed (m : Mode) : Prop where
  even : Even m.pitch.toNat
  width : m.width ≤ m.pitch
  height : 10 < m.height.toNat ∧ m.height.toNat ≤ 2160

/-- The last row starts below `2 ^ 32`, and so does each of its pixels that is shown. -/
structure Fits (m : Mode) : Prop where
  row : (m.height.toNat - 1) * m.pitch.toNat < 2 ^ 32
  pixels : (m.height.toNat - 1) * m.pitch.toNat + m.width.toNat ≤ 2 ^ 32

end Mode

namespace Display

/-- Each row that differs from the shadow is marked, and `dirty` is set whenever a row is marked. -/
structure Tracks (d : Display) : Prop where
  marked : ∀ y < d.screenH.toNat, ∀ x < d.pitch.toNat, d.fb (y * d.pitch.toNat + x) ≠ d.sb (y * d.pitch.toNat + x) →
    d.dirtyRows y = true
  dirty : ∀ y < d.screenH.toNat, d.dirtyRows y = true → d.dirty = true

/-- The framebuffer equals the shadow on all rows and columns, and no row is marked. -/
structure Shown (d : Display) : Prop where
  same : ∀ y < d.screenH.toNat, ∀ x < d.pitch.toNat, d.fb (y * d.pitch.toNat + x) = d.sb (y * d.pitch.toNat + x)
  clean : ∀ y < d.screenH.toNat, d.dirtyRows y = false

/-! ### What a flush does -/

theorem copyWord_self (src dst : Nat → BitVec 32) (s i : Nat) :
    copyWord src s s dst i = if i = s ∨ i = s + 1 then src i else dst i := by
  unfold copyWord
  by_cases h1 : i = s + 1
  · rw [h1, update_self, if_pos (Or.inr rfl)]
  · rw [update_of_ne h1]
    by_cases h0 : i = s
    · rw [h0, update_self, if_pos (Or.inl rfl)]
    · rw [update_of_ne h0, if_neg (by omega)]

/-- The pixels that `display_flush` copies for the row. -/
def InRow (d : Display) (y i : Nat) : Prop := d.rowStart y ≤ i ∧ i < d.rowStart y + 2 * d.rowWords

instance (d : Display) (y i : Nat) : Decidable (d.InRow y i) := inferInstanceAs (Decidable (_ ∧ _))

theorem flushRow_apply (d : Display) (y : Nat) (fb : Nat → BitVec 32) (i : Nat) :
    d.flushRow y fb i = if d.InRow y i then d.sb i else fb i := by
  unfold flushRow InRow
  refine forRange_invariant (P := fun n (t : Nat → BitVec 32) => t i = if d.rowStart y ≤ i ∧
    i < d.rowStart y + 2 * n then d.sb i else fb i)
    (Nat.zero_le _) ?_ ?_
  · rw [if_neg (by omega)]
  · intro n t _ _ ht
    rw [copyWord_self, ht]
    by_cases hi : i = d.rowStart y + 2 * n ∨ i = d.rowStart y + 2 * n + 1
    · rw [if_pos hi, if_pos (by omega)]
    · rw [if_neg hi]
      refine if_congr ?_ rfl rfl
      omega

/-- The framebuffer and the marks after the rows below `n`. -/
structure FlushedTo (d : Display) (n : Nat) (s : (Nat → BitVec 32) × (Nat → Bool)) : Prop where
  copied : ∀ y < n, d.dirtyRows y = true → ∀ i, d.InRow y i → s.1 i = d.sb i
  same : ∀ i, d.fb i = d.sb i → s.1 i = d.sb i
  kept : ∀ i, (∀ y < n, ¬d.InRow y i) → s.1 i = d.fb i
  clean : ∀ y < n, s.2 y = false
  rows : ∀ y, n ≤ y → s.2 y = d.dirtyRows y

variable {d : Display} {m : Mode}

theorem FlushedTo.step {n : Nat} {s : (Nat → BitVec 32) × (Nat → Bool)} (h : d.FlushedTo n s) :
    d.FlushedTo (n + 1) (d.flushStep n s) := by
  unfold flushStep
  by_cases hn : s.2 n = true
  · rw [if_pos hn]
    refine ⟨fun y hy hd i hi => ?_, fun i hi => ?_, fun i hi => ?_, fun y hy => ?_, fun y hy => ?_⟩
    · show d.flushRow n s.1 i = _
      rw [flushRow_apply]
      by_cases hlast : y = n
      · rw [if_pos (hlast ▸ hi)]
      · rw [h.copied y (by omega) hd i hi, ite_self]
    · show d.flushRow n s.1 i = _
      rw [flushRow_apply, h.same i hi, ite_self]
    · show d.flushRow n s.1 i = _
      rw [flushRow_apply, if_neg (hi n (Nat.lt_succ_self n)), h.kept i fun y hy => hi y (by omega)]
    · dsimp only
      by_cases hlast : y = n
      · rw [hlast, update_self]
      · rw [update_of_ne hlast, h.clean y (by omega)]
    · exact (update_of_ne (by omega) _ _).trans (h.rows y (by omega))
  · rw [if_neg hn]
    have hnot : d.dirtyRows n = false := by
      rw [← h.rows n (Nat.le_refl n)]
      exact Bool.eq_false_iff.mpr hn
    refine ⟨fun y hy hd => ?_, h.same, fun i hi => h.kept i fun y hy => hi y (by omega), fun y hy => ?_,
      fun y hy => h.rows y (by omega)⟩
    · have hne : y ≠ n := fun he => by rw [he, hnot] at hd; cases hd
      exact h.copied y (by omega) hd
    · by_cases hlast : y = n
      · rw [hlast]
        exact Bool.eq_false_iff.mpr hn
      · exact h.clean y (by omega)

theorem flushedTo (d : Display) :
    d.FlushedTo d.screenH.toNat (forRange 0 d.screenH.toNat d.flushStep (d.fb, d.dirtyRows)) :=
  forRange_invariant (P := d.FlushedTo) (Nat.zero_le _)
    ⟨fun y hy => absurd hy (Nat.not_lt_zero y), fun _ hi => hi, fun _ _ => rfl,
      fun y hy => absurd hy (Nat.not_lt_zero y), fun _ _ => rfl⟩
    fun _ _ _ _ h => h.step

theorem displayFlush_eq (hsb : d.sbSet = true) (hfb : d.fbSet = true) (hd : d.dirty = true) :
    d.displayFlush = { d with
      fb := (forRange 0 d.screenH.toNat d.flushStep (d.fb, d.dirtyRows)).1
      dirtyRows := (forRange 0 d.screenH.toNat d.flushStep (d.fb, d.dirtyRows)).2
      dirty := false } := by
  unfold displayFlush
  rw [if_neg (by simp [hsb, hfb, hd])]

/-! ### What drawing does -/

theorem markAll_spec (d : Display) (rows : Nat → Bool) :
    (∀ y < d.screenH.toNat, d.markAll rows y = true) ∧ ∀ y, rows y = true → d.markAll rows y = true := by
  unfold markAll
  refine forRange_invariant (P := fun n (t : Nat → Bool) => (∀ y < n, t y = true) ∧ ∀ y, rows y = true → t y = true)
    (Nat.zero_le _) ?_ ?_
  · exact ⟨fun y hy => absurd hy (Nat.not_lt_zero y), fun _ h => h⟩
  · rintro n t - - ⟨hall, hmarks⟩
    refine ⟨fun y hy => ?_, fun y hy => ?_⟩ <;> by_cases hlast : y = n
    · rw [hlast, update_self]
    · rw [update_of_ne hlast]
      exact hall y (by omega)
    · rw [hlast, update_self]
    · rw [update_of_ne hlast]
      exact hmarks y hy

/-- `d'` differs from `d` in the shadow only on rows that are marked. -/
structure Redraws (d d' : Display) : Prop where
  sbSet : d'.sbSet = d.sbSet
  fbSet : d'.fbSet = d.fbSet
  fb : d'.fb = d.fb
  mode : d'.mode = d.mode
  rows : ∀ y < d.screenH.toNat, ∀ x < d.pitch.toNat, d'.sb (y * d.pitch.toNat + x) ≠ d.sb (y * d.pitch.toNat + x) →
    d'.dirtyRows y = true
  marks : ∀ y, d.dirtyRows y = true → d'.dirtyRows y = true
  fresh : ∀ y < d.screenH.toNat, d'.dirtyRows y = true → d.dirtyRows y = true ∨ d'.dirty = true
  dirty : d.dirty = true → d'.dirty = true

namespace Redraws
variable {d d' d'' : Display}

theorem screenH (h : Redraws d d') : d'.screenH = d.screenH := congrArg Mode.height h.mode
theorem pitch (h : Redraws d d') : d'.pitch = d.pitch := congrArg Mode.pitch h.mode

theorem refl (d : Display) : Redraws d d :=
  ⟨rfl, rfl, rfl, rfl, fun _ _ _ _ h => absurd rfl h, fun _ h => h, fun _ _ h => Or.inl h, fun h => h⟩

theorem trans (h : Redraws d d') (h' : Redraws d' d'') : Redraws d d'' := by
  refine ⟨h'.sbSet.trans h.sbSet, h'.fbSet.trans h.fbSet, h'.fb.trans h.fb, h'.mode.trans h.mode,
    fun y hy x hx hne => ?_, fun y hy => h'.marks y (h.marks y hy), fun y hy hm => ?_, fun hd => h'.dirty (h.dirty hd)⟩
  · by_cases hsame : d'.sb (y * d.pitch.toNat + x) = d.sb (y * d.pitch.toNat + x)
    · refine h'.rows y (by rw [h.screenH]; exact hy) x (by rw [h.pitch]; exact hx) ?_
      rw [h.pitch, hsame]
      exact hne
    · exact h'.marks y (h.rows y hy x hx hsame)
  · rcases h'.fresh y (by rw [h.screenH]; exact hy) hm with hm | hd
    · rcases h.fresh y hy hm with hm | hd
      · exact Or.inl hm
      · exact Or.inr (h'.dirty hd)
    · exact Or.inr hd

theorem cursor (d : Display) (x y : BitVec 32) : Redraws d { d with cursorX := x, cursorY := y } :=
  ⟨rfl, rfl, rfl, rfl, fun _ _ _ _ h => absurd rfl h, fun _ h => h, fun _ _ h => Or.inl h, fun h => h⟩

theorem tracks (h : Redraws d d') (ht : d.Tracks) : d'.Tracks := by
  refine ⟨fun y hy x hx hne => ?_, fun y hy hm => ?_⟩
  · rw [h.screenH] at hy
    rw [h.pitch] at hx hne
    rw [h.fb] at hne
    by_cases hsame : d'.sb (y * d.pitch.toNat + x) = d.sb (y * d.pitch.toNat + x)
    · rw [hsame] at hne
      exact h.marks y (ht.marked y hy x hx hne)
    · exact h.rows y hy x hx hsame
  · rw [h.screenH] at hy
    rcases h.fresh y hy hm with hm | hd
    · exact h.dirty (ht.dirty y hy hm)
    · exact hd

theorem of_all (hsb : d'.sbSet = d.sbSet) (hfb : d'.fbSet = d.fbSet) (hf : d'.fb = d.fb) (hm : d'.mode = d.mode)
    (hrows : d'.dirtyRows = d.markAll d.dirtyRows) (hd : d'.dirty = true) : Redraws d d' := by
  obtain ⟨hall, hmarks⟩ := d.markAll_spec d.dirtyRows
  refine ⟨hsb, hfb, hf, hm, fun y hy _ _ _ => ?_, fun y hy => ?_, fun _ _ _ => Or.inr hd, fun _ => hd⟩
  · rw [hrows]
    exact hall y hy
  · rw [hrows]
    exact hmarks y hy

theorem scroll (d : Display) : Redraws d d.scroll := of_all rfl rfl rfl rfl rfl rfl

theorem displayClear (d : Display) : Redraws d d.displayClear := by
  unfold Display.displayClear
  split
  · exact refl d
  · exact of_all rfl rfl rfl rfl rfl rfl

theorem newLine (d : Display) : Redraws d d.newLine := by
  unfold Display.newLine
  dsimp only
  split
  · exact (cursor d _ _).trans (scroll _)
  · exact cursor d _ _

end Redraws

/-! ### Modes that fit -/

/-- A display whose buffers are set, in a mode that fits. -/
structure Ready (d : Display) : Prop where
  sbSet : d.sbSet = true
  fbSet : d.fbSet = true
  assumed : d.mode.Assumed
  fits : d.mode.Fits

theorem Redraws.ready {d' : Display} (h : Redraws d d') (hr : d.Ready) : d'.Ready :=
  ⟨h.sbSet.trans hr.sbSet, h.fbSet.trans hr.fbSet, h.mode ▸ hr.assumed, h.mode ▸ hr.fits⟩

/-- No pixel of the screen has another one's address. -/
theorem Ready.pixel_address (h : d.Ready) {x y : BitVec 32} (hx : x < d.screenW) (hy : y < d.screenH) :
    (y * d.pitch + x).toNat = y.toNat * d.pitch.toNat + x.toNat := by
  have hle : y.toNat * d.pitch.toNat ≤ (d.screenH.toNat - 1) * d.pitch.toNat := Nat.mul_le_mul_right _ (by
    have : y.toNat < d.screenH.toNat := hy
    omega)
  have hpixels : (d.screenH.toNat - 1) * d.pitch.toNat + d.screenW.toNat ≤ 2 ^ 32 := h.fits.pixels
  have hlt : x.toNat < d.screenW.toNat := hx
  rw [BitVec.toNat_add, BitVec.toNat_mul]
  rw [Nat.mod_eq_of_lt (show y.toNat * d.pitch.toNat < 2 ^ 32 by omega), Nat.mod_eq_of_lt (by omega)]

theorem Redraws.putPixel (h : d.Ready) (x y color : BitVec 32) : Redraws d (d.putPixel x y color) := by
  unfold Display.putPixel
  by_cases hout : d.screenW ≤ x ∨ d.screenH ≤ y
  · rw [if_pos hout]
    exact .refl d
  rw [if_neg hout, if_pos h.sbSet]
  obtain ⟨hx, hy⟩ : x < d.screenW ∧ y < d.screenH := by
    simpa [not_or] using hout
  have haddr := h.pixel_address hx hy
  refine ⟨rfl, rfl, rfl, rfl, fun y' hy' x' hx' hne => ?_, fun y' hm => ?_, fun _ _ _ => Or.inr rfl, fun _ => rfl⟩
  · have hsame : y' * d.pitch.toNat + x' = y.toNat * d.pitch.toNat + x.toNat := by
      by_contra hc
      refine hne (update_of_ne ?_ _ _)
      rw [haddr]
      exact hc
    have hlt : x.toNat < d.pitch.toNat := Nat.lt_of_lt_of_le hx h.assumed.width
    have hrow : y' = y.toNat := by
      have h1 : (y' * d.pitch.toNat + x') / d.pitch.toNat = y' := by
        rw [Nat.add_comm, Nat.add_mul_div_right _ _ (by omega), Nat.div_eq_of_lt hx', Nat.zero_add]
      have h2 : (y.toNat * d.pitch.toNat + x.toNat) / d.pitch.toNat = y.toNat := by
        rw [Nat.add_comm, Nat.add_mul_div_right _ _ (by omega), Nat.div_eq_of_lt hlt, Nat.zero_add]
      rw [← h1, hsame, h2]
    rw [hrow]
    exact update_self ..
  · show update d.dirtyRows y.toNat true y' = true
    by_cases he : y' = y.toNat
    · rw [he, update_self]
    · rw [update_of_ne he]
      exact hm

theorem Redraws.drawChar (h : d.Ready) (font : Font) (c : BitVec 8) (x y : BitVec 32) :
    Redraws d (d.drawChar font c x y) := by
  unfold Display.drawChar Display.drawRow
  refine forRange_keeps (P := Redraws d) (.refl d) fun row t _ _ ht => ?_
  exact forRange_keeps (P := Redraws d) ht fun col u _ _ hu => hu.trans (.putPixel (hu.ready h) _ _ _)

theorem Redraws.backspace (h : d.Ready) (font : Font) : Redraws d (d.backspace font) := by
  have hdraw (x y : BitVec 32) : Redraws d (Display.drawChar font { d with cursorX := x, cursorY := y } 0x20#8 x y) :=
    (cursor d x y).trans (.drawChar ((cursor d x y).ready h) font _ _ _)
  unfold Display.backspace
  split
  · exact hdraw (d.cursorX - 8) d.cursorY
  · split
    · exact hdraw _ (d.cursorY - 10)
    · exact .refl d

theorem Redraws.printChar (h : d.Ready) (font : Font) (c : BitVec 8) : Redraws d (d.printChar font c) := by
  have hdraw := Redraws.drawChar h font c d.cursorX d.cursorY
  unfold Display.printChar
  split
  · exact .newLine d
  split
  · exact cursor d 0 d.cursorY
  split
  · exact .backspace h font
  dsimp only
  generalize Display.drawChar font d c d.cursorX d.cursorY = t at hdraw
  have hnext := hdraw.trans (cursor t (t.cursorX + 8) t.cursorY)
  split
  · exact hnext.trans (.newLine _)
  · exact hnext

theorem Redraws.print (h : d.Ready) (font : Font) (str : List (BitVec 8)) : Redraws d (d.print font str) := by
  unfold Display.print
  generalize str.takeWhile (· ≠ 0) = cs
  induction cs generalizing d with
  | nil => exact .refl d
  | cons c cs ih =>
    have hc := Redraws.printChar h font c
    exact hc.trans (ih (hc.ready h))

/-! ### Flushing -/

theorem Ready.inRow (h : d.Ready) {y x : Nat} (hy : y < d.screenH.toNat) (hx : x < d.pitch.toNat) :
    d.InRow y (y * d.pitch.toNat + x) := by
  obtain ⟨half, hhalf⟩ : Even d.pitch.toNat := h.assumed.even
  obtain ⟨hlow, -⟩ : 10 < d.screenH.toNat ∧ _ := h.assumed.height
  have hrow : (d.screenH.toNat - 1) * d.pitch.toNat < 2 ^ 32 := h.fits.row
  have hle : y * d.pitch.toNat ≤ (d.screenH.toNat - 1) * d.pitch.toNat := Nat.mul_le_mul_right _ (by omega)
  have hten : 10 * d.pitch.toNat ≤ (d.screenH.toNat - 1) * d.pitch.toNat := Nat.mul_le_mul_right _ (by omega)
  have hstart : d.rowStart y = y * d.pitch.toNat := by
    unfold rowStart
    rw [BitVec.toNat_mul, BitVec.toNat_ofNat, Nat.mod_eq_of_lt (show y < 2 ^ 32 by have := d.screenH.isLt; omega),
      Nat.mod_eq_of_lt (by omega)]
  have hwords : 2 * d.rowWords = d.pitch.toNat := by
    unfold rowWords
    rw [BitVec.toNat_mul, show (4 : BitVec 32).toNat = 4 from rfl, Nat.mod_eq_of_lt (by omega)]
    omega
  unfold InRow
  rw [hstart, hwords]
  omega

theorem Ready.shown_displayFlush (h : d.Ready) (ht : d.Tracks) : d.displayFlush.Shown := by
  by_cases hd : d.dirty = true
  · rw [displayFlush_eq h.sbSet h.fbSet hd]
    have hflushed := d.flushedTo
    refine ⟨fun y hy x hx => ?_, hflushed.clean⟩
    by_cases hsame : d.fb (y * d.pitch.toNat + x) = d.sb (y * d.pitch.toNat + x)
    · exact hflushed.same _ hsame
    · exact hflushed.copied y hy (ht.marked y hy x hx hsame) _ (h.inRow hy hx)
  · -- nothing is marked
    have hsame : d.displayFlush = d := by
      unfold displayFlush
      rw [if_pos (Or.inr (Or.inr hd))]
    have hclean : ∀ y < d.screenH.toNat, d.dirtyRows y = false := fun y hy =>
      Bool.eq_false_iff.mpr fun hm => hd (ht.dirty y hy hm)
    rw [hsame]
    refine ⟨fun y hy x hx => ?_, hclean⟩
    by_contra hne
    have hmark := ht.marked y hy x hx hne
    rw [hclean y hy] at hmark
    cases hmark

theorem Shown.tracks (h : d.Shown) : d.Tracks :=
  ⟨fun y hy x hx hne => absurd (h.same y hy x hx) hne, fun y hy hm => by rw [h.clean y hy] at hm; cases hm⟩

theorem displayFlush_ready (h : d.Ready) : d.displayFlush.Ready := by
  unfold displayFlush
  split
  · exact h
  · exact ⟨h.sbSet, h.fbSet, h.assumed, h.fits⟩

theorem Ready.exec (h : d.Ready) (ht : d.Tracks) (font : Font) (call : DisplayCall) :
    (d.exec font call).Ready ∧ (d.exec font call).Tracks := by
  have redrawn {d' : Display} (hd : Redraws d d') : d'.Ready ∧ d'.Tracks := ⟨hd.ready h, hd.tracks ht⟩
  cases call with
  | printChar c => exact redrawn (.printChar h font c)
  | print str => exact redrawn (.print h font str)
  | drawChar c x y => exact redrawn (.drawChar h font c x y)
  | clear => exact redrawn (.displayClear d)
  | flush => exact ⟨displayFlush_ready h, (h.shown_displayFlush ht).tracks⟩

theorem displayClear_tracks (hsb : d.sbSet = true) : d.displayClear.Tracks := by
  have hclear : d.displayClear.dirtyRows = d.markAll d.dirtyRows ∧ d.displayClear.dirty = true ∧
      d.displayClear.screenH = d.screenH := by
    unfold displayClear
    rw [if_neg (by simp [hsb])]
    exact ⟨rfl, rfl, rfl⟩
  refine ⟨fun y hy x hx _ => ?_, fun _ _ _ => hclear.2.1⟩
  rw [hclear.2.2] at hy
  rw [hclear.1]
  exact (d.markAll_spec d.dirtyRows).1 y hy

theorem ready_of_reachable {font : Font} (hm : m.Assumed) (hf : m.Fits) (h : (displays font m).Reachable d) :
    d.Ready ∧ d.Tracks := by
  refine h.invariant (I := fun d => d.Ready ∧ d.Tracks) ?_ ?_
  · rintro d ⟨d₀, hsb, hfb, rfl, rfl⟩
    exact ⟨(Redraws.displayClear d₀).ready ⟨hsb, hfb, hm, hf⟩, displayClear_tracks hsb⟩
  · rintro d call d' ⟨hr, ht⟩ rfl
    exact hr.exec ht font call

/-! ### Modes that do not fit -/

/-- The statics before the first call. -/
def unset : Display where
  sbSet := false
  sb _ := 0
  fbSet := false
  fb _ := 0
  screenW := 0
  screenH := 0
  pitch := 0
  cursorX := 0
  cursorY := 0
  dirtyRows _ := false
  dirty := false

/-- The display after boot, with the pixels that are found in the two buffers. -/
def booted (m : Mode) (fb sb : BitVec 32) : Display := displaySetShadow (unset.displayInit (fun _ => fb) m) fun _ => sb

theorem fillRow_keeps {P : BitVec 32 → Prop} (d : Display) {i : Nat} (hw : P bgColor ∨ 2 ^ 32 ≤ i) {y : Nat}
    {sb : Nat → BitVec 32} (h : P (sb i)) : P (d.fillRow y sb i) := by
  unfold fillRow
  refine forRange_keeps (P := fun t : Nat → BitVec 32 => P (t i)) h fun x t _ _ ht => ?_
  by_cases hi : i = (BitVec.ofNat 32 y * d.pitch + BitVec.ofNat 32 x).toNat
  · rcases hw with hw | hw
    · rw [hi, update_self]
      exact hw
    · have := (BitVec.ofNat 32 y * d.pitch + BitVec.ofNat 32 x).isLt
      omega
  · rw [update_of_ne hi]
    exact ht

theorem booted_displayClear (m : Mode) (fb sb : BitVec 32) : (booted m fb sb).displayClear.mode = m ∧
    (booted m fb sb).displayClear.sbSet = true ∧ (booted m fb sb).displayClear.fbSet = true ∧
      (booted m fb sb).displayClear.dirty = true ∧
    (booted m fb sb).displayClear.fb = (fun _ => fb) ∧
      (∀ y < m.height.toNat, (booted m fb sb).displayClear.dirtyRows y = true) ∧
    ∀ P : BitVec 32 → Prop, ∀ i, P sb → (P bgColor ∨ 2 ^ 32 ≤ i) → P ((booted m fb sb).displayClear.sb i) := by
  refine ⟨rfl, rfl, rfl, rfl, rfl, fun y hy => ((booted m fb sb).markAll_spec _).1 y hy, fun P i hsb hw => ?_⟩
  exact forRange_keeps (P := fun t : Nat → BitVec 32 => P (t i)) hsb fun y t _ _ ht => fillRow_keeps _ hw ht

theorem init_displays (font : Font) (m : Mode) (fb sb : BitVec 32) :
    (displays font m).init (booted m fb sb).displayClear :=
  ⟨booted m fb sb, rfl, rfl, rfl, rfl⟩

/-- The last pixel is out of reach of both `display_clear` and `display_flush`. -/
theorem not_shown (h : 2 ^ 32 ≤ (m.height.toNat - 1) * m.pitch.toNat) :
    ¬(booted m 0 1).displayClear.displayFlush.Shown := by
  obtain ⟨hmode, hsb, hfb, hdirty, hpixels, -, hclear⟩ := booted_displayClear m 0 1
  generalize (booted m 0 1).displayClear = d at hmode hsb hfb hdirty hpixels hclear
  subst hmode
  replace h : 2 ^ 32 ≤ (d.screenH.toNat - 1) * d.pitch.toNat := h
  have hpitch : 0 < d.pitch.toNat := by
    rcases Nat.eq_zero_or_pos d.pitch.toNat with h0 | h0
    · rw [h0, Nat.mul_zero] at h
      omega
    · exact h0
  have hheight : 0 < d.screenH.toNat := by
    rcases Nat.eq_zero_or_pos d.screenH.toNat with h0 | h0
    · rw [h0, Nat.zero_sub, Nat.zero_mul] at h
      omega
    · exact h0
  have hout : ∀ y < d.screenH.toNat, ¬d.InRow y ((d.screenH.toNat - 1) * d.pitch.toNat + (d.pitch.toNat - 1)) := by
    rintro y - ⟨-, hlt⟩
    have hstart : d.rowStart y < 2 ^ 32 := BitVec.isLt _
    have hwords : 2 * d.rowWords ≤ d.pitch.toNat := by
      unfold rowWords
      rw [BitVec.toNat_mul, show (4 : BitVec 32).toNat = 4 from rfl]
      have := Nat.mod_le (d.pitch.toNat * 4) (2 ^ 32)
      omega
    omega
  intro hshown
  rw [displayFlush_eq hsb hfb hdirty] at hshown
  have hsame := hshown.same (d.screenH.toNat - 1) (show d.screenH.toNat - 1 < d.screenH.toNat by omega)
    (d.pitch.toNat - 1)
    (show d.pitch.toNat - 1 < d.pitch.toNat by omega)
  have hsb1 : d.sb ((d.screenH.toNat - 1) * d.pitch.toNat + (d.pitch.toNat - 1)) = 1 :=
    hclear (· = 1) _ rfl (Or.inr (by omega))
  have hzero : d.fb ((d.screenH.toNat - 1) * d.pitch.toNat + (d.pitch.toNat - 1)) = 0 := by rw [hpixels]
  have hone := ((d.flushedTo.kept _ hout).trans hzero).symm.trans (hsame.trans hsb1)
  exact absurd hone (by decide)

/-- What drawing pixels in `fg_color` off row 0 keeps. -/
structure Lit (d t : Display) : Prop where
  fb : t.fb = d.fb
  mode : t.mode = d.mode
  sbSet : t.sbSet = true
  clean : t.dirtyRows 0 = false

theorem Lit.putPixel {t : Display} (h : Lit d t) (x : BitVec 32) {y : BitVec 32} (hy : y.toNat ≠ 0) :
    Lit d (t.putPixel x y fgColor) ∧ (t.sb 0 = fgColor → (t.putPixel x y fgColor).sb 0 = fgColor) := by
  unfold Display.putPixel
  split
  · exact ⟨h, fun h => h⟩
  · rw [if_pos h.sbSet]
    refine ⟨⟨h.fb, h.mode, h.sbSet, ?_⟩, fun hsb => ?_⟩
    · exact (update_of_ne hy.symm _ _).trans h.clean
    · show update t.sb _ fgColor 0 = fgColor
      by_cases h0 : 0 = (y * t.pitch + x).toNat
      · rw [← h0, update_self]
      · rw [update_of_ne h0]
        exact hsb

/-- The font whose glyphs are all lit. -/
def solidFont : Font := fun _ _ => 0xFF#8

theorem glyphColor_solidFont (c : BitVec 8) (row : Nat) {col : Nat} (hcol : col < 8) :
    glyphColor solidFont c row col = fgColor := by
  have hbit : ∀ i < 8, (0xFF#8).getLsbD i = true := by decide
  exact if_pos (hbit col hcol)

section Lit
variable {d : Display} {x y : BitVec 32} (hx : x < d.screenW) (hy : y < d.screenH) (haddr : (y * d.pitch + x).toNat = 0)
  (hoff : ∀ row < 8, (y + BitVec.ofNat 32 row).toNat ≠ 0)
include hx hy haddr

theorem Lit.first {t : Display} (ht : Lit d t) :
    (t.putPixel (x + BitVec.ofNat 32 0) (y + BitVec.ofNat 32 0) fgColor).sb 0 = fgColor := by
  obtain ⟨hwt, hht, hpt⟩ : t.screenW = d.screenW ∧ t.screenH = d.screenH ∧ t.pitch = d.pitch :=
    ⟨congrArg Mode.width ht.mode, congrArg Mode.height ht.mode, congrArg Mode.pitch ht.mode⟩
  have hin : ¬(t.screenW ≤ x ∨ t.screenH ≤ y) := by
    rw [hwt, hht, not_or, BitVec.not_le, BitVec.not_le]
    exact ⟨hx, hy⟩
  rw [BitVec.add_zero, BitVec.add_zero]
  unfold Display.putPixel
  rw [if_neg hin, if_pos ht.sbSet, hpt]
  show update t.sb _ fgColor 0 = fgColor
  rw [haddr, update_self]

include hoff

theorem Lit.drawRow {t : Display} {row : Nat} (hr : row < 8) (ht : Lit d t) (hsb : 0 < row → t.sb 0 = fgColor) :
    Lit d (Display.drawRow solidFont 0 x y row t) ∧ (Display.drawRow solidFont 0 x y row t).sb 0 = fgColor := by
  suffices hloop : Lit d (Display.drawRow solidFont 0 x y row t) ∧
      (0 < row + 8 → (Display.drawRow solidFont 0 x y row t).sb 0 = fgColor) from
    ⟨hloop.1, hloop.2 (by omega)⟩
  unfold Display.drawRow
  refine forRange_invariant (P := fun n (u : Display) => Lit d u ∧ (0 < row + n → u.sb 0 = fgColor)) (Nat.zero_le 8)
    ⟨ht, hsb⟩ ?_
  rintro col u - hcol ⟨hu, hlit⟩
  rw [glyphColor_solidFont 0 row hcol]
  obtain ⟨hu', hkeep⟩ := hu.putPixel (x + BitVec.ofNat 32 col) (hoff row hr)
  refine ⟨hu', fun _ => ?_⟩
  rcases Nat.eq_zero_or_pos (row + col) with h0 | h0
  · obtain ⟨rfl, rfl⟩ : row = 0 ∧ col = 0 := by omega
    exact hu.first hx hy haddr
  · exact hkeep (hlit h0)

theorem Lit.drawChar (h : Lit d d) :
    Lit d (d.drawChar solidFont 0 x y) ∧ (d.drawChar solidFont 0 x y).sb 0 = fgColor := by
  suffices hloop : Lit d (d.drawChar solidFont 0 x y) ∧ (0 < 8 → (d.drawChar solidFont 0 x y).sb 0 = fgColor) from
    ⟨hloop.1, hloop.2 (by decide)⟩
  unfold Display.drawChar
  refine forRange_invariant (P := fun n (u : Display) => Lit d u ∧ (0 < n → u.sb 0 = fgColor)) (Nat.zero_le 8)
    ⟨h, fun h0 => absurd h0 (Nat.lt_irrefl 0)⟩ ?_
  rintro row u - hr ⟨hu, hsb⟩
  obtain ⟨hu', hsb'⟩ := hu.drawRow hx hy haddr hoff hr hsb
  exact ⟨hu', fun _ => hsb'⟩

end Lit

/-- A flush right after `display_clear` leaves row 0 with no mark and no pixel in `fg_color`. -/
theorem exists_flushed (hm : m.Assumed) (font : Font) (hrow : (m.height.toNat - 1) * m.pitch.toNat < 2 ^ 32)
    (h0 : 0 < m.pitch.toNat) :
    ∃ d, (displays font m).Reachable d ∧ d.mode = m ∧ d.sbSet = true ∧ d.dirtyRows 0 = false ∧ d.fb 0 ≠ fgColor := by
  obtain ⟨hmode, hsb, hfb, hdirty, -, hall, hclear⟩ := booted_displayClear m 0 1
  have hinit := init_displays font m 0 1
  generalize (booted m 0 1).displayClear = d at hmode hsb hfb hdirty hclear hinit hall
  have hreach : (displays font m).Reachable d.displayFlush := (Lts.System.Reachable.init hinit).step (e := .flush) rfl
  subst hmode
  replace hrow : (d.screenH.toNat - 1) * d.pitch.toNat < 2 ^ 32 := hrow
  replace h0 : 0 < d.pitch.toNat := h0
  obtain ⟨hlow, -⟩ : 10 < d.screenH.toNat ∧ d.screenH.toNat ≤ 2160 := hm.height
  obtain ⟨half, hhalf⟩ : Even d.pitch.toNat := hm.even
  have hten : 10 * d.pitch.toNat ≤ (d.screenH.toNat - 1) * d.pitch.toNat := Nat.mul_le_mul_right _ (by omega)
  have hfirst : d.InRow 0 0 := by
    unfold InRow rowStart rowWords
    rw [BitVec.toNat_mul, BitVec.toNat_mul, show (4 : BitVec 32).toNat = 4 from rfl,
      Nat.mod_eq_of_lt (show d.pitch.toNat * 4 < 2 ^ 32 by omega)]
    simp only [BitVec.toNat_ofNat, Nat.zero_mod, Nat.zero_mul]
    omega
  have hpixel := d.flushedTo.copied 0 (by omega) (hall 0 (show 0 < d.screenH.toNat by omega)) 0 hfirst
  have hback : d.sb 0 ≠ fgColor := hclear (· ≠ fgColor) 0 (by decide) (Or.inl (by decide))
  refine ⟨d.displayFlush, hreach, ?_⟩
  rw [displayFlush_eq hsb hfb hdirty]
  exact ⟨rfl, hsb, d.flushedTo.clean 0 (by omega), fun he => hback (hpixel.symm.trans he)⟩

/-- A glyph drawn where the last row passes `2 ^ 32` appears in row 0, which is not marked. -/
theorem exists_not_tracks (hm : m.Assumed) (hrow : (m.height.toNat - 1) * m.pitch.toNat < 2 ^ 32)
    (h : 2 ^ 32 < (m.height.toNat - 1) * m.pitch.toNat + m.width.toNat) :
    ∃ d, (displays solidFont m).Reachable d ∧ ¬d.Tracks := by
  have hw : m.width.toNat ≤ m.pitch.toNat := hm.width
  obtain ⟨hlow, hhigh⟩ := hm.height
  have hwidth := m.width.isLt
  obtain ⟨d, hreach, rfl, hsb, hclean, hpixel⟩ := exists_flushed hm solidFont hrow (by omega)
  obtain ⟨x, hx⟩ : ∃ x : BitVec 32, x.toNat = 2 ^ 32 - (d.mode.height.toNat - 1) * d.mode.pitch.toNat :=
    ⟨BitVec.ofNat 32 (2 ^ 32 - (d.mode.height.toNat - 1) * d.mode.pitch.toNat), by
      rw [BitVec.toNat_ofNat, Nat.mod_eq_of_lt (by omega)]⟩
  obtain ⟨y, hy⟩ : ∃ y : BitVec 32, y.toNat = d.mode.height.toNat - 1 :=
    ⟨BitVec.ofNat 32 (d.mode.height.toNat - 1), by rw [BitVec.toNat_ofNat, Nat.mod_eq_of_lt (by omega)]⟩
  have haddr : (y * d.mode.pitch + x).toNat = 0 := by
    rw [BitVec.toNat_add, BitVec.toNat_mul, hx, hy, Nat.mod_eq_of_lt hrow]
    omega
  have hoff : ∀ row < 8, (y + BitVec.ofNat 32 row).toNat ≠ 0 := fun row hr => by
    rw [BitVec.toNat_add, BitVec.toNat_ofNat, hy]
    omega
  have hxw : x < d.mode.width := by
    rw [BitVec.lt_def, hx]
    omega
  have hyh : y < d.mode.height := by
    rw [BitVec.lt_def, hy]
    omega
  obtain ⟨hlit, hlast⟩ := Lit.drawChar hxw hyh haddr hoff ⟨rfl, rfl, hsb, hclean⟩
  refine ⟨d.drawChar solidFont 0 x y, hreach.step (e := .drawChar 0 x y) rfl, fun htracks => ?_⟩
  generalize d.drawChar solidFont 0 x y = t at hlit hlast htracks
  have hne : t.fb (0 * t.pitch.toNat + 0) ≠ t.sb (0 * t.pitch.toNat + 0) := by
    rw [Nat.zero_mul, hlit.fb, hlast]
    exact hpixel
  have hh : t.screenH = d.mode.height := congrArg Mode.height hlit.mode
  have hp : t.pitch = d.mode.pitch := congrArg Mode.pitch hlit.mode
  have hmark := htracks.marked 0 (by rw [hh]; omega) 0 (by rw [hp]; omega) hne
  rw [hlit.clean] at hmark
  cases hmark

/-- In a mode as assumed, whatever the glyphs and the contents of the buffers, every sequence of calls after
    `display_clear` keeps track of the rows that differ, and every flush shows the shadow, exactly if the last row
    starts and its pixels lie below `2 ^ 32`. -/
theorem flush_shows_shadow_iff {m : Mode} (hm : m.Assumed) :
    (∀ font d, (displays font m).Reachable d → d.Tracks ∧ d.displayFlush.Shown) ↔ m.Fits := by
  constructor
  · intro h
    have hrow : (m.height.toNat - 1) * m.pitch.toNat < 2 ^ 32 := by
      by_contra hc
      exact not_shown (Nat.le_of_not_lt hc) (h (fun _ _ => 0) _ (.init (init_displays _ m 0 1))).2
    refine ⟨hrow, ?_⟩
    by_contra hc
    obtain ⟨d, hd, hnot⟩ := exists_not_tracks hm hrow (Nat.lt_of_not_le hc)
    exact hnot (h _ d hd).1
  · intro hf font d hd
    obtain ⟨hr, ht⟩ := ready_of_reachable hm hf hd
    exact ⟨ht, hr.shown_displayFlush ht⟩

/-- 1920 by 1080 pixels. -/
theorem flush_shows_shadow_hd : (⟨1920, 1080, 1920⟩ : Mode).Assumed ∧
    ∀ font d, (displays font ⟨1920, 1080, 1920⟩).Reachable d → d.Tracks ∧ d.displayFlush.Shown := by
  have hm : (⟨1920, 1080, 1920⟩ : Mode).Assumed := ⟨by decide, by decide, by decide⟩
  exact ⟨hm, (flush_shows_shadow_iff hm).mpr ⟨by decide, by decide⟩⟩

/-- Scanlines of `2 ^ 30` pixels: `pitch * 4` is 0 in 32 bits, and `display_flush` copies nothing. -/
theorem flush_shows_nothing : (⟨0x40000000, 11, 0x40000000⟩ : Mode).Assumed ∧
    ∃ d, (displays (fun _ _ => 0) ⟨0x40000000, 11, 0x40000000⟩).Reachable d ∧ ¬d.displayFlush.Shown :=
  ⟨⟨by decide, by decide, by decide⟩, _, .init (init_displays _ _ 0 1), not_shown (by decide)⟩

end Display
end SamOS
