import Mathlib.Logic.Function.Basic
import SamOS.Lib.Bits

/-! Physical memory as pages of 512 words, and page-table entries as 64-bit words. A page is named by its page number;
    the code reads physical memory through the identity map, so a page-table pointer is a page number too. -/

namespace SamOS
open Function

/-- A 64-bit word, as stored in memory. -/
abbrev Word := BitVec 64

/-- Physical memory: the word at index `i < 512` of page `f`. -/
abbrev Mem := Nat → Nat → Word

namespace Mem

/-- `table[i] = w` for the table in page `f`. -/
def write (m : Mem) (f i : Nat) (w : Word) : Mem := update m f (update (m f) i w)

/-- The loop that clears all of page `f`. -/
def zeroPage (m : Mem) (f : Nat) : Mem := update m f fun _ => 0

@[simp] theorem write_same (m : Mem) (f i : Nat) (w : Word) : m.write f i w f i = w := by simp [write]

theorem write_apply (m : Mem) (f i g j : Nat) (w : Word) :
    m.write f i w g j = if g = f ∧ j = i then w else m g j := by
  by_cases hg : g = f
  · subst hg
    by_cases hj : j = i <;> simp [write, hj]
  · simp [write, hg]

theorem write_cases (m : Mem) (f i g j : Nat) (w : Word) :
    (¬(g = f ∧ j = i) ∧ m.write f i w g j = m g j) ∨ (g = f ∧ j = i ∧ m.write f i w g j = w) := by
  rw [write_apply]
  split
  · rename_i h
    exact Or.inr ⟨h.1, h.2, rfl⟩
  · rename_i h
    exact Or.inl ⟨h, rfl⟩

theorem write_of_ne (m : Mem) {f g : Nat} (i : Nat) (w : Word) (h : g ≠ f) : m.write f i w g = m g := by
  simp [write, update_of_ne h]

@[simp] theorem zeroPage_same (m : Mem) (f i : Nat) : m.zeroPage f f i = 0 := by simp [zeroPage]

theorem zeroPage_of_ne (m : Mem) {f g : Nat} (h : g ≠ f) : m.zeroPage f g = m g := by
  simp [zeroPage, update_of_ne h]

end Mem

/-- An `AddressSpace*`: `NULL`, `&kernel_address_space`, or the physical page the structure lies in. -/
inductive AsPtr where
  | null
  | kernel
  | page (frame : Nat)
  deriving DecidableEq, Repr

/-! ### Bytes -/

/-- Byte `k` of a word, in the little-endian order of x86. -/
def Word.byte (w : Word) (k : Nat) : BitVec 8 := w.extractLsb' (8 * k) 8

/-- The word with byte `k` replaced. -/
def Word.setByte (w : Word) (k : Nat) (b : BitVec 8) : Word :=
  (w &&& ~~~(0xFF#64 <<< (8 * k))) ||| (b.setWidth 64 <<< (8 * k))

/-- The byte at physical address `a`. -/
def Mem.readByte (m : Mem) (a : Nat) : BitVec 8 := (m (a / 4096) (a % 4096 / 8)).byte (a % 8)

/-- `*((uint8_t*)a) = b`. -/
def Mem.writeByte (m : Mem) (a : Nat) (b : BitVec 8) : Mem :=
  m.write (a / 4096) (a % 4096 / 8) ((m (a / 4096) (a % 4096 / 8)).setByte (a % 8) b)

theorem Mem.writeByte_of_ne (m : Mem) {a g : Nat} (b : BitVec 8) (h : g ≠ a / 4096) : m.writeByte a b g = m g :=
  Mem.write_of_ne m _ _ h

theorem Word.byte_setByte (w : Word) {j k : Nat} (hj : j < 8) (hk : k < 8) (b : BitVec 8) :
    (w.setByte k b).byte j = if j = k then b else w.byte j := by
  have hmask : ∀ n, (0xFF#64).getLsbD n = decide (n < 8) := fun n => by
    rw [BitVec.getLsbD_ofNat, show (0xFF : Nat) = 2 ^ 8 - 1 from rfl, Nat.testBit_two_pow_sub_one]
    by_cases hn : n < 8 <;> simp [hn]
    omega
  refine BitVec.eq_of_getLsbD_eq fun i hi => ?_
  have h64 : 8 * j + i < 64 := by omega
  simp only [Word.byte, Word.setByte, BitVec.getLsbD_extractLsb', BitVec.getLsbD_or, BitVec.getLsbD_and,
    BitVec.getLsbD_not, BitVec.getLsbD_shiftLeft, BitVec.getLsbD_setWidth, hmask, hi, h64, decide_true, Bool.true_and]
  rcases Nat.lt_trichotomy j k with hlt | rfl | hgt
  · rw [if_neg (by omega), BitVec.getLsbD_extractLsb']
    simp [hi, show 8 * j + i < 8 * k by omega]
  · rw [if_pos rfl]
    simp [hi, show ¬8 * j + i < 8 * j by omega, show i < 64 by omega]
  · rw [if_neg (by omega), BitVec.getLsbD_extractLsb']
    have hge : 8 ≤ 8 * j + i - 8 * k := by omega
    simp [hi, BitVec.getLsbD_of_ge b _ hge, show ¬8 * j + i - 8 * k < 8 by omega]

theorem Mem.readByte_writeByte (m : Mem) (x a : Nat) (b : BitVec 8) :
    (m.writeByte a b).readByte x = if x = a then b else m.readByte x := by
  unfold Mem.readByte Mem.writeByte
  rw [Mem.write_apply]
  by_cases hw : x / 4096 = a / 4096 ∧ x % 4096 / 8 = a % 4096 / 8
  · rw [if_pos hw, hw.1, hw.2, Word.byte_setByte _ (Nat.mod_lt _ (by decide)) (Nat.mod_lt _ (by decide))]
    exact if_congr (by omega) rfl rfl
  · rw [if_neg hw, if_neg (by omega)]

/-! ### Page-table entries -/

def flagPresent : Word := 1#64 <<< 0
def flagWrite : Word := 1#64 <<< 1
def flagUser : Word := 1#64 <<< 2
/-- `PAGE_PCD`. -/
def flagPcd : Word := 1#64 <<< 4
/-- `PAGE_HUGE`, the bit that makes a page-directory entry map a 2 MiB page. -/
def flagHuge : Word := 1#64 <<< 7
def flagNx : Word := 1#64 <<< 63

/-- The bits 12..51 of an entry, `0x000FFFFFFFFFF000ULL`. -/
def addrMask : Word := 0x000FFFFFFFFFF000#64

def Word.present (e : Word) : Bool := e &&& flagPresent != 0
def Word.user (e : Word) : Bool := e &&& flagUser != 0
def Word.huge (e : Word) : Bool := e &&& flagHuge != 0
def Word.writable (e : Word) : Bool := e &&& flagWrite != 0
def Word.uncached (e : Word) : Bool := e &&& flagPcd != 0

/-- The page an entry points to: `(e & 0x000FFFFFFFFFF000ULL) / 4096`. -/
def Word.frame (e : Word) : Nat := (e &&& addrMask).toNat / 4096

/-- The page `e & ~0xFFFULL`, with which `vmm_destroy_address_space` and `vmm_unmap` follow an entry. -/
def Word.frameLow (e : Word) : Nat := (e &&& ~~~0xFFF#64).toNat / 4096

/-- `(uint64_t)page | flags`. -/
def entry (f : Nat) (flags : Word) : Word := BitVec.ofNat 64 (f * 4096) ||| flags

theorem Word.present_eq (e : Word) : e.present = e.getLsbD 0 := Bits.and_bit_ne_zero e (by decide)
theorem Word.user_eq (e : Word) : e.user = e.getLsbD 2 := Bits.and_bit_ne_zero e (by decide)
theorem Word.huge_eq (e : Word) : e.huge = e.getLsbD 7 := Bits.and_bit_ne_zero e (by decide)
theorem Word.writable_eq (e : Word) : e.writable = e.getLsbD 1 := Bits.and_bit_ne_zero e (by decide)
theorem Word.uncached_eq (e : Word) : e.uncached = e.getLsbD 4 := Bits.and_bit_ne_zero e (by decide)

variable {i f : Nat} {flags : Word}

theorem getLsbD_addrMask (hi : i < 64) : addrMask.getLsbD i = decide (12 ≤ i ∧ i < 52) := by
  have h : ∀ i : Fin 64, addrMask.getLsbD i = decide (12 ≤ i.val ∧ i.val < 52) := by decide
  exact h ⟨i, hi⟩

theorem getLsbD_not_low (hi : i < 64) : (~~~0xFFF#64).getLsbD i = decide (12 ≤ i) := by
  have h : ∀ i : Fin 64, (~~~0xFFF#64).getLsbD i = decide (12 ≤ i.val) := by decide
  exact h ⟨i, hi⟩

theorem getLsbD_pageAddr (hi : i < 64) :
    (BitVec.ofNat 64 (f * 4096)).getLsbD i = (decide (12 ≤ i) && f.testBit (i - 12)) := by
  rw [BitVec.getLsbD_ofNat, show (4096 : Nat) = 2 ^ 12 from rfl, Nat.testBit_mul_two_pow]
  simp [hi]

/-- Flags that stay out of the address bits. -/
def FlagsOnly (flags : Word) : Prop := flags &&& addrMask = 0#64

theorem FlagsOnly.getLsbD (h : FlagsOnly flags) (h12 : 12 ≤ i) (h52 : i < 52) :
    flags.getLsbD i = false := by
  have hi : i < 64 := by omega
  have hbit := congrArg (fun v => BitVec.getLsbD v i) h
  simpa only [BitVec.getLsbD_and, getLsbD_addrMask hi, h12, h52, and_self, decide_true, Bool.and_true,
    BitVec.getLsbD_zero] using hbit

theorem FlagsOnly.or {a b : Word} (ha : FlagsOnly a) (hb : FlagsOnly b) : FlagsOnly (a ||| b) := by
  apply BitVec.eq_of_getLsbD_eq
  intro i hi
  rw [BitVec.getLsbD_and, BitVec.getLsbD_or, getLsbD_addrMask hi, BitVec.getLsbD_zero]
  by_cases h : 12 ≤ i ∧ i < 52
  · rw [ha.getLsbD h.1 h.2, hb.getLsbD h.1 h.2]
    rfl
  · simp [h]

theorem testBit_page (hf : f < 2 ^ 40) (h : 52 ≤ i) : f.testBit (i - 12) = false :=
  Nat.testBit_lt_two_pow (Nat.lt_of_lt_of_le hf (Nat.pow_le_pow_right (by decide) (by omega)))

theorem frame_entry (hf : f < 2 ^ 40) (hfl : FlagsOnly flags) : (entry f flags).frame = f := by
  have hmask : entry f flags &&& addrMask = BitVec.ofNat 64 (f * 4096) := by
    apply BitVec.eq_of_getLsbD_eq
    intro i hi
    simp only [entry, BitVec.getLsbD_and, BitVec.getLsbD_or, getLsbD_pageAddr hi, getLsbD_addrMask hi]
    by_cases h12 : 12 ≤ i
    · by_cases h52 : i < 52
      · simp [h12, h52, hfl.getLsbD h12 h52]
      · simp [h12, h52, testBit_page hf (Nat.not_lt.mp h52)]
    · simp [h12]
  rw [Word.frame, hmask, BitVec.toNat_ofNat, Nat.mod_eq_of_lt (by omega)]
  omega

theorem getLsbD_entry_low (hi : i < 12) : (entry f flags).getLsbD i = flags.getLsbD i := by
  simp only [entry, BitVec.getLsbD_or, getLsbD_pageAddr (show i < 64 by omega)]
  simp [show ¬12 ≤ i by omega]

@[simp] theorem present_entry (f : Nat) (flags : Word) : (entry f flags).present = flags.present := by
  simp only [Word.present_eq, getLsbD_entry_low (show 0 < 12 by decide)]

@[simp] theorem user_entry (f : Nat) (flags : Word) : (entry f flags).user = flags.user := by
  simp only [Word.user_eq, getLsbD_entry_low (show 2 < 12 by decide)]

@[simp] theorem huge_entry (f : Nat) (flags : Word) : (entry f flags).huge = flags.huge := by
  simp only [Word.huge_eq, getLsbD_entry_low (show 7 < 12 by decide)]

@[simp] theorem writable_entry (f : Nat) (flags : Word) : (entry f flags).writable = flags.writable := by
  simp only [Word.writable_eq, getLsbD_entry_low (show 1 < 12 by decide)]

@[simp] theorem uncached_entry (f : Nat) (flags : Word) : (entry f flags).uncached = flags.uncached := by
  simp only [Word.uncached_eq, getLsbD_entry_low (show 4 < 12 by decide)]

/-- Flags below bit 12: those of a table entry. -/
def LowFlags (flags : Word) : Prop := flags &&& ~~~0xFFF#64 = 0#64

theorem LowFlags.getLsbD (h : LowFlags flags) (h12 : 12 ≤ i) : flags.getLsbD i = false := by
  by_cases hi : i < 64
  · have hbit := congrArg (fun v => BitVec.getLsbD v i) h
    simpa only [BitVec.getLsbD_and, getLsbD_not_low hi, h12, decide_true, Bool.and_true, BitVec.getLsbD_zero] using hbit
  · exact BitVec.getLsbD_of_ge _ _ (by omega)

theorem LowFlags.flagsOnly (h : LowFlags flags) : FlagsOnly flags := by
  apply BitVec.eq_of_getLsbD_eq
  intro i hi
  by_cases h12 : 12 ≤ i <;> simp [getLsbD_addrMask hi, h12, h.getLsbD]

theorem frameLow_entry (hf : f < 2 ^ 40) (hfl : LowFlags flags) : (entry f flags).frameLow = f := by
  have hmask : entry f flags &&& ~~~0xFFF#64 = BitVec.ofNat 64 (f * 4096) := by
    apply BitVec.eq_of_getLsbD_eq
    intro i hi
    simp only [entry, BitVec.getLsbD_and, BitVec.getLsbD_or, getLsbD_pageAddr hi, getLsbD_not_low hi]
    by_cases h12 : 12 ≤ i
    · simp [h12, hfl.getLsbD h12]
    · simp [h12]
  rw [Word.frameLow, hmask, BitVec.toNat_ofNat, Nat.mod_eq_of_lt (by omega)]
  omega

/-! ### The user bit -/

theorem getLsbD_flagUser (i : Nat) : flagUser.getLsbD i = decide (i = 2) := by
  rw [show flagUser = BitVec.twoPow 64 2 from rfl, BitVec.getLsbD_twoPow]
  simp [eq_comm]

@[simp] theorem Word.present_or_flagUser (e : Word) : Word.present (e ||| flagUser) = e.present := by
  simp only [Word.present_eq, BitVec.getLsbD_or, getLsbD_flagUser]
  simp

@[simp] theorem Word.huge_or_flagUser (e : Word) : Word.huge (e ||| flagUser) = e.huge := by
  simp only [Word.huge_eq, BitVec.getLsbD_or, getLsbD_flagUser]
  simp

@[simp] theorem Word.user_or_flagUser (e : Word) : Word.user (e ||| flagUser) = true := by
  simp only [Word.user_eq, BitVec.getLsbD_or, getLsbD_flagUser]
  simp

@[simp] theorem Word.frame_or_flagUser (e : Word) : Word.frame (e ||| flagUser) = e.frame := by
  have h : (e ||| flagUser) &&& addrMask = e &&& addrMask := by
    apply BitVec.eq_of_getLsbD_eq
    intro i hi
    simp only [BitVec.getLsbD_and, BitVec.getLsbD_or, getLsbD_flagUser, getLsbD_addrMask hi]
    by_cases h2 : i = 2 <;> simp [h2]
  rw [Word.frame, h, Word.frame]

@[simp] theorem Word.frameLow_or_flagUser (e : Word) : Word.frameLow (e ||| flagUser) = e.frameLow := by
  have h : (e ||| flagUser) &&& ~~~0xFFF#64 = e &&& ~~~0xFFF#64 := by
    apply BitVec.eq_of_getLsbD_eq
    intro i hi
    simp only [BitVec.getLsbD_and, BitVec.getLsbD_or, getLsbD_flagUser, getLsbD_not_low hi]
    by_cases h2 : i = 2 <;> simp [h2]
  rw [Word.frameLow, h, Word.frameLow]

theorem Word.or_flagUser_of_user {e : Word} (h : e.user = true) : e ||| flagUser = e := by
  rw [Word.user_eq] at h
  apply BitVec.eq_of_getLsbD_eq
  intro i _
  rw [BitVec.getLsbD_or, getLsbD_flagUser]
  by_cases h2 : i = 2
  · rw [h2, h]
    rfl
  · simp [h2]

end SamOS
