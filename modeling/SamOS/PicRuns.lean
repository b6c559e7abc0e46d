import SamOS.IrqLaws
import SamOS.Lib.Bits
import SamOS.Pic

/-! Interrupts through the legacy controllers: `pic_init` programs them from any state, and in every run nothing is in
    service while a task runs. So each end-of-interrupt command is for the interrupt that is being served, or for
    none. -/

namespace SamOS
namespace Pic
open Interact I8259

/-- A chip that waits for no word of the initialisation and works with these. -/
def Chip.Set (c : Chip) (offset cascade mode : BitVec 8) : Prop :=
  (c.stage = .ready ∧ c.single = false) ∧ c.offset = offset ∧ c.cascade = cascade ∧ c.mode = mode

/-- Both chips after the initialisation: the second one is behind line 2 of the first and has been told so, both
    answer with a vector, and neither ends an interrupt by itself. -/
structure Programmed (p : Pair) : Prop where
  master : Chip.Set p.master 0x20 0x04 0x01
  slave : Chip.Set p.slave 0x28 0x02 0x01

/-- A chip after the four words of the initialisation and a mask. -/
def Chip.initialised (c : Chip) (offset cascade imr : BitVec 8) : Chip :=
  { c with irr := 0, imr, offset, cascade, mode := 0x01, stage := .ready, single := false, icw4 := true, readIsr := false }

/-- The writes of `pic_init`, with those of `io_wait`. -/
def initWrites (mask1 mask2 : BitVec 8) : List (BitVec 16 × BitVec 8) :=
  [(0x20, 0x11), (0x80, 0), (0xA0, 0x11), (0x80, 0), (0x21, 0x20), (0x80, 0), (0xA1, 0x28), (0x80, 0), (0x21, 0x04),
    (0x80, 0), (0xA1, 0x02), (0x80, 0), (0x21, 0x01), (0x80, 0), (0xA1, 0x01), (0x80, 0), (0x21, mask1),
      (0xA1, mask2), (0x21, 0xFF), (0xA1, 0xFF)]

theorem picInit_eq : picInit = inb 0x21 >>= fun mask1 => inb 0xA1 >>= fun mask2 => outs (initWrites mask1 mask2) := rfl

theorem ensures_picInit (p : Pair) : picInit.Ensures pics p fun _ p' =>
    p'.Like ⟨Chip.initialised p.master 0x20 0x04 0xFF, Chip.initialised p.slave 0x28 0x02 0xFF⟩ := by
  rw [picInit_eq, Prog.ensures_bind]
  refine ((Pair.Like.refl p).inb 0x21).imp fun mask1 q h => ?_
  rw [Prog.ensures_bind]
  refine (h.1.inb 0xA1).imp fun mask2 q h => ?_
  exact h.1.outs (initWrites mask1 mask2)

/-! ### Service -/

/-- The chips are programmed, with the masks of `q`, and these lines are in service. -/
structure InService (q : Pair) (m s : BitVec 8) (p : Pair) : Prop where
  programmed : Programmed p
  masks : p.master.imr = q.master.imr ∧ p.slave.imr = q.slave.imr
  isr : p.master.isr = m ∧ p.slave.isr = s

section Service
variable {q p p' : Pair} {m s : BitVec 8} {irq : Irq}

theorem InService.of_like (h : InService q m s p) (hl : p'.Like p) : InService q m s p' := by
  obtain ⟨⟨a, hm⟩, ⟨b, hs⟩⟩ := hl
  obtain ⟨⟨h1, h2⟩, h3, h4⟩ := h
  exact ⟨⟨by rw [hm]; exact h1, by rw [hs]; exact h2⟩, by rw [hm, hs]; exact h3, by rw [hm, hs]; exact h4⟩

theorem InService.eoi_master (h : InService q m s p) :
    (outb 0x20 0x20).Ensures pics p fun _ p' => InService q (Chip.endOfInterrupt m) s p' := by
  refine ((Pair.Like.refl p).outb 0x20 0x20).imp fun _ p' hl => InService.of_like ?_ hl
  exact ⟨⟨h.programmed.master, h.programmed.slave⟩, h.masks, congrArg Chip.endOfInterrupt h.isr.1, h.isr.2⟩

theorem InService.eoi_slave (h : InService q m s p) :
    (outb 0xA0 0x20).Ensures pics p fun _ p' => InService q m (Chip.endOfInterrupt s) p' := by
  refine ((Pair.Like.refl p).outb 0xA0 0x20).imp fun _ p' hl => InService.of_like ?_ hl
  exact ⟨⟨h.programmed.master, h.programmed.slave⟩, h.masks, h.isr.1, congrArg Chip.endOfInterrupt h.isr.2⟩

theorem InService.picSendEoi (h : InService q m s p) (n : BitVec 8) : (picSendEoi n).Ensures pics p fun _ p' =>
    InService q (Chip.endOfInterrupt m) (if 8 ≤ n then Chip.endOfInterrupt s else s) p' := by
  unfold Pic.picSendEoi
  split
  · rw [Prog.ensures_bind]
    exact h.eoi_slave.imp fun _ p' h' => h'.eoi_master
  · exact h.eoi_master

theorem InService.irqSendEoi (h : InService q m s p) (hpic : irq.backend = .pic) (n : BitVec 8) :
    (irqSendEoi irq n).Ensures pics p fun r p' => r.backend = .pic ∧
      InService q (Chip.endOfInterrupt m) (if 8 ≤ n then Chip.endOfInterrupt s else s) p' := by
  unfold Pic.irqSendEoi
  rw [if_pos hpic, Prog.ensures_bind]
  refine (h.picSendEoi n).imp fun _ p' h' => ⟨?_, h'⟩
  unfold Irq.irqSendEoi
  dsimp only
  rw [hpic]
  rfl

/-- The in-service register of the first chip tells whether line 7 was real. -/
theorem InService.picIsSpuriousIrq7 (h : InService q m s p) :
    picIsSpuriousIrq7.Ensures pics p fun r p' => r = (m &&& 0x80 == 0) ∧ InService q m s p' := by
  unfold Pic.picIsSpuriousIrq7
  rw [Prog.ensures_bind]
  refine ((Pair.Like.refl p).outb 0x20 0x0B).imp fun _ p₁ h₁ => ?_
  rw [Prog.ensures_bind]
  refine (h₁.inb 0x20).imp fun v p₂ h₂ => ?_
  have hv : v = m := (h₂.2.1 rfl rfl).trans h.isr.1
  refine ⟨by rw [hv], InService.of_like ?_ h₂.1⟩
  exact ⟨⟨h.programmed.master, h.programmed.slave⟩, h.masks, h.isr⟩

theorem InService.irqIsSpurious (h : InService q m s p) (hpic : irq.backend = .pic) (n : BitVec 8) :
    (irqIsSpurious irq n).Ensures pics p fun r p' => (r.1 = true ↔ n = 7 ∧ m &&& 0x80 = 0) ∧ r.2.backend = .pic ∧
      InService q m s p' := by
  unfold Pic.irqIsSpurious
  by_cases hn : n = 7
  · rw [if_pos ⟨hpic, hn⟩, Prog.ensures_bind]
    refine h.picIsSpuriousIrq7.imp fun r p' h' => ⟨?_, hpic, h'.2⟩
    rw [h'.1, beq_iff_eq]
    exact (and_iff_right hn).symm
  · rw [if_neg fun hc => hn hc.2]
    exact ⟨⟨fun hf => absurd hf Bool.false_ne_true, fun hc => absurd hc.1 hn⟩, hpic, h⟩

theorem vector_of_line : ∀ i < 16, ¬256 ≤ (0x20 + BitVec.ofNat 8 i : BitVec 8).setWidth 64 ∧
    ¬(0x20 + BitVec.ofNat 8 i : BitVec 8).setWidth 64 < 32 ∧ (0x20 + BitVec.ofNat 8 i : BitVec 8).setWidth 64 ≠
      (128 : BitVec 64) ∧
    ((0x20 + BitVec.ofNat 8 i : BitVec 8).setWidth 64 - 32).setWidth 8 = BitVec.ofNat 8 i ∧
    ((0x20 + BitVec.ofNat 8 i : BitVec 8) = 32 ↔ i = 0) ∧ (BitVec.ofNat 8 i = 7 ↔ i = 7) ∧
      (8 ≤ BitVec.ofNat 8 i ↔ 8 ≤ i) ∧
    (BitVec.ofNat 8 i = 0 ↔ i = 0) := by decide

variable {i : Nat}

/-- The handler of a line ends one interrupt on each chip that has it in service. A line 7 that is not in service is
    left alone. -/
theorem InService.entry (h : InService q m s p) (hpic : irq.backend = .pic) (hi : i < 16) :
    (entry irq (0x20 + BitVec.ofNat 8 i)).Ensures pics p fun r p' => r.2.backend = .pic ∧
      if i = 7 ∧ m &&& 0x80 = 0 then InService q m s p'
      else InService q (Chip.endOfInterrupt m) (if 8 ≤ i then Chip.endOfInterrupt s else s) p' := by
  obtain ⟨h256, h32, h128, hirq, hzero, hseven, height, hne⟩ := vector_of_line i hi
  unfold Pic.entry
  by_cases h0 : i = 0
  · rw [if_pos (hzero.mpr h0), Prog.ensures_bind, timerTick, Prog.ensures_bind]
    subst h0
    exact (h.irqSendEoi hpic 0).imp fun r p' h' => h'
  rw [if_neg (mt hzero.mp h0), interruptHandler, if_neg h256, if_neg h32, if_neg h128]
  dsimp only
  rw [hirq, Prog.ensures_bind]
  refine (h.irqIsSpurious hpic (BitVec.ofNat 8 i)).imp fun r p' h' => ?_
  obtain ⟨spurious, irq'⟩ := r
  obtain ⟨hspurious, hpic', h'⟩ := h'
  rw [hseven] at hspurious
  dsimp only at hspurious hpic' ⊢
  have heoi : ∀ {n : Irq} {p₁ : Pair}, n.backend = .pic → InService q m s p₁ →
    (Pic.irqSendEoi n (BitVec.ofNat 8 i)).Ensures pics p₁ fun r p₂ =>
      r.backend = .pic ∧ InService q (Chip.endOfInterrupt m) (if 8 ≤ i then Chip.endOfInterrupt s else s) p₂ := by
    intro n p₁ hn h₁
    simpa only [height] using h₁.irqSendEoi hn (BitVec.ofNat 8 i)
  by_cases hs : spurious = true
  · simp only [if_pos hs, if_pos (hspurious.mp hs)]
    exact ⟨hpic', h'⟩
  simp only [if_neg hs, if_neg (mt hspurious.mpr hs)]
  split
  · rw [Prog.ensures_bind]
    refine ((Pair.Like.refl p').inb 0x60).imp fun scancode p₂ h₂ => ?_
    rw [Prog.ensures_bind]
    exact (heoi (n := irqNoteKeyboardIrq irq') hpic' (h'.of_like h₂.1)).imp fun r p₃ h₃ => h₃
  · rw [if_pos (mt hne.mp h0), Prog.ensures_bind]
    exact (heoi hpic' h').imp fun r p₃ h₃ => h₃

/-- The mask of one of the 16 lines. -/
def masked (p : Pair) (i : Nat) : Bool := if i < 8 then p.master.imr.getLsbD i else p.slave.imr.getLsbD (i - 8)

/-- What the processor is given by idle chips: a line that is not masked, with its bits in service, or the last vector
    of a chip that has no request any more. Lines 8 to 15 come through line 2. -/
inductive Accepted (q : Pair) : Nat → BitVec 8 → BitVec 8 → Prop
  | line {i : Nat} : i < 8 → i ≠ 2 → masked q i = false → Accepted q i (BitVec.twoPow 8 i) 0
  | cascaded {i : Nat} : i < 8 → masked q 2 = false → masked q (8 + i) = false →
    Accepted q (8 + i) (BitVec.twoPow 8 2) (BitVec.twoPow 8 i)
  | spurious : Accepted q 7 0 0
  | spuriousCascaded : masked q 2 = false → Accepted q 15 (BitVec.twoPow 8 2) 0

theorem Accepted.lt (h : Accepted q i m s) : i < 16 := by
  cases h <;> omega

theorem offset_slave : ∀ i < 8, (0x28 + BitVec.ofNat 8 i : BitVec 8) = 0x20 + BitVec.ofNat 8 (8 + i) := by decide

theorem isCascaded_iff {c : Chip} (h : Chip.Set c 0x20 0x04 0x01) : ∀ i < 8, c.isCascaded i = decide (i = 2) := by
  rw [show c.isCascaded = fun i => !c.single && c.cascade.getLsbD i from rfl, h.1.2, h.2.2.1]
  decide

theorem InService.acknowledge (h : InService q 0 0 p) :
    ∃ i m s, Accepted q i m s ∧ p.acknowledge.1 = some (0x20 + BitVec.ofNat 8 i) ∧ InService q m s p.acknowledge.2 := by
  obtain ⟨⟨hm, hs⟩, ⟨hmi, hsi⟩, hm0, hs0⟩ := h
  unfold Pair.acknowledge
  rcases acknowledge_cases hm0 hm.2.2.2 with ⟨i, hi, hmask, hreq, hvec, hchip⟩ | ⟨hreq, hack⟩
  · rw [hreq, hchip]
    dsimp only
    rw [isCascaded_iff hm i hi]
    by_cases h2 : i = 2
    · subst h2
      have hmask2 : masked q 2 = false := by rw [masked, if_pos (by decide), ← hmi]; exact hmask
      rw [if_neg (by decide), if_pos (by rw [hs.2.2.1]; rfl)]
      rcases acknowledge_cases hs0 hs.2.2.2 with ⟨j, hj, hmask', -, hvec', hchip'⟩ | ⟨-, hack'⟩
      · have hmaskj : masked q (8 + j) = false := by
          rw [masked, if_neg (by omega), Nat.add_sub_cancel_left, ← hsi]
          exact hmask'
        rw [hchip']
        exact ⟨8 + j, _, _, .cascaded hj hmask2 hmaskj, by rw [hvec', hs.2.1, offset_slave j hj], ⟨hm, hs⟩,
          ⟨hmi, hsi⟩, rfl, rfl⟩
      · rw [hack']
        exact ⟨15, _, _, .spuriousCascaded hmask2, by rw [hs.2.1]; rfl, ⟨hm, hs⟩, ⟨hmi, hsi⟩, rfl, hs0⟩
    · have hmaski : masked q i = false := by rw [masked, if_pos hi, ← hmi]; exact hmask
      rw [decide_eq_false h2, if_pos Bool.not_false]
      exact ⟨i, _, _, .line hi h2 hmaski, by rw [hvec, hm.2.1], ⟨hm, hs⟩, ⟨hmi, hsi⟩, rfl, hs0⟩
  · rw [hreq, hack]
    exact ⟨7, _, _, .spurious, by rw [hm.2.1]; rfl, ⟨hm, hs⟩, ⟨hmi, hsi⟩, hm0, hs0⟩

/-- The handler takes everything out of service that the acknowledge has put in. -/
theorem Accepted.entry (hi : Accepted q i m s) (h : InService q m s p) (hpic : irq.backend = .pic) :
    (entry irq (0x20 + BitVec.ofNat 8 i)).Ensures pics p fun r p' => r.2.backend = .pic ∧ InService q 0 0 p' := by
  have hreal : ∀ i < 8, BitVec.twoPow 8 i &&& 0x80 = 0 → i ≠ 7 := by decide
  refine (h.entry hpic hi.lt).imp fun r p' h' => ⟨h'.1, ?_⟩
  have h' := h'.2
  cases hi with
  | line hlt _ _ =>
    rw [if_neg fun hc => hreal _ hlt hc.2 hc.1, if_neg (by omega), endOfInterrupt_twoPow _ hlt] at h'
    exact h'
  | cascaded hlt _ _ =>
    rw [if_neg fun hc => by omega, if_pos (by omega), endOfInterrupt_twoPow _ hlt,
      endOfInterrupt_twoPow 2 (by decide)] at h'
    exact h'
  | spurious => exact h'
  | spuriousCascaded _ => exact h'

end Service

/-! ### Masks -/

/-- The mask register of the chip that has line `n` is changed. -/
def mapMask (p : Pair) (n : BitVec 8) (f : BitVec 8 → BitVec 8) : Pair :=
  if n < 8 then { p with master := { p.master with imr := f p.master.imr } }
  else { p with slave := { p.slave with imr := f p.slave.imr } }

section Masks
variable {p : Pair} {n : BitVec 8} {i : Nat}

theorem ensures_mapMask (h : Programmed p) (f : BitVec 8 → BitVec 8) :
    (inb (line n).1 >>= fun masks => outb (line n).1 (f masks)).Ensures pics p fun _ p' => p'.Like (mapMask p n f) := by
  rw [Prog.ensures_bind]
  by_cases hn : n < 8
  · have hport : (line n).1 = 0x21 := if_pos hn
    have hout : ∀ v, p.out 0x21 v = { p with master := { p.master with imr := v } } := fun v => by
      simp [Pair.out, Chip.data, h.master.1.1]
    rw [hport, mapMask, if_pos hn]
    refine ((Pair.Like.refl p).inb 0x21).imp fun v p₁ h₁ => (h₁.1.outb 0x21 (f v)).imp fun _ p₂ h₂ => ?_
    rwa [hout, h₁.2.2.1 rfl] at h₂
  · have hport : (line n).1 = 0xA1 := if_neg hn
    have hout : ∀ v, p.out 0xA1 v = { p with slave := { p.slave with imr := v } } := fun v => by
      simp [Pair.out, Chip.data, h.slave.1.1]
    rw [hport, mapMask, if_neg hn]
    refine ((Pair.Like.refl p).inb 0xA1).imp fun v p₁ h₁ => (h₁.1.outb 0xA1 (f v)).imp fun _ p₂ h₂ => ?_
    rwa [hout, h₁.2.2.2 rfl] at h₂

theorem masked_of_like {q : Pair} (h : p.Like q) (i : Nat) : masked p i = masked q i := by
  unfold masked
  rw [h.master.imr, h.slave.imr]

theorem masked_mapMask {f : BitVec 8 → BitVec 8} {g : Bool → Bool → Bool}
    (hf : ∀ (v : BitVec 8) (j : Nat), j < 8 → (f v).getLsbD j = g (v.getLsbD j) ((line n).2.getLsbD j))
    (hg : ∀ b, g b false = b) (hi : i < 16) (hn : n < 16) :
    masked (mapMask p n f) i = g (masked p i) (decide (i = n.toNat)) := by
  have hn16 : n.toNat < 16 := hn
  unfold masked mapMask
  by_cases h8 : n < 8
  · have hlt : n.toNat < 8 := h8
    have hbit : (line n).2 = 1#8 <<< n.toNat := by rw [line, if_neg (BitVec.not_le.mpr h8)]
    rw [if_pos h8]
    dsimp only
    split
    · rename_i hi8
      rw [hf _ _ hi8, hbit, Bits.getLsbD_one_shiftLeft, decide_eq_true hi8, Bool.true_and]
    · rw [decide_eq_false (by omega), hg]
  · have hge : 8 ≤ n.toNat := Nat.le_of_not_lt h8
    have hbit : (line n).2 = 1#8 <<< (n.toNat - 8) := by
      rw [line, if_pos (BitVec.not_lt.mp h8), BitVec.toNat_sub_of_le (BitVec.not_lt.mp h8)]
      rfl
    rw [if_neg h8]
    dsimp only
    split
    · rw [decide_eq_false (by omega), hg]
    · rename_i hi8
      rw [hf _ _ (by omega), hbit, Bits.getLsbD_one_shiftLeft, decide_eq_true (by omega : i - 8 < 8), Bool.true_and]
      exact congrArg (g _) (decide_eq_decide.mpr (by omega))

end Masks

/-! ### Runs -/

structure PicRun where
  irq : Irq
  pair : Pair

/-- Calls of `irq_mask` and `irq_unmask`, an interrupt that the processor accepts while a task runs, and an
    `int $0x20` of a task. The lines of the devices move before and in each of them. If no chip answers with a vector,
    the processor takes any. -/
inductive PicEvent where
  | mask (n : BitVec 8)
  | unmask (n : BitVec 8)
  | interrupt (vector : BitVec 8)
  | yield

def PicRun.step (t : PicRun) : PicEvent → PicRun → Prop
  | .mask n, t' => (irqMask t.irq n).Ends pics t.pair t'.irq t'.pair
  | .unmask n, t' => (irqUnmask t.irq n).Ends pics t.pair t'.irq t'.pair
  | .interrupt vector, t' => ∃ irr irr' d, (∀ v ∈ (t.pair.setLines irr irr').acknowledge.1, vector = v) ∧
      (entry t.irq vector).Ends pics (t.pair.setLines irr irr').acknowledge.2 (d, t'.irq) t'.pair
  | .yield, t' => ∃ d, (entry t.irq 0x20).Ends pics t.pair (d, t'.irq) t'.pair

/-- All runs from `irq_controller_init` with the PIC as the backend. The firmware has left no interrupt in service. -/
def picRuns : Lts.System PicRun PicEvent where
  init t := (∃ s : Irq, t.irq = s.irqControllerInit) ∧
    ∃ p, p.master.isr = 0 ∧ p.slave.isr = 0 ∧ picInit.Ends pics p () t.pair
  step := PicRun.step

/-- The lines that are masked after the events, the last one first: all of them at the beginning. -/
def maskedAfter : List PicEvent → Nat → Bool
  | [], _ => true
  | .mask n :: es, i => maskedAfter es i || decide (i = n.toNat)
  | .unmask n :: es, i => maskedAfter es i && !decide (i = n.toNat)
  | .interrupt _ :: es, i => maskedAfter es i
  | .yield :: es, i => maskedAfter es i

/-- The chips are idle, with the masks that the calls have set. -/
structure Idle (es : List PicEvent) (t : PicRun) : Prop where
  backend : t.irq.backend = .pic
  inService : InService t.pair 0 0 t.pair
  masks : ∀ i < 16, masked t.pair i = maskedAfter es i

section Steps
variable {es : List PicEvent} {t t' : PicRun} {n v : BitVec 8}

theorem idle_init (h : picRuns.init t) : Idle [] t := by
  obtain ⟨⟨s, hirq⟩, p, hm, hs, hinit⟩ := h
  have hlike := (ensures_picInit p).of_ends hinit
  have hin : InService t.pair 0 0 t.pair := by
    obtain ⟨⟨a, ha⟩, ⟨b, hb⟩⟩ := hlike
    exact ⟨⟨by rw [ha]; exact ⟨⟨rfl, rfl⟩, rfl, rfl, rfl⟩, by rw [hb]; exact ⟨⟨rfl, rfl⟩, rfl, rfl, rfl⟩⟩,
      ⟨rfl, rfl⟩, by rw [ha]; exact hm, by rw [hb]; exact hs⟩
  refine ⟨by rw [hirq]; rfl, hin, fun i hi => ?_⟩
  have hones : ∀ j < 8, (0xFF : BitVec 8).getLsbD j = true := by decide
  rw [masked_of_like hlike]
  unfold masked
  split
  · exact hones i (by omega)
  · exact hones (i - 8) (by omega)

/-- Masking and unmasking: one bit is changed, by `g`. -/
theorem Idle.mapMask (h : Idle es t) {f : BitVec 8 → BitVec 8} {g : Bool → Bool → Bool}
    (hf : ∀ (v : BitVec 8) (j : Nat), j < 8 → (f v).getLsbD j = g (v.getLsbD j) ((line n).2.getLsbD j))
    (hg : ∀ b, g b false = b) {m : Prog ports Irq}
    (hm : m = if 16 ≤ n then pure t.irq else inb (line n).1 >>= fun masks => outb (line n).1 (f masks) >>=
      fun _ => pure t.irq)
    (hs : m.Ends pics t.pair t'.irq t'.pair) :
    t'.irq.backend = .pic ∧ InService t'.pair 0 0 t'.pair ∧ ∀ i < 16, masked t'.pair i = g (maskedAfter es i)
      (decide (i = n.toNat)) := by
  by_cases hn : 16 ≤ n
  · have hn16 : 16 ≤ n.toNat := hn
    rw [hm, if_pos hn] at hs
    obtain ⟨hirq, hpair⟩ := hs
    rw [hirq, hpair]
    refine ⟨h.backend, h.inService, fun i hi => ?_⟩
    rw [decide_eq_false (by omega), hg]
    exact h.masks i hi
  · have hensures : m.Ensures pics t.pair fun r p' => r = t.irq ∧ p'.Like (Pic.mapMask t.pair n f) := by
      have hmap := ensures_mapMask (n := n) h.inService.programmed f
      rw [Prog.ensures_bind] at hmap
      rw [hm, if_neg hn, Prog.ensures_bind]
      refine hmap.imp fun v p₁ h₁ => ?_
      rw [Prog.ensures_bind]
      exact h₁.imp fun _ p₂ h₂ => ⟨rfl, h₂⟩
    obtain ⟨hirq, hlike⟩ := hensures.of_ends hs
    refine ⟨by rw [hirq]; exact h.backend, ?_, fun i hi => ?_⟩
    · have hmapped : InService (Pic.mapMask t.pair n f) 0 0 (Pic.mapMask t.pair n f) := by
        obtain ⟨⟨h1, h2⟩, -, h3⟩ := h.inService
        unfold Pic.mapMask
        split
        · exact ⟨⟨h1, h2⟩, ⟨rfl, rfl⟩, h3⟩
        · exact ⟨⟨h1, h2⟩, ⟨rfl, rfl⟩, h3⟩
      have hin := hmapped.of_like hlike
      exact ⟨hin.programmed, ⟨rfl, rfl⟩, hin.isr⟩
    · rw [masked_of_like hlike, masked_mapMask hf hg hi (BitVec.not_le.mp hn), h.masks i hi]

theorem Idle.of_inService (h : Idle es t) (hpic : t'.irq.backend = .pic) (hin : InService t.pair 0 0 t'.pair)
    {e : PicEvent} (he : maskedAfter (e :: es) = maskedAfter es) : Idle (e :: es) t' := by
  refine ⟨hpic, ⟨hin.programmed, ⟨rfl, rfl⟩, hin.isr⟩, fun i hi => ?_⟩
  rw [he, ← h.masks i hi]
  unfold masked
  rw [hin.masks.1, hin.masks.2]

theorem Idle.setLines (h : Idle es t) (irr irr' : BitVec 8) : InService t.pair 0 0 (t.pair.setLines irr irr') :=
  h.inService.of_like ((Pair.Like.refl t.pair).setLines irr irr')

theorem Idle.step (h : Idle es t) {e : PicEvent} (hs : picRuns.step t e t') : Idle (e :: es) t' := by
  have hapic : t.irq.backend ≠ .apic := by
    rw [h.backend]
    decide
  cases e with
  | mask n =>
    have hm : irqMask t.irq n = if 16 ≤ n then pure t.irq else
        inb (line n).1 >>= fun masks => outb (line n).1 (masks ||| (line n).2) >>= fun _ => pure t.irq := by
      rw [irqMask, if_neg hapic]
      rfl
    obtain ⟨h1, h2, h3⟩ := h.mapMask (g := fun a b => a || b) (fun v j hj => BitVec.getLsbD_or)
      (fun b => Bool.or_false b) hm hs
    exact ⟨h1, h2, h3⟩
  | unmask n =>
    have hm : irqUnmask t.irq n = if 16 ≤ n then pure t.irq else
        inb (line n).1 >>= fun masks => outb (line n).1 (masks &&& ~~~(line n).2) >>= fun _ => pure t.irq := by
      rw [irqUnmask, if_neg hapic]
      rfl
    obtain ⟨h1, h2, h3⟩ := h.mapMask (g := fun a b => a && !b) (fun v j hj => by simp [hj]) (fun b => by simp) hm hs
    exact ⟨h1, h2, h3⟩
  | interrupt vector =>
    obtain ⟨irr, irr', d, hvec, hs⟩ := hs
    obtain ⟨i, m, s, hacc, hi, hin⟩ := (h.setLines irr irr').acknowledge
    rw [hvec _ hi] at hs
    obtain ⟨hpic, hidle⟩ := (hacc.entry hin h.backend).of_ends hs
    exact h.of_inService hpic hidle rfl
  | yield =>
    obtain ⟨d, hs⟩ := hs
    obtain ⟨hpic, hidle⟩ := (h.inService.entry h.backend (i := 0) (by decide)).of_ends hs
    exact h.of_inService hpic hidle rfl

end Steps

theorem idle_of_run {es : List PicEvent} {t : PicRun} (h : picRuns.Run es t) : Idle es t :=
  h.invariant (I := Idle) idle_init fun hi hs => hi.step hs

theorem exists_enabled : ∃ t, picRuns.Run [.unmask 1, .unmask 0] t := by
  obtain ⟨⟨⟩, p, hp⟩ := Prog.exists_ends pics_answer picInit
    ⟨⟨0, 0, 0, 0, 0, 0, .ready, false, true, false⟩, ⟨0, 0, 0, 0, 0, 0, .ready, false, true, false⟩⟩
  obtain ⟨irq₁, p₁, h₁⟩ := Prog.exists_ends pics_answer (irqUnmask (Irq.machine 23).irqControllerInit 0) p
  obtain ⟨irq₂, p₂, h₂⟩ := Prog.exists_ends pics_answer (irqUnmask irq₁ 1) p₁
  have h₀ : picRuns.init ⟨(Irq.machine 23).irqControllerInit, p⟩ := ⟨⟨_, rfl⟩, _, rfl, rfl, hp⟩
  have hs₁ : picRuns.step ⟨(Irq.machine 23).irqControllerInit, p⟩ (.unmask 0) ⟨irq₁, p₁⟩ := h₁
  have hs₂ : picRuns.step ⟨irq₁, p₁⟩ (.unmask 1) ⟨irq₂, p₂⟩ := h₂
  exact ⟨⟨irq₂, p₂⟩, ((Lts.System.Run.init h₀).snoc hs₁).snoc hs₂⟩

theorem exists_timer : ∃ t t', picRuns.Run [.unmask 1, .unmask 0] t ∧ picRuns.step t (.interrupt 0x20) t' := by
  obtain ⟨t, ht⟩ := exists_enabled
  have hidle := idle_of_run ht
  obtain ⟨hm, -, hisr, -⟩ := hidle.setLines 1 0
  have hmask : (t.pair.setLines 1 0).master.imr.getLsbD 0 = false := hidle.masks 0 (by decide)
  have hline : (1 : BitVec 8).getLsbD 0 = true := by decide
  have hreq : (t.pair.setLines 1 0).master.request = some 0 := request_zero hline hmask hisr
  have hvec : (t.pair.setLines 1 0).acknowledge.1 = some 0x20 := by
    rw [Pair.acknowledge, hreq]
    dsimp only
    rw [isCascaded_iff hm.master 0 (by decide), if_pos (by rfl), Chip.acknowledge, hreq]
    dsimp only
    rw [Chip.vector, hm.master.2.2.2, hm.master.2.1]
    rfl
  obtain ⟨⟨d, irq⟩, p, hp⟩ := Prog.exists_ends pics_answer (entry t.irq 0x20) (t.pair.setLines 1 0).acknowledge.2
  exact ⟨t, ⟨irq, p⟩, ht, 1, 0, d, fun v hv => Option.some.inj (hvec.symm.trans hv), hp⟩

/-- From any state of the two chips, `pic_init` leaves them programmed for vectors 0x20 to 0x2F, with the second one
    on line 2 of the first and all lines masked; what was in service is not touched. -/
theorem pic_init_programs (p : Pair) :
    picInit.Ensures pics p fun _ p' => Programmed p' ∧ p'.master.imr = 0xFF ∧ p'.slave.imr = 0xFF ∧
    p'.master.isr = p.master.isr ∧ p'.slave.isr = p.slave.isr := by
  refine (ensures_picInit p).imp fun _ p' h => ?_
  obtain ⟨⟨a, ha⟩, ⟨b, hb⟩⟩ := h
  refine ⟨⟨?_, ?_⟩, ?_, ?_, ?_, ?_⟩
  · rw [ha]
    exact ⟨⟨rfl, rfl⟩, rfl, rfl, rfl⟩
  · rw [hb]
    exact ⟨⟨rfl, rfl⟩, rfl, rfl, rfl⟩
  all_goals first | rw [ha]; rfl | rw [hb]; rfl

/-- Whenever a task runs, no line is in service, and exactly the lines are masked that the calls have masked. -/
theorem pic_idle_in_tasks {es : List PicEvent} {t : PicRun} (h : picRuns.Run es t) :
    t.pair.master.isr = 0 ∧ t.pair.slave.isr = 0 ∧ ∀ i < 16, masked t.pair i = maskedAfter es i :=
  ⟨(idle_of_run h).inService.isr.1, (idle_of_run h).inService.isr.2, (idle_of_run h).masks⟩

/-- After the first interrupt of the timer. -/
theorem pic_idle_enabled : ∃ t, picRuns.Run [.interrupt 0x20, .unmask 1, .unmask 0] t ∧
    (t.pair.master.isr = 0 ∧ t.pair.slave.isr = 0 ∧ ∀ i < 16, masked t.pair i = maskedAfter [.interrupt 0x20,
      .unmask 1, .unmask 0] i) := by
  obtain ⟨t, t', ht, hs⟩ := exists_timer
  exact ⟨t', ht.snoc hs, pic_idle_in_tasks (ht.snoc hs)⟩

/-- An interrupt that is accepted has the vector of a line that is not masked, or one of the two spurious vectors;
    line 2 never has one, and the lines behind it none while it is masked. -/
theorem pic_accepts_unmasked {es : List PicEvent} {t t' : PicRun} {v : BitVec 8} (h : picRuns.Run es t)
    (hs : picRuns.step t (.interrupt v) t') :
    (∃ i < 16, i ≠ 2 ∧ maskedAfter es i = false ∧ (8 ≤ i → maskedAfter es 2 = false) ∧ v = 0x20 + BitVec.ofNat 8 i) ∨
      v = 0x27 ∨
    (maskedAfter es 2 = false ∧ v = 0x2F) := by
  have hidle := idle_of_run h
  obtain ⟨irr, irr', d, hvec, -⟩ := hs
  obtain ⟨i, m, s, hacc, hi, -⟩ := (hidle.setLines irr irr').acknowledge
  rw [hvec _ hi]
  have hmask : ∀ {j}, j < 16 → masked t.pair j = false → maskedAfter es j = false :=
    fun hj hm => (hidle.masks _ hj).symm.trans hm
  cases hacc with
  | line hlt hne hm => exact Or.inl ⟨i, by omega, hne, hmask (by omega) hm, fun h8 => by omega, rfl⟩
  | cascaded hlt h2 hm => exact Or.inl ⟨_, by omega, by omega, hmask (by omega) hm, fun _ => hmask (by decide) h2, rfl⟩
  | spurious => exact Or.inr (Or.inl rfl)
  | spuriousCascaded h2 => exact Or.inr (Or.inr ⟨hmask (by decide) h2, rfl⟩)

/-- With the timer and the keyboard enabled, at an interrupt of the timer. -/
theorem pic_accepts_enabled : ∃ t t', picRuns.Run [.unmask 1, .unmask 0] t ∧ picRuns.step t (.interrupt 0x20) t' ∧
    ((∃ i < 16, i ≠ 2 ∧ maskedAfter [.unmask 1, .unmask 0] i = false ∧
      (8 ≤ i → maskedAfter [.unmask 1, .unmask 0] 2 = false) ∧
      (0x20 : BitVec 8) = 0x20 + BitVec.ofNat 8 i) ∨ (0x20 : BitVec 8) = 0x27 ∨
      (maskedAfter [.unmask 1, .unmask 0] 2 = false ∧ (0x20 : BitVec 8) = 0x2F)) := by
  obtain ⟨t, t', ht, hs⟩ := exists_timer
  exact ⟨t, t', ht, hs, pic_accepts_unmasked ht hs⟩

end Pic
end SamOS
