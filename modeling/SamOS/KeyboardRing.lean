import SamOS.Keyboard
import SamOS.Lib.Ring

/-! The keyboard ring between the interrupt handler and the shell (`keyboard.c`). `kb_getchar` is taken apart into its
    single reads and writes of `kb_head`, `kb_tail` and `kb_buf`, in program order, and a `kb_push` may come between
    any two of them. -/

namespace SamOS

namespace Keyboard
variable {kb : Keyboard}

/-- The characters in the ring, the oldest one first. -/
def waiting (kb : Keyboard) : List Char := Ring.window kb.buf bufSize kb.tail kb.count

theorem waiting_eq_nil (h : kb.WellFormed) : kb.waiting = [] ↔ kb.Empty := by
  rw [← count_eq_zero h, ← List.length_eq_zero_iff, waiting, Ring.length_window]

theorem push_tail (kb : Keyboard) (s : Sched) (c : Char) : (kb.push s c).1.tail = kb.tail := by
  unfold Keyboard.push
  dsimp only
  split <;> rfl

theorem push_full (h : kb.WellFormed) (s : Sched) (c : Char) (hfull : (kb.head + 1) % bufSize = kb.tail) :
    (kb.push s c).1 = kb ∧ kb.waiting.length = 63 := by
  have hhead := h.head
  constructor
  · unfold Keyboard.push
    dsimp only
    rw [if_pos hfull]
  · rw [waiting, Ring.length_window]
    unfold count
    unfold bufSize at *
    omega

theorem push_waiting (h : kb.WellFormed) (s : Sched) (c : Char) (hroom : (kb.head + 1) % bufSize ≠ kb.tail) :
    (kb.push s c).1.waiting = kb.waiting ++ [c] := by
  have hhead := h.head
  have htail := h.tail
  have hcell : kb.head = (kb.tail + kb.count) % bufSize := by
    unfold count
    unfold bufSize at *
    omega
  have hlen : kb.count < bufSize := Nat.mod_lt _ (by decide)
  have hcount : (kb.push s c).1.count = kb.count + 1 := by
    unfold Keyboard.push count
    dsimp only
    rw [if_neg hroom]
    unfold bufSize at *
    dsimp only
    omega
  have hbuf : (kb.push s c).1.buf = Function.update kb.buf ((kb.tail + kb.count) % bufSize) c := by
    rw [← hcell]
    unfold Keyboard.push
    dsimp only
    rw [if_neg hroom]
  rw [waiting, hcount, push_tail, hbuf]
  exact Ring.window_update hlen c

/-- The oldest character is the one at `kb_tail`, and the others follow it. -/
theorem waiting_cons (h : kb.WellFormed) (hne : kb.waiting ≠ []) :
    kb.waiting = kb.buf kb.tail :: { kb with tail := (kb.tail + 1) % bufSize }.waiting := by
  have hhead := h.head
  have htail := h.tail
  have hpos : 0 < kb.count := by
    have hlen := List.length_pos_iff.mpr hne
    rwa [waiting, Ring.length_window] at hlen
  have hcount : kb.count = { kb with tail := (kb.tail + 1) % bufSize }.count + 1 := by
    unfold count at *
    unfold bufSize at *
    dsimp only
    omega
  conv_lhs => rw [waiting, hcount, Ring.window_cons, Nat.mod_eq_of_lt htail]
  rfl

theorem ne_nul_of_waiting (h : kb.WellFormed) {c : Char} (hc : c ∈ kb.waiting) : c ≠ '\x00' := by
  obtain ⟨i, hi, rfl⟩ := List.mem_map.mp hc
  exact h.chars i (List.mem_range.mp hi)

theorem WellFormed.popped (h : kb.WellFormed) (hne : kb.waiting ≠ []) :
    { kb with tail := (kb.tail + 1) % bufSize }.WellFormed := by
  have hcells : kb.head ≠ kb.tail := mt (waiting_eq_nil h).mpr hne
  have hnext := h.getchar
  unfold Keyboard.getchar at hnext
  rwa [if_neg hcells] at hnext

end Keyboard

open Keyboard

/-! ### The reads and writes of `kb_getchar` -/

/-- Where the shell is in `kb_getchar`: outside of it, after it read `kb_head`, after it found the ring not empty,
    after it read `kb_tail` as an index, after it read the character, or after it read `kb_tail` again. -/
inductive GetcharPc where
  | outside
  | headRead (head : Nat)
  | nonEmpty
  | indexRead (tail : Nat)
  | charRead (c : Char)
  | tailRead (c : Char) (tail : Nat)
  deriving DecidableEq

/-- The ring and the shell. `accepted` lists the characters that `kb_push` stored and `results` what `kb_getchar`
    returned, the first ones first. -/
structure RingRun where
  kb : Keyboard
  pc : GetcharPc
  accepted : List Char
  results : List Char

namespace RingRun

/-- The next read or write of `kb_getchar`. -/
def getcharStep (r : RingRun) : RingRun :=
  match r.pc with
  | .outside => { r with pc := .headRead r.kb.head }
  | .headRead head =>
    if head = r.kb.tail then { r with pc := .outside, results := r.results ++ ['\x00'] } else { r with pc := .nonEmpty }
  | .nonEmpty => { r with pc := .indexRead r.kb.tail }
  | .indexRead tail => { r with pc := .charRead (r.kb.buf tail) }
  | .charRead c => { r with pc := .tailRead c r.kb.tail }
  | .tailRead c tail =>
    { r with pc := .outside, kb := { r.kb with tail := (tail + 1) % bufSize }, results := r.results ++ [c] }

/-- The interrupt handler calls `kb_push`, with the scheduler in the state `s`. -/
def pushed (r : RingRun) (c : Char) (s : Sched) : RingRun :=
  { r with
    kb := (r.kb.push s c).1
    accepted := if (r.kb.head + 1) % bufSize = r.kb.tail then r.accepted else r.accepted ++ [c] }

end RingRun

inductive RingEvent where
  | push (c : Char) (s : Sched)
  | getchar

/-- All runs of the ring: pushes of characters that are not 0, at any point of the calls of `kb_getchar`. -/
def ringRuns (shell : Int) : Lts.System RingRun RingEvent where
  init r := r = { kb := .init shell, pc := .outside, accepted := [], results := [] }
  step r e r' :=
    match e with
    | .push c s => c ≠ '\x00' ∧ r' = r.pushed c s
    | .getchar => r' = r.getcharStep

variable {shell : Int} {es : List RingEvent} {r : RingRun}

/-- What the shell has read so far in its call is still so. -/
def RingRun.PcInv (r : RingRun) : Prop :=
  match r.pc with
  | .outside => True
  | .headRead head => head ≠ r.kb.tail → r.kb.waiting ≠ []
  | .nonEmpty => r.kb.waiting ≠ []
  | .indexRead tail => tail = r.kb.tail ∧ r.kb.waiting ≠ []
  | .charRead c => r.kb.waiting.head? = some c
  | .tailRead c tail => tail = r.kb.tail ∧ r.kb.waiting.head? = some c

/-- The accepted characters are those returned and those that wait. -/
structure RingInv (r : RingRun) : Prop where
  ring : r.kb.WellFormed
  pc : r.PcInv
  queue : r.accepted = r.results.filter (· ≠ '\x00') ++ r.kb.waiting

namespace RingInv
variable {r r' : RingRun} {shell : Int}

theorem init (h : (ringRuns shell).init r) : RingInv r := by
  obtain rfl := h
  refine ⟨wellFormed_init shell, trivial, ?_⟩
  exact ((waiting_eq_nil (wellFormed_init shell)).mpr rfl).symm

theorem pushed (h : RingInv r) {c : Char} (hc : c ≠ '\x00') (s : Sched) : RingInv (r.pushed c s) := by
  have hring : (r.pushed c s).kb.WellFormed := h.ring.push s hc
  by_cases hfull : (r.kb.head + 1) % bufSize = r.kb.tail
  · have hsame : r.pushed c s = r := by
      unfold RingRun.pushed
      rw [(push_full h.ring s c hfull).1, if_pos hfull]
    rwa [hsame]
  · have hwaiting : (r.pushed c s).kb.waiting = r.kb.waiting ++ [c] := push_waiting h.ring s c hfull
    have htail : (r.pushed c s).kb.tail = r.kb.tail := push_tail ..
    have hhead {d : Char} (hd : r.kb.waiting.head? = some d) : (r.pushed c s).kb.waiting.head? = some d := by
      rw [hwaiting, List.head?_append, hd]
      rfl
    have hne : (r.pushed c s).kb.waiting ≠ [] := by
      rw [hwaiting]
      exact List.append_ne_nil_of_right_ne_nil _ (List.cons_ne_nil c [])
    refine ⟨hring, ?_, ?_⟩
    · have hpc := h.pc
      unfold RingRun.PcInv at hpc ⊢
      rw [show (r.pushed c s).pc = r.pc from rfl, htail]
      split <;> rename_i he <;> rw [he] at hpc
      · trivial
      · exact fun _ => hne
      · exact hne
      · exact ⟨hpc.1, hne⟩
      · exact hhead hpc
      · exact ⟨hpc.1, hhead hpc.2⟩
    · rw [hwaiting, ← List.append_assoc, show (r.pushed c s).results = r.results from rfl, ← h.queue]
      exact if_neg hfull

theorem getcharStep (h : RingInv r) : RingInv r.getcharStep := by
  have hpc := h.pc
  unfold RingRun.PcInv at hpc
  unfold RingRun.getcharStep
  split <;> rename_i he <;> rw [he] at hpc <;> dsimp only at hpc
  · refine ⟨h.ring, fun hne hnil => hne ?_, h.queue⟩
    exact (waiting_eq_nil h.ring).mp hnil
  · split
    · refine ⟨h.ring, trivial, ?_⟩
      rw [h.queue]
      simp
    · rename_i hne
      exact ⟨h.ring, hpc hne, h.queue⟩
  · exact ⟨h.ring, ⟨rfl, hpc⟩, h.queue⟩
  · refine ⟨h.ring, ?_, h.queue⟩
    show r.kb.waiting.head? = some (r.kb.buf _)
    rw [waiting_cons h.ring hpc.2, hpc.1]
    rfl
  · exact ⟨h.ring, ⟨rfl, hpc⟩, h.queue⟩
  · rename_i c tail
    obtain ⟨rfl, hfirst⟩ := hpc
    have hne : r.kb.waiting ≠ [] := fun hnil => by rw [hnil] at hfirst; cases hfirst
    have hcons := waiting_cons h.ring hne
    have hc : r.kb.buf r.kb.tail = c := by
      rw [hcons] at hfirst
      exact Option.some.inj hfirst
    rw [hc] at hcons
    have hnul : c ≠ '\x00' := ne_nul_of_waiting h.ring (by rw [hcons]; exact List.mem_cons_self)
    refine ⟨h.ring.popped hne, trivial, ?_⟩
    dsimp only
    rw [h.queue, hcons, List.filter_append, List.append_assoc]
    simp [hnul]

theorem step {e : RingEvent} (h : RingInv r) (hs : (ringRuns shell).step r e r') : RingInv r' := by
  cases e with
  | push c s =>
    obtain ⟨hc, rfl⟩ := hs
    exact h.pushed hc s
  | getchar =>
    obtain rfl := hs
    exact h.getcharStep

end RingInv

/-! ### When 0 is returned -/

end SamOS
