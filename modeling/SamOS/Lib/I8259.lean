import SamOS.Lib.Interact

/-! A pair of 8259 interrupt controllers in fully nested mode, with edge-triggered lines and without rotation. Line 0
    has the highest priority. The lines rise and fall by themselves. -/

namespace I8259
open Interact

/-- The command word that the data port takes next. -/
inductive Stage where
  | icw2
  | icw3
  | icw4
  | ready
  deriving DecidableEq, Repr

/-- The requests, the lines in service and the masked ones; the first vector; the third and the fourth word of the
    initialisation, what it is waiting for and what its first word has announced; and which of the first two registers
    the command port reads as. -/
structure Chip where
  irr : BitVec 8
  isr : BitVec 8
  imr : BitVec 8
  offset : BitVec 8
  cascade : BitVec 8
  mode : BitVec 8
  stage : Stage
  single : Bool
  icw4 : Bool
  readIsr : Bool
  deriving DecidableEq, Repr

namespace Chip

/-- The end of the interrupt of the highest priority. -/
def endOfInterrupt (isr : BitVec 8) : BitVec 8 := isr &&& (isr - 1)

/-- A write to the command port: bit 4 starts the initialisation, bit 3 selects the register to read, and 001 in the
    highest three bits ends an interrupt. Where no fourth word is announced, it counts as zero. -/
def command (c : Chip) (v : BitVec 8) : Chip :=
  if v.getLsbD 4 then
    { c with irr := 0, imr := 0, readIsr := false, stage := .icw2, single := v.getLsbD 1, icw4 := v.getLsbD 0,
             mode := if v.getLsbD 0 then c.mode else 0 }
  else if v.getLsbD 3 then { c with readIsr := if v.getLsbD 1 then v.getLsbD 0 else c.readIsr }
  else if v &&& 0xE0 = 0x20 then { c with isr := endOfInterrupt c.isr }
  else c

/-- A write to the data port. -/
def data (c : Chip) (v : BitVec 8) : Chip :=
  match c.stage with
  | .icw2 => { c with offset := v &&& 0xF8, stage := if c.single then (if c.icw4 then .icw4 else .ready) else .icw3 }
  | .icw3 => { c with cascade := v, stage := if c.icw4 then .icw4 else .ready }
  | .icw4 => { c with mode := v, stage := .ready }
  | .ready => { c with imr := v }

def status (c : Chip) : BitVec 8 := if c.readIsr then c.isr else c.irr

/-- The line to be served next: requested, not masked, and of a higher priority than those in service. -/
def request (c : Chip) : Option Nat :=
  (List.range 8).find? fun i => c.irr.getLsbD i && !c.imr.getLsbD i && (List.range (i + 1)).all fun j =>
    !c.isr.getLsbD j

/-- The vector of a line. Without bit 0 of the mode the chip does not answer as the processor expects. -/
def vector (c : Chip) (i : Nat) : Option (BitVec 8) :=
  if c.mode.getLsbD 0 then some (c.offset + BitVec.ofNat 8 i) else none

/-- The processor asks for the vector. If the request is gone, the chip answers with its last vector and puts nothing
    in service. With bit 1 of the mode the service ends by itself. -/
def acknowledge (c : Chip) : Option (BitVec 8) × Chip :=
  match c.request with
  | some i =>
    (c.vector i, { c with isr := if c.mode.getLsbD 1 then c.isr else c.isr ||| BitVec.twoPow 8 i, irr := c.irr &&& ~~~BitVec.twoPow 8 i })
  | none => (c.vector 7, c)

/-- Another chip is behind this line. -/
def isCascaded (c : Chip) (i : Nat) : Bool := !c.single && c.cascade.getLsbD i

end Chip

structure Pair where
  master : Chip
  slave : Chip
  deriving DecidableEq, Repr

namespace Pair

/-- The first chip leaves the answer to the chip that is behind the line. The second one gives it if the line is the
    number that it was told; otherwise nothing answers. -/
def acknowledge (p : Pair) : Option (BitVec 8) × Pair :=
  match p.master.request with
  | some i =>
    if !p.master.isCascaded i then (p.master.acknowledge.1, { p with master := p.master.acknowledge.2 })
    else if p.slave.cascade &&& 7 = BitVec.ofNat 8 i then (p.slave.acknowledge.1,
      ⟨p.master.acknowledge.2, p.slave.acknowledge.2⟩)
    else (none, { p with master := p.master.acknowledge.2 })
  | none => (p.master.acknowledge.1, { p with master := p.master.acknowledge.2 })

def setLines (p : Pair) (irr irr' : BitVec 8) : Pair := ⟨{ p.master with irr := irr }, { p.slave with irr := irr' }⟩

/-- A write to one of the ports of the two chips; all other ports are those of other devices. -/
def out (p : Pair) (port : BitVec 16) (v : BitVec 8) : Pair :=
  if port = 0x20 then { p with master := p.master.command v }
  else if port = 0x21 then { p with master := p.master.data v }
  else if port = 0xA0 then { p with slave := p.slave.command v }
  else if port = 0xA1 then { p with slave := p.slave.data v }
  else p

def Answers (p : Pair) : (c : PortCall) → c.Answer → Pair → Prop
  | .outb port v, _, p' => p' = p.out port v
  | .inb port, r, p' =>
    p' = p ∧ (port = 0x20 → r = p.master.status) ∧ (port = 0x21 → r = p.master.imr) ∧
      (port = 0xA0 → r = p.slave.status) ∧ (port = 0xA1 → r = p.slave.imr)
  | .inw _, _, p' => p' = p
  | .outw _ _, _, p' => p' = p

end Pair

/-- The two chips at their ports. The lines may change before each access. -/
def pics : Server ports Pair := fun p c r p' => ∃ irr irr', (p.setLines irr irr').Answers c r p'

theorem pics_answer (p : Pair) (c : PortCall) : ∃ r p', pics p c r p' := by
  cases c with
  | outb port v => exact ⟨(), _, p.master.irr, p.slave.irr, rfl⟩
  | inb port =>
    refine ⟨if port = 0x20 then p.master.status else if port = 0x21 then p.master.imr
      else if port = 0xA0 then p.slave.status else p.slave.imr, p, p.master.irr, p.slave.irr, rfl, ?_, ?_, ?_,
        ?_⟩ <;> rintro rfl <;> rfl
  | inw port => exact ⟨0#16, p, p.master.irr, p.slave.irr, rfl⟩
  | outw port v => exact ⟨(), p, p.master.irr, p.slave.irr, rfl⟩

/-! ### States up to the lines -/

/-- The same chip, but for the requests. -/
def Chip.Like (c d : Chip) : Prop := ∃ irr, c = { d with irr }

structure Pair.Like (p q : Pair) : Prop where
  master : p.master.Like q.master
  slave : p.slave.Like q.slave

section Like
variable {c d : Chip} {p q : Pair}

theorem Chip.Like.command (h : c.Like d) (v : BitVec 8) : (c.command v).Like (d.command v) := by
  obtain ⟨irr, rfl⟩ := h
  unfold Chip.command
  split
  · exact ⟨0, rfl⟩
  split
  · exact ⟨irr, rfl⟩
  split <;> exact ⟨irr, rfl⟩

theorem Chip.Like.data (h : c.Like d) (v : BitVec 8) : (c.data v).Like (d.data v) := by
  obtain ⟨irr, rfl⟩ := h
  unfold Chip.data
  cases d.stage <;> exact ⟨irr, rfl⟩

theorem Chip.Like.imr (h : c.Like d) : c.imr = d.imr := by
  obtain ⟨irr, rfl⟩ := h
  rfl

theorem Pair.Like.refl (p : Pair) : p.Like p := ⟨⟨p.master.irr, rfl⟩, ⟨p.slave.irr, rfl⟩⟩

theorem Pair.Like.setLines (h : p.Like q) (irr irr' : BitVec 8) : (p.setLines irr irr').Like q := by
  obtain ⟨⟨a, hm⟩, ⟨b, hs⟩⟩ := h
  exact ⟨⟨irr, by rw [Pair.setLines, hm]⟩, ⟨irr', by rw [Pair.setLines, hs]⟩⟩

theorem Pair.Like.out (h : p.Like q) (port : BitVec 16) (v : BitVec 8) : (p.out port v).Like (q.out port v) := by
  unfold Pair.out
  split
  · exact ⟨h.master.command v, h.slave⟩
  split
  · exact ⟨h.master.data v, h.slave⟩
  split
  · exact ⟨h.master, h.slave.command v⟩
  split
  · exact ⟨h.master, h.slave.data v⟩
  · exact h

theorem Pair.Like.outb (h : p.Like q) (port : BitVec 16) (v : BitVec 8) :
    (outb port v).Ensures pics p fun _ p' => p'.Like (q.out port v) := by
  rw [ensures_outb]
  rintro t ⟨irr, irr', rfl⟩
  exact (h.setLines irr irr').out port v

theorem Pair.Like.outs (h : p.Like q) (ws : List (BitVec 16 × BitVec 8)) :
    (outs ws).Ensures pics p fun _ p' => p'.Like (ws.foldl (fun q w => q.out w.1 w.2) q) := by
  induction ws generalizing p q with
  | nil => exact h
  | cons w ws ih =>
    rw [outs, Prog.ensures_bind]
    exact (h.outb w.1 w.2).imp fun _ p' h' => ih h'

theorem Pair.Like.inb (h : p.Like q) (port : BitVec 16) : (inb port).Ensures pics p fun r p' =>
    p'.Like q ∧ (port = 0x20 → q.master.readIsr = true → r = q.master.isr) ∧ (port = 0x21 → r = q.master.imr) ∧
      (port = 0xA1 → r = q.slave.imr) := by
  rw [ensures_inb]
  rintro r t ⟨irr, irr', rfl, hstatus, himr, -, himr'⟩
  have hlike := h.setLines irr irr'
  refine ⟨hlike, fun hport hread => ?_, fun hport => (himr hport).trans hlike.master.imr,
    fun hport => (himr' hport).trans hlike.slave.imr⟩
  rw [hstatus hport, Chip.status]
  obtain ⟨a, ha⟩ := hlike.master
  rw [ha]
  exact if_pos hread

end Like

/-! ### Service -/

theorem endOfInterrupt_twoPow : ∀ i < 8, Chip.endOfInterrupt (BitVec.twoPow 8 i) = 0 := by decide

section Requests
variable {c : Chip}

theorem lt_of_request {i : Nat} (h : c.request = some i) : i < 8 ∧ c.imr.getLsbD i = false := by
  have hp := List.find?_some h
  have hmem := List.mem_of_find?_eq_some h
  rw [Bool.and_eq_true, Bool.and_eq_true, Bool.not_eq_true'] at hp
  exact ⟨List.mem_range.mp hmem, hp.1.2⟩

theorem request_zero (hirr : c.irr.getLsbD 0 = true) (himr : c.imr.getLsbD 0 = false) (hisr : c.isr = 0) :
    c.request = some 0 := by
  have hhead : List.range 8 = 0 :: [1, 2, 3, 4, 5, 6, 7] := rfl
  rw [Chip.request, hhead, List.find?_cons_of_pos]
  rw [hirr, himr, hisr]
  rfl

/-- What an idle chip puts in service, in the mode with vectors and without the automatic end. -/
theorem acknowledge_cases (h : c.isr = 0) (hmode : c.mode = 0x01) :
    (∃ i < 8, c.imr.getLsbD i = false ∧ c.request = some i ∧ c.acknowledge.1 = some (c.offset + BitVec.ofNat 8 i) ∧
      c.acknowledge.2 = { c with isr := BitVec.twoPow 8 i, irr := c.irr &&& ~~~BitVec.twoPow 8 i }) ∨
    (c.request = none ∧ c.acknowledge = (some (c.offset + 7), c)) := by
  have hvec : ∀ i, c.vector i = some (c.offset + BitVec.ofNat 8 i) := fun i => by rw [Chip.vector, hmode]; rfl
  unfold Chip.acknowledge
  cases hr : c.request with
  | some i =>
    obtain ⟨hi, hm⟩ := lt_of_request hr
    refine Or.inl ⟨i, hi, hm, rfl, hvec i, ?_⟩
    simp [h, hmode]
  | none => exact Or.inr ⟨rfl, congrArg (·, c) (hvec 7)⟩

end Requests
end I8259
