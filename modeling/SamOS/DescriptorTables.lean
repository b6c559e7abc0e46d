import SamOS.Context
import SamOS.Lib.Protection
import SamOS.TrapFrame

/-! The descriptor tables (`gdt.c`, `tss.c`, `idt.c`) as the bytes that the code stores, and what the processor makes
    of them: which code can enter the kernel where, and on which stack. -/

namespace SamOS
namespace Descriptors
open Packed Protection

/-! ### `gdt.c` -/

/-- `set_entry` of `gdt.c`. -/
def gdtSetEntry (i : Nat) (access granularity : BitVec 8) : (Nat → BitVec 8) → Nat → BitVec 8 :=
  put (8 * i) (le16 0xFFFF ++ le16 0 ++ [0, access, granularity, 0])

/-- `gdt_set_tss`, through a pointer to entries 5 and 6. -/
def gdtSetTss (tssAddr : BitVec 64) (tssSize : BitVec 32) : (Nat → BitVec 8) → Nat → BitVec 8 :=
  put (8 * 5) (le16 ((tssSize &&& 0xFFFF).setWidth 16) ++ le16 ((tssAddr &&& 0xFFFF).setWidth 16) ++
    [((tssAddr >>> 16) &&& 0xFF).setWidth 8, 0x89, 0x00, ((tssAddr >>> 24) &&& 0xFF).setWidth 8] ++
    le32 (((tssAddr >>> 32) &&& 0xFFFFFFFF).setWidth 32) ++ le32 0)

/-- The stores of `gdt_init`. -/
def gdtInit (gdt : Nat → BitVec 8) : Nat → BitVec 8 :=
  gdtSetEntry 4 0xF2 0x00 (gdtSetEntry 3 0xFA 0x20
    (gdtSetEntry 2 0x92 0x00 (gdtSetEntry 1 0x9A 0x20 (put 0 (List.replicate 8 0) gdt))))

/-! ### `tss.c` -/

/-- `sizeof(TSS)`. -/
def tssSize : Nat := 104

/-- The stores of `tss_init` to the segment itself, with the tops of `kernel_irq_stack` and `df_stack`. -/
def tssInit (irqStackTop dfStackTop : BitVec 64) (tss : Nat → BitVec 8) : Nat → BitVec 8 :=
  put 102 (le16 (BitVec.ofNat 16 tssSize))
    (put 36 (le64 dfStackTop) (put 4 (le64 irqStackTop) (put 0 (List.replicate tssSize 0) tss)))

def tssSetRsp0 (t : SystemTables) (rsp : BitVec 64) : SystemTables := { t with tss := put 4 (le64 rsp) t.tss }

/-! ### `idt.c` -/

/-- The bytes that `set_entry` of `idt.c` stores. -/
def gateBytes (addr : BitVec 64) (ist typeAttr : BitVec 8) : List (BitVec 8) :=
  le16 ((addr &&& 0xFFFF).setWidth 16) ++ le16 0x08 ++ [ist, typeAttr] ++ le16
    (((addr >>> 16) &&& 0xFFFF).setWidth 16) ++
    le32 (((addr >>> 32) &&& 0xFFFFFFFF).setWidth 32) ++ le32 0

/-- The calls of `set_entry` in `idt_init`: the vector, the interrupt stack and the type. -/
def entries : List (Nat × BitVec 8 × BitVec 8) :=
  [(0, 0, 0x8E), (1, 0, 0x8E), (2, 0, 0x8E), (3, 0, 0x8E), (4, 0, 0x8E), (5, 0, 0x8E), (6, 0, 0x8E), (7, 0, 0x8E),
    (8, 1, 0x8E), (9, 0, 0x8E), (10, 0, 0x8E), (11, 0, 0x8E), (12, 0, 0x8E), (13, 0, 0x8E), (14, 0, 0x8E),
      (15, 0, 0x8E), (16, 0, 0x8E), (17, 0, 0x8E), (18, 0, 0x8E),
    (19, 0, 0x8E), (20, 0, 0x8E), (32, 0, 0x8E), (33, 0, 0x8E), (34, 0, 0x8E), (35, 0, 0x8E), (36, 0, 0x8E),
      (37, 0, 0x8E), (38, 0, 0x8E),
    (39, 0, 0x8E), (40, 0, 0x8E), (41, 0, 0x8E), (42, 0, 0x8E), (43, 0, 0x8E), (44, 0, 0x8E), (45, 0, 0x8E),
      (46, 0, 0x8E), (47, 0, 0x8E),
    (128, 0, 0xEE)]

def idtSetEntry (isr : Nat → BitVec 64) (idt : Nat → BitVec 8) (e : Nat × BitVec 8 × BitVec 8) : Nat → BitVec 8 :=
  put (16 * e.1) (gateBytes (isr e.1) e.2.1 e.2.2) idt

/-- The stores of `idt_init`, where `isr v` is the address of the stub of vector `v`. -/
def idtInit (isr : Nat → BitVec 64) (idt : Nat → BitVec 8) : Nat → BitVec 8 :=
  entries.foldl (idtSetEntry isr) (put 0 (List.replicate 4096 0) idt)

/-- `init_descriptor_tables`, with the limits that are loaded. -/
def initDescriptorTables (isr : Nat → BitVec 64) (tssAddr irqStackTop dfStackTop : BitVec 64) (t : SystemTables) :
    SystemTables where
  gdt := gdtSetTss tssAddr (BitVec.ofNat 32 (tssSize - 1)) (gdtInit t.gdt)
  gdtLimit := 8 * 7 - 1
  tss := tssInit irqStackTop dfStackTop t.tss
  tssLimit := tssSize - 1
  idt := idtInit isr t.idt
  idtLimit := 16 * 256 - 1

/-! ### What the processor reads -/

section Reads
variable {isr : Nat → BitVec 64} {m : Nat → BitVec 8} {t : SystemTables} {tssAddr irqStackTop dfStackTop : BitVec 64}
  {v k : Nat}

theorem foldl_idtSetEntry (es : List (Nat × BitVec 8 × BitVec 8)) (hk : k < 16) :
    es.foldl (idtSetEntry isr) m (16 * v + k) =
      (es.reverse.find? fun e => e.1 == v).elim (m (16 * v + k)) fun e => (gateBytes (isr v) e.2.1 e.2.2).getD k 0 := by
  induction es using List.reverseRecOn with
  | nil => rfl
  | append_singleton es e ih =>
    rw [List.foldl_append, List.reverse_append, List.reverse_singleton, List.singleton_append, List.find?_cons]
    simp only [List.foldl_cons, List.foldl_nil, idtSetEntry]
    by_cases he : e.1 = v
    · rw [beq_iff_eq.mpr he, he]
      exact put_add hk
    · rw [beq_eq_false_iff_ne.mpr he, put_of_not, ih]
      show ¬(16 * e.1 ≤ 16 * v + k ∧ 16 * v + k < 16 * e.1 + 16)
      omega

/-- The vectors with a stub have an interrupt gate of ring 0, the double fault on the first interrupt stack and the
    system call for ring 3. -/
theorem find?_entries : ∀ v < 256, (entries.reverse.find? fun e => e.1 == v) =
    if (Trap.isr v).isSome then some (v, if v = 8 then 1 else 0, if v = 128 then 0xEE else 0x8E) else none := by
  decide +kernel

theorem idtInit_byte (hv : v < 256) (hk : k < 16) : idtInit isr m (16 * v + k) =
    if (Trap.isr v).isSome then (gateBytes (isr v) (if v = 8 then 1 else 0) (if v = 128 then 0xEE else 0x8E)).getD k 0
      else 0 := by
  rw [idtInit, foldl_idtSetEntry entries hk, find?_entries v hv]
  split
  · rfl
  · rw [Option.elim_none, ← Nat.zero_add (16 * v + k), put_zeros (by omega)]

theorem setWidth_and_mask {n : Nat} {mask : BitVec 64} (x : BitVec 64) (h : mask.setWidth n = BitVec.allOnes n) :
    (x &&& mask).setWidth n = x.setWidth n := by
  rw [BitVec.setWidth_and, h, BitVec.and_allOnes]

theorem offset_append (addr : BitVec 64) :
    (((addr >>> 32) &&& 0xFFFFFFFF).setWidth 32 ++ ((addr >>> 16) &&& 0xFFFF).setWidth 16 ++
    (addr &&& 0xFFFF).setWidth 16 : BitVec 64) = addr := by
  rw [setWidth_and_mask _ (by decide), setWidth_and_mask _ (by decide), setWidth_and_mask _ (by decide)]
  apply BitVec.eq_of_getLsbD_eq
  intro i hi
  simp only [BitVec.getLsbD_append, BitVec.getLsbD_setWidth, BitVec.getLsbD_ushiftRight]
  grind

theorem base_append (addr : BitVec 64) :
    (((addr >>> 32) &&& 0xFFFFFFFF).setWidth 32 ++ (((addr >>> 24) &&& 0xFF).setWidth 8 ++
    (((addr >>> 16) &&& 0xFF).setWidth 8 ++ (addr &&& 0xFFFF).setWidth 16)) : BitVec 64) = addr := by
  rw [setWidth_and_mask _ (by decide), setWidth_and_mask _ (by decide), setWidth_and_mask _ (by decide),
    setWidth_and_mask _ (by decide)]
  apply BitVec.eq_of_getLsbD_eq
  intro i hi
  simp only [BitVec.getLsbD_append, BitVec.getLsbD_setWidth, BitVec.getLsbD_ushiftRight]
  grind

/-- The fields of a gate that is there. -/
structure Gated (isr : Nat → BitVec 64) (v : Nat) (idt : Nat → BitVec 8) : Prop where
  selector : u16 idt (16 * v + 2) = 0x08
  ist : idt (16 * v + 4) = if v = 8 then 1 else 0
  attr : idt (16 * v + 5) = if v = 128 then 0xEE else 0x8E
  offset : u32 idt (16 * v + 8) ++ u16 idt (16 * v + 6) ++ u16 idt (16 * v) = isr v

theorem gated_idtInit (hv : v < 256) (h : (Trap.isr v).isSome = true) : Gated isr v (idtInit isr m) := by
  have hbyte : ∀ k < 16, idtInit isr m (16 * v + k) =
      (gateBytes (isr v) (if v = 8 then 1 else 0) (if v = 128 then 0xEE else 0x8E)).getD k 0 :=
    fun k hk => (idtInit_byte hv hk).trans (if_pos h)
  refine ⟨u16_of_bytes ?_, hbyte 4 (by decide), hbyte 5 (by decide), ?_⟩
  · intro i hi
    rw [Nat.add_assoc, hbyte _ (by omega)]
    interval_cases i <;> rfl
  · rw [u32_of_bytes (v := ((isr v >>> 32) &&& 0xFFFFFFFF).setWidth 32),
      u16_of_bytes (v := ((isr v >>> 16) &&& 0xFFFF).setWidth 16), u16_of_bytes (v := (isr v &&& 0xFFFF).setWidth 16),
        offset_append]
    · intro i hi
      rw [hbyte i (by omega)]
      interval_cases i <;> rfl
    all_goals
      intro i hi
      rw [Nat.add_assoc, hbyte _ (by omega)]
      interval_cases i <;> rfl

/-- The access bytes and the flags in the table: the null descriptor, code and data of the kernel, code and data of
    the user, and the two parts of the task-state segment. -/
def accessOf : List (BitVec 8 × BitVec 8) :=
  [(0, 0), (0x9A, 0x20), (0x92, 0), (0xFA, 0x20), (0xF2, 0), (0x89, 0), (0, 0)]

def descriptorOf (sel : BitVec 16) : Option (BitVec 8 × BitVec 8) :=
  if sel.toNat / 8 = 0 ∨ sel.getLsbD 2 = true ∨ 7 ≤ sel.toNat / 8 then none
    else some (accessOf.getD (sel.toNat / 8) (0, 0))

theorem descriptor_eq (sel : BitVec 16) :
    (initDescriptorTables isr tssAddr irqStackTop dfStackTop t).descriptor sel = descriptorOf sel := by
  have hbytes : ∀ i < 7, (initDescriptorTables isr tssAddr irqStackTop dfStackTop t).gdt (i * 8 + 5) =
    (accessOf.getD i (0, 0)).1 ∧
      (initDescriptorTables isr tssAddr irqStackTop dfStackTop t).gdt (i * 8 + 6) = (accessOf.getD i (0, 0)).2 := by
    intro i hi
    interval_cases i <;> exact ⟨rfl, rfl⟩
  have hcond : (sel.toNat / 8 * 8 = 0 ∨ sel.getLsbD 2 = true ∨ 55 < sel.toNat / 8 * 8 + 7) ↔
      (sel.toNat / 8 = 0 ∨ sel.getLsbD 2 = true ∨ 7 ≤ sel.toNat / 8) :=
        or_congr (by omega) (or_congr Iff.rfl (by omega))
  by_cases h : sel.toNat / 8 = 0 ∨ sel.getLsbD 2 = true ∨ 7 ≤ sel.toNat / 8
  · exact (if_pos (hcond.mpr h)).trans (if_pos h).symm
  · obtain ⟨ha, hf⟩ := hbytes (sel.toNat / 8) (by omega)
    refine (if_neg (mt hcond.mp h)).trans (Eq.trans ?_ (if_neg h).symm)
    rw [ha, hf]

/-- A selector past the table has no descriptor, so that only those below 56 remain. -/
theorem forall_selector {P : BitVec 16 → Option (BitVec 8 × BitVec 8) → Prop}
    (hout : ∀ sel : BitVec 16, 56 ≤ sel.toNat → P sel none)
    (hin : ∀ n < 56, P (BitVec.ofNat 16 n) (descriptorOf (BitVec.ofNat 16 n))) (sel : BitVec 16) :
    P sel (descriptorOf sel) := by
  by_cases h : 56 ≤ sel.toNat
  · rw [descriptorOf, if_pos (.inr (.inr (by omega)))]
    exact hout sel h
  · have hsel := hin sel.toNat (by omega)
    rwa [BitVec.ofNat_toNat, BitVec.setWidth_eq] at hsel

theorem checkCode_iff (sel : BitVec 16) :
    checkCode (rpl sel) (descriptorOf sel) = .ok () ↔ sel = 0x08 ∨ sel = 0x1B := by
  refine forall_selector (P := fun sel d => checkCode (rpl sel) d = .ok () ↔ sel = 0x08 ∨ sel = 0x1B) ?_ (by decide) sel
  intro sel h
  refine ⟨nofun, ?_⟩
  rintro (rfl | rfl) <;> exact absurd h (by decide)

theorem checkStack_iff {level : Nat} (hlevel : level = 0 ∨ level = 3) (sel : BitVec 16) :
    checkStack level sel (descriptorOf sel) = .ok () ↔ level = 0 ∧ (sel = 0x10 ∨ sel = 0) ∨ level = 3 ∧ sel = 0x23 := by
  refine forall_selector
    (P := fun sel d => checkStack level sel d = .ok () ↔ level = 0 ∧ (sel = 0x10 ∨ sel = 0) ∨ level = 3 ∧
      sel = 0x23) ?_ ?_ sel
  · intro sel h
    rw [checkStack, if_neg (by omega)]
    refine ⟨nofun, ?_⟩
    rintro (⟨-, rfl | rfl⟩ | ⟨-, rfl⟩) <;> exact absurd h (by decide)
  · rcases hlevel with rfl | rfl <;> decide

theorem cpl_lt {R : Type} (c : X64.Cpu R) : SystemTables.cpl c < 4 := Nat.mod_lt _ (by decide)

theorem rsp0_eq (m : Nat → BitVec 8) : u64 (tssInit irqStackTop dfStackTop m) 4 = irqStackTop :=
  u64_of_bytes fun i hi => by interval_cases i <;> rfl

theorem ist1_eq (m : Nat → BitVec 8) : u64 (tssInit irqStackTop dfStackTop m) 36 = dfStackTop :=
  u64_of_bytes fun i hi => by interval_cases i <;> rfl

theorem foldl_tssSetRsp0 (rsps : List (BitVec 64)) (t : SystemTables) :
    (rsps.foldl tssSetRsp0 t).tssLimit = t.tssLimit ∧ ∀ x, 12 ≤ x → (rsps.foldl tssSetRsp0 t).tss x = t.tss x := by
  induction rsps generalizing t with
  | nil => exact ⟨rfl, fun _ _ => rfl⟩
  | cons rsp rsps ih =>
    obtain ⟨hlimit, hbytes⟩ := ih (tssSetRsp0 t rsp)
    refine ⟨hlimit, fun x hx => (hbytes x hx).trans ?_⟩
    exact put_of_not fun h => absurd h.2 (show ¬x < 4 + 8 by omega)

end Reads

/-! ### What holds after `init_descriptor_tables` -/

section Delivery
variable {isr : Nat → BitVec 64} {tssAddr irqStackTop dfStackTop : BitVec 64} {t : SystemTables}
  {c : X64.Cpu Trap.Gpr} {v : Nat} {software : Bool}

theorem deliver_of_none (hv : v < 256) (h : ¬(Trap.isr v).isSome = true) :
    (initDescriptorTables isr tssAddr irqStackTop dfStackTop t).deliver c v software = .error .generalProtection := by
  have hattr : (initDescriptorTables isr tssAddr irqStackTop dfStackTop t).idt (16 * v + 5) = 0 :=
    (idtInit_byte hv (by decide)).trans (if_neg h)
  refine if_pos (.inr (.inl ?_))
  rw [hattr]
  decide

theorem deliver_of_isSome (hv : v < 256) (h : (Trap.isr v).isSome = true) :
    (initDescriptorTables isr tssAddr irqStackTop dfStackTop t).deliver c v software =
      if software = true → SystemTables.cpl c = 0 ∨ v = 128 then
        .ok
          { sp := if v = 8 then dfStackTop else if SystemTables.cpl c = 0 then c.sp else irqStackTop
            ip := isr v
            cs := 0x08
            flags := c.flags &&& ~~~0x34300#64
            ss := if SystemTables.cpl c = 0 then c.ss else 0 }
      else .error .generalProtection := by
  obtain ⟨hsel, hist, hattr, hoff⟩ :
    Gated isr v (initDescriptorTables isr tssAddr irqStackTop dfStackTop t).idt := gated_idtInit hv h
  have hdpl : dpl ((initDescriptorTables isr tssAddr irqStackTop dfStackTop t).idt (16 * v + 5)) = if v = 128 then 3
      else 0 := by
    rw [hattr]
    split <;> rfl
  have hcpl := cpl_lt c
  by_cases hs : software = true → SystemTables.cpl c = 0 ∨ v = 128
  · rw [SystemTables.deliver_eq_ok _ (show 16 * v + 15 ≤ 4095 by omega), if_pos hs]
    · simp only [SystemTables.handlerState, hsel, hist, hattr, hoff]
      congr 2
      · by_cases h8 : v = 8
        · rw [if_pos h8, if_pos h8]
          exact ist1_eq t.tss
        · rw [if_neg h8, if_neg h8]
          show (if SystemTables.cpl c = 0 then _ else u64 (tssInit irqStackTop dfStackTop t.tss) 4) = _
          rw [rsp0_eq]
      · split <;> rfl
    · rw [hattr]
      split <;> rfl
    · intro hsoft
      rw [hdpl]
      rcases hs hsoft with h0 | h128
      · omega
      · rw [if_pos h128]
        omega
    · rw [hsel, descriptor_eq]
      rfl
  · rw [if_neg hs]
    rw [Classical.not_imp, not_or] at hs
    refine if_pos (.inr (.inr ⟨hs.1, ?_⟩))
    rw [hdpl, if_neg hs.2.2]
    omega

end Delivery

/-- Whatever the tables held before, an interrupt enters the kernel at the stub of its vector, without interrupts, on
    the double fault stack, on the stack of `tss.rsp0` or on the current one; `int n` of a user does so for 128 only,
    and everything else is a protection fault. -/
theorem kernel_entry_points (isr : Nat → BitVec 64) (tssAddr irqStackTop dfStackTop : BitVec 64) (t : SystemTables)
    (c : X64.Cpu Trap.Gpr) (v : Fin 256) (software : Bool) :
    (initDescriptorTables isr tssAddr irqStackTop dfStackTop t).deliver c v software =
      if (Trap.isr v).isSome = true ∧ (software = true → SystemTables.cpl c = 0 ∨ v.val = 128) then
        .ok
          { sp := if v.val = 8 then dfStackTop else if SystemTables.cpl c = 0 then c.sp else irqStackTop
            ip := isr v
            cs := 0x08
            flags := c.flags &&& ~~~0x34300#64
            ss := if SystemTables.cpl c = 0 then c.ss else 0 }
      else .error .generalProtection := by
  by_cases h : (Trap.isr v).isSome = true
  · rw [deliver_of_isSome v.isLt h]
    exact if_congr (and_iff_right h).symm rfl rfl
  · rw [deliver_of_none v.isLt h, if_neg fun hc => h hc.1]

/-- `iretq` returns with the selectors of `setup_initial_frame` and with those that an interrupt of the kernel leaves,
    and with no others. -/
theorem return_selectors (isr : Nat → BitVec 64) (tssAddr irqStackTop dfStackTop : BitVec 64) (t : SystemTables)
    (cs ss : BitVec 16) :
    ((initDescriptorTables isr tssAddr irqStackTop dfStackTop t).returnTo cs ss = .ok () ↔
      (cs, ss) ∈ [(0x08, 0x10), (0x08, 0x00), (0x1B, 0x23)]) ∧
    ∀ (n : NewTask) (stack : Nat), ((n.frame stack).cs.setWidth 16, (n.frame stack).ss.setWidth 16) =
      if n.isUser then ((0x1B : BitVec 16), (0x23 : BitVec 16)) else (0x08, 0x10) := by
  refine ⟨?_, fun n stack => by cases h : n.isUser <;> simp [NewTask.frame, h]⟩
  rw [SystemTables.returnTo_eq_ok, descriptor_eq, descriptor_eq, checkCode_iff]
  constructor
  · rintro ⟨rfl | rfl, h⟩
    · rcases (checkStack_iff (.inl rfl) ss).mp h with ⟨-, rfl | rfl⟩ | ⟨h3, -⟩
      exacts [by decide, by decide, absurd h3 (by decide)]
    · rcases (checkStack_iff (.inr rfl) ss).mp h with ⟨h0, -⟩ | ⟨-, rfl⟩
      exacts [absurd h0 (by decide), by decide]
  · intro h
    simp only [List.mem_cons, Prod.mk.injEq, List.not_mem_nil, or_false] at h
    rcases h with ⟨rfl, rfl⟩ | ⟨rfl, rfl⟩ | ⟨rfl, rfl⟩ <;> decide

/-- `ltr` finds the task-state segment, also when the last one was left busy, and the segment keeps users off all
    ports. -/
theorem task_segment (isr : Nat → BitVec 64) (tssAddr irqStackTop dfStackTop : BitVec 64) (t : SystemTables)
    (rsps : List (BitVec 64)) (port : BitVec 16) :
    (initDescriptorTables isr tssAddr irqStackTop dfStackTop t).loadTask 0x28 = .ok (tssAddr, 103) ∧
      (rsps.foldl tssSetRsp0 (initDescriptorTables isr tssAddr irqStackTop dfStackTop t)).portAllowed 3 0
        port = false := by
  constructor
  · rw [SystemTables.loadTask_eq_ok (a := 40) _ rfl (by decide) (by decide) (show 55 ≤ 55 by decide) rfl,
      u32_of_bytes (v := ((tssAddr >>> 32) &&& 0xFFFFFFFF).setWidth 32) fun i hi => by interval_cases i <;> rfl,
      u16_of_bytes (v := (tssAddr &&& 0xFFFF).setWidth 16) fun i hi => by interval_cases i <;> rfl,
      u16_of_bytes (v := 103) fun i hi => by interval_cases i <;> rfl]
    exact congrArg (fun base => Except.ok (base, (103 : BitVec 16))) (base_append tssAddr)
  · obtain ⟨hlimit, hbytes⟩ := foldl_tssSetRsp0 rsps (initDescriptorTables isr tssAddr irqStackTop dfStackTop t)
    have hmap : u16 (rsps.foldl tssSetRsp0 (initDescriptorTables isr tssAddr irqStackTop dfStackTop t)).tss 102 = 104 :=
      u16_of_bytes fun i hi => by
        rw [hbytes _ (by omega)]
        interval_cases i <;> rfl
    refine SystemTables.portAllowed_of_limit _ (by decide) ?_ port
    rw [hmap, hlimit]
    show 103 ≤ 104
    decide

end Descriptors
end SamOS
