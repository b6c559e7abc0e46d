import SamOS.Irq
import SamOS.Lib.Bits
import SamOS.Lib.Result
import SamOS.Lib.Writes

/-! The switch from the PIC to the APIC (`irq_try_enable_apic`). What the two routing loops do is said once: they
    write the redirection entries of the interrupts in order, as far as the first one whose entry does not exist.
    Which entries of the critical interrupts survive, and what is left behind by a failure, follows from the list of
    writes. -/

namespace SamOS
open Function
namespace Irq

/-! ### The registers of an entry -/

/-- The register of the low half of an entry of the IOAPIC. There are 256 registers, so the numbers of entries wrap at
    120. -/
def redirReg (index : Nat) : BitVec 8 := BitVec.ofNat 8 (0x10 + 2 * index)

/-- The high half of an entry, for the local APIC with the id. -/
def destinationOf (lapicId : BitVec 8) : BitVec 32 := lapicId.setWidth 32 <<< 24

theorem redirReg_narrowed {gsi base : BitVec 32} (h : base ≤ gsi) :
    ((0x10 + (gsi - base) * 2).setWidth 8 : BitVec 8) = redirReg (gsi.toNat - base.toNat) := by
  apply BitVec.eq_of_toNat_eq
  simp only [redirReg, BitVec.toNat_setWidth, BitVec.toNat_add, BitVec.toNat_mul, BitVec.ofNat_eq_ofNat,
    BitVec.toNat_ofNat, BitVec.toNat_sub_of_le h]
  omega

theorem toNat_redirReg (index : Nat) : (redirReg index).toNat = (0x10 + 2 * index) % 2 ^ 8 := BitVec.toNat_ofNat ..

theorem redirReg_mod_two (index : Nat) : (redirReg index).toNat % 2 = 0 := by
  rw [toNat_redirReg]
  omega

theorem redirReg_add_one (index : Nat) : (redirReg index + 1).toNat = (redirReg index).toNat + 1 := by
  have heven := redirReg_mod_two index
  have hlt := (redirReg index).isLt
  rw [BitVec.toNat_add, show (1 : BitVec 8).toNat = 1 from rfl, Nat.mod_eq_of_lt (by omega)]

end Irq

/-! ### What the MADT says of an interrupt -/

namespace AcpiMadtInfo
variable (madt : AcpiMadtInfo)

/-- The GSI of an interrupt. -/
def gsiOf (irq : Nat) : Nat := (madt.acpiGetIrqOverride (BitVec.ofNat 8 irq)).2.1.toNat

/-- The flags of its override. -/
def flagsOf (irq : Nat) : BitVec 16 := (madt.acpiGetIrqOverride (BitVec.ofNat 8 irq)).2.2

/-- The GSI of the first entry of the IOAPIC. -/
def base : Nat := madt.ioapicGsiBase.toNat

/-- The loops write an entry for the interrupt: its GSI is not below those of the IOAPIC and, but for the critical
    interrupts, none before has claimed it. Only GSIs below 256 can be claimed. -/
def Routes (irq : Nat) : Prop :=
  madt.base ≤ madt.gsiOf irq ∧ (irq < 2 ∨ 256 ≤ madt.gsiOf irq ∨ ∀ i < irq, madt.gsiOf i ≠ madt.gsiOf irq)

instance (irq : Nat) : Decidable (madt.Routes irq) :=
  inferInstanceAs (Decidable (_ ∧ (_ ∨ _ ∨ ∀ i, i < irq → madt.gsiOf i ≠ madt.gsiOf irq)))

/-- The entry of the interrupt lies behind the last one of the IOAPIC. -/
def Beyond (maxRedir irq : Nat) : Prop := madt.base ≤ madt.gsiOf irq ∧ maxRedir < madt.gsiOf irq - madt.base

/-- The register of the low half of its entry. -/
def lowReg (irq : Nat) : BitVec 8 := Irq.redirReg (madt.gsiOf irq - madt.base)

/-- What is written for the first `n` interrupts, where `high` is the high half of each entry. -/
def routeWrites (high : BitVec 32) (n : Nat) : List (BitVec 8 × BitVec 32) :=
  (List.range n).flatMap fun irq =>
    if madt.Routes irq then
      [(madt.lowReg irq + 1, high),
        (madt.lowReg irq, Irq.redirLow (BitVec.ofNat 8 (Irq.vectorBase + irq)) (madt.flagsOf irq))]
    else []

variable {madt} {high : BitVec 32} {n irq : Nat}

theorem routeWrites_succ_of_routes (h : madt.Routes n) : madt.routeWrites high (n + 1) = madt.routeWrites high n ++
    [(madt.lowReg n + 1, high),
      (madt.lowReg n, Irq.redirLow (BitVec.ofNat 8 (Irq.vectorBase + n)) (madt.flagsOf n))] := by
  simp [routeWrites, List.range_succ, List.flatMap_append, h]

theorem routeWrites_succ_of_not_routes (h : ¬madt.Routes n) :
    madt.routeWrites high (n + 1) = madt.routeWrites high n := by
  simp [routeWrites, List.range_succ, List.flatMap_append, h]

theorem lowReg_add_one_ne (i j : Nat) : madt.lowReg i + 1 ≠ madt.lowReg j := by
  intro h
  have h := congrArg BitVec.toNat h
  unfold lowReg at h
  rw [Irq.redirReg_add_one] at h
  have hi := Irq.redirReg_mod_two (madt.gsiOf i - madt.base)
  have hj := Irq.redirReg_mod_two (madt.gsiOf j - madt.base)
  omega

/-- The last interrupt that writes the register decides what it holds. -/
theorem apply_routeWrites (high : BitVec 32) (regs : BitVec 8 → BitVec 32) (hirq : irq < n) (h : madt.Routes irq) :
    ∃ i, irq ≤ i ∧ i < n ∧ madt.Routes i ∧ madt.lowReg i = madt.lowReg irq ∧
      Writes.apply regs (madt.routeWrites high n) (madt.lowReg irq) =
        Irq.redirLow (BitVec.ofNat 8 (Irq.vectorBase + i)) (madt.flagsOf i) := by
  induction n with
  | zero => omega
  | succ n ih =>
    by_cases hn : madt.Routes n
    · rw [routeWrites_succ_of_routes hn, Writes.apply_append]
      by_cases hreg : madt.lowReg n = madt.lowReg irq
      · refine ⟨n, by omega, by omega, hn, hreg, ?_⟩
        rw [← hreg]
        exact update_self ..
      · have hlt : irq < n := by
          rcases Nat.lt_succ_iff_lt_or_eq.mp hirq with hlt | rfl
          · exact hlt
          · exact absurd rfl hreg
        obtain ⟨i, h1, h2, h3, h4, h5⟩ := ih hlt
        refine ⟨i, h1, by omega, h3, h4, ?_⟩
        rw [← h5]
        refine Writes.apply_of_not_mem fun w hw => ?_
        simp only [List.mem_cons, List.not_mem_nil, or_false] at hw
        rcases hw with rfl | rfl
        · exact lowReg_add_one_ne n irq
        · exact hreg
    · have hlt : irq < n := by
        rcases Nat.lt_succ_iff_lt_or_eq.mp hirq with hlt | rfl
        · exact hlt
        · exact absurd h hn
      rw [routeWrites_succ_of_not_routes hn]
      obtain ⟨i, h1, h2, h3⟩ := ih hlt
      exact ⟨i, h1, by omega, h3⟩

end AcpiMadtInfo

namespace Irq
open AcpiMadtInfo

/-! ### What the loops do -/

/-- The high half of each entry: the id of the local APIC. -/
def destination (s : Irq) : BitVec 32 := destinationOf (((s.lapics s.madt.lapicAddr).id >>> 24).setWidth 8)

/-- No end of an interrupt was sent, and none was counted. -/
structure SameAccounts (s s' : Irq) : Prop where
  eois : s'.eois = s.eois
  timerIrqCount : s'.stats.timerIrqCount = s.stats.timerIrqCount
  eoiCount : s'.stats.eoiCount = s.stats.eoiCount

/-- From `s` on, the GSIs of the first `named` interrupts were stored and the entries of the first `routed` ones
    written. -/
structure RoutedTo (s : Irq) (named routed : Nat) (s' : Irq) : Prop where
  gsi : ∀ j, s'.gsi j = if j < named then (s.madt.acpiGetIrqOverride (BitVec.ofNat 8 j)).2.1 else s.gsi j
  ioapics : s'.ioapics = update s.ioapics s.madt.ioapicAddr
    { s.ioapics s.madt.ioapicAddr with
      regs := Writes.apply (s.ioapics s.madt.ioapicAddr).regs (s.madt.routeWrites s.destination routed) }
  madt : s'.madt = s.madt
  addrs : s'.addrs = ⟨s.madt.lapicAddr, s.madt.ioapicAddr, s.madt.ioapicGsiBase⟩
  lapicId : (s'.lapics s.madt.lapicAddr).id = (s.lapics s.madt.lapicAddr).id
  backend : s'.backend = s.backend
  pic1Mask : s'.pic1Mask = s.pic1Mask
  pic2Mask : s'.pic2Mask = s.pic2Mask
  accounts : SameAccounts s s'

/-- The index of the last entry of the IOAPIC that the MADT names. -/
def lastRedir (s : Irq) : Nat := (s.ioapics s.madt.ioapicAddr).maxRedir.toNat

/-- The state of the loops before the iteration of `n`. -/
structure RouteInv (s : Irq) (n : Nat) (r : Irq × (Nat → Bool)) : Prop where
  routed : RoutedTo s n n r.1
  claimed : ∀ g, r.2 g = true ↔ g < 256 ∧ ∃ j < n, s.madt.base ≤ s.madt.gsiOf j ∧ s.madt.gsiOf j = g
  exist : ∀ j < n, ¬s.madt.Beyond s.lastRedir j

/-- The loops stopped at the interrupt `f`, the first one whose entry does not exist. -/
structure FailedAt (s : Irq) (f : Nat) (s' : Irq) : Prop where
  lt : f < 16
  beyond : s.madt.Beyond s.lastRedir f
  first : ∀ j < f, ¬s.madt.Beyond s.lastRedir j
  routed : RoutedTo s (f + 1) f s'

section Loops
variable {s : Irq} {n : Nat}

theorem apicRouteIrq_eq (s : Irq) (gsi : BitVec 32) (vector : BitVec 8) (flags : BitVec 16)
    (haddr : s.addrs.ioapicAddr ≠ 0) (hbase : ¬gsi < s.addrs.ioapicGsiBase) :
    s.apicRouteIrq gsi vector flags =
      if (s.ioapics s.addrs.ioapicAddr).maxRedir.toNat < gsi.toNat - s.addrs.ioapicGsiBase.toNat then (false, s)
      else
        let lowReg := redirReg (gsi.toNat - s.addrs.ioapicGsiBase.toNat)
        (true, { s with
          ioapics := update s.ioapics s.addrs.ioapicAddr
            { s.ioapics s.addrs.ioapicAddr with
              regs := Writes.apply (s.ioapics s.addrs.ioapicAddr).regs
                [(lowReg + 1, destinationOf s.apicLapicId), (lowReg, redirLow vector flags)] } }) := by
  have hle : s.addrs.ioapicGsiBase.toNat ≤ gsi.toNat := Nat.le_of_not_lt hbase
  have hindex : (gsi - s.addrs.ioapicGsiBase).toNat = gsi.toNat - s.addrs.ioapicGsiBase.toNat :=
    BitVec.toNat_sub_of_le hle
  have hreg := redirReg_narrowed hle
  unfold apicRouteIrq
  rw [if_neg haddr, if_neg hbase]
  dsimp only
  simp only [BitVec.lt_def, hindex, hreg]
  split
  · rfl
  · simp only [ioapicWrite, IoApic.write, update_self, update_idem]
    rfl

theorem claimed_succ {claimed : Nat → Bool}
    (h : ∀ g, claimed g = true ↔ g < 256 ∧ ∃ j < n, s.madt.base ≤ s.madt.gsiOf j ∧ s.madt.gsiOf j = g)
    (hn : s.madt.base ≤ s.madt.gsiOf n → s.madt.gsiOf n < 256 → claimed (s.madt.gsiOf n) = true) :
    ∀ g, claimed g = true ↔ g < 256 ∧ ∃ j < n + 1, s.madt.base ≤ s.madt.gsiOf j ∧ s.madt.gsiOf j = g := by
  intro g
  rw [h]
  refine and_congr_right fun hg => ⟨?_, ?_⟩
  · rintro ⟨j, hj, hrest⟩
    exact ⟨j, by omega, hrest⟩
  · rintro ⟨j, hj, hb, rfl⟩
    rcases Nat.lt_succ_iff_lt_or_eq.mp hj with hj | rfl
    · exact ⟨j, hj, hb, rfl⟩
    · exact ((h _).mp (hn hb hg)).2

theorem claimed_routed {claimed : Nat → Bool}
    (h : ∀ g, claimed g = true ↔ g < 256 ∧ ∃ j < n, s.madt.base ≤ s.madt.gsiOf j ∧ s.madt.gsiOf j = g)
    (hn : s.madt.base ≤ s.madt.gsiOf n) :
    ∀ g, (if s.madt.gsiOf n < 256 then update claimed (s.madt.gsiOf n) true else claimed) g = true ↔
      g < 256 ∧ ∃ j < n + 1, s.madt.base ≤ s.madt.gsiOf j ∧ s.madt.gsiOf j = g := by
  intro g
  by_cases hg : g = s.madt.gsiOf n
  · rw [hg]
    split
    · rename_i h256
      rw [update_self]
      exact ⟨fun _ => ⟨h256, n, Nat.lt_succ_self n, hn, rfl⟩, fun _ => rfl⟩
    · rename_i h256
      rw [h]
      exact ⟨fun hlt => absurd hlt.1 h256, fun hlt => absurd hlt.1 h256⟩
  · have hold : (if s.madt.gsiOf n < 256 then update claimed (s.madt.gsiOf n) true else claimed) g =
        claimed g := by
      split
      · exact update_of_ne hg ..
      · rfl
    rw [hold, h]
    refine and_congr_right fun _ => ⟨?_, ?_⟩
    · rintro ⟨j, hj, hrest⟩
      exact ⟨j, by omega, hrest⟩
    · rintro ⟨j, hj, hb, rfl⟩
      rcases Nat.lt_succ_iff_lt_or_eq.mp hj with hj | rfl
      · exact ⟨j, hj, hb, rfl⟩
      · exact absurd rfl hg

namespace RoutedTo
variable {s' : Irq} {m : Nat}

theorem withLog (h : RoutedTo s m n s') (klog : Klog) (failures faults : BitVec 64) :
    RoutedTo s m n
      { s' with klog, stats := { s'.stats with apicRouteFailures := failures, healthFaults := faults } } :=
  ⟨h.gsi, h.ioapics, h.madt, h.addrs, h.lapicId, h.backend, h.pic1Mask, h.pic2Mask,
    ⟨h.accounts.eois, h.accounts.timerIrqCount, h.accounts.eoiCount⟩⟩

theorem named (h : RoutedTo s n m s') :
    RoutedTo s (n + 1) m
      { s' with gsi := update s'.gsi n (s.madt.acpiGetIrqOverride (BitVec.ofNat 8 n)).2.1 } := by
  refine ⟨fun j => ?_, h.ioapics, h.madt, h.addrs, h.lapicId, h.backend, h.pic1Mask, h.pic2Mask,
    ⟨h.accounts.eois, h.accounts.timerIrqCount, h.accounts.eoiCount⟩⟩
  dsimp only
  by_cases hj : j = n
  · rw [hj, update_self, if_pos (Nat.lt_succ_self n)]
  · rw [update_of_ne hj, h.gsi]
    split <;> split <;> first | rfl | omega

theorem skipped (h : RoutedTo s m n s') (hn : ¬s.madt.Routes n) : RoutedTo s m (n + 1) s' := by
  refine ⟨h.gsi, ?_, h.madt, h.addrs, h.lapicId, h.backend, h.pic1Mask, h.pic2Mask, h.accounts⟩
  rw [routeWrites_succ_of_not_routes hn]
  exact h.ioapics

theorem apicLapicId (h : RoutedTo s m n s') (hlapic : s.madt.lapicAddr ≠ 0) :
    destinationOf s'.apicLapicId = s.destination := by
  unfold Irq.apicLapicId destination
  rw [h.addrs, if_neg hlapic, h.lapicId]

theorem maxRedir (h : RoutedTo s m n s') : (s'.ioapics s.madt.ioapicAddr).maxRedir.toNat = s.lastRedir := by
  rw [h.ioapics, update_self]
  rfl

theorem route (h : RoutedTo s m n s') (hn : s.madt.Routes n) :
    RoutedTo s m (n + 1)
      { s' with
        ioapics := update s'.ioapics s.madt.ioapicAddr
          { s'.ioapics s.madt.ioapicAddr with
            regs := Writes.apply (s'.ioapics s.madt.ioapicAddr).regs
              [(s.madt.lowReg n + 1, s.destination),
                (s.madt.lowReg n, redirLow (BitVec.ofNat 8 (vectorBase + n)) (s.madt.flagsOf n))] } } := by
  refine ⟨h.gsi, ?_, h.madt, h.addrs, h.lapicId, h.backend, h.pic1Mask, h.pic2Mask,
    ⟨h.accounts.eois, h.accounts.timerIrqCount, h.accounts.eoiCount⟩⟩
  dsimp only
  rw [routeWrites_succ_of_routes hn, Writes.apply_append, h.ioapics, update_idem, update_self]

end RoutedTo

/-- One iteration: the interrupt is below the IOAPIC or a duplicate, its entry does not exist, or it is written. -/
theorem routeIrq_ends (hlapic : s.madt.lapicAddr ≠ 0) (hioapic : s.madt.ioapicAddr ≠ 0) (hn : n < 16)
    {r : Irq × (Nat → Bool)} (h : RouteInv s n r) :
    Result.Ends (RouteInv s (n + 1)) (fun s' => ∃ f, FailedAt s f s') (routeIrq (decide (2 ≤ n)) r n) := by
  obtain ⟨s', claimed⟩ := r
  obtain ⟨hr, hcl, hexist⟩ := h
  dsimp only at hr hcl
  have hnamed := hr.named
  have hov : s'.madt.acpiGetIrqOverride (BitVec.ofNat 8 n) = s.madt.acpiGetIrqOverride (BitVec.ofNat 8 n) := by
    rw [hr.madt]
  have hexist' (hb : ¬s.madt.Beyond s.lastRedir n) : ∀ j < n + 1, ¬s.madt.Beyond s.lastRedir j := by
    intro j hj
    rcases Nat.lt_succ_iff_lt_or_eq.mp hj with hj | rfl
    · exact hexist j hj
    · exact hb
  unfold routeIrq
  dsimp only
  rw [hov, show s'.madt.ioapicGsiBase = s.madt.ioapicGsiBase by rw [hr.madt]]
  split
  · rename_i hbase
    have hbelow : ¬s.madt.base ≤ s.madt.gsiOf n := Nat.not_le_of_lt hbase
    exact ⟨hnamed.skipped fun hroutes => hbelow hroutes.1, claimed_succ hcl fun hb => absurd hb hbelow,
      hexist' fun hb => hbelow hb.1⟩
  rename_i hbase
  have hge : s.madt.base ≤ s.madt.gsiOf n := Nat.le_of_not_lt hbase
  split
  · rename_i hdup
    simp only [Bool.and_eq_true, decide_eq_true_eq] at hdup
    obtain ⟨⟨h2, h256⟩, hc⟩ := hdup
    obtain ⟨-, i, hi, hbi, hsame⟩ := (hcl _).mp hc
    have hsame : s.madt.gsiOf i = s.madt.gsiOf n := hsame
    refine ⟨RoutedTo.withLog (hnamed.skipped ?_) _ _ _, claimed_succ hcl fun _ _ => hc, hexist' ?_⟩
    · rintro ⟨-, hlt | hge256 | hfirst⟩
      · omega
      · exact absurd h256 (Nat.not_lt_of_le hge256)
      · exact hfirst i hi hsame
    · rintro ⟨-, hb⟩
      exact hexist i hi ⟨hbi, hsame ▸ hb⟩
  rename_i hnodup
  have hroutes : s.madt.Routes n := by
    refine ⟨hge, ?_⟩
    by_contra hno
    simp only [not_or, not_lt, not_le, not_forall, not_not] at hno
    obtain ⟨h2, h256, i, hi, hsame⟩ := hno
    refine hnodup ?_
    simp only [Bool.and_eq_true, decide_eq_true_eq]
    exact ⟨⟨h2, h256⟩, (hcl _).mpr ⟨h256, i, hi, hsame ▸ hge, hsame⟩⟩
  have haddr : s'.addrs.ioapicAddr = s.madt.ioapicAddr := by rw [hr.addrs]
  have haddrBase : s'.addrs.ioapicGsiBase = s.madt.ioapicGsiBase := by rw [hr.addrs]
  rw [apicRouteIrq_eq _ _ _ _ (haddr ▸ hioapic) (haddrBase ▸ hbase), hnamed.apicLapicId hlapic]
  dsimp only
  rw [haddr, haddrBase, hr.maxRedir]
  by_cases hlt : s.lastRedir < (s.madt.acpiGetIrqOverride (BitVec.ofNat 8 n)).2.1.toNat - s.madt.ioapicGsiBase.toNat
  · rw [if_pos hlt]
    exact ⟨n, hn, ⟨hge, hlt⟩, hexist, hnamed.withLog _ _ _⟩
  · rw [if_neg hlt]
    exact ⟨hnamed.route hroutes, claimed_routed hcl hge, hexist' fun hb => hlt hb.2⟩

/-- The two loops are one, over the interrupts from 0 on. -/
theorem routeAll_ends (hlapic : s.madt.lapicAddr ≠ 0) (hioapic : s.madt.ioapicAddr ≠ 0) {s' : Irq}
    (h : RoutedTo s 0 0 s') :
    Result.Ends (RouteInv s 16) (fun s' => ∃ f, FailedAt s f s') s'.routeAll := by
  have hinit : RouteInv s 0 (s', fun _ => false) :=
    ⟨h, fun g => ⟨nofun, fun ⟨_, j, hj, _⟩ => absurd hj (Nat.not_lt_zero j)⟩,
      fun j hj => absurd hj (Nat.not_lt_zero j)⟩
  have hcritical := Result.Ends.foldlM_range' (n := 2) hinit (f := routeIrq false) fun n r _ hn hr => by
    have hend := routeIrq_ends hlapic hioapic (by omega) hr
    rwa [decide_eq_false (by omega)] at hend
  refine hcritical.bind fun r hr => ?_
  exact Result.Ends.foldlM_range' (n := 14) hr (f := routeIrq true) fun n r hn hlt hr => by
    have hend := routeIrq_ends hlapic hioapic (by omega) hr
    rwa [decide_eq_true (by omega)] at hend

end Loops

/-! ### What the call does -/

section Call
variable {s : Irq}

/-- The MADT names a local APIC and an IOAPIC. -/
def HasApic (s : Irq) : Prop := s.madt.present = true ∧ s.madt.lapicAddr ≠ 0 ∧ s.madt.ioapicAddr ≠ 0

/-- Without them nothing but the log, the counters and the addresses changes. -/
structure Untouched (s s' : Irq) : Prop where
  gsi : s'.gsi = s.gsi
  ioapics : s'.ioapics = s.ioapics
  backend : s'.backend = s.backend
  pic1Mask : s'.pic1Mask = s.pic1Mask
  pic2Mask : s'.pic2Mask = s.pic2Mask
  accounts : SameAccounts s s'

theorem routedTo_apicEnable (s : Irq) :
    RoutedTo s 0 0 { s with
      addrs := ⟨s.madt.lapicAddr, s.madt.ioapicAddr, s.madt.ioapicGsiBase⟩
      apicBase := s.apicBase ||| 1#64 <<< 11
      lapics := update s.lapics s.madt.lapicAddr { s.lapics s.madt.lapicAddr with svr := 0x100 ||| 0xFF }
      klog := s.klog.klogInfo "APIC: local APIC enabled".toList } := by
  refine ⟨fun j => (if_neg (Nat.not_lt_zero j)).symm, ?_, rfl, rfl, ?_, rfl, rfl, rfl, ⟨rfl, rfl, rfl⟩⟩
  · exact (update_eq_self ..).symm
  · dsimp only
    rw [update_self]

theorem apicMaskLegacyPic_eq (s : Irq) : ∃ pic1Mask pic2Mask, s.apicMaskLegacyPic = { s with pic1Mask, pic2Mask } := by
  unfold apicMaskLegacyPic
  induction List.range 16 generalizing s with
  | nil => exact ⟨s.pic1Mask, s.pic2Mask, rfl⟩
  | cons i l ih =>
    obtain ⟨m1, m2, hmask⟩ : ∃ pic1Mask pic2Mask, s.picMask i = { s with pic1Mask, pic2Mask } := by
      unfold picMask
      split <;> exact ⟨_, _, rfl⟩
    obtain ⟨m1', m2', hrest⟩ := ih (s.picMask i)
    refine ⟨m1', m2', ?_⟩
    rw [List.foldl_cons, hrest, hmask]

/-- `irq_try_enable_apic` finds no APIC, fails at an interrupt, or switches over. -/
theorem irqTryEnableApic_cases (s : Irq) :
    (¬s.HasApic ∧ s.irqTryEnableApic.1 = false ∧ Untouched s s.irqTryEnableApic.2) ∨
    (s.HasApic ∧ s.irqTryEnableApic.1 = false ∧ ∃ f, FailedAt s f s.irqTryEnableApic.2) ∨
    (s.HasApic ∧ s.irqTryEnableApic.1 = true ∧ (∀ j < 16, ¬s.madt.Beyond s.lastRedir j) ∧
      ∃ s' pic1Mask pic2Mask klog, RoutedTo s 16 16 s' ∧
        s.irqTryEnableApic.2 = { s' with backend := .apic, pic1Mask, pic2Mask, klog }) := by
  by_cases happ : s.HasApic
  · obtain ⟨hp, hl, hi⟩ := id happ
    have hcan : (s.apicSetAddresses ⟨s.madt.lapicAddr, s.madt.ioapicAddr, s.madt.ioapicGsiBase⟩).apicCanEnable =
        true := by
      simp only [apicCanEnable, apicSetAddresses, Bool.and_eq_true, bne_iff_ne]
      exact ⟨hl, hi⟩
    have hends := routeAll_ends hl hi (routedTo_apicEnable s)
    unfold irqTryEnableApic
    dsimp only
    rw [if_pos hp, apicEnable, if_pos hcan]
    dsimp only [apicSetAddresses]
    revert hends
    generalize routeAll _ = r
    intro hends
    cases r with
    | error s' => exact Or.inr (Or.inl ⟨happ, rfl, hends⟩)
    | ok r =>
      obtain ⟨s', claimed⟩ := r
      obtain ⟨m1, m2, hmasked⟩ := s'.apicMaskLegacyPic_eq
      dsimp only
      rw [hmasked]
      exact Or.inr (Or.inr ⟨happ, rfl, hends.exist, s', m1, m2, _, hends.routed, rfl⟩)
  · refine Or.inl ⟨happ, ?_⟩
    unfold irqTryEnableApic
    dsimp only
    split
    · rename_i hp
      rw [apicEnable, if_neg fun hcan => happ ⟨hp, by simpa [apicCanEnable, apicSetAddresses] using hcan⟩]
      exact ⟨rfl, rfl, rfl, rfl, rfl, rfl, rfl, rfl, rfl⟩
    · exact ⟨rfl, rfl, rfl, rfl, rfl, rfl, rfl, rfl, rfl⟩

end Call

end Irq
end SamOS
