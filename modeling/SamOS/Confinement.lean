import SamOS.KernelRuns
import SamOS.VmmLaws

/-! What `sys_write` may print. `user_range_valid` asks `vmm_virt_to_phys` for every page of the range; away from 2
    MiB pages a page that it finds has the user bit on every level, and on a 2 MiB page, which has not, it may find
    anything. -/

namespace SamOS
open Lts

namespace Kernel

/-- The kernel with other contents of physical memory. -/
def withMemory (k : Kernel) (m : Mem) : Kernel := k.withMachine { k.machine with mem := m }

section Range
variable {k : Kernel} {as : AsPtr} {start len : Nat}

theorem of_userRangeValid (hlen : len < 2 ^ 64) (h : k.userRangeValid as start len = true) {i : Nat} (hi : i < len) :
    start + i < userUpperLimit ∧ k.machine.vmmVirtToPhys as ((start + i) / 4096 * 4096) ≠ 0 := by
  unfold userRangeValid at h
  split at h
  · cases h
  split at h
  · omega
  split at h
  · cases h
  rename_i hstart
  split at h
  · cases h
  rename_i hwrap
  split at h
  · cases h
  rename_i hend
  simp only [userUpperLimit] at hstart hend
  have hmod : (start + len) % 2 ^ 64 = start + len := by omega
  rw [hmod] at hend
  refine ⟨by simp only [userUpperLimit]; omega, ?_⟩
  have hpage := List.all_eq_true.mp h ((start + i) / 4096 - start / 4096) (List.mem_range.mpr (by omega))
  rw [show start / 4096 + ((start + i) / 4096 - start / 4096) = (start + i) / 4096 by omega] at hpage
  simpa using hpage

theorem userRangeValid_one (has : as ≠ .null) (hs : start < userUpperLimit)
    (h : k.machine.vmmVirtToPhys as (start / 4096 * 4096) ≠ 0) : k.userRangeValid as start 1 = true := by
  simp only [userUpperLimit] at hs
  unfold userRangeValid
  rw [if_neg has, if_neg (by decide), if_neg (by simp only [userUpperLimit]; omega), if_neg (by omega),
    if_neg (by simp only [userUpperLimit]; omega), Nat.add_sub_cancel]
  simpa [List.range_succ] using h

end Range
end Kernel

/-! ### One byte -/

namespace Tables
variable {kernel : Nat} {m m' : Mem} {use : Nat → Use} {r va : Nat}

/-- An address whose page `vmm_virt_to_phys` finds can be read by user code exactly when it is on no 2 MiB page. -/
theorem user_iff_off_huge (h : Tables kernel m use) (hr : use r = .node r []) (hk : r ≠ kernel)
    (hva : va < userUpperLimit) (hm : ∀ n ≤ 3, ∀ t, m.tableAt r va n = some t → m' t = m t)
    (hfound : m'.virtToPhys r (va / 4096 * 4096) ≠ 0) :
    (∃ phys, m'.hardwareWalk r va = some (phys, true)) ↔ m'.onHugePage r va = false := by
  have hwalk : ∀ n ≤ 4, m'.tableAt r va n = m.tableAt r va n := fun n hn =>
    Mem.tableAt_congr fun k hkn t ht => hm k (by omega) t ht
  have hhuge : m'.onHugePage r va = m.onHugePage r va := by
    unfold Mem.onHugePage
    rw [hwalk 2 (by decide)]
    cases ht : m.tableAt r va 2 with
    | none => rfl
    | some t =>
      dsimp only
      rw [hm 2 (by decide) t ht]
  have hpath : pagePath (va / 4096 * 4096) 4 = pagePath va 4 := pagePath_four_inj.mpr (by omega)
  rw [Mem.hardwareWalk_congr hm]
  constructor
  · rintro ⟨phys, hw⟩
    rw [hhuge]
    by_contra hh
    obtain ⟨phys', hw'⟩ := h.hardwareWalk_huge hr (by simpa using hh)
    cases hw.symm.trans hw'
  · intro hoff
    have hoff' : m'.onHugePage r (va / 4096 * 4096) = false :=
      (Mem.onHugePage_of_pagePath (pagePath_eq_of_le hpath (by decide))).trans hoff
    rw [Mem.virtToPhys_eq hoff', Mem.tableAt_of_pagePath hpath, hwalk 4 (by decide)] at hfound
    cases hf : m.tableAt r va 4 with
    | none =>
      rw [hf] at hfound
      exact absurd rfl hfound
    | some f => exact ⟨_, h.hardwareWalk_user hr hk (by have := Layout.pageIndex_zero_lt hva; omega) hf⟩

end Tables

/-! ### Every system call -/

namespace Kernel
variable {fw : Platform} {image : KernelImage} {k : Kernel} {a start len : Nat} {m : Mem}

theorem range_user_iff {use : Nat → Use} (h : Layout k.machine use) {r : Nat} (ha : use a = .space r)
    (hm : ∀ va, ∀ n ≤ 3, ∀ t, k.machine.mem.tableAt r va n = some t → m t = k.machine.mem t)
    (hspace : m a = k.machine.mem a) (hlen : len < 2 ^ 64)
    (hv : (k.withMemory m).userRangeValid (.page a) start len = true) :
    (∀ i < len, ∃ phys, m.hardwareWalk r (start + i) = some (phys, true)) ↔
      ∀ i < len, m.onHugePage r (start + i) = false := by
  obtain ⟨hk, hroot, -⟩ := h.tables.space ha
  have hpml4 : (k.withMemory m).machine.pml4 (.page a) = r := by
    rw [← h.pml4_eq ha, Machine.pml4, Machine.pml4]
    show (m a 0).toNat / 4096 = _
    rw [hspace]
  refine forall_congr' fun i => forall_congr' fun hi => ?_
  obtain ⟨hva, hfound⟩ := of_userRangeValid hlen hv hi
  rw [Machine.vmmVirtToPhys, hpml4] at hfound
  exact h.tables.user_iff_off_huge hroot hk hva (hm _) hfound

/-- In every orderly run, for every contents of memory outside the tables: user code can read every byte of a range
    that `user_range_valid` accepts exactly when none of them is on a 2 MiB page, and it can read every byte that
    `sys_write` prints exactly when none of these is. -/
theorem syscalls_confined_iff (h : ((kernels fw image).guard Orderly).Reachable k) :
    (∀ a m start len, alive k.machine.log a = true →
      (∀ va, ∀ n ≤ 3, ∀ t, k.machine.mem.tableAt (k.machine.pml4 (.page a)) va n = some t → m t = k.machine.mem t) →
      m a = k.machine.mem a → len < 2 ^ 64 → (k.withMemory m).userRangeValid (.page a) start len = true →
      ((∀ i < len, ∃ phys, m.hardwareWalk (k.machine.pml4 (.page a)) (start + i) = some (phys, true)) ↔
        ∀ i < len, m.onHugePage (k.machine.pml4 (.page a)) (start + i) = false)) ∧
    ∀ ptr n, (∀ i < (k.sysWrite ptr n).2.length,
        ∃ phys, k.machine.mem.hardwareWalk k.sched.cr3 (ptr + i) = some (phys, true)) ↔
      ∀ i < (k.sysWrite ptr n).2.length, k.machine.mem.onHugePage k.sched.cr3 (ptr + i) = false := by
  obtain ⟨-, use, hi⟩ := memInv_of_reachable h
  have hl := hi.memory.layout
  refine ⟨fun a m start len ha hm hspace hlen hv => ?_, fun ptr n => ?_⟩
  · obtain ⟨r, ha⟩ := (hl.live a).mp ha
    rw [hl.pml4_eq ha] at hm ⊢
    exact range_user_iff hl ha hm hspace hlen hv
  unfold sysWrite
  split
  · simp
  rename_i huser
  simp only [not_or, not_not, not_lt] at huser
  split
  · simp
  rename_i hn
  split
  · simp
  rename_i hvalid
  obtain ⟨b, hb, hspace⟩ := hi.current.user huser.1 huser.2
  rw [hb, not_not] at hvalid
  simp only [List.length_map, List.length_range]
  exact range_user_iff (m := k.machine.mem) hl hspace (fun _ _ _ _ _ => rfl) rfl (by omega) hvalid

/-- The first byte of the stack of a new process. -/
theorem syscalls_confined_iff_sample : ∃ k a, (sampleKernels.guard Orderly).Reachable k ∧ alive k.machine.log a = true ∧
    k.userRangeValid (.page a) stackPage 1 = true ∧
    ∃ phys, k.machine.mem.hardwareWalk (k.machine.pml4 (.page a)) stackPage = some (phys, true) := by
  obtain ⟨k₀, use, stack₀, stack₁, hb, hidle, hsh⟩ := exists_idle fun _ _ => 0
  obtain ⟨prog, r, k', use', hsp, -⟩ := hidle.spawn
  have hr₀ : (sampleKernels.guard Orderly).Reachable k₀ := .init (sampleKernels_init hb)
  have hr := hr₀.step (hidle.bootSpawn hsh hsp)
  have hl := hsp.memory.layout
  obtain ⟨f, -, hf⟩ := hsp.program.page
  have htree : treeOf k'.machine.kernelPml4 r stackPage = r := Layout.treeOf_stack _ _ (i := 0) (by decide)
  have hat : k'.machine.mem.tableAt r stackPage 4 = some f :=
    hl.tables.tableAt_of_node (hl.tables.node_root hf) (by decide) (by rw [htree]; exact hf)
  obtain ⟨t, ht, -⟩ := Mem.tableAt_eq_some hat
  have hvalid : (k'.setProc 0 (prog.process k₀.nextPid.toInt 2)).userRangeValid
      (.page prog.space) stackPage 1 = true := by
    refine userRangeValid_one nofun (by decide) ?_
    have := (hl.tables.range hf).1
    rw [show stackPage / 4096 * 4096 = stackPage by decide, setProc_machine, Machine.vmmVirtToPhys,
      hl.pml4_eq hsp.program.space, Mem.virtToPhys_of_tableAt hat]
    omega
  refine ⟨_, prog.space, hr, (hl.live _).mpr ⟨r, hsp.program.space⟩, hvalid, ?_⟩
  refine ((syscalls_confined_iff hr).1 _ _ _ _ ((hl.live _).mpr ⟨r, hsp.program.space⟩)
    (fun _ _ _ _ _ => rfl) rfl (by decide) hvalid).mpr (fun i hi => ?_) 0 (by decide)
  obtain rfl : i = 0 := by omega
  rw [setProc_machine, hl.pml4_eq hsp.program.space]
  exact Mem.onHugePage_of_tableAt ht

/-- Where the first word of a 2 MiB page of the identity map looks like an entry, `user_range_valid` accepts the page,
    and `sys_write` prints its bytes, which no user code can read. -/
theorem write_prints_kernel_byte : ∃ s, sampleCalls.Reachable s ∧ s.Has (.page 2048) ∧
    s.mem.hardwareWalk (s.pml4 (.page 2048)) 0x600000 = some (0x600000, false) ∧
    ∀ k : Kernel, k.machine = s → k.userRangeValid (.page 2048) 0x600000 1 = true ∧
      (0 ≤ k.sched.currentTid → (k.sched.tasks k.sched.current).isUser = true →
        (k.sched.tasks k.sched.current).addressSpace = .page 2048 → k.sched.cr3 = s.pml4 (.page 2048) →
        k.sysWrite 0x600000 1 = (1, [some (s.mem.readByte 0x600000)])) := by
  obtain ⟨s, hrun, has, hw, hv⟩ := misreads_at_huge_page selfLinked
  refine ⟨s, hrun.of_guard.reachable ⟨[], _, vmmSample_init _, .nil⟩, has, hw, ?_⟩
  rintro k rfl
  have hvalid : k.userRangeValid (.page 2048) 0x600000 1 = true := by
    refine userRangeValid_one nofun (by decide) ?_
    rw [show 0x600000 / 4096 * 4096 = 0x600000 by decide, hv]
    decide
  refine ⟨hvalid, fun hcur huser hspace hcr3 => ?_⟩
  unfold sysWrite readVirtual
  rw [if_neg (by simp [huser, hcur]), if_neg (by decide), hspace, if_neg (by simp [hvalid]), hcr3]
  simp [List.range_succ, hw]

end Kernel
end SamOS
