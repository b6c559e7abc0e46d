import SamOS.AmlSleep

/-! The scan of the DSDT against the encoding that it decodes: the first named package `_S5_` of the AML bytes, with
    any of the four forms of a package length and of a number, gives its first two numbers. -/

namespace SamOS
namespace Acpi

/-- A number below 256: `ZeroOp`, `OneOp`, or a byte or a word after its prefix. -/
inductive Encodes : List (BitVec 8) → BitVec 8 → Prop
  | zeroOp : Encodes [0x00] 0
  | oneOp : Encodes [0x01] 1
  | byte (v : BitVec 8) : Encodes [0x0A, v] v
  | word (v : BitVec 8) : Encodes [0x0B, v, 0x00] v

theorem Encodes.length_pos {e : List (BitVec 8)} {v : BitVec 8} (h : Encodes e v) : 0 < e.length := by
  cases h <;> exact Nat.succ_pos _

/-- The length of a package: the two top bits of the lead byte say how many bytes follow it. -/
inductive PkgLength : List (BitVec 8) → Prop
  | mk {lead : BitVec 8} {follow : List (BitVec 8)} (h : follow.length = lead.toNat / 64) : PkgLength (lead :: follow)

/-- No prefix of the name, the root prefix or the parent prefix. -/
def namePrefixes : List (List (BitVec 8)) := [[], [0x5C], [0x5E]]

/-- `NameOp`, a prefix, the name `_S5_` and `PackageOp`. -/
def s5Name (pfx : List (BitVec 8)) : List (BitVec 8) := 0x08 :: pfx ++ [0x5F, 0x53, 0x35, 0x5F, 0x12]

theorem length_s5Name (pfx : List (BitVec 8)) : (s5Name pfx).length = pfx.length + 6 := by
  rw [s5Name, List.cons_append, List.length_cons, List.length_append]
  rfl

/-- The bytes `l` are at `n`. -/
def Holds (aml : Nat → BitVec 8) (n : Nat) (l : List (BitVec 8)) : Prop := ∀ k (h : k < l.length), aml (n + k) = l[k]

section Holds
variable {aml : Nat → BitVec 8} {n : Nat} {l l' : List (BitVec 8)}

theorem holds_nil : Holds aml n [] := fun _ h => absurd h (Nat.not_lt_zero _)

theorem holds_cons {c : BitVec 8} : Holds aml n (c :: l) ↔ aml n = c ∧ Holds aml (n + 1) l := by
  refine ⟨fun h => ⟨h 0 (Nat.succ_pos _), fun k hk => ?_⟩, fun h k hk => ?_⟩
  · have := h (k + 1) (Nat.succ_lt_succ hk)
    rw [List.getElem_cons_succ] at this
    rw [← this, Nat.add_right_comm, Nat.add_assoc]
  · cases k with
    | zero => exact h.1
    | succ k =>
      rw [List.getElem_cons_succ, ← h.2 k (Nat.lt_of_succ_lt_succ hk), Nat.add_right_comm, Nat.add_assoc]

theorem holds_append : Holds aml n (l ++ l') ↔ Holds aml n l ∧ Holds aml (n + l.length) l' := by
  induction l generalizing n with
  | nil => simp only [List.nil_append, List.length_nil, Nat.add_zero, holds_nil, true_and]
  | cons c l ih => rw [List.cons_append, holds_cons, holds_cons, ih, List.length_cons, and_assoc, Nat.add_right_comm,
    Nat.add_assoc]

theorem holds_shift {k : Nat} : Holds (fun i => aml (k + i)) n l ↔ Holds aml (k + n) l := by
  unfold Holds
  simp only [Nat.add_assoc]

theorem prefix_of_holds {s : List (BitVec 8)} (hs : Holds aml 0 s) (h : Holds aml n l)
    (hin : n + l.length ≤ s.length) : l <+: s.drop n := by
  rw [List.prefix_iff_getElem?]
  intro k hk
  have hget := hs (n + k) (by omega)
  rw [Nat.zero_add] at hget
  rw [List.getElem?_drop, List.getElem?_eq_getElem (by omega), ← hget, h k hk]

end Holds

/-! ### What each part of the scan finds -/

section Finds
variable {aml : Nat → BitVec 8} {amlLen : BitVec 32} {i k : BitVec 32} {n : Nat}
open Logged

theorem finds_amlGet {c : BitVec 8} (h : aml k.toNat = c) : Finds (fun d => d = c) (amlGet aml k) := .of_lift h

theorem finds_plus (h : k.toNat + n < 2 ^ 32) : Finds (fun p => p.toNat = k.toNat + n) (OptionT.lift (plus k n)) :=
  .of_lift (toNat_plus h)

theorem finds_minus (h : n ≤ k.toNat) : Finds (fun p => p.toNat = k.toNat - n) (OptionT.lift (minus k n)) :=
  .of_lift (toNat_minus h)

theorem finds_charAt {c : BitVec 8} (hin : i.toNat + n < 2 ^ 32) (h : aml (i.toNat + n) = c) :
    Finds (fun _ => True) (charAt aml i n c) :=
  (finds_plus hin).bind fun _ hk => (finds_amlGet (by rw [hk, h])).bind fun _ hd => .of_guard hd

theorem finds_nameAt (hin : i.toNat + 3 < 2 ^ 32) (h : IsName aml i.toNat) : Finds (fun _ => True) (nameAt aml i) :=
  (finds_charAt (by omega) h.1).bind fun _ _ => (finds_charAt (by omega) h.2.1).bind fun _ _ =>
    (finds_charAt (by omega) h.2.2.1).bind fun _ _ => finds_charAt (by omega) h.2.2.2

theorem finds_nameOpBefore (h : IsNamed aml i.toNat) : Finds (fun _ => True) (nameOpBefore aml i) := by
  have hpos : 1 ≤ i.toNat := by
    rcases h with h | h
    · exact h.1
    · exact Nat.le_of_succ_le h.1
  have h0 : i ≠ 0 := by
    rintro rfl
    exact absurd hpos (by decide)
  refine (Finds.of_guard h0).bind fun _ _ => (finds_minus hpos).bind fun k hk => (finds_amlGet rfl).bind
    fun pre hpre => ?_
  rw [hk] at hpre
  split
  · rename_i hne
    rcases h with ⟨-, h8⟩ | ⟨h2, h8, hroot⟩
    · exact absurd (hpre.trans h8) hne
    · refine (Finds.of_guard (show (2 : BitVec 32) ≤ i from h2)).bind fun _ _ => (finds_minus h2).bind fun k hk => ?_
      rw [← hpre] at hroot
      exact (finds_amlGet (by rw [hk, h8])).bind fun _ hc => (Finds.of_guard hc).bind fun _ _ => .of_guard hroot
  · exact .of_pure trivial

theorem toNat_follow (lead : BitVec 8) : ((lead >>> 6) &&& 3).toNat = lead.toNat / 64 := by
  have hlt := lead.isLt
  rw [BitVec.toNat_and, BitVec.toNat_ushiftRight, Nat.shiftRight_eq_div_pow,
    show (3 : BitVec 8).toNat = 2 ^ 2 - 1 from rfl, Nat.and_two_pow_sub_one_eq_mod]
  omega

theorem finds_packageAt {pkg : List (BitVec 8)} (hlen : Fits amlLen) (hop : aml (i.toNat + 4) = 0x12)
    (hpkg : PkgLength pkg) (h : Holds aml (i.toNat + 5) pkg) (hin : i.toNat + 6 + pkg.length < amlLen.toNat) :
    Finds (fun pos => pos.toNat = i.toNat + 6 + pkg.length) (packageAt aml amlLen i) := by
  unfold Fits at hlen
  cases hpkg
  rename_i lead follow hfollow
  have hlead : aml (i.toNat + 4 + 1) = lead := (holds_cons.mp h).1
  rw [List.length_cons] at hin ⊢
  rw [← toNat_follow] at hfollow
  refine (finds_plus (by omega)).bind fun pos hpos => ?_
  refine (Finds.of_guard (show pos.toNat < amlLen.toNat by omega)).bind fun _ _ => ?_
  refine (finds_amlGet (by rw [hpos, hop])).bind fun _ hc => (Finds.of_guard hc).bind fun _ _ => ?_
  refine (finds_plus (by omega)).bind fun pos1 hpos1 => ?_
  refine (Finds.of_guard (show pos1.toNat < amlLen.toNat by omega)).bind fun _ _ => ?_
  refine (finds_amlGet (by rw [hpos1, hpos, hlead])).bind fun c hc => ?_
  subst hc
  refine (finds_plus (by omega)).bind fun pos2 hpos2 => (finds_plus (by omega)).bind fun pos3 hpos3 => ?_
  refine (Finds.of_guard (show pos3.toNat < amlLen.toNat by omega)).bind fun _ _ => ?_
  refine (finds_plus (by omega)).bind fun pos3 hpos3 => ?_
  refine (Finds.of_guard (show pos3.toNat < amlLen.toNat by omega)).bind fun _ _ => ?_
  refine (finds_plus (by omega)).bind fun pos4 hpos4 => ?_
  refine (Finds.of_guard (show pos4.toNat < amlLen.toNat by omega)).bind fun _ _ => .of_pure ?_
  omega

theorem finds_amlGetU16 {pos : BitVec 32} {v : BitVec 8} (h : aml pos.toNat = v) :
    Finds (fun w : BitVec 16 => w.setWidth 8 = v) (amlGetU16 aml pos) := by
  refine .of_lift ?_
  show (AcpiMadtInfo.readU16 aml pos.toNat).setWidth 8 = v
  rw [AcpiMadtInfo.readU16, h]
  exact BitVec.setWidth_append_eq_right

theorem finds_numberAt {pos : BitVec 32} {e : List (BitVec 8)} {v : BitVec 8} (hlen : Fits amlLen) (he : Encodes e v)
    (h : Holds aml pos.toNat e) (hin : pos.toNat + e.length ≤ amlLen.toNat) :
    Finds (fun r => r.1 = v ∧ r.2.toNat + 1 = pos.toNat + e.length) (numberAt aml amlLen pos) := by
  unfold Fits at hlen
  cases he with
  | zeroOp =>
    refine (finds_amlGet (holds_cons.mp h).1).bind fun c hc => ?_
    subst hc
    exact .of_pure ⟨rfl, rfl⟩
  | oneOp =>
    refine (finds_amlGet (holds_cons.mp h).1).bind fun c hc => ?_
    subst hc
    exact .of_pure ⟨rfl, rfl⟩
  | byte v =>
    replace hin : pos.toNat + 2 ≤ amlLen.toNat := hin
    obtain ⟨h0, h1⟩ := holds_cons.mp h
    refine (finds_amlGet h0).bind fun c hc => ?_
    subst hc
    refine (finds_plus (by omega)).bind fun p hp => (Finds.of_guard (show p.toNat < amlLen.toNat by omega)).bind
      fun _ _ => ?_
    refine (finds_plus (by omega)).bind fun p hp => (finds_amlGet (by rw [hp, (holds_cons.mp h1).1])).bind fun c hc =>
      .of_pure ⟨hc, ?_⟩
    dsimp only
    rw [hp]
    rfl
  | word v =>
    replace hin : pos.toNat + 3 ≤ amlLen.toNat := hin
    obtain ⟨h0, h1⟩ := holds_cons.mp h
    obtain ⟨h1, -⟩ := holds_cons.mp h1
    refine (finds_amlGet h0).bind fun c hc => ?_
    subst hc
    refine (finds_plus (by omega)).bind fun p hp => (Finds.of_guard (show p.toNat < amlLen.toNat by omega)).bind
      fun _ _ => ?_
    refine (finds_plus (by omega)).bind fun p1 hp1 => ?_
    refine (finds_amlGetU16 (hp1.symm ▸ h1)).bind fun w hw => (finds_plus (by omega)).bind fun p2 hp2 =>
      .of_pure ⟨hw, ?_⟩
    dsimp only
    rw [hp2]
    rfl

theorem finds_s5At {pkg ea eb : List (BitVec 8)} {num a b : BitVec 8} (hlen : Fits amlLen)
    (hname : S5Pattern aml i.toNat) (hpkg : PkgLength pkg) (ha : Encodes ea a) (hb : Encodes eb b)
    (h : Holds aml (i.toNat + 5) (pkg ++ num :: ea ++ eb))
    (hin : i.toNat + 6 + pkg.length + ea.length + eb.length ≤ amlLen.toNat) :
    Finds (fun types => types = (a, b)) (s5At aml amlLen i) := by
  have hfits := hlen
  unfold Fits at hlen
  rw [List.append_assoc, holds_append] at h
  obtain ⟨hpackage, hnumbers⟩ := h
  obtain ⟨hea, heb⟩ := holds_append.mp (holds_cons.mp hnumbers).2
  have hapos := ha.length_pos
  have hbpos := hb.length_pos
  refine (finds_nameAt (by omega) hname.name).bind fun _ _ => (finds_nameOpBefore hname.named).bind fun _ _ => ?_
  refine (finds_packageAt hfits hname.package hpkg hpackage (by omega)).bind fun pos hpos => ?_
  rw [show i.toNat + 5 + pkg.length + 1 = pos.toNat by omega] at hea heb
  refine (finds_numberAt hfits ha hea (by omega)).bind ?_
  rintro ⟨a', pos1⟩ ⟨rfl, hpos1⟩
  dsimp only at hpos1 ⊢
  refine (finds_plus (by omega)).bind fun pos2 hpos2 => ?_
  rw [← hpos1, ← hpos2] at heb
  refine (Finds.of_guard (show pos2.toNat < amlLen.toNat by omega)).bind fun _ _ =>
    (finds_numberAt hfits hb heb (by omega)).bind ?_
  rintro ⟨b', pos3⟩ ⟨rfl, -⟩
  exact .of_pure rfl

end Finds

/-! ### The first pattern of the stream -/

variable {aml : Nat → BitVec 8}

theorem S5Pattern.holds {i : Nat} (h : S5Pattern aml i) :
    ∃ j pfx, pfx ∈ namePrefixes ∧ j + 1 + pfx.length = i ∧ Holds aml j (s5Name pfx) := by
  obtain ⟨⟨h0, h1, h2, h3⟩, hnamed, h4⟩ := h
  have hrest (j : Nat) (hj : j = i) : Holds aml j [0x5F, 0x53, 0x35, 0x5F, 0x12] := by
    subst hj
    simp only [holds_cons, holds_nil, and_true]
    exact ⟨h0, h1, h2, h3, h4⟩
  rcases hnamed with ⟨hi, h8⟩ | ⟨hi, h8, hroot⟩
  · exact ⟨i - 1, [], by decide, by rw [List.length_nil]; omega, holds_cons.mpr ⟨h8, hrest _ (by omega)⟩⟩
  · rw [show i - 1 = i - 2 + 1 by omega] at hroot
    rcases hroot with hroot | hroot
    · exact ⟨i - 2, [0x5C], by decide, by rw [List.length_singleton]; omega,
        holds_cons.mpr ⟨h8, holds_cons.mpr ⟨hroot, hrest _ (by omega)⟩⟩⟩
    · exact ⟨i - 2, [0x5E], by decide, by rw [List.length_singleton]; omega,
        holds_cons.mpr ⟨h8, holds_cons.mpr ⟨hroot, hrest _ (by omega)⟩⟩⟩

theorem S5Pattern.of_holds {j : Nat} {pfx : List (BitVec 8)} (hpfx : pfx ∈ namePrefixes)
    (h : Holds aml j (s5Name pfx)) :
    S5Pattern aml (j + 1 + pfx.length) := by
  obtain ⟨h8, h⟩ := holds_cons.mp h
  obtain ⟨hroot, h⟩ := holds_append.mp h
  simp only [holds_cons, holds_nil, and_true] at h
  obtain ⟨h0, h1, h2, h3, h4⟩ := h
  refine ⟨⟨h0, h1, h2, h3⟩, ?_, h4⟩
  simp only [namePrefixes, List.mem_cons, List.not_mem_nil, or_false] at hpfx
  rcases hpfx with rfl | rfl | rfl
  · exact Or.inl ⟨Nat.le_add_left 1 j, h8⟩
  · exact Or.inr ⟨Nat.le_add_left 2 j, h8, Or.inl (holds_cons.mp hroot).1⟩
  · exact Or.inr ⟨Nat.le_add_left 2 j, h8, Or.inr (holds_cons.mp hroot).1⟩

theorem S5Pattern.before {n j : Nat} {pfx : List (BitVec 8)} (hpfx : pfx ∈ namePrefixes) (h : Holds aml n (s5Name pfx))
    (hj : j < n + 1 + pfx.length) (hp : S5Pattern aml j) : ∃ m < n, ∃ pfx ∈ namePrefixes, Holds aml m (s5Name pfx) := by
  obtain ⟨m, pfx', hpfx', hm, hholds⟩ := hp.holds
  refine ⟨m, ?_, pfx', hpfx', hholds⟩
  by_contra hge
  -- the pattern could only start at the prefix itself, which is not the first character of the name
  have hnot {c : BitVec 8} (hn : Holds aml n (s5Name [c])) (hc : c ≠ 0x5F) (hj : j = n + 1) : False := by
    subst hj
    exact hc ((holds_cons.mp (holds_cons.mp hn).2).1.symm.trans hp.name.1)
  simp only [namePrefixes, List.mem_cons, List.not_mem_nil, or_false] at hpfx
  rcases hpfx with rfl | rfl | rfl
  · rw [List.length_nil] at hj
    omega
  · rw [List.length_singleton] at hj
    exact hnot h (by decide) (by omega)
  · rw [List.length_singleton] at hj
    exact hnot h (by decide) (by omega)

theorem scan_finds {amlLen : BitVec 32} {n : Nat} {types : BitVec 8 × BitVec 8} (hlen : Fits amlLen)
    (hn : n + 7 < amlLen.toNat) (before : ∀ j < n, ¬S5Pattern aml j)
    (found : ∀ i : BitVec 32, i.toNat = n → Logged.Finds (fun t => t = types) (s5At aml amlLen i)) :
    (Logged.loop (scanStep aml amlLen) (amlLen.toNat + 1) 0).value = some (some types) := by
  have hfits := hlen
  unfold Fits at hlen
  have hfound (i : BitVec 32) (hi : i.toNat = n) : (scanStep aml amlLen i).value = .inr (some types) := by
    obtain ⟨t, ht, rfl⟩ := found i hi
    rw [value_scanStep (by omega), if_pos (by omega), ht]
  -- the scan is at `n` or before it, where it goes on
  obtain ⟨-, r, hr, rfl⟩ := Logged.loop_ends (P := fun _ => True) (I := fun i : BitVec 32 => i.toNat ≤ n)
    (Q := fun r => r = some types)
    (fun i => amlLen.toNat - i.toNat) (show (0 : BitVec 32).toNat ≤ n from Nat.zero_le n)
      (show amlLen.toNat - 0 < amlLen.toNat + 1 by omega)
    (fun _ _ _ _ => trivial)
    (fun i i' hi hs => by
      obtain ⟨hi', -, -⟩ := scanStep_next hfits (show i.toNat < amlLen.toNat by omega) hs
      rcases Nat.lt_or_eq_of_le hi with hlt | heq
      · omega
      · rw [hfound i heq] at hs
        cases hs)
    (fun i r hi hs => by
      rcases Nat.lt_or_eq_of_le hi with hlt | heq
      · have hnone : (s5At aml amlLen i).run.value = none :=
          Option.eq_none_iff_forall_ne_some.mpr fun t ht => before _ hlt ((sat_s5At hfits (by omega)).2 t ht)
        rw [value_scanStep (by omega), if_pos (by omega), hnone] at hs
        cases hs
      · rw [hfound i heq] at hs
        exact (Sum.inr.inj hs).symm)
  exact hr

/-- The AML bytes `pre`, then the first named package `_S5_` with the numbers `a` and `b`, and more bytes. -/
structure S5Stream (aml : List (BitVec 8)) (a b : BitVec 8) (pre pfx pkg ea eb rest : List (BitVec 8))
    (num : BitVec 8) : Prop where
  named : pfx ∈ namePrefixes
  packed : PkgLength pkg
  fst : Encodes ea a
  snd : Encodes eb b
  bytes : aml = pre ++ s5Name pfx ++ pkg ++ num :: ea ++ eb ++ rest
  first : ∀ j < pre.length, ∀ pfx ∈ namePrefixes, ¬s5Name pfx <+: aml.drop j

section Stream
variable {bytes : Nat → BitVec 8} {amlLen : BitVec 32} {aml pre pfx pkg ea eb rest : List (BitVec 8)}
  {num a b : BitVec 8}

theorem S5Stream.length (h : S5Stream aml a b pre pfx pkg ea eb rest num) :
    aml.length = pre.length + (pfx.length + 6) + pkg.length + 1 + ea.length + eb.length + rest.length ∧
      0 < pkg.length ∧ 0 < ea.length ∧ 0 < eb.length := by
  refine ⟨?_, ?_, h.fst.length_pos, h.snd.length_pos⟩
  · rw [h.bytes]
    simp only [List.length_append, List.length_cons, length_s5Name]
    omega
  · cases h.packed
    exact Nat.succ_pos _

theorem S5Stream.scan (h : S5Stream aml a b pre pfx pkg ea eb rest num) (hfits : Fits amlLen)
    (hlen : amlLen.toNat = aml.length) (hbytes : Holds bytes 0 aml) :
    (Logged.loop (scanStep bytes amlLen) (amlLen.toNat + 1) 0).value = some (some (a, b)) := by
  obtain ⟨hcount, hpkg, hea, heb⟩ := h.length
  have hparts : aml = pre ++ s5Name pfx ++ (pkg ++ num :: ea ++ eb) ++ rest := by
    rw [h.bytes]
    simp only [List.append_assoc]
  have hsplit := hbytes
  rw [hparts] at hsplit
  obtain ⟨hhead, hbody⟩ := holds_append.mp (holds_append.mp hsplit).1
  have hname := (holds_append.mp hhead).2
  rw [Nat.zero_add] at hname
  have hpattern := S5Pattern.of_holds h.named hname
  rw [Nat.zero_add, List.length_append, length_s5Name,
    show pre.length + (pfx.length + 6) = pre.length + 1 + pfx.length + 5 by omega] at hbody
  refine scan_finds hfits (n := pre.length + 1 + pfx.length) (by omega) (fun j hj hp => ?_) fun i hi =>
    finds_s5At hfits (hi.symm ▸ hpattern) h.packed h.fst h.snd (hi.symm ▸ hbody) (by omega)
  obtain ⟨m, hm, pfx', hpfx', hbefore⟩ := hp.before h.named hname hj
  refine h.first m hm pfx' hpfx' (prefix_of_holds hbytes hbefore ?_)
  have hshort : pfx'.length ≤ 1 := (show ∀ pfx ∈ namePrefixes, pfx.length ≤ 1 by decide) pfx' hpfx'
  rw [length_s5Name]
  omega

theorem S5Stream.extract (h : S5Stream aml a b pre pfx pkg ea eb rest num) {dsdt : Nat → BitVec 8} {dsdtLen : BitVec 32}
    (hlen : dsdtLen.toNat = 36 + aml.length) (hbytes : Holds dsdt 36 aml) (outs : BitVec 16 × BitVec 16) :
    (amlExtractS5Types (some dsdt) dsdtLen outs).value = some (true, a.setWidth 16, b.setWidth 16) := by
  obtain ⟨hcount, hpkg, hea, heb⟩ := h.length
  have hlong : ¬dsdtLen.toNat < 36 + 8 := by omega
  have hlt := dsdtLen.isLt
  have hamlLen : (minus dsdtLen 36).value.toNat = aml.length := by
    rw [toNat_amlLen hlong, hlen, Nat.add_sub_cancel_left]
  have hscan := h.scan (show Fits (minus dsdtLen 36).value by unfold Fits; omega) hamlLen (holds_shift.mpr hbytes)
  unfold amlExtractS5Types
  dsimp only
  rw [if_neg hlong]
  simp only [Logged.value_bind, hscan]
  rfl

end Stream

/-- For every AML stream with a named package `_S5_` and no such name and `PackageOp` before it, the scan decodes the
    two numbers that its package starts with. -/
theorem aml_extract_s5_types_decodes {header pre pfx pkg ea eb rest aml : List (BitVec 8)} {num a b : BitVec 8}
    (hheader : header.length = 36) (hpfx : pfx ∈ namePrefixes) (hpkg : PkgLength pkg) (ha : Encodes ea a)
    (hb : Encodes eb b) (haml : aml = pre ++ s5Name pfx ++ pkg ++ num :: ea ++ eb ++ rest)
    (hlen : header.length + aml.length < 2 ^ 32)
    (hfirst : ∀ j < pre.length, ∀ pfx ∈ namePrefixes, ¬s5Name pfx <+: aml.drop j) (outs : BitVec 16 × BitVec 16) :
    (amlExtractS5Types (some fun k => (header ++ aml).getD k 0) (BitVec.ofNat 32 (header ++ aml).length) outs).value =
      some (true, a.setWidth 16, b.setWidth 16) := by
  refine S5Stream.extract ⟨hpfx, hpkg, ha, hb, haml, hfirst⟩ ?_ (fun k hk => ?_) outs
  · rw [BitVec.toNat_ofNat, List.length_append, Nat.mod_eq_of_lt hlen, hheader]
  · rw [List.getD_eq_getElem?_getD, List.getElem?_append_right (by omega), hheader, Nat.add_sub_cancel_left,
      List.getElem?_eq_getElem hk, Option.getD_some]

/-- A name that breaks off, then the package with a length of two bytes, the types 5 (a byte) and 7 (a word) and a
    third element. -/
theorem aml_extract_s5_types_decodes_rooted : (amlExtractS5Types
    (some fun k => (List.replicate 36 0 ++ [0x08, 0x5F, 0x53, 0x08, 0x5C, 0x5F, 0x53, 0x35, 0x5F, 0x12, 0x48, 0x00,
      0x03, 0x0A, 5, 0x0B, 7, 0, 0x00] :
      List (BitVec 8)).getD k 0) 55 (0, 0)).value = some (true, 5, 7) :=
  aml_extract_s5_types_decodes rfl (show [0x5C] ∈ namePrefixes by decide) (show PkgLength [0x48, 0x00] from ⟨rfl⟩)
    (.byte 5) (.word 7)
    (show _ = [0x08, 0x5F, 0x53] ++ s5Name [0x5C] ++ [0x48, 0x00] ++ 0x03 :: [0x0A, 5] ++ [0x0B, 7,
      0] ++ [0x00] from rfl)
    (by decide) (by decide) (0, 0)

end Acpi
end SamOS
