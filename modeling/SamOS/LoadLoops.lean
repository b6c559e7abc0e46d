import SamOS.Elf
import SamOS.Lib.Loop

/-! The loops of `load_elf_into_as` over any two bodies, `page` for the pages of a segment and `byte` for its file
    bytes. What the bodies do at the points that a load comes to is carried over to the load by the rules here. -/

namespace SamOS
open Result Loop

namespace Image
variable {img : Image} {i j : Nat}

/-- The loop goes on behind header `i`: it is not a segment, or its checks pass. -/
def Accepts (img : Image) (i : Nat) : Prop := (img.phdr i).type = 1 → (img.phdr i).ok img.size = true

/-- Header `i` is that of a segment whose checks pass. -/
def Segment (img : Image) (i : Nat) : Prop := (img.phdr i).type = 1 ∧ (img.phdr i).ok img.size = true

/-- The checks before header `i` let the loop come to it. -/
def ComesTo (img : Image) (i : Nat) : Prop := img.headerOk = true ∧ i < img.phnum ∧ ∀ j < i, img.Accepts j

theorem ComesTo.le (hc : img.ComesTo i) (hj : j ≤ i) : img.ComesTo j :=
  ⟨hc.1, Nat.lt_of_le_of_lt hj hc.2.1, fun n hn => hc.2.2 n (Nat.lt_of_lt_of_le hn hj)⟩

section Loops
variable {σ : Type} (page byte : Nat → Nat → σ → Except String (Bool × σ))

/-- The loop body for header `i`. -/
def loadHeader (img : Image) (i : Nat) (s : σ) : Except String (Bool × σ) :=
  if (img.phdr i).type ≠ 1 then .ok (true, s)
  else if ¬(img.phdr i).ok img.size then .ok (false, s)
  else do
    let (ok, s) ← forWhile (page i) 0 (img.phdr i).pages s
    if ok then forWhile (byte i) 0 (img.phdr i).filesz s else .ok (false, s)

/-- The checks of the file header and the loop over the program headers. -/
def load (img : Image) (s : σ) : Except String (Bool × σ) :=
  if ¬img.headerOk then .ok (false, s) else forWhile (img.loadHeader page byte) 0 img.phnum s

/-! ### The points of a load -/

/-- The loop over the program headers comes to header `i`. -/
def AtHeader (img : Image) (s : σ) (i : Nat) (t : σ) : Prop :=
  img.headerOk = true ∧ Reaches (img.loadHeader page byte) 0 img.phnum s i t

/-- The loop over the pages of segment `i` comes to page `j`. -/
def AtPage (img : Image) (s : σ) (i j : Nat) (t : σ) : Prop :=
  ∃ t₀, img.AtHeader page byte s i t₀ ∧ img.Segment i ∧ Reaches (page i) 0 (img.phdr i).pages t₀ j t

/-- The loop over the file bytes of segment `i` comes to byte `off`. -/
def AtByte (img : Image) (s : σ) (i off : Nat) (t : σ) : Prop :=
  ∃ t₀ t₁, img.AtHeader page byte s i t₀ ∧ img.Segment i ∧ forWhile (page i) 0 (img.phdr i).pages t₀ = .ok (true, t₁) ∧
    Reaches (byte i) 0 (img.phdr i).filesz t₁ off t

variable {page byte} {s s' t t' : σ} {b : Bool}

/-- What the body does at a header: it goes on, it rejects the header, or it is through with one loop or both. -/
theorem loadHeader_cases (h : img.loadHeader page byte i t = .ok (b, t')) :
    ((img.phdr i).type ≠ 1 ∧ b = true ∧ t' = t) ∨ (¬img.Accepts i ∧ b = false ∧ t' = t) ∨
    (img.Segment i ∧ b = false ∧ forWhile (page i) 0 (img.phdr i).pages t = .ok (false, t')) ∨
    (img.Segment i ∧ ∃ t₁, forWhile (page i) 0 (img.phdr i).pages t = .ok (true, t₁) ∧
      forWhile (byte i) 0 (img.phdr i).filesz t₁ = .ok (b, t')) := by
  unfold loadHeader at h
  split at h
  · rename_i htype
    cases h
    exact .inl ⟨htype, rfl, rfl⟩
  rename_i htype
  split at h
  · rename_i hok
    cases h
    exact .inr (.inl ⟨fun hacc => hok (hacc (not_not.mp htype)), rfl, rfl⟩)
  rename_i hok
  have hseg : img.Segment i := ⟨not_not.mp htype, not_not.mp hok⟩
  obtain ⟨⟨ok, t₁⟩, hpages, h⟩ := of_bind_eq_ok h
  dsimp only at h
  cases ok with
  | false =>
    obtain ⟨rfl, rfl⟩ := Prod.mk.inj (Except.ok.inj h)
    exact .inr (.inr (.inl ⟨hseg, rfl, hpages⟩))
  | true =>
    rw [if_pos rfl] at h
    exact .inr (.inr (.inr ⟨hseg, t₁, hpages, h⟩))

theorem accepts_of_loadHeader (h : img.loadHeader page byte i t = .ok (true, t')) : img.Accepts i := by
  rcases loadHeader_cases h with ⟨htype, -⟩ | ⟨-, hb, -⟩ | ⟨hseg, -⟩ | ⟨hseg, -⟩
  · exact fun h => absurd h htype
  · cases hb
  all_goals exact fun _ => hseg.2

theorem loadHeader_segment (ht : (img.phdr i).type = 1) (h : img.loadHeader page byte i t = .ok (true, t')) :
    img.Segment i ∧ ∃ t₁, forWhile (page i) 0 (img.phdr i).pages t = .ok (true, t₁) ∧
      forWhile (byte i) 0 (img.phdr i).filesz t₁ = .ok (true, t') := by
  rcases loadHeader_cases h with ⟨hne, -⟩ | ⟨-, hb, -⟩ | ⟨-, hb, -⟩ | hseg
  · exact absurd ht hne
  · cases hb
  · cases hb
  · exact hseg

theorem AtHeader.comesTo (h : img.AtHeader page byte s i t) : img.ComesTo i := by
  refine ⟨h.1, by have := h.2.2.1; omega, ?_⟩
  refine h.2.invariant (P := fun n _ => ∀ j < n, img.Accepts j) (fun j hj => absurd hj (Nat.not_lt_zero j))
    fun n u u' _ hn hu j hj => ?_
  rcases Nat.lt_succ_iff_lt_or_eq.mp hj with hj | rfl
  · exact hn j hj
  · exact accepts_of_loadHeader hu

/-- A load that succeeds comes to every header and accepts it. -/
theorem accepts_of_load (h : img.load page byte s = .ok (true, s')) :
    img.headerOk = true ∧ forWhile (img.loadHeader page byte) 0 img.phnum s = .ok (true, s') ∧
      ∀ i < img.phnum, img.Accepts i := by
  unfold load at h
  split at h
  · cases h
  rename_i hok
  refine ⟨not_not.mp hok, h, fun i hi => ?_⟩
  obtain ⟨u, u', -, hu⟩ := forWhile_reaches h (Nat.zero_le i) (by omega)
  exact accepts_of_loadHeader hu

theorem comesTo_of_load (h : img.load page byte s = .ok (true, s')) (hi : i < img.phnum) (ht : (img.phdr i).type = 1) :
    img.ComesTo i ∧ img.Segment i := by
  obtain ⟨hok, -, hacc⟩ := accepts_of_load h
  exact ⟨⟨hok, hi, fun j hj => hacc j (by omega)⟩, ht, hacc i hi ht⟩

/-- A load that succeeds comes to every page of its segments. -/
theorem exists_atPage (h : img.load page byte s = .ok (true, s')) (hi : i < img.phnum) (ht : (img.phdr i).type = 1)
    (hj : j < (img.phdr i).pages) : ∃ t t', img.AtPage page byte s i j t ∧ page i j t = .ok (true, t') := by
  obtain ⟨hok, h, -⟩ := accepts_of_load h
  obtain ⟨t, t', hat, hl⟩ := forWhile_reaches h (Nat.zero_le i) (by omega)
  obtain ⟨hseg, t₁, hpages, -⟩ := loadHeader_segment ht hl
  obtain ⟨u, u', hr, hu⟩ := forWhile_reaches hpages (Nat.zero_le j) (by omega)
  exact ⟨u, u', ⟨t, ⟨hok, hat⟩, hseg, hr⟩, hu⟩

/-- A load that succeeds comes to every file byte of its segments. -/
theorem exists_atByte (h : img.load page byte s = .ok (true, s')) (hi : i < img.phnum) (ht : (img.phdr i).type = 1)
    (hj : j < (img.phdr i).filesz) : ∃ t t', img.AtByte page byte s i j t ∧ byte i j t = .ok (true, t') := by
  obtain ⟨hok, h, -⟩ := accepts_of_load h
  obtain ⟨t, t', hat, hl⟩ := forWhile_reaches h (Nat.zero_le i) (by omega)
  obtain ⟨hseg, t₁, hpages, hbytes⟩ := loadHeader_segment ht hl
  obtain ⟨u, u', hr, hu⟩ := forWhile_reaches hbytes (Nat.zero_le j) (by omega)
  exact ⟨u, u', ⟨t, t₁, ⟨hok, hat⟩, hseg, hpages, hr⟩, hu⟩

/-! ### Rules -/

/-- Both bodies keep `P` at the points of the load. -/
structure Keeps (page byte : Nat → Nat → σ → Except String (Bool × σ)) (img : Image) (s : σ) (P : σ → Prop) : Prop where
  onPage : ∀ i j t b t', img.AtPage page byte s i j t → P t → page i j t = .ok (b, t') → P t'
  onByte : ∀ i off t b t', img.AtByte page byte s i off t → P t → byte i off t = .ok (b, t') → P t'

namespace Keeps
variable {P : σ → Prop}

theorem loadHeader (hk : Keeps page byte img s P) (hat : img.AtHeader page byte s i t) (ht : P t)
    (h : img.loadHeader page byte i t = .ok (b, t')) : P t' := by
  rcases loadHeader_cases h with ⟨-, -, rfl⟩ | ⟨-, -, rfl⟩ | ⟨hseg, -, hpages⟩ | ⟨hseg, t₁, hpages, hbytes⟩
  · exact ht
  · exact ht
  · exact forWhile_keeps hpages ht fun j u c u' hu => hk.onPage i j u c u' ⟨t, hat, hseg, hu⟩
  · have h₁ : P t₁ := forWhile_keeps hpages ht fun j u c u' hu => hk.onPage i j u c u' ⟨t, hat, hseg, hu⟩
    exact forWhile_keeps hbytes h₁ fun off u c u' hu => hk.onByte i off u c u' ⟨t, t₁, hat, hseg, hpages, hu⟩

theorem atHeader (hk : Keeps page byte img s P) (hs : P s) (hat : img.AtHeader page byte s i t) : P t :=
  hat.2.invariant (P := fun _ => P) hs fun _ _ _ hj hu => hk.loadHeader ⟨hat.1, hj⟩ hu

theorem atPage (hk : Keeps page byte img s P) (hs : P s) (hat : img.AtPage page byte s i j t) : P t := by
  obtain ⟨t₀, h₀, hseg, hr⟩ := hat
  exact hr.invariant (P := fun _ => P) (hk.atHeader hs h₀) fun n u u' hn => hk.onPage i n u true u' ⟨t₀, h₀, hseg, hn⟩

theorem atByte (hk : Keeps page byte img s P) (hs : P s) (hat : img.AtByte page byte s i j t) : P t := by
  obtain ⟨t₀, t₁, h₀, hseg, hpages, hr⟩ := hat
  have h₁ : P t₁ := forWhile_keeps hpages (hk.atHeader hs h₀) fun n u c u' hu => hk.onPage i n u c u' ⟨t₀, h₀, hseg, hu⟩
  exact hr.invariant (P := fun _ => P) h₁ fun n u u' hn => hk.onByte i n u true u' ⟨t₀, t₁, h₀, hseg, hpages, hn⟩

theorem load (hk : Keeps page byte img s P) (hs : P s) (h : img.load page byte s = .ok (b, s')) : P s' := by
  unfold Image.load at h
  split at h
  · cases h
    exact hs
  · rename_i hok
    exact forWhile_keeps h hs fun n u c u' hu => hk.loadHeader ⟨not_not.mp hok, hu⟩

theorem visitsPage (hk : Keeps page byte img s P) (hi : i < img.phnum) (ht : (img.phdr i).type = 1)
    (hj : j < (img.phdr i).pages) (visit : ∀ t t', img.AtPage page byte s i j t → page i j t = .ok (true, t') → P t')
    (h : img.load page byte s = .ok (true, s')) : P s' := by
  obtain ⟨hok, h, -⟩ := accepts_of_load h
  refine forWhile_visits h (Nat.zero_le i) (by omega) (fun t t' hat hl => ?_) fun n t t' hat => hk.loadHeader ⟨hok, hat⟩
  obtain ⟨hseg, t₁, hpages, hbytes⟩ := loadHeader_segment ht hl
  have h₁ : P t₁ := forWhile_visits hpages (Nat.zero_le j) (by omega)
    (fun u u' hu => visit u u' ⟨t, ⟨hok, hat⟩, hseg, hu⟩)
    fun n u u' hu => hk.onPage i n u true u' ⟨t, ⟨hok, hat⟩, hseg, hu⟩
  exact forWhile_keeps hbytes h₁ fun n u c u' hu => hk.onByte i n u c u' ⟨t, t₁, ⟨hok, hat⟩, hseg, hpages, hu⟩

theorem visitsByte (hk : Keeps page byte img s P) (hi : i < img.phnum) (ht : (img.phdr i).type = 1)
    (hj : j < (img.phdr i).filesz) (visit : ∀ t t', img.AtByte page byte s i j t → byte i j t = .ok (true, t') → P t')
    (h : img.load page byte s = .ok (true, s')) : P s' := by
  obtain ⟨hok, h, -⟩ := accepts_of_load h
  refine forWhile_visits h (Nat.zero_le i) (by omega) (fun t t' hat hl => ?_) fun n t t' hat => hk.loadHeader ⟨hok, hat⟩
  obtain ⟨hseg, t₁, hpages, hbytes⟩ := loadHeader_segment ht hl
  exact forWhile_visits hbytes (Nat.zero_le j) (by omega)
    (fun u u' hu => visit u u' ⟨t, t₁, ⟨hok, hat⟩, hseg, hpages, hu⟩)
    fun n u u' hu => hk.onByte i n u true u' ⟨t, t₁, ⟨hok, hat⟩, hseg, hpages, hu⟩

end Keeps

theorem load_simulates {τ : Type} {page' byte' : Nat → Nat → τ → Except String (Bool × τ)} {R : σ → τ → Prop} {u : τ}
    (h : R s u)
    (hpage : ∀ i j t v, img.AtPage page byte s i j t → R t v → Simulates id (fun _ => R) (page i j t) (page' i j v))
    (hbyte : ∀ i off t v, img.AtByte page byte s i off t → R t v → Simulates id (fun _ => R) (byte i off t)
      (byte' i off v)) :
    Simulates id (fun _ => R) (img.load page byte s) (img.load page' byte' u) := by
  unfold load
  split
  · exact .ok h
  rename_i hok
  refine Simulates.forWhile h fun i t v hat htv => ?_
  have hat : img.AtHeader page byte s i t := ⟨not_not.mp hok, hat⟩
  unfold loadHeader
  split
  · exact .ok htv
  rename_i htype
  split
  · exact .ok htv
  rename_i hok
  have hseg : img.Segment i := ⟨not_not.mp htype, not_not.mp hok⟩
  have hpages := Simulates.forWhile htv fun j t' v' hj => hpage i j t' v' ⟨t, hat, hseg, hj⟩
  generalize hx : forWhile (page i) 0 (img.phdr i).pages t = x at hpages
  generalize forWhile (page' i) 0 (img.phdr i).pages v = y at hpages
  cases hpages with
  | error => exact .error
  | @ok ok t₁ v₁ h₁ =>
    cases ok with
    | false => exact .ok h₁
    | true =>
      simp only [bind, Except.bind, id, if_true]
      exact Simulates.forWhile h₁ fun off t' v' hoff => hbyte i off t' v' ⟨t, t₁, hat, hseg, hx, hoff⟩

/-- The segments of an image applied one after the other, page by page and byte by byte. -/
def fold {γ : Type} (img : Image) (page byte : Nat → Nat → γ → γ) (c : γ) : γ :=
  forRange 0 img.phnum (fun i c => if (img.phdr i).type = 1 then
    forRange 0 (img.phdr i).filesz (byte i) (forRange 0 (img.phdr i).pages (page i) c) else c) c

variable {γ : Type}

theorem fold_map {δ : Type} {π : γ → δ} {page byte : Nat → Nat → γ → γ} {page' byte' : Nat → Nat → δ → δ}
    (hp : ∀ i j c, π (page i j c) = page' i j (π c)) (hb : ∀ i off c, π (byte i off c) = byte' i off (π c))
    (img : Image) (c : γ) :
    π (img.fold page byte c) = img.fold page' byte' (π c) := by
  refine forRange_map (fun i c => ?_) 0 img.phnum c
  split
  · rw [forRange_map (hb i), forRange_map (hp i)]
  · rfl

theorem forWhile_fold {R : σ → γ → Prop} {f : Nat → σ → Except String (Bool × σ)} {g : Nat → γ → γ} {n : Nat} {c : γ}
    (h : forWhile f 0 n s = .ok (true, s')) (hs : R s c)
    (step : ∀ i t t' c, Reaches f 0 n s i t → R t c → f i t = .ok (true, t') → R t' (g i c)) :
    R s' (forRange 0 n g c) := by
  have hinv := forWhile_points (P := fun i t => R t (forRange 0 i g c)) (Q := fun _ => True) h
    (by rw [forRange_of_le (Nat.le_refl 0)]; exact hs) (fun i t t' hi ht hf => ?_) fun _ _ _ _ _ _ => trivial
  · rwa [if_pos rfl, Nat.zero_add] at hinv
  · rw [forRange_succ (Nat.zero_le i)]
    exact step i t t' _ hi ht hf

theorem load_fold {R : σ → γ → Prop} {pageOn byteOn : Nat → Nat → γ → γ} {c : γ}
    (h : img.load page byte s = .ok (true, s')) (hs : R s c)
    (hpage : ∀ i j t t' c, img.AtPage page byte s i j t → R t c → page i j t = .ok (true, t') → R t' (pageOn i j c))
    (hbyte : ∀ i off t t' c, img.AtByte page byte s i off t → R t c → byte i off t = .ok (true, t') →
      R t' (byteOn i off c)) :
    R s' (img.fold pageOn byteOn c) := by
  obtain ⟨hok, h, -⟩ := accepts_of_load h
  refine forWhile_fold h hs fun i t t' c hat ht hl => ?_
  rcases loadHeader_cases hl with ⟨hne, -, rfl⟩ | ⟨-, hb, -⟩ | ⟨-, hb, -⟩ | ⟨hseg, t₁, hpages, hbytes⟩
  · rw [if_neg hne]
    exact ht
  · cases hb
  · cases hb
  rw [if_pos hseg.1]
  refine forWhile_fold hbytes (forWhile_fold hpages ht fun j u u' c hu => hpage i j u u' c ⟨t, ⟨hok, hat⟩, hseg, hu⟩) ?_
  exact fun off u u' c hu => hbyte i off u u' c ⟨t, t₁, ⟨hok, hat⟩, hseg, hpages, hu⟩

end Loops
end Image

/-! ### The loader -/

namespace Machine

/-- The body of the loop over the pages of segment `i`. -/
def pageBody (as : AsPtr) (img : Image) (i j : Nat) (s : Machine) : Except String (Bool × Machine) :=
  s.loadPage as (img.phdr i).mapFlags ((img.phdr i).segStart + j * 4096)

/-- The body of the loop over the file bytes of segment `i`. -/
def byteBody (as : AsPtr) (img : Image) (i off : Nat) (s : Machine) : Except String (Bool × Machine) :=
  s.loadByte img as (img.phdr i) off

theorem loadElfIntoAs_eq {as : AsPtr} (has : as ≠ .null) (s : Machine) (img : Image) : s.loadElfIntoAs as img =
    img.load (pageBody as img) (byteBody as img) s >>= fun (ok, s) => .ok (if ok then some img.entry else none, s) := by
  unfold loadElfIntoAs Image.load
  by_cases hok : img.headerOk = true
  · rw [if_neg (not_or_intro has (not_not_intro hok)), if_neg (not_not_intro hok)]
    rfl
  · rw [if_pos (.inr hok), if_pos hok]
    rfl

section
variable {s s' : Machine} {as : AsPtr} {img : Image}

theorem load_of_loadElfIntoAs (has : as ≠ .null) {entry : Option Nat} (h : s.loadElfIntoAs as img = .ok (entry, s')) :
    img.load (pageBody as img) (byteBody as img) s = .ok (entry.isSome, s') := by
  rw [loadElfIntoAs_eq has] at h
  obtain ⟨⟨ok, t⟩, hl, h⟩ := of_bind_eq_ok h
  obtain ⟨rfl, rfl⟩ := Prod.mk.inj (Except.ok.inj h)
  cases ok <;> exact hl

theorem load_of_some {entry : Nat} (h : s.loadElfIntoAs as img = .ok (some entry, s')) :
    entry = img.entry ∧ img.load (pageBody as img) (byteBody as img) s = .ok (true, s') := by
  by_cases has : as = .null
  · rw [loadElfIntoAs, if_pos (.inl has)] at h
    cases h
  refine ⟨?_, load_of_loadElfIntoAs has h⟩
  rw [loadElfIntoAs_eq has] at h
  obtain ⟨⟨ok, t⟩, -, h⟩ := of_bind_eq_ok h
  have hentry := (Prod.mk.inj (Except.ok.inj h)).1
  cases ok with
  | false => cases hentry
  | true => exact (Option.some.inj hentry).symm

end

end Machine
end SamOS
