import SamOS.LineEditor

/-! The commands of the shell: which one `process_command` makes of the input line, and the calls to the process table
    that `kill` and `wait` make. Numbers are read in 64 bits and passed on as `int`. -/

namespace SamOS
open CString

/-- The characters of a text. -/
def ascii (text : String) : List (BitVec 8) := text.toList.map fun c => BitVec.ofNat 8 c.toNat

/-! ### Reading the line -/

def strPrefix : List (BitVec 8) → List (BitVec 8) → Bool
  | _, [] => true
  | [], _ :: _ => false
  | c :: s, p :: rest => if c ≠ p then false else strPrefix s rest

def skipSpaces : List (BitVec 8) → List (BitVec 8)
  | [] => []
  | c :: s => if c = 0x20#8 then skipSpaces s else c :: s

/-- `*s >= '0' && *s <= '9'`. -/
def isDigit (c : BitVec 8) : Bool := 0x30 ≤ c.toInt && c.toInt ≤ 0x39

/-- The loop of `parse_u64`, with `v` and `any`. -/
def parseDigits (v : BitVec 64) (any : Bool) : List (BitVec 8) → BitVec 64 × Bool
  | [] => (v, any)
  | c :: s => if isDigit c then parseDigits (v * 10 + BitVec.ofInt 64 (c.toInt - 0x30)) true s else (v, any)

def parseU64 (s : List (BitVec 8)) : Option (BitVec 64) :=
  if skipSpaces s = [] then none
  else
    let (v, any) := parseDigits 0 false (skipSpaces s)
    if any then some v else none

/-- What `process_command` does with the line. -/
inductive Command where
  | help | clear | ticks | about | sched | schedcheck | spawnh | spawnb | ps
  | killUsage
  | kill (pid code : BitVec 64)
  | waitUsage
  | wait (pid : BitVec 64)
  | time | irq | irqstat | clocksrc | memstat | uptime | status
  | dmesgLite (n : BitVec 64)
  | watchIrq | watchSched | watchUsage
  | hw | shutdown | paniclast
  | unknown
  | nothing
  deriving DecidableEq, Repr

namespace Command

/-- `kstrcmp(input_buf, text) == 0` for the texts of a table, in its order. -/
def lookup (table : List (String × Command)) (line : List (BitVec 8)) : Option Command :=
  (table.find? fun entry => ascii entry.1 = line).map Prod.snd

/-- The commands that are compared before `kill`. -/
def beforeKill : List (String × Command) :=
  [("help", help), ("clear", clear), ("ticks", ticks), ("about", about), ("sched", sched), ("schedcheck", schedcheck),
    ("spawnh", spawnh), ("spawnb", spawnb), ("ps", ps)]

/-- The commands between `wait` and `dmesg-lite`. -/
def afterWait : List (String × Command) :=
  [("time", time), ("irq", irq), ("irqstat", irqstat), ("clocksrc", clocksrc), ("memstat", memstat),
    ("uptime", uptime), ("status", status)]

/-- The commands after `watch`. -/
def afterWatch : List (String × Command) := [("hw", hw), ("shutdown", shutdown), ("paniclast", paniclast)]

/-- `kill`, from the text after it. -/
def ofKill (args : List (BitVec 8)) : Command :=
  let rest := skipSpaces args
  match parseU64 rest with
  | none => killUsage
  | some pid =>
    let rest := rest.dropWhile (· ≠ 0x20#8)
    kill pid (if rest.head? = some 0x20#8 then (parseU64 rest).getD 137 else 137)

/-- `wait`, from the text after it. -/
def ofWait (args : List (BitVec 8)) : Command := (parseU64 (skipSpaces args)).elim waitUsage wait

/-- `dmesg-lite`, from the text after it. -/
def ofDmesg (args : List (BitVec 8)) : Command := dmesgLite ((parseU64 (skipSpaces args)).getD 32)

/-- `watch`, from the text after it. -/
def ofWatch (args : List (BitVec 8)) : Command :=
  (lookup [("irq", watchIrq), ("sched", watchSched)] (skipSpaces args)).getD watchUsage

/-- The comparisons of `process_command`. -/
def ofLine (line : List (BitVec 8)) : Command :=
  (lookup beforeKill line).getD <|
  if strPrefix line (ascii "kill") then ofKill (line.drop 4)
  else if strPrefix line (ascii "wait") then ofWait (line.drop 4)
  else (lookup afterWait line).getD <|
  if strPrefix line (ascii "dmesg-lite") then ofDmesg (line.drop 10)
  else if strPrefix line (ascii "watch") then ofWatch (line.drop 5)
  else (lookup afterWatch line).getD <| if line ≠ [] then unknown else nothing

end Command

/-- The calls that a command makes to the process table. -/
inductive ProcessCall where
  | kill (pid code : Int)
  | waitPoll (pid : Int)
  deriving DecidableEq, Repr

/-- `(int)v`. -/
def toInt32 (v : BitVec 64) : Int := (v.setWidth 32).toInt

/-- `process_kill((int)pid, (int)code)`, and each `process_wait_poll((int)pid, &code)` of the loop. -/
def Command.call : Command → Option ProcessCall
  | .kill pid code => some (.kill (toInt32 pid) (toInt32 code))
  | .wait pid => some (.waitPoll (toInt32 pid))
  | _ => none

/-- The call that Enter makes. -/
def Shell.call (s : Shell) : Option ProcessCall := (Command.ofLine (read inputMax s.commandBuf)).call

/-- Enter makes no other call. -/
def Shell.CallsOnly (s : Shell) (call : ProcessCall) : Prop := ∀ call', s.call = some call' → call' = call

/-! ### Numerals -/

/-- A string of decimal digits. -/
structure Numeral where
  digits : List (BitVec 8)
  nonempty : digits ≠ []
  decimal : ∀ c ∈ digits, isDigit c = true

/-- The number with one more digit. -/
def appendDigit (n : Nat) (c : BitVec 8) : Nat := n * 10 + (c.toNat - 0x30)

/-- The number that the digits denote. -/
def Numeral.value (n : Numeral) : Nat := n.digits.foldl appendDigit 0

theorem digit_eq {c : BitVec 8} (h : isDigit c = true) :
    BitVec.ofInt 64 (c.toInt - 0x30) = BitVec.ofNat 64 (c.toNat - 0x30) := by
  revert c
  decide

theorem parseDigits_append {ds rest : List (BitVec 8)} (hds : ∀ c ∈ ds, isDigit c = true)
    (hrest : ∀ c ∈ rest.head?, isDigit c = false) (n : Nat) (any : Bool) :
    parseDigits (BitVec.ofNat 64 n) any (ds ++ rest) = (BitVec.ofNat 64 (ds.foldl appendDigit n),
      any || !ds.isEmpty) := by
  induction ds generalizing n any with
  | nil =>
    rw [List.nil_append, List.isEmpty_nil, Bool.not_true, Bool.or_false]
    cases rest with
    | nil => rfl
    | cons c rest =>
      unfold parseDigits
      rw [hrest c rfl, if_neg Bool.false_ne_true]
      rfl
  | cons c ds ih =>
    have hc := hds c List.mem_cons_self
    have hv : BitVec.ofNat 64 n * 10 + BitVec.ofNat 64 (c.toNat - 0x30) = BitVec.ofNat 64 (appendDigit n c) := by
      rw [appendDigit, BitVec.ofNat_add, BitVec.ofNat_mul]
      rfl
    rw [List.cons_append, parseDigits, if_pos hc, digit_eq hc, hv, ih (fun e he => hds e (List.mem_cons_of_mem c he)),
      List.foldl_cons, Bool.true_or, List.isEmpty_cons, Bool.not_false, Bool.or_true]

namespace Numeral
variable (n m : Numeral)

theorem skipSpaces_append (rest : List (BitVec 8)) : skipSpaces (n.digits ++ rest) = n.digits ++ rest := by
  obtain ⟨_ | ⟨c, ds⟩, hne, hds⟩ := n
  · exact absurd rfl hne
  · have hc : c ≠ 0x20#8 := by
      rintro rfl
      exact absurd (hds _ List.mem_cons_self) (by decide)
    exact if_neg hc

theorem parseU64_append (rest : List (BitVec 8)) (hrest : ∀ c ∈ rest.head?, isDigit c = false) :
    parseU64 (n.digits ++ rest) = some (BitVec.ofNat 64 n.value) := by
  have hne : n.digits ++ rest ≠ [] := List.append_ne_nil_of_left_ne_nil n.nonempty rest
  have hany : n.digits.isEmpty = false := List.isEmpty_eq_false_iff.mpr n.nonempty
  unfold parseU64
  rw [n.skipSpaces_append, if_neg hne, show (0 : BitVec 64) = BitVec.ofNat 64 0 from rfl,
    parseDigits_append n.decimal hrest, hany]
  rfl

theorem parseU64_space (s : List (BitVec 8)) : parseU64 (0x20#8 :: s) = parseU64 s := rfl

theorem dropWhile_digits (rest : List (BitVec 8)) :
    (n.digits ++ rest).dropWhile (· ≠ 0x20#8) = rest.dropWhile (· ≠ 0x20#8) := by
  refine List.dropWhile_append_of_pos fun c hc => ?_
  rw [decide_eq_true_eq]
  rintro rfl
  exact absurd (n.decimal _ hc) (by decide)

theorem ofKill_append (rest : List (BitVec 8)) (hrest : ∀ c ∈ rest.head?, isDigit c = false) :
    Command.ofKill (0x20#8 :: (n.digits ++ rest)) = .kill (BitVec.ofNat 64 n.value)
      (if (rest.dropWhile (· ≠ 0x20#8)).head? = some 0x20#8 then (parseU64 (rest.dropWhile (· ≠ 0x20#8))).getD 137
        else 137) := by
  have hskip : skipSpaces (0x20#8 :: (n.digits ++ rest)) = n.digits ++ rest := n.skipSpaces_append rest
  unfold Command.ofKill
  rw [hskip]
  dsimp only
  rw [n.parseU64_append rest hrest]
  dsimp only
  rw [n.dropWhile_digits]

theorem ofKill_pid : Command.ofKill (0x20#8 :: n.digits) = .kill (BitVec.ofNat 64 n.value) 137 := by
  have h := n.ofKill_append [] nofun
  rwa [List.append_nil] at h

theorem ofKill_code :
    Command.ofKill (0x20#8 :: (n.digits ++ 0x20#8 :: m.digits)) = .kill (BitVec.ofNat 64 n.value)
      (BitVec.ofNat 64 m.value) := by
  have hcode := m.parseU64_append [] nofun
  rw [List.append_nil] at hcode
  rw [n.ofKill_append (0x20#8 :: m.digits) (by rintro c ⟨rfl⟩; decide),
    show (0x20#8 :: m.digits).dropWhile (· ≠ 0x20#8) = 0x20#8 :: m.digits from rfl, parseU64_space, hcode]
  rfl

theorem ofWait_pid : Command.ofWait (0x20#8 :: n.digits) = .wait (BitVec.ofNat 64 n.value) := by
  have h := n.parseU64_append [] nofun
  rw [List.append_nil] at h
  have hskip := n.skipSpaces_append []
  rw [List.append_nil] at hskip
  have hspace : skipSpaces (0x20#8 :: n.digits) = n.digits := hskip
  unfold Command.ofWait
  rw [hspace, h]
  rfl

end Numeral

theorem toInt32_eq_iff (n : Nat) : toInt32 (BitVec.ofNat 64 n) = n ↔ n < 2 ^ 31 := by
  unfold toInt32
  rw [BitVec.toInt_eq_toNat_cond, BitVec.toNat_setWidth, BitVec.toNat_ofNat]
  split <;> omega

/-! ### The command of a line -/

theorem strPrefix_append (text args : List (BitVec 8)) : strPrefix (text ++ args) text = true := by
  induction text with
  | nil => rw [List.nil_append, strPrefix]
  | cons c text ih => exact (if_neg (fun h => h rfl)).trans ih

namespace Command

theorem lookup_eq_none {table : List (String × Command)} {c : BitVec 8} {line : List (BitVec 8)}
    (h : ∀ entry ∈ table, (ascii entry.1).head? ≠ some c) (hline : line.head? = some c) : lookup table line = none := by
  unfold lookup
  rw [Option.map_eq_none_iff, List.find?_eq_none]
  intro entry hentry heq
  rw [decide_eq_true_eq] at heq
  exact h entry hentry (heq ▸ hline)

theorem ofLine_kill (args : List (BitVec 8)) : ofLine (ascii "kill" ++ args) = ofKill args := by
  have hhead : (ascii "kill" ++ args).head? = some 0x6B#8 := rfl
  unfold ofLine
  rw [lookup_eq_none (by decide) hhead, strPrefix_append]
  rfl

theorem ofLine_wait (args : List (BitVec 8)) : ofLine (ascii "wait" ++ args) = ofWait args := by
  have hhead : (ascii "wait" ++ args).head? = some 0x77#8 := rfl
  have hkill : strPrefix (ascii "wait" ++ args) (ascii "kill") = false := rfl
  unfold ofLine
  rw [lookup_eq_none (by decide) hhead, hkill, strPrefix_append]
  rfl

end Command

theorem Shell.call_of_keys (keys : List (BitVec 8)) :
    (keys.foldl Shell.key .boot).call = (Command.ofLine (keys.foldl Shell.key .boot).line).call := by
  have hrefines := Shell.refines_of_keys keys
  unfold Shell.call
  rw [hrefines.holds_commandBuf.read_eq (Line.short _), hrefines.line]

theorem Shell.callsOnly_iff {s : Shell} {call call' : ProcessCall} (h : s.call = some call') :
    s.CallsOnly call ↔ call' = call := by
  unfold Shell.CallsOnly
  rw [h]
  exact ⟨fun hall => hall call' rfl, fun heq _ hsome => (Option.some.inj hsome).symm.trans heq⟩

/-- For every numeral and every sequence of keys that leaves the line: Enter calls the process table, and only with
    the numbers that were typed exactly if they fit an `int`. -/
theorem kill_wait_typed_pid_iff (n m : Numeral) (keys : List (BitVec 8)) :
    ((keys.foldl Shell.key .boot).line = ascii "kill " ++ n.digits →
      (keys.foldl Shell.key .boot).call.isSome ∧
      ((keys.foldl Shell.key .boot).CallsOnly (.kill n.value 137) ↔ n.value < 2 ^ 31)) ∧
    ((keys.foldl Shell.key .boot).line = ascii "kill " ++ n.digits ++ ascii " " ++ m.digits →
      (keys.foldl Shell.key .boot).call.isSome ∧
      ((keys.foldl Shell.key .boot).CallsOnly (.kill n.value m.value) ↔ n.value < 2 ^ 31 ∧ m.value < 2 ^ 31)) ∧
    ((keys.foldl Shell.key .boot).line = ascii "wait " ++ n.digits →
      (keys.foldl Shell.key .boot).call.isSome ∧
      ((keys.foldl Shell.key .boot).CallsOnly (.waitPoll n.value) ↔ n.value < 2 ^ 31)) := by
  have hcall := Shell.call_of_keys keys
  generalize keys.foldl Shell.key .boot = s at hcall
  refine ⟨fun hline => ?_, fun hline => ?_, fun hline => ?_⟩
  · have hkill : s.call = some (.kill (toInt32 (BitVec.ofNat 64 n.value)) 137) := by
      rw [hcall, hline, show ascii "kill " ++ n.digits = ascii "kill" ++ 0x20#8 :: n.digits from rfl,
        Command.ofLine_kill, n.ofKill_pid]
      rfl
    refine ⟨by rw [hkill]; rfl, ?_⟩
    rw [Shell.callsOnly_iff hkill, ← toInt32_eq_iff, ProcessCall.kill.injEq, and_iff_left rfl]
  · have hkill : s.call = some (.kill (toInt32 (BitVec.ofNat 64 n.value)) (toInt32 (BitVec.ofNat 64 m.value))) := by
      rw [hcall, hline, show ascii "kill " ++ n.digits ++ ascii " " ++ m.digits = ascii "kill" ++
        0x20#8 :: (n.digits ++ 0x20#8 :: m.digits) by
        rw [List.append_assoc, List.append_assoc]; rfl, Command.ofLine_kill, n.ofKill_code m]
      rfl
    refine ⟨by rw [hkill]; rfl, ?_⟩
    rw [Shell.callsOnly_iff hkill, ← toInt32_eq_iff, ← toInt32_eq_iff, ProcessCall.kill.injEq]
  · have hwait : s.call = some (.waitPoll (toInt32 (BitVec.ofNat 64 n.value))) := by
      rw [hcall, hline, show ascii "wait " ++ n.digits = ascii "wait" ++ 0x20#8 :: n.digits from rfl,
        Command.ofLine_wait, n.ofWait_pid]
      rfl
    refine ⟨by rw [hwait]; rfl, ?_⟩
    rw [Shell.callsOnly_iff hwait, ← toInt32_eq_iff, ProcessCall.waitPoll.injEq]

/-- `kill 3 7`. -/
theorem kill_typed_pid_three :
    ((ascii "kill 3 7").foldl Shell.key .boot).CallsOnly (.kill 3 7) := by
  have hline : ((ascii "kill 3 7").foldl Shell.key .boot).line = ascii "kill " ++ ascii "3" ++ ascii " " ++
    ascii "7" := by decide
  exact ((kill_wait_typed_pid_iff ⟨ascii "3", by decide, by decide⟩ ⟨ascii "7", by decide, by decide⟩ _).2.1
    hline).2.mpr (by decide)

/-- `4294967298`, which is 2 as an `int`. -/
def twoPastInt : Numeral := ⟨ascii "4294967298", by decide, by decide⟩

/-- `kill 4294967298` and `wait 4294967298` reach the process with the pid 2. -/
theorem kill_wait_other_pid : twoPastInt.value = 4294967298 ∧
    ((ascii "kill " ++ twoPastInt.digits).foldl Shell.key .boot).call = some (.kill 2 137) ∧
    ((ascii "wait " ++ twoPastInt.digits).foldl Shell.key .boot).call = some (.waitPoll 2) := by
  refine ⟨by decide, ?_, ?_⟩
  · rw [Shell.call_of_keys]
    decide
  · rw [Shell.call_of_keys]
    decide

end SamOS
