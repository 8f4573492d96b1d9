import KVStores.Redis.Protocol

/-!
# Loading the append only file

A file that is cut off, or is no list of commands, ends the server (`none`). That a transaction must not be open at the end is
left out.
-/

namespace KVStores.Redis.Aof

open List Option

open Protocol

def isspace (b : UInt8) : Bool := decide (b = 32 ∨ (9 ≤ b ∧ b ≤ 13))

/-- `strtoll`, of base 10: blanks, a sign, digits; what is too large is cut to the range of a `long long`. -/
def strtoll (s : List UInt8) : ℤ :=
  match s.dropWhile isspace with
  | 45 :: l => max (-(decimalValue 0 (l.takeWhile isDigit) : ℤ)) (-2 ^ 63)
  | 43 :: l => min (decimalValue 0 (l.takeWhile isDigit) : ℤ) (2 ^ 63 - 1)
  | l => min (decimalValue 0 (l.takeWhile isDigit) : ℤ) (2 ^ 63 - 1)

/-- `fgets` to a buffer with room for `n` bytes: the line, or as much of it, and what is left of the file. -/
@[grind =] def fgets : ℕ → List UInt8 → List UInt8 × List UInt8
  | 0, s => ([], s)
  | _ + 1, [] => ([], [])
  | n + 1, b :: s => if b = 10 then ([10], s) else (b :: (fgets n s).1, (fgets n s).2)

/-- A line that starts with `mark`, and the number behind that. -/
def readNumber (mark : UInt8) (s : List UInt8) : Option (ℤ × List UInt8) :=
  if s = [] then none
  else if (fgets 127 s).1.head? = some mark then some (strtoll (fgets 127 s).1.tail, (fgets 127 s).2)
  else none

@[grind =] def readArgs : ℕ → List UInt8 → Option (List (List UInt8) × List UInt8)
  | 0, s => some ([], s)
  | j + 1, s =>
    (readNumber 36 s).bind fun (len, s) =>
      if len < 0 ∨ s.length < len.toNat + 2 then none
      else (readArgs j (s.drop (len.toNat + 2))).map fun r => (s.take len.toNat :: r.1, r.2)

/-- One command; the number of its arguments is an `int`. -/
def readCommand (s : List UInt8) : Option (List (List UInt8) × List UInt8) :=
  (readNumber 42 s).bind fun (argc, s) => if argc.bmod (2 ^ 32) < 1 then none else readArgs (argc.bmod (2 ^ 32)).toNat s

variable {Fake : Type}

/-- The loop of `loadAppendOnlyFile`; `exec` is `cmd->proc` of the fake client, `none` for an unknown command. Each round takes bytes
off the file. -/
@[grind =] def loadLoop (exec : List (List UInt8) → Fake → Option Fake) : ℕ → List UInt8 → Fake → Option Fake
  | 0, _, _ => none
  | n + 1, s, c =>
    if s = [] then some c
    else (readCommand s).bind fun (argv, s) => (exec argv c).bind fun c => loadLoop exec n s c

/-- `loadAppendOnlyFile`: the fake client at the end of the file. -/
def loadAppendOnlyFile (exec : List (List UInt8) → Fake → Option Fake) (s : List UInt8) (c : Fake) : Option Fake :=
  loadLoop exec (s.length + 1) s c

variable {s t rest : List UInt8} {exec : List (List UInt8) → Fake → Option Fake} {c c' : Fake} {mark : UInt8} {v : ℤ}

theorem fgets_append : ∀ (n : ℕ) {s : List UInt8}, (fgets n s).2 ≠ [] → fgets n (s ++ t) = ((fgets n s).1, (fgets n s).2 ++ t) := by
  intro n
  induction n with
  | zero =>
    intro s _
    rfl
  | succ n ih =>
    intro s hrest
    cases s with
    | nil => exact absurd rfl hrest
    | cons b s =>
      rw [cons_append, fgets, fgets]
      rw [fgets] at hrest
      by_cases hb : b = 10
      · rw [if_pos hb, if_pos hb]
      · rw [if_neg hb] at hrest ⊢
        rw [if_neg hb, ih hrest]

theorem length_fgets : ∀ (n : ℕ) (s : List UInt8), (fgets n s).2.length + (fgets n s).1.length = s.length := by
  intro n
  induction n with
  | zero =>
    intro s
    rfl
  | succ n ih =>
    intro s
    cases s with
    | nil => rfl
    | cons b s =>
      rw [fgets]
      by_cases hb : b = 10
      · rw [if_pos hb]
        rfl
      · rw [if_neg hb]
        have h1 := ih s
        simp only [length_cons]
        omega

theorem readNumber_append (hread : readNumber mark s = some (v, rest)) (hrest : rest ≠ []) : readNumber mark (s ++ t) = some (v, rest ++ t) := by
  rw [readNumber] at hread
  by_cases hs : s = []
  · rw [if_pos hs] at hread
    exact absurd hread nofun
  rw [if_neg hs] at hread
  by_cases hmark : (fgets 127 s).1.head? = some mark
  · rw [if_pos hmark] at hread
    obtain ⟨rfl, rfl⟩ := Prod.mk.inj (Option.some.inj hread)
    rw [readNumber, if_neg (by simp [hs]), fgets_append 127 hrest, if_pos hmark]
  · rw [if_neg hmark] at hread
    exact absurd hread nofun

theorem readNumber_shorter (hread : readNumber mark s = some (v, rest)) : rest.length < s.length := by
  rw [readNumber] at hread
  by_cases hs : s = []
  · rw [if_pos hs] at hread
    exact absurd hread nofun
  rw [if_neg hs] at hread
  by_cases hmark : (fgets 127 s).1.head? = some mark
  · rw [if_pos hmark] at hread
    obtain ⟨-, rfl⟩ := Prod.mk.inj (Option.some.inj hread)
    have h1 := length_fgets 127 s
    cases hline : (fgets 127 s).1 with
    | nil =>
      rw [hline] at hmark
      exact absurd hmark nofun
    | cons b l =>
      rw [hline, length_cons] at h1
      omega
  · rw [if_neg hmark] at hread
    exact absurd hread nofun

theorem readArgs_append : ∀ (j : ℕ) {s : List UInt8} {args : List (List UInt8)} {rest : List UInt8}, readArgs j s = some (args, rest) →
    readArgs j (s ++ t) = some (args, rest ++ t) := by
  intro j
  induction j with
  | zero =>
    intro s args rest hread
    obtain ⟨rfl, rfl⟩ := Prod.mk.inj (Option.some.inj hread)
    rfl
  | succ j ih =>
    intro s args rest hread
    obtain ⟨⟨len, s₁⟩, hnumber, hread⟩ := bind_eq_some_iff.1 hread
    dsimp only at hread
    by_cases hbad : len < 0 ∨ s₁.length < len.toNat + 2
    · rw [if_pos hbad] at hread
      exact absurd hread nofun
    rw [if_neg hbad] at hread
    rw [not_or] at hbad
    obtain ⟨r, hargs, hr⟩ := map_eq_some_iff.1 hread
    obtain ⟨rfl, rfl⟩ := Prod.mk.inj hr
    have hne : s₁ ≠ [] := by
      rintro rfl
      exact hbad.2 (Nat.succ_pos _)
    rw [readArgs, readNumber_append hnumber hne, bind_some]
    dsimp only
    rw [if_neg (by rw [not_or, length_append]; exact ⟨hbad.1, by omega⟩), drop_append_of_le_length (by omega),
      take_append_of_le_length (by omega), ih hargs]
    rfl

theorem readArgs_length : ∀ (j : ℕ) {s : List UInt8} {args : List (List UInt8)} {rest : List UInt8}, readArgs j s = some (args, rest) →
    rest.length ≤ s.length ∧ (0 < j → s ≠ []) := by
  intro j
  induction j with
  | zero =>
    intro s args rest hread
    obtain ⟨-, rfl⟩ := Prod.mk.inj (Option.some.inj hread)
    exact ⟨Nat.le_refl _, fun h => absurd h (Nat.lt_irrefl 0)⟩
  | succ j ih =>
    intro s args rest hread
    obtain ⟨⟨len, s₁⟩, hnumber, hread⟩ := bind_eq_some_iff.1 hread
    have hshorter := readNumber_shorter hnumber
    dsimp only at hread
    by_cases hbad : len < 0 ∨ s₁.length < len.toNat + 2
    · rw [if_pos hbad] at hread
      exact absurd hread nofun
    rw [if_neg hbad] at hread
    obtain ⟨r, hargs, hr⟩ := map_eq_some_iff.1 hread
    obtain ⟨-, rfl⟩ := Prod.mk.inj hr
    have hrest := (ih hargs).1
    rw [length_drop] at hrest
    refine ⟨by omega, ?_⟩
    rintro - rfl
    exact absurd hshorter (Nat.not_lt_zero _)

variable {argv : List (List UInt8)}

theorem readCommand_append (hread : readCommand s = some (argv, rest)) :
    readCommand (s ++ t) = some (argv, rest ++ t) ∧ rest.length < s.length := by
  obtain ⟨⟨argc, s₁⟩, hnumber, hread⟩ := bind_eq_some_iff.1 hread
  have hshorter := readNumber_shorter hnumber
  dsimp only at hread
  by_cases hargc : argc.bmod (2 ^ 32) < 1
  · rw [if_pos hargc] at hread
    exact absurd hread nofun
  rw [if_neg hargc] at hread
  obtain ⟨hlen, hne⟩ := readArgs_length _ hread
  rw [readCommand, readNumber_append hnumber (hne (by omega)), bind_some]
  dsimp only
  rw [if_neg hargc, readArgs_append _ hread]
  exact ⟨rfl, by omega⟩

theorem loadLoop_fuel : ∀ (n m : ℕ) {s : List UInt8} {c : Fake}, s.length < n → s.length < m → loadLoop exec n s c = loadLoop exec m s c := by
  intro n
  induction n with
  | zero =>
    intro m s c hn
    exact absurd hn (Nat.not_lt_zero _)
  | succ n ih =>
    intro m s c hn hm
    cases m with
    | zero => exact absurd hm (Nat.not_lt_zero _)
    | succ m =>
      rw [loadLoop, loadLoop]
      by_cases hs : s = []
      · rw [if_pos hs, if_pos hs]
      rw [if_neg hs, if_neg hs]
      cases hread : readCommand s with
      | none => rfl
      | some r =>
        obtain ⟨argv, rest⟩ := r
        have hshorter := (readCommand_append (t := []) hread).2
        rw [bind_some, bind_some]
        dsimp only
        cases exec argv c with
        | none => rfl
        | some c₁ => exact ih m (by omega) (by omega)

/-- **A file that can be loaded, and more behind it**: the client goes on with the rest. -/
theorem load_append : ∀ (n : ℕ) {s : List UInt8} {c c' : Fake}, loadLoop exec n s c = some c' →
    loadAppendOnlyFile exec (s ++ t) c = loadAppendOnlyFile exec t c' := by
  intro n
  induction n with
  | zero =>
    intro s c c' hload
    exact absurd hload nofun
  | succ n ih =>
    intro s c c' hload
    rw [loadLoop] at hload
    by_cases hs : s = []
    · rw [if_pos hs] at hload
      obtain rfl := Option.some.inj hload
      rw [hs, nil_append]
    rw [if_neg hs] at hload
    obtain ⟨⟨argv, rest⟩, hread, hload⟩ := bind_eq_some_iff.1 hload
    obtain ⟨c₁, hexec, hload⟩ := bind_eq_some_iff.1 hload
    obtain ⟨hread', hshorter⟩ := readCommand_append (t := t) hread
    have hne : s ++ t ≠ [] := by simp [hs]
    rw [loadAppendOnlyFile, loadLoop, if_neg hne, hread', bind_some]
    dsimp only at hexec ⊢
    rw [hexec, bind_some, ← ih hload, loadAppendOnlyFile]
    refine loadLoop_fuel _ _ ?_ ?_
    · simp only [length_append]
      omega
    · exact Nat.lt_succ_self _

theorem fgets_line : ∀ (n : ℕ) {s : List UInt8}, (10 : UInt8) ∉ s → s.length < n → fgets n (s ++ 10 :: t) = (s ++ [10], t) := by
  intro n
  induction n with
  | zero =>
    intro s _ hn
    exact absurd hn (Nat.not_lt_zero _)
  | succ n ih =>
    intro s hlf hn
    cases s with
    | nil => rfl
    | cons b s =>
      rw [mem_cons, not_or] at hlf
      rw [cons_append, fgets, if_neg (Ne.symm hlf.1), ih hlf.2 (Nat.lt_of_succ_lt_succ hn)]
      rfl

theorem strtoll_decimal {n : ℕ} (hn : n < 2 ^ 63) {b : UInt8} (hb : isDigit b = false) : strtoll (decimal n ++ b :: t) = n := by
  obtain ⟨d, l, hd, -, -⟩ := decimal_head n
  have hdigits := isDigit_decimal n
  rw [hd] at hdigits
  have hdigit := hdigits d mem_cons_self
  have htake : (decimal n ++ b :: t).takeWhile isDigit = decimal n := by
    rw [takeWhile_append_of_pos (isDigit_decimal n), takeWhile_cons_of_neg (by rw [hb]; exact Bool.false_ne_true), append_nil]
  have hspace : (decimal n ++ b :: t).dropWhile isspace = decimal n ++ b :: t := by
    have hnot : ¬ isspace d = true := by
      rw [isDigit_iff] at hdigit
      rw [isspace, decide_eq_true_eq, not_or, not_and_or]
      refine ⟨?_, Or.inr ?_⟩
      · rintro rfl
        exact absurd hdigit.1 (by decide)
      · exact not_le.2 (Nat.lt_of_lt_of_le (by decide) hdigit.1)
    rw [hd, cons_append, dropWhile_cons_of_neg hnot]
  rw [strtoll, hspace]
  have hplain : ∀ s : List UInt8, s = d :: (l ++ b :: t) → (match s with
        | 45 :: l => max (-(decimalValue 0 (l.takeWhile isDigit) : ℤ)) (-2 ^ 63)
        | 43 :: l => min (decimalValue 0 (l.takeWhile isDigit) : ℤ) (2 ^ 63 - 1)
        | l => min (decimalValue 0 (l.takeWhile isDigit) : ℤ) (2 ^ 63 - 1)) = min (decimalValue 0 (s.takeWhile isDigit) : ℤ) (2 ^ 63 - 1) := by
    rintro s rfl
    split
    · rename_i heq
      rw [(List.cons.inj heq).1] at hdigit
      exact absurd hdigit (by decide)
    · rename_i heq
      rw [(List.cons.inj heq).1] at hdigit
      exact absurd hdigit (by decide)
    · rfl
  rw [hplain _ (by rw [hd, cons_append]), htake, decimalValue_decimal]
  omega

theorem readNumber_line {n : ℕ} (hn : n < 2 ^ 63) {mark : UInt8} (hmark : mark ≠ 10) :
    readNumber mark ((mark :: ll2string n) ++ crlf ++ t) = some ((n : ℤ), t) := by
  have hdecimal : ll2string n = decimal n := by
    rw [ll2string, if_neg (by omega), Int.natAbs_natCast]
  have hlf : (10 : UInt8) ∉ (mark :: decimal n) ++ [13] := by
    rw [mem_append, mem_cons, not_or, not_or]
    exact ⟨⟨Ne.symm hmark, fun h => absurd (isDigit_decimal n 10 h) (by decide)⟩, by decide⟩
  have hlen : ((mark :: decimal n) ++ [13]).length < 127 := by
    have h1 := length_decimal 18 (n := n) (by omega)
    rw [length_append, length_cons, length_singleton]
    omega
  have hline : (mark :: ll2string n) ++ crlf ++ t = ((mark :: decimal n) ++ [13]) ++ 10 :: t := by
    rw [hdecimal, crlf]
    simp only [append_assoc, cons_append, nil_append]
  have hhead : (mark :: decimal n ++ [13] ++ [10]).head? = some mark := rfl
  rw [readNumber, if_neg (by simp), hline, fgets_line 127 hlf hlen]
  rw [if_pos hhead]
  have hvalue := strtoll_decimal (t := [10]) hn (by decide : isDigit 13 = false)
  simp only [cons_append, append_assoc, nil_append, tail_cons]
  rw [hvalue]

theorem readArgs_encode : ∀ {args : List (List UInt8)}, (∀ arg ∈ args, arg.length < 2 ^ 63) →
    readArgs args.length (encodeArgs args ++ t) = some (args, t) := by
  intro args
  induction args with
  | nil =>
    intro _
    rfl
  | cons arg args ih =>
    intro hsize
    have harg := hsize arg mem_cons_self
    have hfront : encodeArgs (arg :: args) ++ t = (36 :: ll2string arg.length) ++ crlf ++ (arg ++ crlf ++ (encodeArgs args ++ t)) := by
      rw [encodeArgs_cons, encodeArg]
      simp only [append_assoc]
    rw [length_cons, readArgs, hfront, readNumber_line harg (by decide), bind_some]
    dsimp only
    have hlen : (arg ++ crlf ++ (encodeArgs args ++ t)).length = arg.length + 2 + (encodeArgs args ++ t).length := by
      simp only [crlf, length_append, length_cons, length_nil]
    have hdrop : (arg ++ crlf ++ (encodeArgs args ++ t)).drop (arg.length + 2) = encodeArgs args ++ t := by
      rw [show arg.length + 2 = (arg ++ crlf).length by rw [length_append]; rfl, drop_left]
    have htake : (arg ++ crlf ++ (encodeArgs args ++ t)).take arg.length = arg := by
      rw [append_assoc, take_left]
    rw [Int.toNat_natCast, if_neg (by omega), hdrop, htake, ih fun a ha => hsize a (mem_cons_of_mem _ ha)]
    rfl

/-- What can be logged: some arguments, no more than an `int` counts, and each no longer than a `long` says. -/
def Loggable (argv : List (List UInt8)) : Prop := 0 < argv.length ∧ argv.length < 2 ^ 31 ∧ ∀ arg ∈ argv, arg.length < 2 ^ 63

/-- **A command in front of a file** is executed first. -/
theorem load_command (hargv : Loggable argv) (t : List UInt8) (c : Fake) :
    loadAppendOnlyFile exec (encodeCommand argv ++ t) c = (exec argv c).bind (loadAppendOnlyFile exec t) := by
  have hread : readCommand (encodeCommand argv ++ t) = some (argv, t) := by
    have hcount : ((argv.length : ℤ)).bmod (2 ^ 32) = argv.length := by
      have h1 := hargv.2.1
      rw [Int.bmod_eq_of_le] <;> omega
    have hpos := hargv.1
    rw [readCommand, encodeCommand, append_assoc, readNumber_line (by have h1 := hargv.2.1; omega) (by decide), bind_some]
    dsimp only
    rw [hcount, if_neg (by omega), Int.toNat_natCast]
    exact readArgs_encode hargv.2.2
  have hne : encodeCommand argv ++ t ≠ [] := nofun
  have hlonger := (readCommand_append (t := []) hread).2
  rw [loadAppendOnlyFile, loadLoop, if_neg hne, hread, bind_some]
  dsimp only
  congr 1
  funext c
  exact loadLoop_fuel _ _ hlonger (Nat.lt_succ_self _)

end KVStores.Redis.Aof
