import KVStores.Redis.AofLoad

/-!
# Quoted arguments

`sdscatrepr` writes a string in quotes, and `sdssplitargs` splits a line into arguments, some of them in quotes (sds.c).

A line is a pointer to its bytes and the NUL behind them; the pointer is what is left of these.
-/

namespace KVStores.Redis.SplitArgs

open List

open Aof

/-- `isprint`, in the C locale. -/
def isprint (c : UInt8) : Bool := decide (32 ≤ c ∧ c ≤ 126)

/-- A digit of `%02x`. -/
def hexDigit (n : ℕ) : UInt8 := if n < 10 then UInt8.ofNat (48 + n) else UInt8.ofNat (87 + n)

/-- The `switch` of `sdscatrepr`. -/
def reprByte (c : UInt8) : List UInt8 :=
  if c = 92 ∨ c = 34 then [92, c]
  else if c = 10 then [92, 110]
  else if c = 13 then [92, 114]
  else if c = 9 then [92, 116]
  else if c = 7 then [92, 97]
  else if c = 8 then [92, 98]
  else if isprint c = true then [c]
  else [92, 120, hexDigit (c.toNat / 16), hexDigit (c.toNat % 16)]

def sdscatrepr (s p : List UInt8) : List UInt8 := s ++ 34 :: p.flatMap reprByte ++ [34]

def isHexDigit (c : UInt8) : Bool := decide ((48 ≤ c ∧ c ≤ 57) ∨ (97 ≤ c ∧ c ≤ 102) ∨ (65 ≤ c ∧ c ≤ 70))

def hexDigitToInt (c : UInt8) : ℕ :=
  if 48 ≤ c ∧ c ≤ 57 then c.toNat - 48
  else if 97 ≤ c ∧ c ≤ 102 then c.toNat - 87
  else if 65 ≤ c ∧ c ≤ 70 then c.toNat - 55
  else 0

def unescape (c : UInt8) : UInt8 := if c = 110 then 10 else if c = 114 then 13 else if c = 116 then 9 else if c = 98 then 8 else if c = 97 then 7 else c

/-- `inq`, `insq`, or none of them. -/
inductive Quotes
  | inq
  | insq
  | plain
deriving DecidableEq

/-- One round of the loop over a token: a byte behind the NUL is read, an error, the token is done, or the loop goes on. -/
inductive Step
  | beyond
  | err
  | done (current p : List UInt8)
  | next (q : Quotes) (current p : List UInt8)

/-- What stands behind a backslash and is the code of a byte: the byte, and what is left. -/
def hexEscape : List UInt8 → Option (Option (UInt8 × List UInt8))
  | [] => none
  | c1 :: p1 =>
    if c1 = 120 then
      match p1 with
      | [] => none
      | c2 :: p2 =>
        if isHexDigit c2 = true then
          match p2 with
          | [] => none
          | c3 :: p3 => if isHexDigit c3 = true then some (some (UInt8.ofNat (hexDigitToInt c2 * 16 + hexDigitToInt c3), p3)) else some none
        else some none
    else some none

def closing (current : List UInt8) : List UInt8 → Step
  | [] => .beyond
  | c1 :: p1 => if c1 ≠ 0 ∧ isspace c1 = false then .err else .done current (c1 :: p1)

/-- A round within double quotes; `c` is the character at the pointer, and `p` what is behind it. -/
def inqStep (current : List UInt8) (c : UInt8) (p : List UInt8) : Step :=
  if c = 92 then
    match hexEscape p with
    | none => .beyond
    | some (some r) => .next .inq (current ++ [r.1]) r.2
    | some none =>
      match p with
      | [] => .beyond
      | c1 :: p1 => if c1 ≠ 0 then .next .inq (current ++ [unescape c1]) p1 else .next .inq (current ++ [c]) p
  else if c = 34 then closing current p
  else if c = 0 then .err
  else .next .inq (current ++ [c]) p

def insqStep (current : List UInt8) (c : UInt8) (p : List UInt8) : Step :=
  if c = 92 then
    match p with
    | [] => .beyond
    | c1 :: p1 => if c1 = 39 then .next .insq (current ++ [39]) p1 else .next .insq (current ++ [c]) p
  else if c = 39 then closing current p
  else if c = 0 then .err
  else .next .insq (current ++ [c]) p

def plainStep (current : List UInt8) (c : UInt8) (p : List UInt8) : Step :=
  if c = 32 ∨ c = 10 ∨ c = 13 ∨ c = 9 then .done current p
  else if c = 0 then .done current (c :: p)
  else if c = 34 then .next .inq current p
  else if c = 39 then .next .insq current p
  else .next .plain (current ++ [c]) p

def tokenStep (q : Quotes) (current : List UInt8) : List UInt8 → Step
  | [] => .beyond
  | c :: p =>
    match q with
    | .inq => inqStep current c p
    | .insq => insqStep current c p
    | .plain => plainStep current c p

variable {p p' : List UInt8}

theorem hexEscape_lt {b : UInt8} (h : hexEscape p = some (some (b, p'))) : p'.length < p.length := by
  rw [hexEscape.eq_def] at h
  split at h
  · cases h
  · rename_i c1 p1
    split at h
    · split at h
      · cases h
      · rename_i c2 p2
        split at h
        · split at h
          · cases h
          · rename_i c3 p3
            split at h
            · cases h
              simp only [length_cons]
              omega
            · cases h
        · cases h
    · cases h

variable {current current' : List UInt8} {q' : Quotes}

theorem closing_ne_next : closing current p ≠ .next q' current' p' := by
  rw [closing.eq_def]
  split
  · exact fun h => Step.noConfusion h
  · split <;> exact fun h => Step.noConfusion h

variable {q : Quotes}

theorem tokenStep_lt (h : tokenStep q current p = .next q' current' p') : p'.length < p.length := by
  cases p with
  | nil => cases h
  | cons c p =>
    rw [length_cons]
    cases q with
    | inq =>
      rw [tokenStep] at h
      unfold inqStep at h
      split at h
      · split at h
        · cases h
        · rename_i r hr
          cases h
          have hlt := hexEscape_lt hr
          omega
        · split at h
          · cases h
          · rw [length_cons]
            split at h <;> cases h
            · omega
            · rw [length_cons]
              omega
      · split at h
        · exact absurd h closing_ne_next
        · split at h <;> cases h
          omega
    | insq =>
      rw [tokenStep] at h
      unfold insqStep at h
      split at h
      · split at h
        · cases h
        · rw [length_cons]
          split at h <;> cases h
          · omega
          · rw [length_cons]
            omega
      · split at h
        · exact absurd h closing_ne_next
        · split at h <;> cases h
          omega
    | plain =>
      rw [tokenStep] at h
      unfold plainStep at h
      split at h
      · cases h
      · split at h
        · cases h
        · split at h
          · cases h
            omega
          · split at h <;> cases h <;> omega

inductive TokenEnd
  | beyond
  | err
  | token (current p : List UInt8)

def tokenLoop (q : Quotes) (current p : List UInt8) : TokenEnd :=
  match _hstep : tokenStep q current p with
  | .beyond => .beyond
  | .err => .err
  | .done current p => .token current p
  | .next q' current' p' => tokenLoop q' current' p'
termination_by p.length
decreasing_by exact tokenStep_lt _hstep

/-- `while(*p && isspace(*p)) p++`. -/
@[grind =] def skipBlanks : List UInt8 → Option (List UInt8)
  | [] => none
  | c :: p => if c ≠ 0 ∧ isspace c = true then skipBlanks p else some (c :: p)

theorem skipBlanks_le (h : skipBlanks p = some p') : p'.length ≤ p.length := by
  induction p with
  | nil => cases h
  | cons c p ih =>
    rw [skipBlanks] at h
    split at h
    · exact (ih h).trans (Nat.le_succ _)
    · cases h
      exact Nat.le_refl _

theorem closing_done (h : closing current p = .done current' p') : current' = current ∧ p' = p := by
  rw [closing.eq_def] at h
  split at h
  · cases h
  · split at h <;> cases h
    exact ⟨rfl, rfl⟩

theorem tokenStep_done {c : UInt8} (hc : c ≠ 0) (h : tokenStep q current (c :: p) = .done current' p') : p'.length ≤ p.length := by
  cases q with
  | inq =>
    rw [tokenStep] at h
    unfold inqStep at h
    split at h
    · split at h
      · cases h
      · cases h
      · split at h
        · cases h
        · split at h <;> cases h
    · split at h
      · rw [(closing_done h).2]
      · cases h
  | insq =>
    rw [tokenStep] at h
    unfold insqStep at h
    split at h
    · split at h
      · cases h
      · split at h <;> cases h
    · split at h
      · rw [(closing_done h).2]
      · cases h
  | plain =>
    rw [tokenStep] at h
    unfold plainStep at h
    split at h
    · cases h
      exact Nat.le_refl _
    · split at h
      · cases h
      · split at h <;> cases h

/-- **Every token** has been read, unless the line is at its end. -/
theorem tokenLoop_lt : ∀ (n : ℕ) {q : Quotes} {current p current' p' : List UInt8}, p.length ≤ n → tokenLoop q current p = .token current' p' →
    p'.length ≤ p.length ∧ ∀ c s, p = c :: s → c ≠ 0 → p'.length < p.length := by
  intro n
  induction n with
  | zero =>
    intro q current p current' p' hn h
    rw [length_eq_zero_iff.1 (Nat.le_zero.1 hn), tokenLoop.eq_def] at h
    cases h
  | succ n ih =>
    intro q current p current' p' hn h
    rw [tokenLoop.eq_def] at h
    cases hstep : tokenStep q current p with
    | beyond => rw [hstep] at h; cases h
    | err => rw [hstep] at h; cases h
    | next q₁ current₁ p₁ =>
      rw [hstep] at h
      have hlt := tokenStep_lt hstep
      have hle := (ih (by omega) h).1
      exact ⟨by omega, fun _ _ _ _ => by omega⟩
    | done current₁ p₁ =>
      rw [hstep] at h
      cases h
      cases p with
      | nil => cases hstep
      | cons c s =>
        by_cases hc : c = 0
        · subst hc
          have hinq : tokenStep .inq current (0 :: s) = .err := rfl
          have hinsq : tokenStep .insq current (0 :: s) = .err := rfl
          have hplain : tokenStep .plain current (0 :: s) = .done current (0 :: s) := rfl
          refine ⟨?_, fun c' s' heq hc' => absurd (List.cons.inj heq).1.symm hc'⟩
          cases q with
          | inq => rw [hinq] at hstep; cases hstep
          | insq => rw [hinsq] at hstep; cases hstep
          | plain =>
            cases hstep
            exact Nat.le_refl _
        · have hle := tokenStep_done hc hstep
          rw [length_cons]
          exact ⟨by omega, fun _ _ _ _ => by omega⟩

/-- What comes of a line: `NULL`, or its arguments. -/
inductive Split
  | beyond
  | null
  | args (vector : List (List UInt8))
deriving DecidableEq

def splitLoop (vector : List (List UInt8)) (p : List UInt8) : Split :=
  match _hskip : skipBlanks p with
  | none => .beyond
  | some [] => .beyond
  | some (c :: s) =>
    if _hc : c = 0 then .args vector
    else
      match _htoken : tokenLoop .plain [] (c :: s) with
      | .beyond => .beyond
      | .err => .null
      | .token current p' => splitLoop (vector ++ [current]) p'
termination_by p.length
decreasing_by exact ((tokenLoop_lt _ (Nat.le_refl _) _htoken).2 c s rfl _hc).trans_le (skipBlanks_le _hskip)

abbrev Text : Type := {line : List UInt8 // (0 : UInt8) ∉ line}

def sdssplitargs (line : Text) : Split := splitLoop [] (line.1 ++ [0])

end KVStores.Redis.SplitArgs
