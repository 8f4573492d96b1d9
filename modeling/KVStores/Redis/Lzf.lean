import Mathlib.Data.UInt
import KVStores.Lib.Coding

/-!
# LZF in Redis

`lzf_compress` (`lzf_c.c`) and `lzf_decompress` (`lzf_d.c`), with the settings of `lzfP.h` on a machine that may read words from
anywhere: `VERY_FAST`, `CHECK_INPUT`, and a table that is not initialised.

A pointer into the input is its distance from `in_data`. What the table holds in the beginning is arbitrary, so an entry may
point anywhere, also in front of the input or behind it.
-/

namespace KVStores.Redis.Lzf

def MAX_LIT : ℕ := 2 ^ 5

def MAX_OFF : ℤ := 2 ^ 13

def MAX_REF : ℕ := 2 ^ 8 + 2 ^ 3

def frst (input : Bytes) (p : ℕ) : UInt32 := (input.getD p 0).toUInt32 <<< 8 ||| (input.getD (p + 1) 0).toUInt32

def next (v : UInt32) (input : Bytes) (p : ℕ) : UInt32 := v <<< 8 ||| (input.getD (p + 2) 0).toUInt32

/-- `IDX`, for 2 ^ 16 slots. -/
def idx (h : UInt32) : UInt32 := (h >>> 8 - h * 5) &&& 0xffff

/-- The table: `htab`. -/
abbrev Table := UInt32 → ℤ

/-- The output. There are as many cells as are in front of `op`, and `top` is the end of what has been written. -/
structure Out where
  cells : Bytes
  top : ℕ

/-- `*op++ = b`. -/
def Out.put (o : Out) (b : UInt8) : Out := ⟨o.cells ++ [b], max o.top (o.cells.length + 1)⟩

/-- `op++`, over a cell that keeps what the buffer held. -/
def Out.start (garbage : ℕ → UInt8) (o : Out) : Out := ⟨o.cells ++ [garbage o.cells.length], o.top⟩

/-- `op [- lit - 1] = lit - 1`. -/
def Out.stop (o : Out) (lit : ℕ) : Out :=
  ⟨o.cells.set (o.cells.length - lit - 1) (UInt8.ofNat lit - 1), max o.top (o.cells.length - lit)⟩

/-- `op -= !lit`. -/
def Out.undo (o : Out) (lit : ℕ) : Out := if lit = 0 then ⟨o.cells.dropLast, o.top⟩ else o

structure State where
  ip : ℕ
  lit : ℕ
  out : Out
  hval : UInt32
  htab : Table

/-- Sixteen comparisons: the length, and whether one of them was the last. -/
@[grind =] def unrolled (input : Bytes) (ref ip : ℕ) : ℕ → ℕ → ℕ × Bool
  | 0, len => (len, false)
  | k + 1, len =>
    let len := len + 1
    if input.getD (ref + len) 0 ≠ input.getD (ip + len) 0 then (len, true) else unrolled input ref ip k len

/-- `do len++; while (len < maxlen && ref[len] == ip[len])`. -/
def matchTail (input : Bytes) (ref ip maxlen len : ℕ) : ℕ :=
  let len := len + 1
  if len < maxlen ∧ input.getD (ref + len) 0 = input.getD (ip + len) 0 then matchTail input ref ip maxlen len else len
termination_by maxlen - len

def matchLength (input : Bytes) (ref ip maxlen : ℕ) : ℕ :=
  let len := 2
  if 16 < maxlen then
    let r := unrolled input ref ip 16 len
    if r.2 then r.1 else matchTail input ref ip maxlen r.1
  else matchTail input ref ip maxlen len

/-- There is a match at `ref`. A difference that is negative is too large when it is taken as unsigned. -/
def isMatch (input : Bytes) (ip : ℕ) (ref : ℤ) : Prop :=
  0 ≤ (ip : ℤ) - ref - 1 ∧ (ip : ℤ) - ref - 1 < MAX_OFF ∧ ip + 4 < input.length ∧ 0 < ref ∧
    input.getD ref.toNat 0 = input.getD ip 0 ∧ input.getD (ref.toNat + 1) 0 = input.getD (ip + 1) 0 ∧
    input.getD (ref.toNat + 2) 0 = input.getD (ip + 2) 0

instance (input : Bytes) (ip : ℕ) (ref : ℤ) : Decidable (isMatch input ip ref) := by
  unfold isMatch
  infer_instance

/-- The two or three bytes of a back-reference, with `len` the number of octets less two. -/
def putMatch (o : Out) (off len : ℕ) : Out :=
  if len < 7 then (o.put (UInt8.ofNat (off / 2 ^ 8 + len * 2 ^ 5))).put (UInt8.ofNat off)
  else ((o.put (UInt8.ofNat (off / 2 ^ 8 + 7 * 2 ^ 5))).put (UInt8.ofNat (len - 7))).put (UInt8.ofNat off)

/-- One more literal byte, and the end of the run when it is full. -/
def literal (input : Bytes) (garbage : ℕ → UInt8) (s : State) : State :=
  let lit := s.lit + 1
  let out := s.out.put (input.getD s.ip 0)
  if lit = MAX_LIT then { s with ip := s.ip + 1, lit := 0, out := (out.stop lit).start garbage }
  else { s with ip := s.ip + 1, lit := lit, out := out }

/-- The main loop, and whether it gets to its end; else 0 is returned. -/
def mainLoop (input : Bytes) (outLen : ℕ) (garbage : ℕ → UInt8) (s : State) : State × Bool :=
  if s.ip + 2 < input.length then
    let hval := next s.hval input s.ip
    let ref := s.htab (idx hval)
    let htab := Function.update s.htab (idx hval) s.ip
    if isMatch input s.ip ref then
      let maxlen := min (input.length - s.ip - 2) MAX_REF
      let out := (s.out.stop s.lit).undo s.lit
      if outLen ≤ out.cells.length + 3 + 1 then ({ s with out := out, hval := hval, htab := htab }, false)
      else
        let len := matchLength input ref.toNat s.ip maxlen - 2
        let out := (putMatch out (s.ip - ref.toNat - 1) len).start garbage
        let ip := s.ip + 1 + (len + 1)
        if input.length ≤ ip + 2 then ({ ip := ip, lit := 0, out := out, hval := hval, htab := htab }, true)
        else
          -- the last two places of the match are entered
          let hval := next (frst input (ip - 2)) input (ip - 2)
          let htab := Function.update htab (idx hval) (ip - 2 : ℕ)
          let hval := next hval input (ip - 1)
          let htab := Function.update htab (idx hval) (ip - 1 : ℕ)
          mainLoop input outLen garbage { ip := ip, lit := 0, out := out, hval := hval, htab := htab }
    else if outLen ≤ s.out.cells.length then ({ s with hval := hval, htab := htab }, false)
    else mainLoop input outLen garbage (literal input garbage { s with hval := hval, htab := htab })
  else (s, true)
termination_by input.length - s.ip
decreasing_by
  · omega
  · unfold literal
    dsimp only
    split <;> dsimp only <;> omega

def restLoop (input : Bytes) (garbage : ℕ → UInt8) (s : State) : State :=
  if s.ip < input.length then restLoop input garbage (literal input garbage s) else s
termination_by input.length - s.ip
decreasing_by
  unfold literal
  dsimp only
  split <;> dsimp only <;> omega

/-- `lzf_compress`: what it returns, and the output. -/
def lzf_compress (input : Bytes) (outLen : ℕ) (garbage : ℕ → UInt8) (htab : Table) : ℕ × Out :=
  let out : Out := ⟨[], 0⟩
  if input.length = 0 ∨ outLen = 0 then (0, out)
  else
    let r := mainLoop input outLen garbage { ip := 0, lit := 0, out := out.start garbage, hval := frst input 0, htab := htab }
    if r.2 = false then (0, r.1.out)
    else if outLen < r.1.out.cells.length + 3 then (0, r.1.out)
    else
      let s := restLoop input garbage r.1
      let out := (s.out.stop s.lit).undo s.lit
      (out.cells.length, out)

/-- How `lzf_decompress` fails: with an error, or as the C code has no meaning, when it reads or writes where it must not. -/
inductive Stop
  | fault
  | e2big
  | einval
  deriving DecidableEq, Repr

/-- The loop of a literal run: a byte of the input that there is goes to a byte of the output that there is. -/
@[grind =] def copyLiteral (outLen : ℕ) : ℕ → Bytes → Bytes → Except Stop (Bytes × Bytes)
  | 0, rest, out => .ok (rest, out)
  | _ + 1, [], _ => .error .fault
  | n + 1, c :: rest, out => if out.length < outLen then copyLiteral outLen n rest (out ++ [c]) else .error .fault

/-- `*op++ = *ref++`, so many times. What is read must have been written. -/
@[grind =] def copyRef (outLen : ℕ) : ℕ → ℤ → Bytes → Except Stop Bytes
  | 0, _, out => .ok out
  | n + 1, ref, out =>
    if 0 ≤ ref ∧ ref < out.length ∧ out.length < outLen then copyRef outLen n (ref + 1) (out ++ [out.getD ref.toNat 0])
    else .error .fault

def backReference (outLen len : ℕ) (ref : ℤ) : Bytes → Bytes → Except Stop (Bytes × Bytes)
  | [], _ => .error .fault
  | c :: rest, out =>
    let ref := ref - c.toNat
    if outLen < out.length + len + 2 then .error .e2big
    else if ref < 0 then .error .einval
    else (copyRef outLen (len + 2) ref out).map fun out => (rest, out)

/-- One round of the loop, from what is left of the input and what has been written. -/
def decodeOne (outLen : ℕ) : Bytes → Bytes → Except Stop (Bytes × Bytes)
  | [], _ => .error .fault
  | c :: rest, out =>
    let ctrl := c.toNat
    if ctrl < 2 ^ 5 then
      let ctrl := ctrl + 1
      if outLen < out.length + ctrl then .error .e2big
      else if rest.length < ctrl then .error .einval
      else copyLiteral outLen ctrl rest out
    else
      let len := ctrl / 2 ^ 5
      let ref : ℤ := out.length - (ctrl % 2 ^ 5 * 2 ^ 8 : ℕ) - 1
      match rest with
      | [] => .error .einval
      | d :: rest' =>
        if len = 7 then
          if rest' = [] then .error .einval else backReference outLen (len + d.toNat) ref rest' out
        else backReference outLen len ref rest out

variable {outLen n len : ℕ} {ref : ℤ} {rest rest' out out' : Bytes}

theorem copyLiteral_rest (h : copyLiteral outLen n rest out = .ok (rest', out')) : rest'.length ≤ rest.length := by
  induction n generalizing rest out with
  | zero =>
    cases h
    exact Nat.le_refl _
  | succ n ih =>
    cases rest with
    | nil => cases h
    | cons c rest =>
      rw [copyLiteral] at h
      split at h
      · exact Nat.le_succ_of_le (ih h)
      · cases h

theorem backReference_rest (h : backReference outLen len ref rest out = .ok (rest', out')) : rest'.length < rest.length := by
  cases rest with
  | nil => cases h
  | cons c rest =>
    rw [backReference] at h
    split at h
    · cases h
    split at h
    · cases h
    cases hcopy : copyRef outLen (len + 2) (ref - c.toNat) out with
    | error e =>
      rw [hcopy] at h
      cases h
    | ok out =>
      rw [hcopy] at h
      cases h
      exact Nat.lt_succ_self _

theorem decodeOne_rest (h : decodeOne outLen rest out = .ok (rest', out')) : rest'.length < rest.length := by
  cases rest with
  | nil => cases h
  | cons c rest =>
    unfold decodeOne at h
    dsimp only at h
    split at h
    · split at h
      · cases h
      split at h
      · cases h
      exact Nat.lt_succ_of_le (copyLiteral_rest h)
    cases rest with
    | nil => cases h
    | cons d rest =>
      dsimp only at h
      split at h
      · split at h
        · cases h
        exact lt_of_lt_of_le (backReference_rest h) (Nat.le_add_right _ 2)
      · exact lt_of_lt_of_le (backReference_rest h) (Nat.le_succ _)

/-- The loop: a round is made before it is asked whether there is any input left. -/
def decompressLoop (outLen : ℕ) (rest out : Bytes) : Except Stop Bytes :=
  match _h : decodeOne outLen rest out with
  | .error e => .error e
  | .ok (rest', out') => if rest' = [] then .ok out' else decompressLoop outLen rest' out'
termination_by rest.length
decreasing_by exact decodeOne_rest _h

/-- `lzf_decompress`: what has been written, whose length is returned, or an error, when 0 is returned. -/
def lzf_decompress (data : Bytes) (outLen : ℕ) : Except Stop Bytes := decompressLoop outLen data []

end KVStores.Redis.Lzf
