import KVStores.Lib.Coding
import KVStores.Redis.ListCommands
import KVStores.Redis.StringType

/-!
# Operations on the bits of strings

bitops.c: BITOP, and the number of bits that are set.

What reaches outside a string is a fault (`none`).
-/

namespace KVStores.Redis.Bitops

open StringType (Obj Reply)

def bitsinbyte : List ℕ :=
  [0, 1, 1, 2, 1, 2, 2, 3, 1, 2, 2, 3, 2, 3, 3, 4, 1, 2, 2, 3, 2, 3, 3, 4, 2, 3, 3, 4, 3, 4, 4, 5,
   1, 2, 2, 3, 2, 3, 3, 4, 2, 3, 3, 4, 3, 4, 4, 5, 2, 3, 3, 4, 3, 4, 4, 5, 3, 4, 4, 5, 4, 5, 5, 6,
   1, 2, 2, 3, 2, 3, 3, 4, 2, 3, 3, 4, 3, 4, 4, 5, 2, 3, 3, 4, 3, 4, 4, 5, 3, 4, 4, 5, 4, 5, 5, 6,
   2, 3, 3, 4, 3, 4, 4, 5, 3, 4, 4, 5, 4, 5, 5, 6, 3, 4, 4, 5, 4, 5, 5, 6, 4, 5, 5, 6, 5, 6, 6, 7,
   1, 2, 2, 3, 2, 3, 3, 4, 2, 3, 3, 4, 3, 4, 4, 5, 2, 3, 3, 4, 3, 4, 4, 5, 3, 4, 4, 5, 4, 5, 5, 6,
   2, 3, 3, 4, 3, 4, 4, 5, 3, 4, 4, 5, 4, 5, 5, 6, 3, 4, 4, 5, 4, 5, 5, 6, 4, 5, 5, 6, 5, 6, 6, 7,
   2, 3, 3, 4, 3, 4, 4, 5, 3, 4, 4, 5, 4, 5, 5, 6, 3, 4, 4, 5, 4, 5, 5, 6, 4, 5, 5, 6, 5, 6, 6, 7,
   3, 4, 4, 5, 4, 5, 5, 6, 4, 5, 5, 6, 5, 6, 6, 7, 4, 5, 5, 6, 5, 6, 6, 7, 5, 6, 6, 7, 6, 7, 7, 8]

/-- What the loop of `popcount` does with each of its four words. -/
def wordBits (aux : UInt32) : UInt32 :=
  let aux := aux - ((aux >>> (1 : UInt32)) &&& (0x55555555 : UInt32))
  let aux := (aux &&& (0x33333333 : UInt32)) + ((aux >>> (2 : UInt32)) &&& (0x33333333 : UInt32))
  (((aux + (aux >>> (4 : UInt32))) &&& (0x0F0F0F0F : UInt32)) * (0x01010101 : UInt32)) >>> (24 : UInt32)

/-- An `uint32_t` in memory. -/
def loadUInt32 (s : List UInt8) (p : ℕ) : Option UInt32 := (Memory.read s p 4).map fun b => UInt32.ofNat (ofLittleEndian b)

/-- The loop of `popcount` over the bytes that are left. -/
@[grind =] def popcountBytes (s : List UInt8) : ℕ → ℕ → ℕ → Option ℕ
  | 0, _, bits => some bits
  | count + 1, p, bits => (s[p]?).bind fun b => popcountBytes s count (p + 1) (bits + bitsinbyte.getD b.toNat 0)

/-- The loop of `popcount` over 16 bytes at a time, and the one behind it. -/
def popcountLoop (s : List UInt8) (count p bits : ℕ) : Option ℕ :=
  if 16 ≤ count then
    (loadUInt32 s p).bind fun aux1 => (loadUInt32 s (p + 4)).bind fun aux2 => (loadUInt32 s (p + 8)).bind fun aux3 => (loadUInt32 s (p + 12)).bind fun aux4 =>
      popcountLoop s (count - 16) (p + 16) (bits + (wordBits aux1 + wordBits aux2 + wordBits aux3 + wordBits aux4).toNat)
  else popcountBytes s count p bits
termination_by count

def popcount (s : List UInt8) (count : ℕ) : Option ℕ := popcountLoop s count 0 0

/-- `BITOP_AND`, `BITOP_OR`, `BITOP_XOR`, `BITOP_NOT`. -/
inductive Op
  | and
  | or
  | xor
  | not
deriving DecidableEq

def isOpname (opname : Sds) (lower upper : UInt8) (word : List UInt8) : Bool :=
  (decide (opname.1.head? = some lower) || decide (opname.1.head? = some upper)) && strcasecmp opname word

def parseOp (opname : Sds) : Option Op :=
  if isOpname opname 97 65 [97, 110, 100] = true then some .and
  else if isOpname opname 111 79 [111, 114] = true then some .or
  else if isOpname opname 120 88 [120, 111, 114] = true then some .xor
  else if isOpname opname 110 78 [110, 111, 116] = true then some .not
  else none

/-- An operation on a byte of the output and one of a further source; there is no further one for `BITOP_NOT`. -/
@[grind =] def Op.byte : Op → UInt8 → UInt8 → UInt8
  | and, output, byte => output &&& byte
  | or, output, byte => output ||| byte
  | xor, output, byte => output ^^^ byte
  | not, output, _ => output

/-- An operation on an `unsigned long` of the result and one of a further source. -/
@[grind =] def Op.word : Op → UInt64 → UInt64 → UInt64
  | and, lres, lp => lres &&& lp
  | or, lres, lp => lres ||| lp
  | xor, lres, lp => lres ^^^ lp
  | not, lres, _ => lres

/-- An `unsigned long` in memory. -/
def loadUInt64 (s : List UInt8) (p : ℕ) : Option UInt64 := (Memory.read s p 8).map fun b => UInt64.ofNat (ofLittleEndian b)

/-- An `unsigned long` is written to memory. -/
def storeUInt64 (s : List UInt8) (p : ℕ) (w : UInt64) : Option (List UInt8) := Memory.write s p (littleEndian 8 w.toNat)

/-- A word of the result and of a source, both at the `k`-th word from `j` on. -/
def combineWord (op : Op) (src : List UInt8) (j : ℕ) (res : List UInt8) (k : ℕ) : Option (List UInt8) :=
  (loadUInt64 res (j + 8 * k)).bind fun a => (loadUInt64 src (j + 8 * k)).bind fun b => storeUInt64 res (j + 8 * k) (op.word a b)

def invertWord (j : ℕ) (res : List UInt8) (k : ℕ) : Option (List UInt8) :=
  (loadUInt64 res (j + 8 * k)).bind fun a => storeUInt64 res (j + 8 * k) (~~~a)

/-- One round of the fast path: four words of the result, with those of each further source. -/
def stride (op : Op) (srcs : List (List UInt8)) (j : ℕ) (res : List UInt8) : Option (List UInt8) :=
  if op = .not then [0, 1, 2, 3].foldlM (invertWord j) res
  else srcs.tail.foldlM (fun res src => [0, 1, 2, 3].foldlM (combineWord op src j) res) res

def fastLoop (op : Op) (srcs : List (List UInt8)) (j minlen : ℕ) (res : List UInt8) : Option (ℕ × List UInt8) :=
  if 32 ≤ minlen then (stride op srcs j res).bind fun res => fastLoop op srcs (j + 32) (minlen - 32) res else some (j, res)
termination_by minlen

def outputByte (op : Op) (srcs : List (List UInt8)) (j : ℕ) : UInt8 :=
  let output := (srcs.headD []).getD j 0
  let output := if op = .not then ~~~output else output
  srcs.tail.foldl (fun output src => op.byte output (src.getD j 0)) output

/-- The loop over the bytes from `j` on. -/
def byteLoop (op : Op) (srcs : List (List UInt8)) (maxlen j : ℕ) (res : List UInt8) : Option (List UInt8) :=
  (List.range' j (maxlen - j)).foldlM (fun res j => Memory.write res j [outputByte op srcs j]) res

def bitopResult (op : Op) (srcs : List (List UInt8)) (maxlen minlen : ℕ) : Option (List UInt8) :=
  let res := List.replicate maxlen 0
  if 0 < minlen ∧ srcs.length ≤ 16 then
    ((Memory.read (srcs.headD []) 0 minlen).bind (Memory.write res 0)).bind fun res =>
      (fastLoop op srcs 0 minlen res).bind fun r => byteLoop op srcs maxlen r.1 r.2
  else byteLoop op srcs maxlen 0 res

/-- The loop that looks the sources up: the strings, the longest and the shortest length; a key of another type ends it. -/
@[grind =] def lookupSources (db : Sds → Option Obj) : List Sds → ℕ → List (List UInt8) → ℕ → ℕ → Option (List (List UInt8) × ℕ × ℕ)
  | [], _, src, maxlen, minlen => some (src, maxlen, minlen)
  | key :: keys, j, src, maxlen, minlen =>
    match db key with
    | none => lookupSources db keys (j + 1) (src ++ [[]]) maxlen 0
    | some .other => none
    | some (.string o) =>
      let s := getDecodedObject o
      lookupSources db keys (j + 1) (src ++ [s]) (if maxlen < s.length then s.length else maxlen) (if j = 0 ∨ s.length < minlen then s.length else minlen)

/-- `bitopCommand`: what the keys hold then, and the reply. -/
def bitopCommand (opname targetkey : Sds) (keys : List Sds) (db : Sds → Option Obj) : Option ((Sds → Option Obj) × Reply) :=
  match parseOp opname with
  | none => some (db, .error "syntax error")
  | some op =>
    if op = .not ∧ keys.length ≠ 1 then some (db, .error "BITOP NOT must be called with a single source key.")
    else
      match lookupSources db keys 0 [] 0 0 with
      | none => some (db, .wrongtypeerr)
      | some (src, maxlen, minlen) =>
        if 0 < maxlen then (bitopResult op src maxlen minlen).map fun res => (Function.update db targetkey (some (.string (.raw res))), .integer maxlen)
        else some (Function.update db targetkey none, .integer maxlen)

end KVStores.Redis.Bitops
