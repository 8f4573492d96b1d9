import KVStores.Lib.Script
import KVStores.Redis.Object

/-!
# Saving the dataset

rdb.c writes the dataset to a temporary file, which then replaces the dump file. Each routine returns how many bytes it wrote, as
an `int`, or -1 for an error.

A dict is the list of its entries as the iterator returns them. The LZF compressor, the CRC and the printing of doubles are
parameters.
-/

namespace KVStores.Redis.Rdb

/-- A routine that writes, call after call of `rioWrite`. -/
abbrev Save := Script (List UInt8)

/-- What is kept in an `int`. -/
def cint (n : ℤ) : ℤ := Int.bmod n (2 ^ 32)

/-- The `n` bytes of a number, the lowest first. -/
@[grind =] def littleEndian : ℕ → ℕ → List UInt8
  | 0, _ => []
  | n + 1, v => UInt8.ofNat v :: littleEndian n (v / 256)

inductive Double (α : Type)
  | nan
  | inf (negative : Bool)
  | finite (x : α)

/-- The settings of the server, and what is not part of rdb.c. -/
structure Config (α : Type) where
  rdbCompression : Bool
  rdbChecksum : Bool
  /-- `lzf_compress` of some bytes to at most that many; no bytes when it fails. -/
  lzfCompress : List UInt8 → ℕ → List UInt8
  crc64 : UInt64 → List UInt8 → UInt64
  /-- The double as a `long long`, if it is small and has no decimal part. -/
  toLongLong : α → Option Long
  /-- The double printed with `%.17g`. -/
  printDouble : α → List UInt8

inductive Value (α : Type)
  | string (o : Robj)
  | listZiplist (blob : List UInt8)
  | listLinked (l : List Robj)
  | setIntset (blob : List UInt8)
  | setHt (l : List Robj)
  | zsetZiplist (blob : List UInt8)
  | zsetSkiplist (l : List (Robj × Double α))
  | hashZiplist (blob : List UInt8)
  | hashHt (l : List (Robj × Robj))

structure Entry (α : Type) where
  key : List UInt8
  value : Value α
  expire : Long

variable {α : Type}

/-- `rioWrite`; `heeded` says whether the caller finds out that it failed. -/
def rioWrite (heeded : Bool) (buf : List UInt8) : Save Bool := .write buf heeded .done

def rdbWriteRaw (heeded : Bool) (p : List UInt8) : Save ℤ := do
  if (← rioWrite heeded p) = false then return -1
  return cint p.length

def rdbSaveType (type : UInt8) : Save ℤ := rdbWriteRaw true [type]

def rdbSaveMillisecondTime (t : Long) : Save ℤ := rdbWriteRaw true (littleEndian 8 (t.1 % 2 ^ 64).toNat)

/-- `rdbSaveLen`, of a `uint32_t`. The result of the last call is compared with -4. -/
def rdbSaveLen (len : ℕ) : Save ℤ := do
  let len := len % 2 ^ 32
  if len < 2 ^ 6 then
    if (← rdbWriteRaw true [UInt8.ofNat len]) = -1 then return -1
    return 1
  else if len < 2 ^ 14 then
    if (← rdbWriteRaw true [UInt8.ofNat (len / 256 + 64), UInt8.ofNat len]) = -1 then return -1
    return 2
  else
    if (← rdbWriteRaw true [128]) = -1 then return -1
    if (← rdbWriteRaw false (littleEndian 4 len).reverse) = -4 then return -1
    return 5

/-- `rdbEncodeInteger`; no bytes when the number is too large. -/
def rdbEncodeInteger (value : ℤ) : List UInt8 :=
  if -2 ^ 7 ≤ value ∧ value ≤ 2 ^ 7 - 1 then 192 :: littleEndian 1 (value % 2 ^ 8).toNat
  else if -2 ^ 15 ≤ value ∧ value ≤ 2 ^ 15 - 1 then 193 :: littleEndian 2 (value % 2 ^ 16).toNat
  else if -2 ^ 31 ≤ value ∧ value ≤ 2 ^ 31 - 1 then 194 :: littleEndian 4 (value % 2 ^ 32).toNat
  else []

/-- `rdbTryIntegerEncoding`: of a string that is how a number is printed. -/
def rdbTryIntegerEncoding (s : List UInt8) : List UInt8 := (string2ll s).elim [] fun v => rdbEncodeInteger v.1

/-- `rdbSaveLzfStringObject`; 0 when the string cannot be compressed. -/
def rdbSaveLzfStringObject (cfg : Config α) (s : List UInt8) : Save ℤ := do
  if s.length ≤ 4 then return 0
  let out := cfg.lzfCompress s (s.length - 4)
  if out = [] then return 0
  let n ← rdbWriteRaw true [195]
  if n = -1 then return -1
  let nwritten := n
  let n ← rdbSaveLen out.length
  if n = -1 then return -1
  let nwritten := cint (nwritten + n)
  let n ← rdbSaveLen s.length
  if n = -1 then return -1
  let nwritten := cint (nwritten + n)
  let n ← rdbWriteRaw true out
  if n = -1 then return -1
  return cint (nwritten + n)

/-- The end of `rdbSaveRawString`: the bytes as they are. -/
def rdbSaveVerbatim (s : List UInt8) : Save ℤ := do
  let n ← rdbSaveLen s.length
  if n = -1 then return -1
  if s ≠ [] then
    if (← rdbWriteRaw true s) = -1 then return -1
    return cint (n + s.length)
  return n

def rdbSaveRawString (cfg : Config α) (s : List UInt8) : Save ℤ := do
  if s.length ≤ 11 ∧ rdbTryIntegerEncoding s ≠ [] then
    if (← rdbWriteRaw true (rdbTryIntegerEncoding s)) = -1 then return -1
    return (rdbTryIntegerEncoding s).length
  if cfg.rdbCompression = true ∧ s.length > 20 then
    let n ← rdbSaveLzfStringObject cfg s
    if n = -1 then return -1
    if n > 0 then return n
    rdbSaveVerbatim s
  else rdbSaveVerbatim s

def rdbSaveLongLongAsStringObject (value : Long) : Save ℤ := do
  if rdbEncodeInteger value.1 ≠ [] then rdbWriteRaw true (rdbEncodeInteger value.1)
  else
    let n ← rdbSaveLen (ll2string value.1).length
    if n = -1 then return -1
    let nwritten := n
    let n ← rdbWriteRaw true (ll2string value.1)
    if n = -1 then return -1
    return cint (nwritten + n)

def rdbSaveStringObject (cfg : Config α) : Robj → Save ℤ
  | .int v => rdbSaveLongLongAsStringObject v
  | .raw s => rdbSaveRawString cfg s

def rdbSaveDoubleValue (cfg : Config α) : Double α → Save ℤ
  | .nan => rdbWriteRaw true [253]
  | .inf negative => rdbWriteRaw true [if negative = true then 255 else 254]
  | .finite x =>
    let text := ((cfg.toLongLong x).map fun v => ll2string v.1).getD (cfg.printDouble x)
    rdbWriteRaw true (UInt8.ofNat text.length :: text)

@[grind =] def rdbSaveObjectType : Value α → Save ℤ
  | .string _ => rdbSaveType 0
  | .listLinked _ => rdbSaveType 1
  | .setHt _ => rdbSaveType 2
  | .zsetSkiplist _ => rdbSaveType 3
  | .hashHt _ => rdbSaveType 4
  | .listZiplist _ => rdbSaveType 10
  | .setIntset _ => rdbSaveType 11
  | .zsetZiplist _ => rdbSaveType 12
  | .hashZiplist _ => rdbSaveType 13

/-- The loops of `rdbSaveObject`: one routine after the other, with what they write summed up. -/
@[grind =] def rdbSaveEach : List (Save ℤ) → ℤ → Save ℤ
  | [], nwritten => return nwritten
  | save :: rest, nwritten => do
    let n ← save
    if n = -1 then return -1
    rdbSaveEach rest (cint (nwritten + n))

@[grind =] def rdbSaveObject (cfg : Config α) : Value α → Save ℤ
  | .string o => rdbSaveEach [rdbSaveStringObject cfg o] 0
  | .listZiplist blob => rdbSaveEach [rdbSaveRawString cfg blob] 0
  | .setIntset blob => rdbSaveEach [rdbSaveRawString cfg blob] 0
  | .zsetZiplist blob => rdbSaveEach [rdbSaveRawString cfg blob] 0
  | .hashZiplist blob => rdbSaveEach [rdbSaveRawString cfg blob] 0
  | .listLinked l => rdbSaveEach (rdbSaveLen l.length :: l.map (rdbSaveStringObject cfg)) 0
  | .setHt l => rdbSaveEach (rdbSaveLen l.length :: l.map (rdbSaveStringObject cfg)) 0
  | .zsetSkiplist l =>
    rdbSaveEach (rdbSaveLen l.length :: l.flatMap fun e => [rdbSaveStringObject cfg e.1, rdbSaveDoubleValue cfg e.2]) 0
  | .hashHt l =>
    rdbSaveEach (rdbSaveLen l.length :: l.flatMap fun e => [rdbSaveStringObject cfg e.1, rdbSaveStringObject cfg e.2]) 0

def rdbSaveKeyValuePair (cfg : Config α) (now : Long) (e : Entry α) : Save ℤ := do
  if e.expire.1 ≠ -1 then
    if e.expire.1 < now.1 then return 0
    if (← rdbSaveType 252) = -1 then return -1
    if (← rdbSaveMillisecondTime e.expire) = -1 then return -1
  if (← rdbSaveObjectType e.value) = -1 then return -1
  if (← rdbSaveStringObject cfg (.raw e.key)) = -1 then return -1
  if (← rdbSaveObject cfg e.value) = -1 then return -1
  return 1

/-- The entries of one database; `false` for the jump to `werr`. -/
@[grind =] def rdbSaveEntries (cfg : Config α) (now : Long) : List (Entry α) → Save Bool
  | [] => return true
  | e :: rest => do
    if (← rdbSaveKeyValuePair cfg now e) = -1 then return false
    rdbSaveEntries cfg now rest

/-- The databases from number `j` on. -/
@[grind =] def rdbSaveDbs (cfg : Config α) (now : Long) : ℕ → List (List (Entry α)) → Save Bool
  | _, [] => return true
  | j, db :: dbs =>
    if db = [] then rdbSaveDbs cfg now (j + 1) dbs
    else do
      if (← rdbSaveType 254) = -1 then return false
      if (← rdbSaveLen j) = -1 then return false
      if (← rdbSaveEntries cfg now db) = false then return false
      rdbSaveDbs cfg now (j + 1) dbs

/-- `rdb.cksum` after some calls. -/
def cksum (cfg : Config α) (written : List (List UInt8)) : UInt64 := if cfg.rdbChecksum = true then written.foldl cfg.crc64 0 else 0

/-- The writes of `rdbSave`: the file with its end mark and its checksum. -/
def rdbSaveFile (cfg : Config α) (now : Long) (dbs : List (List (Entry α))) : Save Bool := do
  if (← rdbWriteRaw true [82, 69, 68, 73, 83, 48, 48, 48, 54]) = -1 then return false
  if (← rdbSaveDbs cfg now 0 dbs) = false then return false
  if (← rdbSaveType 255) = -1 then return false
  let written ← Script.written .done
  let _ ← rioWrite false (littleEndian 8 (cksum cfg written).toNat)
  return true

/-- What the system does for `rdbSave`: whether the file can be opened, the calls of `rioWrite` and the renaming succeed, and how
many bytes of a failing call get to the file all the same. -/
structure Outcome where
  opens : Bool
  ok : ℕ → Bool
  kept : ℕ → ℕ
  renames : Bool

@[grind =] def fileBytes (kept : ℕ → ℕ) : ℕ → List (List UInt8 × Bool) → List UInt8
  | _, [] => []
  | i, (buf, ok) :: t => (if ok = true then buf else buf.take (kept i)) ++ fileBytes kept (i + 1) t

/-- `rdbSave`: whether it returns `REDIS_OK`, and the dump file then. -/
def rdbSave (cfg : Config α) (env : Outcome) (now : Long) (dbs : List (List (Entry α))) (dump : Option (List UInt8)) :
    Bool × Option (List UInt8) :=
  if env.opens = false then (false, dump)
  else
    let (reached, t) := (rdbSaveFile cfg now dbs).run env.ok []
    if reached = false then (false, dump)
    else if env.renames = false then (false, dump)
    else (true, some (fileBytes env.kept 0 t))

end KVStores.Redis.Rdb
