import Mathlib.Data.List.Nodup
import KVStores.Lib.Numeral

/-!
# Dumps of Depot and Villa

`dpexportdb` and `dpimportdb` (`depot.c`), `vlexportdb` and `vlimportdb` (`villa.c`). A dump has the records one after the other,
each with the sizes of its key and its value in front, in hexadecimal and on lines of their own.

A Depot database is what its functions show of it: the records in the order of the file, in which `dpiternext` goes through them,
and at the end of which `dpput` writes a new one while nothing has been deleted. A Villa database is its records in the order
of the cursor. What the operating system answers to the calls of an export is given with it.
-/

namespace KVStores.Qdbm

open List

abbrev Bytes := List UInt8

/-- A digit of `%X`. -/
def hexDigit (k : ℕ) : UInt8 := if k < 10 then UInt8.ofNat (48 + k) else UInt8.ofNat (55 + k)

/-- `%X`. -/
def printHex (n : ℕ) : Bytes := Numeral.numeral 16 hexDigit n

/-- What a character is worth as a digit to `strtol`. -/
def hexVal (c : UInt8) : ℕ :=
  if 48 ≤ c.toNat ∧ c.toNat ≤ 57 then c.toNat - 48
  else if 65 ≤ c.toNat ∧ c.toNat ≤ 90 then c.toNat - 55
  else if 97 ≤ c.toNat ∧ c.toNat ≤ 122 then c.toNat - 87
  else 36

def isHexDigit (c : UInt8) : Bool := decide (hexVal c < 16)

def isspace (c : UInt8) : Bool := decide (c = 32 ∨ 9 ≤ c ∧ c ≤ 13)

/-- The sign that `strtol` reads, and what is behind it. -/
def strtolSign : Bytes → Bool × Bytes
  | 45 :: s => (true, s)
  | 43 :: s => (false, s)
  | s => (false, s)

/-- "0x" in front of a digit, which `strtol` skips. -/
def strtolPrefix : Bytes → Bytes
  | z :: x :: c :: s => if z = 48 ∧ (x = 120 ∨ x = 88) ∧ isHexDigit c = true then c :: s else z :: x :: c :: s
  | s => s

/-- `strtol` to the base 16, cast to an `int`. -/
def strtol16 (s : Bytes) : ℤ :=
  let p := strtolSign (s.dropWhile isspace)
  let n := Numeral.value 16 hexVal 0 ((strtolPrefix p.2).takeWhile isHexDigit)
  let v : ℤ := if p.1 = true then max (-2 ^ 63) (-n) else min (2 ^ 63 - 1) n
  v.bmod (2 ^ 32)

abbrev Record := Bytes × Bytes

/-- What a record takes in a Depot file, without padding: seven numbers, the key and the value. -/
def recordSize (r : Record) : ℕ := 28 + r.1.length + r.2.length

/-- A Depot database. Its offsets are `int`s. -/
structure Depot where
  records : List Record
  fatal : Bool
  nodup : (records.map Prod.fst).Nodup
  fits : (records.map recordSize).sum < 2 ^ 31

/-- `dpopen` of a new file. -/
def Depot.empty : Depot := ⟨[], false, nodup_nil, by decide⟩

theorem Depot.nodup_concat (d : Depot) {r : Record} (hnew : r.1 ∉ d.records.map Prod.fst) : ((d.records ++ [r]).map Prod.fst).Nodup := by
  rw [map_append]
  refine nodup_append.2 ⟨d.nodup, nodup_singleton _, fun a ha b hb => ?_⟩
  rw [mem_singleton.1 hb]
  exact fun h => hnew (h ▸ ha)

/-- `dpput` with `DP_DKEEP`, and whether it succeeds. What does not fit an `int` is left out of the model. -/
def dpput (d : Depot) (r : Record) : Bool × Depot :=
  if d.fatal = true then (false, d)
  else if h : r.1 ∉ d.records.map Prod.fst ∧ ((d.records ++ [r]).map recordSize).sum < 2 ^ 31 then
    (true, ⟨d.records ++ [r], d.fatal, d.nodup_concat h.1, h.2⟩)
  else (false, d)

/-- What `write` returns: how many bytes are written (all of them if there are fewer), or -1 with `EINTR` or another error. -/
inductive WriteResult
  | wrote (n : ℕ)
  | eintr
  | failed
deriving DecidableEq

/-- `dpwrite` with what it has written so far, on what `write` returns to one call after the other: the result, the file, and
what is left of the results. `none` is a call that has not returned. -/
@[grind =] def dpwrite : List WriteResult → Bytes → Bytes → ℤ → Option (ℤ × Bytes × List WriteResult)
  | [], _, _, _ => none
  | .failed :: os, _, file, _ => some (-1, file, os)
  | .eintr :: os, buf, file, rv => if buf = [] then some (rv, file, os) else dpwrite os buf file rv
  | .wrote n :: os, buf, file, rv =>
    if buf.drop n = [] then some (rv + (buf.take n).length, file ++ buf.take n, os)
    else dpwrite os (buf.drop n) (file ++ buf.take n) (rv + (buf.take n).length)

/-- The calls of `malloc` for a record: in `dpiternext`, in `dpget`, and the one of `dpexportdb`. -/
inductive AllocSite
  | key
  | value
  | record
deriving DecidableEq

/-- What happens during an export: `open` and `close` succeed, the call of `malloc` that fails for a record, if any, and what the calls
of `write` return. -/
structure ExportEnv where
  opens : Bool
  closes : Bool
  allocFails : ℕ → Option AllocSite
  writes : List WriteResult

def dumpRecord (r : Record) : Bytes :=
  printHex r.1.length ++ 10 :: (printHex r.2.length ++ 10 :: (r.1 ++ 10 :: (r.2 ++ [10])))

/-- The loop of `dpexportdb` at its end: `err`, `depot->fatal`, the file, what `dpwrite` has returned, and the results of `write` that are left. -/
structure ExportEnd where
  err : Bool
  fatal : Bool
  file : Bytes
  returned : List ℤ
  writes : List WriteResult

/-- The loop of `dpexportdb`, with the number of the record. -/
@[grind =] def exportLoop (allocFails : ℕ → Option AllocSite) : ℕ → List Record → List WriteResult → Bytes → List ℤ → Option ExportEnd
  | _, [], os, file, returned => some ⟨false, false, file, returned, os⟩
  | i, r :: rs, os, file, returned =>
    match allocFails i with
    | some .key => some ⟨false, true, file, returned, os⟩
    | some .value => some ⟨true, true, file, returned, os⟩
    | some .record => some ⟨true, false, file, returned, os⟩
    | none =>
      (dpwrite os (dumpRecord r) file 0).bind fun p =>
        if p.1 = 0 then some ⟨true, false, p.2.1, returned ++ [p.1], p.2.2⟩
        else exportLoop allocFails (i + 1) rs p.2.2 p.2.1 (returned ++ [p.1])

/-- An export that has returned: its result, the file, and what `dpwrite` has returned. -/
structure Exported where
  ok : Bool
  file : Bytes
  returned : List ℤ

/-- `dpexportdb`; `none` when the calls of `write` are others than those that are made. -/
def dpexportdb (d : Depot) (env : ExportEnv) : Option Exported :=
  if d.fatal = true ∨ env.opens = false then (if env.writes = [] then some ⟨false, [], []⟩ else none)
  else
    (exportLoop env.allocFails 0 d.records env.writes [] []).bind fun e =>
      if e.writes = [] then some ⟨env.closes && !e.err && !e.fatal, e.file, e.returned⟩ else none

def ioBufSiz : ℕ := 8192

def splitLine (s : Bytes) : Option (Bytes × Bytes) :=
  match s.dropWhile (· != 10) with
  | [] => none
  | _ :: rest => some (s.takeWhile (· != 10), rest)

def readHeader (mbuf : Bytes) : Option (Bytes × Bytes × Bytes) :=
  (splitLine mbuf).bind fun p => (splitLine p.2).map fun q => (p.1, q.1, q.2)

/-- A round of `dpimportdb` at an offset, with what `mbuf` holds of the round before: the record, its length in the file, and what `mbuf`
holds then, in which the ends of the two lines are set to zero. `none` is an error. -/
def readRecord (file : Bytes) (off : ℕ) (stale : Bytes) : Option (Record × ℕ × Bytes) :=
  let mbuf := (file.drop off).take ioBufSiz
  (readHeader mbuf).bind fun p =>
    let hlen := p.1.length + p.2.1.length + 2
    let ksiz := strtol16 p.1
    let vsiz := strtol16 p.2.1
    if ksiz < 0 ∨ vsiz < 0 ∨ hlen < 4 then none
    else
      let rest := p.2.2 ++ stale.drop mbuf.length
      let size := hlen + ksiz.toNat + vsiz.toNat + 2
      let used := p.1 ++ 0 :: (p.2.1 ++ 0 :: rest)
      if size < ioBufSiz then some ((rest.take ksiz.toNat, (rest.drop (ksiz.toNat + 1)).take vsiz.toNat), size, used)
      else
        let rbuf := (file.drop (off + hlen)).take (ksiz.toNat + vsiz.toNat + 2)
        if rbuf.length < ksiz.toNat + vsiz.toNat + 2 then none
        else some ((rbuf.take ksiz.toNat, (rbuf.drop (ksiz.toNat + 1)).take vsiz.toNat), size, used)

/-- `sbuf.st_size` as an `int`. -/
def fileSize (file : Bytes) : ℤ := (file.length : ℤ).bmod (2 ^ 32)

/-- The loop of `dpimportdb`. The number of rounds is bounded. -/
@[grind =] def importLoop (file : Bytes) : ℕ → ℕ → Bytes → Depot → Bool × Depot
  | 0, _, _, d => (false, d)
  | fuel + 1, off, stale, d =>
    if fileSize file ≤ off then (true, d)
    else
      match readRecord file off stale with
      | none => (false, d)
      | some (r, size, mbuf) =>
        if (dpput d r).1 = true then importLoop file fuel (off + size) mbuf (dpput d r).2 else (false, (dpput d r).2)

/-- `dpimportdb` into an empty database, with no failure of the operating system, and with what `mbuf` holds at first. A round
takes some bytes of the file. -/
def dpimportdb (file stale : Bytes) : Bool × Depot := importLoop file (file.length + 1) 0 stale .empty

variable (le : Bytes → Bytes → Prop)

/-- A Villa database: its records in the order of the cursor, which is that of the keys. The numbered records fit in a Depot file. -/
structure Villa where
  records : List Record
  fatal : Bool
  sorted : records.Pairwise fun r r' => le r.1 r'.1
  fits : (records.map fun r => recordSize r + 9).sum < 2 ^ 31

variable {le}

/-- What becomes of `vlexportdb`: the temporary database is opened, the call of `dpput` that fails, if any, what happens in
`dpexportdb`, and whether the temporary database is closed and removed. -/
structure VillaEnv where
  opens : Bool
  putFails : Option ℕ
  dump : ExportEnv
  closes : Bool
  removes : Bool

/-- The key under which a record is copied: `"%X\t"` with its number, and its own. -/
def numberKey (i : ℕ) (r : Record) : Record := (printHex i ++ 9 :: r.1, r.2)

/-- The loop of `vlexportdb`: whether it is without an error, and the temporary database, which a failure of the operating system leaves
with a fatal error. -/
@[grind =] def copyLoop (putFails : Option ℕ) : ℕ → List Record → Depot → Bool × Depot
  | _, [], d => (true, d)
  | i, r :: rs, d =>
    if putFails = some i then (false, { d with fatal := true })
    else
      let p := dpput d (numberKey i r)
      if p.1 = true then copyLoop putFails (i + 1) rs p.2 else (false, p.2)

def vlexportdb (v : Villa le) (env : VillaEnv) : Option Exported :=
  if env.opens = false then (if env.dump.writes = [] then some ⟨false, [], []⟩ else none)
  else
    let p := copyLoop env.putFails 0 v.records .empty
    (dpexportdb p.2 env.dump).map fun e => ⟨p.1 && e.ok && env.closes && env.removes && !v.fatal, e.file, e.returned⟩

/-- `vlput` with `VL_DDUP`: the record goes behind those with the same key. -/
def vlput (le : Bytes → Bytes → Prop) [DecidableRel le] (rs : List Record) (r : Record) : List Record :=
  rs.takeWhile (fun r' => le r'.1 r.1) ++ r :: rs.dropWhile fun r' => le r'.1 r.1

/-- The loop of `vlimportdb`. -/
@[grind =] def uncopyLoop (le : Bytes → Bytes → Prop) [DecidableRel le] : List Record → List Record → Bool × List Record
  | [], rs => (true, rs)
  | r :: ds, rs =>
    match r.1.dropWhile (· != 9) with
    | [] => (false, rs)
    | _ :: key => uncopyLoop le ds (vlput le rs (key, r.2))

/-- `vlimportdb` into an empty database, with no failure of the operating system. -/
def vlimportdb (le : Bytes → Bytes → Prop) [DecidableRel le] (file stale : Bytes) : Bool × List Record :=
  let p := dpimportdb file stale
  if p.1 = true then uncopyLoop le p.2.records [] else (false, [])

end KVStores.Qdbm
