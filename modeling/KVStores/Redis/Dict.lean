import KVStores.Lib.KeyedBag
import Mathlib.Algebra.Order.Ring.Nat

/-!
# Hash tables

The hash tables of Redis (`dict.c`): chains of entries in two tables, the second one in use while
the entries move to a table of another size, one bucket at a time.

A read outside of a table, a failed assertion and an overflow of the `int` that counts the
buckets are faults (`none`). A table that was never allocated has no buckets.
-/

namespace KVStores.Redis

/-- `dictType`: a hash function, and a comparison that is an equivalence and compatible with it. -/
structure DictType (K : Type) where
  hashFunction : K → UInt32
  keyCompare : K → K → Bool
  equiv : KeyEquiv keyCompare
  hash_eq : ∀ a b, keyCompare a b = true → hashFunction a = hashFunction b

structure DictHt (K V : Type) where
  table : ℕ → List (K × V)
  size : ℕ
  used : ℕ

/-- `dict`; `rehashidx` is nothing for -1. -/
structure Dict (K V : Type) where
  ht0 : DictHt K V
  ht1 : DictHt K V
  rehashidx : Option ℕ
  iterators : ℕ

def dictHtInitialSize : ℕ := 4

def dictForceResizeRatio : ℕ := 5

def longMax : ℕ := 2 ^ 63 - 1

/-- One more than `INT_MAX`. -/
def intLimit : ℕ := 2 ^ 31

variable {K V : Type}

namespace DictHt

/-- `_dictReset`. -/
def reset : DictHt K V := ⟨fun _ => [], 0, 0⟩

def alloc (size : ℕ) : DictHt K V := ⟨fun _ => [], size, 0⟩

def sizemask (t : DictHt K V) : ℕ := t.size - 1

/-- `dictHashKey(d, key) & sizemask`. -/
def slot (ty : DictType K) (t : DictHt K V) (key : K) : ℕ := (ty.hashFunction key).toNat &&& t.sizemask

/-- `table[idx]`. -/
def bucket (t : DictHt K V) (idx : ℕ) : Option (List (K × V)) := if idx < t.size then some (t.table idx) else none

def push (t : DictHt K V) (idx : ℕ) (e : K × V) : DictHt K V :=
  { t with table := Function.update t.table idx (e :: t.table idx), used := t.used + 1 }

/-- The first entry of a chain with the key is taken out. -/
def unlink (ty : DictType K) (t : DictHt K V) (idx : ℕ) (key : K) : DictHt K V :=
  { t with table := Function.update t.table idx ((t.table idx).eraseP fun e => ty.keyCompare key e.1), used := t.used - 1 }

@[grind =] def setFirst (ty : DictType K) (key : K) (val : V) : List (K × V) → List (K × V)
  | [] => []
  | e :: l => if ty.keyCompare key e.1 then (e.1, val) :: l else e :: setFirst ty key val l

/-- `dictSetVal` for the entry of a chain with the key. -/
def setVal (ty : DictType K) (t : DictHt K V) (idx : ℕ) (key : K) (val : V) : DictHt K V :=
  { t with table := Function.update t.table idx (setFirst ty key val (t.table idx)) }

end DictHt

def dictCreate : Dict K V := ⟨.reset, .reset, none, 0⟩

def Dict.isRehashing (d : Dict K V) : Bool := d.rehashidx.isSome

/-- The loop of `_dictNextPower`; below `LONG_MAX` it ends after 61 rounds. -/
@[grind =] def nextPowerLoop (size : ℕ) : ℕ → ℕ → ℕ
  | 0, i => i
  | fuel + 1, i => if size ≤ i then i else nextPowerLoop size fuel (i * 2)

def dictNextPower (size : ℕ) : ℕ := if longMax ≤ size then longMax else nextPowerLoop size 61 dictHtInitialSize

/-- `dictExpand`: whether it is `DICT_OK`. -/
def dictExpand (d : Dict K V) (size : ℕ) : Bool × Dict K V :=
  if d.isRehashing || decide (size < d.ht0.used) then (false, d)
  else if d.ht0.size = 0 then (true, { d with ht0 := .alloc (dictNextPower size) })
  else (true, { d with ht1 := .alloc (dictNextPower size), rehashidx := some 0 })

/-- The `int` to which `dictResize` assigns `used`, at least the initial size. -/
def minimalSize (used : ℕ) : ℕ :=
  if used % 2 ^ 32 < dictHtInitialSize ∨ intLimit ≤ used % 2 ^ 32 then dictHtInitialSize else used % 2 ^ 32

def dictResize (canResize : Bool) (d : Dict K V) : Bool × Dict K V :=
  if !canResize || d.isRehashing then (false, d) else dictExpand d (minimalSize d.ht0.used)

def dictExpandIfNeeded (canResize : Bool) (d : Dict K V) : Bool × Dict K V :=
  if d.isRehashing then (true, d)
  else if d.ht0.size = 0 then dictExpand d dictHtInitialSize
  else if d.ht0.size ≤ d.ht0.used ∧ (canResize = true ∨ dictForceResizeRatio < d.ht0.used / d.ht0.size) then
    dictExpand d ((if d.ht0.used < d.ht0.size then d.ht0.size else d.ht0.used) * 2)
  else (true, d)

/-- The scan of `dictRehash` for a bucket that is not empty: a fault at the end of the table and at the last `int`. -/
@[grind =] def scanBuckets (t : DictHt K V) : ℕ → ℕ → Option ℕ
  | 0, _ => none
  | fuel + 1, idx => if (t.table idx).isEmpty then if idx + 1 < intLimit then scanBuckets t fuel (idx + 1) else none else some idx

def moveBucket (ty : DictType K) (chain : List (K × V)) (t : DictHt K V) : DictHt K V :=
  chain.foldl (fun t e => t.push (t.slot ty e.1) e) t

/-- One round of `dictRehash`: whether there is more to do. -/
def dictRehashRound (ty : DictType K) (d : Dict K V) (idx : ℕ) : Option (Bool × Dict K V) :=
  if d.ht0.used = 0 then some (false, { d with ht0 := d.ht1, ht1 := .reset, rehashidx := none })
  else if d.ht0.size ≤ idx then none
  else
    match scanBuckets d.ht0 (d.ht0.size - idx) idx with
    | none => none
    | some idx =>
      if idx + 1 < intLimit then
        some (true, { d with
          ht0 := { d.ht0 with table := Function.update d.ht0.table idx [], used := d.ht0.used - (d.ht0.table idx).length }
          ht1 := moveBucket ty (d.ht0.table idx) d.ht1
          rehashidx := some (idx + 1) })
      else none

@[grind =] def dictRehash (ty : DictType K) : ℕ → Dict K V → Option (Bool × Dict K V)
  | n, d =>
    match d.rehashidx with
    | none => some (false, d)
    | some idx =>
      match n with
      | 0 => some (true, d)
      | n + 1 =>
        match dictRehashRound ty d idx with
        | none => none
        | some (false, d) => some (false, d)
        | some (true, d) => dictRehash ty n d

/-- `_dictRehashStep`, where it is called: while a rehashing is in progress. -/
def dictRehashStep (ty : DictType K) (d : Dict K V) : Option (Dict K V) :=
  if d.isRehashing && decide (d.iterators = 0) then (dictRehash ty 1 d).map Prod.snd else some d

/-- The loop over the tables in `dictFind`, `_dictKeyIndex` and `dictGenericDelete`: the entry with the key, and whether it is in the
second table. -/
def searchTables (ty : DictType K) (d : Dict K V) (key : K) : Option (Option (Bool × (K × V))) :=
  match d.ht0.bucket (d.ht0.slot ty key) with
  | none => none
  | some chain =>
    match chain.find? fun e => ty.keyCompare key e.1 with
    | some e => some (some (false, e))
    | none =>
      if d.isRehashing then
        (d.ht1.bucket (d.ht1.slot ty key)).map fun chain => (chain.find? fun e => ty.keyCompare key e.1).map fun e => (true, e)
      else some none

def dictFind (ty : DictType K) (d : Dict K V) (key : K) : Option (Option (K × V) × Dict K V) :=
  if d.ht0.size = 0 then some (none, d)
  else
    match dictRehashStep ty d with
    | none => none
    | some d => (searchTables ty d key).map fun found => (found.map Prod.snd, d)

/-- `dictSetVal` for the entry that was found. -/
def dictSetVal (ty : DictType K) (d : Dict K V) (second : Bool) (key : K) (val : V) : Dict K V :=
  if second then { d with ht1 := d.ht1.setVal ty (d.ht1.slot ty key) key val }
  else { d with ht0 := d.ht0.setVal ty (d.ht0.slot ty key) key val }

/-- `dictFind`, and `dictSetVal` for the entry that it returns. -/
def dictFindSet (ty : DictType K) (d : Dict K V) (key : K) (val : V) : Option (Bool × Dict K V) :=
  if d.ht0.size = 0 then some (false, d)
  else
    match dictRehashStep ty d with
    | none => none
    | some d => (searchTables ty d key).map fun found =>
        match found with
        | none => (false, d)
        | some (second, _) => (true, dictSetVal ty d second key val)

/-- An `unsigned int` returned as an `int`. -/
def toInt (n : ℕ) : ℤ := if n < intLimit then n else (n : ℤ) - 2 * intLimit

/-- `_dictKeyIndex`: the bucket for a new key in the table for additions. -/
def dictKeyIndex (ty : DictType K) (canResize : Bool) (d : Dict K V) (key : K) : Option (ℤ × Dict K V) :=
  match dictExpandIfNeeded canResize d with
  | (false, d) => some (-1, d)
  | (true, d) => (searchTables ty d key).map fun found =>
      match found with
      | some _ => (-1, d)
      | none => (toInt (if d.isRehashing then d.ht1.slot ty key else d.ht0.slot ty key), d)

/-- The second half of `dictAddRaw`: an entry at `table[index]`, which is a fault in front of the table. -/
def addEntry (d : Dict K V) (index : ℤ) (e : K × V) : Option (Bool × Dict K V) :=
  if index = -1 then some (false, d)
  else if index < 0 then none
  else some (true, if d.isRehashing then { d with ht1 := d.ht1.push index.toNat e } else { d with ht0 := d.ht0.push index.toNat e })

/-- `dictAddRaw`, and the value that the caller sets in the new entry: whether there is one. -/
def dictAddRaw (ty : DictType K) (canResize : Bool) (d : Dict K V) (key : K) (val : V) : Option (Bool × Dict K V) :=
  match dictRehashStep ty d with
  | none => none
  | some d =>
    match dictKeyIndex ty canResize d key with
    | none => none
    | some (index, d) => addEntry d index (key, val)

/-- `dictAdd`: whether it is `DICT_OK`. -/
def dictAdd (ty : DictType K) (canResize : Bool) (d : Dict K V) (key : K) (val : V) : Option (Bool × Dict K V) :=
  dictAddRaw ty canResize d key val

/-- `dictReplace`: whether the key was added. An entry that is not found behind a failed `dictAdd` is a fault. -/
def dictReplace (ty : DictType K) (canResize : Bool) (d : Dict K V) (key : K) (val : V) : Option (Bool × Dict K V) :=
  match dictAdd ty canResize d key val with
  | none => none
  | some (true, d) => some (true, d)
  | some (false, d) =>
    match dictFindSet ty d key val with
    | some (true, d) => some (false, d)
    | _ => none

/-- `dictReplaceRaw`, and the value that the caller sets in the entry that it returns. -/
def dictReplaceRaw (ty : DictType K) (canResize : Bool) (d : Dict K V) (key : K) (val : V) : Option (Bool × Dict K V) :=
  match dictFindSet ty d key val with
  | none => none
  | some (true, d) => some (true, d)
  | some (false, d) => dictAddRaw ty canResize d key val

/-- `dictGenericDelete`: whether it is `DICT_OK`. -/
def dictDelete (ty : DictType K) (d : Dict K V) (key : K) : Option (Bool × Dict K V) :=
  if d.ht0.size = 0 then some (false, d)
  else
    match dictRehashStep ty d with
    | none => none
    | some d => (searchTables ty d key).map fun found =>
        match found with
        | none => (false, d)
        | some (true, _) => (true, { d with ht1 := d.ht1.unlink ty (d.ht1.slot ty key) key })
        | some (false, _) => (true, { d with ht0 := d.ht0.unlink ty (d.ht0.slot ty key) key })

end KVStores.Redis
