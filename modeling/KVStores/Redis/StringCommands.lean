import KVStores.Redis.Aof
import KVStores.Redis.Keyspace

/-!
# Commands on strings

t_string.c and the writing commands of bitops.c, without the replies. Numbers with a fraction are computed by `Floats`.
-/

namespace KVStores.Redis

/-- What the C library does with floating point numbers. -/
structure Floats (Score : Type) where
  /-- `getDoubleFromObject`. -/
  getDouble : Sds → Option Score
  /-- `==` of scores. -/
  eq : Score → Score → Bool
  /-- `<` of scores. -/
  lt : Score → Score → Bool
  /-- A sum of scores; `none` for NaN. -/
  add : Score → Score → Option Score
  /-- The old value, 0 without one, and the increment, read, added and printed; `none` when one is no number, or the sum is not finite. -/
  incrbyfloat : Option Sds → Sds → Option Sds
  /-- The same where the sum may be infinite. -/
  hincrbyfloat : Option Sds → Sds → Option Sds
  /-- Whether `getLongDoubleFromObject` reads a number. -/
  isLongDouble : Sds → Bool
  /-- `zslParseRange`: whether a score is in a range. -/
  parseRange : Sds → Sds → Option (Score → Bool)

variable {Score : Type}

theorem ll2string_length (n : ℤ) : (ll2string (n.bmod (2 ^ 64))).length < 2 ^ 31 := by
  have hlow := Int.le_bmod (x := n) (m := 2 ^ 64) (by decide)
  have hhigh := Int.bmod_lt (x := n) (m := 2 ^ 64) (by decide)
  have hlen := length_decimal 18 (n := (n.bmod (2 ^ 64)).natAbs) (by omega)
  rw [ll2string]
  by_cases hneg : n.bmod (2 ^ 64) < 0
  · rw [if_pos hneg, List.length_cons]
    omega
  · rw [if_neg hneg]
    omega

def createStringObjectFromLongLong (n : ℤ) : Sds := ⟨ll2string (n.bmod (2 ^ 64)), ll2string_length n⟩

def setName : Sds := ⟨Aof.setName, by decide⟩

/-- `checkStringLength`: at most 512 MB. -/
def stringMax : ℕ := 512 * 1024 * 1024

/-- A string built by a command; its length fits an `int`. -/
def storeString (s : List UInt8) : Change Score := if h : s.length < 2 ^ 31 then .store (.string ⟨s, h⟩) 1 else .keep

/-- The time to live that `setGenericCommand` reads: `none` for an error reply, 0 if there is none to read. -/
def expireMilliseconds (expire : Option Sds) (seconds : Bool) : Option ℤ :=
  match expire with
  | none => some 0
  | some t =>
    (getLongLongFromObject t.1).bind fun milliseconds =>
      if milliseconds ≤ 0 then none else some (if seconds = true then (milliseconds * 1000).bmod (2 ^ 64) else milliseconds)

def setGenericCommand (e : Env) (s : Keyspace Score) (n : ℕ) (nx : Bool) (key val : Sds) (expire : Option Sds) (seconds : Bool) :
    Keyspace Score :=
  match expireMilliseconds expire seconds with
  | none => s
  | some milliseconds =>
    let s := if nx = true then expireIfNeeded e s n key else s
    if nx = true ∧ lookupKey s n key ≠ none then s
    else
      let s := addDirty (Keyspace.setKey e s n key (.string val)) 1
      if expire.isSome = true then setExpire s n key ((e.now + milliseconds).bmod (2 ^ 64)) else s

theorem setGenericCommand_plain (e : Env) (s : Keyspace Score) (n : ℕ) (key val : Sds) (seconds : Bool) :
    setGenericCommand e s n false key val none seconds = addDirty (Keyspace.setKey e s n key (.string val)) 1 := rfl

def setCommand (e : Env) (s : Keyspace Score) (n : ℕ) : Keyspace Score := setGenericCommand e s n false (s.arg 1) (s.arg 2) none false

def setnxCommand (e : Env) (s : Keyspace Score) (n : ℕ) : Keyspace Score := setGenericCommand e s n true (s.arg 1) (s.arg 2) none false

def setexCommand (e : Env) (s : Keyspace Score) (n : ℕ) : Keyspace Score :=
  setGenericCommand e s n false (s.arg 1) (s.arg 3) (some (s.arg 2)) true

def psetexCommand (e : Env) (s : Keyspace Score) (n : ℕ) : Keyspace Score :=
  setGenericCommand e s n false (s.arg 1) (s.arg 3) (some (s.arg 2)) false

def Value.isString : Value Score → Bool
  | .string _ => true
  | _ => false

/-- `getCommand`: nothing but the lookup shows. -/
def getCommand (e : Env) (s : Keyspace Score) (n : ℕ) : Keyspace Score := expireIfNeeded e s n (s.arg 1)

def getsetCommand (e : Env) (s : Keyspace Score) (n : ℕ) : Keyspace Score :=
  let s := expireIfNeeded e s n (s.arg 1)
  if (lookupKey s n (s.arg 1)).any (fun o => !o.isString) = true then s else addDirty (Keyspace.setKey e s n (s.arg 1) (.string (s.arg 2))) 1

@[grind =] def keysAndValues : List Sds → List (Sds × Sds)
  | key :: val :: rest => (key, val) :: keysAndValues rest
  | _ => []

def msetGenericCommand (e : Env) (s : Keyspace Score) (n : ℕ) (nx : Bool) : Keyspace Score :=
  if s.argv.length % 2 = 0 then s
  else
    let pairs := keysAndValues s.argv.tail
    let s := if nx = true then pairs.foldl (fun s p => expireIfNeeded e s n p.1) s else s
    if nx = true ∧ pairs.any (fun p => (lookupKey s n p.1).isSome) = true then s
    else addDirty (pairs.foldl (fun s p => Keyspace.setKey e s n p.1 (.string p.2)) s) ((s.argv.length - 1) / 2)

def msetCommand (e : Env) (s : Keyspace Score) (n : ℕ) : Keyspace Score := msetGenericCommand e s n false

def msetnxCommand (e : Env) (s : Keyspace Score) (n : ℕ) : Keyspace Score := msetGenericCommand e s n true

/-- Whether a sum leaves the range of a `long long`, as `incrDecrCommand` finds out. -/
def wouldOverflow (old incr : ℤ) : Bool :=
  decide ((incr < 0 ∧ old < 0 ∧ incr < -2 ^ 63 - old) ∨ (0 < incr ∧ 0 < old ∧ 2 ^ 63 - 1 - old < incr))

def incrDecrChange (incr : ℤ) (o : Option (Value Score)) : Change Score :=
  let store (old : ℤ) : Change Score := if wouldOverflow old incr = true then .keep else .store (.string (createStringObjectFromLongLong (old + incr))) 1
  match o with
  | none => store 0
  | some (.string v) =>
    match getLongLongFromObject v.1 with
    | none => .keep
    | some old => store old
  | some _ => .keep

def incrDecrCommand (e : Env) (s : Keyspace Score) (n : ℕ) (incr : ℤ) : Keyspace Score := changeKey e s n (s.arg 1) (incrDecrChange incr)

def incrCommand (e : Env) (s : Keyspace Score) (n : ℕ) : Keyspace Score := incrDecrCommand e s n 1

def decrCommand (e : Env) (s : Keyspace Score) (n : ℕ) : Keyspace Score := incrDecrCommand e s n (-1)

def incrbyCommand (e : Env) (s : Keyspace Score) (n : ℕ) : Keyspace Score :=
  match getLongLongFromObject (s.arg 2).1 with
  | none => s
  | some incr => incrDecrCommand e s n incr

def decrbyCommand (e : Env) (s : Keyspace Score) (n : ℕ) : Keyspace Score :=
  match getLongLongFromObject (s.arg 2).1 with
  | none => s
  | some incr => incrDecrCommand e s n ((-incr).bmod (2 ^ 64))

def rewriteClientCommandArgument (s : Keyspace Score) (i : ℕ) (newval : Sds) : Keyspace Score := { s with argv := s.argv.set i newval }

/-- What `incrbyfloatCommand` would store. -/
def incrbyfloatResult (floats : Floats Score) (o : Option (Value Score)) (incr : Sds) : Option Sds :=
  match o with
  | none => floats.incrbyfloat none incr
  | some (.string v) => floats.incrbyfloat (some v) incr
  | some _ => none

/-- `incrbyfloatCommand`; it is propagated as a `SET`. -/
def incrbyfloatCommand (floats : Floats Score) (e : Env) (s : Keyspace Score) (n : ℕ) : Keyspace Score :=
  let s := expireIfNeeded e s n (s.arg 1)
  match incrbyfloatResult floats (lookupKey s n (s.arg 1)) (s.arg 2) with
  | none => s
  | some new =>
    let s := addDirty (signalModifiedKey (s.setDict n (s.arg 1) (some (.string new))) n (s.arg 1)) 1
    rewriteClientCommandArgument (rewriteClientCommandArgument s 0 setName) 2 new

def appendChange (tail : Sds) (o : Option (Value Score)) : Change Score :=
  match o with
  | none => .store (.string tail) 1
  | some (.string v) => if stringMax < v.1.length + tail.1.length then .keep else storeString (v.1 ++ tail.1)
  | some _ => .keep

def appendCommand (e : Env) (s : Keyspace Score) (n : ℕ) : Keyspace Score := changeKey e s n (s.arg 1) (appendChange (s.arg 2))

/-- A string made longer with zeros, and bytes written over it from `offset` on. -/
def overwrite (v : List UInt8) (offset : ℕ) (value : List UInt8) : List UInt8 :=
  (v ++ List.replicate (offset + value.length - v.length) 0).take offset ++ value ++ v.drop (offset + value.length)

def setrangeChange (offset : ℕ) (value : Sds) (o : Option (Value Score)) : Change Score :=
  let store (v : List UInt8) : Change Score :=
    if value.1 = [] ∨ stringMax < offset + value.1.length then .keep else storeString (overwrite v offset value.1)
  match o with
  | none => store []
  | some (.string v) => store v.1
  | some _ => .keep

def setrangeCommand (e : Env) (s : Keyspace Score) (n : ℕ) : Keyspace Score :=
  match getLongLongFromObject (s.arg 2).1 with
  | none => s
  | some offset => if offset < 0 then s else changeKey e s n (s.arg 1) (setrangeChange offset.toNat (s.arg 3))

def setbitChange (bitoffset on : ℕ) (o : Option (Value Score)) : Change Score :=
  let store (v : List UInt8) : Change Score :=
    let byte := bitoffset / 8
    let mask : UInt8 := UInt8.ofNat (2 ^ (7 - bitoffset % 8))
    let old := (v[byte]?).getD 0
    storeString (overwrite v byte [if on = 1 then old ||| mask else old &&& ~~~mask])
  match o with
  | none => store []
  | some (.string v) => store v.1
  | some _ => .keep

def setbitCommand (e : Env) (s : Keyspace Score) (n : ℕ) : Keyspace Score :=
  match getLongLongFromObject (s.arg 2).1, getLongLongFromObject (s.arg 3).1 with
  | some bitoffset, some on =>
    if bitoffset < 0 ∨ (stringMax : ℤ) ≤ bitoffset / 8 ∨ ¬ (on = 0 ∨ on = 1) then s
    else changeKey e s n (s.arg 1) (setbitChange bitoffset.toNat on.toNat)
  | _, _ => s

end KVStores.Redis
