import KVStores.Redis.Intset
import KVStores.Redis.StringType

/-!
# Sets in two encodings

t_set.c: a set is an intset as long as all of its members are integers and not too many of them, and a dict from then on.

A dict is the list of its keys; nothing depends on their order, which is any one. A failed assertion, or what reaches outside an intset, is a fault (`none`).
-/

namespace KVStores.Redis.SetType

def isObjectRepresentableAsLongLong : Robj → Option Long
  | .int v => some v
  | .raw s => string2ll s

def keysOf (d : List Robj) : List (List UInt8) := d.map getDecodedObject

/-- `dictFind`: whether the key is there. -/
def dictFind (d : List Robj) (key : Robj) : Bool := d.any (dictEncObjKeyCompare key)

/-- `dictAdd`, if the key is new. -/
def dictAdd (d : List Robj) (key : Robj) : Option (List Robj) := if dictFind d key = true then none else some (key :: d)

/-- `dictDelete`, if the key is there. -/
def dictDelete (d : List Robj) (key : Robj) : Option (List Robj) := if dictFind d key = true then some (d.eraseP (dictEncObjKeyCompare key)) else none

/-- `dictAdd` of new keys, one after another; that each of them is new is asserted. -/
@[grind =] def dictAddAll : List Robj → List Robj → Option (List Robj)
  | [], d => some d
  | key :: keys, d => (dictAdd d key).bind (dictAddAll keys)

/-- What the operations depend on: `server.set_max_intset_entries`, and what new memory holds. -/
structure Server where
  setMaxIntsetEntries : ℕ
  fill : ℕ → UInt8

/-- A set: `REDIS_ENCODING_INTSET`, or `REDIS_ENCODING_HT`. -/
inductive SetObj
  | intset (is : Intset)
  | ht (d : List Robj)
deriving DecidableEq

/-- What `setTypeNext` and `setTypeRandomElement` give: an integer of an intset, or an object of a dict. -/
inductive Element
  | int (llele : ℤ)
  | obj (ele : Robj)
deriving DecidableEq

/-- The object of an element, as `setTypeNextObject` returns it. -/
def Element.object : Element → Robj
  | int llele => StringType.createStringObjectFromLongLong llele
  | obj ele => ele

@[grind =] def intsetElements (is : Intset) : ℕ → ℕ → Option (List ℤ)
  | 0, _ => some []
  | n + 1, ii => (intsetGetCell is ii).bind fun v => (intsetElements is n (ii + 1)).map (v :: ·)

def setTypeElements : SetObj → Option (List Element)
  | .intset is => (intsetElements is (intsetLen is) 0).map (List.map .int)
  | .ht d => some (d.map .obj)

def setTypeCreate (value : Robj) : SetObj := if (isObjectRepresentableAsLongLong value).isSome = true then .intset intsetNew else .ht []

/-- `setTypeConvert` to a dict: its keys. -/
def setTypeConvert (is : Intset) : Option (List Robj) :=
  (intsetElements is (intsetLen is) 0).bind fun l => dictAddAll (l.map StringType.createStringObjectFromLongLong) []

/-- `setTypeAdd`: the set, and whether the value is new. -/
def setTypeAdd (server : Server) (subject : SetObj) (value : Robj) : Option (SetObj × Bool) :=
  match subject with
  | .ht d => some ((dictAdd d value).elim (.ht d, false) fun d => (.ht d, true))
  | .intset is =>
    match isObjectRepresentableAsLongLong value with
    | some llval =>
      (intsetAdd server.fill is llval.1).bind fun r =>
        if r.2 = true then
          if server.setMaxIntsetEntries < intsetLen r.1 then (setTypeConvert r.1).map fun d => (.ht d, true) else some (.intset r.1, true)
        else some (.intset r.1, false)
    | none => (setTypeConvert is).bind fun d => (dictAdd d value).map fun d => (.ht d, true)

/-- `setTypeRemove`: the set, and whether the value was there. -/
def setTypeRemove (server : Server) (setobj : SetObj) (value : Robj) : Option (SetObj × Bool) :=
  match setobj with
  | .ht d => some ((dictDelete d value).elim (.ht d, false) fun d => (.ht d, true))
  | .intset is =>
    match isObjectRepresentableAsLongLong value with
    | some llval => (intsetRemove server.fill is llval.1).map fun r => (.intset r.1, r.2)
    | none => some (.intset is, false)

def setTypeIsMember (subject : SetObj) (value : Robj) : Option Bool :=
  match subject with
  | .ht d => some (dictFind d value)
  | .intset is =>
    match isObjectRepresentableAsLongLong value with
    | some llval => intsetFind is llval.1
    | none => some false

def setTypeSize : SetObj → ℕ
  | .ht d => d.length
  | .intset is => intsetLen is

inductive Reply
  | wrongtypeerr
  | error (text : String)
  | integer (n : ℤ)
  | multibulk (length : ℤ) (bulks : List (List UInt8))
deriving DecidableEq

def czero : Reply := .integer 0

def cone : Reply := .integer 1

def emptymultibulk : Reply := .multibulk 0 []

inductive Obj
  | set (s : SetObj)
  | other
deriving DecidableEq

abbrev Db : Type := Sds → Option Obj

def dbDelete (db : Db) (key : Sds) : Db := Function.update db key none

def dbAdd (db : Db) (key : Sds) (s : SetObj) : Db := Function.update db key (some (.set s))

def storeResult (db : Db) (dstkey : Sds) (dstset : SetObj) : Db × Reply :=
  let db := dbDelete db dstkey
  if 0 < setTypeSize dstset then (dbAdd db dstkey dstset, .integer (setTypeSize dstset)) else (db, czero)

/-- `REDIS_OP_UNION`, `REDIS_OP_DIFF`. -/
inductive SetOp
  | union
  | diff
deriving DecidableEq

/-- The loop that looks the keys up: the sets that there are; a key of another type ends it. -/
@[grind =] def lookupSets (db : Db) : List Sds → Option (List (Option SetObj))
  | [] => some []
  | key :: setkeys =>
    match db key with
    | none => (lookupSets db setkeys).map (none :: ·)
    | some .other => none
    | some (.set s) => (lookupSets db setkeys).map (some s :: ·)

/-- An element of the `j`-th set; the cardinality is an `int`. -/
def sunionDiffElement (server : Server) (op : SetOp) (j : ℕ) (r : SetObj × ℤ) (ele : Robj) : Option (SetObj × ℤ) :=
  if op = .union ∨ j = 0 then (setTypeAdd server r.1 ele).map fun a => (a.1, if a.2 = true then (r.2 + 1).bmod (2 ^ 32) else r.2)
  else (setTypeRemove server r.1 ele).map fun a => (a.1, if a.2 = true then (r.2 - 1).bmod (2 ^ 32) else r.2)

/-- The loop over the elements of the `j`-th set. -/
@[grind =] def sunionDiffElements (server : Server) (op : SetOp) (j : ℕ) : List Element → SetObj × ℤ → Option (SetObj × ℤ)
  | [], r => some r
  | e :: es, r => (sunionDiffElement server op j r e.object).bind (sunionDiffElements server op j es)

/-- The loop over the sets from the `j`-th one on. -/
@[grind =] def sunionDiffLoop (server : Server) (op : SetOp) : ℕ → List (Option SetObj) → SetObj × ℤ → Option (SetObj × ℤ)
  | _, [], r => some r
  | j, none :: sets, r => if op = .diff ∧ j = 0 then some r else sunionDiffLoop server op (j + 1) sets r
  | j, some s :: sets, r =>
    (setTypeElements s).bind fun es => (sunionDiffElements server op j es r).bind fun r =>
      if op = .diff ∧ r.2 = 0 then some r else sunionDiffLoop server op (j + 1) sets r

/-- `addReplyMultiBulkLen` and the elements of a set. -/
def replySet (length : ℤ) (s : SetObj) : Option Reply :=
  (setTypeElements s).map fun es => .multibulk length (es.map fun e => getDecodedObject e.object)

/-- `sunionDiffGenericCommand`: what the keys hold then, and the reply. -/
def sunionDiffGenericCommand (server : Server) (db : Db) (setkeys : List Sds) (dstkey : Option Sds) (op : SetOp) : Option (Db × Reply) :=
  match lookupSets db setkeys with
  | none => some (db, .wrongtypeerr)
  | some sets =>
    (sunionDiffLoop server op 0 sets (.intset intsetNew, 0)).bind fun r =>
      match dstkey with
      | none => (replySet r.2 r.1).map fun reply => (db, reply)
      | some dstkey => some (storeResult db dstkey r.1)

/-- What the loop of `sinterGenericCommand` finds: a key that is missing, one of another type, or all sets with their keys. -/
inductive Lookup
  | missing
  | wrongtype
  | sets (l : List (Sds × SetObj))

/-- The loop that looks the keys up; it ends at the first one without a set. -/
@[grind =] def sinterLookup (db : Db) : List Sds → List (Sds × SetObj) → Lookup
  | [], sets => .sets sets
  | key :: setkeys, sets =>
    match db key with
    | none => .missing
    | some .other => .wrongtype
    | some (.set s) => sinterLookup db setkeys (sets ++ [(key, s)])

/-- `qsortCompareSetsByCardinality`, an `int`. -/
def qsortCompareSetsByCardinality (s1 s2 : Sds × SetObj) : ℤ := ((setTypeSize s1.2 : ℤ) - setTypeSize s2.2).bmod (2 ^ 32)

@[grind =] def sinterFind (e : Element) (s : SetObj) : Option Bool :=
  match e, s with
  | .int intobj, .intset is => intsetFind is intobj
  | .int intobj, .ht d => setTypeIsMember (.ht d) (StringType.createStringObjectFromLongLong intobj)
  | .obj (.int v), .intset is => (intsetFind is v.1).bind fun found => if found = false then some false else setTypeIsMember (.intset is) (.int v)
  | .obj eleobj, s => setTypeIsMember s eleobj

/-- The loop over the other sets; a set that is the first one is left out. Whether all of them have the element. -/
@[grind =] def sinterAll (first : Sds) (e : Element) : List (Sds × SetObj) → Option Bool
  | [] => some true
  | (key, s) :: sets =>
    if key = first then sinterAll first e sets
    else (sinterFind e s).bind fun found => if found = false then some false else sinterAll first e sets

@[grind =] def sinterElements (first : Sds) (sets : List (Sds × SetObj)) : List Element → Option (List Element)
  | [] => some []
  | e :: es => (sinterAll first e sets).bind fun found => (sinterElements first sets es).map fun rest => if found = true then e :: rest else rest

@[grind =] def sinterStore (server : Server) : List Element → SetObj → Option SetObj
  | [], dstset => some dstset
  | e :: es, dstset => (setTypeAdd server dstset e.object).bind fun r => sinterStore server es r.1

/-- `sinterGenericCommand`: what the keys hold then, and the reply. -/
def sinterGenericCommand (server : Server) (db : Db) (setkeys : List Sds) (dstkey : Option Sds) : Option (Db × Reply) :=
  match sinterLookup db setkeys [] with
  | .missing => some (dstkey.elim (db, emptymultibulk) fun dstkey => (dbDelete db dstkey, czero))
  | .wrongtype => some (db, .wrongtypeerr)
  | .sets sets =>
    match sets.mergeSort fun s1 s2 => decide (qsortCompareSetsByCardinality s1 s2 ≤ 0) with
    | [] => none
    | (first, s) :: others =>
      (setTypeElements s).bind fun es => (sinterElements first others es).bind fun found =>
        match dstkey with
        | none => some (db, .multibulk found.length (found.map fun e => getDecodedObject e.object))
        | some dstkey => (sinterStore server found (.intset intsetNew)).map (storeResult db dstkey)

/-- The loop of `saddCommand`: the set, and how many elements were added. -/
@[grind =] def saddLoop (server : Server) : List Sds → SetObj → ℕ → Option (SetObj × ℕ)
  | [], set, added => some (set, added)
  | value :: values, set, added =>
    (setTypeAdd server set (tryObjectEncoding false (.raw value.1))).bind fun r => saddLoop server values r.1 (if r.2 = true then added + 1 else added)

/-- `saddCommand`; there is at least one value. -/
def saddCommand (server : Server) (db : Db) (key value : Sds) (values : List Sds) : Option (Db × Reply) :=
  match db key with
  | some .other => some (db, .wrongtypeerr)
  | some (.set set) => (saddLoop server (value :: values) set 0).map fun r => (dbAdd db key r.1, .integer r.2)
  | none => (saddLoop server (value :: values) (setTypeCreate (.raw value.1)) 0).map fun r => (dbAdd db key r.1, .integer r.2)

/-- The loop of `sremCommand`: the set, how many elements were deleted, and whether the set is empty. -/
@[grind =] def sremLoop (server : Server) : List Sds → SetObj → ℕ → Option (SetObj × ℕ × Bool)
  | [], set, deleted => some (set, deleted, false)
  | value :: values, set, deleted =>
    (setTypeRemove server set (.raw value.1)).bind fun r =>
      if r.2 = true then
        if setTypeSize r.1 = 0 then some (r.1, deleted + 1, true) else sremLoop server values r.1 (deleted + 1)
      else sremLoop server values r.1 deleted

def sremCommand (server : Server) (db : Db) (key : Sds) (values : List Sds) : Option (Db × Reply) :=
  match db key with
  | none => some (db, czero)
  | some .other => some (db, .wrongtypeerr)
  | some (.set set) => (sremLoop server values set 0).map fun r => (if r.2.2 = true then dbDelete db key else dbAdd db key r.1, .integer r.2.1)

/-- What `smoveCommand` does with its two sets. -/
def smoveSets (server : Server) (db : Db) (src dst : Sds) (ele : Robj) (srcset : SetObj) (dstset : Option SetObj) : Option (Db × Reply) :=
  if src = dst then some (db, cone)
  else
    (setTypeRemove server srcset ele).bind fun r =>
      if r.2 = false then some (dbAdd db src r.1, czero)
      else
        let db := if setTypeSize r.1 = 0 then dbDelete db src else dbAdd db src r.1
        (setTypeAdd server (dstset.getD (setTypeCreate ele)) ele).map fun a => (dbAdd db dst a.1, cone)

def smoveCommand (server : Server) (db : Db) (src dst ele : Sds) : Option (Db × Reply) :=
  match db src with
  | none => some (db, czero)
  | some .other => some (db, .wrongtypeerr)
  | some (.set srcset) =>
    match db dst with
    | some .other => some (db, .wrongtypeerr)
    | some (.set dstset) => smoveSets server db src dst (tryObjectEncoding false (.raw ele.1)) srcset (some dstset)
    | none => smoveSets server db src dst (tryObjectEncoding false (.raw ele.1)) srcset none

def sismemberCommand (db : Db) (key ele : Sds) : Option (Db × Reply) :=
  match db key with
  | none => some (db, czero)
  | some .other => some (db, .wrongtypeerr)
  | some (.set set) => (setTypeIsMember set (tryObjectEncoding false (.raw ele.1))).map fun found => (db, if found = true then cone else czero)

end KVStores.Redis.SetType
