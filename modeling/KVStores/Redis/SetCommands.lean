import KVStores.Redis.ListCommands

/-!
# Commands on sets

t_set.c, the writing commands, without the replies. Which element `SPOP` comes upon is given.
-/

namespace KVStores.Redis

variable {Score : Type}

def sremName : Sds := ⟨[83, 82, 69, 77], by decide⟩

/-- The loop of `saddCommand`: the set, and how many elements were added. -/
@[grind =] def saddLoop : List Sds → Finset Sds × ℕ → Finset Sds × ℕ
  | [], r => r
  | ele :: rest, (set, added) => saddLoop rest (if ele ∈ set then (set, added) else (insert ele set, added + 1))

def saddChange (elements : List Sds) (o : Option (Value Score)) : Change Score :=
  match o with
  | none => .store (.set (saddLoop elements (∅, 0)).1) (saddLoop elements (∅, 0)).2
  | some (.set set) => if (saddLoop elements (set, 0)).2 = 0 then .keep else .store (.set (saddLoop elements (set, 0)).1) (saddLoop elements (set, 0)).2
  | some _ => .keep

def saddCommand (e : Env) (s : Keyspace Score) (n : ℕ) : Keyspace Score := changeKey e s n (s.arg 1) (saddChange (s.argv.drop 2))

/-- The loop of `sremCommand`, which ends when the set is empty: the set, and how many elements were deleted. -/
@[grind =] def sremLoop : List Sds → Finset Sds × ℕ → Finset Sds × ℕ
  | [], r => r
  | ele :: rest, (set, deleted) =>
    if ele ∈ set then
      if set.erase ele = ∅ then (∅, deleted + 1) else sremLoop rest (set.erase ele, deleted + 1)
    else sremLoop rest (set, deleted)

def sremChange (elements : List Sds) (o : Option (Value Score)) : Change Score :=
  match o with
  | some (.set set) =>
    let r := sremLoop elements (set, 0)
    if r.2 = 0 then .keep else if r.1 = ∅ then .delete r.2 else .store (.set r.1) r.2
  | _ => .keep

def sremCommand (e : Env) (s : Keyspace Score) (n : ℕ) : Keyspace Score := changeKey e s n (s.arg 1) (sremChange (s.argv.drop 2))

def rewriteClientCommandVector (s : Keyspace Score) (argv : List Sds) : Keyspace Score := { s with argv := argv }

/-- `spopCommand`; it is propagated as an `SREM` of `ele`, the element that `setTypeRandomElement` came upon. -/
def spopCommand (ele : Sds) (e : Env) (s : Keyspace Score) (n : ℕ) : Keyspace Score :=
  let key := s.arg 1
  let s := expireIfNeeded e s n key
  match lookupKey s n key with
  | some (.set set) =>
    if ele ∈ set then
      let s := rewriteClientCommandVector s [sremName, key, ele]
      let s := if set.erase ele = ∅ then dbDelete s n key else s.setDict n key (some (.set (set.erase ele)))
      addDirty (signalModifiedKey s n key) 1
    else s
  | _ => s

def Value.asSet : Option (Value Score) → Option (Finset Sds)
  | none => some ∅
  | some (.set members) => some members
  | some _ => none

def smoveCommand (e : Env) (s : Keyspace Score) (n : ℕ) : Keyspace Score :=
  let src := s.arg 1
  let dst := s.arg 2
  let ele := s.arg 3
  let s := expireIfNeeded e (expireIfNeeded e s n src) n dst
  match lookupKey s n src, Value.asSet (lookupKey s n dst) with
  | some (.set srcset), some dstset =>
    if src = dst ∨ ele ∉ srcset then s
    else
      let s := if srcset.erase ele = ∅ then dbDelete s n src else s.setDict n src (some (.set (srcset.erase ele)))
      let s := addDirty (signalModifiedKey (signalModifiedKey s n src) n dst) 1
      let s := s.setDict n dst (some (.set (insert ele dstset)))
      if ele ∈ dstset then s else addDirty s 1
  | _, _ => s

inductive FoundSets
  /-- A key is not there. -/
  | missing
  /-- A key is there, and its value is no set. -/
  | wrongType
  | sets (l : List (Finset Sds))

/-- The first loop of `sinterGenericCommand`. -/
@[grind =] def sinterLookup (e : Env) (n : ℕ) : List Sds → Keyspace Score → Keyspace Score × FoundSets
  | [], s => (s, .sets [])
  | key :: rest, s =>
    let s := expireIfNeeded e s n key
    match lookupKey s n key with
    | none => (s, .missing)
    | some (.set set) =>
      match sinterLookup e n rest s with
      | (s, .sets l) => (s, .sets (set :: l))
      | r => r
    | some _ => (s, .wrongType)

def storeResult (s : Keyspace Score) (n : ℕ) (dstkey : Sds) (result : Finset Sds) : Keyspace Score :=
  let s := dbDelete s n dstkey
  let s := if result = ∅ then s else dbAdd s n dstkey (.set result)
  addDirty (signalModifiedKey s n dstkey) 1

/-- `sinterGenericCommand` with a key for the result. -/
@[grind =] def sinterstoreCommand (e : Env) (s : Keyspace Score) (n : ℕ) : Keyspace Score :=
  let dstkey := s.arg 1
  match sinterLookup e n (s.argv.drop 2) s with
  | (s, .missing) => if (lookupKey s n dstkey).isSome = true then addDirty (signalModifiedKey (dbDelete s n dstkey) n dstkey) 1 else s
  | (s, .wrongType) => s
  | (s, .sets []) => s
  | (s, .sets (set :: l)) => storeResult s n dstkey (l.foldl (· ∩ ·) set)

/-- The first loop of `sunionDiffGenericCommand`; a key that is not there is like an empty set. -/
@[grind =] def sunionDiffLookup (e : Env) (n : ℕ) : List Sds → Keyspace Score → Keyspace Score × Option (List (Finset Sds))
  | [], s => (s, some [])
  | key :: rest, s =>
    let s := expireIfNeeded e s n key
    match Value.asSet (lookupKey s n key) with
    | none => (s, none)
    | some set =>
      let r := sunionDiffLookup e n rest s
      (r.1, r.2.map (set :: ·))

/-- `sunionDiffGenericCommand` with a key for the result. -/
def sunionDiffGenericCommand (e : Env) (s : Keyspace Score) (n : ℕ) (op : List (Finset Sds) → Finset Sds) : Keyspace Score :=
  match sunionDiffLookup e n (s.argv.drop 2) s with
  | (s', none) => s'
  | (s', some l) => storeResult s' n (s.arg 1) (op l)

def sunionstoreCommand (e : Env) (s : Keyspace Score) (n : ℕ) : Keyspace Score := sunionDiffGenericCommand e s n fun l => l.foldl (· ∪ ·) ∅

def sdiffstoreCommand (e : Env) (s : Keyspace Score) (n : ℕ) : Keyspace Score :=
  sunionDiffGenericCommand e s n fun l => l.tail.foldl (· \ ·) (l.head?.getD ∅)

end KVStores.Redis
