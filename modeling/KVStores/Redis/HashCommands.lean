import KVStores.Redis.SetCommands

/-!
# Commands on hashes

t_hash.c, the writing commands, without the replies.
-/

namespace KVStores.Redis

variable {Score : Type}

abbrev Hash : Type := Finmap fun _ : Sds => Sds

def hsetName : Sds := ⟨[72, 83, 69, 84], by decide⟩

/-- `hashTypeLookupWriteOrCreate`: a hash, or a new one; `none` for another type. -/
def Value.asHash : Option (Value Score) → Option Hash
  | none => some ∅
  | some (.hash h) => some h
  | some _ => none

def hashTypeSet (h : Hash) (field value : Sds) : Hash := h.insert field value

/-- What `hsetCommand` makes of a value. -/
def hsetChange (field value : Sds) (o : Option (Value Score)) : Change Score :=
  match Value.asHash o with
  | none => .keep
  | some h => .store (.hash (hashTypeSet h field value)) 1

def hsetCommand (e : Env) (s : Keyspace Score) (n : ℕ) : Keyspace Score := changeKey e s n (s.arg 1) (hsetChange (s.arg 2) (s.arg 3))

def hsetnxChange (field value : Sds) (o : Option (Value Score)) : Change Score :=
  match Value.asHash o with
  | none => .keep
  | some h => if field ∈ h then .keep else .store (.hash (hashTypeSet h field value)) 1

def hsetnxCommand (e : Env) (s : Keyspace Score) (n : ℕ) : Keyspace Score := changeKey e s n (s.arg 1) (hsetnxChange (s.arg 2) (s.arg 3))

def hmsetChange (pairs : List (Sds × Sds)) (o : Option (Value Score)) : Change Score :=
  match Value.asHash o with
  | none => .keep
  | some h => .store (.hash (pairs.foldl (fun h p => hashTypeSet h p.1 p.2) h)) 1

def hmsetCommand (e : Env) (s : Keyspace Score) (n : ℕ) : Keyspace Score :=
  if s.argv.length % 2 = 1 then s else changeKey e s n (s.arg 1) (hmsetChange (keysAndValues (s.argv.drop 2)))

def hincrbyChange (field : Sds) (incr : ℤ) (o : Option (Value Score)) : Change Score :=
  match Value.asHash o with
  | none => .keep
  | some h =>
    let current := match h.lookup field with
      | none => some 0
      | some v => getLongLongFromObject v.1
    match current with
    | none => .keep
    | some old =>
      if wouldOverflow old incr = true then .keep
      else .store (.hash (hashTypeSet h field (createStringObjectFromLongLong (old + incr)))) 1

def hincrbyCommand (e : Env) (s : Keyspace Score) (n : ℕ) : Keyspace Score :=
  match getLongLongFromObject (s.arg 3).1 with
  | none => s
  | some incr => changeKey e s n (s.arg 1) (hincrbyChange (s.arg 2) incr)

/-- `hincrbyfloatCommand`; it is propagated as an `HSET`. -/
def hincrbyfloatCommand (floats : Floats Score) (e : Env) (s : Keyspace Score) (n : ℕ) : Keyspace Score :=
  if floats.isLongDouble (s.arg 3) = false then s
  else
    let key := s.arg 1
    let s := expireIfNeeded e s n key
    match Value.asHash (lookupKey s n key) with
    | none => s
    | some h =>
      match floats.hincrbyfloat (h.lookup (s.arg 2)) (s.arg 3) with
      | none => s
      | some new =>
        let s := addDirty (signalModifiedKey (s.setDict n key (some (.hash (hashTypeSet h (s.arg 2) new)))) n key) 1
        rewriteClientCommandArgument (rewriteClientCommandArgument s 0 hsetName) 3 new

/-- The loop of `hdelCommand`, which ends when the hash is empty: the hash, and how many fields were deleted. -/
@[grind =] def hdelLoop : List Sds → Hash × ℕ → Hash × ℕ
  | [], r => r
  | field :: rest, (h, deleted) =>
    if field ∈ h then
      if (h.erase field).keys = ∅ then (∅, deleted + 1) else hdelLoop rest (h.erase field, deleted + 1)
    else hdelLoop rest (h, deleted)

def hdelChange (fields : List Sds) (o : Option (Value Score)) : Change Score :=
  match o with
  | some (.hash h) =>
    let r := hdelLoop fields (h, 0)
    if r.2 = 0 then .keep else if r.1.keys = ∅ then .delete r.2 else .store (.hash r.1) r.2
  | _ => .keep

def hdelCommand (e : Env) (s : Keyspace Score) (n : ℕ) : Keyspace Score := changeKey e s n (s.arg 1) (hdelChange (s.argv.drop 2))

end KVStores.Redis
