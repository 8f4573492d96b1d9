import KVStores.Redis.ZsetCommands

/-!
# Commands on keys

The commands of db.c, without the replies.
-/

namespace KVStores.Redis

variable {Score : Type}

def delName : Sds := ⟨[68, 69, 76], by decide⟩

/-- `existsCommand`: nothing but the lookup shows. -/
def existsCommand (e : Env) (s : Keyspace Score) (n : ℕ) : Keyspace Score := expireIfNeeded e s n (s.arg 1)

@[grind =] def delLoop (n : ℕ) : List Sds → Keyspace Score → Keyspace Score
  | [], s => s
  | key :: rest, s =>
    delLoop n rest (if (lookupKey s n key).isSome = true then addDirty (signalModifiedKey (dbDelete s n key) n key) 1 else dbDelete s n key)

def delCommand (s : Keyspace Score) (n : ℕ) : Keyspace Score := delLoop n s.argv.tail s

def renameGenericCommand (e : Env) (s : Keyspace Score) (n : ℕ) (nx : Bool) : Keyspace Score :=
  let src := s.arg 1
  let dst := s.arg 2
  if src = dst then s
  else
    let s := expireIfNeeded e s n src
    match lookupKey s n src with
    | none => s
    | some o =>
      let expire := getExpire s n src
      let s := expireIfNeeded e s n dst
      if (lookupKey s n dst).isSome = true ∧ nx = true then s
      else
        let s := if (lookupKey s n dst).isSome = true then dbDelete s n dst else s
        let s := dbAdd s n dst o
        let s := if expire ≠ -1 then setExpire s n dst expire else s
        let s := dbDelete s n src
        addDirty (signalModifiedKey (signalModifiedKey s n src) n dst) 1

def renameCommand (e : Env) (s : Keyspace Score) (n : ℕ) : Keyspace Score := renameGenericCommand e s n false

def renamenxCommand (e : Env) (s : Keyspace Score) (n : ℕ) : Keyspace Score := renameGenericCommand e s n true

/-- `atoi`: the number as an `int`. -/
def atoi (s : Sds) : ℤ := (Aof.strtoll s.1).bmod (2 ^ 32)

/-- `moveCommand`; there are `dbnum` databases. -/
def moveCommand (dbnum : ℕ) (e : Env) (s : Keyspace Score) (n : ℕ) : Keyspace Score :=
  let key := s.arg 1
  let dbid := atoi (s.arg 2)
  if dbid < 0 ∨ (dbnum : ℤ) ≤ dbid then s
  else if dbid.toNat = n then s
  else
    let s := expireIfNeeded e s n key
    match lookupKey s n key with
    | none => s
    | some o =>
      let s := expireIfNeeded e s dbid.toNat key
      if (lookupKey s dbid.toNat key).isSome = true then s
      else
        let s := dbAdd s dbid.toNat key o
        addDirty (dbDelete s n key) 1

/-- `UNIT_SECONDS` and `basetime`: how the argument of a command of the `EXPIRE` family is meant. -/
def expireWhen (seconds relative : Bool) (now milliseconds : ℤ) : ℤ :=
  let t := if seconds = true then (milliseconds * 1000).bmod (2 ^ 64) else milliseconds
  if relative = true then (t + now).bmod (2 ^ 64) else t

/-- `expireGenericCommand`; a time that is over is propagated as a `DEL`. -/
def expireGenericCommand (e : Env) (s : Keyspace Score) (n : ℕ) (seconds relative : Bool) : Keyspace Score :=
  let key := s.arg 1
  match getLongLongFromObject (s.arg 2).1 with
  | none => s
  | some milliseconds =>
    let t := expireWhen seconds relative e.now milliseconds
    if (lookupKey s n key).isNone = true then s
    else if t ≤ e.now ∧ e.loading = false then
      signalModifiedKey (rewriteClientCommandVector (addDirty (dbDelete s n key) 1) [delName, key]) n key
    else addDirty (signalModifiedKey (setExpire s n key t) n key) 1

def expireCommand (e : Env) (s : Keyspace Score) (n : ℕ) : Keyspace Score := expireGenericCommand e s n true true

def expireatCommand (e : Env) (s : Keyspace Score) (n : ℕ) : Keyspace Score := expireGenericCommand e s n true false

def pexpireCommand (e : Env) (s : Keyspace Score) (n : ℕ) : Keyspace Score := expireGenericCommand e s n false true

def pexpireatCommand (e : Env) (s : Keyspace Score) (n : ℕ) : Keyspace Score := expireGenericCommand e s n false false

def persistCommand (s : Keyspace Score) (n : ℕ) : Keyspace Score :=
  let key := s.arg 1
  if (lookupKey s n key).isNone = true then s
  else if ((s.db n).expires key).isSome = true then addDirty (removeExpire s n key) 1
  else s

def RedisDb.empty : RedisDb Score := ⟨fun _ => none, fun _ => none⟩

/-- `flushdbCommand`; it makes the server dirtier by `size`, the number of keys. -/
def flushdbCommand (size : ℕ) (s : Keyspace Score) (n : ℕ) : Keyspace Score :=
  let s := signalFlushedDb (addDirty s size) (some n)
  { s with db := Function.update s.db n .empty }

/-- `flushallCommand`, with `size` as for one database. -/
def flushallCommand (size : ℕ) (s : Keyspace Score) : Keyspace Score :=
  let s := signalFlushedDb s none
  addDirty { s with db := fun _ => .empty } (size + 1)

end KVStores.Redis
