import KVStores.Lib.Decimal
import KVStores.Lib.Linearize

/-!
# The worker threads

Worker threads of MemcacheDB (`memcachedb.c`, `thread.c`, `item.c`). A request that changes an item in place or looks
before it writes is made of several calls of Berkeley DB between `pthread_mutex_lock` and `pthread_mutex_unlock`; `get` and
`delete` make their call without the lock.

A request is a `Task`, the calls that it has yet to make. Each call is one step of the worker, and so are taking the lock,
giving it back, and the answer.
-/

namespace KVStores.MemcacheDb

open Linearize (Event)

abbrev Key := List UInt8

/-- `item`. `complete_nread` takes no data that does not end with "\r\n", and `body` is what comes before. The flags are read
back from `ITEM_suffix`. -/
structure Item where
  flags : ℤ
  body : List UInt8
deriving DecidableEq

def Item.data (it : Item) : List UInt8 := it.body ++ [13, 10]

/-- `%d`. -/
def printInt (n : ℤ) : List UInt8 := if n < 0 then 45 :: decimal n.natAbs else decimal n.natAbs

/-- What `item_make_header` prints: `" %d %d\r\n"`. -/
def itemSuffix (flags nbytes : ℤ) : List UInt8 := 32 :: (printInt flags ++ 32 :: (printInt (nbytes - 2) ++ [13, 10]))

def itemNtotal (key : Key) (it : Item) : ℕ := 8 + key.length + 1 + (itemSuffix it.flags it.data.length).length + it.data.length

def isspace (c : UInt8) : Bool := c == 32 || (decide (9 ≤ c) && decide (c ≤ 13))

/-- The sign that `strtoull` reads, and what is behind it. -/
def strtoullSign : List UInt8 → Bool × List UInt8
  | 45 :: s => (true, s)
  | 43 :: s => (false, s)
  | s => (false, s)

/-- `strtoull` to the base 10; `none` is a number that does not fit, with `errno` set to `ERANGE`. -/
def strtoull (s : List UInt8) : Option ℕ :=
  let p := strtoullSign (s.dropWhile isspace)
  let n := decimalValue 0 (p.2.takeWhile isDigit)
  if n < 2 ^ 64 then some (if p.1 = true then (2 ^ 64 - n) % 2 ^ 64 else n) else none

/-- The new value in `do_add_delta`, where all numbers are `int64_t`. -/
def addDelta (incr : Bool) (delta value : ℤ) : ℤ :=
  if incr = true then (value + delta).bmod (2 ^ 64)
  else if value ≤ delta then 0
  else (value - delta).bmod (2 ^ 64)

/-- `%llu` of an `int64_t`. -/
def printUnsigned (value : ℤ) : List UInt8 := decimal (value % 2 ^ 64).toNat

/-- `NREAD_SET` and so on. -/
inductive Comm
  | add
  | set
  | replace
  | append
  | prepend
deriving DecidableEq

inductive Cmd
  | update (comm : Comm) (it : Item)
  | arithmetic (incr : Bool) (delta : ℤ)
  | delete
  | get
deriving DecidableEq

/-- What becomes of the calls of a request: which of them fail, and what lies in memory behind the item that `item_get` reads. -/
structure Outcome where
  getFails : Bool
  existsFails : Bool
  putFails : Bool
  delFails : Bool
  allocFails : Bool
  behind : List UInt8
deriving DecidableEq

structure Request where
  key : Key
  cmd : Cmd
  outcome : Outcome
deriving DecidableEq

inductive Reply
  /-- "STORED" -/
  | stored
  /-- "NOT_STORED" -/
  | notStored
  /-- "DELETED" -/
  | deleted
  /-- "NOT_FOUND" -/
  | notFound
  /-- The number that `do_add_delta` leaves in `buf`. -/
  | number (buf : List UInt8)
  /-- "CLIENT_ERROR cannot increment or decrement non-numeric value" -/
  | nonNumeric
  /-- "SERVER_ERROR out of memory processing arithmetic" -/
  | outOfMemory
  /-- "SERVER_ERROR while put a item" -/
  | putFailed
  /-- "SERVER_ERROR while delete a item" -/
  | deleteFailed
  /-- The item, if any, and "END". -/
  | value (found : Option Item)
deriving DecidableEq

/-- The result of `item_delete`: 0, 1 and -1. -/
inductive DelResult
  | success
  | notFound
  | serverError
deriving DecidableEq

/-- What is left to do of a request. -/
inductive Task
  /-- `item_get` with a buffer of `ulen` bytes. -/
  | itemGet (key : Key) (ulen : ℕ) (next : Option Item → Task)
  | itemExists (key : Key) (next : Bool → Task)
  /-- `item_put`; the result is whether it is 0. -/
  | itemPut (key : Key) (it : Item) (next : Bool → Task)
  | itemDelete (key : Key) (next : DelResult → Task)
  | lock (next : Task)
  | unlock (next : Task)
  | outString (reply : Reply)

/-- `do_store_item`; the result is whether it is 1. -/
@[grind =] def doStoreItem (o : Outcome) (itemBufSize : ℕ) (key : Key) (it : Item) (comm : Comm) (ret : Bool → Task) : Task :=
  match comm with
  | .add => .itemExists key fun found => if found = true then ret false else .itemPut key it ret
  | .replace => .itemExists key fun found => if found = false then ret false else .itemPut key it ret
  | .append => .itemGet key itemBufSize fun oldIt =>
    match oldIt with
    | none => ret false
    | some oldIt => if o.allocFails = true then ret false else .itemPut key ⟨oldIt.flags, oldIt.body ++ it.body⟩ ret
  | .prepend => .itemGet key itemBufSize fun oldIt =>
    match oldIt with
    | none => ret false
    | some oldIt => if o.allocFails = true then ret false else .itemPut key ⟨oldIt.flags, it.body ++ oldIt.body⟩ ret
  | .set => .itemPut key it ret

/-- `complete_nread`, with `mt_store_item`. -/
def completeNread (o : Outcome) (itemBufSize : ℕ) (key : Key) (it : Item) (comm : Comm) : Task :=
  .lock (doStoreItem o itemBufSize key it comm fun ret => .unlock (.outString (if ret = true then .stored else .notStored)))

/-- `do_add_delta`. `strtoull` skips blanks, "\r\n" among them, so that of an item that is blank it reads on in what lies behind
it. `process_arithmetic_command` has seen that `errno` is not `ERANGE` before. -/
def doAddDelta (o : Outcome) (itemBufSize : ℕ) (key : Key) (incr : Bool) (delta : ℤ) (ret : Reply → Task) : Task :=
  .itemGet key itemBufSize fun oldIt =>
    match oldIt with
    | none => ret .notFound
    | some oldIt =>
      match strtoull (oldIt.data ++ o.behind) with
      | none => ret .nonNumeric
      | some value =>
        let buf := printUnsigned (addDelta incr delta ((value : ℤ).bmod (2 ^ 64)))
        if o.allocFails = true then ret .outOfMemory
        else .itemPut key ⟨oldIt.flags, buf⟩ fun success => if success = true then ret (.number buf) else ret .putFailed

/-- `process_arithmetic_command`, with `mt_add_delta`. -/
def processArithmeticCommand (o : Outcome) (itemBufSize : ℕ) (key : Key) (incr : Bool) (delta : ℤ) : Task :=
  .lock (doAddDelta o itemBufSize key incr delta fun reply => .unlock (.outString reply))

def processDeleteCommand (key : Key) : Task :=
  .itemDelete key fun ret =>
    match ret with
    | .success => .outString .deleted
    | .notFound => .outString .notFound
    | .serverError => .outString .deleteFailed

/-- `process_get_command` with one key. -/
def processGetCommand (itemBufSize : ℕ) (key : Key) : Task := .itemGet key itemBufSize fun it => .outString (.value it)

@[grind =] def Request.task (itemBufSize : ℕ) (r : Request) : Task :=
  match r.cmd with
  | .update comm it => completeNread r.outcome itemBufSize r.key it comm
  | .arithmetic incr delta => processArithmeticCommand r.outcome itemBufSize r.key incr delta
  | .delete => processDeleteCommand r.key
  | .get => processGetCommand itemBufSize r.key

abbrev Store := Key → Option Item

/-- `dbp->get` in `item_get`, with a buffer that is large enough. -/
def dbGet (o : Outcome) (db : Store) (key : Key) : Option Item := if o.getFails = true then none else db key

/-- `item_exists` is 0 for every error. -/
def dbExists (o : Outcome) (db : Store) (key : Key) : Bool := !o.existsFails && (db key).isSome

def dbPut (o : Outcome) (db : Store) (key : Key) (it : Item) : Bool × Store :=
  if o.putFails = true then (false, db) else (true, Function.update db key (some it))

def dbDel (o : Outcome) (db : Store) (key : Key) : DelResult × Store :=
  if o.delFails = true then (.serverError, db)
  else if (db key).isNone = true then (.notFound, db)
  else (.success, Function.update db key none)

/-- The workers: the database, the worker that holds `bdb_lock`, and the request of each worker with what is left of it. -/
structure Workers where
  db : Store
  bdbLock : Option ℕ
  conn : ℕ → Option (Request × Task)

/-- What happens: a worker reads a request, or goes on with its own. -/
inductive Action
  | read (w : ℕ) (r : Request)
  | goOn (w : ℕ)

def Workers.set (s : Workers) (w : ℕ) (x : Option (Request × Task)) : Workers := { s with conn := Function.update s.conn w x }

/-- A step of a worker with a request. `item_get` calls `dbp->get` again with a larger buffer when it returns
`DB_BUFFER_SMALL`; `pthread_mutex_lock` does not return while the lock is taken. -/
@[grind =] def goOn (s : Workers) (w : ℕ) (r : Request) : Task → Option (Workers × Option (Event ℕ Request Reply))
  | .itemGet key ulen next =>
    match dbGet r.outcome s.db key with
    | none => some (s.set w (some (r, next none)), none)
    | some it =>
      if ulen < itemNtotal key it then some (s.set w (some (r, .itemGet key (itemNtotal key it) next)), none)
      else some (s.set w (some (r, next (some it))), none)
  | .itemExists key next => some (s.set w (some (r, next (dbExists r.outcome s.db key))), none)
  | .itemPut key it next =>
    let p := dbPut r.outcome s.db key it
    some ({ s with db := p.2 }.set w (some (r, next p.1)), none)
  | .itemDelete key next =>
    let p := dbDel r.outcome s.db key
    some ({ s with db := p.2 }.set w (some (r, next p.1)), none)
  | .lock next => if s.bdbLock = none then some ({ s with bdbLock := some w }.set w (some (r, next)), none) else none
  | .unlock next => some ({ s with bdbLock := none }.set w (some (r, next)), none)
  | .outString reply => some (s.set w none, some (.answer w r reply))

def step (itemBufSize : ℕ) (s : Workers) : Action → Option (Workers × Option (Event ℕ Request Reply))
  | .read w r => if (s.conn w).isNone = true then some (s.set w (some (r, r.task itemBufSize)), some (.call w r)) else none
  | .goOn w => (s.conn w).bind fun p => goOn s w p.1 p.2

def Workers.start (db : Store) : Workers := ⟨db, none, fun _ => none⟩

@[grind =] def Task.run (o : Outcome) : Task → Store → Reply × Store
  | itemGet key _ next, db => (next (dbGet o db key)).run o db
  | itemExists key next, db => (next (dbExists o db key)).run o db
  | itemPut key it next, db => (next (dbPut o db key it).1).run o (dbPut o db key it).2
  | itemDelete key next, db => (next (dbDel o db key).1).run o (dbDel o db key).2
  | lock next, db => next.run o db
  | unlock next, db => next.run o db
  | outString reply, db => (reply, db)

def serve (itemBufSize : ℕ) (r : Request) (db : Store) : Reply × Store := (r.task itemBufSize).run r.outcome db

end KVStores.MemcacheDb
