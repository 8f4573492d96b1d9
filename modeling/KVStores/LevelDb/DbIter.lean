import KVStores.LevelDb.Keys
import KVStores.LevelDb.LogWriter
import KVStores.Lib.Cursor

/-!
# The iterator over user keys

`db_iter.cc`. `DBIter` moves over the internal entries of a database and shows the user keys
that a snapshot sees. Going forward, the internal iterator is at the entry that is shown; going
back, it is somewhere before the entries of the key, and key and value are saved.

The internal iterator is a cursor over its contents.
-/

namespace KVStores.LevelDb

inductive Direction
  | forward
  | reverse
deriving DecidableEq

/-- The fields of `DBIter` that change. A string that was cleared is no key. -/
structure DbIter (K V : Type) where
  iter : Cursor (Entry K V)
  savedKey : Option K
  savedValue : Option V
  direction : Direction
  valid : Bool
  status : Status

/-- What `FindPrevUserEntry` keeps from one entry to the next. -/
structure PrevState (K V : Type) where
  valueType : ValueType
  savedKey : Option K
  savedValue : Option V
  status : Status

/-- `ParseKey` failed. -/
def corruptedKey : Status := .corruption "corrupted internal key in DBIter"

namespace DbIter

variable {K V : Type} [LinearOrder K]

def new : DbIter K V := ⟨none, none, none, .forward, false, .ok⟩

def key (it : DbIter K V) : Option K :=
  if it.direction = .forward then it.iter.current.map fun e => e.key.userKey else it.savedKey

def value (it : DbIter K V) : Option V :=
  if it.direction = .forward then it.iter.current.map Entry.value else it.savedValue

/-- What `FindNextUserEntry` makes of an entry: nothing when it is to be shown, else what it
goes on with. -/
def inspect (sequence : ℕ) (e : Entry K V) (skipping : Bool) (skip : Option K) (status : Status) :
    Option (Bool × Option K × Status) :=
  match e.key.type? with
  | none => some (skipping, skip, corruptedKey)
  | some t =>
    if e.key.sequence ≤ sequence then
      match t with
      | .deletion => some (true, some e.key.userKey, status)
      | .value => if skipping ∧ skip.any (e.key.userKey ≤ ·) then some (skipping, skip, status) else none
    else some (skipping, skip, status)

@[grind =] def findNext (sequence : ℕ) (before : List (Entry K V)) (e : Entry K V) (after : List (Entry K V)) (skipping : Bool)
    (skip : Option K) (status : Status) : Cursor (Entry K V) × Status :=
  match inspect sequence e skipping skip status with
  | none => (some (before, e, after), status)
  | some (skipping, skip, status) =>
    match after with
    | [] => (none, status)
    | e' :: after => findNext sequence (e :: before) e' after skipping skip status

/-- `DBIter::FindNextUserEntry`, with `saved_key_` for the key to skip. -/
def findNextUserEntry (sequence : ℕ) (it : DbIter K V) (skipping : Bool) : DbIter K V :=
  match it.iter with
  | none => it
  | some (before, e, after) =>
    let r := findNext sequence before e after skipping it.savedKey it.status
    { it with iter := r.1, savedKey := none, valid := r.1.isSome, status := r.2 }

/-- What `FindPrevUserEntry` makes of an entry; nothing when it belongs to a key before the one
that was found. -/
def look (sequence : ℕ) (e : Entry K V) (p : PrevState K V) : Option (PrevState K V) :=
  match e.key.type? with
  | none => some { p with status := corruptedKey }
  | some t =>
    if e.key.sequence ≤ sequence then
      if p.valueType ≠ .deletion ∧ p.savedKey.any (e.key.userKey < ·) then none
      else
        match t with
        | .deletion => some ⟨.deletion, none, none, p.status⟩
        | .value => some ⟨.value, some e.key.userKey, some e.value, p.status⟩
    else some p

@[grind =] def findPrev (sequence : ℕ) (before : List (Entry K V)) (e : Entry K V) (after : List (Entry K V)) (p : PrevState K V) :
    Cursor (Entry K V) × PrevState K V :=
  match look sequence e p with
  | none => (some (before, e, after), p)
  | some p =>
    match before with
    | [] => (none, p)
    | e' :: before => findPrev sequence before e' (e :: after) p

def findPrevUserEntry (sequence : ℕ) (it : DbIter K V) : DbIter K V :=
  let p : PrevState K V := ⟨.deletion, it.savedKey, it.savedValue, it.status⟩
  let r :=
    match it.iter with
    | none => (none, p)
    | some (before, e, after) => findPrev sequence before e after p
  if r.2.valueType = .deletion then ⟨r.1, none, none, .forward, false, r.2.status⟩
  else ⟨r.1, r.2.savedKey, r.2.savedValue, it.direction, true, r.2.status⟩

/-- `DBIter::Next`, over the entries `contents`. -/
def next (contents : List (Entry K V)) (sequence : ℕ) (it : DbIter K V) : DbIter K V :=
  let it :=
    if it.direction = .reverse then
      { it with direction := .forward, iter := if it.iter.isNone then Cursor.seekToFirst contents else it.iter.next }
    else it
  match it.iter with
  | none => { it with valid := false, savedKey := none }
  | some (_, e, _) => findNextUserEntry sequence { it with savedKey := some e.key.userKey } true

/-- The scan of `DBIter::Prev` to an entry of a smaller key. -/
@[grind =] def scanBack (userKey : K) (before : List (Entry K V)) (e : Entry K V) (after : List (Entry K V)) : Cursor (Entry K V) :=
  match before with
  | [] => none
  | e' :: before => if e'.key.userKey < userKey then some (before, e', e :: after) else scanBack userKey before e' (e :: after)

def prev (sequence : ℕ) (it : DbIter K V) : DbIter K V :=
  if it.direction = .forward then
    match it.iter with
    | none => it
    | some (before, e, after) =>
      match scanBack e.key.userKey before e after with
      | none => { it with iter := none, valid := false, savedKey := none, savedValue := none }
      | some p => findPrevUserEntry sequence { it with iter := some p, savedKey := some e.key.userKey, direction := .reverse }
  else findPrevUserEntry sequence it

/-- `DBIter::Seek`. The lookup key that is stored in `saved_key_` is no key to skip. -/
def seek (contents : List (Entry K V)) (sequence : ℕ) (it : DbIter K V) (target : K) : DbIter K V :=
  let it :=
    { it with
      direction := .forward
      savedValue := none
      savedKey := none
      iter := Cursor.seek (fun e => decide (lookupKey target sequence ≤ e.key)) contents }
  if it.iter.isSome then findNextUserEntry sequence it false else { it with valid := false }

def seekToFirst (contents : List (Entry K V)) (sequence : ℕ) (it : DbIter K V) : DbIter K V :=
  let it := { it with direction := .forward, savedValue := none, iter := Cursor.seekToFirst contents }
  if it.iter.isSome then findNextUserEntry sequence it false else { it with valid := false }

def seekToLast (contents : List (Entry K V)) (sequence : ℕ) (it : DbIter K V) : DbIter K V :=
  findPrevUserEntry sequence { it with direction := .reverse, savedValue := none, iter := Cursor.seekToLast contents }

end DbIter

end KVStores.LevelDb
