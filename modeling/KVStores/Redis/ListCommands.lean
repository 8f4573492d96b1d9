import KVStores.Redis.StringCommands

/-!
# Commands on lists

t_list.c, the commands that do not block, without the replies.
-/

namespace KVStores.Redis

variable {Score : Type}

/-- `REDIS_HEAD` and `REDIS_TAIL`. -/
inductive Where
  | head
  | tail
deriving DecidableEq

def listTypePush (l : List Sds) (value : Sds) : Where → List Sds
  | .head => value :: l
  | .tail => l ++ [value]

/-- `listTypePop`: the element, and the list without it. -/
def listTypePop (l : List Sds) : Where → Option (Sds × List Sds)
  | .head => l.head?.map fun value => (value, l.tail)
  | .tail => l.getLast?.map fun value => (value, l.dropLast)

/-- A list that has lost elements; without any it is deleted. -/
def storeOrDelete (l : List Sds) : Change Score := if l = [] then .delete 1 else .store (.list l) 1

def pushGenericChange (elements : List Sds) (w : Where) (o : Option (Value Score)) : Change Score :=
  let store (l : List Sds) : Change Score :=
    if elements = [] then .keep else .store (.list (elements.foldl (fun l v => listTypePush l v w) l)) elements.length
  match o with
  | none => store []
  | some (.list l) => store l
  | some _ => .keep

def pushGenericCommand (e : Env) (s : Keyspace Score) (n : ℕ) (w : Where) : Keyspace Score :=
  changeKey e s n (s.arg 1) (pushGenericChange (s.argv.drop 2) w)

def lpushCommand (e : Env) (s : Keyspace Score) (n : ℕ) : Keyspace Score := pushGenericCommand e s n .head

def rpushCommand (e : Env) (s : Keyspace Score) (n : ℕ) : Keyspace Score := pushGenericCommand e s n .tail

/-- `listTypeInsert` next to the first element that equals `refval`; `none` without one. -/
@[grind =] def listInsert (l : List Sds) (refval value : Sds) (w : Where) : Option (List Sds) :=
  match l with
  | [] => none
  | x :: l =>
    if x = refval then
      some (match w with
        | .head => value :: x :: l
        | .tail => x :: value :: l)
    else (listInsert l refval value w).map (x :: ·)

def pushxGenericChange (refval : Option Sds) (value : Sds) (w : Where) (o : Option (Value Score)) : Change Score :=
  match o with
  | some (.list l) =>
    match refval with
    | none => .store (.list (listTypePush l value w)) 1
    | some refval =>
      match listInsert l refval value w with
      | none => .keep
      | some l => .store (.list l) 1
  | _ => .keep

def pushxGenericCommand (e : Env) (s : Keyspace Score) (n : ℕ) (refval : Option Sds) (value : Sds) (w : Where) : Keyspace Score :=
  changeKey e s n (s.arg 1) (pushxGenericChange refval value w)

def lpushxCommand (e : Env) (s : Keyspace Score) (n : ℕ) : Keyspace Score := pushxGenericCommand e s n none (s.arg 2) .head

def rpushxCommand (e : Env) (s : Keyspace Score) (n : ℕ) : Keyspace Score := pushxGenericCommand e s n none (s.arg 2) .tail

def tolower (b : UInt8) : UInt8 := if 65 ≤ b ∧ b ≤ 90 then b + 32 else b

/-- `strcasecmp` with a word in lower case: the C strings are the same. -/
def strcasecmp (s : Sds) (word : List UInt8) : Bool := decide ((s.1.takeWhile (· ≠ 0)).map tolower = word)

def linsertCommand (e : Env) (s : Keyspace Score) (n : ℕ) : Keyspace Score :=
  -- "after", "before"
  if strcasecmp (s.arg 2) [97, 102, 116, 101, 114] = true then pushxGenericCommand e s n (some (s.arg 3)) (s.arg 4) .tail
  else if strcasecmp (s.arg 2) [98, 101, 102, 111, 114, 101] = true then pushxGenericCommand e s n (some (s.arg 3)) (s.arg 4) .head
  else s

def popGenericChange (w : Where) (o : Option (Value Score)) : Change Score :=
  match o with
  | some (.list l) =>
    match listTypePop l w with
    | none => .keep
    | some (_, l) => storeOrDelete l
  | _ => .keep

def popGenericCommand (e : Env) (s : Keyspace Score) (n : ℕ) (w : Where) : Keyspace Score := changeKey e s n (s.arg 1) (popGenericChange w)

def lpopCommand (e : Env) (s : Keyspace Score) (n : ℕ) : Keyspace Score := popGenericCommand e s n .head

def rpopCommand (e : Env) (s : Keyspace Score) (n : ℕ) : Keyspace Score := popGenericCommand e s n .tail

def listIndex (l : List Sds) (index : ℤ) : Option ℕ :=
  let i := if index < 0 then index + l.length else index
  if i < 0 ∨ (l.length : ℤ) ≤ i then none else some i.toNat

def lsetChange (index : Option ℤ) (value : Sds) (o : Option (Value Score)) : Change Score :=
  match o with
  | some (.list l) =>
    match index.bind (listIndex l) with
    | none => .keep
    | some i => .store (.list (l.set i value)) 1
  | _ => .keep

/-- `lsetCommand`; the index is read behind the lookup. -/
def lsetCommand (e : Env) (s : Keyspace Score) (n : ℕ) : Keyspace Score :=
  changeKey e s n (s.arg 1) (lsetChange (getLongLongFromObject (s.arg 2).1) (s.arg 3))

def ltrimChange (start stop : ℤ) (o : Option (Value Score)) : Change Score :=
  match o with
  | some (.list l) =>
    let llen : ℤ := l.length
    let start := max (if start < 0 then llen + start else start) 0
    let stop := if stop < 0 then llen + stop else stop
    if stop < start ∨ llen ≤ start then storeOrDelete (l.drop l.length)
    else
      let stop := min stop (llen - 1)
      storeOrDelete ((l.drop start.toNat).take (stop + 1 - start).toNat)
  | _ => .keep

def ltrimCommand (e : Env) (s : Keyspace Score) (n : ℕ) : Keyspace Score :=
  match getLongLongFromObject (s.arg 2).1, getLongLongFromObject (s.arg 3).1 with
  | some start, some stop => changeKey e s n (s.arg 1) (ltrimChange start stop)
  | _, _ => s

/-- The loop of `lremCommand`: at most `toremove` elements go, or all for `none`; the list, and how many went. -/
@[grind =] def lremLoop (obj : Sds) : Option ℕ → List Sds → List Sds × ℕ
  | _, [] => ([], 0)
  | some 0, l => (l, 0)
  | toremove, x :: l =>
    if x = obj then
      let r := lremLoop obj (toremove.map (· - 1)) l
      (r.1, r.2 + 1)
    else
      let r := lremLoop obj toremove l
      (x :: r.1, r.2)

/-- What `lremCommand` makes of a value: from the head, from the tail for a negative number, all of them for 0. -/
def lremChange (toremove : ℤ) (obj : Sds) (o : Option (Value Score)) : Change Score :=
  match o with
  | some (.list l) =>
    let limit := if toremove = 0 then none else some toremove.natAbs
    let r := if toremove < 0 then ((lremLoop obj limit l.reverse).1.reverse, (lremLoop obj limit l.reverse).2) else lremLoop obj limit l
    if r.2 = 0 then .keep else if r.1 = [] then .delete r.2 else .store (.list r.1) r.2
  | _ => .keep

def lremCommand (e : Env) (s : Keyspace Score) (n : ℕ) : Keyspace Score :=
  match getLongLongFromObject (s.arg 2).1 with
  | none => s
  | some toremove => changeKey e s n (s.arg 1) (lremChange toremove (s.arg 3))

def Value.asList : Option (Value Score) → Option (List Sds)
  | none => some []
  | some (.list l) => some l
  | some _ => none

def rpoplpushCommand (e : Env) (s : Keyspace Score) (n : ℕ) : Keyspace Score :=
  let src := s.arg 1
  let dst := s.arg 2
  let s := expireIfNeeded e s n src
  match lookupKey s n src with
  | some (.list l) =>
    match listTypePop l .tail with
    | none => s
    | some (value, rest) =>
      let s := expireIfNeeded e s n dst
      if (Value.asList (lookupKey s n dst)).isNone = true then s
      else
        -- the source first: it can be the destination too
        let s := s.setDict n src (some (.list rest))
        let dobj := (Value.asList (lookupKey s n dst)).getD []
        let s := signalModifiedKey (s.setDict n dst (some (.list (listTypePush dobj value .head)))) n dst
        let s := if (Value.asList (lookupKey s n src)).getD [] = [] then dbDelete s n src else s
        addDirty (signalModifiedKey s n src) 1
  | _ => s

end KVStores.Redis
