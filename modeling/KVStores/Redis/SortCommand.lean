import KVStores.Redis.HashType
import KVStores.Redis.ListCommands
import KVStores.Redis.Pqsort
import KVStores.Redis.SetType
import KVStores.Redis.ZsetQuery

/-!
# SORT

`sort.c`, on the encodings of the other modules. The keys are what `lookupKeyRead` finds at the time of the command. `strtod`, the scores and
`strcoll` are those of the C library; its `qsort` is a merge sort.

A failed assertion, an allocation of a size that cannot be, and an access outside of a vector are faults (`none`). A conversion to `int` or
`long` that overflows wraps around.
-/

namespace KVStores.Redis.Sort

open Gdb (cstr)
open ListType (ListObj listTypeLength listTypeInitIterator listTypeNext entryObject)
open SetType (SetObj setTypeElements setTypeSize)
open HashType (HashObj hashTypeGetObject)

/-- What `SORT` sorts. -/
inductive SortVal (S : Type)
  | list (subject : ListObj)
  | set (subject : SetObj)
  | zset (zobj : Zobj S)

inductive Value (S : Type)
  | string (o : Robj)
  | hash (o : HashObj)
  | sortable (o : SortVal S)

abbrev Db (S : Type) := List UInt8 → Option (Value S)

/-- What `strtod` returns: the number, where it stopped, and whether the number is out of range. -/
structure Strtod (T : Type) where
  value : T
  eptr : List UInt8
  erange : Bool

/-- The numbers of type `double`. -/
structure Doubles (T : Type) where
  zero : T
  ofLong : Long → T
  strtod : List UInt8 → Strtod T
  isnan : T → Bool

/-- What the command depends on besides the keys: whether it is called from a script, and whether `errno` is `ERANGE` already. -/
structure Server (S T : Type) where
  cfg : ListType.Config
  fmt : ScoreFormat S
  rounds : ℕ → ℕ
  doubles : Doubles T
  strcoll : List UInt8 → List UInt8 → ℤ
  luaClient : Bool
  erange : Bool

/-- The options of `SORT`. -/
structure Options where
  desc : Bool
  alpha : Bool
  limitStart : Long
  limitCount : Long
  dontsort : Bool
  storekey : Option Sds
  sortby : Option Sds
  operations : List Sds

theorem initial_limitStart : -2 ^ 63 ≤ (0 : ℤ) ∧ (0 : ℤ) < 2 ^ 63 := by decide

theorem initial_limitCount : -2 ^ 63 ≤ (-1 : ℤ) ∧ (-1 : ℤ) < 2 ^ 63 := by decide

def Options.initial : Options where
  desc := false
  alpha := false
  limitStart := ⟨0, initial_limitStart⟩
  limitCount := ⟨-1, initial_limitCount⟩
  dontsort := false
  storekey := none
  sortby := none
  operations := []

def getLongFromObject (s : List UInt8) : Option Long :=
  (getLongLongFromObject s).bind fun value => if h : -2 ^ 63 ≤ value ∧ value < 2 ^ 63 then some ⟨value, h⟩ else none

/-- `strchr(s, '*')`. -/
def hasStar (s : List UInt8) : Bool := (cstr s).bytes.any fun c => decide (c = 42)

inductive OptionError
  | syntaxerr
  | notInteger
deriving DecidableEq

@[grind =] def parseLoop : List Sds → Options → Except OptionError Options
  | [], o => .ok o
  | arg :: args, o =>
    -- "asc", "desc", "alpha", "limit", "store", "by", "get"
    if strcasecmp arg [97, 115, 99] = true then parseLoop args { o with desc := false }
    else if strcasecmp arg [100, 101, 115, 99] = true then parseLoop args { o with desc := true }
    else if strcasecmp arg [97, 108, 112, 104, 97] = true then parseLoop args { o with alpha := true }
    else if strcasecmp arg [108, 105, 109, 105, 116] = true then
      match args with
      | start :: count :: args =>
        match getLongFromObject start.1, getLongFromObject count.1 with
        | some start, some count => parseLoop args { o with limitStart := start, limitCount := count }
        | _, _ => .error .notInteger
      | _ => .error .syntaxerr
    else if strcasecmp arg [115, 116, 111, 114, 101] = true then
      match args with
      | key :: args => parseLoop args { o with storekey := some key }
      | _ => .error .syntaxerr
    else if strcasecmp arg [98, 121] = true then
      match args with
      | pattern :: args => parseLoop args { o with sortby := some pattern, dontsort := o.dontsort || !hasStar pattern.1 }
      | _ => .error .syntaxerr
    else if strcasecmp arg [103, 101, 116] = true then
      match args with
      | pattern :: args => parseLoop args { o with operations := o.operations ++ [pattern] }
      | _ => .error .syntaxerr
    else .error .syntaxerr

def SortVal.isZset {S : Type} : SortVal S → Bool
  | .zset _ => true
  | _ => false

/-- For `STORE` and for scripts an order is forced. -/
def Options.forced {S : Type} (o : Options) (luaClient : Bool) (sortval : SortVal S) : Options :=
  if (o.storekey.isSome || luaClient) && (o.dontsort && !sortval.isZset) then { o with dontsort := false, alpha := true, sortby := none } else o

/-- `strstr(s, "->")`. -/
@[grind =] def arrowAt : List UInt8 → Option ℕ
  | a :: b :: s => if a = 45 ∧ b = 62 then some 0 else (arrowAt (b :: s)).map (· + 1)
  | _ => none

def splitPattern (s : List UInt8) : List UInt8 × Option (List UInt8) :=
  match arrowAt (cstr s).bytes with
  | some f => if atEnd (s.drop (f + 2)) = true then (s, none) else (s.take f, some (s.drop (f + 2)))
  | none => (s, none)

variable {S : Type}

/-- The rest of `lookupKeyByPattern`, for a key and a field. -/
def lookupKeyAndField (db : Db S) (key : List UInt8) (field : Option (List UInt8)) : Option (Option Robj) :=
  match db key, field with
  | some (.string o), none => some (some o)
  | some (.hash o), some field => hashTypeGetObject o (.raw field)
  | _, _ => some none

def lookupKeyByPattern (db : Db S) (pattern : List UInt8) (subst : Robj) : Option (Option Robj) :=
  if pattern.head? = some 35 ∧ atEnd pattern.tail = true then some (some subst)
  else if hasStar pattern = false then some none
  else
    let p := (pattern.takeWhile fun c => decide (c ≠ 42)).length
    lookupKeyAndField db (pattern.take p ++ getDecodedObject subst ++ (splitPattern (pattern.drop (p + 1))).1) (splitPattern (pattern.drop (p + 1))).2

/-- A conversion to `int`. -/
def toInt (v : ℤ) : ℤ := v.bmod (2 ^ 32)

/-- A result of type `long`. -/
def toLong (v : ℤ) : ℤ := v.bmod (2 ^ 64)

/-- `start` of the options. -/
def Options.start (o : Options) : ℤ := if o.limitStart.1 < 0 then 0 else o.limitStart.1

/-- `end` of the options. -/
def Options.stop (o : Options) (vectorlen : ℤ) : ℤ := if o.limitCount.1 < 0 then toInt (vectorlen - 1) else toLong (o.start + o.limitCount.1 - 1)

/-- `start` and `end` when they have been checked. -/
def limitRange (o : Options) (vectorlen : ℤ) : ℤ × ℤ :=
  if vectorlen ≤ o.start then
    (toInt (vectorlen - 1), if vectorlen ≤ toInt (vectorlen - 2) then toInt (vectorlen - 1) else toInt (vectorlen - 2))
  else (o.start, if vectorlen ≤ o.stop vectorlen then toInt (vectorlen - 1) else o.stop vectorlen)

def listTypeGet (subject : ListObj) (entry : ℕ) : Option Robj :=
  match subject with
  | .ziplist zl => zl[entry]?.map entryObject
  | .linkedlist l => l[entry]?

@[grind =] def listLoop (subject : ListObj) : ℕ → Option ℕ → Option (List Robj)
  | 0, _ => none
  | fuel + 1, li =>
    match listTypeNext subject .tail li with
    | none => some []
    | some (entry, li) => (listTypeGet subject entry).bind fun o => (listLoop subject fuel li).map (o :: ·)

def firstNode (desc : Bool) (zs : Zset S) (start : ℤ) : Option (Option ℕ) :=
  if desc = true then if 0 < start then zslGetElementByRank zs.zsl (zs.dict.length - start).toNat else some zs.zsl.tail
  else if 0 < start then zslGetElementByRank zs.zsl (start + 1).toNat else some ((zs.zsl.node 0).level 0).forward

@[grind =] def nodeLoop (desc : Bool) (z : Zskiplist S) : ℕ → Option ℕ → Option (List Robj)
  | 0, _ => some []
  | _ + 1, none => none
  | rangelen + 1, some ln => (z.node ln).elem.bind fun e => (zslStep desc z ln).bind fun next => (nodeLoop desc z rangelen next).map (e.2 :: ·)

/-- The vector, as far as its objects go, `start` and `end`, and `vectorlen`. -/
structure Loaded where
  objs : List Robj
  start : ℤ
  stop : ℤ
  vectorlen : ℤ

/-- All objects are put in the vector, which has room for `vectorlen` of them. -/
def loadAll (o : Options) (size : ℕ) (objs : List Robj) : Option Loaded :=
  if (objs.length : ℤ) = toInt size then some ⟨objs, (limitRange o (toInt size)).1, (limitRange o (toInt size)).2, toInt size⟩ else none

/-- `vectorlen` for a sorted set whose nodes are taken in order. -/
def rangeLength (o : Options) (vectorlen : ℤ) : ℤ :=
  if (limitRange o vectorlen).1 ≠ 0 ∨ (limitRange o vectorlen).2 ≠ toInt (vectorlen - 1) then
    toInt ((limitRange o vectorlen).2 - (limitRange o vectorlen).1 + 1)
  else vectorlen

def loadNodes (o : Options) (zs : Zset S) : Option Loaded :=
  let range := limitRange o (toInt zs.dict.length)
  let vectorlen := rangeLength o (toInt zs.dict.length)
  if vectorlen < 0 then none
  else (firstNode o.desc zs range.1).bind fun ln => (nodeLoop o.desc zs.zsl vectorlen.toNat ln).map fun objs => ⟨objs, 0, range.2 - range.1, vectorlen⟩

variable {T : Type} [LinearOrder S]

def converted (server : Server S T) (zobj : Zobj S) : Option (Zset S) :=
  match zsetConvert server.fmt server.rounds zobj with
  | some (.skiplist zs) => some zs
  | _ => none

def elements (server : Server S T) : SortVal S → Option (List Robj)
  | .list subject => listLoop subject (listTypeLength subject + 1) (listTypeInitIterator subject 0)
  | .set subject => (setTypeElements subject).map (List.map SetType.Element.object)
  | .zset zobj => (converted server zobj).map fun zs => zs.dict.map Prod.fst

def loadVector (server : Server S T) (o : Options) (sortval : SortVal S) : Option Loaded :=
  match sortval with
  | .list subject => (elements server sortval).bind (loadAll o (listTypeLength subject))
  | .set subject => (elements server sortval).bind (loadAll o (setTypeSize subject))
  | .zset zobj =>
    (converted server zobj).bind fun zs =>
      if o.dontsort = true then loadNodes o zs else (elements server sortval).bind (loadAll o zs.dict.length)

/-- `redisSortObject`; `score` and `cmpobj` are members of a union, and both zero at first. -/
structure SortObject (T : Type) where
  obj : Robj
  score : T
  cmpobj : Option (List UInt8)

def byValue (db : Db S) (o : Options) (obj : Robj) : Option (Option Robj) :=
  match o.sortby with
  | some sortby => lookupKeyByPattern db sortby.1 obj
  | none => some (some obj)

/-- `errno == ERANGE`, and `int_convertion_error`. -/
structure Conversion where
  erange : Bool
  error : Bool

/-- The score of one object, or its `cmpobj`. -/
def loadScore (doubles : Doubles T) (o : Options) (obj : Robj) (byval : Option Robj) (c : Conversion) : SortObject T × Conversion :=
  match byval with
  | none => (⟨obj, doubles.zero, none⟩, c)
  | some byval =>
    if o.alpha = true then (⟨obj, doubles.zero, if o.sortby.isSome = true then some (getDecodedObject byval) else none⟩, c)
    else
      match byval with
      | .raw s =>
        let r := doubles.strtod (cstr s).bytes
        (⟨obj, r.value, none⟩, ⟨c.erange || r.erange, c.error || (!atEnd r.eptr || (c.erange || r.erange) || doubles.isnan r.value)⟩)
      | .int v => (⟨obj, doubles.ofLong v, none⟩, c)

@[grind =] def scoreLoop (doubles : Doubles T) (db : Db S) (o : Options) : List Robj → Conversion → Option (List (SortObject T) × Conversion)
  | [], c => some ([], c)
  | obj :: objs, c =>
    (byValue db o obj).bind fun byval =>
      (scoreLoop doubles db o objs (loadScore doubles o obj byval c).2).map fun r => ((loadScore doubles o obj byval c).1 :: r.1, r.2)

def sortCompare [LT T] [DecidableLT T] (strcoll : List UInt8 → List UInt8 → ℤ) (o : Options) (so1 so2 : SortObject T) : ℤ :=
  let cmp :=
    if o.alpha = false then
      if so2.score < so1.score then 1 else if so1.score < so2.score then -1 else compareStringObjects so1.obj so2.obj
    else if o.sortby.isSome = true then
      match so1.cmpobj, so2.cmpobj with
      | none, none => 0
      | none, some _ => -1
      | some _, none => 1
      | some a, some b => strcoll (cstr a).bytes (cstr b).bytes
    else compareStringObjects so1.obj so2.obj
  if o.desc = true then -cmp else cmp

/-- `pqsort` of a whole vector. -/
def pqsortList {α : Type} (cmp : α → α → ℤ) (es : ℕ) (lrange rrange : ℤ) (vector : List α) : List α :=
  match vector with
  | [] => []
  | x :: rest => (List.range (x :: rest).length).map (pqsort cmp (fun j => (x :: rest).getD j x) (x :: rest).length es lrange rrange)

def qsort {α : Type} (cmp : α → α → ℤ) (vector : List α) : List α := vector.mergeSort fun a b => decide (cmp a b ≤ 0)

/-- `sizeof(redisSortObject)`. -/
def sortObjectSize : ℕ := 16

def sortVector [LT T] [DecidableLT T] (server : Server S T) (o : Options) (l : Loaded) (vector : List (SortObject T)) : List (SortObject T) :=
  if o.sortby.isSome = true ∧ (l.start ≠ 0 ∨ l.stop ≠ toInt (l.vectorlen - 1)) then
    pqsortList (sortCompare server.strcoll o) sortObjectSize l.start l.stop vector
  else qsort (sortCompare server.strcoll o) vector

/-- The objects in the order of the vector, and whether a score could not be converted. -/
def ordered [LT T] [DecidableLT T] (server : Server S T) (db : Db S) (o : Options) (l : Loaded) : Option (List Robj × Bool) :=
  if o.dontsort = true then some (l.objs, false)
  else (scoreLoop server.doubles db o l.objs ⟨server.erange, false⟩).map fun r => ((sortVector server o l r.1).map SortObject.obj, r.2.error)

@[grind =] def getLoop (db : Db S) (obj : Robj) : List Sds → Option (List (Option Robj))
  | [] => some []
  | pattern :: operations => (lookupKeyByPattern db pattern.1 obj).bind fun val => (getLoop db obj operations).map (val :: ·)

def row (db : Db S) (operations : List Sds) (obj : Robj) : Option (List (Option Robj)) :=
  if operations = [] then some [some obj] else getLoop db obj operations

/-- The loop from `start` to `end`. -/
@[grind =] def outputLoop (db : Db S) (operations : List Sds) (vector : List Robj) : ℕ → ℤ → Option (List (Option Robj))
  | 0, _ => some []
  | n + 1, j =>
    (if 0 ≤ j then vector[j.toNat]? else none).bind fun obj =>
      (row db operations obj).bind fun vals => (outputLoop db operations vector n (j + 1)).map (vals ++ ·)

/-- `outputlen`, which is an `unsigned int`. -/
def outputlen (o : Options) (l : Loaded) : ℕ := (((if o.operations = [] then 1 else o.operations.length : ℕ) * (l.stop - l.start + 1)) % 2 ^ 32).toNat

/-- A reply; `stored` is the list that was made for `STORE`, and what is at the key then. -/
inductive Reply
  | wrongtypeerr
  | option (e : OptionError)
  | unconvertible
  | multibulk (outputlen : ℕ) (sent : List (Option (List UInt8)))
  | stored (outputlen : ℕ) (sobj : ListObj) (atKey : Option ListObj)
deriving DecidableEq

/-- `listTypePush` of all values, of an empty string for a missing one. -/
def storeAll (cfg : ListType.Config) (vals : List (Option Robj)) : ListObj :=
  vals.foldl (fun sobj val => ListType.listTypePush cfg sobj (val.getD (.raw [])) .tail) (.ziplist [])

def reply (server : Server S T) (o : Options) (l : Loaded) (vals : List (Option Robj)) : Reply :=
  match o.storekey with
  | none => .multibulk (outputlen o l) (vals.map (Option.map getDecodedObject))
  | some _ => .stored (outputlen o l) (storeAll server.cfg vals) (if outputlen o l ≠ 0 then some (storeAll server.cfg vals) else none)

/-- `sortCommand` from where the vector is allocated. -/
def sortVal [LT T] [DecidableLT T] (server : Server S T) (db : Db S) (sortval : SortVal S) (o : Options) : Option Reply :=
  (loadVector server o sortval).bind fun l =>
    (ordered server db o l).bind fun r =>
      if r.2 = true then some .unconvertible
      else (outputLoop db o.operations r.1 (l.stop - l.start + 1).toNat l.start).map (reply server o l)

/-- `sortCommand` from where the options are known. -/
def sortWith [LT T] [DecidableLT T] (server : Server S T) (db : Db S) (sortval : SortVal S) (o : Options) : Option Reply :=
  sortVal server db sortval (o.forced server.luaClient sortval)

/-- `sortCommand`. A missing key is an empty list. -/
def sortCommand [LT T] [DecidableLT T] (server : Server S T) (db : Db S) (key : Sds) (args : List Sds) : Option Reply :=
  let sortval := match db key.1 with
    | none => some (.list (.linkedlist []))
    | some (.sortable o) => some o
    | some _ => none
  match sortval with
  | none => some .wrongtypeerr
  | some sortval =>
    match parseLoop args Options.initial with
    | .error e => some (.option e)
    | .ok o => sortWith server db sortval o

end KVStores.Redis.Sort
