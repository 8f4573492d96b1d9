import KVStores.Redis.SkipListSpec
import KVStores.Redis.Zzl

/-!
# Sorted set commands

The commands of Redis on one sorted set (`t_zset.c`), from where their arguments are parsed. A set
is a ziplist, or a skip list and a dict of its members; a key without a set is none.

The dict of a set is the finite map that it is; what it has of a member is the address of the node
with its score. A failed assertion is a fault (`none`), and so is a pointer that is not one.
-/

namespace KVStores.Redis

structure Zset (S : Type) where
  dict : List (Robj × ℕ)
  zsl : Zskiplist S

inductive Zobj (S : Type)
  | ziplist (zl : List ZipEntry)
  | skiplist (zs : Zset S)

/-- `zset_max_ziplist_entries` and `zset_max_ziplist_value`. -/
structure ZsetConfig where
  entries : ℕ
  value : ℕ

/-- `dictFind`. -/
def mapFind (dict : List (Robj × ℕ)) (ele : Robj) : Option (Robj × ℕ) := dict.find? fun e => dictEncObjKeyCompare ele e.1

/-- `dictAdd`, where it is asserted to be `DICT_OK`. -/
def mapAdd (dict : List (Robj × ℕ)) (ele : Robj) (score : ℕ) : Option (List (Robj × ℕ)) :=
  if (mapFind dict ele).isSome then none else some ((ele, score) :: dict)

/-- `dictDelete`. -/
def mapDelete (dict : List (Robj × ℕ)) (ele : Robj) : List (Robj × ℕ) := dict.eraseP fun e => dictEncObjKeyCompare ele e.1

/-- `dictGetVal(de) = score` for the entry of a member. -/
def mapSet (dict : List (Robj × ℕ)) (ele : Robj) (score : ℕ) : List (Robj × ℕ) :=
  dict.map fun e => if dictEncObjKeyCompare ele e.1 then (e.1, score) else e

variable {S : Type}

def zsetLength : Zobj S → ℕ
  | .ziplist zl => zzlLength zl
  | .skiplist zs => zs.zsl.length

/-- The object of an entry in `zsetConvert`. -/
def ZipEntry.object : ZipEntry → Robj
  | .str s => .raw s
  | .int v => .int v

variable [LinearOrder S]

def createZsetObject : Zobj S := .skiplist ⟨[], zslCreate⟩

/-- A new member of a skip list and its dict; a node at an address takes as many rounds of `zslRandomLevel` as there are for it. -/
def zsetInsert (rounds : ℕ → ℕ) (zs : Zset S) (score : S) (ele : Robj) : Option (Zset S) :=
  (zslInsert (rounds zs.zsl.fresh) zs.zsl score ele).bind fun r => (mapAdd zs.dict ele r.1).map fun dict => ⟨dict, r.2⟩

@[grind =] def zsetConvertLoop (fmt : ScoreFormat S) (rounds : ℕ → ℕ) : Zset S → List ZipEntry → Option (Zset S)
  | zs, [] => some zs
  | _, [_] => none
  | zs, e :: s :: zl => (zsetInsert rounds zs (zzlGetScore fmt s) e.object).bind fun zs => zsetConvertLoop fmt rounds zs zl

/-- `zsetConvert` to `REDIS_ENCODING_SKIPLIST`. -/
def zsetConvert (fmt : ScoreFormat S) (rounds : ℕ → ℕ) : Zobj S → Option (Zobj S)
  | .skiplist zs => some (.skiplist zs)
  | .ziplist [] => none
  | .ziplist zl => (zsetConvertLoop fmt rounds ⟨[], zslCreate⟩ zl).map .skiplist

/-- The score of a member that is there, from the one that is given: a sum that is not a number is none. -/
def zaddScore (add : S → S → Option S) (incr : Bool) (score curscore : S) : Option S := if incr then add score curscore else some score

/-- One member in `zaddGenericCommand`, for a ziplist: its score, whether it was added, and the set. A score that is not a number is none. -/
def zaddZiplist (cfg : ZsetConfig) (fmt : ScoreFormat S) (add : S → S → Option S) (incr : Bool) (rounds : ℕ → ℕ) (zl : List ZipEntry) (score : S)
    (ele : List UInt8) : Option (Option (S × Bool × Zobj S)) :=
  match zzlFind fmt zl ele with
  | none => none
  | some (some (eptr, curscore)) =>
    match zaddScore add incr score curscore with
    | none => some none
    | some score =>
      if score ≠ curscore then (zzlInsert fmt ele score (zzlDelete zl eptr)).map fun zl => some (score, false, .ziplist zl)
      else some (some (score, false, .ziplist zl))
  | some none =>
    (zzlInsert fmt ele score zl).bind fun zl =>
      (if cfg.entries < zzlLength zl then zsetConvert fmt rounds (.ziplist zl) else some (.ziplist zl)).bind fun z =>
        (if cfg.value < ele.length then zsetConvert fmt rounds z else some z).map fun z => some (score, true, z)

/-- One member in `zaddGenericCommand`, for a skip list. -/
def zaddSkiplist (add : S → S → Option S) (incr : Bool) (rounds : ℕ → ℕ) (zs : Zset S) (score : S) (ele : Robj) : Option (Option (S × Bool × Zset S)) :=
  match mapFind zs.dict ele with
  | some (curobj, node) =>
    (zs.zsl.node node).elem.bind fun e =>
      match zaddScore add incr score e.1 with
      | none => some none
      | some score =>
        if score ≠ e.1 then
          match zslDelete zs.zsl e.1 curobj with
          | some (true, zsl) =>
            (zslInsert (rounds zsl.fresh) zsl score curobj).map fun r => some (score, false, ⟨mapSet zs.dict curobj r.1, r.2⟩)
          | _ => none
        else some (some (score, false, zs))
  | none => (zsetInsert rounds zs score ele).map fun zs => some (score, true, zs)

/-- One member in `zaddGenericCommand`. -/
def zaddMember (cfg : ZsetConfig) (fmt : ScoreFormat S) (add : S → S → Option S) (incr : Bool) (rounds : ℕ → ℕ) (z : Zobj S) (e : S × ZArg) :
    Option (Option (S × Bool × Zobj S)) :=
  match z with
  | .ziplist zl => zaddZiplist cfg fmt add incr rounds zl e.1 e.2.bytes
  | .skiplist zs =>
    (zaddSkiplist add incr rounds zs e.1 (tryObjectEncoding e.2.shared (.raw e.2.bytes))).map fun r => r.map fun r => (r.1, r.2.1, .skiplist r.2.2)

@[grind =] def zaddLoop (cfg : ZsetConfig) (fmt : ScoreFormat S) (add : S → S → Option S) (incr : Bool) (rounds : ℕ → ℕ) :
    ℕ → S → Zobj S → List (S × ZArg) → Option (ZReply S × Zobj S)
  | added, score, z, [] => some (if incr then .double score else .number added, z)
  | added, _, z, e :: es =>
    match zaddMember cfg fmt add incr rounds z e with
    | none => none
    | some none => some (.error nanerr, z)
    | some (some (score, new, z)) => zaddLoop cfg fmt add incr rounds (if new && !incr then added + 1 else added) score z es

/-- The set that `zaddGenericCommand` makes for a key without one. -/
def zaddCreate (cfg : ZsetConfig) (ele : List UInt8) : Zobj S :=
  if cfg.entries = 0 ∨ cfg.value < ele.length then createZsetObject else .ziplist []

def zaddGenericCommand (cfg : ZsetConfig) (fmt : ScoreFormat S) (add : S → S → Option S) (incr : Bool) (rounds : ℕ → ℕ) (db : Option (Zobj S))
    (first : S × ZArg) (more : List (S × ZArg)) : Option (ZReply S × Option (Zobj S)) :=
  (zaddLoop cfg fmt add incr rounds 0 first.1 (db.getD (zaddCreate cfg first.2.bytes)) (first :: more)).map fun r => (r.1, some r.2)

/-- The loop of `zremCommand` for a ziplist; the key is deleted with its last member. -/
@[grind =] def zremZiplist (fmt : ScoreFormat S) : ℕ → List ZipEntry → List (List UInt8) → Option (ℕ × Option (List ZipEntry))
  | deleted, zl, [] => some (deleted, some zl)
  | deleted, zl, ele :: eles =>
    match zzlFind fmt zl ele with
    | none => none
    | some none => zremZiplist fmt deleted zl eles
    | some (some (eptr, _)) =>
      if zzlLength (zzlDelete zl eptr) = 0 then some (deleted + 1, none) else zremZiplist fmt (deleted + 1) (zzlDelete zl eptr) eles

/-- The loop of `zremCommand` for a skip list. -/
@[grind =] def zremSkiplist : ℕ → Zset S → List (List UInt8) → Option (ℕ × Option (Zset S))
  | deleted, zs, [] => some (deleted, some zs)
  | deleted, zs, ele :: eles =>
    match mapFind zs.dict (.raw ele) with
    | none => zremSkiplist deleted zs eles
    | some (_, node) =>
      match (zs.zsl.node node).elem.bind fun e => zslDelete zs.zsl e.1 (.raw ele) with
      | some (true, zsl) =>
        if (mapDelete zs.dict (.raw ele)).length = 0 then some (deleted + 1, none)
        else zremSkiplist (deleted + 1) ⟨mapDelete zs.dict (.raw ele), zsl⟩ eles
      | _ => none

def zremCommand (fmt : ScoreFormat S) (db : Option (Zobj S)) (eles : List (List UInt8)) : Option (ZReply S × Option (Zobj S)) :=
  match db with
  | none => some (.number 0, none)
  | some (.ziplist zl) => (zremZiplist fmt 0 zl eles).map fun r => (.number r.1, r.2.map .ziplist)
  | some (.skiplist zs) => (zremSkiplist 0 zs eles).map fun r => (.number r.1, r.2.map .skiplist)

/-- What `zremrangebyscoreCommand` and `zremrangebyrankCommand` do when members of a ziplist are deleted. -/
def deletedZiplist (r : ℕ × List ZipEntry) : ZReply S × Option (Zobj S) := (.number r.1, if zzlLength r.2 = 0 then none else some (.ziplist r.2))

/-- The same for a skip list, and `dictDelete` for each of its members that is deleted. -/
def deletedSkiplist (dict : List (Robj × ℕ)) (r : List Robj × Zskiplist S) : ZReply S × Option (Zobj S) :=
  (.number r.1.length, if (r.1.foldl mapDelete dict).length = 0 then none else some (.skiplist ⟨r.1.foldl mapDelete dict, r.2⟩))

def zremrangebyscoreCommand (fmt : ScoreFormat S) (db : Option (Zobj S)) (range : Zrangespec S) : Option (ZReply S × Option (Zobj S)) :=
  match db with
  | none => some (.number 0, none)
  | some (.ziplist zl) => (zzlDeleteRangeByScore fmt zl range).map deletedZiplist
  | some (.skiplist zs) => (zslDeleteRangeByScore zs.zsl range).map (deletedSkiplist zs.dict)

/-- "Sanitize indexes" in `zremrangebyrankCommand` and `zrangeGenericCommand`: none when the range is empty. -/
def sanitizeIndexes (llen : ℕ) (start stop : ℤ) : Option (ℕ × ℕ) :=
  let start := if start < 0 then llen + start else start
  let stop := if stop < 0 then llen + stop else stop
  let start := if start < 0 then 0 else start
  if stop < start ∨ llen ≤ start then none else some (start.toNat, (if (llen : ℤ) ≤ stop then (llen : ℤ) - 1 else stop).toNat)

def zremrangebyrankCommand (db : Option (Zobj S)) (start stop : ℤ) : Option (ZReply S × Option (Zobj S)) :=
  match db with
  | none => some (.number 0, none)
  | some z =>
    match sanitizeIndexes (zsetLength z) start stop with
    | none => some (.number 0, some z)
    | some (start, stop) =>
      match z with
      | .ziplist zl => some (deletedZiplist (zzlDeleteRangeByRank zl (start + 1) (stop + 1)))
      | .skiplist zs => (zslDeleteRangeByRank zs.zsl (start + 1) (stop + 1)).map (deletedSkiplist zs.dict)

@[grind =] def zsetUpdate (cfg : ZsetConfig) (fmt : ScoreFormat S) (add : S → S → Option S) (rounds : ℕ → ℕ) (db : Option (Zobj S)) :
    ZUpdate S → Option (ZReply S × Option (Zobj S))
  | .zadd first more => zaddGenericCommand cfg fmt add false rounds db first more
  | .zincrby score member => zaddGenericCommand cfg fmt add true rounds db (score, member) []
  | .zrem members => zremCommand fmt db members
  | .zremrangebyscore range => zremrangebyscoreCommand fmt db range
  | .zremrangebyrank start stop => zremrangebyrankCommand db start stop

end KVStores.Redis
