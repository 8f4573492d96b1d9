import KVStores.Redis.ZsetUpdates

/-!
# Sorted set commands that read

The commands of Redis that read a sorted set (`t_zset.c`), from where their arguments are parsed.

The loops over members are the same for both encodings, but for the step from a member to the next one.
-/

namespace KVStores.Redis

variable {S : Type} {P : Type}

/-- The loop of `zrangeGenericCommand`, which asserts that there are as many members. -/
@[grind =] def rangeLoop (next : P → Option (Option P)) (get : P → Option (Member S)) : ℕ → Option P → Option (List (Member S))
  | 0, _ => some []
  | _ + 1, none => none
  | n + 1, some p => (get p).bind fun e => (next p).bind fun p => (rangeLoop next get n p).map fun l => e :: l

/-- The first loop of `genericZrangebyscoreCommand`: past as many members as the offset says, or past all when it is negative. -/
@[grind =] def offsetLoop (next : P → Option (Option P)) : ℕ → ℤ → Option P → Option (Option P)
  | 0, _, _ => none
  | _ + 1, _, none => some none
  | fuel + 1, offset, some p => if offset = 0 then some (some p) else (next p).bind fun p => offsetLoop next fuel (offset - 1) p

/-- The second loop of `genericZrangebyscoreCommand`, as long as members are in the range; the loop of `zcountCommand` has no limit. -/
@[grind =] def limitLoop (next : P → Option (Option P)) (get : P → Option (Member S)) (inside : S → Bool) : ℕ → ℤ → Option P → Option (List (Member S))
  | 0, _, _ => none
  | _ + 1, _, none => some []
  | fuel + 1, limit, some p =>
    if limit = 0 then some []
    else (get p).bind fun e => if inside e.1 then (next p).bind fun p => (limitLoop next get inside fuel (limit - 1) p).map fun l => e :: l else some []

def ziplistIndex (zl : List ZipEntry) (index : ℤ) : Option ℕ :=
  let index := if index < 0 then zl.length + index else index
  if 0 ≤ index ∧ index < zl.length then some index.toNat else none

/-- The entries of a member: a pointer to it, and one to its score, which is asserted not to be `NULL`. -/
def zzlPair (zl : List ZipEntry) (eptr : ℕ) : Option (ℕ × ℕ) := (ziplistNext zl eptr).map fun sptr => (eptr, sptr)

def zzlGet (fmt : ScoreFormat S) (zl : List ZipEntry) (p : ℕ × ℕ) : Option (Member S) :=
  zl[p.1]?.bind fun e => zl[p.2]?.map fun s => (zzlGetScore fmt s, e.bytes)

/-- `zzlPrev`, or `zzlNext`. -/
def zzlStep (reverse : Bool) (zl : List ZipEntry) (p : ℕ × ℕ) : Option (Option (ℕ × ℕ)) := if reverse then zzlPrev p else zzlNext zl p

/-- `backward`, or `forward` on the lowest level. -/
def zslStep (reverse : Bool) (z : Zskiplist S) (x : ℕ) : Option (Option ℕ) :=
  some (if reverse then (z.node x).backward else ((z.node x).level 0).forward)

def zslGet (z : Zskiplist S) (x : ℕ) : Option (Member S) := (z.node x).elem.map memberOf

def zrangeGenericCommand (fmt : ScoreFormat S) (db : Option (Zobj S)) (reverse withscores : Bool) (start stop : ℤ) : Option (ZReply S) :=
  match db with
  | none => some (.multibulk [])
  | some z =>
    match sanitizeIndexes (zsetLength z) start stop with
    | none => some (.multibulk [])
    | some (start, stop) =>
      let rangelen := stop - start + 1
      Option.map (fun l => .multibulk (l.map (bulk withscores)))
        (match z with
        | .ziplist zl =>
          (ziplistIndex zl (if reverse then -2 - 2 * start else 2 * start)).bind fun eptr =>
            (zzlPair zl eptr).bind fun p => rangeLoop (zzlStep reverse zl) (zzlGet fmt zl) rangelen (some p)
        | .skiplist zs =>
          (if reverse then (if 0 < start then zslGetElementByRank zs.zsl (zs.zsl.length - start) else some zs.zsl.tail)
            else if 0 < start then zslGetElementByRank zs.zsl (start + 1) else some ((zs.zsl.node 0).level 0).forward).bind fun ln =>
            rangeLoop (zslStep reverse zs.zsl) (zslGet zs.zsl) rangelen ln)

variable [LinearOrder S]

/-- Where `genericZrangebyscoreCommand` leaves its second loop, on the way forward or backward. -/
def stillInside (reverse : Bool) (range : Zrangespec S) (score : S) : Bool :=
  if reverse then zslValueGteMin score range else zslValueLteMax score range

def genericZrangebyscoreCommand (fmt : ScoreFormat S) (db : Option (Zobj S)) (reverse withscores : Bool) (range : Zrangespec S) (offset limit : ℤ) :
    Option (ZReply S) :=
  match db with
  | none => some (.multibulk [])
  | some (.ziplist zl) =>
    (if reverse then zzlLastInRange fmt zl range else zzlFirstInRange fmt zl range).bind fun eptr =>
      match eptr with
      | none => some (.multibulk [])
      | some eptr =>
        (zzlPair zl eptr).bind fun p => (offsetLoop (zzlStep reverse zl) (zl.length + 1) offset (some p)).bind fun p =>
          (limitLoop (zzlStep reverse zl) (zzlGet fmt zl) (stillInside reverse range) (zl.length + 1) limit p).map fun l =>
            .multibulk (l.map (bulk withscores))
  | some (.skiplist zs) =>
    (if reverse then zslLastInRange zs.zsl range else zslFirstInRange zs.zsl range).bind fun ln =>
      match ln with
      | none => some (.multibulk [])
      | some ln =>
        (offsetLoop (zslStep reverse zs.zsl) (zs.zsl.length + 1) offset (some ln)).bind fun ln =>
          (limitLoop (zslStep reverse zs.zsl) (zslGet zs.zsl) (stillInside reverse range) (zs.zsl.length + 1) limit ln).map fun l =>
            .multibulk (l.map (bulk withscores))

/-- The rank of the node that a search has found, in `zcountCommand`. -/
def zslNodeRank (z : Zskiplist S) (x : ℕ) : Option ℕ := (z.node x).elem.bind fun e => zslGetRank z e.1 e.2

def zcountCommand (fmt : ScoreFormat S) (db : Option (Zobj S)) (range : Zrangespec S) : Option (ZReply S) :=
  match db with
  | none => some (.number 0)
  | some (.ziplist zl) =>
    (zzlFirstInRange fmt zl range).bind fun eptr =>
      match eptr with
      | none => some (.number 0)
      | some eptr =>
        (zzlPair zl eptr).bind fun p =>
          -- the first member is asserted to be in the range
          (zzlGet fmt zl p).bind fun e =>
            if zslValueLteMax e.1 range then
              (limitLoop (zzlStep false zl) (zzlGet fmt zl) (fun s => zslValueLteMax s range) (zl.length + 1) (-1) (some p)).map fun l =>
                .number l.length
            else none
  | some (.skiplist zs) =>
    (zslFirstInRange zs.zsl range).bind fun zn =>
      match zn with
      | none => some (.number 0)
      | some zn =>
        (zslNodeRank zs.zsl zn).bind fun (rank : ℕ) =>
          (zslLastInRange zs.zsl range).bind fun zn' =>
            match zn' with
            | none => some (.number (zs.zsl.length - ((rank : ℤ) - 1)))
            | some zn' => (zslNodeRank zs.zsl zn').map fun (rank' : ℕ) => .number (zs.zsl.length - (rank - 1) - (zs.zsl.length - rank'))

@[grind =] def zrankLoop (ele : List UInt8) : ℕ → List ZipEntry → Option (Option ℕ)
  | _, [] => some none
  | _, [_] => none
  | rank, e :: _ :: zl => if ziplistCompare e ele then some (some rank) else zrankLoop ele (rank + 1) zl

/-- The reply of `zrankGenericCommand`. -/
def rankReply (reverse : Bool) (llen rank : ℕ) : ZReply S := .number (if reverse then (llen : ℤ) - rank else (rank : ℤ) - 1)

@[grind =] def zrankGenericCommand (db : Option (Zobj S)) (reverse : Bool) (ele : ZArg) : Option (ZReply S) :=
  match db with
  | none => some .nullbulk
  | some (.ziplist []) => none
  | some (.ziplist zl) => (zrankLoop ele.bytes 1 zl).map fun rank => rank.elim .nullbulk (rankReply reverse (zzlLength zl))
  | some (.skiplist zs) =>
    match mapFind zs.dict (tryObjectEncoding ele.shared (.raw ele.bytes)) with
    | none => some .nullbulk
    | some (_, node) =>
      (zs.zsl.node node).elem.bind fun e =>
        (zslGetRank zs.zsl e.1 (tryObjectEncoding ele.shared (.raw ele.bytes))).bind fun rank =>
          if rank = 0 then none else some (rankReply reverse zs.zsl.length rank)

def zscoreCommand (fmt : ScoreFormat S) (db : Option (Zobj S)) (ele : ZArg) : Option (ZReply S) :=
  match db with
  | none => some .nullbulk
  | some (.ziplist zl) => (zzlFind fmt zl ele.bytes).map fun found => found.elim .nullbulk fun r => .double r.2
  | some (.skiplist zs) =>
    match mapFind zs.dict (tryObjectEncoding ele.shared (.raw ele.bytes)) with
    | none => some .nullbulk
    | some (_, node) => (zs.zsl.node node).elem.map fun e => .double e.1

def zcardCommand (db : Option (Zobj S)) : ZReply S := .number (db.elim 0 zsetLength : ℕ)

@[grind =] def zsetQuery (fmt : ScoreFormat S) (db : Option (Zobj S)) : ZQuery S → Option (ZReply S)
  | .zrange reverse withscores start stop => zrangeGenericCommand fmt db reverse withscores start stop
  | .zrangebyscore reverse withscores range offset limit => genericZrangebyscoreCommand fmt db reverse withscores range offset limit
  | .zcount range => zcountCommand fmt db range
  | .zrank reverse member => zrankGenericCommand db reverse member
  | .zscore member => zscoreCommand fmt db member
  | .zcard => some (zcardCommand db)

end KVStores.Redis
