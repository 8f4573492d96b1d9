import KVStores.Redis.HashCommands

/-!
# Commands on sorted sets

t_zset.c, the writing commands, without the replies. What `ZUNIONSTORE` and `ZINTERSTORE` make of their sources is given.
-/

namespace KVStores.Redis

variable {Score : Type}

abbrev ScoreMap (Score : Type) : Type := Finmap fun _ : Sds => Score

/-- The scores and members of `zaddGenericCommand`; `none` if a score is no number. -/
@[grind =] def zaddPairs (floats : Floats Score) : List Sds → Option (List (Score × Sds))
  | score :: ele :: rest => (floats.getDouble score).bind fun score => (zaddPairs floats rest).map ((score, ele) :: ·)
  | _ => some []

/-- The loop of `zaddGenericCommand`: the sorted set, and how often it changed. A sum that is no number ends it. -/
@[grind =] def Keyspace.zaddLoop (floats : Floats Score) (incr : Bool) : List (Score × Sds) → ScoreMap Score × ℕ → ScoreMap Score × ℕ
  | [], r => r
  | (score, ele) :: rest, (z, changed) =>
    match z.lookup ele with
    | none => Keyspace.zaddLoop floats incr rest (z.insert ele score, changed + 1)
    | some curscore =>
      match if incr = true then floats.add score curscore else some score with
      | none => (z, changed)
      | some score =>
        if floats.eq score curscore = true then Keyspace.zaddLoop floats incr rest (z, changed)
        else Keyspace.zaddLoop floats incr rest (z.insert ele score, changed + 1)

def zaddGenericChange (floats : Floats Score) (incr : Bool) (pairs : List (Score × Sds)) (o : Option (Value Score)) : Change Score :=
  match o with
  | none => .store (.zset (Keyspace.zaddLoop floats incr pairs (∅, 0)).1) (Keyspace.zaddLoop floats incr pairs (∅, 0)).2
  | some (.zset z) =>
    if (Keyspace.zaddLoop floats incr pairs (z, 0)).2 = 0 then .keep
    else .store (.zset (Keyspace.zaddLoop floats incr pairs (z, 0)).1) (Keyspace.zaddLoop floats incr pairs (z, 0)).2
  | some _ => .keep

def Keyspace.zaddGenericCommand (floats : Floats Score) (e : Env) (s : Keyspace Score) (n : ℕ) (incr : Bool) : Keyspace Score :=
  if s.argv.length % 2 ≠ 0 then s
  else
    match zaddPairs floats (s.argv.drop 2) with
    | none => s
    | some pairs => changeKey e s n (s.arg 1) (zaddGenericChange floats incr pairs)

def zaddCommand (floats : Floats Score) (e : Env) (s : Keyspace Score) (n : ℕ) : Keyspace Score := Keyspace.zaddGenericCommand floats e s n false

def zincrbyCommand (floats : Floats Score) (e : Env) (s : Keyspace Score) (n : ℕ) : Keyspace Score := Keyspace.zaddGenericCommand floats e s n true

/-- The loop of `zremCommand`, which ends when the sorted set is empty. -/
@[grind =] def zremLoop : List Sds → ScoreMap Score × ℕ → ScoreMap Score × ℕ
  | [], r => r
  | ele :: rest, (z, deleted) =>
    if ele ∈ z then
      if (z.erase ele).keys = ∅ then (∅, deleted + 1) else zremLoop rest (z.erase ele, deleted + 1)
    else zremLoop rest (z, deleted)

/-- A sorted set that has lost `deleted` members. -/
def storeRemaining (z : ScoreMap Score) (deleted : ℕ) : Change Score :=
  if deleted = 0 then .keep else if z.keys = ∅ then .delete deleted else .store (.zset z) deleted

def zremChange (elements : List Sds) (o : Option (Value Score)) : Change Score :=
  match o with
  | some (.zset z) => storeRemaining (zremLoop elements (z, 0)).1 (zremLoop elements (z, 0)).2
  | _ => .keep

def Keyspace.zremCommand (e : Env) (s : Keyspace Score) (n : ℕ) : Keyspace Score := changeKey e s n (s.arg 1) (zremChange (s.argv.drop 2))

theorem nodupKeys_filter (z : ScoreMap Score) (p : (Σ _ : Sds, Score) → Bool) : (z.entries.filter fun m => p m = true).NodupKeys :=
  Multiset.nodup_keys.1 (Multiset.nodup_of_le (Multiset.map_le_map (Multiset.filter_le _ _)) (Multiset.nodup_keys.2 z.nodupKeys))

/-- The members for which `p` holds. -/
def filterMembers (z : ScoreMap Score) (p : (Σ _ : Sds, Score) → Bool) : ScoreMap Score := ⟨z.entries.filter fun m => p m = true, nodupKeys_filter z p⟩

/-- The members for which `p` holds go. -/
def deleteRange (z : ScoreMap Score) (p : (Σ _ : Sds, Score) → Bool) : Change Score :=
  storeRemaining (filterMembers z fun m => !p m) (filterMembers z p).keys.card

def zremrangebyscoreChange (range : Score → Bool) (o : Option (Value Score)) : Change Score :=
  match o with
  | some (.zset z) => deleteRange z fun m => range m.2
  | _ => .keep

def Keyspace.zremrangebyscoreCommand (floats : Floats Score) (e : Env) (s : Keyspace Score) (n : ℕ) : Keyspace Score :=
  match floats.parseRange (s.arg 2) (s.arg 3) with
  | none => s
  | some range => changeKey e s n (s.arg 1) (zremrangebyscoreChange range)

/-- `memcmp` of two strings, the shorter one first if it is a prefix: whether the first one is less. -/
@[grind =] def bytesLt : List UInt8 → List UInt8 → Bool
  | _, [] => false
  | [], _ :: _ => true
  | a :: l, b :: l' => if a < b then true else if b < a then false else bytesLt l l'

/-- How many members are in front of one: less scores, and lesser members of the same score. -/
def memberRank (floats : Floats Score) (z : ScoreMap Score) (m : Σ _ : Sds, Score) : ℕ :=
  (filterMembers z fun x => floats.lt x.2 m.2 || floats.eq x.2 m.2 && bytesLt x.1.1 m.1.1).keys.card

def zremrangebyrankChange (floats : Floats Score) (start stop : ℤ) (o : Option (Value Score)) : Change Score :=
  match o with
  | some (.zset z) =>
    let llen : ℤ := z.keys.card
    let start := max (if start < 0 then llen + start else start) 0
    let stop := if stop < 0 then llen + stop else stop
    if stop < start ∨ llen ≤ start then .keep
    else deleteRange z fun m => decide (start ≤ memberRank floats z m ∧ memberRank floats z m ≤ min stop (llen - 1))
  | _ => .keep

def Keyspace.zremrangebyrankCommand (floats : Floats Score) (e : Env) (s : Keyspace Score) (n : ℕ) : Keyspace Score :=
  match getLongLongFromObject (s.arg 2).1, getLongLongFromObject (s.arg 3).1 with
  | some start, some stop => changeKey e s n (s.arg 1) (zremrangebyrankChange floats start stop)
  | _, _ => s

/-- `zunionInterGenericCommand`; `result` is what the sources are aggregated to, `none` for an error reply. -/
def zunionInterGenericCommand (result : Option (ScoreMap Score)) (e : Env) (s : Keyspace Score) (n : ℕ) : Keyspace Score :=
  match getLongLongFromObject (s.arg 2).1 with
  | none => s
  | some setnum =>
    if setnum < 1 ∨ (s.argv.length : ℤ) - 3 < setnum then s
    else
      let dstkey := s.arg 1
      let s := ((s.argv.drop 3).take setnum.toNat).foldl (fun s key => expireIfNeeded e s n key) s
      match result with
      | none => s
      | some z =>
        let touched := (lookupKey s n dstkey).isSome
        let s := dbDelete s n dstkey
        let s := if touched = true then addDirty (signalModifiedKey s n dstkey) 1 else s
        if z.keys = ∅ then s
        else
          let s := dbAdd s n dstkey (.zset z)
          addDirty (if touched = true then s else signalModifiedKey s n dstkey) 1

end KVStores.Redis
