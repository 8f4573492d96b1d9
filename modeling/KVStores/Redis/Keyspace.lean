import KVStores.Redis.Sds
import Mathlib.Data.Finmap

/-!
# The databases

db.c, as the commands use it. `Keyspace` is what a command works on: the databases, the arguments of the client, and what the command
has done on the way: how dirty it made the server, which keys it signalled, and which it found to be expired.

How a value is encoded is left out, and so are the replies.
-/

namespace KVStores.Redis

open Function

inductive Value (Score : Type)
  | string (s : Sds)
  | list (l : List Sds)
  | set (s : Finset Sds)
  | hash (h : Finmap fun _ : Sds => Sds)
  | zset (z : Finmap fun _ : Sds => Score)

/-- `redisDb`: the keys, and the times at which some of them expire. -/
structure RedisDb (Score : Type) where
  dict : Sds → Option (Value Score)
  expires : Sds → Option ℤ

/-- What a command sees of the rest of the server: whether it is loading, and the clock. There is no master. -/
structure Env where
  loading : Bool
  now : ℤ

structure Keyspace (Score : Type) where
  db : ℕ → RedisDb Score
  /-- `server.dirty`. -/
  dirty : ℕ
  /-- `c->argv`, which is what will be propagated. -/
  argv : List Sds
  /-- The calls of `signalModifiedKey`. -/
  signalled : List (ℕ × Sds)
  /-- The calls of `signalFlushedDb`: the keys that are there, and will be gone. -/
  flushed : List (ℕ → Sds → Bool)
  /-- The calls of `propagateExpire`. -/
  expired : List (ℕ × Sds)

variable {Score : Type}

def Sds.empty : Sds := ⟨[], by decide⟩

/-- The argument number `i`. -/
def Keyspace.arg (s : Keyspace Score) (i : ℕ) : Sds := (s.argv[i]?).getD Sds.empty

def putDict (d : ℕ → RedisDb Score) (n : ℕ) (key : Sds) (val : Option (Value Score)) : ℕ → RedisDb Score :=
  Function.update d n { d n with dict := Function.update (d n).dict key val }

/-- The entry of a key in `expires`. -/
def putExpires (d : ℕ → RedisDb Score) (n : ℕ) (key : Sds) (t : Option ℤ) : ℕ → RedisDb Score :=
  Function.update d n { d n with expires := Function.update (d n).expires key t }

def Keyspace.setDict (s : Keyspace Score) (n : ℕ) (key : Sds) (val : Option (Value Score)) : Keyspace Score :=
  { s with db := putDict s.db n key val }

def Keyspace.setExpires (s : Keyspace Score) (n : ℕ) (key : Sds) (t : Option ℤ) : Keyspace Score := { s with db := putExpires s.db n key t }

def lookupKey (s : Keyspace Score) (n : ℕ) (key : Sds) : Option (Value Score) := (s.db n).dict key

/-- `dbAdd`; the key is not there. -/
def dbAdd (s : Keyspace Score) (n : ℕ) (key : Sds) (val : Value Score) : Keyspace Score := s.setDict n key (some val)

/-- `dbOverwrite`; the key is there. -/
def dbOverwrite (s : Keyspace Score) (n : ℕ) (key : Sds) (val : Value Score) : Keyspace Score := s.setDict n key (some val)

/-- `dbDelete`; it tells whether `lookupKey` would have found the key. -/
def dbDelete (s : Keyspace Score) (n : ℕ) (key : Sds) : Keyspace Score := (s.setExpires n key none).setDict n key none

/-- `getExpire`: -1 for a key without a time to live. -/
def getExpire (s : Keyspace Score) (n : ℕ) (key : Sds) : ℤ := ((s.db n).expires key).getD (-1)

def setExpire (s : Keyspace Score) (n : ℕ) (key : Sds) (t : ℤ) : Keyspace Score := s.setExpires n key (some t)

def removeExpire (s : Keyspace Score) (n : ℕ) (key : Sds) : Keyspace Score := s.setExpires n key none

def signalModifiedKey (s : Keyspace Score) (n : ℕ) (key : Sds) : Keyspace Score := { s with signalled := s.signalled ++ [(n, key)] }

/-- `signalFlushedDb`, of one database or of all. -/
def signalFlushedDb (s : Keyspace Score) (dbid : Option ℕ) : Keyspace Score :=
  { s with flushed := s.flushed ++ [fun n key => decide (dbid = none ∨ dbid = some n) && (lookupKey s n key).isSome] }

def propagateExpire (s : Keyspace Score) (n : ℕ) (key : Sds) : Keyspace Score := { s with expired := s.expired ++ [(n, key)] }

/-- `server.dirty += d`. -/
def addDirty (s : Keyspace Score) (d : ℕ) : Keyspace Score := { s with dirty := s.dirty + d }

def expireIfNeeded (e : Env) (s : Keyspace Score) (n : ℕ) (key : Sds) : Keyspace Score :=
  if getExpire s n key < 0 then s
  else if e.loading = true then s
  else if e.now ≤ getExpire s n key then s
  else dbDelete (propagateExpire s n key) n key

def Keyspace.setKey (e : Env) (s : Keyspace Score) (n : ℕ) (key : Sds) (val : Value Score) : Keyspace Score :=
  let s := expireIfNeeded e s n key
  let s := if lookupKey s n key = none then dbAdd s n key val else dbOverwrite s n key val
  signalModifiedKey (removeExpire s n key) n key

inductive Change (Score : Type)
  /-- It has an error to reply, or nothing to do. -/
  | keep
  /-- The value is another one, and the server dirtier. -/
  | store (val : Value Score) (dirty : ℕ)
  /-- Nothing is left of it. -/
  | delete (dirty : ℕ)

/-- The key is looked up with `lookupKeyWrite`, or `lookupKeyRead`, and its value is changed, in place or by another one; then
`signalModifiedKey` is called. -/
def changeKey (e : Env) (s : Keyspace Score) (n : ℕ) (key : Sds) (change : Option (Value Score) → Change Score) : Keyspace Score :=
  let s := expireIfNeeded e s n key
  match change (lookupKey s n key) with
  | .keep => s
  | .store val d => addDirty (signalModifiedKey (s.setDict n key (some val)) n key) d
  | .delete d => addDirty (signalModifiedKey (dbDelete s n key) n key) d

theorem putDict_dict (d : ℕ → RedisDb Score) (n : ℕ) (key : Sds) (val : Option (Value Score)) (m : ℕ) (k : Sds) :
    (putDict d n key val m).dict k = if m = n ∧ k = key then val else (d m).dict k := by
  rw [putDict]
  by_cases hm : m = n
  · subst hm
    rw [update_self]
    by_cases hk : k = key
    · rw [hk, if_pos ⟨rfl, rfl⟩]
      exact update_self ..
    · rw [if_neg fun h => hk h.2]
      exact update_of_ne hk ..
  · rw [update_of_ne hm, if_neg fun h => hm h.1]

theorem putDict_expires (d : ℕ → RedisDb Score) (n : ℕ) (key : Sds) (val : Option (Value Score)) (m : ℕ) :
    (putDict d n key val m).expires = (d m).expires := by
  rw [putDict]
  by_cases hm : m = n
  · rw [hm, update_self]
  · rw [update_of_ne hm]

theorem putExpires_expires (d : ℕ → RedisDb Score) (n : ℕ) (key : Sds) (t : Option ℤ) (m : ℕ) (k : Sds) :
    (putExpires d n key t m).expires k = if m = n ∧ k = key then t else (d m).expires k := by
  rw [putExpires]
  by_cases hm : m = n
  · subst hm
    rw [update_self]
    by_cases hk : k = key
    · rw [hk, if_pos ⟨rfl, rfl⟩]
      exact update_self ..
    · rw [if_neg fun h => hk h.2]
      exact update_of_ne hk ..
  · rw [update_of_ne hm, if_neg fun h => hm h.1]

theorem putExpires_dict (d : ℕ → RedisDb Score) (n : ℕ) (key : Sds) (t : Option ℤ) (m : ℕ) :
    (putExpires d n key t m).dict = (d m).dict := by
  rw [putExpires]
  by_cases hm : m = n
  · rw [hm, update_self]
  · rw [update_of_ne hm]

theorem redisDb_ext {a b : RedisDb Score} (hdict : ∀ key, a.dict key = b.dict key) (hexpires : ∀ key, a.expires key = b.expires key) : a = b := by
  cases a
  cases b
  exact congrArg₂ RedisDb.mk (funext hdict) (funext hexpires)

theorem databases_ext {d d' : ℕ → RedisDb Score} (hdict : ∀ n key, (d n).dict key = (d' n).dict key)
    (hexpires : ∀ n key, (d n).expires key = (d' n).expires key) : d = d' :=
  funext fun n => redisDb_ext (hdict n) (hexpires n)

theorem dbDelete_db (s : Keyspace Score) (n : ℕ) (key : Sds) : (dbDelete s n key).db = putDict (putExpires s.db n key none) n key none := rfl

theorem expireIfNeeded_cases (e : Env) (s : Keyspace Score) (n : ℕ) (key : Sds) :
    expireIfNeeded e s n key = s ∨ expireIfNeeded e s n key = dbDelete (propagateExpire s n key) n key := by
  rw [expireIfNeeded]
  by_cases hnone : getExpire s n key < 0
  · exact Or.inl (if_pos hnone)
  rw [if_neg hnone]
  by_cases hloading : e.loading = true
  · exact Or.inl (if_pos hloading)
  rw [if_neg hloading]
  by_cases hnow : e.now ≤ getExpire s n key
  · exact Or.inl (if_pos hnow)
  · exact Or.inr (if_neg hnow)

/-- **A key that is set**, whether it had expired or not. -/
theorem setKey_db (e : Env) (s : Keyspace Score) (n : ℕ) (key : Sds) (val : Value Score) :
    (Keyspace.setKey e s n key val).db = putExpires (putDict s.db n key (some val)) n key none := by
  have hset : (Keyspace.setKey e s n key val).db = putExpires (putDict (expireIfNeeded e s n key).db n key (some val)) n key none := by
    rw [Keyspace.setKey]
    by_cases hnone : lookupKey (expireIfNeeded e s n key) n key = none
    · rw [if_pos hnone]
      rfl
    · rw [if_neg hnone]
      rfl
  rw [hset]
  rcases expireIfNeeded_cases e s n key with h | h
  · rw [h]
  · rw [h, dbDelete_db]
    refine databases_ext ?_ ?_
    · intro m k
      rw [putExpires_dict, putExpires_dict, putDict_dict, putDict_dict, putDict_dict, putExpires_dict]
      by_cases hk : m = n ∧ k = key
      · rw [if_pos hk, if_pos hk]
      · rw [if_neg hk, if_neg hk, if_neg hk]
        rfl
    · intro m k
      rw [putExpires_expires, putExpires_expires, putDict_expires, putDict_expires, putDict_expires, putExpires_expires]
      by_cases hk : m = n ∧ k = key
      · rw [if_pos hk, if_pos hk]
      · rw [if_neg hk, if_neg hk, if_neg hk]
        rfl

theorem expireIfNeeded_loading (now : ℤ) (s : Keyspace Score) (n : ℕ) (key : Sds) : expireIfNeeded ⟨true, now⟩ s n key = s := by
  rw [expireIfNeeded]
  by_cases hnone : getExpire s n key < 0
  · rw [if_pos hnone]
  · rw [if_neg hnone, if_pos rfl]

end KVStores.Redis
