import KVStores.Redis.CommandTable
import KVStores.Redis.StringTypeSpec

/-!
# Times to live

The commands that give a key a time to live, with their replies, and what is logged of them.

* `ttl_iff`: **they fail, or give the key the exact time**, and the log has the same time, unless the time is no `long long` (`TtlCommand.Overflows`).
-/

namespace KVStores.Redis

open Option

open StringType (Reply notInteger czero cone getLongLongFromObject_range)

variable {Score : Type}

inductive TtlCommand
  | expire
  | pexpire
  | expireat
  | pexpireat
  | setex
  | psetex
deriving DecidableEq

def TtlCommand.seconds : TtlCommand → Bool
  | .expire | .expireat | .setex => true
  | .pexpire | .pexpireat | .psetex => false

def TtlCommand.relative : TtlCommand → Bool
  | .expire | .pexpire | .setex | .psetex => true
  | .expireat | .pexpireat => false

def TtlCommand.stores : TtlCommand → Bool
  | .setex | .psetex => true
  | .expire | .pexpire | .expireat | .pexpireat => false

@[grind =] def TtlCommand.run (e : Env) (s : Keyspace Score) (n : ℕ) : TtlCommand → Keyspace Score
  | .expire => expireCommand e s n
  | .pexpire => pexpireCommand e s n
  | .expireat => expireatCommand e s n
  | .pexpireat => pexpireatCommand e s n
  | .setex => setexCommand e s n
  | .psetex => psetexCommand e s n

/-- What `setGenericCommand` replies to a number that is not positive. -/
def invalidExpire : Reply := .error "invalid expire time in SETEX"

/-- The reply of `setGenericCommand` with a time to live. -/
def setGenericReply (s : Keyspace Score) : Reply :=
  match getLongLongFromObject (s.arg 2).1 with
  | none => notInteger
  | some milliseconds => if milliseconds ≤ 0 then invalidExpire else .ok

/-- The reply of `expireGenericCommand`. -/
def expireGenericReply (s : Keyspace Score) (n : ℕ) : Reply :=
  match getLongLongFromObject (s.arg 2).1 with
  | none => notInteger
  | some _ => if (lookupKey s n (s.arg 1)).isNone = true then czero else cone

def TtlCommand.reply (s : Keyspace Score) (n : ℕ) : TtlCommand → Reply
  | .setex | .psetex => setGenericReply s
  | .expire | .pexpire | .expireat | .pexpireat => expireGenericReply s n

/-- The command, as the log knows it. `PEXPIREAT` is logged as it is. -/
@[grind =] def TtlCommand.logged : TtlCommand → Option Aof.Proc
  | .expire => some .expire
  | .pexpire => some .pexpire
  | .expireat => some .expireat
  | .pexpireat => none
  | .setex => some .setex
  | .psetex => some .psetex

def TtlCommand.time (c : TtlCommand) (now arg : ℤ) : ℤ := arg * (if c.seconds = true then 1000 else 1) + if c.relative = true then now else 0

def Leaves (d d' : ℕ → RedisDb Score) (n : ℕ) (key : Sds) (val : Option (Value Score)) (t : Option ℤ) : Prop :=
  (∀ m k, (d' m).dict k = if m = n ∧ k = key then val else (d m).dict k) ∧ ∀ m k, (d' m).expires k = if m = n ∧ k = key then t else (d m).expires k

def TtlCommand.value (s : Keyspace Score) (n : ℕ) (c : TtlCommand) : Option (Value Score) :=
  if c.stores = true then some (.string (s.arg 3)) else lookupKey s n (s.arg 1)

/-- **The key is given the time `t`**, which the log has, too; when the time is over, it is deleted, but by a server that is loading. -/
def TtlCommand.Gives (e : Env) (s : Keyspace Score) (n : ℕ) (c : TtlCommand) (t : ℤ) : Prop :=
  if t ≤ e.now ∧ e.loading = false then Leaves s.db (c.run e s n).db n (s.arg 1) none none
  else Leaves s.db (c.run e s n).db n (s.arg 1) (c.value s n) (some t) ∧
    ∀ proc, c.logged = some proc → Aof.expireAtCommand proc e.now (s.arg 1).1 (s.arg 2).1 = [Aof.pexpireatName, (s.arg 1).1, ll2string t]

/-- An error, and nothing changes; or there is no key; or the key is given the time that is meant. -/
def TtlCommand.Right (e : Env) (s : Keyspace Score) (n : ℕ) (c : TtlCommand) : Prop :=
  ((c.reply s n).isError = true ∧ (c.run e s n).db = s.db) ∨
  (c.stores = false ∧ lookupKey s n (s.arg 1) = none ∧ (c.run e s n).db = s.db) ∨
  ∃ arg, getLongLongFromObject (s.arg 2).1 = some arg ∧ c.Gives e s n (c.time e.now arg)

/-- The command has something to do, and the time is no `long long`. It is still right to delete the key when both the time that is meant
and the one that is made of it are over. -/
def TtlCommand.Overflows (e : Env) (s : Keyspace Score) (n : ℕ) (c : TtlCommand) : Prop :=
  ∃ arg, getLongLongFromObject (s.arg 2).1 = some arg ∧ (c.stores = true → 0 < arg) ∧ (c.stores = false → lookupKey s n (s.arg 1) ≠ none) ∧
    ¬ (-2 ^ 63 ≤ c.time e.now arg ∧ c.time e.now arg < 2 ^ 63) ∧
    ¬ (c.stores = false ∧ e.loading = false ∧ c.time e.now arg ≤ e.now ∧ (c.time e.now arg).bmod (2 ^ 64) ≤ e.now)

theorem bmod_iff {t : ℤ} : t.bmod (2 ^ 64) = t ↔ -2 ^ 63 ≤ t ∧ t < 2 ^ 63 := by
  constructor
  · intro h
    have hlow := Int.le_bmod (x := t) (m := 2 ^ 64) (by decide)
    have hhigh := Int.bmod_lt (x := t) (m := 2 ^ 64) (by decide)
    omega
  · rintro ⟨h1, h2⟩
    exact Int.bmod_eq_of_le (by omega) (by omega)

variable {arg : ℤ}

theorem expireWhen_time (c : TtlCommand) (hc : c.stores = false) (now : ℤ) (harg : -2 ^ 63 ≤ arg ∧ arg < 2 ^ 63) :
    expireWhen c.seconds c.relative now arg = (c.time now arg).bmod (2 ^ 64) := by
  cases c with
  | expire => exact Int.bmod_add_bmod
  | pexpire => exact congrArg (fun x => (x + now).bmod (2 ^ 64)) (mul_one arg).symm
  | expireat => exact congrArg (fun x : ℤ => x.bmod (2 ^ 64)) (add_zero _).symm
  | pexpireat => exact (bmod_iff.2 harg).symm.trans (congrArg (fun x : ℤ => x.bmod (2 ^ 64)) ((add_zero _).trans (mul_one arg)).symm)
  | setex => cases hc
  | psetex => cases hc

theorem setGeneric_time (c : TtlCommand) (hc : c.stores = true) (now arg : ℤ) :
    (now + if c.seconds = true then (arg * 1000).bmod (2 ^ 64) else arg).bmod (2 ^ 64) = (c.time now arg).bmod (2 ^ 64) := by
  cases c with
  | setex => exact Int.add_bmod_bmod.trans (congrArg (fun x : ℤ => x.bmod (2 ^ 64)) (add_comm _ _))
  | psetex => exact congrArg (fun x : ℤ => x.bmod (2 ^ 64)) ((add_comm _ _).trans (congrArg (· + now) (mul_one arg).symm))
  | expire => cases hc
  | pexpire => cases hc
  | expireat => cases hc
  | pexpireat => cases hc

variable {c : TtlCommand}

/-- **What is logged** is computed in the same way. -/
theorem expireAtCommand_time {proc : Aof.Proc} (hc : c.logged = some proc) (now : ℤ) (key : List UInt8) {s : List UInt8}
    (harg : getLongLongFromObject s = some arg) :
    Aof.expireAtCommand proc now key s = [Aof.pexpireatName, key, ll2string ((c.time now arg).bmod (2 ^ 64))] := by
  unfold Aof.expireAtCommand TtlCommand.time
  rw [strtoll_of_getLongLong harg]
  cases c with
  | pexpireat => cases hc
  | expire =>
    obtain rfl := Option.some.inj hc
    exact congrArg (fun t => [Aof.pexpireatName, key, ll2string t]) Int.bmod_add_bmod
  | setex =>
    obtain rfl := Option.some.inj hc
    exact congrArg (fun t => [Aof.pexpireatName, key, ll2string t]) Int.bmod_add_bmod
  | pexpire =>
    obtain rfl := Option.some.inj hc
    exact congrArg (fun t => [Aof.pexpireatName, key, ll2string (Int.bmod (t + now) (2 ^ 64))]) (mul_one arg).symm
  | psetex =>
    obtain rfl := Option.some.inj hc
    exact congrArg (fun t => [Aof.pexpireatName, key, ll2string (Int.bmod (t + now) (2 ^ 64))]) (mul_one arg).symm
  | expireat =>
    obtain rfl := Option.some.inj hc
    exact congrArg (fun t => [Aof.pexpireatName, key, ll2string (Int.bmod t (2 ^ 64))]) (add_zero _).symm

variable {d d' : ℕ → RedisDb Score} {n : ℕ} {key : Sds} {val : Option (Value Score)} {t : Option ℤ}

theorem Leaves.expires_eq (h : Leaves d d' n key val t) : (d' n).expires key = t := by rw [h.2 n key, if_pos ⟨rfl, rfl⟩]

theorem leaves_delete (s : Keyspace Score) (n : ℕ) (key : Sds) : Leaves s.db (dbDelete s n key).db n key none none := by
  constructor
  · intro m k
    rw [dbDelete_db, putDict_dict, putExpires_dict]
  · intro m k
    rw [dbDelete_db, putDict_expires, putExpires_expires]

theorem leaves_setExpire (s : Keyspace Score) (n : ℕ) (key : Sds) (t : ℤ) :
    Leaves s.db (putExpires s.db n key (some t)) n key (lookupKey s n key) (some t) := by
  constructor
  · intro m k
    rw [putExpires_dict]
    by_cases h : m = n ∧ k = key
    · rw [if_pos h, h.1, h.2]
      rfl
    · rw [if_neg h]
  · intro m k
    exact putExpires_expires ..

theorem leaves_set (d : ℕ → RedisDb Score) (n : ℕ) (key : Sds) (val : Option (Value Score)) (t : ℤ) :
    Leaves d (putExpires (putExpires (putDict d n key val) n key none) n key (some t)) n key val (some t) := by
  constructor
  · intro m k
    rw [putExpires_dict, putExpires_dict, putDict_dict]
  · intro m k
    rw [putExpires_expires, putExpires_expires, putDict_expires]
    by_cases h : m = n ∧ k = key
    · rw [if_pos h, if_pos h]
    · rw [if_neg h, if_neg h, if_neg h]

variable {e : Env} {s : Keyspace Score}

theorem run_expire (hc : c.stores = false) : c.run e s n = expireGenericCommand e s n c.seconds c.relative := by
  cases c <;> first | rfl | cases hc

theorem run_setex (hc : c.stores = true) : c.run e s n = setGenericCommand e s n false (s.arg 1) (s.arg 3) (some (s.arg 2)) c.seconds := by
  cases c <;> first | rfl | cases hc

theorem reply_expire (hc : c.stores = false) : c.reply s n = expireGenericReply s n := by
  cases c <;> first | rfl | cases hc

theorem reply_setex (hc : c.stores = true) : c.reply s n = setGenericReply s := by
  cases c <;> first | rfl | cases hc

theorem gives_iff (harg : getLongLongFromObject (s.arg 2).1 = some arg)
    (hkeep : ¬ ((c.time e.now arg).bmod (2 ^ 64) ≤ e.now ∧ e.loading = false ∧ c.stores = false) →
      Leaves s.db (c.run e s n).db n (s.arg 1) (c.value s n) (some ((c.time e.now arg).bmod (2 ^ 64))))
    (hover : (c.time e.now arg).bmod (2 ^ 64) ≤ e.now ∧ e.loading = false ∧ c.stores = false → Leaves s.db (c.run e s n).db n (s.arg 1) none none)
    (hset : c.stores = true → e.now < c.time e.now arg) :
    c.Gives e s n (c.time e.now arg) ↔ (-2 ^ 63 ≤ c.time e.now arg ∧ c.time e.now arg < 2 ^ 63) ∨
      (c.stores = false ∧ e.loading = false ∧ c.time e.now arg ≤ e.now ∧ (c.time e.now arg).bmod (2 ^ 64) ≤ e.now) := by
  have hfits := bmod_iff (t := c.time e.now arg)
  unfold TtlCommand.Gives
  by_cases hdel : (c.time e.now arg).bmod (2 ^ 64) ≤ e.now ∧ e.loading = false ∧ c.stores = false
  · -- the key is deleted
    have hgone := hover hdel
    by_cases htime : c.time e.now arg ≤ e.now
    · rw [if_pos ⟨htime, hdel.2.1⟩]
      exact iff_of_true hgone (Or.inr ⟨hdel.2.2, hdel.2.1, htime, hdel.1⟩)
    · rw [if_neg fun h => htime h.1]
      refine iff_of_false ?_ ?_
      · rintro ⟨hkept, -⟩
        have := hkept.expires_eq.symm.trans hgone.expires_eq
        cases this
      · rintro (h | h)
        · rw [hfits.2 h] at hdel
          exact htime hdel.1
        · exact htime h.2.2.1
  · -- the key is kept
    have hkept := hkeep hdel
    by_cases hfit : -2 ^ 63 ≤ c.time e.now arg ∧ c.time e.now arg < 2 ^ 63
    · have hsame := hfits.2 hfit
      rw [hsame] at hkept hdel
      have hnot : ¬ (c.time e.now arg ≤ e.now ∧ e.loading = false) := by
        rintro ⟨h1, h2⟩
        cases hstores : c.stores with
        | false => exact hdel ⟨h1, h2, hstores⟩
        | true => exact absurd h1 (not_le.2 (hset hstores))
      rw [if_neg hnot]
      refine iff_of_true ⟨hkept, fun proc hproc => ?_⟩ (Or.inl hfit)
      rw [expireAtCommand_time hproc e.now (s.arg 1).1 harg, hsame]
    · refine iff_of_false ?_ ?_
      · intro h
        split at h
        · have := hkept.expires_eq.symm.trans h.expires_eq
          cases this
        · exact hfit (hfits.1 (Option.some.inj (hkept.expires_eq.symm.trans h.1.expires_eq)))
      · rintro (h | h)
        · exact hfit h
        · exact hdel ⟨h.2.2.2, h.2.1, h.1⟩

theorem expire_gives (hc : c.stores = false) (harg : getLongLongFromObject (s.arg 2).1 = some arg) (hkey : lookupKey s n (s.arg 1) ≠ none) :
    c.Gives e s n (c.time e.now arg) ↔ (-2 ^ 63 ≤ c.time e.now arg ∧ c.time e.now arg < 2 ^ 63) ∨
      (c.stores = false ∧ e.loading = false ∧ c.time e.now arg ≤ e.now ∧ (c.time e.now arg).bmod (2 ^ 64) ≤ e.now) := by
  have hsome : ¬ (lookupKey s n (s.arg 1)).isNone = true := by rwa [isNone_iff_eq_none]
  have hrun : c.run e s n = expireGenericCommand e s n c.seconds c.relative := run_expire hc
  have htime := expireWhen_time c hc e.now (getLongLongFromObject_range harg)
  unfold expireGenericCommand at hrun
  rw [harg] at hrun
  dsimp only at hrun
  rw [htime, if_neg hsome] at hrun
  refine gives_iff harg ?_ ?_ ?_
  · intro hkeep
    rw [hrun, if_neg fun h => hkeep ⟨h.1, h.2, hc⟩, TtlCommand.value, if_neg (by rw [hc]; exact Bool.false_ne_true)]
    exact leaves_setExpire ..
  · intro hdel
    rw [hrun, if_pos ⟨hdel.1, hdel.2.1⟩]
    exact leaves_delete ..
  · intro hstores
    rw [hc] at hstores
    cases hstores

theorem setex_gives (hc : c.stores = true) (harg : getLongLongFromObject (s.arg 2).1 = some arg) (hpos : 0 < arg) :
    c.Gives e s n (c.time e.now arg) ↔ (-2 ^ 63 ≤ c.time e.now arg ∧ c.time e.now arg < 2 ^ 63) ∨
      (c.stores = false ∧ e.loading = false ∧ c.time e.now arg ≤ e.now ∧ (c.time e.now arg).bmod (2 ^ 64) ≤ e.now) := by
  refine gives_iff harg ?_ ?_ ?_
  · intro _
    have hms : expireMilliseconds (some (s.arg 2)) c.seconds = some (if c.seconds = true then (arg * 1000).bmod (2 ^ 64) else arg) := by
      rw [expireMilliseconds, harg, bind_some, if_neg (not_le.2 hpos)]
    have hdb : (c.run e s n).db = putExpires (putExpires (putDict s.db n (s.arg 1) (some (.string (s.arg 3)))) n (s.arg 1) none) n (s.arg 1)
        (some ((c.time e.now arg).bmod (2 ^ 64))) := by
      rw [run_setex hc, setGenericCommand, hms]
      dsimp only
      rw [if_neg fun h => Bool.false_ne_true h.1, if_neg Bool.false_ne_true, if_pos isSome_some, setGeneric_time c hc, ← setKey_db e]
      rfl
    rw [hdb, TtlCommand.value, if_pos hc]
    exact leaves_set ..
  · rintro ⟨-, -, hstores⟩
    rw [hc] at hstores
    cases hstores
  · intro _
    cases c with
    | setex => exact lt_add_of_pos_left e.now (Int.mul_pos hpos (by decide))
    | psetex => exact lt_add_of_pos_left e.now (Int.mul_pos hpos (by decide))
    | expire => cases hc
    | pexpire => cases hc
    | expireat => cases hc
    | pexpireat => cases hc

/-- A command with a number, and with something to do, does not fail. -/
theorem right_iff_gives (harg : getLongLongFromObject (s.arg 2).1 = some arg) (hreply : (c.reply s n).isError = false)
    (hkey : c.stores = false → lookupKey s n (s.arg 1) ≠ none) : c.Right e s n ↔ c.Gives e s n (c.time e.now arg) := by
  constructor
  · rintro (⟨herror, -⟩ | ⟨hstores, hnone, -⟩ | ⟨arg', harg', hgives⟩)
    · rw [hreply] at herror
      cases herror
    · exact absurd hnone (hkey hstores)
    · obtain rfl : arg' = arg := Option.some.inj (harg'.symm.trans harg)
      exact hgives
  · intro hgives
    exact Or.inr (Or.inr ⟨arg, harg, hgives⟩)

theorem ttl_iff (c : TtlCommand) (e : Env) (s : Keyspace Score) (n : ℕ) : c.Right e s n ↔ ¬ c.Overflows e s n := by
  cases harg : getLongLongFromObject (s.arg 2).1 with
  | none =>
    -- the argument is no number
    refine iff_of_true (Or.inl ?_) ?_
    · cases hc : c.stores with
      | false =>
        rw [reply_expire hc, run_expire hc, expireGenericReply, expireGenericCommand, harg]
        exact ⟨rfl, rfl⟩
      | true =>
        have hms : expireMilliseconds (some (s.arg 2)) c.seconds = none := by rw [expireMilliseconds, harg, bind_none]
        rw [reply_setex hc, run_setex hc, setGenericReply, setGenericCommand, hms, harg]
        exact ⟨rfl, rfl⟩
    · rintro ⟨arg, h, -⟩
      rw [harg] at h
      cases h
  | some arg =>
    have hover : ∀ {P : Prop}, ((c.stores = true → 0 < arg) ∧ (c.stores = false → lookupKey s n (s.arg 1) ≠ none)) →
        (P ↔ (-2 ^ 63 ≤ c.time e.now arg ∧ c.time e.now arg < 2 ^ 63) ∨
          (c.stores = false ∧ e.loading = false ∧ c.time e.now arg ≤ e.now ∧ (c.time e.now arg).bmod (2 ^ 64) ≤ e.now)) →
        (P ↔ ¬ c.Overflows e s n) := by
      rintro P ⟨h1, h2⟩ h
      rw [h, ← not_iff_not, not_not, not_or]
      constructor
      · rintro ⟨h3, h4⟩
        exact ⟨arg, harg, h1, h2, h3, h4⟩
      · rintro ⟨arg', harg', -, -, h3, h4⟩
        obtain rfl : arg' = arg := Option.some.inj (harg'.symm.trans harg)
        exact ⟨h3, h4⟩
    have hnothing : ∀ {P : Prop}, P → ¬ ((c.stores = true → 0 < arg) ∧ (c.stores = false → lookupKey s n (s.arg 1) ≠ none)) → (P ↔ ¬ c.Overflows e s n) := by
      intro P hP hnot
      refine iff_of_true hP ?_
      rintro ⟨arg', harg', h1, h2, -⟩
      obtain rfl : arg' = arg := Option.some.inj (harg'.symm.trans harg)
      exact hnot ⟨h1, h2⟩
    cases hc : c.stores with
    | false =>
      have hrun : c.run e s n = expireGenericCommand e s n c.seconds c.relative := run_expire hc
      have hreply : c.reply s n = if (lookupKey s n (s.arg 1)).isNone = true then czero else cone := by
        rw [reply_expire hc, expireGenericReply, harg]
      by_cases hkey : lookupKey s n (s.arg 1) = none
      · -- there is no key
        refine hnothing (Or.inr (Or.inl ⟨hc, hkey, ?_⟩)) fun h => h.2 hc hkey
        rw [hrun, expireGenericCommand, harg]
        dsimp only
        rw [if_pos (by rw [hkey]; rfl)]
      · refine hover ⟨fun h => ?_, fun _ => hkey⟩ ?_
        · rw [hc] at h
          cases h
        · rw [right_iff_gives harg (by rw [hreply, if_neg (by rwa [isNone_iff_eq_none])]; rfl) fun _ => hkey]
          exact expire_gives hc harg hkey
    | true =>
      have hreply : c.reply s n = if arg ≤ 0 then invalidExpire else .ok := by rw [reply_setex hc, setGenericReply, harg]
      have hkey : c.stores = false → lookupKey s n (s.arg 1) ≠ none := by
        intro h
        rw [hc] at h
        cases h
      by_cases hpos : 0 < arg
      · refine hover ⟨fun _ => hpos, hkey⟩ ?_
        rw [right_iff_gives harg (by rw [hreply, if_neg (not_le.2 hpos)]; rfl) hkey]
        exact setex_gives hc harg hpos
      · -- the number is not positive
        refine hnothing (Or.inl ⟨?_, ?_⟩) fun h => hpos (h.1 hc)
        · rw [hreply, if_pos (not_lt.1 hpos)]
          rfl
        · have hms : expireMilliseconds (some (s.arg 2)) c.seconds = none := by
            rw [expireMilliseconds, harg, bind_some, if_pos (not_lt.1 hpos)]
          rw [run_setex hc, setGenericCommand, hms]

theorem k_length : ([107] : List UInt8).length < 2 ^ 31 := by decide

def ttlStart (arg : Sds) : Keyspace Unit :=
  Keyspace.start (fun _ => ⟨fun key => if key.1 = [107] then some (.list []) else none, fun _ => none⟩) [Sds.empty, ⟨[107], k_length⟩, arg]

/-- "9223372036854776": so many seconds are more milliseconds than a `long long` holds. -/
def farTime : Sds := ⟨[57, 50, 50, 51, 51, 55, 50, 48, 51, 54, 56, 53, 52, 55, 55, 54], by decide⟩

/-- `EXPIRE k 9223372036854776`, a second after the epoch: the key, which should live for a long time, is deleted at once. -/
theorem expire_overflows : ¬ TtlCommand.expire.Right ⟨false, 1000⟩ (ttlStart farTime) 0 := by
  have harg : getLongLongFromObject ((ttlStart farTime).arg 2).1 = some 9223372036854776 := by decide
  have hkey : lookupKey (ttlStart farTime) 0 ((ttlStart farTime).arg 1) ≠ none := some_ne_none (Value.list [])
  have hreply : (TtlCommand.expire.reply (ttlStart farTime) 0).isError = false := by
    rw [TtlCommand.reply, expireGenericReply, harg]
    rfl
  have htime : TtlCommand.expire.time 1000 9223372036854776 = 9223372036854777000 := by decide
  rw [right_iff_gives harg hreply fun _ => hkey, expire_gives rfl harg hkey, htime]
  rintro (⟨-, h⟩ | ⟨-, -, h, -⟩)
  · exact absurd h (by decide)
  · exact absurd h (by decide)

end KVStores.Redis
