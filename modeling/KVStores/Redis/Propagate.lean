import KVStores.Redis.Replay

/-!
# Commands of clients, and what is logged of them

`call`, `propagate` and `propagateExpire` of redis.c and db.c, for clients that are not in a transaction, with the log on.
-/

namespace KVStores.Redis

open List Option

open Aof

variable {Score : Type}

/-- The clients by their number, with the database that each has selected, and the server. -/
structure Master (Score : Type) where
  server : Server (ℕ → RedisDb Score)
  selected : ℕ → ℕ

structure Request (Score : Type) where
  client : ℕ
  now : ℤ
  argv : List Sds
  /-- `argc` is an `int`. -/
  argc_int : argv.length < 2 ^ 31
  given : Given Score

def Request.name (r : Request Score) : Sds := (r.argv[0]?).getD Sds.empty

/-- The commands that `feedAppendOnlyFile` compares `cmd->proc` with. -/
@[grind =] def Command.aofProc : Command → Proc
  | .expire => .expire
  | .pexpire => .pexpire
  | .expireat => .expireat
  | .setex => .setex
  | .psetex => .psetex
  | _ => .other

/-- `c->cmd`, after the arguments may have been rewritten. -/
def procOf (argv : List Sds) : Proc := ((lookupCommand ((argv[0]?).getD Sds.empty)).map Command.aofProc).getD .other

def propagate (s : Server (ℕ → RedisDb Score)) (now : ℤ) (dictid : ℕ) (argv : List Sds) : Server (ℕ → RedisDb Score) :=
  if s.aofState ≠ .off then feedAppendOnlyFile s (procOf argv) now dictid (bytesOf argv) else s

/-- The calls of `propagateExpire`. -/
def propagateExpires (s : Server (ℕ → RedisDb Score)) (now : ℤ) (l : List (ℕ × Sds)) : Server (ℕ → RedisDb Score) :=
  l.foldl (fun s p => propagate s now p.1 [delName, p.2]) s

def Master.proc (t : Setting Score) (s : Master Score) (r : Request Score) (cmd : Command) : Keyspace Score :=
  cmd.proc { t with given := r.given } ⟨false, r.now⟩ (Keyspace.start s.server.data r.argv) (s.selected r.client)

def call (t : Setting Score) (s : Master Score) (r : Request Score) (cmd : Command) : Master Score :=
  if cmd = .select then { s with selected := Function.update s.selected r.client (selectCommand t.dbnum r.argv (s.selected r.client)) }
  else
    let k := s.proc t r cmd
    let server := propagateExpires { s.server with data := k.db } r.now k.expired
    { s with server := if k.dirty = 0 then server else propagate server r.now (s.selected r.client) k.argv }

def processCommand (t : Setting Score) (s : Master Score) (r : Request Score) : Master Score :=
  match lookupCommand r.name with
  | none => s
  | some cmd => if cmd.arityOk r.argv.length = true then call t s r cmd else s

def history (t : Setting Score) (rs : List (Request Score)) (s : Master Score) : Master Score := rs.foldl (processCommand t) s

def Master.empty : Master Score :=
  ⟨⟨fun _ => .empty, .on, some ⟨0, false⟩, [], [], none, none, fun _ => [], 1, some 0⟩, fun _ => 0⟩

@[grind =] def Command.verbatim : Command → Bool
  | .get | .exists | .set | .setnx | .getset | .mset | .msetnx | .append | .incr | .decr | .incrby | .decrby | .lpush | .rpush
  | .lpushx | .rpushx | .lpop | .rpop | .rpoplpush | .sadd | .srem | .hset | .hdel | .zadd | .zrem | .del | .rename | .renamenx
  | .persist => true
  | _ => false

def Command.inHistory (cmd : Command) : Bool :=
  cmd.verbatim || decide (cmd ∈ [.setex, .psetex, .incrbyfloat, .spop, .expire, .pexpire, .expireat, .pexpireat, .select])

variable {t : Setting Score} {now clock : ℤ} {n : ℕ} {d : ℕ → RedisDb Score} {argv : List Sds} {cmd : Command} {argc : ℕ}

theorem arityOk_three (harity : cmd.arity = -3) (hok : cmd.arityOk argc = true) : 2 < argc := by
  rw [Command.arityOk, harity] at hok
  simp at hok
  omega

theorem arityOk_four (harity : cmd.arity = -4) (hok : cmd.arityOk argc = true) : 3 < argc := by
  rw [Command.arityOk, harity] at hok
  simp at hok
  omega

theorem replays_incrby (hok : ExpiresOk d) {c : Env → Keyspace Score → Keyspace Score} {f : ℤ → ℤ} (hc : ∀ e s, c e s =
    match getLongLongFromObject (s.arg 2).1 with
    | none => s
    | some v => incrDecrCommand e s n (f v)) : Replays c now clock n d argv := by
  have harg : ∀ d' : ℕ → RedisDb Score, (Keyspace.start d' argv).arg 2 = (Keyspace.start d argv).arg 2 := fun _ => rfl
  cases hnumber : getLongLongFromObject ((Keyspace.start d argv).arg 2).1 with
  | none =>
    refine (replays_id hok).congr ?_
    intro e d'
    rw [hc, harg, hnumber]
  | some v =>
    refine (replays_changeKey hok (incrDecrChange_dirty (f v)) ((Keyspace.start d argv).arg 1)).congr ?_
    intro e d'
    rw [hc, harg, hnumber]
    rfl

theorem zaddPairs_ne_nil (floats : Floats Score) {args : List Sds} {pairs : List (Score × Sds)} (hargs : 2 ≤ args.length)
    (hpairs : zaddPairs floats args = some pairs) : pairs ≠ [] := by
  match args with
  | score :: ele :: rest =>
    obtain ⟨v, -, hrest⟩ := bind_eq_some_iff.1 hpairs
    obtain ⟨l, -, rfl⟩ := map_eq_some_iff.1 hrest
    exact cons_ne_nil _ _

theorem replays_zadd (hok : ExpiresOk d) (hargc : 3 < argv.length) : Replays (fun e s => zaddCommand t.floats e s n) now clock n d argv := by
  by_cases hodd : argv.length % 2 ≠ 0
  · refine (replays_id hok).congr ?_
    intro e d'
    exact if_pos hodd
  cases hpairs : zaddPairs t.floats (argv.drop 2) with
  | none =>
    refine (replays_id hok).congr ?_
    intro e d'
    have hpairs' : zaddPairs t.floats ((Keyspace.start d' argv).argv.drop 2) = none := hpairs
    have hodd' : ¬ (Keyspace.start d' argv).argv.length % 2 ≠ 0 := hodd
    rw [zaddCommand, Keyspace.zaddGenericCommand, if_neg hodd', hpairs']
  | some pairs =>
    have hne := zaddPairs_ne_nil t.floats (by rw [length_drop]; omega) hpairs
    refine (replays_changeKey hok (zaddGenericChange_dirty t.floats false hne) ((Keyspace.start d argv).arg 1)).congr ?_
    intro e d'
    have hpairs' : zaddPairs t.floats ((Keyspace.start d' argv).argv.drop 2) = some pairs := hpairs
    have hodd' : ¬ (Keyspace.start d' argv).argv.length % 2 ≠ 0 := hodd
    rw [zaddCommand, Keyspace.zaddGenericCommand, if_neg hodd', hpairs']
    rfl

/-- **A command that is propagated as it is** does the same while loading. -/
theorem replays_proc {cmd : Command} (hcmd : cmd.verbatim = true) (harity : cmd.arityOk argv.length = true) (hok : ExpiresOk d) :
    Replays (fun e s => cmd.proc t e s n) now clock n d argv := by
  let key := (Keyspace.start d argv).arg 1
  let val := (Keyspace.start d argv).arg 2
  cases cmd with
  | get => exact (replays_get hok key).congr fun _ _ => rfl
  | «exists» => exact (replays_get hok key).congr fun _ _ => rfl
  | set => exact replays_set hok
  | setnx => exact replays_setnx hok
  | getset => exact replays_getset hok
  | mset => exact replays_mset hok (arityOk_three (by rfl : Command.mset.arity = -3) harity)
  | msetnx => exact replays_msetnx hok (arityOk_three (by rfl : Command.msetnx.arity = -3) harity)
  | append => exact (replays_changeKey hok (appendChange_dirty val) key).congr fun _ _ => rfl
  | incr => exact (replays_changeKey hok (incrDecrChange_dirty 1) key).congr fun _ _ => rfl
  | decr => exact (replays_changeKey hok (incrDecrChange_dirty (-1)) key).congr fun _ _ => rfl
  | lpush => exact (replays_changeKey hok (pushGenericChange_dirty (argv.drop 2) .head) key).congr fun _ _ => rfl
  | rpush => exact (replays_changeKey hok (pushGenericChange_dirty (argv.drop 2) .tail) key).congr fun _ _ => rfl
  | lpushx => exact (replays_changeKey hok (pushxGenericChange_dirty val .head) key).congr fun _ _ => rfl
  | rpushx => exact (replays_changeKey hok (pushxGenericChange_dirty val .tail) key).congr fun _ _ => rfl
  | lpop => exact (replays_changeKey hok (popGenericChange_dirty .head) key).congr fun _ _ => rfl
  | rpop => exact (replays_changeKey hok (popGenericChange_dirty .tail) key).congr fun _ _ => rfl
  | rpoplpush => exact replays_rpoplpush hok
  | srem => exact (replays_changeKey hok (sremChange_dirty (argv.drop 2)) key).congr fun _ _ => rfl
  | hset => exact (replays_changeKey hok (hsetChange_dirty val ((Keyspace.start d argv).arg 3)) key).congr fun _ _ => rfl
  | hdel => exact (replays_changeKey hok (hdelChange_dirty (argv.drop 2)) key).congr fun _ _ => rfl
  | zrem => exact (replays_changeKey hok (zremChange_dirty (argv.drop 2)) key).congr fun _ _ => rfl
  | del => exact replays_del hok
  | rename => exact replays_rename hok false
  | renamenx => exact replays_rename hok true
  | persist => exact replays_persist hok
  | sadd =>
    have hargc := arityOk_three (by rfl : Command.sadd.arity = -3) harity
    have hne : argv.drop 2 ≠ [] := by
      intro hnil
      have hlen := congrArg List.length hnil
      rw [length_drop, length_nil] at hlen
      omega
    exact (replays_changeKey hok (saddChange_dirty hne) key).congr fun _ _ => rfl
  | incrby => exact @replays_incrby Score now clock n d argv hok _ (fun v => v) fun _ _ => rfl
  | decrby => exact @replays_incrby Score now clock n d argv hok _ (fun v => (-v).bmod (2 ^ 64)) fun _ _ => rfl
  | zadd => exact replays_zadd hok (arityOk_four (by rfl : Command.zadd.arity = -4) harity)
  | _ => exact absurd hcmd Bool.false_ne_true

end KVStores.Redis
