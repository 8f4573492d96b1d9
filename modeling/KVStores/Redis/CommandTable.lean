import KVStores.Redis.KeyCommands

/-!
# The command table

The commands that write, some that read, and those of transactions. `Command.proc` is what a command does to the databases; `SELECT` and
the commands of transactions are about the client, and do nothing to them. `BITOP`, `SORT`, `RESTORE`, `MIGRATE`, blocking pops and
scripts are left out.
-/

namespace KVStores.Redis

variable {Score : Type}

/-- `redisCommandTable`. -/
inductive Command
  | get
  | set
  | setnx
  | setex
  | psetex
  | append
  | del
  | exists
  | setbit
  | setrange
  | incr
  | decr
  | rpush
  | lpush
  | rpushx
  | lpushx
  | linsert
  | rpop
  | lpop
  | lset
  | ltrim
  | lrem
  | rpoplpush
  | sadd
  | srem
  | smove
  | spop
  | sinterstore
  | sunionstore
  | sdiffstore
  | zadd
  | zincrby
  | zrem
  | zremrangebyscore
  | zremrangebyrank
  | zunionstore
  | zinterstore
  | hset
  | hsetnx
  | hmset
  | hincrby
  | hincrbyfloat
  | hdel
  | incrby
  | decrby
  | incrbyfloat
  | getset
  | mset
  | msetnx
  | select
  | move
  | rename
  | renamenx
  | expire
  | expireat
  | pexpire
  | pexpireat
  | multi
  | exec
  | discard
  | flushdb
  | flushall
  | persist
  | watch
  | unwatch
deriving DecidableEq

def Command.name : Command → List UInt8
  | .get => [103, 101, 116]
  | .set => [115, 101, 116]
  | .setnx => [115, 101, 116, 110, 120]
  | .setex => [115, 101, 116, 101, 120]
  | .psetex => [112, 115, 101, 116, 101, 120]
  | .append => [97, 112, 112, 101, 110, 100]
  | .del => [100, 101, 108]
  | .exists => [101, 120, 105, 115, 116, 115]
  | .setbit => [115, 101, 116, 98, 105, 116]
  | .setrange => [115, 101, 116, 114, 97, 110, 103, 101]
  | .incr => [105, 110, 99, 114]
  | .decr => [100, 101, 99, 114]
  | .rpush => [114, 112, 117, 115, 104]
  | .lpush => [108, 112, 117, 115, 104]
  | .rpushx => [114, 112, 117, 115, 104, 120]
  | .lpushx => [108, 112, 117, 115, 104, 120]
  | .linsert => [108, 105, 110, 115, 101, 114, 116]
  | .rpop => [114, 112, 111, 112]
  | .lpop => [108, 112, 111, 112]
  | .lset => [108, 115, 101, 116]
  | .ltrim => [108, 116, 114, 105, 109]
  | .lrem => [108, 114, 101, 109]
  | .rpoplpush => [114, 112, 111, 112, 108, 112, 117, 115, 104]
  | .sadd => [115, 97, 100, 100]
  | .srem => [115, 114, 101, 109]
  | .smove => [115, 109, 111, 118, 101]
  | .spop => [115, 112, 111, 112]
  | .sinterstore => [115, 105, 110, 116, 101, 114, 115, 116, 111, 114, 101]
  | .sunionstore => [115, 117, 110, 105, 111, 110, 115, 116, 111, 114, 101]
  | .sdiffstore => [115, 100, 105, 102, 102, 115, 116, 111, 114, 101]
  | .zadd => [122, 97, 100, 100]
  | .zincrby => [122, 105, 110, 99, 114, 98, 121]
  | .zrem => [122, 114, 101, 109]
  | .zremrangebyscore => [122, 114, 101, 109, 114, 97, 110, 103, 101, 98, 121, 115, 99, 111, 114, 101]
  | .zremrangebyrank => [122, 114, 101, 109, 114, 97, 110, 103, 101, 98, 121, 114, 97, 110, 107]
  | .zunionstore => [122, 117, 110, 105, 111, 110, 115, 116, 111, 114, 101]
  | .zinterstore => [122, 105, 110, 116, 101, 114, 115, 116, 111, 114, 101]
  | .hset => [104, 115, 101, 116]
  | .hsetnx => [104, 115, 101, 116, 110, 120]
  | .hmset => [104, 109, 115, 101, 116]
  | .hincrby => [104, 105, 110, 99, 114, 98, 121]
  | .hincrbyfloat => [104, 105, 110, 99, 114, 98, 121, 102, 108, 111, 97, 116]
  | .hdel => [104, 100, 101, 108]
  | .incrby => [105, 110, 99, 114, 98, 121]
  | .decrby => [100, 101, 99, 114, 98, 121]
  | .incrbyfloat => [105, 110, 99, 114, 98, 121, 102, 108, 111, 97, 116]
  | .getset => [103, 101, 116, 115, 101, 116]
  | .mset => [109, 115, 101, 116]
  | .msetnx => [109, 115, 101, 116, 110, 120]
  | .select => [115, 101, 108, 101, 99, 116]
  | .move => [109, 111, 118, 101]
  | .rename => [114, 101, 110, 97, 109, 101]
  | .renamenx => [114, 101, 110, 97, 109, 101, 110, 120]
  | .expire => [101, 120, 112, 105, 114, 101]
  | .expireat => [101, 120, 112, 105, 114, 101, 97, 116]
  | .pexpire => [112, 101, 120, 112, 105, 114, 101]
  | .pexpireat => [112, 101, 120, 112, 105, 114, 101, 97, 116]
  | .multi => [109, 117, 108, 116, 105]
  | .exec => [101, 120, 101, 99]
  | .discard => [100, 105, 115, 99, 97, 114, 100]
  | .flushdb => [102, 108, 117, 115, 104, 100, 98]
  | .flushall => [102, 108, 117, 115, 104, 97, 108, 108]
  | .persist => [112, 101, 114, 115, 105, 115, 116]
  | .watch => [119, 97, 116, 99, 104]
  | .unwatch => [117, 110, 119, 97, 116, 99, 104]

/-- The number of arguments, the name included; at least so many if it is negative. -/
def Command.arity : Command → ℤ
  | .zadd | .zunionstore | .zinterstore | .hmset => -4
  | .rpush | .lpush | .sadd | .srem | .sinterstore | .sunionstore | .sdiffstore | .zrem | .hdel | .mset | .msetnx => -3
  | .del | .watch => -2
  | .multi | .exec | .discard | .flushdb | .flushall | .unwatch => 1
  | .get | .exists | .incr | .decr | .rpop | .lpop | .spop | .select | .persist => 2
  | .set | .setnx | .append | .rpushx | .lpushx | .rpoplpush | .incrby | .decrby | .incrbyfloat | .getset | .move | .rename
  | .renamenx | .expire | .expireat | .pexpire | .pexpireat => 3
  | .setex | .psetex | .setbit | .setrange | .lset | .ltrim | .lrem | .smove | .zincrby | .zremrangebyscore | .zremrangebyrank
  | .hset | .hsetnx | .hincrby | .hincrbyfloat => 4
  | .linsert => 5

def redisCommandTable : List Command :=
  [.get, .set, .setnx, .setex, .psetex, .append, .del, .exists, .setbit, .setrange, .incr, .decr, .rpush, .lpush, .rpushx,
    .lpushx, .linsert, .rpop, .lpop, .lset, .ltrim, .lrem, .rpoplpush, .sadd, .srem, .smove, .spop, .sinterstore, .sunionstore,
    .sdiffstore, .zadd, .zincrby, .zrem, .zremrangebyscore, .zremrangebyrank, .zunionstore, .zinterstore, .hset, .hsetnx, .hmset,
    .hincrby, .hincrbyfloat, .hdel, .incrby, .decrby, .incrbyfloat, .getset, .mset, .msetnx, .select, .move, .rename, .renamenx,
    .expire, .expireat, .pexpire, .pexpireat, .multi, .exec, .discard, .flushdb, .flushall, .persist, .watch, .unwatch]

/-- `lookupCommand`: names are compared without case. -/
def lookupCommand (name : Sds) : Option Command := redisCommandTable.find? fun c => decide (c.name = name.1.map tolower)

/-- What is not computed here: the element that a random choice comes upon, what sorted sets are aggregated to, and how many keys are
flushed. -/
structure Given (Score : Type) where
  ele : Sds
  result : Option (ScoreMap Score)
  size : ℕ

/-- What a command is called with: floating point arithmetic, the number of databases, and what is given. -/
structure Setting (Score : Type) where
  floats : Floats Score
  dbnum : ℕ
  given : Given Score

/-- `cmd->proc`, on the databases; `n` is the selected one. -/
def Command.proc (t : Setting Score) (c : Command) (e : Env) (s : Keyspace Score) (n : ℕ) : Keyspace Score :=
  match c with
  | .get => getCommand e s n
  | .set => setCommand e s n
  | .setnx => setnxCommand e s n
  | .setex => setexCommand e s n
  | .psetex => psetexCommand e s n
  | .append => appendCommand e s n
  | .del => delCommand s n
  | .exists => existsCommand e s n
  | .setbit => setbitCommand e s n
  | .setrange => setrangeCommand e s n
  | .incr => incrCommand e s n
  | .decr => decrCommand e s n
  | .rpush => rpushCommand e s n
  | .lpush => lpushCommand e s n
  | .rpushx => rpushxCommand e s n
  | .lpushx => lpushxCommand e s n
  | .linsert => linsertCommand e s n
  | .rpop => rpopCommand e s n
  | .lpop => lpopCommand e s n
  | .lset => lsetCommand e s n
  | .ltrim => ltrimCommand e s n
  | .lrem => lremCommand e s n
  | .rpoplpush => rpoplpushCommand e s n
  | .sadd => saddCommand e s n
  | .srem => sremCommand e s n
  | .smove => smoveCommand e s n
  | .spop => spopCommand t.given.ele e s n
  | .sinterstore => sinterstoreCommand e s n
  | .sunionstore => sunionstoreCommand e s n
  | .sdiffstore => sdiffstoreCommand e s n
  | .zadd => zaddCommand t.floats e s n
  | .zincrby => zincrbyCommand t.floats e s n
  | .zrem => Keyspace.zremCommand e s n
  | .zremrangebyscore => Keyspace.zremrangebyscoreCommand t.floats e s n
  | .zremrangebyrank => Keyspace.zremrangebyrankCommand t.floats e s n
  | .zunionstore => zunionInterGenericCommand t.given.result e s n
  | .zinterstore => zunionInterGenericCommand t.given.result e s n
  | .hset => hsetCommand e s n
  | .hsetnx => hsetnxCommand e s n
  | .hmset => hmsetCommand e s n
  | .hincrby => hincrbyCommand e s n
  | .hincrbyfloat => hincrbyfloatCommand t.floats e s n
  | .hdel => hdelCommand e s n
  | .incrby => incrbyCommand e s n
  | .decrby => decrbyCommand e s n
  | .incrbyfloat => incrbyfloatCommand t.floats e s n
  | .getset => getsetCommand e s n
  | .mset => msetCommand e s n
  | .msetnx => msetnxCommand e s n
  | .move => moveCommand t.dbnum e s n
  | .rename => renameCommand e s n
  | .renamenx => renamenxCommand e s n
  | .expire => expireCommand e s n
  | .expireat => expireatCommand e s n
  | .pexpire => pexpireCommand e s n
  | .pexpireat => pexpireatCommand e s n
  | .flushdb => flushdbCommand t.given.size s n
  | .flushall => flushallCommand t.given.size s
  | .persist => persistCommand s n
  | .select | .multi | .exec | .discard | .watch | .unwatch => s

/-- Whether the number of arguments is right, as `processCommand` asks. -/
def Command.arityOk (c : Command) (argc : ℕ) : Bool := !decide (0 < c.arity ∧ c.arity ≠ argc ∨ (argc : ℤ) < -c.arity)

/-- `selectDb` of `selectCommand`: the database that is selected then. -/
def selectCommand (dbnum : ℕ) (argv : List Sds) (n : ℕ) : ℕ :=
  match getLongLongFromObject ((argv[1]?).getD Sds.empty).1 with
  | none => n
  | some id => if id.bmod (2 ^ 32) < 0 ∨ (dbnum : ℤ) ≤ id.bmod (2 ^ 32) then n else (id.bmod (2 ^ 32)).toNat

def Keyspace.start (db : ℕ → RedisDb Score) (argv : List Sds) : Keyspace Score := ⟨db, 0, argv, [], [], []⟩

def sdsOfBytes (s : List UInt8) : Option Sds := if h : s.length < 2 ^ 31 then some ⟨s, h⟩ else none

/-- The fake client that loads a log: the database it has selected, and the databases. An unknown command ends the server. -/
def loadExec (t : Setting Score) (now : ℤ) (argv : List (List UInt8)) (c : ℕ × (ℕ → RedisDb Score)) : Option (ℕ × (ℕ → RedisDb Score)) :=
  (argv.mapM sdsOfBytes).bind fun argv =>
    (lookupCommand ((argv[0]?).getD Sds.empty)).map fun cmd =>
      if cmd = .select then (selectCommand t.dbnum argv c.1, c.2)
      else (c.1, (cmd.proc t ⟨true, now⟩ (Keyspace.start c.2 argv) c.1).db)

end KVStores.Redis
