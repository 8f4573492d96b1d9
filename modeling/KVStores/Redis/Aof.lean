import KVStores.Redis.AofLoad

/-!
# The append only file

aof.c logs every write command, and lets a child process rewrite the log in the background.

A file descriptor stands for the file it was opened for. What is done with a command is a parameter (`Commands`).
-/

namespace KVStores.Redis.Aof

open Protocol

def aofRwBufBlockSize : ℕ := 1024 * 1024 * 10

/-- `aofRewriteBufferAppend`: the last block is filled, then new ones are made. Each round but the first one takes bytes off `s`. -/
@[grind =] def aofRewriteBufferAppend : ℕ → List (List UInt8) → List UInt8 → List (List UInt8)
  | 0, blocks, _ => blocks
  | n + 1, blocks, s =>
    if s = [] then blocks
    else
      match blocks.getLast? with
      | none => aofRewriteBufferAppend n (blocks ++ [[]]) s
      | some block =>
        let thislen := min (aofRwBufBlockSize - block.length) s.length
        let blocks := blocks.dropLast ++ [block ++ s.take thislen]
        if s.drop thislen = [] then blocks else aofRewriteBufferAppend n (blocks ++ [[]]) (s.drop thislen)

/-- `aofRewriteBufferWrite` to a file; `none` when a block cannot be written. The call of `write` number `i` succeeds when `ok i` does. -/
@[grind =] def aofRewriteBufferWrite (ok : ℕ → Bool) : ℕ → List (List UInt8) → List UInt8 → Option (List UInt8)
  | _, [], file => some file
  | i, block :: blocks, file =>
    if block = [] then aofRewriteBufferWrite ok (i + 1) blocks file
    else if ok i = false then none
    else aofRewriteBufferWrite ok (i + 1) blocks (file ++ block)

inductive Proc
  | expire
  | pexpire
  | expireat
  | setex
  | psetex
  | other
deriving DecidableEq

def selectName : List UInt8 := [83, 69, 76, 69, 67, 84]

def setName : List UInt8 := [83, 69, 84]

def pexpireatName : List UInt8 := [80, 69, 88, 80, 73, 82, 69, 65, 84]

/-- The argument number `i`. -/
def arg (argv : List (List UInt8)) (i : ℕ) : List UInt8 := (argv[i]?).getD []

/-- The command that `catAppendOnlyExpireAtCommand` writes: the time in milliseconds, and as a point in time. -/
def expireAtCommand (proc : Proc) (now : ℤ) (key seconds : List UInt8) : List (List UInt8) :=
  let when := strtoll seconds
  let when := if proc = .expire ∨ proc = .setex ∨ proc = .expireat then (when * 1000).bmod (2 ^ 64) else when
  let when := if proc = .expire ∨ proc = .pexpire ∨ proc = .setex ∨ proc = .psetex then (when + now).bmod (2 ^ 64) else when
  [pexpireatName, key, ll2string when]

/-- The commands that `feedAppendOnlyFile` writes for one command, the clock being at `now`. -/
def loggedCommands (proc : Proc) (now : ℤ) (argv : List (List UInt8)) : List (List (List UInt8)) :=
  match proc with
  | .expire | .pexpire | .expireat => [expireAtCommand proc now (arg argv 1) (arg argv 2)]
  | .setex | .psetex => [[setName, arg argv 1, arg argv 3], expireAtCommand proc now (arg argv 1) (arg argv 2)]
  | .other => [argv]

inductive AofState
  | off
  | on
  | waitRewrite
deriving DecidableEq

structure Fd where
  file : ℕ
  closed : Bool
deriving DecidableEq

/-- `redisServer`, what the log needs, with the dataset, the files by their number and the one `aof_filename` is the name of, and
the dataset of which a child is writing a log. -/
structure Server (Data : Type) where
  data : Data
  aofState : AofState
  /-- `none` for -1. -/
  aofFd : Option Fd
  aofBuf : List UInt8
  aofRewriteBufBlocks : List (List UInt8)
  /-- `none` for -1. -/
  aofSelectedDb : Option ℕ
  child : Option Data
  file : ℕ → List UInt8
  nextFile : ℕ
  aofFile : Option ℕ

/-- The rest of the server: what a command makes of the dataset when it is called, `none` when it changes nothing, and what the
client does with a command that loads a log, and has a database selected. -/
structure Commands (Data : Type) where
  live : Proc → ℤ → List (List UInt8) → ℕ → Data → Option Data
  exec : List (List UInt8) → ℕ × Data → Option (ℕ × Data)

variable {Data : Type}

/-- The `SELECT` in front of a command for the database `dictid`. -/
def selectDb (s : Server Data) (dictid : ℕ) : List UInt8 :=
  if s.aofSelectedDb ≠ some dictid then encodeCommand [selectName, decimal dictid] else []

def feedAppendOnlyFile (s : Server Data) (proc : Proc) (now : ℤ) (dictid : ℕ) (argv : List (List UInt8)) : Server Data :=
  let buf := selectDb s dictid ++ encode (loggedCommands proc now argv)
  { s with
    aofSelectedDb := some dictid
    aofBuf := if s.aofState = .on then s.aofBuf ++ buf else s.aofBuf
    aofRewriteBufBlocks :=
      if s.child.isSome = true then aofRewriteBufferAppend (buf.length + 2) s.aofRewriteBufBlocks buf else s.aofRewriteBufBlocks }

/-- `call` and `propagate`: a command that changes the dataset is logged, unless the log is off. -/
def call (cmds : Commands Data) (s : Server Data) (proc : Proc) (now : ℤ) (dictid : ℕ) (argv : List (List UInt8)) : Server Data :=
  match cmds.live proc now argv dictid s.data with
  | none => s
  | some data =>
    if s.aofState ≠ .off then feedAppendOnlyFile { s with data := data } proc now dictid argv else { s with data := data }

/-- Bytes are written to a descriptor; `none` when it is closed. -/
def write (s : Server Data) (fd : Option Fd) (bytes : List UInt8) : Option (Server Data) :=
  fd.bind fun fd =>
    if fd.closed = true then none else some { s with file := Function.update s.file fd.file (s.file fd.file ++ bytes) }

/-- `flushAppendOnlyFile`: `postponed` for a background fsync that is still going on; `none` when the write fails and the server exits. -/
def flushAppendOnlyFile (s : Server Data) (postponed written : Bool) : Option (Server Data) :=
  if s.aofBuf = [] ∨ postponed = true then some s
  else if written = false then none
  else (write s s.aofFd s.aofBuf).map fun s => { s with aofBuf := [] }

/-- `rewriteAppendOnlyFileBackground`: the server then, and whether it returns `REDIS_OK`. -/
def rewriteAppendOnlyFileBackground (s : Server Data) (forked : Bool) : Server Data × Bool :=
  if s.child.isSome = true ∨ forked = false then (s, false) else ({ s with child := some s.data, aofSelectedDb := none }, true)

/-- `close`. -/
def closeFd (fd : Option Fd) : Option Fd := fd.map fun fd => { fd with closed := true }

/-- `open` with `O_APPEND|O_CREAT` of the append only file. -/
def openAof (s : Server Data) : Server Data :=
  match s.aofFile with
  | some f => { s with aofFd := some ⟨f, false⟩ }
  | none =>
    { s with aofFd := some ⟨s.nextFile, false⟩, aofFile := some s.nextFile, file := Function.update s.file s.nextFile [],
             nextFile := s.nextFile + 1 }

/-- `startAppendOnly`; `CONFIG SET` calls it when the log is off. When the rewrite does not start, the descriptor is closed, and kept. -/
def startAppendOnly (s : Server Data) (opened forked : Bool) : Server Data :=
  if opened = false then { s with aofFd := none }
  else
    let (s, ok) := rewriteAppendOnlyFileBackground (openAof s) forked
    if ok = false then { s with aofFd := closeFd s.aofFd } else { s with aofState := .waitRewrite }

/-- `stopAppendOnly`; `CONFIG SET` calls it when the log is not off. -/
def stopAppendOnly (s : Server Data) (written : Bool) : Option (Server Data) :=
  (flushAppendOnlyFile s false written).map fun s =>
    { s with aofFd := none, aofSelectedDb := none, aofState := .off, child := none,
             aofRewriteBufBlocks := if s.child.isSome = true then [] else s.aofRewriteBufBlocks }

/-- How a child ends: with an error, by a signal, or with success, when its file, which holds `base`, can be opened or not, and
can be written to and renamed or not. -/
inductive Done
  | exitcode
  | bysignal
  | noFile
  | success (base : List UInt8) (ok : ℕ → Bool) (renamed : Bool)

/-- The label `cleanup`. -/
def cleanup (s : Server Data) : Server Data := { s with aofRewriteBufBlocks := [], child := none }

/-- The child's file, with the rewrite buffer behind it, gets the name of the append only file, and is the one that is logged to if
the server has a descriptor. -/
def switchAof (s : Server Data) (file : List UInt8) : Server Data :=
  let s := { s with file := Function.update s.file s.nextFile file, aofFile := some s.nextFile, nextFile := s.nextFile + 1 }
  if s.aofFd = none then s
  else { s with aofFd := some ⟨s.nextFile - 1, false⟩, aofSelectedDb := none, aofBuf := [] }

def backgroundRewriteDoneHandler (s : Server Data) (done : Done) : Server Data :=
  match done with
  | .exitcode | .bysignal | .noFile => cleanup s
  | .success base ok renamed =>
    match aofRewriteBufferWrite ok 0 s.aofRewriteBufBlocks base with
    | none => cleanup s
    | some file =>
      if renamed = false then cleanup s
      else
        let s := switchAof s file
        cleanup (if s.aofState = .waitRewrite then { s with aofState := .on } else s)

end KVStores.Redis.Aof
