import KVStores.Redis.Object

/-!
# Reading requests

What a client sends piles up in its query buffer, from which networking.c takes the arguments of one command after the other.

`processCommand` is a parameter. A query buffer is at most 1 GB long, so that no length overflows an `int`.
-/

namespace KVStores.Redis.Query

def inlineMaxSize : ℕ := 1024 * 64

def mbulkBigArg : ℕ := 1024 * 32

def maxQuerybufLen : ℕ := 1024 * 1024 * 1024

inductive ReqType
  | unknown
  | inline
  | multibulk
deriving DecidableEq

/-- `redisClient`, what its input needs, with the errors replied and the argument vectors handed to `processCommand` so far. -/
structure Client where
  querybuf : List UInt8
  reqtype : ReqType
  argv : List (List UInt8)
  multibulklen : ℕ
  /-- `none` for -1. -/
  bulklen : Option ℕ
  blocked : Bool
  closeAfterReply : Bool
  errors : List String
  commands : List (List (List UInt8))
deriving DecidableEq

def createClient : Client := ⟨[], .unknown, [], 0, none, false, false, [], []⟩

def resetClient (c : Client) : Client := { c with argv := [], reqtype := .unknown, multibulklen := 0, bulklen := none }

/-- `addReplyError`, then `setProtocolError`. -/
def setProtocolError (c : Client) (msg : String) (pos : ℕ) : Client :=
  { c with errors := c.errors ++ [msg], closeAfterReply := true, querybuf := c.querybuf.drop pos }

/-- `strchr`: the index of a character, if it comes before the end of the C string. -/
@[grind =] def strchr (ch : UInt8) : List UInt8 → Option ℕ
  | [] => none
  | b :: s => if b = ch then some 0 else if b = 0 then none else (strchr ch s).map (· + 1)

/-- `strstr` for "\r\n". -/
@[grind =] def strstrCrlf : List UInt8 → Option ℕ
  | [] => none
  | b :: s => if b = 13 ∧ s.head? = some 10 then some 0 else if b = 0 then none else (strstrCrlf s).map (· + 1)

/-- `processInlineBuffer`: whether it returns `REDIS_OK`. -/
def processInlineBuffer (c : Client) : Bool × Client :=
  match strstrCrlf c.querybuf with
  | none =>
    (false, if c.querybuf.length > inlineMaxSize then setProtocolError c "Protocol error: too big inline request" 0 else c)
  | some querylen =>
    (true, { c with argv := ((c.querybuf.take querylen).splitOn 32).filter fun arg => arg ≠ [],
                    querybuf := c.querybuf.drop (querylen + 2) })

/-- A line from some place on: it is there up to the index of its '\r', or lacks its '\n' or also its '\r'. -/
inductive Line
  | missing
  | cut
  | whole (newline : ℕ)

/-- The line from `pos` on. -/
def readLine (querybuf : List UInt8) (pos : ℕ) : Line :=
  match strchr 13 (querybuf.drop pos) with
  | none => .missing
  | some n => if pos + n + 2 > querybuf.length then .cut else .whole (pos + n)

/-- How a part of the loop ends: it goes on at `pos`, leaves the loop there, or returns an error. -/
inductive Flow
  | go (c : Client) (pos : ℕ)
  | stop (c : Client) (pos : ℕ)
  | fail (c : Client)

/-- What is said about a byte that should be `$`. -/
def expectedDollar (b : UInt8) : String :=
  "Protocol error: expected '$', got '" ++ String.singleton (Char.ofNat b.toNat) ++ "'"

/-- The length of the next argument, when it is not known. -/
def readBulkLength (c : Client) (pos : ℕ) : Flow :=
  if c.bulklen ≠ none then .go c pos
  else
    match readLine c.querybuf pos with
    | .missing =>
      if c.querybuf.length > inlineMaxSize then .stop (setProtocolError c "Protocol error: too big bulk count string" 0) pos
      else .stop c pos
    | .cut => .stop c pos
    | .whole newline =>
      if c.querybuf[pos]? ≠ some 36 then .fail (setProtocolError c (expectedDollar (c.querybuf.getD pos 0)) pos)
      else
        match string2ll ((c.querybuf.take newline).drop (pos + 1)) with
        | none => .fail (setProtocolError c "Protocol error: invalid bulk length" pos)
        | some ll =>
          if ll.1 < 0 ∨ ll.1 > 512 * 1024 * 1024 then .fail (setProtocolError c "Protocol error: invalid bulk length" pos)
          else if ll.1.toNat ≥ mbulkBigArg then
            .go { c with querybuf := c.querybuf.drop (newline + 2), bulklen := some ll.1.toNat } 0
          else .go { c with bulklen := some ll.1.toNat } (newline + 2)

/-- The next argument, of `len` bytes: the rest of the buffer as it is, or a copy. -/
def readBulk (c : Client) (pos len : ℕ) : Flow :=
  if c.querybuf.length - pos < len + 2 then .stop c pos
  else if pos = 0 ∧ len ≥ mbulkBigArg ∧ c.querybuf.length = len + 2 then
    .go { c with argv := c.argv ++ [c.querybuf.take len], querybuf := [], bulklen := none, multibulklen := c.multibulklen - 1 } 0
  else
    .go { c with argv := c.argv ++ [(c.querybuf.drop pos).take len], bulklen := none, multibulklen := c.multibulklen - 1 }
      (pos + (len + 2))

/-- The loop of `processMultibulkBuffer`, for `multibulklen` arguments. -/
@[grind =] def bulkLoop : ℕ → Client → ℕ → Flow
  | 0, c, pos => .stop c pos
  | n + 1, c, pos =>
    match readBulkLength c pos with
    | .stop c pos => .stop c pos
    | .fail c => .fail c
    | .go c pos =>
      match readBulk c pos (c.bulklen.getD 0) with
      | .stop c pos => .stop c pos
      | .fail c => .fail c
      | .go c pos => bulkLoop n c pos

/-- The loop, and the end of `processMultibulkBuffer`. -/
def readBulks (c : Client) (pos : ℕ) : Bool × Client :=
  match bulkLoop c.multibulklen c pos with
  | .stop c pos => (decide (c.multibulklen = 0), { c with querybuf := c.querybuf.drop pos })
  | .fail c => (false, c)
  | .go c _ => (false, c)

/-- `processMultibulkBuffer`: whether it returns `REDIS_OK`. -/
def processMultibulkBuffer (c : Client) : Bool × Client :=
  if c.multibulklen ≠ 0 then readBulks c 0
  else
    match readLine c.querybuf 0 with
    | .missing =>
      (false, if c.querybuf.length > inlineMaxSize then setProtocolError c "Protocol error: too big mbulk count string" 0 else c)
    | .cut => (false, c)
    | .whole newline =>
      match string2ll ((c.querybuf.take newline).drop 1) with
      | none => (false, setProtocolError c "Protocol error: invalid multibulk length" 0)
      | some ll =>
        if ll.1 > 1024 * 1024 then (false, setProtocolError c "Protocol error: invalid multibulk length" 0)
        else if ll.1 ≤ 0 then (true, { c with querybuf := c.querybuf.drop (newline + 2) })
        else readBulks { c with multibulklen := ll.1.toNat, argv := [] } (newline + 2)

/-- What a command does to its client: it is executed, blocks the client, or closes the connection after the reply (QUIT, the
only one for which `processCommand` does not return `REDIS_OK`). -/
inductive Effect
  | executed
  | blocks
  | quits
deriving DecidableEq

def setReqtype (c : Client) : Client :=
  if c.reqtype = .unknown then { c with reqtype := if c.querybuf.head? = some 42 then .multibulk else .inline } else c

def processRequest (c : Client) : Bool × Client :=
  if c.reqtype = .inline then processInlineBuffer c else processMultibulkBuffer c

/-- The command in `argv` is executed, if there is one. -/
def processArgv (processCommand : List (List (List UInt8)) → Effect) (c : Client) : Client :=
  if c.argv = [] then resetClient c
  else
    let c := { c with commands := c.commands ++ [c.argv] }
    match processCommand c.commands with
    | .executed => resetClient c
    | .blocks => resetClient { c with blocked := true }
    | .quits => { c with closeAfterReply := true }

/-- The loop of `processInputBuffer`; each round but the last one takes bytes off the buffer. -/
@[grind =] def inputLoop (processCommand : List (List (List UInt8)) → Effect) : ℕ → Client → Client
  | 0, c => c
  | n + 1, c =>
    if c.querybuf = [] ∨ c.blocked = true ∨ c.closeAfterReply = true then c
    else if (processRequest (setReqtype c)).1 = false then (processRequest (setReqtype c)).2
    else inputLoop processCommand n (processArgv processCommand (processRequest (setReqtype c)).2)

/-- `processInputBuffer`. What a command does may depend on all commands so far. -/
def processInputBuffer (processCommand : List (List (List UInt8)) → Effect) (c : Client) : Client :=
  inputLoop processCommand (c.querybuf.length + 1) c

/-- What happens to the client: some bytes are read, or it is unblocked and goes on. -/
inductive Event
  | readQueryFromClient (piece : List UInt8)
  | unblock

/-- One event; `none` when the buffer gets too long and the client is closed. -/
def step (processCommand : List (List (List UInt8)) → Effect) (c : Client) : Event → Option Client
  | .readQueryFromClient piece =>
    if (c.querybuf ++ piece).length > maxQuerybufLen then none
    else some (processInputBuffer processCommand { c with querybuf := c.querybuf ++ piece })
  | .unblock => some (processInputBuffer processCommand { c with blocked := false })

@[grind =] def run (processCommand : List (List (List UInt8)) → Effect) : Client → List Event → Option Client
  | c, [] => some c
  | c, e :: es => (step processCommand c e).bind fun c => run processCommand c es

end KVStores.Redis.Query
