import KVStores.Redis.Object

/-!
# Reply buffers

What a client is to be sent, as networking.c keeps it: a static buffer, then a list of objects, of which the last one is
extended while it is small. The objects may be shared with the rest of the server, and are counted.

The bytes counted for the output buffer limits are not here (see `ReplyBytes`): a client over its limit is closed later, and
nothing else depends on them.
-/

namespace KVStores.Redis.Reply

open Function (update)

/-- A string object: how often it is referred to, and what it holds, if `ptr` is not NULL. -/
structure Obj where
  refcount : ℕ
  ptr : Option Robj
deriving DecidableEq

/-- The objects by their addresses. No object has been made from `next` on. -/
structure Heap where
  obj : ℕ → Obj
  next : ℕ

/-- The bytes `ptr` points to, if it points to an sds. -/
def Obj.sds (o : Obj) : Option (List UInt8) := o.ptr.bind fun v =>
  match v with
  | .raw s => some s
  | .int _ => none

def Heap.empty : Heap := ⟨fun _ => ⟨0, none⟩, 0⟩

def createObject (h : Heap) (ptr : Option Robj) : Heap := ⟨update h.obj h.next ⟨1, ptr⟩, h.next + 1⟩

def incrRefCount (h : Heap) (o : ℕ) : Heap := { h with obj := update h.obj o { h.obj o with refcount := (h.obj o).refcount + 1 } }

/-- `decrRefCount`. An object nobody refers to is freed: its address is not used again. -/
def decrRefCount (h : Heap) (o : ℕ) : Heap := { h with obj := update h.obj o { h.obj o with refcount := (h.obj o).refcount - 1 } }

/-- `ptr` is set. -/
def setPtr (h : Heap) (o : ℕ) (s : List UInt8) : Heap := { h with obj := update h.obj o { h.obj o with ptr := some (.raw s) } }

/-- A node of the list of replies: its own address, and the object it holds. -/
structure ListNode where
  addr : ℕ
  value : ℕ
deriving DecidableEq

/-- Which replication state the client is in; the first one for a client that is no slave. -/
inductive ReplState
  | none
  | waitBgsaveStart
  | waitBgsaveEnd
  | sendBulk
  | online
deriving DecidableEq

/-- `redisClient`, what its output needs, with the objects of the server and the bytes the socket has taken so far. -/
structure Client where
  fd : ℤ
  luaClient : Bool
  closeAfterReply : Bool
  replstate : ReplState
  /-- The first `bufpos` bytes of the static buffer. -/
  buf : List UInt8
  sentlen : ℕ
  reply : List ListNode
  heap : Heap
  /-- The next list node gets this address. -/
  nextNode : ℕ
  socket : List UInt8

/-- `REDIS_REPLY_CHUNK_BYTES`, also the size of the static buffer. -/
def replyChunkBytes : ℕ := 16 * 1024

def maxWritePerEvent : ℕ := 1024 * 64

def createClient (fd : ℤ) (heap : Heap) : Client :=
  { fd := fd, luaClient := false, closeAfterReply := false, replstate := .none, buf := [], sentlen := 0,
    reply := [], heap := heap, nextNode := 0, socket := [] }

/-- `prepareClientToWrite`: whether it returns `REDIS_OK`, when `aeCreateFileEvent` succeeds or not. -/
def prepareClientToWrite (installed : Bool) (c : Client) : Bool :=
  if c.luaClient = true then true
  else if c.fd ≤ 0 then false
  else if c.buf = [] ∧ c.reply = [] ∧ (c.replstate = .none ∨ c.replstate = .online) ∧ installed = false then false
  else true

def listAddNodeTail (c : Client) (o : ℕ) : Client := { c with reply := c.reply ++ [⟨c.nextNode, o⟩], nextNode := c.nextNode + 1 }

def listAddNewObject (c : Client) (ptr : Option Robj) : Client :=
  listAddNodeTail { c with heap := createObject c.heap ptr } c.heap.next

/-- `dupLastObjectIfNeeded`; `tail` is the last node. -/
def dupLastObjectIfNeeded (c : Client) (tail : ListNode) : Client × ListNode :=
  if 1 < (c.heap.obj tail.value).refcount then
    ({ c with heap := decrRefCount (createObject c.heap (c.heap.obj tail.value).ptr) tail.value,
              reply := c.reply.dropLast ++ [{ tail with value := c.heap.next }] }, { tail with value := c.heap.next })
  else (c, tail)

/-- `_addReplyToBuffer`; `none` for `REDIS_ERR`. -/
def addReplyToBuffer (c : Client) (s : List UInt8) : Option Client :=
  if c.closeAfterReply = true then some c
  else if c.reply ≠ [] then none
  else if s.length > replyChunkBytes - c.buf.length then none
  else some { c with buf := c.buf ++ s }

/-- The last object of the list grows by `s`, when it is not a header to come and stays small. -/
def appendToTail (c : Client) (s : List UInt8) : Option Client :=
  c.reply.getLast?.bind fun tail => (c.heap.obj tail.value).sds.bind fun t =>
    if t.length + s.length ≤ replyChunkBytes then
      let (c, tail) := dupLastObjectIfNeeded c tail
      some { c with heap := setPtr c.heap tail.value (t ++ s) }
    else none

/-- `_addReplyObjectToList`, for an object with the bytes `s`. -/
def addReplyObjectToList (c : Client) (o : ℕ) (s : List UInt8) : Client :=
  if c.closeAfterReply = true then c
  else (appendToTail c s).getD (listAddNodeTail { c with heap := incrRefCount c.heap o } o)

def addReplySdsToList (c : Client) (s : List UInt8) : Client :=
  if c.closeAfterReply = true then c else (appendToTail c s).getD (listAddNewObject c (some (.raw s)))

def addReplyStringToList (c : Client) (s : List UInt8) : Client :=
  if c.closeAfterReply = true then c else (appendToTail c s).getD (listAddNewObject c (some (.raw s)))

def addReplyDecoded (c : Client) (s : List UInt8) : Client :=
  let o := c.heap.next
  let c := { c with heap := createObject c.heap (some (.raw s)) }
  let c := (addReplyToBuffer c s).getD (addReplyObjectToList c o s)
  { c with heap := decrRefCount c.heap o }

/-- A number goes to the static buffer without an object of its own when there are 32 bytes left. -/
def addReplyInt (c : Client) (v : Long) : Client :=
  (if c.reply = [] ∧ 32 ≤ replyChunkBytes - c.buf.length then addReplyToBuffer c (ll2string v.1) else none).getD
    (addReplyDecoded c (ll2string v.1))

/-- `addReply`. An object in a reply is never NULL. -/
def addReply (installed : Bool) (c : Client) (o : ℕ) : Client :=
  if prepareClientToWrite installed c = true then
    match (c.heap.obj o).ptr with
    | none => c
    | some (.raw s) => (addReplyToBuffer c s).getD (addReplyObjectToList c o s)
    | some (.int v) => addReplyInt c v
  else c

def addReplySds (installed : Bool) (c : Client) (s : List UInt8) : Client :=
  if prepareClientToWrite installed c = true then (addReplyToBuffer c s).getD (addReplySdsToList c s) else c

def addReplyString (installed : Bool) (c : Client) (s : List UInt8) : Client :=
  if prepareClientToWrite installed c = true then (addReplyToBuffer c s).getD (addReplyStringToList c s) else c

/-- `addDeferredMultiBulkLength`: the node, or NULL. -/
def addDeferredMultiBulkLength (installed : Bool) (c : Client) : Client × Option ℕ :=
  if prepareClientToWrite installed c = true then (listAddNewObject c none, some c.nextNode) else (c, none)

def multiBulkHeader (length : Long) : List UInt8 := 42 :: ll2string length.1 ++ [13, 10]

/-- `len`, in the node in front of `rest`, gets the bytes `s`, and those of the next node if it has any. -/
def glueToNext (c : Client) (front : List ListNode) (ln : ListNode) (rest : List ListNode) (s : List UInt8) : Client :=
  match rest with
  | [] => { c with heap := setPtr c.heap ln.value s }
  | next :: rest =>
    match (c.heap.obj next.value).sds with
    | none => { c with heap := setPtr c.heap ln.value s }
    | some t => { c with heap := decrRefCount (setPtr c.heap ln.value (s ++ t)) next.value, reply := front ++ ln :: rest }

def setDeferredMultiBulkLength (c : Client) (node : Option ℕ) (length : Long) : Client :=
  match node with
  | none => c
  | some addr =>
    match c.reply.dropWhile fun ln => ln.addr ≠ addr with
    | [] => c
    | ln :: rest => glueToNext c (c.reply.takeWhile fun ln => ln.addr ≠ addr) ln rest (multiBulkHeader length)

/-- What a call of `write` comes to: it takes some bytes, or fails for now or for good. -/
inductive WriteResult
  | accepted (n : ℕ)
  | eagain
  | error
deriving DecidableEq

@[grind =] def dropEmpty (h : Heap) : List ListNode → Heap × List ListNode
  | [] => (h, [])
  | ln :: rest => if (h.obj ln.value).sds = some [] then dropEmpty (decrRefCount h ln.value) rest else (h, ln :: rest)

def skipEmpty (c : Client) : Client :=
  if c.buf = [] then { c with heap := (dropEmpty c.heap c.reply).1, reply := (dropEmpty c.heap c.reply).2 } else c

/-- The bytes in front: the static buffer, or the first object of the list. -/
def headBytes (c : Client) : List UInt8 :=
  if c.buf ≠ [] then c.buf else (c.reply.head?.bind fun ln => (c.heap.obj ln.value).sds).getD []

/-- `n` bytes in front have been written. -/
def advance (c : Client) (n : ℕ) : Client :=
  let sent := { c with sentlen := c.sentlen + n, socket := c.socket ++ ((headBytes c).drop c.sentlen).take n }
  if c.sentlen + n ≠ (headBytes c).length then sent
  else if c.buf ≠ [] then { sent with buf := [], sentlen := 0 }
  else
    match c.reply with
    | [] => sent
    | ln :: rest => { sent with heap := decrRefCount c.heap ln.value, reply := rest, sentlen := 0 }

/-- The loop of `sendReplyToClient`: each call of `write` with whether the limit on one event counts after it. `none` when the
client is freed. -/
@[grind =] def sendLoop : List (WriteResult × Bool) → ℕ → Client → Option Client
  | ws, totwritten, c =>
    let c := skipEmpty c
    if c.buf = [] ∧ c.reply = [] then some c
    else
      match ws with
      | [] => some c
      | (.eagain, _) :: _ => some c
      | (.error, _) :: _ => none
      | (.accepted n, limited) :: ws =>
        let nwritten := min n ((headBytes c).length - c.sentlen)
        if nwritten = 0 then some c
        else if totwritten + nwritten > maxWritePerEvent ∧ limited = true then some (advance c nwritten)
        else sendLoop ws (totwritten + nwritten) (advance c nwritten)

/-- `sendReplyToClient`, for a client that is not the master. -/
def sendReplyToClient (ws : List (WriteResult × Bool)) (c : Client) : Option Client :=
  (sendLoop ws 0 c).bind fun c =>
    if c.buf = [] ∧ c.reply = [] then if c.closeAfterReply = true then none else some { c with sentlen := 0 }
    else some c

end KVStores.Redis.Reply
