import KVStores.LevelDb.RecoverLog

/-!
# The queue of writers

The calls of `DBImpl::Write` stand in a queue, and the first of them writes for those behind it.
The mutex is free while it waits in `MakeRoomForWrite` and while it writes to the log and to the
memtable; what other threads do then are steps of their own.
-/

namespace KVStores.LevelDb

/-- `DBImpl::Writer`: a call of `Write`. -/
structure DbWriter where
  batch : Option WriteBatch
  sync : Bool
deriving DecidableEq

def kL0_SlowdownWritesTrigger : ℕ := 8

def kL0_StopWritesTrigger : ℕ := 12

/-- What the writer at the front is at while the mutex is free: it is yet to wake up, it waits in
`MakeRoomForWrite`, or it writes a group, of which `last_writer` is the last. -/
inductive WritePhase
  | idle
  | makingRoom (force allowDelay : Bool)
  | writing (updates : WriteBatch) (lastWriter : ℕ)

/-- A turn at the front: the calls that it completed, the writer at the front first, their status, the
status of `AddRecord` and `Sync` where they were called, and how many entries had been inserted at
its end. The front has run `MakeRoomForWrite`, forced when it has no batch. -/
structure Turn where
  writers : List DbWriter
  status : Status
  logStatus : Option Status
  syncStatus : Option Status
  inserted : ℕ
deriving DecidableEq

/-- The fields of `DBImpl` that `Write` works on. `log` has the records of all log files that
`AddRecord` took; `left` are the entries that are no longer in `mem_`, and `turns` the turns that
are over. -/
structure WriteQueue where
  writers : List DbWriter
  phase : WritePhase
  mem : List (Entry Bytes Bytes)
  imm : Option (List (Entry Bytes Bytes))
  log : List WriteBatch
  lastSequence : ℕ
  level0 : ℕ
  bgError : Status
  left : List (Entry Bytes Bytes)
  turns : List Turn

/-- What comes out of the loop of `MakeRoomForWrite` when the mutex is released, or at its end. -/
inductive Room
  | done (s : Status)
  | wait (force allowDelay : Bool)

inductive QueueEvent
  /-- A call of `Write`. -/
  | arrive (w : DbWriter)
  /-- The writer at the front goes on; how `NewWritableFile` turns out, if it is called. -/
  | wake (created : Status)
  /-- The writer at the front writes its group; how `AddRecord` and `Sync` turn out. -/
  | write (added synced : Status)
  /-- A compaction, which may be done with `imm_`, change level 0 or fail. -/
  | background (immDone : Bool) (level0 : ℕ) (error : Status)

namespace WriteQueue

def new (lastSequence level0 : ℕ) : WriteQueue := ⟨[], .idle, [], none, [], lastSequence, level0, .ok, [], []⟩

/-- `max_size` of `BuildBatchGroup`. -/
def maxSize (size : ℕ) : ℕ := if size ≤ 128 * 2 ^ 10 then size + 128 * 2 ^ 10 else 2 ^ 20

/-- The loop of `BuildBatchGroup` over the writers behind the first one: `tmp_batch_`, if it is
used, and how far `last_writer` moves. -/
@[grind =] def buildLoop (first : WriteBatch) (sync : Bool) (limit : ℕ) : ℕ → Option WriteBatch → List DbWriter → Option WriteBatch × ℕ
  | _, tmp, [] => (tmp, 0)
  | size, tmp, w :: ws =>
    if w.sync ∧ ¬sync then (tmp, 0)
    else
      match w.batch with
      | none =>
        let r := buildLoop first sync limit size tmp ws
        (r.1, r.2 + 1)
      | some b =>
        if limit < size + b.length then (tmp, 0)
        else
          let dst := tmp.getD (WriteBatch.append WriteBatch.clear first)
          let r := buildLoop first sync limit (size + b.length) (some (WriteBatch.append dst b)) ws
          (r.1, r.2 + 1)

def buildBatchGroup (first : WriteBatch) (sync : Bool) (behind : List DbWriter) : WriteBatch × ℕ :=
  let r := buildLoop first sync (maxSize first.length) first.length none behind
  (r.1.getD first, r.2)

/-- A new log and memtable; `mem_` becomes `imm_`. -/
def switchMemTable (st : WriteQueue) : WriteQueue := { st with imm := some st.mem, mem := [], left := st.left ++ st.mem }

/-- The loop of `DBImpl::MakeRoomForWrite`, up to a point where the mutex is released. It goes
round once more at most: then there is an `imm_`. -/
@[grind =] def makeRoomForWrite (options : Options) : ℕ → Bool → Bool → Status → WriteQueue → Room × WriteQueue
  | 0, force, allowDelay, _, st => (.wait force allowDelay, st)
  | fuel + 1, force, allowDelay, created, st =>
    if st.bgError ≠ .ok then (.done st.bgError, st)
    else if allowDelay ∧ kL0_SlowdownWritesTrigger ≤ st.level0 then (.wait force false, st)
    else if ¬force ∧ options.approximateMemoryUsage st.mem ≤ options.writeBufferSize then (.done .ok, st)
    else if st.imm.isSome then (.wait force allowDelay, st)
    else if kL0_StopWritesTrigger ≤ st.level0 then (.wait force allowDelay, st)
    else if created ≠ .ok then (.done created, st)
    else makeRoomForWrite options fuel false allowDelay created st.switchMemTable

/-- The end of `DBImpl::Write`: the writers up to `last_writer` leave the queue with their status. -/
def finish (st : WriteQueue) (status : Status) (lastWriter : ℕ) (logStatus syncStatus : Option Status) : WriteQueue :=
  { st with
    writers := st.writers.drop (lastWriter + 1)
    phase := .idle
    turns := st.turns ++ [⟨st.writers.take (lastWriter + 1), status, logStatus, syncStatus, (st.left ++ st.mem).length⟩] }

/-- What the front hands to `MakeRoomForWrite`, or has come to there. -/
def roomArgs (st : WriteQueue) : Option (Bool × Bool) :=
  match st.phase, st.writers with
  | .idle, w :: _ => some (w.batch.isNone, w.batch.isSome)
  | .makingRoom force allowDelay, _ => some (force, allowDelay)
  | _, _ => none

/-- The front behind `MakeRoomForWrite`. -/
def madeRoom (st : WriteQueue) (s : Status) : WriteQueue :=
  match st.writers with
  | [] => st
  | w :: behind =>
    match w.batch with
    | none => st.finish s 0 none none
    | some b =>
      if s = .ok then
        let g := buildBatchGroup b w.sync behind
        { st with phase := .writing (WriteBatch.setSequence g.1 (st.lastSequence + 1)) g.2 }
      else st.finish s 0 none none

def writeGroup (st : WriteQueue) (updates : WriteBatch) (lastWriter : ℕ) (sync : Bool) (added synced : Status) : WriteQueue :=
  let status := if added = .ok ∧ sync then synced else added
  let inserted := if status = .ok then WriteBatch.insertInto updates else ([], status)
  let st' :=
    { st with
      log := if added = Status.ok then st.log ++ [updates] else st.log
      mem := st.mem ++ inserted.1
      lastSequence := ((st.lastSequence + WriteBatch.count updates) % 2 ^ 64).toNat }
  st'.finish inserted.2 lastWriter (some added) (if added = Status.ok ∧ sync then some synced else none)

/-- What comes of an event, if it can happen. A batch is what `Put` and `Delete` have made of it. -/
@[grind =] def step (options : Options) (st : WriteQueue) : QueueEvent → Option WriteQueue
  | .arrive w => if w.batch.all (fun b => decide ((WriteBatch.iterate b).2 = Status.ok)) then some { st with writers := st.writers ++ [w] } else none
  | .wake created =>
    match st.roomArgs with
    | none => none
    | some (force, allowDelay) =>
      match makeRoomForWrite options 2 force allowDelay created st with
      | (.wait force allowDelay, st) => some { st with phase := .makingRoom force allowDelay }
      | (.done s, st) => some (st.madeRoom s)
  | .write added synced =>
    match st.phase, st.writers with
    | .writing updates lastWriter, w :: _ => some (st.writeGroup updates lastWriter w.sync added synced)
    | _, _ => none
  | .background immDone level0 error =>
    some { st with imm := if immDone then none else st.imm, level0 := level0, bgError := error }

def run (options : Options) : WriteQueue → List QueueEvent → Option WriteQueue
  | st, [] => some st
  | st, ev :: evs => (st.step options ev).bind fun st => st.run options evs

end WriteQueue

def DbWriter.ops (w : DbWriter) : List BatchOp := w.batch.elim [] fun b => (WriteBatch.iterate b).1

def Turn.ops (t : Turn) : List BatchOp := t.writers.flatMap DbWriter.ops

/-- The turns with the numbers of their first operations: one behind the other, where a group was
made. -/
@[grind =] def turnNumbers : ℕ → List Turn → List (ℕ × Turn)
  | _, [] => []
  | n, t :: ts => (n, t) :: turnNumbers (if t.logStatus.isSome then n + t.ops.length else n) ts

def numbersTaken (turns : List Turn) : ℕ := ((turns.filter fun t => t.logStatus.isSome).flatMap Turn.ops).length

structure Served (start : ℕ) (st : WriteQueue) : Prop where
  /-- The records of the log are the groups that `AddRecord` took, each once and with its number. -/
  logged : st.log.map (fun record => (WriteBatch.sequence record, WriteBatch.iterate record)) =
    ((turnNumbers (start + 1) st.turns).filter fun p => decide (p.2.logStatus = some .ok)).map fun p => (p.1 % 2 ^ 64, p.2.ops, .ok)
  /-- The entries that were inserted are those of the calls that returned an OK, each once. -/
  inserted : st.left ++ st.mem =
    ((turnNumbers (start + 1) st.turns).filter fun p => decide (p.2.status = .ok)).flatMap fun p => WriteBatch.memEntries (p.1 % 2 ^ 64) p.2.ops
  /-- What was inserted was logged. -/
  acknowledged : ∀ t ∈ st.turns, t.status = .ok → (∃ w ∈ t.writers, w.batch ≠ none) → t.logStatus = some .ok
  /-- The numbers end at `LastSequence`. -/
  last : st.lastSequence = (start + numbersTaken st.turns) % 2 ^ 64
  /-- A record that has a sync write in it is synced. -/
  synced : ∀ t ∈ st.turns, t.logStatus = some .ok → ∀ w ∈ t.writers, w.sync = true →
    t.syncStatus ≠ none ∧ (t.status = .ok → t.syncStatus = some .ok)
  /-- A call without a batch has had its own turn, and what was inserted before has left `mem_`. -/
  nulls : ∀ t ∈ st.turns, t.status = .ok → ∀ w ∈ t.writers, w.batch = none → t.writers = [w] ∧ t.inserted ≤ st.left.length

end KVStores.LevelDb
