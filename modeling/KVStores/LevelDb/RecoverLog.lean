import KVStores.LevelDb.WriteBatch
import KVStores.LevelDb.LogRecords
import Mathlib.Data.List.Sort

/-!
# Replaying a log file

`DBImpl::RecoverLogFile`: the batches of a log go into a memtable, and the memtable into a
table of level 0, at the end of the log or when it is large. With `paranoid_checks` the replay
ends at the first damage; without it goes on with what can be read.

* `recoverLogFile_entries`: **a replay without an error puts each entry of the log into a table**.
-/

namespace KVStores.LevelDb

open List

open Log

/-- What a replay looks at in the options: `paranoid_checks`, `write_buffer_size`, what a
memtable takes up, and the order of its entries. -/
structure Options where
  paranoidChecks : Bool
  writeBufferSize : ℕ
  approximateMemoryUsage : List (Entry Bytes Bytes) → ℕ
  compare : InternalKey Bytes → InternalKey Bytes → Bool

def sortEntries (options : Options) (mem : List (Entry Bytes Bytes)) : List (Entry Bytes Bytes) :=
  mem.insertionSort fun a b => options.compare a.key b.key = true

/-- A log file: how opening it turns out, what is in it, and how writing the tables turns out
while it is replayed. -/
structure LogFile where
  openStatus : Status
  contents : Bytes
  tableOutcomes : List Status

/-- A table that was written, by its number: the entries of a memtable, in their order. -/
abbrev NewTable := ℕ × List (Entry Bytes Bytes)

/-- What the replay of the logs comes to: the files that the edit adds to level 0, the largest
sequence number, and the next file number. -/
structure Recovering where
  newFiles : List NewTable
  maxSequence : ℕ
  nextFileNumber : ℕ

def maybeIgnoreError (options : Options) (s : Status) : Status := if s = .ok ∨ options.paranoidChecks then s else .ok

/-- `LogReporter::Corruption`. -/
def noteCorruption (options : Options) (status : Status) (reason : String) : Status :=
  if options.paranoidChecks ∧ status = .ok then .corruption reason else status

/-- The status behind a read, which may have reported damage. -/
def noteReports (options : Options) (before after : Reader) (status : Status) : Status :=
  (after.reports.drop before.reports.length).foldl (fun status report => noteCorruption options status report.2) status

/-- The variables of `RecoverLogFile`. -/
structure Replay where
  status : Status
  mem : Option (List (Entry Bytes Bytes))
  tableOutcomes : List Status
  state : Recovering

/-- `DBImpl::WriteLevel0Table`, without a base. An empty table is not kept. -/
def writeLevel0Table (options : Options) (mem : List (Entry Bytes Bytes)) (r : Replay) : Replay :=
  let s := r.tableOutcomes.headD .ok
  { r with
    status := s
    tableOutcomes := r.tableOutcomes.tail
    state :=
      { r.state with
        newFiles :=
          if s = .ok ∧ mem ≠ [] then
            r.state.newFiles ++ [(r.state.nextFileNumber, sortEntries options mem)]
          else r.state.newFiles
        nextFileNumber := r.state.nextFileNumber + 1 } }

def lastSequence (b : WriteBatch) : ℕ := (((WriteBatch.sequence b : ℤ) + WriteBatch.count b - 1) % 2 ^ 64).toNat

/-- What `RecoverLogFile` does with a record; no memtable is left when it was written. The flag
says whether the loop goes on. -/
def replayRecord (options : Options) (record : Bytes) (r : Replay) : Replay × Bool :=
  if record.length < 12 then ({ r with status := noteCorruption options r.status "log record too small" }, true)
  else
    let mem := r.mem.getD [] ++ (WriteBatch.insertInto record).1
    let status := maybeIgnoreError options (WriteBatch.insertInto record).2
    if status ≠ .ok then ({ r with status, mem := some mem }, false)
    else
      let r := { r with status, mem := some mem, state := { r.state with maxSequence := max r.state.maxSequence (lastSequence record) } }
      if options.writeBufferSize < options.approximateMemoryUsage mem then
        let r := writeLevel0Table options mem r
        if r.status ≠ .ok then (r, false) else ({ r with mem := none }, true)
      else (r, true)

@[grind =] def recoverLoop (options : Options) (crc : Crc32c) : ℕ → Reader → Replay → Replay
  | 0, _, r => r
  | fuel + 1, reader, r =>
    match reader.readRecord crc with
    | (none, reader') => { r with status := noteReports options reader reader' r.status }
    | (some record, reader') =>
      let r := { r with status := noteReports options reader reader' r.status }
      if r.status ≠ .ok then r
      else
        match replayRecord options record r with
        | (r, true) => recoverLoop options crc fuel reader' r
        | (r, false) => r

def recoverLogFile (options : Options) (crc : Crc32c) (log : LogFile) (state : Recovering) : Status × Recovering :=
  if log.openStatus ≠ .ok then (maybeIgnoreError options log.openStatus, state)
  else
    let reader := Reader.new log.contents true 0
    let r := recoverLoop options crc (reader.remaining + 1) reader ⟨.ok, none, log.tableOutcomes, state⟩
    match r.mem with
    | some mem =>
      if r.status = .ok then
        let r := writeLevel0Table options mem r
        (r.status, r.state)
      else (r.status, r.state)
    | none => (r.status, r.state)

def recordEntries (record : Bytes) : List (Entry Bytes Bytes) := if record.length < 12 then [] else (WriteBatch.insertInto record).1

def logRecords (crc : Crc32c) (log : LogFile) : List Bytes :=
  (readAll crc (log.contents.length + 1) (Reader.new log.contents true 0)).1.map Prod.fst

def logEntries (crc : Crc32c) (log : LogFile) : List (Entry Bytes Bytes) :=
  if log.openStatus = .ok then (logRecords crc log).flatMap recordEntries else []

@[grind =] def tablesOf (options : Options) : ℕ → List (List (Entry Bytes Bytes)) → List NewTable
  | _, [] => []
  | n, part :: parts =>
    (if part = [] then [] else [(n, sortEntries options part)]) ++ tablesOf options (n + 1) parts

variable {options : Options} {crc : Crc32c}

theorem tablesOf_append : ∀ (parts later : List (List (Entry Bytes Bytes))) (n : ℕ),
    tablesOf options n (parts ++ later) = tablesOf options n parts ++ tablesOf options (n + parts.length) later
  | [], _, _ => rfl
  | part :: parts, later, n => by
    rw [cons_append, tablesOf, tablesOf, tablesOf_append parts, append_assoc, length_cons,
      show n + 1 + parts.length = n + (parts.length + 1) by omega]

structure Wrote (options : Options) (s : Recovering) (parts : List (List (Entry Bytes Bytes))) (s' : Recovering) : Prop where
  newFiles : s'.newFiles = s.newFiles ++ tablesOf options s.nextFileNumber parts
  next : s'.nextFileNumber = s.nextFileNumber + parts.length
  mono : s.maxSequence ≤ s'.maxSequence

theorem Wrote.refl (s : Recovering) : Wrote options s [] s := ⟨(append_nil _).symm, rfl, le_rfl⟩

theorem Wrote.trans {s s' s'' : Recovering} {parts parts' : List (List (Entry Bytes Bytes))} (h : Wrote options s parts s')
    (h' : Wrote options s' parts' s'') : Wrote options s (parts ++ parts') s'' where
  newFiles := by rw [h'.newFiles, h.newFiles, h.next, tablesOf_append, append_assoc]
  next := by rw [h'.next, h.next, length_append, Nat.add_assoc]
  mono := le_trans h.mono h'.mono

theorem writeLevel0Table_spec (options : Options) (mem : List (Entry Bytes Bytes)) (r : Replay) (hok : (writeLevel0Table options mem r).status = .ok) :
    Wrote options r.state [mem] (writeLevel0Table options mem r).state := by
  have hs : r.tableOutcomes.headD .ok = .ok := hok
  refine ⟨?_, rfl, le_rfl⟩
  unfold writeLevel0Table tablesOf tablesOf
  simp only [hs, true_and, append_nil]
  by_cases h : mem = []
  · rw [if_neg (not_not.2 h), if_pos h, append_nil]
  · rw [if_pos h, if_neg h]

theorem noteCorruption_of_ne {status : Status} (h : status ≠ .ok) (reason : String) : noteCorruption options status reason = status := by
  unfold noteCorruption
  rw [if_neg (fun hc => h hc.2)]

theorem noteReports_of_ne {status : Status} (h : status ≠ .ok) (before after : Reader) :
    noteReports options before after status = status := by
  unfold noteReports
  induction after.reports.drop before.reports.length with
  | nil => rfl
  | cons report reports ih => rw [foldl_cons, noteCorruption_of_ne h, ih]

theorem recoverLoop_of_ne (fuel : ℕ) (reader : Reader) {r : Replay} (h : r.status ≠ .ok) :
    (recoverLoop options crc fuel reader r).status ≠ .ok := by
  cases fuel with
  | zero => exact h
  | succ fuel =>
    rw [recoverLoop]
    cases hr : reader.readRecord crc with
    | mk record reader' =>
      cases record with
      | none =>
        show noteReports options reader reader' r.status ≠ .ok
        rwa [noteReports_of_ne h]
      | some record =>
        have hn : noteReports options reader reader' r.status ≠ .ok := by rwa [noteReports_of_ne h]
        dsimp only
        rwa [if_pos hn]

/-- What is known of a record behind which the replay is still without an error, when it looks closely. -/
structure RecordOk (record : Bytes) (maxSequence : ℕ) : Prop where
  size : 12 ≤ record.length
  batch : (WriteBatch.insertInto record).2 = .ok
  sequence : lastSequence record ≤ maxSequence

theorem replayRecord_spec (options : Options) (record : Bytes) (r : Replay) (hok : (replayRecord options record r).1.status = .ok) :
    (replayRecord options record r).2 = true ∧ ∃ parts,
      parts.flatten ++ (replayRecord options record r).1.mem.getD [] = r.mem.getD [] ++ recordEntries record ∧
      Wrote options r.state parts (replayRecord options record r).1.state ∧
      (options.paranoidChecks = true → r.status = .ok → RecordOk record (replayRecord options record r).1.state.maxSequence) := by
  unfold replayRecord at *
  by_cases hsmall : record.length < 12
  · rw [if_pos hsmall] at hok ⊢
    refine ⟨rfl, [], ?_, Wrote.refl _, fun hp hr => ?_⟩
    · rw [recordEntries, if_pos hsmall]; simp
    · -- a short record is an error then
      rw [noteCorruption, if_pos ⟨hp, hr⟩] at hok
      cases hok
  · rw [if_neg hsmall] at hok ⊢
    have hentries : recordEntries record = (WriteBatch.insertInto record).1 := by rw [recordEntries, if_neg hsmall]
    by_cases hbad : maybeIgnoreError options (WriteBatch.insertInto record).2 ≠ .ok
    · rw [if_pos hbad] at hok
      exact absurd hok hbad
    · have hgood : maybeIgnoreError options (WriteBatch.insertInto record).2 = .ok := not_not.1 hbad
      have hbatch : options.paranoidChecks = true → (WriteBatch.insertInto record).2 = .ok := by
        intro hp
        rwa [maybeIgnoreError, if_pos (Or.inr hp)] at hgood
      rw [if_neg hbad] at hok ⊢
      by_cases hlarge : options.writeBufferSize < options.approximateMemoryUsage (r.mem.getD [] ++ (WriteBatch.insertInto record).1)
      · rw [if_pos hlarge] at hok ⊢
        set r' : Replay := ⟨maybeIgnoreError options (WriteBatch.insertInto record).2,
          some (r.mem.getD [] ++ (WriteBatch.insertInto record).1), r.tableOutcomes,
          { r.state with maxSequence := max r.state.maxSequence (lastSequence record) }⟩ with hr'
        by_cases hfail : (writeLevel0Table options (r.mem.getD [] ++ (WriteBatch.insertInto record).1) r').status ≠ .ok
        · rw [if_pos hfail] at hok
          exact absurd hok hfail
        · rw [if_neg hfail] at hok ⊢
          have hw := writeLevel0Table_spec options _ r' (not_not.1 hfail)
          refine ⟨rfl, [r.mem.getD [] ++ (WriteBatch.insertInto record).1], ?_, ⟨hw.newFiles, hw.next, ?_⟩, fun hp _ => ?_⟩
          · rw [hentries]; simp
          · exact le_max_left _ _
          · exact ⟨not_lt.1 hsmall, hbatch hp, le_max_right _ _⟩
      · rw [if_neg hlarge] at hok ⊢
        refine ⟨rfl, [], ?_, ⟨(append_nil _).symm, rfl, le_max_left _ _⟩, fun hp _ => ?_⟩
        · rw [hentries]; simp
        · exact ⟨not_lt.1 hsmall, hbatch hp, le_max_right _ _⟩

/-- **A loop that ends without an error** has put the entries of all records into the memtables. -/
theorem recoverLoop_spec (options : Options) (crc : Crc32c) : ∀ (fuel : ℕ) (reader : Reader) (r : Replay), (recoverLoop options crc fuel reader r).status = .ok →
    r.status = .ok ∧ ∃ parts, parts.flatten ++ (recoverLoop options crc fuel reader r).mem.getD [] =
        r.mem.getD [] ++ ((readAll crc fuel reader).1.map Prod.fst).flatMap recordEntries ∧
      Wrote options r.state parts (recoverLoop options crc fuel reader r).state ∧
      (options.paranoidChecks = true → ∀ record ∈ (readAll crc fuel reader).1.map Prod.fst,
        RecordOk record (recoverLoop options crc fuel reader r).state.maxSequence) := by
  intro fuel
  induction fuel with
  | zero =>
    intro reader r hok
    exact ⟨hok, [], by simp [recoverLoop, readAll], Wrote.refl _, fun _ record h => absurd h (by simp [readAll])⟩
  | succ fuel ih =>
    intro reader r hok
    have hr : r.status = .ok := by
      by_contra hne
      exact recoverLoop_of_ne (fuel + 1) reader hne hok
    refine ⟨hr, ?_⟩
    rw [recoverLoop] at hok ⊢
    rw [readAll]
    cases hread : reader.readRecord crc with
    | mk record reader' =>
      rw [hread] at hok
      cases record with
      | none => exact ⟨[], by simp, Wrote.refl _, fun _ record h => absurd h (by simp)⟩
      | some record =>
        dsimp only at hok ⊢
        by_cases hnote : noteReports options reader reader' r.status ≠ .ok
        · rw [if_pos hnote] at hok
          exact absurd hok hnote
        · rw [if_neg hnote] at hok ⊢
          have hsame : ({ r with status := noteReports options reader reader' r.status } : Replay) = r := by
            rw [not_not.1 hnote, ← hr]
          rw [hsame] at hok ⊢
          cases hrec : replayRecord options record r with
          | mk r' go =>
            rw [hrec] at hok
            have hspec := replayRecord_spec options record r
            rw [hrec] at hspec
            cases go with
            | false =>
              have := (hspec hok).1
              cases this
            | true =>
              obtain ⟨hr', parts', hparts', hw', hall'⟩ := ih reader' r' hok
              obtain ⟨-, parts, hparts, hw, hone⟩ := hspec hr'
              refine ⟨parts ++ parts', ?_, hw.trans hw', fun hp record' hmem => ?_⟩
              · rw [flatten_append, append_assoc, hparts', ← append_assoc, hparts, append_assoc]
                rfl
              · rcases mem_cons.1 hmem with rfl | hmem
                · have h1 := hone hp hr
                  exact ⟨h1.size, h1.batch, le_trans h1.sequence hw'.mono⟩
                · exact hall' hp record' hmem

structure Replayed (options : Options) (crc : Crc32c) (log : LogFile) (s s' : Recovering) : Prop where
  entries : ∃ parts, parts.flatten = logEntries crc log ∧ Wrote options s parts s'
  records : options.paranoidChecks = true → ∀ record ∈ logRecords crc log, RecordOk record s'.maxSequence

theorem recoverLogFile_entries {log : LogFile} {s : Recovering} (hok : (recoverLogFile options crc log s).1 = .ok)
    (hopen : options.paranoidChecks = true ∨ log.openStatus = .ok) : Replayed options crc log s (recoverLogFile options crc log s).2 := by
  unfold recoverLogFile at *
  by_cases ho : log.openStatus ≠ .ok
  · -- the log cannot be opened, which is an error then
    rw [if_pos ho] at hok
    rcases hopen with hp | hopen
    · rw [maybeIgnoreError, if_pos (Or.inr hp)] at hok
      exact absurd hok ho
    · exact absurd hopen ho
  · have ho' : log.openStatus = .ok := not_not.1 ho
    rw [if_neg ho] at hok ⊢
    have hfuel : (Reader.new log.contents true 0).remaining + 1 = log.contents.length + 1 := by
      simp [Reader.remaining, Reader.new]
    dsimp only at hok ⊢
    rw [hfuel] at hok ⊢
    have hspec := recoverLoop_spec options crc (log.contents.length + 1) (Reader.new log.contents true 0)
      ⟨.ok, none, log.tableOutcomes, s⟩
    set r := recoverLoop options crc (log.contents.length + 1) (Reader.new log.contents true 0) ⟨.ok, none, log.tableOutcomes, s⟩ with hr
    have hrec : logEntries crc log = (logRecords crc log).flatMap recordEntries := by rw [logEntries, if_pos ho']
    cases hmem : r.mem with
    | none =>
      rw [hmem] at hok
      obtain ⟨-, parts, hparts, hw, hall⟩ := hspec hok
      rw [hmem] at hparts
      refine ⟨⟨parts, ?_, hw⟩, hall⟩
      rw [hrec]
      exact (append_nil _).symm.trans hparts
    | some mem =>
      rw [hmem] at hok
      dsimp only at hok ⊢
      by_cases hst : r.status = .ok
      · rw [if_pos hst] at hok ⊢
        obtain ⟨-, parts, hparts, hw, hall⟩ := hspec hst
        rw [hmem] at hparts
        have hw' := writeLevel0Table_spec options mem r hok
        refine ⟨⟨parts ++ [mem], ?_, hw.trans hw'⟩, fun hp record hm => ?_⟩
        · rw [hrec, flatten_append, flatten_singleton]
          exact hparts
        · have h1 := hall hp record hm
          exact ⟨h1.size, h1.batch, le_trans h1.sequence hw'.mono⟩
      · rw [if_neg hst] at hok
        exact absurd hok hst

def logStatus (options : Options) (crc : Crc32c) (log : LogFile) : Status := (recoverLogFile options crc log ⟨[], 0, 0⟩).1

theorem replayRecord_status (options : Options) (record : Bytes) (r : Replay) (s : Recovering) :
    ∃ s', replayRecord options record { r with state := s } =
      ({ (replayRecord options record r).1 with state := s' }, (replayRecord options record r).2) := by
  unfold replayRecord
  dsimp only
  split
  · exact ⟨_, rfl⟩
  · split
    · exact ⟨_, rfl⟩
    · split
      · have hw : ∀ (mem : List (Entry Bytes Bytes)) (r : Replay) (s : Recovering), ∃ s',
            writeLevel0Table options mem { r with state := s } = { writeLevel0Table options mem r with state := s' } :=
          fun _ _ _ => ⟨_, rfl⟩
        obtain ⟨s', hs'⟩ := hw (r.mem.getD [] ++ (WriteBatch.insertInto record).1)
          ⟨maybeIgnoreError options (WriteBatch.insertInto record).2, some (r.mem.getD [] ++ (WriteBatch.insertInto record).1),
            r.tableOutcomes, { r.state with maxSequence := max r.state.maxSequence (lastSequence record) }⟩
          { s with maxSequence := max s.maxSequence (lastSequence record) }
        rw [hs']
        generalize writeLevel0Table options _ _ = w
        by_cases hfail : w.status ≠ .ok
        · rw [if_pos hfail, if_pos hfail]
          exact ⟨s', rfl⟩
        · rw [if_neg hfail, if_neg hfail]
          exact ⟨s', rfl⟩
      · exact ⟨_, rfl⟩

theorem recoverLoop_status (options : Options) (crc : Crc32c) : ∀ (fuel : ℕ) (reader : Reader) (r : Replay) (s : Recovering),
    ∃ s', recoverLoop options crc fuel reader { r with state := s } = { recoverLoop options crc fuel reader r with state := s' } := by
  intro fuel
  induction fuel with
  | zero =>
    intro reader r s
    exact ⟨s, rfl⟩
  | succ fuel ih =>
    intro reader r s
    rw [recoverLoop, recoverLoop]
    cases hread : reader.readRecord crc with
    | mk record reader' =>
      cases record with
      | none => exact ⟨s, rfl⟩
      | some record =>
        dsimp only
        split
        · exact ⟨s, rfl⟩
        · obtain ⟨s', hs'⟩ := replayRecord_status options record
            { r with status := noteReports options reader reader' r.status } s
          rw [hs']
          cases replayRecord options record { r with status := noteReports options reader reader' r.status } with
          | mk r' go =>
            cases go with
            | true => exact ih reader' r' s'
            | false => exact ⟨s', rfl⟩

/-- **The status of a replay depends on the log alone.** -/
theorem recoverLogFile_status (log : LogFile) (s : Recovering) : (recoverLogFile options crc log s).1 = logStatus options crc log := by
  unfold logStatus recoverLogFile
  by_cases ho : log.openStatus ≠ .ok
  · rw [if_pos ho, if_pos ho]
  · rw [if_neg ho, if_neg ho]
    dsimp only
    obtain ⟨s', hs'⟩ := recoverLoop_status options crc ((Reader.new log.contents true 0).remaining + 1)
      (Reader.new log.contents true 0) ⟨.ok, none, log.tableOutcomes, ⟨[], 0, 0⟩⟩ s
    rw [hs']
    generalize recoverLoop options crc ((Reader.new log.contents true 0).remaining + 1) (Reader.new log.contents true 0)
      ⟨.ok, none, log.tableOutcomes, ⟨[], 0, 0⟩⟩ = r
    cases hm : r.mem with
    | none => rfl
    | some mem =>
      dsimp only
      split <;> rfl

end KVStores.LevelDb
