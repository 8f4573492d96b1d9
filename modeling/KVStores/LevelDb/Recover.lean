import KVStores.LevelDb.RecoverLog
import KVStores.LevelDb.LogRoundTrip
import KVStores.LevelDb.WriteBatchRecords

/-!
# Recovering a database

`DBImpl::Recover`: the logs that are newer than the descriptor are replayed in the order of
their numbers. The loop keeps the status of the last log only.
-/

namespace KVStores.LevelDb

open List

open Log

inductive FileType
  | logFile
  | dbLockFile
  | tableFile
  | descriptorFile
  | currentFile
  | tempFile
  | infoLogFile
deriving DecidableEq

/-- What `Recover` finds: how its calls to the environment turn out, what the descriptor says,
and the files in the directory whose names it can parse. -/
structure DbDir where
  lockStatus : Status
  currentExists : Bool
  createIfMissing : Bool
  errorIfExists : Bool
  newDbStatus : Status
  versionsStatus : Status
  logNumber : ℕ
  prevLogNumber : ℕ
  lastSequence : ℕ
  nextFileNumber : ℕ
  liveFiles : List ℕ
  childrenStatus : Status
  children : List (ℕ × FileType)
  log : ℕ → LogFile

/-- `InvalidArgument` when the database is there or not as the options do not want it. -/
def createStatus (dir : DbDir) : Status :=
  if dir.currentExists then if dir.errorIfExists then .invalidArgument "exists (error_if_exists is true)" else .ok
  else if dir.createIfMissing then dir.newDbStatus else .invalidArgument "does not exist (create_if_missing is false)"

/-- The steps of `Recover` before the logs. -/
def beforeLogs (dir : DbDir) : Status :=
  if dir.lockStatus ≠ .ok then dir.lockStatus
  else if createStatus dir ≠ .ok then createStatus dir
  else if dir.versionsStatus ≠ .ok then dir.versionsStatus
  else if dir.childrenStatus ≠ .ok then dir.childrenStatus
  else
    let expected := dir.liveFiles.filter fun n => n ∉ dir.children.map Prod.fst
    if expected ≠ [] then .corruption "missing files" else .ok

def logsToRecover (dir : DbDir) : List ℕ :=
  ((dir.children.filter fun c => c.2 = .logFile ∧ (dir.logNumber ≤ c.1 ∨ c.1 = dir.prevLogNumber)).map Prod.fst).insertionSort (· ≤ ·)

def markFileNumberUsed (number : ℕ) (s : Recovering) : Recovering :=
  if s.nextFileNumber ≤ number then { s with nextFileNumber := number + 1 } else s

def recoverRound (options : Options) (crc : Crc32c) (dir : DbDir) (r : Status × Recovering) (number : ℕ) : Status × Recovering :=
  let r := recoverLogFile options crc (dir.log number) r.2
  (r.1, markFileNumberUsed number r.2)

/-- `DBImpl::Recover`: the status, what the edit adds, and the last sequence number. -/
def recover (options : Options) (crc : Crc32c) (dir : DbDir) : Status × Recovering × ℕ :=
  let start : Recovering := ⟨[], 0, dir.nextFileNumber⟩
  if beforeLogs dir ≠ .ok then (beforeLogs dir, start, dir.lastSequence)
  else
    let r := (logsToRecover dir).foldl (recoverRound options crc dir) (.ok, start)
    (r.1, r.2, if r.1 = .ok ∧ dir.lastSequence < r.2.maxSequence then r.2.maxSequence else dir.lastSequence)

variable {options : Options} {crc : Crc32c} {dir : DbDir}

def allLogEntries (crc : Crc32c) (dir : DbDir) : List (Entry Bytes Bytes) :=
  (logsToRecover dir).flatMap fun n => logEntries crc (dir.log n)

/-- The new tables are some entries, cut into memtables; no table takes the number of another. -/
def TablesHold (options : Options) (newFiles : List NewTable) (entries : List (Entry Bytes Bytes)) : Prop :=
  (newFiles.map Prod.fst).Pairwise (· < ·) ∧ ∃ parts : List (List (Entry Bytes Bytes)), parts.flatten = entries ∧
    newFiles.map Prod.snd = parts.map fun part => sortEntries options part

/-- An OK means that every log was replayed without an error, that the edit has their entries,
and that no entry is newer than the last sequence number. -/
def RecoversAll (options : Options) (crc : Crc32c) (dir : DbDir) : Prop :=
  (recover options crc dir).1 = .ok →
    (∀ n ∈ logsToRecover dir, logStatus options crc (dir.log n) = .ok) ∧
    TablesHold options (recover options crc dir).2.1.newFiles (allLogEntries crc dir) ∧
    ∀ e ∈ allLogEntries crc dir, e.key.sequence ≤ (recover options crc dir).2.2

theorem foldl_status : ∀ (logs : List ℕ) (r : Status × Recovering),
    (logs.foldl (recoverRound options crc dir) r).1 = (logs.getLast?.map fun n => logStatus options crc (dir.log n)).getD r.1
  | [], _ => rfl
  | [n], r => recoverLogFile_status (dir.log n) r.2
  | n :: n' :: logs, r => by
    rw [foldl_cons, foldl_status (n' :: logs), List.getLast?_cons_cons]
    cases h : (n' :: logs).getLast? with
    | none => exact absurd (List.getLast?_eq_none_iff.1 h) (by simp)
    | some m => rfl

/-- The tables so far hold the entries of the logs so far. -/
structure RecoveredSo (options : Options) (entries : List (Entry Bytes Bytes)) (s : Recovering) : Prop where
  hold : TablesHold options s.newFiles entries
  below : ∀ t ∈ s.newFiles, t.1 < s.nextFileNumber
  sequence : ∀ e ∈ entries, e.key.sequence ≤ s.maxSequence

theorem tablesOf_numbers : ∀ (parts : List (List (Entry Bytes Bytes))) (n : ℕ),
    ((tablesOf options n parts).map Prod.fst).Pairwise (· < ·) ∧ ∀ t ∈ tablesOf options n parts, n ≤ t.1 ∧ t.1 < n + parts.length
  | [], _ => ⟨List.Pairwise.nil, fun t ht => absurd ht (by simp [tablesOf])⟩
  | part :: parts, n => by
    obtain ⟨h1, h2⟩ := tablesOf_numbers parts (n + 1)
    rw [tablesOf]
    by_cases hp : part = []
    · rw [if_pos hp, nil_append]
      refine ⟨h1, fun t ht => ?_⟩
      have := h2 t ht
      rw [length_cons]
      omega
    · rw [if_neg hp, singleton_append, map_cons]
      refine ⟨pairwise_cons.2 ⟨fun m hm => ?_, h1⟩, fun t ht => ?_⟩
      · obtain ⟨t, ht, rfl⟩ := List.mem_map.1 hm
        have := h2 t ht
        omega
      · rw [length_cons]
        rcases mem_cons.1 ht with rfl | ht
        · exact ⟨le_rfl, by show n < _; omega⟩
        · have := h2 t ht
          omega

theorem tablesOf_contents : ∀ (parts : List (List (Entry Bytes Bytes))) (n : ℕ),
    ∃ parts' : List (List (Entry Bytes Bytes)), parts'.flatten = parts.flatten ∧
    (tablesOf options n parts).map Prod.snd = parts'.map fun part => sortEntries options part
  | [], _ => ⟨[], rfl, rfl⟩
  | part :: parts, n => by
    obtain ⟨parts', h1, h2⟩ := tablesOf_contents parts (n + 1)
    rw [tablesOf]
    by_cases hp : part = []
    · exact ⟨parts', by rw [h1, hp]; rfl, by rw [if_pos hp, nil_append, h2]⟩
    · exact ⟨part :: parts', by rw [flatten_cons, flatten_cons, h1], by rw [if_neg hp, map_append, h2]; rfl⟩

theorem lastSequence_ge {record : Bytes} (hok : (WriteBatch.insertInto record).2 = .ok)
    (hseq : ∀ e ∈ (WriteBatch.insertInto record).1, e.key.sequence ≤ kMaxSequenceNumber) :
    ∀ e ∈ (WriteBatch.insertInto record).1, e.key.sequence ≤ lastSequence record := by
  have hiter : WriteBatch.iterate record = ((WriteBatch.iterate record).1, .ok) := Prod.ext rfl hok
  obtain ⟨-, -, hcount⟩ := WriteBatch.iterate_ok hiter
  intro e he
  have hne : (WriteBatch.iterate record).1 ≠ [] := by
    intro hnil
    rw [WriteBatch.insertInto, hnil] at he
    cases he
  -- the last entry is not too new, so that the sum does not wrap
  obtain ⟨last, hlast, hnum⟩ := WriteBatch.memEntries_last (WriteBatch.iterate record).1 (WriteBatch.sequence record) hne
  have hmax := hseq last hlast
  have hle := (WriteBatch.memEntries_sequence (WriteBatch.iterate record).1 (WriteBatch.sequence record) e he).2
  have hval : (WriteBatch.sequence record : ℤ) + WriteBatch.count record - 1 = last.key.sequence := by
    omega
  have hmod : (last.key.sequence : ℤ) % 2 ^ 64 = last.key.sequence := by
    apply Int.emod_eq_of_lt (Int.natCast_nonneg _)
    unfold kMaxSequenceNumber at hmax
    omega
  rw [lastSequence, hval, hmod, Int.toNat_natCast]
  omega

theorem markFileNumberUsed_newFiles (number : ℕ) (s : Recovering) :
    (markFileNumberUsed number s).newFiles = s.newFiles ∧ (markFileNumberUsed number s).maxSequence = s.maxSequence ∧
      s.nextFileNumber ≤ (markFileNumberUsed number s).nextFileNumber := by
  unfold markFileNumberUsed
  by_cases h : s.nextFileNumber ≤ number
  · rw [if_pos h]
    exact ⟨rfl, rfl, by show s.nextFileNumber ≤ number + 1; omega⟩
  · rw [if_neg h]
    exact ⟨rfl, rfl, le_rfl⟩

theorem recoverRound_spec {entries : List (Entry Bytes Bytes)} {r : Status × Recovering} {n : ℕ} (hp : options.paranoidChecks = true)
    (h : RecoveredSo options entries r.2) (hok : logStatus options crc (dir.log n) = .ok)
    (hseq : ∀ e ∈ logEntries crc (dir.log n), e.key.sequence ≤ kMaxSequenceNumber) :
    RecoveredSo options (entries ++ logEntries crc (dir.log n)) (recoverRound options crc dir r n).2 := by
  have hst : (recoverLogFile options crc (dir.log n) r.2).1 = .ok := by rw [recoverLogFile_status, hok]
  obtain ⟨⟨parts, hparts, hw⟩, hrec⟩ := recoverLogFile_entries hst (Or.inl hp)
  obtain ⟨hm1, hm2, hm3⟩ := markFileNumberUsed_newFiles n (recoverLogFile options crc (dir.log n) r.2).2
  obtain ⟨hpair, parts0, hflat, hmap⟩ := h.hold
  obtain ⟨hnum, hbound⟩ := @tablesOf_numbers options parts r.2.nextFileNumber
  obtain ⟨parts', hflat', hmap'⟩ := @tablesOf_contents options parts r.2.nextFileNumber
  have hnew : (recoverRound options crc dir r n).2.newFiles = r.2.newFiles ++ tablesOf options r.2.nextFileNumber parts :=
    hm1.trans hw.newFiles
  refine ⟨⟨?_, parts0 ++ parts', ?_, ?_⟩, ?_, ?_⟩
  · rw [hnew, map_append]
    refine pairwise_append.2 ⟨hpair, hnum, fun a ha b hb => ?_⟩
    obtain ⟨t, ht, rfl⟩ := List.mem_map.1 ha
    obtain ⟨t', ht', rfl⟩ := List.mem_map.1 hb
    exact lt_of_lt_of_le (h.below t ht) (hbound t' ht').1
  · rw [flatten_append, hflat, hflat', hparts]
  · rw [hnew, map_append, map_append, hmap, hmap']
  · intro t ht
    rw [hnew] at ht
    have hnext : r.2.nextFileNumber + parts.length ≤ (recoverRound options crc dir r n).2.nextFileNumber := by
      rw [← hw.next]
      exact hm3
    rcases mem_append.1 ht with ht | ht
    · have := h.below t ht
      omega
    · have := hbound t ht
      omega
  · intro e he
    have hmono : r.2.maxSequence ≤ (recoverRound options crc dir r n).2.maxSequence := by
      show _ ≤ (markFileNumberUsed n _).maxSequence
      rw [hm2]
      exact hw.mono
    rcases mem_append.1 he with he | he
    · exact le_trans (h.sequence e he) hmono
    · -- an entry of this log is in one of its records
      have hopen : (dir.log n).openStatus = .ok := by
        by_contra hne
        rw [logEntries, if_neg hne] at he
        cases he
      rw [logEntries, if_pos hopen] at he hseq
      obtain ⟨record, hr, her⟩ := mem_flatMap.1 he
      have hgood := hrec hp record hr
      have hentries : recordEntries record = (WriteBatch.insertInto record).1 := by
        rw [recordEntries, if_neg (not_lt.2 hgood.size)]
      rw [hentries] at her
      have hall : ∀ e ∈ (WriteBatch.insertInto record).1, e.key.sequence ≤ kMaxSequenceNumber := fun e' he' =>
        hseq e' (mem_flatMap.2 ⟨record, hr, by rwa [hentries]⟩)
      show _ ≤ (markFileNumberUsed n _).maxSequence
      rw [hm2]
      exact le_trans (lastSequence_ge hgood.batch hall e her) hgood.sequence

theorem foldl_spec (hp : options.paranoidChecks = true) : ∀ (logs : List ℕ) {entries : List (Entry Bytes Bytes)} {r : Status × Recovering},
    RecoveredSo options entries r.2 → (∀ n ∈ logs, logStatus options crc (dir.log n) = .ok) →
    (∀ n ∈ logs, ∀ e ∈ logEntries crc (dir.log n), e.key.sequence ≤ kMaxSequenceNumber) →
    RecoveredSo options (entries ++ logs.flatMap fun n => logEntries crc (dir.log n)) (logs.foldl (recoverRound options crc dir) r).2
  | [], entries, r, h, _, _ => by
    rw [flatMap_nil, append_nil]
    exact h
  | n :: logs, entries, r, h, hok, hseq => by
    have h1 := recoverRound_spec hp h (hok n mem_cons_self) (hseq n mem_cons_self)
    rw [foldl_cons, flatMap_cons, ← append_assoc]
    exact foldl_spec hp logs h1 (fun m hm => hok m (mem_cons_of_mem _ hm)) fun m hm => hseq m (mem_cons_of_mem _ hm)

/-- No log that fails is covered up: when the steps before the logs succeed and the log with the largest number is
replayed without an error, so are the others. -/
def NoneCoveredUp (options : Options) (crc : Crc32c) (dir : DbDir) : Prop :=
  beforeLogs dir = .ok → (∀ n, (logsToRecover dir).getLast? = some n → logStatus options crc (dir.log n) = .ok) →
    ∀ n ∈ logsToRecover dir, logStatus options crc (dir.log n) = .ok

/-- **`Recover` keeps what its OK promises, exactly when no log that fails is covered up** by a later one. The source
asserts that no sequence number is too large. -/
theorem recover_recoversAll_iff (options : Options) (crc : Crc32c) (dir : DbDir) (hp : options.paranoidChecks = true)
    (hseq : ∀ e ∈ allLogEntries crc dir, e.key.sequence ≤ kMaxSequenceNumber) :
    RecoversAll options crc dir ↔ NoneCoveredUp options crc dir := by
  have hseq' : ∀ n ∈ logsToRecover dir, ∀ e ∈ logEntries crc (dir.log n), e.key.sequence ≤ kMaxSequenceNumber := fun n hn e he =>
    hseq e (mem_flatMap.2 ⟨n, hn, he⟩)
  by_cases hb : beforeLogs dir = .ok
  · obtain ⟨r, hr⟩ : ∃ r, (logsToRecover dir).foldl (recoverRound options crc dir) (.ok, ⟨[], 0, dir.nextFileNumber⟩) = r := ⟨_, rfl⟩
    have hrec : recover options crc dir =
        (r.1, r.2, if r.1 = .ok ∧ dir.lastSequence < r.2.maxSequence then r.2.maxSequence else dir.lastSequence) := by
      rw [recover, if_neg (not_not.2 hb), hr]
    have hstatus : r.1 = ((logsToRecover dir).getLast?.map fun n => logStatus options crc (dir.log n)).getD .ok := by
      rw [← hr]
      exact foldl_status (logsToRecover dir) _
    constructor
    · intro hall _ hlast
      have hok : (recover options crc dir).1 = .ok := by
        rw [hrec]
        rw [hstatus]
        cases h : (logsToRecover dir).getLast? with
        | none => rfl
        | some n => exact hlast n h
      exact (hall hok).1
    · intro hnone hok
      rw [hrec] at hok
      have hall : ∀ n ∈ logsToRecover dir, logStatus options crc (dir.log n) = .ok := by
        apply hnone hb
        intro n hn
        rw [hstatus, hn] at hok
        exact hok
      have hso : RecoveredSo options [] (⟨[], 0, dir.nextFileNumber⟩ : Recovering) :=
        ⟨⟨List.Pairwise.nil, [], rfl, rfl⟩, fun t ht => absurd ht (by simp), fun e he => absurd he (by simp)⟩
      have hfin : RecoveredSo options _ ((logsToRecover dir).foldl (recoverRound options crc dir) (.ok, _)).2 :=
        foldl_spec hp (logsToRecover dir) hso hall hseq'
      rw [nil_append, hr] at hfin
      rw [hrec]
      refine ⟨hall, hfin.hold, fun e he => ?_⟩
      have hle := hfin.sequence e he
      dsimp only
      by_cases hlt : dir.lastSequence < r.2.maxSequence
      · rw [if_pos ⟨hok, hlt⟩]
        exact hle
      · rw [if_neg (fun h => hlt h.2)]
        omega
  · -- nothing is recovered, and nothing promised
    refine ⟨fun _ h => absurd h hb, fun _ hok => ?_⟩
    rw [recover, if_pos hb] at hok
    exact absurd hok hb

def damagedDir : DbDir where
  lockStatus := .ok
  currentExists := true
  createIfMissing := false
  errorIfExists := false
  newDbStatus := .ok
  versionsStatus := .ok
  logNumber := 5
  prevLogNumber := 0
  lastSequence := 0
  nextFileNumber := 6
  liveFiles := []
  childrenStatus := .ok
  children := [(7, .logFile), (5, .logFile), (2, .descriptorFile)]
  log n := ⟨.ok, if n = 5 then [0, 0, 0, 0, 255, 255, 1] else [], []⟩

def paranoidOptions : Options where
  paranoidChecks := true
  writeBufferSize := 4194304
  approximateMemoryUsage := List.length
  compare a b := decide (a.userKey < b.userKey ∨ a.userKey = b.userKey ∧ b.tag ≤ a.tag)

def writtenDir : DbDir :=
  { damagedDir with
    log := fun n => ⟨.ok, if n = 5 then writeLog crc32c [WriteBatch.put (WriteBatch.setSequence WriteBatch.clear 1) [107] [118]] else [], []⟩ }

theorem recover_recoversAll_written : RecoversAll paranoidOptions crc32c writtenDir ∧
    allLogEntries crc32c writtenDir = [⟨.pack [107] 1 .value, [118]⟩] :=
  ⟨(recover_recoversAll_iff paranoidOptions crc32c writtenDir rfl (by decide +kernel)).2 fun _ _ => by decide +kernel, by decide +kernel⟩

theorem recover_covers_up : (recover paranoidOptions crc32c damagedDir).1 = .ok ∧ 5 ∈ logsToRecover damagedDir ∧
    logStatus paranoidOptions crc32c (damagedDir.log 5) = .corruption "bad record length" ∧
    ¬RecoversAll paranoidOptions crc32c damagedDir := by
  refine ⟨by decide, by decide, by decide, fun h => ?_⟩
  have := (h (by decide)).1 5 (by decide)
  revert this
  decide

/-- A batch with the operations that it was built from, as it is given its number. -/
structure NumberedBatch where
  seq : ℕ
  batch : WriteBatch
  ops : List BatchOp
  built : WriteBatch.Built batch ops
  seq_lt : seq < 2 ^ 64
  short : ops.length < 2 ^ 31
  fits : ∀ op ∈ ops, WriteBatch.Fits op

def NumberedBatch.record (b : NumberedBatch) : Bytes := b.batch.setSequence b.seq

def NumberedBatch.entries (b : NumberedBatch) : List (Entry Bytes Bytes) := WriteBatch.memEntries b.seq b.ops

theorem NumberedBatch.recordEntries_eq (b : NumberedBatch) : recordEntries b.record = b.entries := by
  have hiter := WriteBatch.iterate_setSequence b.seq (b.built.iterate b.short b.fits)
  have hlen : ¬b.record.length < 12 := not_lt.2 (WriteBatch.iterate_ok hiter).1
  rw [recordEntries, if_neg hlen, WriteBatch.insertInto, NumberedBatch.record, hiter, WriteBatch.sequence_setSequence, Nat.mod_eq_of_lt b.seq_lt]
  rfl

theorem readLog_front (crc : Crc32c) (records : List Bytes) (m : ℕ) : ∃ j, (readLog crc ((writeLog crc records).take m)).1 = records.take j ∧
    ∀ i < records.length, recordEnd crc records i ≤ m → i < j := by
  by_cases hm : m < (writeLog crc records).length
  · rw [writeLog_eq_block] at hm ⊢
    obtain ⟨gs, g, hs, n, hsplit, hn, hmn, htake⟩ := take_layout (allFragments 0 records) kBlockSize hm
    obtain ⟨j, hj, -, hge⟩ := assemble_prefix records (Nat.zero_le kBlockSize) hsplit
    refine ⟨j, by rw [htake, readLog_cut records hsplit hn, hj], fun i hi hend => ?_⟩
    by_contra hij
    obtain ⟨t, ht⟩ := hge i (not_lt.1 hij) hi
    rw [recordEnd, writeLog_eq_block, ht, layout_append, layout, ← append_assoc (trailer _), length_append, length_append] at hend
    omega
  · exact ⟨records.length, by rw [take_of_length_le (not_lt.1 hm), readLog_writeLog, take_length], fun i hi _ => hi⟩

/-- **No batch is recovered in part.** Of a log that was cut off anywhere, a replay without an error puts the operations of the first batches into
tables, under the numbers that they were given, and those of every batch whose last fragment is in the file. -/
theorem cut_batches {options : Options} {crc : Crc32c} {bs : List NumberedBatch} {m : ℕ} {log : LogFile} {s : Recovering} (hopen : log.openStatus = .ok)
    (hfile : log.contents = (writeLog crc (bs.map NumberedBatch.record)).take m) (hok : (recoverLogFile options crc log s).1 = .ok) :
    ∃ j parts, parts.flatten = (bs.take j).flatMap NumberedBatch.entries ∧ Wrote options s parts (recoverLogFile options crc log s).2 ∧
      ∀ i < bs.length, recordEnd crc (bs.map NumberedBatch.record) i ≤ m → i < j := by
  obtain ⟨parts, hparts, hwrote⟩ := (recoverLogFile_entries hok (Or.inr hopen)).entries
  obtain ⟨j, hj, hend⟩ := readLog_front crc (bs.map NumberedBatch.record) m
  rw [length_map] at hend
  refine ⟨j, parts, ?_, hwrote, hend⟩
  have hrecords : logRecords crc log = (bs.take j).map NumberedBatch.record := by
    rw [map_take, ← hj, ← hfile]
    rfl
  rw [hparts, logEntries, if_pos hopen, hrecords, flatMap_map]
  exact congrArg (List.flatMap · _) (funext NumberedBatch.recordEntries_eq)

def putBatch : NumberedBatch where
  seq := 1
  batch := WriteBatch.put WriteBatch.clear [107] [118]
  ops := [.put [107] [118]]
  built := .put _ _ .clear
  seq_lt := by decide
  short := by decide
  fits := by simp [WriteBatch.Fits]

def cutLog : LogFile := ⟨.ok, (writeLog crc32c ([putBatch, putBatch].map NumberedBatch.record)).take 30, []⟩

theorem cut_batches_two : ∃ j parts, parts.flatten = ([putBatch, putBatch].take j).flatMap NumberedBatch.entries ∧
    Wrote { paranoidOptions with paranoidChecks := false } ⟨[], 0, 0⟩ parts
      (recoverLogFile { paranoidOptions with paranoidChecks := false } crc32c cutLog ⟨[], 0, 0⟩).2 ∧
      ∀ i < 2, recordEnd crc32c ([putBatch, putBatch].map NumberedBatch.record) i ≤ 30 → i < j :=
  cut_batches rfl rfl (by decide +kernel)

end KVStores.LevelDb
