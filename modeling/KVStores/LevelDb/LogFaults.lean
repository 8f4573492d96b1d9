import KVStores.LevelDb.RecoverLog
import KVStores.LevelDb.LogRoundTrip

/-!
# Writing on after a failed append

`DBImpl::Write` goes on with the same `log::Writer` after an `Append` failed. The writer counts
the bytes of a fragment whether they got through or not, so that its offset in the block may
no longer be that of the file (`InStep`).

* `runWrites_recovered`: **in a steady history, the replay of the log recovers each batch whose
  call returned an OK**, as a whole and in order.
-/

namespace KVStores.LevelDb

open List

open Log

/-- A call of `DBImpl::Write` by the head of the queue: what `BuildBatchGroup` returns, and how
`Sync` turns out, if it is called. -/
structure WriteCall where
  updates : WriteBatch
  sync : Bool
  syncStatus : Status

structure WriteState where
  log : Writer
  mem : List (Entry Bytes Bytes)
  lastSequence : ℕ

def numberedBatch (st : WriteState) (call : WriteCall) : WriteBatch := WriteBatch.setSequence call.updates (st.lastSequence + 1)

/-- `DBImpl::Write`, when there is room in the memtable. -/
def dbWrite (crc : Crc32c) (st : WriteState) (call : WriteCall) : Status × WriteState :=
  let updates := numberedBatch st call
  let lastSequence := ((st.lastSequence + WriteBatch.count updates) % 2 ^ 64).toNat
  let r := st.log.addRecord crc updates
  let status := if r.1 = .ok ∧ call.sync then call.syncStatus else r.1
  if status = .ok then
    ((WriteBatch.insertInto updates).2, ⟨r.2, st.mem ++ (WriteBatch.insertInto updates).1, lastSequence⟩)
  else (status, ⟨r.2, st.mem, lastSequence⟩)

@[grind =] def runWrites (crc : Crc32c) : WriteState → List WriteCall → List WriteBatch × WriteState
  | st, [] => ([], st)
  | st, call :: calls =>
    let r := dbWrite crc st call
    let rest := runWrites crc r.2 calls
    (if r.1 = .ok then numberedBatch st call :: rest.1 else rest.1, rest.2)

/-- The writer's offset in the block is that of the end of the file. -/
def InStep (w : Writer) : Prop := w.dest.contents.length % kBlockSize = w.blockOffset % kBlockSize

instance (w : Writer) : Decidable (InStep w) := inferInstanceAs (Decidable (_ = _))

/-- Each call finds the writer in step with the file, and so does its first fragment: the zeros
in front of it, if there are any, all get through. -/
@[grind =] def Steady (crc : Crc32c) : WriteState → List WriteCall → Prop
  | _, [] => True
  | st, call :: calls => InStep st.log ∧ InStep st.log.switchBlock ∧ Steady crc (dbWrite crc st call).2 calls

/-- The log with `file` in it, when nothing else fails. -/
def soundLog (file : Bytes) : LogFile := ⟨.ok, file, []⟩

/-- The replay of a file has the batches among its records, in order, and puts the entries of all
records into tables. -/
def Recovers (crc : Crc32c) (file : Bytes) (batches : List WriteBatch) : Prop :=
  batches.Sublist (logRecords crc (soundLog file)) ∧
  ∀ (options : Options) (s : Recovering), options.paranoidChecks = false →
    (recoverLogFile options crc (soundLog file) s).1 = .ok ∧
    ∃ parts, parts.flatten = (logRecords crc (soundLog file)).flatMap recordEntries ∧
      Wrote options s parts (recoverLogFile options crc (soundLog file) s).2

variable {crc : Crc32c}

variable {options : Options}

theorem noteReports_ignored (hp : options.paranoidChecks = false) (before after : Reader) (status : Status) :
    noteReports options before after status = status := by
  unfold noteReports
  induction after.reports.drop before.reports.length with
  | nil => rfl
  | cons report reports ih =>
    have hnote : noteCorruption options status report.2 = status := by rw [noteCorruption, if_neg (by simp [hp])]
    rw [foldl_cons, hnote, ih]

theorem maybeIgnoreError_ignored (hp : options.paranoidChecks = false) (s : Status) : maybeIgnoreError options s = .ok := by
  unfold maybeIgnoreError
  by_cases h : s = .ok
  · rw [if_pos (Or.inl h), h]
  · rw [if_neg (by simp [h, hp])]

/-- Without `paranoid_checks` only a table that cannot be written stops a replay. -/
theorem replayRecord_ignored (hp : options.paranoidChecks = false) (record : Bytes) {r : Replay}
    (hok : r.status = .ok) (hout : r.tableOutcomes = []) :
    ∃ r', replayRecord options record r = (r', true) ∧ r'.status = .ok ∧ r'.tableOutcomes = [] := by
  unfold replayRecord
  by_cases hsmall : record.length < 12
  · rw [if_pos hsmall]
    refine ⟨_, rfl, ?_, hout⟩
    rw [noteCorruption, if_neg (by simp [hp]), hok]
  · rw [if_neg hsmall]
    rw [maybeIgnoreError_ignored hp, if_neg (not_not.2 rfl)]
    by_cases hlarge : options.writeBufferSize < options.approximateMemoryUsage (r.mem.getD [] ++ (WriteBatch.insertInto record).1)
    · rw [if_pos hlarge]
      refine ⟨_, if_neg ?_, ?_, ?_⟩
      · rw [hout]
        exact not_not.2 rfl
      · rw [hout]; rfl
      · show r.tableOutcomes.tail = []
        rw [hout]; rfl
    · rw [if_neg hlarge]
      exact ⟨_, rfl, rfl, hout⟩

theorem recoverLoop_ignored {options : Options} (hp : options.paranoidChecks = false) : ∀ (fuel : ℕ) (reader : Reader) (r : Replay),
    r.status = .ok → r.tableOutcomes = [] →
    (recoverLoop options crc fuel reader r).status = .ok ∧ (recoverLoop options crc fuel reader r).tableOutcomes = [] := by
  intro fuel
  induction fuel with
  | zero =>
    intro reader r hok hout
    exact ⟨hok, hout⟩
  | succ fuel ih =>
    intro reader r hok hout
    rw [recoverLoop]
    cases reader.readRecord crc with
    | mk record reader' =>
      cases record with
      | none =>
        dsimp only
        rw [noteReports_ignored hp]
        exact ⟨hok, hout⟩
      | some record =>
        dsimp only
        rw [noteReports_ignored hp, if_neg (not_not.2 hok)]
        obtain ⟨r', hr', hok', hout'⟩ := replayRecord_ignored hp record hok hout
        rw [show ({ r with status := r.status } : Replay) = r from rfl, hr']
        exact ih reader' r' hok' hout'

theorem recoverLogFile_ignored (hp : options.paranoidChecks = false) (file : Bytes) (s : Recovering) :
    (recoverLogFile options crc (soundLog file) s).1 = .ok := by
  unfold recoverLogFile soundLog
  dsimp only
  obtain ⟨hok, hout⟩ := @recoverLoop_ignored crc _ hp ((Reader.new file true 0).remaining + 1) (Reader.new file true 0)
    ⟨.ok, none, [], s⟩ rfl rfl
  generalize recoverLoop options crc ((Reader.new file true 0).remaining + 1) (Reader.new file true 0) ⟨.ok, none, [], s⟩ = r at *
  cases r.mem with
  | none => exact hok
  | some mem =>
    dsimp only
    rw [if_pos hok]
    show r.tableOutcomes.headD .ok = .ok
    rw [hout]; rfl

theorem recovers_of_sublist {file : Bytes} {batches : List WriteBatch} (h : batches.Sublist (logRecords crc (soundLog file))) :
    Recovers crc file batches := by
  refine ⟨h, fun options s hp => ⟨recoverLogFile_ignored hp file s, ?_⟩⟩
  exact (recoverLogFile_entries (recoverLogFile_ignored hp file s) (Or.inr rfl)).entries

variable {fs gs : List Fragment} {o b : ℕ}

theorem fragments_start (h : start b = start o) (fuel : ℕ) (begin_ : Bool) (left : Bytes) :
    fragments fuel b begin_ left = fragments fuel o begin_ left := by
  cases fuel with
  | zero => rfl
  | succ fuel => rw [fragments, fragments, h]

theorem layout_length_mod : ∀ (fs : List Fragment) {o : ℕ}, o ≤ kBlockSize → Fits o fs →
    (o + (layout crc o fs).length) % kBlockSize = offsetAfter o fs % kBlockSize
  | [], _, _, _ => rfl
  | f :: fs, o, ho, hf => by
    have hrest := layout_length_mod fs hf.1 hf.2
    have htrail : (o + (trailer o).length) % kBlockSize = start o % kBlockSize := by
      unfold trailer start
      by_cases h : kBlockSize - o < kHeaderSize
      · rw [if_pos h, if_pos h, length_replicate, show o + (kBlockSize - o) = kBlockSize by omega, Nat.mod_self, Nat.zero_mod]
      · rw [if_neg h, if_neg h]; rfl
    rw [layout, offsetAfter, ← hrest, length_append, length_append, frame_length]
    rw [show o + ((trailer o).length + (kHeaderSize + f.2.length + (layout crc (start o + kHeaderSize + f.2.length) fs).length)) =
      (o + (trailer o).length) + (kHeaderSize + f.2.length + (layout crc (start o + kHeaderSize + f.2.length) fs).length) by omega,
      Nat.add_mod, htrail, ← Nat.add_mod]
    congr 1
    omega

/-- The writer goes on where the fragments of the file end, perhaps in the next block already. -/
structure Ready (crc : Crc32c) (w : Writer) (fs : List Fragment) : Prop where
  fits : Fits 0 fs
  offset : w.blockOffset ≤ kBlockSize
  same : start w.blockOffset = start (offsetAfter 0 fs)
  contents : ∃ t, w.dest.contents = layout crc 0 fs ++ t ∧ t ++ trailer w.blockOffset = trailer (offsetAfter 0 fs)

theorem ready_new (outcomes : List (Option ℕ)) : Ready crc (Writer.new ⟨[], outcomes⟩) [] :=
  ⟨trivial, Nat.zero_le _, rfl, [], rfl, rfl⟩

variable {w : Writer}

theorem Ready.extend (h : Ready crc w fs) (gs : List Fragment) :
    ∃ t, w.dest.contents ++ layout crc w.blockOffset gs = layout crc 0 (fs ++ gs) ++ t ∧
      t ++ trailer (offsetAfter w.blockOffset gs) = trailer (offsetAfter 0 (fs ++ gs)) ∧
      start (offsetAfter w.blockOffset gs) = start (offsetAfter 0 (fs ++ gs)) ∧
      (gs ≠ [] → t = [] ∧ offsetAfter w.blockOffset gs = offsetAfter 0 (fs ++ gs)) := by
  obtain ⟨t, hc, ht⟩ := h.contents
  cases gs with
  | nil =>
    rw [layout, append_nil, append_nil]
    exact ⟨t, hc, ht, h.same, fun hne => absurd rfl hne⟩
  | cons g gs =>
    have hoff : offsetAfter w.blockOffset (g :: gs) = offsetAfter 0 (fs ++ g :: gs) := by
      rw [offsetAfter_append, offsetAfter, offsetAfter, h.same]
    refine ⟨[], ?_, by rw [hoff, nil_append], by rw [hoff], fun _ => ⟨rfl, hoff⟩⟩
    rw [hc, layout_append, layout, layout, h.same, ← ht]
    simp only [append_assoc, append_nil]

theorem Ready.zeros (h : Ready crc w fs) (hstep : InStep w.switchBlock) :
    w.switchBlock.dest.contents = w.dest.contents ++ trailer w.blockOffset := by
  obtain ⟨hs, n, hn, hc, -⟩ := switchBlock_spec w
  obtain ⟨t, hcont, ht⟩ := h.contents
  have hlen := @layout_length_mod crc (fs ++ []) _ (Nat.zero_le kBlockSize) (by rw [append_nil]; exact h.fits)
  rw [append_nil, Nat.zero_add] at hlen
  have htrail : (offsetAfter 0 fs + (trailer (offsetAfter 0 fs)).length) % kBlockSize = start (offsetAfter 0 fs) % kBlockSize := by
    unfold trailer start
    by_cases h' : kBlockSize - offsetAfter 0 fs < kHeaderSize
    · have hle := offsetAfter_le fs (Nat.zero_le kBlockSize) h.fits
      rw [if_pos h', if_pos h', length_replicate, show offsetAfter 0 fs + (kBlockSize - offsetAfter 0 fs) = kBlockSize by omega,
        Nat.mod_self, Nat.zero_mod]
    · rw [if_neg h', if_neg h']; rfl
  have hsmall := trailer_length_lt (offsetAfter 0 fs)
  have hsum := congrArg List.length ht
  rw [length_append] at hsum
  unfold InStep at hstep
  rw [hs, hc, hcont, length_append, length_append, length_take, Nat.min_eq_left hn, h.same] at hstep
  have hfull : n = (trailer w.blockOffset).length := by
    unfold kHeaderSize at hsmall
    unfold kBlockSize at *
    omega
  rw [hc, hfull, take_length]

variable {record : Bytes}

theorem Ready.done (h : Ready crc w fs) (hstep : InStep w.switchBlock) (hok : (w.addRecord crc record).1 = .ok) :
    Ready crc (w.addRecord crc record).2 (fs ++ recordFragments (offsetAfter 0 fs) record) := by
  obtain ⟨hc, ho⟩ := (@addRecord_spec crc w record h.offset (h.zeros hstep)).done hok
  have hsame : recordFragments w.blockOffset record = recordFragments (offsetAfter 0 fs) record := fragments_start h.same _ true record
  have hne : recordFragments w.blockOffset record ≠ [] := by
    unfold recordFragments
    exact cons_ne_nil _ _
  have hle := offsetAfter_le fs (Nat.zero_le kBlockSize) h.fits
  have hfits : Fits 0 (fs ++ recordFragments w.blockOffset record) := by
    rw [fits_append, hsame]
    exact ⟨h.fits, recordFragments_fits hle record⟩
  obtain ⟨t, h1, -, -, h4⟩ := h.extend (recordFragments w.blockOffset record)
  obtain ⟨rfl, hoff⟩ := h4 hne
  rw [← hc] at h1
  rw [hoff] at ho
  rw [← hsame]
  exact ⟨hfits, by rw [ho]; exact offsetAfter_le _ (Nat.zero_le _) hfits, by rw [ho], [], h1, by rw [ho, nil_append]⟩

/-- A record that did not: some of its fragments did, and a part of the next one. The writer is in step only when that
part is all of it, or a whole block is missing. -/
theorem Ready.failed (h : Ready crc w fs) (hstep : InStep w.switchBlock) (hne : (w.addRecord crc record).1 ≠ .ok) :
    (∃ gs tail, Fits 0 (fs ++ gs) ∧ (w.addRecord crc record).2.dest.contents = layout crc 0 (fs ++ gs) ++ tail) ∧
    (InStep (w.addRecord crc record).2 → ∃ gs, Ready crc (w.addRecord crc record).2 (fs ++ gs)) := by
  obtain ⟨gs, g, hs, n, hsplit, hn, hc, ho⟩ := (@addRecord_spec crc w record h.offset (h.zeros hstep)).failed hne
  have hle := offsetAfter_le fs (Nat.zero_le kBlockSize) h.fits
  have hall : Fits 0 (fs ++ (gs ++ g :: hs)) := by
    rw [fits_append, ← hsplit]
    exact ⟨h.fits, by rw [show recordFragments w.blockOffset record = recordFragments (offsetAfter 0 fs) record from
      fragments_start h.same _ true record]; exact recordFragments_fits hle record⟩
  rw [← append_assoc, fits_append, Fits] at hall
  obtain ⟨hfits, hfit, -⟩ := hall
  obtain ⟨t, h1, h2, h3, -⟩ := h.extend gs
  -- the bytes of the file, from the fragments that got through on
  have hcont : (w.addRecord crc record).2.dest.contents =
      layout crc 0 (fs ++ gs) ++ (trailer (offsetAfter 0 (fs ++ gs)) ++ (frame crc g).take n) := by
    rw [hc, ← append_assoc, h1, ← h2]
    simp only [append_assoc]
  refine ⟨⟨gs, _, hfits, hcont⟩, fun hin => ?_⟩
  have hlen := @layout_length_mod crc (fs ++ gs ++ [g]) _ (Nat.zero_le kBlockSize) (by
    rw [fits_append, Fits]; exact ⟨hfits, hfit, trivial⟩)
  have hlayout : layout crc 0 (fs ++ gs ++ [g]) = layout crc 0 (fs ++ gs) ++ (trailer (offsetAfter 0 (fs ++ gs)) ++ frame crc g) := by
    rw [layout_append, layout, layout, append_nil]
  have hoff : offsetAfter 0 (fs ++ gs ++ [g]) = start (offsetAfter 0 (fs ++ gs)) + kHeaderSize + g.2.length := by
    rw [offsetAfter_append, offsetAfter, offsetAfter]
  rw [h3] at ho
  rw [hlayout, hoff, length_append, length_append] at hlen
  unfold InStep at hin
  rw [hcont, ho, length_append, length_append, length_take, Nat.min_eq_left hn] at hin
  rw [frame_length] at hlen hn
  have hcase : n = kHeaderSize + g.2.length ∨ n = 0 ∧ kHeaderSize + g.2.length = kBlockSize := by
    unfold kBlockSize at *
    omega
  rcases hcase with rfl | ⟨rfl, hblock⟩
  · -- the failure came behind the last byte
    refine ⟨gs ++ [g], ?_⟩
    rw [← append_assoc]
    refine ⟨by rw [fits_append, Fits]; exact ⟨hfits, hfit, trivial⟩, by rw [ho]; exact hfit, by rw [ho, hoff], [], ?_, ?_⟩
    · rw [hcont, hlayout, append_nil, ← @frame_length crc, take_length]
    · rw [ho, hoff, nil_append]
  · -- a whole block is missing: the next one begins at the same place
    have hzero : start (offsetAfter 0 (fs ++ gs)) = 0 := by omega
    have hend : (w.addRecord crc record).2.blockOffset = kBlockSize := by omega
    refine ⟨gs, hfits, le_of_eq hend, ?_, trailer (offsetAfter 0 (fs ++ gs)), ?_, ?_⟩
    · rw [hend, hzero]; rfl
    · rw [hcont, take_zero, append_nil]
    · rw [hend, show trailer kBlockSize = [] from rfl, append_nil]

theorem dbWrite_log (st : WriteState) (call : WriteCall) :
    (dbWrite crc st call).2.log = (st.log.addRecord crc (numberedBatch st call)).2 := by
  unfold dbWrite
  dsimp only
  generalize (if (st.log.addRecord crc (numberedBatch st call)).1 = .ok ∧ call.sync = true then call.syncStatus
    else (st.log.addRecord crc (numberedBatch st call)).1) = status
  by_cases h : status = .ok
  · rw [if_pos h]
  · rw [if_neg h]

theorem dbWrite_ok {st : WriteState} {call : WriteCall} (h : (dbWrite crc st call).1 = .ok) :
    (st.log.addRecord crc (numberedBatch st call)).1 = .ok := by
  by_contra hne
  have hst : (if (st.log.addRecord crc (numberedBatch st call)).1 = .ok ∧ call.sync = true then call.syncStatus
      else (st.log.addRecord crc (numberedBatch st call)).1) ≠ .ok := by
    rw [if_neg (fun hc => hne hc.1)]
    exact hne
  unfold dbWrite at h
  rw [if_neg hst] at h
  exact hst h

/-- The file behind a steady history: fragments that make up the batches that were acknowledged, and others. -/
theorem runWrites_layout : ∀ (calls : List WriteCall) {st : WriteState} {fs : List Fragment}, Ready crc st.log fs → Steady crc st calls →
    ∃ gs tail l, Fits 0 (fs ++ gs) ∧ (runWrites crc st calls).2.log.dest.contents = layout crc 0 (fs ++ gs) ++ tail ∧
      assemble none (fs ++ gs) = assemble none fs ++ l ∧ (runWrites crc st calls).1.Sublist l := by
  intro calls
  induction calls with
  | nil =>
    intro st fs h _
    obtain ⟨t, hc, -⟩ := h.contents
    refine ⟨[], t, [], ?_, ?_, ?_, List.Sublist.refl _⟩
    · rw [append_nil]; exact h.fits
    · rw [append_nil]; exact hc
    · rw [append_nil, append_nil]
  | cons call calls ih =>
    intro st fs h hsteady
    obtain ⟨-, hswitch, hrest⟩ := hsteady
    rw [runWrites]
    by_cases hok : (st.log.addRecord crc (numberedBatch st call)).1 = .ok
    · -- the record is there, and the history goes on behind it
      have hdone := h.done hswitch hok
      rw [← dbWrite_log] at hdone
      obtain ⟨gs, tail, l, hfits, hcont, hasm, hsub⟩ := ih hdone hrest
      obtain ⟨h1, h2, -⟩ := assemble_fragments (offsetAfter_le fs (Nat.zero_le kBlockSize) h.fits) (numberedBatch st call) (pending none fs)
      rw [append_assoc] at hfits hcont hasm
      refine ⟨recordFragments (offsetAfter 0 fs) (numberedBatch st call) ++ gs, tail, numberedBatch st call :: l, hfits, hcont, ?_, ?_⟩
      · rw [hasm, assemble_append, h1, append_assoc]; rfl
      · split
        · exact hsub.cons_cons _
        · exact hsub.cons _
    · have hst : ¬(dbWrite crc st call).1 = .ok := fun hc => hok (dbWrite_ok hc)
      rw [if_neg hst]
      obtain ⟨⟨gs, tail, hfits, hcont⟩, hready⟩ := h.failed hswitch hok
      cases calls with
      | nil =>
        refine ⟨gs, tail, assemble (pending none fs) gs, hfits, ?_, assemble_append fs none, nil_sublist _⟩
        show (dbWrite crc st call).2.log.dest.contents = _
        rw [dbWrite_log, hcont]
      | cons call' calls =>
        -- the next call finds the writer in step, so that nothing is missing
        have hin : InStep (dbWrite crc st call).2.log := hrest.1
        rw [dbWrite_log] at hin
        obtain ⟨gs, hgs⟩ := hready hin
        rw [← dbWrite_log] at hgs
        obtain ⟨gs', tail, l, hfits, hcont, hasm, hsub⟩ := ih hgs hrest
        rw [append_assoc] at hfits hcont hasm
        refine ⟨gs ++ gs', tail, assemble (pending none fs) gs ++ l, hfits, hcont, ?_, hsub.trans (sublist_append_right _ _)⟩
        rw [hasm, assemble_append, append_assoc]

theorem runWrites_recovered (crc : Crc32c) (outcomes : List (Option ℕ)) (lastSequence : ℕ) (calls : List WriteCall)
    (hsteady : Steady crc ⟨Writer.new ⟨[], outcomes⟩, [], lastSequence⟩ calls) :
    Recovers crc (runWrites crc ⟨Writer.new ⟨[], outcomes⟩, [], lastSequence⟩ calls).2.log.dest.contents
      (runWrites crc ⟨Writer.new ⟨[], outcomes⟩, [], lastSequence⟩ calls).1 := by
  obtain ⟨gs, tail, l, hfits, hcont, hasm, hsub⟩ := runWrites_layout calls (ready_new outcomes) hsteady
  apply recovers_of_sublist
  rw [nil_append] at hfits hcont hasm
  rw [show assemble none ([] : List Fragment) ++ l = l from rfl] at hasm
  have hat := Reader.at_new (layout crc 0 gs ++ tail) true
  rw [← layout_block] at hat
  obtain ⟨l', r', n, n', p', -, -, -, heq, hl, -⟩ := readFrom_layout gs (p := 0) hat ((fits_block gs).2 hfits) (Nat.lt_succ_self _) le_rfl
  rw [layout_block] at heq
  have hrecords : logRecords crc (soundLog (layout crc 0 gs ++ tail)) = l ++ (readFrom crc n n' (pending none gs) p' r').1.map Prod.fst := by
    unfold logRecords soundLog
    rw [readAll_eq (Reader.at_new _ true), heq]
    dsimp only
    rw [map_append, hl, hasm]
  rw [hcont, hrecords]
  exact hsub.trans (sublist_append_left _ _)

def twoWrites (outcomes : List (Option ℕ)) : List WriteBatch × WriteState :=
  runWrites crc32c ⟨Writer.new ⟨[], outcomes⟩, [], 0⟩
    [⟨WriteBatch.put WriteBatch.clear [107] (List.replicate 40 118), false, .ok⟩, ⟨WriteBatch.put WriteBatch.clear [107] [119], false, .ok⟩]

theorem runWrites_recovered_flush : (twoWrites [none, none, some 0]).1.length = 1 ∧
    Recovers crc32c (twoWrites [none, none, some 0]).2.log.dest.contents (twoWrites [none, none, some 0]).1 :=
  ⟨by decide, runWrites_recovered crc32c [none, none, some 0] 0 _
    ⟨by decide, by decide, by decide, by decide, trivial⟩⟩

theorem runWrites_loses : (twoWrites [some 6]).1.length = 1 ∧ logRecords crc32c (soundLog (twoWrites [some 6]).2.log.dest.contents) = [] ∧
    ¬Recovers crc32c (twoWrites [some 6]).2.log.dest.contents (twoWrites [some 6]).1 := by
  have hone : (twoWrites [some 6]).1.length = 1 := by decide
  have hnil : logRecords crc32c (soundLog (twoWrites [some 6]).2.log.dest.contents) = [] := by decide
  refine ⟨hone, hnil, fun h => ?_⟩
  have hlen := h.1.length_le
  exact absurd hlen (by decide)

end KVStores.LevelDb
