import KVStores.LevelDb.VersionSet

/-!
# Recovering a version set

* `recover_logAndApply`: **behind a call of `LogAndApply` that succeeds, `Recover` makes the same
  version set of the MANIFEST**, but for pointers that `SetupOtherInputs` has moved since.
-/

namespace KVStores.LevelDb

open List Option Function

variable {K : Type}

theorem applyPointers_not_mem (edit : VersionEdit K) (level : ℕ) (h : level ∉ edit.compactPointers.map Prod.fst)
    (pointers : ℕ → Option (InternalKey K)) : applyPointers pointers edit level = pointers level := by
  unfold applyPointers
  generalize edit.compactPointers = ps at h
  induction ps generalizing pointers with
  | nil => rfl
  | cons p ps ih =>
    rw [map_cons, mem_cons, not_or] at h
    rw [foldl_cons, ih _ h.2, update_of_ne h.1]

theorem applyPointers_congr (edit : VersionEdit K) (level : ℕ) {p q : ℕ → Option (InternalKey K)}
    (h : p level = q level ∨ level ∈ edit.compactPointers.map Prod.fst) : applyPointers p edit level = applyPointers q edit level := by
  unfold applyPointers
  generalize edit.compactPointers = ps at h
  induction ps generalizing p q with
  | nil => exact h.resolve_right not_mem_nil
  | cons a ps ih =>
    rw [foldl_cons, foldl_cons]
    apply ih
    by_cases ha : level = a.1
    · left
      rw [ha, update_self, update_self]
    · rw [update_of_ne ha, update_of_ne ha]
      refine h.imp id fun hm => ?_
      rw [map_cons, mem_cons] at hm
      exact hm.resolve_left ha

theorem applyPointers_twice (edit : VersionEdit K) (level : ℕ) (pointers : ℕ → Option (InternalKey K)) :
    applyPointers (applyPointers pointers edit) edit level = applyPointers pointers edit level := by
  by_cases h : level ∈ edit.compactPointers.map Prod.fst
  · exact applyPointers_congr edit level (Or.inr h)
  · exact applyPointers_not_mem edit level h _

namespace VersionSet

theorem snapshot_pointers (pointers : ℕ → Option (InternalKey K)) (level : ℕ) : ∀ (levels : List ℕ) (p : ℕ → Option (InternalKey K)),
    (p level = pointers level ∨ p level = none ∧ level ∈ levels) →
    (levels.filterMap fun level => (pointers level).map fun key => (level, key)).foldl
      (fun p (a : ℕ × InternalKey K) => Function.update p a.1 (some a.2)) p level = pointers level
  | [], p, h => h.resolve_right fun hc => (not_mem_nil hc.2).elim
  | l :: levels, p, h => by
    cases hl : pointers l with
    | none =>
      rw [filterMap_cons_none (by rw [hl]; rfl)]
      refine snapshot_pointers pointers level levels p ?_
      rcases h with h | ⟨h, hm⟩
      · exact Or.inl h
      · rcases mem_cons.1 hm with rfl | hm
        · exact Or.inl (by rw [h, hl])
        · exact Or.inr ⟨h, hm⟩
    | some key =>
      rw [filterMap_cons_some (by rw [hl]; rfl), foldl_cons]
      apply snapshot_pointers
      by_cases hlev : level = l
      · left
        rw [hlev, update_self, hl]
      · rw [update_of_ne hlev]
        exact h.imp id fun hc => ⟨hc.1, (mem_cons.1 hc.2).resolve_left hlev⟩

theorem snapshot_newAt (v : Version K) (level : ℕ) : ∀ (levels : List ℕ), levels.Nodup →
    (((levels.flatMap fun level => (v level).map fun f => (level, f)).filter fun p => decide (p.1 = level)).map Prod.snd) =
      if level ∈ levels then v level else []
  | [], _ => rfl
  | l :: levels, h => by
    obtain ⟨hl, hn⟩ := nodup_cons.1 h
    rw [flatMap_cons, filter_append, map_append, snapshot_newAt v level levels hn]
    by_cases hlev : level = l
    · subst hlev
      rw [if_neg hl, if_pos mem_cons_self, append_nil, filter_eq_self.2, List.map_map]
      · exact List.map_id' _
      · intro p hp
        obtain ⟨f, -, rfl⟩ := List.mem_map.1 hp
        exact decide_eq_true rfl
    · have hnil : ((v l).map fun f => (l, f)).filter (fun p => decide (p.1 = level)) = [] := by
        refine filter_eq_nil_iff.2 fun p hp => ?_
        obtain ⟨f, -, rfl⟩ := List.mem_map.1 hp
        simpa using Ne.symm hlev
      rw [hnil, map_nil, nil_append]
      by_cases hm : level ∈ levels
      · rw [if_pos hm, if_pos (mem_cons_of_mem _ hm)]
      · rw [if_neg hm, if_neg (by rw [mem_cons, not_or]; exact ⟨hlev, hm⟩)]

end VersionSet

namespace VersionRun

variable [LinearOrder K]

open VersionSet Builder

/-- All numbers in use are below `n`. -/
structure UsedBelow (vs : VersionSet K) (n : ℕ) : Prop where
  files : ∀ level, ∀ f ∈ vs.current level, f.number < n
  log : vs.logNumber < n
  prevLog : vs.prevLogNumber < n
  manifest : vs.manifestFileNumber < n

/-- The files and the pointers of a recovery are those of a version set, but for the levels in `picked`. -/
structure RecoversFiles (files : ℕ → FileMetaData K) (st : VersionRun K) (r : Recovery K) : Prop where
  fromNothing : FromNothing files r.builder
  current : r.builder.saveTo = st.set.current
  pointers : ∀ level < kNumLevels, level ∉ st.picked → r.compactPointer level = st.set.compactPointer level

/-- The log numbers are those of the version set, too. -/
structure Recovers (files : ℕ → FileMetaData K) (st : VersionRun K) (r : Recovery K) : Prop extends RecoversFiles files st r where
  logNumber : r.logNumber = some st.set.logNumber
  prevLogNumber : r.prevLogNumber = some st.set.prevLogNumber

/-- The state of `Recover` in front of the first record. -/
def recoveryStart : Recovery K := ⟨Builder.new fun _ => [], fun _ => none, none, none, none, none⟩

def Manifested (files : ℕ → FileMetaData K) (name : String) (st : VersionRun K) : Prop :=
  ∀ records, st.set.manifest = some records → ∃ r, recoverRecords name recoveryStart records = .ok r ∧ Recovers files st r

structure Sound (files : ℕ → FileMetaData K) (name : String) (st : VersionRun K) : Prop where
  sorted : ∀ level, KeySorted bySmallestKey (st.set.current level) ∧ OneFile files (st.set.current level)
  levels : ∀ level, ¬level < kNumLevels → st.set.current level = []
  used : UsedBelow st.set st.set.nextFileNumber
  manifested : Manifested files name st

variable {files : ℕ → FileMetaData K} {name : String} {st : VersionRun K} {edit : VersionEdit K} {o : ApplyOutcome}

theorem recoverRecords_append : ∀ (xs : List (VersionEdit K)) {r r' : Recovery K} (ys : List (VersionEdit K)),
    recoverRecords name r xs = .ok r' → recoverRecords name r (xs ++ ys) = recoverRecords name r' ys
  | [], r, r', ys, h => by
    obtain rfl := Except.ok.inj h
    rfl
  | x :: xs, r, r', ys, h => by
    rw [cons_append, recoverRecords]
    rw [recoverRecords] at h
    cases hx : recoverRecord name r x with
    | error s =>
      rw [hx] at h
      cases h
    | ok r₁ =>
      rw [hx] at h
      exact recoverRecords_append xs ys h

theorem logAndApply_ok (h : (st.set.logAndApply name edit o).1 = .ok) : (st.set.logAndApply name edit o).2 = { st.set with
        compactPointer := applyPointers st.set.compactPointer edit
        current := ((Builder.new st.set.current).apply (fillEdit st.set edit)).saveTo
        logNumber := edit.logNumber.getD st.set.logNumber
        prevLogNumber := edit.prevLogNumber.getD st.set.prevLogNumber
        manifest := some (st.set.manifest.getD
          [writeSnapshot name { st.set with compactPointer := applyPointers st.set.compactPointer edit }] ++ [fillEdit st.set edit]) } := by
  unfold logAndApply at h ⊢
  by_cases hs : applyStatus st.set.manifest.isNone o = .ok
  · rw [if_pos hs]
    rfl
  · rw [if_neg hs] at h
    exact absurd h hs

variable {vs : VersionSet K}

theorem recoverRecord_fill {r : Recovery K} {picked : List ℕ} {vs : VersionSet K} (h : RecoversFiles files ⟨vs, picked⟩ r)
    (hfresh : Fresh files vs.current edit) (hname : edit.comparator = none) :
    ∃ r', recoverRecord name r (fillEdit vs edit) = .ok r' ∧ FromNothing files r'.builder ∧
      r'.builder.saveTo = ((Builder.new vs.current).apply (fillEdit vs edit)).saveTo ∧
      (∀ level < kNumLevels, level ∉ picked ∨ level ∈ edit.compactPointers.map Prod.fst →
        r'.compactPointer level = applyPointers vs.compactPointer edit level) ∧
      r'.logNumber = some (edit.logNumber.getD vs.logNumber) ∧ r'.prevLogNumber = some (edit.prevLogNumber.getD vs.prevLogNumber) ∧
      r'.nextFile = some vs.nextFileNumber ∧ r'.lastSequence = some vs.lastSequence := by
  unfold recoverRecord
  rw [if_pos (by unfold fillEdit; dsimp only; rw [hname]; rfl)]
  refine ⟨_, rfl, h.fromNothing.apply fun level => (hfresh level).1, ?_, fun level hlevel hl => ?_, rfl, rfl, rfl, rfl⟩
  · have hcur : r.builder.saveTo = vs.current := h.current
    have hfresh' : Fresh files r.builder.saveTo (fillEdit vs edit) := by
      rw [hcur]
      exact hfresh
    rw [apply_saveTo h.fromNothing hfresh', hcur]
  · apply applyPointers_congr edit level
    exact hl.imp (fun hl => h.pointers level hlevel hl) id

theorem recoverRecord_snapshot {vs : VersionSet K} (hsorted : ∀ level, KeySorted bySmallestKey (vs.current level) ∧ OneFile files (vs.current level))
    (hlevels : ∀ level, ¬level < kNumLevels → vs.current level = []) :
    ∃ r, recoverRecord name recoveryStart (writeSnapshot name vs) = .ok r ∧ RecoversFiles files ⟨vs, []⟩ r := by
  have hnew : ∀ level, (writeSnapshot name vs).newAt level = vs.current level := by
    intro level
    unfold VersionEdit.newAt writeSnapshot
    rw [snapshot_newAt vs.current level _ nodup_range]
    by_cases hl : level < kNumLevels
    · rw [if_pos (mem_range.2 hl)]
    · rw [if_neg (fun hc => hl (mem_range.1 hc)), hlevels level hl]
  have hone : ∀ level, OneFile files ((writeSnapshot name vs).newAt level) := fun level => by
    rw [hnew]
    exact (hsorted level).2
  unfold recoverRecord
  rw [if_pos (by unfold writeSnapshot; simp)]
  refine ⟨_, rfl, (FromNothing.new files).apply hone, ?_, fun level hlevel _ => ?_⟩
  · funext level
    by_cases hl : level < kNumLevels
    · obtain ⟨h1, h2⟩ := @new_apply_saveTo _ _ (writeSnapshot name vs) level files (fun _ => []) List.Pairwise.nil
        (fun level => ⟨hone level, fun f _ g hg => (not_mem_nil hg).elim⟩) hl
      refine h1.ext (hsorted level).1 fun f => ?_
      rw [h2, hnew]
      simp
    · rw [hlevels level hl]
      exact if_neg hl
  · refine snapshot_pointers vs.compactPointer level _ _ (Or.inr ⟨rfl, mem_range.2 hlevel⟩)

theorem mem_logAndApply (h : Sound files name st) (hfresh : Fresh files st.set.current edit) (level : ℕ) :
    KeySorted bySmallestKey (((Builder.new st.set.current).apply (fillEdit st.set edit)).saveTo level) ∧
    ∀ f ∈ ((Builder.new st.set.current).apply (fillEdit st.set edit)).saveTo level, f ∈ edit.newAt level ∨ f ∈ st.set.current level := by
  by_cases hl : level < kNumLevels
  · obtain ⟨h1, h2⟩ := @new_apply_saveTo _ _ (fillEdit st.set edit) _ _ _ (h.sorted level).1 hfresh hl
    exact ⟨h1, fun f hf => ((h2 f).1 hf).imp id fun hc => hc.1⟩
  · unfold saveTo
    rw [if_neg hl]
    exact ⟨List.Pairwise.nil, fun f hf => (not_mem_nil hf).elim⟩

/-- **Behind a call that succeeds the MANIFEST stands for the version set**, with the file number and the sequence number
that the set had then. -/
theorem logAndApply_recovers (h : Sound files name st) (hlegal : Legal files name st (.logAndApply edit o)) :
    ∃ records r, (st.step name (.logAndApply edit o)).set.manifest = some records ∧ recoverRecords name recoveryStart records = .ok r ∧
      Recovers files (st.step name (.logAndApply edit o)) r ∧ r.nextFile = some st.set.nextFileNumber ∧
      r.lastSequence = some st.set.lastSequence := by
  obtain ⟨hok, hname, hfresh, -⟩ := hlegal
  have hset := logAndApply_ok hok
  -- the records before the edit, and what they stand for
  obtain ⟨base, r₀, picked, pointers, hbase, hr₀, hrec₀, hpicked⟩ : ∃ base r₀ picked pointers,
      st.set.manifest.getD [writeSnapshot name { st.set with compactPointer := applyPointers st.set.compactPointer edit }] = base ∧
      recoverRecords name recoveryStart base = .ok r₀ ∧ RecoversFiles files ⟨{ st.set with compactPointer := pointers }, picked⟩ r₀ ∧
      ∀ level, level ∉ (st.step name (.logAndApply edit o)).picked → (level ∉ picked ∨ level ∈ edit.compactPointers.map Prod.fst) ∧
        applyPointers pointers edit level = applyPointers st.set.compactPointer edit level := by
    cases hm : st.set.manifest with
    | none =>
      obtain ⟨r, hr, hfiles⟩ := @recoverRecord_snapshot _ _ files name
        ({ st.set with compactPointer := applyPointers st.set.compactPointer edit }) h.sorted h.levels
      refine ⟨_, r, [], applyPointers st.set.compactPointer edit, rfl, ?_, hfiles, fun level _ =>
        ⟨Or.inl not_mem_nil, applyPointers_twice edit level _⟩⟩
      rw [getD_none, recoverRecords, hr]
      rfl
    | some records =>
      obtain ⟨r, hr, hrec⟩ := h.manifested records hm
      refine ⟨records, r, st.picked, st.set.compactPointer, rfl, hr, hrec.toRecoversFiles, fun level hl => ⟨?_, rfl⟩⟩
      by_contra hcon
      rw [not_or, not_not] at hcon
      apply hl
      unfold step
      dsimp only
      rw [hm, if_neg (show ¬(some records).isNone = true from Bool.false_ne_true)]
      exact mem_filter.2 ⟨hcon.1, decide_eq_true hcon.2⟩
  obtain ⟨r, hr, hnothing, hcur, hptr, hlog, hprev, hnext, hlast⟩ := @recoverRecord_fill _ _ _ name _ _ _ _ hrec₀ hfresh hname
  refine ⟨base ++ [fillEdit st.set edit], r, ?_, ?_, ⟨⟨hnothing, ?_, fun level hlevel hl => ?_⟩, ?_, ?_⟩, hnext, hlast⟩
  · unfold step
    dsimp only
    rw [hset, ← hbase]
  · rw [recoverRecords_append base _ hr₀, recoverRecords]
    have hr' : recoverRecord name r₀ (fillEdit st.set edit) = .ok r := hr
    rw [hr']
    rfl
  · unfold step
    dsimp only
    rw [hset]
    exact hcur
  · obtain ⟨h1, h2⟩ := hpicked level hl
    rw [hptr level hlevel h1, h2]
    unfold step
    dsimp only
    rw [hset]
  · unfold step
    dsimp only
    rw [hset]
    exact hlog
  · unfold step
    dsimp only
    rw [hset]
    exact hprev

theorem logAndApply_sound (h : Sound files name st) (hlegal : Legal files name st (.logAndApply edit o)) :
    Sound files name (st.step name (.logAndApply edit o)) := by
  obtain ⟨records, r, hm, hr, hrec, -⟩ := logAndApply_recovers h hlegal
  obtain ⟨hok, -, hfresh, hnew, hlog, hprev⟩ := hlegal
  have hset := logAndApply_ok hok
  have hcur : (st.step name (.logAndApply edit o)).set = { st.set with
        compactPointer := applyPointers st.set.compactPointer edit
        current := ((Builder.new st.set.current).apply (fillEdit st.set edit)).saveTo
        logNumber := edit.logNumber.getD st.set.logNumber
        prevLogNumber := edit.prevLogNumber.getD st.set.prevLogNumber
        manifest := some (st.set.manifest.getD
          [writeSnapshot name { st.set with compactPointer := applyPointers st.set.compactPointer edit }] ++ [fillEdit st.set edit]) } := hset
  have hbelow : ∀ {a : Option ℕ} {b : ℕ}, (∀ n ∈ a, n < st.set.nextFileNumber) → b < st.set.nextFileNumber → a.getD b < st.set.nextFileNumber := by
    intro a b ha hb
    cases a with
    | none => exact hb
    | some n => exact ha n rfl
  refine ⟨fun level => ?_, fun level hl => ?_, ?_, fun records' hm' => ?_⟩
  · rw [hcur]
    obtain ⟨h1, h2⟩ := mem_logAndApply h hfresh level
    refine ⟨h1, fun f hf => ?_⟩
    rcases h2 f hf with hf | hf
    · exact (hfresh level).1 f hf
    · exact (h.sorted level).2 f hf
  · rw [hcur]
    exact if_neg hl
  · rw [hcur]
    refine ⟨fun level f hf => ?_, hbelow hlog h.used.log, hbelow hprev h.used.prevLog, h.used.manifest⟩
    rcases (mem_logAndApply h hfresh level).2 f hf with hf | hf
    · exact hnew _ (mem_newAt.1 hf)
    · exact h.used.files level f hf
  · rw [hm] at hm'
    obtain rfl := Option.some.inj hm'
    exact ⟨r, hr, hrec⟩

omit [LinearOrder K] in
theorem UsedBelow.mono {n m : ℕ} (h : UsedBelow vs n) (hnm : n ≤ m) : UsedBelow vs m :=
  ⟨fun level f hf => lt_of_lt_of_le (h.files level f hf) hnm, lt_of_lt_of_le h.log hnm, lt_of_lt_of_le h.prevLog hnm,
    lt_of_lt_of_le h.manifest hnm⟩

omit [LinearOrder K] in
theorem UsedBelow.reuse {n : ℕ} (h : UsedBelow vs (n + 1)) (hn : Unused vs n) : UsedBelow vs n :=
  ⟨fun level f hf => lt_of_le_of_ne (Nat.le_of_lt_succ (h.files level f hf)) (hn.1 level f hf),
    lt_of_le_of_ne (Nat.le_of_lt_succ h.log) hn.2.1, lt_of_le_of_ne (Nat.le_of_lt_succ h.prevLog) hn.2.2.1,
    lt_of_le_of_ne (Nat.le_of_lt_succ h.manifest) hn.2.2.2⟩

theorem sound_numbers (h : Sound files name st) {n s : ℕ} (hn : UsedBelow st.set n) :
    Sound files name ⟨{ st.set with nextFileNumber := n, lastSequence := s }, st.picked⟩ := by
  refine ⟨h.sorted, h.levels, ⟨hn.files, hn.log, hn.prevLog, hn.manifest⟩, fun records hm => ?_⟩
  obtain ⟨r, hr, hrec⟩ := h.manifested records hm
  exact ⟨r, hr, ⟨⟨hrec.fromNothing, hrec.current, hrec.pointers⟩, hrec.logNumber, hrec.prevLogNumber⟩⟩

theorem step_sound (h : Sound files name st) {ev : SetEvent K} (hlegal : Legal files name st ev) : Sound files name (st.step name ev) := by
  cases ev with
  | newFileNumber => exact sound_numbers h (h.used.mono (Nat.le_succ _))
  | reuseFileNumber n =>
    refine sound_numbers h ?_
    by_cases hn : st.set.nextFileNumber = n + 1
    · rw [if_pos hn]
      exact UsedBelow.reuse (hn ▸ h.used) hlegal
    · rw [if_neg hn]
      exact h.used
  | markFileNumberUsed n =>
    unfold step VersionSet.markFileNumberUsed
    dsimp only
    by_cases hn : st.set.nextFileNumber ≤ n
    · rw [if_pos hn]
      exact sound_numbers h (h.used.mono (le_trans hn (Nat.le_succ n)))
    · rw [if_neg hn]
      exact h
  | setLastSequence s => exact sound_numbers h h.used
  | pickCompaction level largest =>
    refine ⟨h.sorted, h.levels, ⟨h.used.files, h.used.log, h.used.prevLog, h.used.manifest⟩, fun records hm => ?_⟩
    obtain ⟨r, hr, hrec⟩ := h.manifested records hm
    refine ⟨r, hr, ⟨⟨hrec.fromNothing, hrec.current, fun l hl hp => ?_⟩, hrec.logNumber, hrec.prevLogNumber⟩⟩
    have hp : l ∉ level :: st.picked := hp
    rw [mem_cons, not_or] at hp
    unfold step
    dsimp only
    rw [update_of_ne hp.1]
    exact hrec.pointers l hl hp.2
  | logAndApply edit o => exact logAndApply_sound h hlegal

theorem run_sound : ∀ (evs : List (SetEvent K)) {st : VersionRun K}, Sound files name st → LegalRun files name st evs →
    Sound files name (st.run name evs)
  | [], _, h, _ => h
  | _ :: evs, _, h, ⟨hev, hevs⟩ => run_sound evs (step_sound h hev) hevs

/-- What a database is opened with: sorted files, numbers in use that are below the next one, and no MANIFEST yet. -/
structure Opened (files : ℕ → FileMetaData K) (vs : VersionSet K) : Prop where
  sorted : ∀ level, KeySorted bySmallestKey (vs.current level) ∧ OneFile files (vs.current level)
  levels : ∀ level, ¬level < kNumLevels → vs.current level = []
  used : UsedBelow vs vs.nextFileNumber
  manifest : vs.manifest = none

theorem Opened.sound (h : Opened files vs) (name : String) (picked : List ℕ) : Sound files name ⟨vs, picked⟩ :=
  ⟨h.sorted, h.levels, h.used, fun records hm => by
    rw [h.manifest] at hm
    cases hm⟩

theorem opened_new (files : ℕ → FileMetaData K) : Opened files (VersionSet.new : VersionSet K) :=
  ⟨fun _ => ⟨List.Pairwise.nil, fun _ hf => (not_mem_nil hf).elim⟩, fun _ _ => rfl,
    ⟨fun _ _ hf => (not_mem_nil hf).elim, Nat.zero_lt_two, Nat.zero_lt_two, Nat.zero_lt_two⟩, rfl⟩

/-- The two version sets have the same files, logs and sequence number, and the same pointers but for the levels in
`picked`; the next file number of the second is larger than all that are in use. -/
structure SameSet (picked : List ℕ) (vs vs' : VersionSet K) : Prop where
  current : vs'.current = vs.current
  logNumber : vs'.logNumber = vs.logNumber
  prevLogNumber : vs'.prevLogNumber = vs.prevLogNumber
  lastSequence : vs'.lastSequence = vs.lastSequence
  pointers : ∀ level < kNumLevels, level ∉ picked → vs'.compactPointer level = vs.compactPointer level
  nextFile : UsedBelow vs vs'.nextFileNumber ∧ UsedBelow vs' vs'.nextFileNumber

def twoFiles (n : ℕ) : FileMetaData ℕ := ⟨n, 100, .pack (10 * (n - 1)) 5 .value, .pack (10 * (n - 1) + 9) 6 .value⟩

/-- All that `LogAndApply` calls succeeds. -/
def allOk : ApplyOutcome := ⟨.ok, .ok, .ok, false, .ok⟩

def flushEdit (number : ℕ) : VersionEdit ℕ := { (VersionEdit.clear : VersionEdit ℕ) with newFiles := [(0, twoFiles number)], prevLogNumber := some 0 }

def moveEdit (number : ℕ) : VersionEdit ℕ :=
  { (VersionEdit.clear : VersionEdit ℕ) with
    compactPointers := [(0, (twoFiles number).largest)], deletedFiles := [(0, number)], newFiles := [(1, twoFiles number)] }

end VersionRun

end KVStores.LevelDb
