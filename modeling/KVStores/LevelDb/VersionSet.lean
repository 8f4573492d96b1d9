import KVStores.LevelDb.VersionEdit

/-!
# The version set

`VersionSet::LogAndApply` makes the next version and writes its edit to the MANIFEST;
`VersionSet::Recover` makes a version of all that is in the MANIFEST (`version_set.cc`). The
records of a MANIFEST are edits here, as `DecodeFrom` gives them back.
-/

namespace KVStores.LevelDb

/-- `VersionSet`. No compaction pointer is an empty string in the source. `manifest` has the
records of the MANIFEST, and is nothing when `descriptor_log_` is `NULL`. -/
structure VersionSet (K : Type) where
  current : Version K
  compactPointer : ℕ → Option (InternalKey K)
  nextFileNumber : ℕ
  manifestFileNumber : ℕ
  lastSequence : ℕ
  logNumber : ℕ
  prevLogNumber : ℕ
  manifest : Option (List (VersionEdit K))

/-- How the calls turn out that `LogAndApply` makes: `NewWritableFile`, `WriteSnapshot`, `AddRecord`
and `Sync` of the record, `ManifestContains`, and `SetCurrentFile`. -/
structure ApplyOutcome where
  created : Status
  snapshot : Status
  record : Status
  contained : Bool
  current : Status

/-- The variables of `VersionSet::Recover`. -/
structure Recovery (K : Type) where
  builder : Builder K
  compactPointer : ℕ → Option (InternalKey K)
  nextFile : Option ℕ
  lastSequence : Option ℕ
  logNumber : Option ℕ
  prevLogNumber : Option ℕ

inductive SetEvent (K : Type)
  | newFileNumber
  | reuseFileNumber (number : ℕ)
  | markFileNumberUsed (number : ℕ)
  | setLastSequence (s : ℕ)
  /-- `SetupOtherInputs`, which moves the pointer of a level before the edit of the compaction is applied. -/
  | pickCompaction (level : ℕ) (largest : InternalKey K)
  | logAndApply (edit : VersionEdit K) (outcome : ApplyOutcome)

namespace VersionSet

variable {K : Type}

def new : VersionSet K := ⟨fun _ => [], fun _ => none, 2, 0, 0, 0, 0, none⟩

def markFileNumberUsed (vs : VersionSet K) (number : ℕ) : VersionSet K :=
  if vs.nextFileNumber ≤ number then { vs with nextFileNumber := number + 1 } else vs

/-- The edit of `WriteSnapshot`, under the name of the comparator. -/
def writeSnapshot (name : String) (vs : VersionSet K) : VersionEdit K :=
  { (VersionEdit.clear : VersionEdit K) with
    comparator := some name
    compactPointers := (List.range kNumLevels).filterMap fun level => (vs.compactPointer level).map fun key => (level, key)
    newFiles := (List.range kNumLevels).flatMap fun level => (vs.current level).map fun f => (level, f) }

/-- The edit with what `LogAndApply` sets in it. -/
def fillEdit (vs : VersionSet K) (edit : VersionEdit K) : VersionEdit K :=
  { edit with
    logNumber := some (edit.logNumber.getD vs.logNumber)
    prevLogNumber := some (edit.prevLogNumber.getD vs.prevLogNumber)
    nextFileNumber := some vs.nextFileNumber
    lastSequence := some vs.lastSequence }

/-- The status of `LogAndApply`; the first call makes the MANIFEST. A record that is in the MANIFEST
despite an error counts. -/
def applyStatus (first : Bool) (o : ApplyOutcome) : Status :=
  let s := if first then (if o.created = .ok then o.snapshot else o.created) else .ok
  let s := if s = .ok then (if o.record = .ok ∨ o.contained then .ok else o.record) else s
  if s = .ok ∧ first then o.current else s

variable [LinearOrder K]

/-- `VersionSet::LogAndApply`. The pointers are set whether the call succeeds or not. -/
def logAndApply (name : String) (vs : VersionSet K) (edit : VersionEdit K) (o : ApplyOutcome) : Status × VersionSet K :=
  let edit := fillEdit vs edit
  let v := ((Builder.new vs.current).apply edit).saveTo
  let vs := { vs with compactPointer := applyPointers vs.compactPointer edit }
  let s := applyStatus vs.manifest.isNone o
  if s = .ok then
    (.ok,
      { vs with
        current := v
        logNumber := edit.logNumber.getD 0
        prevLogNumber := edit.prevLogNumber.getD 0
        manifest := some (vs.manifest.getD [writeSnapshot name vs] ++ [edit]) })
  else (s, vs)

/-- One record in the loop of `Recover`. -/
def recoverRecord (name : String) (r : Recovery K) (edit : VersionEdit K) : Except Status (Recovery K) :=
  if edit.comparator.all (· = name) then
    .ok
      { builder := r.builder.apply edit
        compactPointer := applyPointers r.compactPointer edit
        nextFile := edit.nextFileNumber.or r.nextFile
        lastSequence := edit.lastSequence.or r.lastSequence
        logNumber := edit.logNumber.or r.logNumber
        prevLogNumber := edit.prevLogNumber.or r.prevLogNumber }
  else .error (.invalidArgument (edit.comparator.getD "" ++ " does not match existing comparator : " ++ name))

/-- The loop of `Recover`. -/
@[grind =] def recoverRecords (name : String) : Recovery K → List (VersionEdit K) → Except Status (Recovery K)
  | r, [] => .ok r
  | r, edit :: records =>
    match recoverRecord name r edit with
    | .error s => .error s
    | .ok r => recoverRecords name r records

/-- The end of `Recover`. What `MarkFileNumberUsed` does here is lost when `next_file_number_` is
set. -/
@[grind =] def recovered (r : Recovery K) : Except Status (VersionSet K) :=
  match r.nextFile, r.logNumber, r.lastSequence with
  | none, _, _ => .error (.corruption "no meta-nextfile entry in descriptor")
  | _, none, _ => .error (.corruption "no meta-lognumber entry in descriptor")
  | _, _, none => .error (.corruption "no last-sequence-number entry in descriptor")
  | some nextFile, some logNumber, some lastSequence =>
    .ok ⟨r.builder.saveTo, r.compactPointer, nextFile + 1, nextFile, lastSequence, logNumber, r.prevLogNumber.getD 0, none⟩

/-- `VersionSet::Recover` of a new version set, from the records of a MANIFEST. -/
def recover (name : String) (records : List (VersionEdit K)) : Except Status (VersionSet K) :=
  match recoverRecords name ⟨Builder.new fun _ => [], fun _ => none, none, none, none, none⟩ records with
  | .error s => .error s
  | .ok r => recovered r

end VersionSet

/-- A version set, and the levels whose pointers `SetupOtherInputs` has moved without an edit in the
MANIFEST that says so. -/
structure VersionRun (K : Type) where
  set : VersionSet K
  picked : List ℕ

namespace VersionRun

variable {K : Type} [LinearOrder K]

@[grind =] def step (name : String) (st : VersionRun K) : SetEvent K → VersionRun K
  | .newFileNumber => { st with set := { st.set with nextFileNumber := st.set.nextFileNumber + 1 } }
  | .reuseFileNumber n => { st with set := { st.set with nextFileNumber := if st.set.nextFileNumber = n + 1 then n else st.set.nextFileNumber } }
  | .markFileNumberUsed n => { st with set := st.set.markFileNumberUsed n }
  | .setLastSequence s => { st with set := { st.set with lastSequence := s } }
  | .pickCompaction level largest =>
    ⟨{ st.set with compactPointer := Function.update st.set.compactPointer level (some largest) }, level :: st.picked⟩
  | .logAndApply edit o =>
    ⟨(st.set.logAndApply name edit o).2,
      if st.set.manifest.isNone then [] else st.picked.filter fun level => decide (level ∉ edit.compactPointers.map Prod.fst)⟩

def Unused (vs : VersionSet K) (n : ℕ) : Prop :=
  (∀ level, ∀ f ∈ vs.current level, f.number ≠ n) ∧ vs.logNumber ≠ n ∧ vs.prevLogNumber ≠ n ∧ vs.manifestFileNumber ≠ n

/-- What callers keep to. A call of `LogAndApply` succeeds; the numbers in its edit come from
`NewFileNumber`, a number stands for one file, and no file is added to a level that has it. A
number is reused when nothing has it. -/
def Legal (files : ℕ → FileMetaData K) (name : String) (st : VersionRun K) : SetEvent K → Prop
  | .logAndApply edit o => (st.set.logAndApply name edit o).1 = .ok ∧ edit.comparator = none ∧ Builder.Fresh files st.set.current edit ∧
      (∀ p ∈ edit.newFiles, p.2.number < st.set.nextFileNumber) ∧ (∀ n ∈ edit.logNumber, n < st.set.nextFileNumber) ∧
      ∀ n ∈ edit.prevLogNumber, n < st.set.nextFileNumber
  | .reuseFileNumber n => Unused st.set n
  | _ => True

def run (name : String) (st : VersionRun K) (evs : List (SetEvent K)) : VersionRun K := evs.foldl (step name) st

@[grind =] def LegalRun (files : ℕ → FileMetaData K) (name : String) : VersionRun K → List (SetEvent K) → Prop
  | _, [] => True
  | st, ev :: evs => Legal files name st ev ∧ LegalRun files name (st.step name ev) evs

end VersionRun

end KVStores.LevelDb
