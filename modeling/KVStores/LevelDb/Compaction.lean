import KVStores.LevelDb.Overlap
import KVStores.LevelDb.VersionEdit

/-!
# Compactions

A compaction takes files of a level and all files of the next level that they overlap
(`VersionSet::PickCompaction`, `CompactRange` and `SetupOtherInputs`).

* `Chosen.selected`: **what every compaction has, however it was chosen**: files of one level, what
  they overlap in the next one, and of level 0 all that overlap each other.
-/

namespace KVStores.LevelDb

open List Option

variable {K : Type} [LinearOrder K]

structure Compaction (K : Type) where
  level : ℕ
  inputVersion : Version K
  inputs0 : List (FileMetaData K)
  inputs1 : List (FileMetaData K)
  grandparents : List (FileMetaData K)
  edit : VersionEdit K

/-- `VersionSet::GetRange`; there is no range of no files. -/
def getRange : List (FileMetaData K) → Option (InternalKey K × InternalKey K)
  | [] => none
  | f :: files => some <| files.foldl
      (fun r f => (if f.smallest < r.1 then f.smallest else r.1, if r.2 < f.largest then f.largest else r.2)) (f.smallest, f.largest)

def getRange2 (inputs1 inputs2 : List (FileMetaData K)) : Option (InternalKey K × InternalKey K) := getRange (inputs1 ++ inputs2)

/-- The growth of the inputs in `SetupOtherInputs`: more files of the level, when they overlap the same number of
files of the next one and the whole is not too large. -/
def expandInputs (v : Version K) (level : ℕ) (inputs0 inputs1 : List (FileMetaData K)) (allStart allLimit : InternalKey K) :
    Option (List (FileMetaData K) × List (FileMetaData K)) :=
  if inputs1.isEmpty then none
  else
    let expanded0 := getOverlappingInputs v level (some allStart) (some allLimit)
    if inputs0.length < expanded0.length ∧ totalFileSize inputs1 + totalFileSize expanded0 < kExpandedCompactionByteSizeLimit then
      match getRange expanded0 with
      | none => none
      | some (newStart, newLimit) =>
        let expanded1 := getOverlappingInputs v (level + 1) (some newStart) (some newLimit)
        if expanded1.length = inputs1.length then some (expanded0, expanded1) else none
    else none

/-- The end of `SetupOtherInputs`: the grandparents, and where the next compaction of the level begins. -/
def finishInputs (v : Version K) (level : ℕ) (inputs0 inputs1 : List (FileMetaData K)) : Option (Compaction K) :=
  match getRange inputs0, getRange2 inputs0 inputs1 with
  | some (_, largest), some (allStart, allLimit) =>
    some
      { level := level
        inputVersion := v
        inputs0 := inputs0
        inputs1 := inputs1
        grandparents := if level + 2 < kNumLevels then getOverlappingInputs v (level + 2) (some allStart) (some allLimit) else []
        edit := { (VersionEdit.clear : VersionEdit K) with compactPointers := [(level, largest)] } }
  | _, _ => none

/-- `VersionSet::SetupOtherInputs`. It requires that there are inputs. -/
def setupOtherInputs (v : Version K) (level : ℕ) (inputs0 : List (FileMetaData K)) : Option (Compaction K) :=
  match getRange inputs0 with
  | none => none
  | some (smallest, largest) =>
    let inputs1 := getOverlappingInputs v (level + 1) (some smallest) (some largest)
    match getRange2 inputs0 inputs1 with
    | none => none
    | some (allStart, allLimit) =>
      match expandInputs v level inputs0 inputs1 allStart allLimit with
      | some (expanded0, expanded1) => finishInputs v level expanded0 expanded1
      | none => finishInputs v level inputs0 inputs1

/-- The file that a compaction for the size of a level begins with: the first one that comes after `compact_pointer_`, or
the first one of all. -/
def pickFile (files : List (FileMetaData K)) (compactPointer : Option (InternalKey K)) : Option (FileMetaData K) :=
  match compactPointer with
  | none => files.head?
  | some pointer => (files.find? fun f => decide (pointer < f.largest)).or files.head?

/-- What `PickCompaction` begins with: a level that is too large has priority over a file that was looked at too often. -/
def pickInput (v : Version K) (compactPointers : ℕ → Option (InternalKey K)) (compactionLevel : Option ℕ)
    (fileToCompact : Option (ℕ × FileMetaData K)) : Option (ℕ × FileMetaData K) :=
  match compactionLevel with
  | some level => (pickFile (v level) (compactPointers level)).map fun f => (level, f)
  | none => fileToCompact

/-- `VersionSet::PickCompaction`. `compactionLevel` is the level of a score of one or more. -/
def pickCompaction (v : Version K) (compactPointers : ℕ → Option (InternalKey K)) (compactionLevel : Option ℕ)
    (fileToCompact : Option (ℕ × FileMetaData K)) : Option (Compaction K) :=
  match pickInput v compactPointers compactionLevel fileToCompact with
  | none => none
  | some (level, f) =>
    if level = 0 then setupOtherInputs v 0 (getOverlappingInputs v 0 (some f.smallest) (some f.largest))
    else setupOtherInputs v level [f]

/-- The loop of `CompactRange` that avoids to compact too much at once. -/
@[grind =] def truncateInputs (limit : ℕ) : ℕ → List (FileMetaData K) → List (FileMetaData K)
  | _, [] => []
  | total, f :: files => f :: if limit ≤ total + f.fileSize then [] else truncateInputs limit (total + f.fileSize) files

def compactRange (v : Version K) (level : ℕ) (begin_ end_ : Option (InternalKey K)) : Option (Compaction K) :=
  let inputs := getOverlappingInputs v level begin_ end_
  if inputs.isEmpty then none
  else setupOtherInputs v level (if 0 < level then truncateInputs (maxFileSizeForLevel level) 0 inputs else inputs)

/-- The edit of a compaction with its outputs: `AddInputDeletions` and the new files of `InstallCompactionResults`; a
trivial move has its input as its output. -/
def Compaction.editWith (c : Compaction K) (outputs : List (FileMetaData K)) : VersionEdit K :=
  { c.edit with
    deletedFiles := c.edit.deletedFiles ++
      (c.inputs0.map fun f => (c.level, f.number)) ++ c.inputs1.map fun f => (c.level + 1, f.number)
    newFiles := c.edit.newFiles ++ outputs.map fun f => (c.level + 1, f) }

variable {v : Version K} {level : ℕ} {c : Compaction K} {files : List (FileMetaData K)} {s l : InternalKey K}

theorem foldl_range : ∀ (files : List (FileMetaData K)) (r : InternalKey K × InternalKey K),
    let r' := files.foldl
      (fun r f => (if f.smallest < r.1 then f.smallest else r.1, if r.2 < f.largest then f.largest else r.2)) r
    (r'.1 = r.1 ∨ ∃ f ∈ files, r'.1 = f.smallest) ∧ (r'.2 = r.2 ∨ ∃ f ∈ files, r'.2 = f.largest) ∧
      r'.1 ≤ r.1 ∧ r.2 ≤ r'.2 ∧ ∀ f ∈ files, r'.1 ≤ f.smallest ∧ f.largest ≤ r'.2
  | [], r => ⟨Or.inl rfl, Or.inl rfl, le_refl _, le_refl _, fun f hf => (not_mem_nil hf).elim⟩
  | f :: files, r => by
    obtain ⟨h1, h2, h3, h4, h5⟩ := foldl_range files (if f.smallest < r.1 then f.smallest else r.1, if r.2 < f.largest then f.largest else r.2)
    rw [foldl_cons]
    have hs : (if f.smallest < r.1 then f.smallest else r.1) ≤ r.1 ∧ (if f.smallest < r.1 then f.smallest else r.1) ≤ f.smallest := by
      by_cases h : f.smallest < r.1
      · rw [if_pos h]
        exact ⟨le_of_lt h, le_refl _⟩
      · rw [if_neg h]
        exact ⟨le_refl _, not_lt.1 h⟩
    have hl : r.2 ≤ (if r.2 < f.largest then f.largest else r.2) ∧ f.largest ≤ (if r.2 < f.largest then f.largest else r.2) := by
      by_cases h : r.2 < f.largest
      · rw [if_pos h]
        exact ⟨le_of_lt h, le_refl _⟩
      · rw [if_neg h]
        exact ⟨le_refl _, not_lt.1 h⟩
    refine ⟨?_, ?_, le_trans h3 hs.1, le_trans hl.1 h4, forall_mem_cons.2 ⟨⟨le_trans h3 hs.2, le_trans hl.2 h4⟩, h5⟩⟩
    · rcases h1 with h1 | ⟨g, hg, h1⟩
      · by_cases h : f.smallest < r.1
        · exact Or.inr ⟨f, mem_cons_self, by rw [h1, if_pos h]⟩
        · exact Or.inl (by rw [h1, if_neg h])
      · exact Or.inr ⟨g, mem_cons_of_mem _ hg, h1⟩
    · rcases h2 with h2 | ⟨g, hg, h2⟩
      · by_cases h : r.2 < f.largest
        · exact Or.inr ⟨f, mem_cons_self, by rw [h2, if_pos h]⟩
        · exact Or.inl (by rw [h2, if_neg h])
      · exact Or.inr ⟨g, mem_cons_of_mem _ hg, h2⟩

theorem getRange_spec (h : getRange files = some (s, l)) :
    (∃ f ∈ files, s = f.smallest) ∧ (∃ f ∈ files, l = f.largest) ∧ ∀ f ∈ files, s ≤ f.smallest ∧ f.largest ≤ l := by
  cases files with
  | nil => cases h
  | cons f files =>
    have h := Option.some.inj h
    obtain ⟨h1, h2, h3, h4, h5⟩ := foldl_range files (f.smallest, f.largest)
    rw [h] at h1 h2 h3 h4 h5
    refine ⟨?_, ?_, forall_mem_cons.2 ⟨⟨h3, h4⟩, h5⟩⟩
    · rcases h1 with h1 | ⟨g, hg, h1⟩
      · exact ⟨f, mem_cons_self, h1⟩
      · exact ⟨g, mem_cons_of_mem _ hg, h1⟩
    · rcases h2 with h2 | ⟨g, hg, h2⟩
      · exact ⟨f, mem_cons_self, h2⟩
      · exact ⟨g, mem_cons_of_mem _ hg, h2⟩

theorem getRange_some (h : files ≠ []) : ∃ s l, getRange files = some (s, l) := by
  cases files with
  | nil => exact absurd rfl h
  | cons f files => exact ⟨_, _, rfl⟩

/-- Of level 0 the files are taken or left out so that none of those that are left out has a user key in common with one
that is taken. -/
def ClosedInputs (v : Version K) (inputs : List (FileMetaData K)) : Prop :=
  ∀ f ∈ v 0, f ∉ inputs → ∀ h ∈ inputs, f.largest.userKey < h.smallest.userKey ∨ h.largest.userKey < f.smallest.userKey

structure Selected (v : Version K) (c : Compaction K) : Prop where
  inputVersion : c.inputVersion = v
  level_lt : c.level + 1 < kNumLevels
  inputs0_sublist : c.inputs0.Sublist (v c.level)
  inputs1_eq : ∃ s l, getRange c.inputs0 = some (s, l) ∧
    c.inputs1 = (v (c.level + 1)).filter (overlapsRange (some s.userKey) (some l.userKey))
  closed : c.level = 0 → ClosedInputs v c.inputs0
  deletedFiles : c.edit.deletedFiles = []
  newFiles : c.edit.newFiles = []

/-- How a compaction is chosen: for the size of a level, for a file that was looked at too often, or for a range. -/
inductive Chosen (v : Version K) : Compaction K → Prop
  | pick (compactPointers : ℕ → Option (InternalKey K)) (compactionLevel : Option ℕ) (fileToCompact : Option (ℕ × FileMetaData K))
      (c : Compaction K) (hsize : ∀ level, compactionLevel = some level → level + 1 < kNumLevels)
      (hseek : ∀ p, fileToCompact = some p → p.1 + 1 < kNumLevels ∧ p.2 ∈ v p.1)
      (h : pickCompaction v compactPointers compactionLevel fileToCompact = some c) : Chosen v c
  | range (level : ℕ) (begin_ end_ : Option (InternalKey K)) (c : Compaction K) (hlevel : level + 1 < kNumLevels)
      (h : compactRange v level begin_ end_ = some c) : Chosen v c

variable {inputs0 inputs1 : List (FileMetaData K)}

theorem finishInputs_spec (h : finishInputs v level inputs0 inputs1 = some c) :
    c.level = level ∧ c.inputVersion = v ∧ c.inputs0 = inputs0 ∧ c.inputs1 = inputs1 ∧ c.edit.deletedFiles = [] ∧ c.edit.newFiles = [] := by
  unfold finishInputs at h
  cases h1 : getRange inputs0 with
  | none =>
    rw [h1] at h
    cases h
  | some r =>
    cases h2 : getRange2 inputs0 inputs1 with
    | none =>
      rw [h1, h2] at h
      cases h
    | some r' =>
      rw [h1, h2] at h
      obtain rfl := Option.some.inj h
      exact ⟨rfl, rfl, rfl, rfl, rfl, rfl⟩

theorem expandInputs_spec {expanded0 expanded1 : List (FileMetaData K)} {allStart allLimit : InternalKey K}
    (h : expandInputs v level inputs0 inputs1 allStart allLimit = some (expanded0, expanded1)) :
    expanded0 = getOverlappingInputs v level (some allStart) (some allLimit) ∧
    ∃ s l, getRange expanded0 = some (s, l) ∧ expanded1 = getOverlappingInputs v (level + 1) (some s) (some l) := by
  unfold expandInputs at h
  by_cases h1 : inputs1.isEmpty = true
  · rw [if_pos h1] at h
    cases h
  · rw [if_neg h1] at h
    by_cases h2 : inputs0.length < (getOverlappingInputs v level (some allStart) (some allLimit)).length ∧
        totalFileSize inputs1 + totalFileSize (getOverlappingInputs v level (some allStart) (some allLimit)) < kExpandedCompactionByteSizeLimit
    · rw [if_pos h2] at h
      cases h3 : getRange (getOverlappingInputs v level (some allStart) (some allLimit)) with
      | none =>
        rw [h3] at h
        cases h
      | some r =>
        rw [h3] at h
        dsimp only at h
        by_cases h4 : (getOverlappingInputs v (level + 1) (some r.1) (some r.2)).length = inputs1.length
        · rw [if_pos h4] at h
          obtain ⟨rfl, rfl⟩ := Prod.mk.inj (Option.some.inj h)
          exact ⟨rfl, r.1, r.2, h3, rfl⟩
        · rw [if_neg h4] at h
          cases h
    · rw [if_neg h2] at h
      cases h

theorem setupOtherInputs_spec (h : setupOtherInputs v level inputs0 = some c) :
    ∃ s l allStart allLimit inputs1, getRange inputs0 = some (s, l) ∧ inputs1 = getOverlappingInputs v (level + 1) (some s) (some l) ∧
      getRange (inputs0 ++ inputs1) = some (allStart, allLimit) ∧
      ((c.inputs0 = inputs0 ∧ c.inputs1 = inputs1) ∨ expandInputs v level inputs0 inputs1 allStart allLimit = some (c.inputs0, c.inputs1)) ∧
      c.level = level ∧ c.inputVersion = v ∧ c.edit.deletedFiles = [] ∧ c.edit.newFiles = [] := by
  unfold setupOtherInputs at h
  cases h1 : getRange inputs0 with
  | none =>
    rw [h1] at h
    cases h
  | some r =>
    rw [h1] at h
    dsimp only at h
    cases h2 : getRange2 inputs0 (getOverlappingInputs v (level + 1) (some r.1) (some r.2)) with
    | none =>
      rw [h2] at h
      cases h
    | some r' =>
      rw [h2] at h
      dsimp only at h
      refine ⟨r.1, r.2, r'.1, r'.2, _, rfl, rfl, h2, ?_⟩
      cases h3 : expandInputs v level inputs0 (getOverlappingInputs v (level + 1) (some r.1) (some r.2)) r'.1 r'.2 with
      | none =>
        rw [h3] at h
        obtain ⟨g1, g2, g3, g4, g5⟩ := finishInputs_spec h
        exact ⟨Or.inl ⟨g3, g4⟩, g1, g2, g5⟩
      | some e =>
        rw [h3] at h
        obtain ⟨g1, g2, g3, g4, g5⟩ := finishInputs_spec h
        exact ⟨Or.inr (by rw [g3, g4]), g1, g2, g5⟩

theorem closedInputs_overlapping {begin_ end_ : Option (InternalKey K)} : ClosedInputs v (getOverlappingInputs v 0 begin_ end_) :=
  fun _ hf hout _ hh => getOverlappingInputs_closed hf hout hh

theorem setupOtherInputs_selected (hlevel : level + 1 < kNumLevels) (hsub : inputs0.Sublist (v level))
    (hclosed : level = 0 → ClosedInputs v inputs0) (h : setupOtherInputs v level inputs0 = some c) : Selected v c := by
  obtain ⟨s, l, allStart, allLimit, inputs1, h1, h2, h3, h4, rfl, h6, h7, h8⟩ := setupOtherInputs_spec h
  rcases h4 with ⟨h4, h5⟩ | h4
  · refine ⟨h6, hlevel, h4 ▸ hsub, ⟨s, l, by rw [h4, h1], ?_⟩, h4 ▸ hclosed, h7, h8⟩
    rw [h5, h2, getOverlappingInputs_pos (Nat.succ_pos _)]
    rfl
  · obtain ⟨g1, s', l', g2, g3⟩ := expandInputs_spec h4
    refine ⟨h6, hlevel, g1 ▸ getOverlappingInputs_sublist, ⟨s', l', g2, ?_⟩, fun h0 => ?_, h7, h8⟩
    · rw [g3, getOverlappingInputs_pos (Nat.succ_pos _)]
      rfl
    · rw [g1, h0]
      exact closedInputs_overlapping

omit [LinearOrder K] in
theorem truncateInputs_sublist (limit : ℕ) : ∀ (total : ℕ) (files : List (FileMetaData K)), (truncateInputs limit total files).Sublist files
  | _, [] => List.Sublist.slnil
  | total, f :: files => by
    rw [truncateInputs]
    by_cases h : limit ≤ total + f.fileSize
    · rw [if_pos h]
      exact singleton_sublist.2 mem_cons_self
    · rw [if_neg h]
      exact (truncateInputs_sublist limit _ files).cons_cons f

theorem pickFile_mem {compactPointer : Option (InternalKey K)} {f : FileMetaData K} (h : pickFile files compactPointer = some f) : f ∈ files := by
  cases compactPointer with
  | none => exact mem_of_head? h
  | some pointer =>
    unfold pickFile at h
    rcases or_eq_some_iff.1 h with h | ⟨-, h⟩
    · exact List.mem_of_find?_eq_some h
    · exact mem_of_head? h

theorem Chosen.selected (h : Chosen v c) : Selected v c := by
  cases h with
  | pick compactPointers compactionLevel fileToCompact c hsize hseek h =>
    have hpicked : ∀ p, pickInput v compactPointers compactionLevel fileToCompact = some p → p.1 + 1 < kNumLevels ∧ p.2 ∈ v p.1 := by
      intro p hp
      cases compactionLevel with
      | none => exact hseek p hp
      | some level =>
        obtain ⟨f, hf, rfl⟩ := map_eq_some_iff.1 hp
        exact ⟨hsize level rfl, pickFile_mem hf⟩
    unfold pickCompaction at h
    cases hp : pickInput v compactPointers compactionLevel fileToCompact with
    | none =>
      rw [hp] at h
      cases h
    | some p =>
      obtain ⟨hlevel, hmem⟩ := hpicked p hp
      rw [hp] at h
      dsimp only at h
      by_cases h0 : p.1 = 0
      · rw [if_pos h0] at h
        exact setupOtherInputs_selected (h0 ▸ hlevel) getOverlappingInputs_sublist (fun _ => closedInputs_overlapping) h
      · rw [if_neg h0] at h
        exact setupOtherInputs_selected hlevel (singleton_sublist.2 hmem) (fun hc => absurd hc h0) h
  | range level begin_ end_ c hlevel h =>
    unfold compactRange at h
    by_cases he : (getOverlappingInputs v level begin_ end_).isEmpty = true
    · rw [if_pos he] at h
      cases h
    · rw [if_neg he] at h
      refine setupOtherInputs_selected hlevel ?_ (fun h0 => ?_) h
      · by_cases h0 : 0 < level
        · rw [if_pos h0]
          exact (truncateInputs_sublist _ _ _).trans getOverlappingInputs_sublist
        · rw [if_neg h0]
          exact getOverlappingInputs_sublist
      · subst h0
        exact closedInputs_overlapping

end KVStores.LevelDb
