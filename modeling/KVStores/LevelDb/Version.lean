import KVStores.LevelDb.Keys
import Mathlib.Data.List.Sort

/-!
# Versions

A version is the files of each level (`version_set.cc`): those of level 0 may overlap, those
of a deeper level are sorted and do not. What is in a file is given by its number.

The functions follow the source: `FindFile`, `SomeFileOverlapsRange`, `GetOverlappingInputs`,
`PickLevelForMemTableOutput` and `Version::Get`.
-/

namespace KVStores.LevelDb

def kNumLevels : ℕ := 7

def kMaxMemCompactLevel : ℕ := 2

def kTargetFileSize : ℕ := 2 * 1048576

def kMaxGrandParentOverlapBytes : ℕ := 10 * kTargetFileSize

def kExpandedCompactionByteSizeLimit : ℕ := 25 * kTargetFileSize

def maxFileSizeForLevel (_level : ℕ) : ℕ := kTargetFileSize

structure FileMetaData (K : Type) where
  number : ℕ
  fileSize : ℕ
  smallest : InternalKey K
  largest : InternalKey K
deriving DecidableEq

/-- `files_` of a `Version`. -/
abbrev Version (K : Type) := ℕ → List (FileMetaData K)

/-- The contents of the table files, by their numbers. -/
abbrev Tables (K V : Type) := ℕ → List (Entry K V)

def totalFileSize {K : Type} (files : List (FileMetaData K)) : ℕ := (files.map FileMetaData.fileSize).sum

variable {K V : Type} [LinearOrder K]

/-- The loop of `FindFile`; `right - left` shrinks in each round, so that as many rounds are
enough. -/
@[grind =] def findFileLoop (files : List (FileMetaData K)) (key : InternalKey K) : ℕ → ℕ → ℕ → ℕ
  | 0, _, right => right
  | fuel + 1, left, right =>
    if left < right then
      let mid := (left + right) / 2
      match files[mid]? with
      | some f => if f.largest < key then findFileLoop files key fuel (mid + 1) right else findFileLoop files key fuel left mid
      | none => right
    else right

def findFile (files : List (FileMetaData K)) (key : InternalKey K) : ℕ := findFileLoop files key files.length 0 files.length

/-- `AfterFile`; no key is before all keys. -/
def afterFile (userKey : Option K) (f : FileMetaData K) : Bool :=
  match userKey with
  | none => false
  | some u => decide (f.largest.userKey < u)

/-- `BeforeFile`; no key is after all keys. -/
def beforeFile (userKey : Option K) (f : FileMetaData K) : Bool :=
  match userKey with
  | none => false
  | some u => decide (u < f.smallest.userKey)

def someFileOverlapsRange (disjointSortedFiles : Bool) (files : List (FileMetaData K)) (smallestUserKey largestUserKey : Option K) :
    Bool :=
  if disjointSortedFiles = false then
    files.any fun f => !(afterFile smallestUserKey f || beforeFile largestUserKey f)
  else
    let index :=
      match smallestUserKey with
      | none => 0
      | some u => findFile files (lookupKey u kMaxSequenceNumber)
    match files[index]? with
    | none => false
    | some f => !beforeFile largestUserKey f

def overlapInLevel (v : Version K) (level : ℕ) (smallestUserKey largestUserKey : Option K) : Bool :=
  someFileOverlapsRange (decide (0 < level)) (v level) smallestUserKey largestUserKey

/-- The files that `GetOverlappingInputs` does not skip. -/
def overlapsRange (userBegin userEnd : Option K) (f : FileMetaData K) : Bool :=
  !(afterFile userBegin f || beforeFile userEnd f)

def sticksOutBefore (userBegin : Option K) (f : FileMetaData K) : Bool :=
  match userBegin with
  | none => false
  | some u => decide (f.smallest.userKey < u)

def sticksOutAfter (userEnd : Option K) (f : FileMetaData K) : Bool :=
  match userEnd with
  | none => false
  | some u => decide (u < f.largest.userKey)

/-- One pass of `GetOverlappingInputs` over the files of level 0: the files, or the wider
range when one of them sticks out of it. -/
@[grind =] def scanLevel0 (userBegin userEnd : Option K) : List (FileMetaData K) → Except (Option K × Option K) (List (FileMetaData K))
  | [] => .ok []
  | f :: files =>
    if overlapsRange userBegin userEnd f then
      if sticksOutBefore userBegin f then .error (some f.smallest.userKey, userEnd)
      else if sticksOutAfter userEnd f then .error (userBegin, some f.largest.userKey)
      else (scanLevel0 userBegin userEnd files).map (f :: ·)
    else scanLevel0 userBegin userEnd files

/-- The passes of `GetOverlappingInputs` over level 0. Each one that starts again has moved an
end of the range to the end of another file, so that there are few. -/
@[grind =] def restartLevel0 (files : List (FileMetaData K)) : ℕ → Option K → Option K → List (FileMetaData K)
  | 0, _, _ => []
  | fuel + 1, userBegin, userEnd =>
    match scanLevel0 userBegin userEnd files with
    | .ok inputs => inputs
    | .error (userBegin, userEnd) => restartLevel0 files fuel userBegin userEnd

def getOverlappingInputs (v : Version K) (level : ℕ) (begin_ end_ : Option (InternalKey K)) : List (FileMetaData K) :=
  let userBegin := begin_.map InternalKey.userKey
  let userEnd := end_.map InternalKey.userKey
  if level = 0 then restartLevel0 (v 0) (2 * (v 0).length + 1) userBegin userEnd
  else (v level).filter (overlapsRange userBegin userEnd)

@[grind =] def pickLevelLoop (v : Version K) (smallestUserKey largestUserKey : K) : ℕ → ℕ → ℕ
  | 0, level => level
  | fuel + 1, level =>
    if overlapInLevel v (level + 1) (some smallestUserKey) (some largestUserKey) then level
    else
      let overlaps := getOverlappingInputs v (level + 2) (some (.pack smallestUserKey kMaxSequenceNumber kValueTypeForSeek))
        (some (.pack largestUserKey 0 .deletion))
      if kMaxGrandParentOverlapBytes < totalFileSize overlaps then level
      else pickLevelLoop v smallestUserKey largestUserKey fuel (level + 1)

def pickLevelForMemTableOutput (v : Version K) (smallestUserKey largestUserKey : K) : ℕ :=
  if overlapInLevel v 0 (some smallestUserKey) (some largestUserKey) then 0
  else pickLevelLoop v smallestUserKey largestUserKey kMaxMemCompactLevel 0

inductive GetResult (V : Type)
  | found (value : V)
  | deleted
  | corrupt
  | notFound
deriving DecidableEq

/-- `Table::InternalGet`: the first entry that is not before the key. -/
def internalGet (entries : List (Entry K V)) (key : InternalKey K) : Option (Entry K V) := entries.find? fun e => decide (key ≤ e.key)

/-- `SaveValue`; nothing when the search goes on. -/
def saveValue (userKey : K) (e : Entry K V) : Option (GetResult V) :=
  match e.key.type? with
  | none => some .corrupt
  | some t =>
    if e.key.userKey = userKey then
      match t with
      | .value => some (.found e.value)
      | .deletion => some .deleted
    else none

/-- The files of a level that `Version::Get` searches, in order. -/
def filesToSearch (v : Version K) (level : ℕ) (userKey : K) (ikey : InternalKey K) : List (FileMetaData K) :=
  if level = 0 then
    ((v 0).filter fun f => decide (f.smallest.userKey ≤ userKey) && decide (userKey ≤ f.largest.userKey)).insertionSort
      fun a b => b.number ≤ a.number
  else
    match (v level)[findFile (v level) ikey]? with
    | none => []
    | some f => if userKey < f.smallest.userKey then [] else [f]

/-- `Version::Get` for the entries that a snapshot may see. -/
def versionGet (T : Tables K V) (v : Version K) (userKey : K) (seq : ℕ) : GetResult V :=
  let ikey := lookupKey userKey seq
  (((List.range kNumLevels).flatMap fun level => filesToSearch v level userKey ikey).findSome? fun f =>
    (internalGet (T f.number) ikey).bind (saveValue userKey)).getD .notFound

end KVStores.LevelDb
