import KVStores.LevelDb.VersionEdit

/-!
# Edits as bytes

`VersionEdit::EncodeTo` and `VersionEdit::DecodeFrom` (`version_edit.cc`): the records of a manifest.

* `decodeFrom_iff`: **an edit comes back if and only if its strings fit, and the object that is decoded into makes no
  difference if and only if it has no compaction pointer**.
-/

namespace KVStores.LevelDb.Manifest

open List Option

/-- The fields of `FileMetaData` that a record has, the keys as their bytes. -/
structure FileMetaData where
  number : UInt64
  fileSize : UInt64
  smallest : Bytes
  largest : Bytes
deriving DecidableEq

/-- What `DeletedFileSet` compares. -/
def fileKey (p : ℕ × UInt64) : ℕ ×ₗ ℕ := toLex (p.1, p.2.toNat)

/-- `DeletedFileSet`: sorted by the level, then by the number. -/
@[ext]
structure DeletedFileSet where
  files : List (ℕ × UInt64)
  sorted : KeySorted fileKey files

/-- `VersionEdit`. A field that may be absent is an option: without its flag it has the value that `Clear` gave it. -/
@[ext]
structure VersionEdit where
  comparator : Option Bytes
  logNumber : Option UInt64
  prevLogNumber : Option UInt64
  nextFileNumber : Option UInt64
  lastSequence : Option UInt64
  compactPointers : List (ℕ × Bytes)
  deletedFiles : DeletedFileSet
  newFiles : List (ℕ × FileMetaData)

def DeletedFileSet.insert (s : DeletedFileSet) (file : ℕ × UInt64) : DeletedFileSet := ⟨insertBy fileKey file s.files, s.sorted.insertBy file⟩

def DeletedFileSet.empty : DeletedFileSet := ⟨[], List.Pairwise.nil⟩

namespace VersionEdit

def new : VersionEdit := ⟨none, none, none, none, none, [], .empty, []⟩

/-- `VersionEdit::Clear`: all but the compaction pointers. -/
def clear (e : VersionEdit) : VersionEdit := { new with compactPointers := e.compactPointers }

def field {α : Type} (tag : ℕ) (put : α → Bytes) : Option α → Bytes
  | none => []
  | some a => encodeVarint32 tag ++ put a

/-- `PutVarint64`. -/
def putNumber (n : UInt64) : Bytes := encodeVarint64 n.toNat

def pointerBytes (p : ℕ × Bytes) : Bytes := encodeVarint32 5 ++ encodeVarint32 p.1 ++ lengthPrefixed p.2

def deletedBytes (p : ℕ × UInt64) : Bytes := encodeVarint32 6 ++ encodeVarint32 p.1 ++ putNumber p.2

def newFileBytes (p : ℕ × FileMetaData) : Bytes :=
  encodeVarint32 7 ++ encodeVarint32 p.1 ++ putNumber p.2.number ++ putNumber p.2.fileSize ++ lengthPrefixed p.2.smallest ++
    lengthPrefixed p.2.largest

def encodeTo (e : VersionEdit) : Bytes :=
  field 1 lengthPrefixed e.comparator ++ field 2 putNumber e.logNumber ++ field 9 putNumber e.prevLogNumber ++
    field 3 putNumber e.nextFileNumber ++ field 4 putNumber e.lastSequence ++ e.compactPointers.flatMap pointerBytes ++
    e.deletedFiles.files.flatMap deletedBytes ++ e.newFiles.flatMap newFileBytes

/-- `GetVarint64`. -/
def getNumber (input : Bytes) : Option (UInt64 × Bytes) := (getVarint64 input).map fun r => (UInt64.ofNat r.1, r.2)

def getLevel (input : Bytes) : Option (ℕ × Bytes) :=
  match getVarint32 input with
  | none => none
  | some (v, input) => if v < kNumLevels then some (v, input) else none

def getInternalKey (input : Bytes) : Option (Bytes × Bytes) := getLengthPrefixed input

def getPointer (input : Bytes) : Option ((ℕ × Bytes) × Bytes) := do
  let (level, input) ← getLevel input
  let (key, input) ← getInternalKey input
  return ((level, key), input)

def getDeleted (input : Bytes) : Option ((ℕ × UInt64) × Bytes) := do
  let (level, input) ← getLevel input
  let (number, input) ← getNumber input
  return ((level, number), input)

def getNewFile (input : Bytes) : Option ((ℕ × FileMetaData) × Bytes) := do
  let (level, input) ← getLevel input
  let (number, input) ← getNumber input
  let (fileSize, input) ← getNumber input
  let (smallest, input) ← getInternalKey input
  let (largest, input) ← getInternalKey input
  return ((level, ⟨number, fileSize, smallest, largest⟩), input)

def took {α : Type} (msg : String) (set : α → VersionEdit) : Option (α × Bytes) → Except String (VersionEdit × Bytes)
  | none => .error msg
  | some (a, input) => .ok (set a, input)

/-- One round of the loop of `VersionEdit::DecodeFrom`, behind the tag. -/
def decodeField (e : VersionEdit) (tag : ℕ) (input : Bytes) : Except String (VersionEdit × Bytes) :=
  if tag = 1 then took "comparator name" (fun s => { e with comparator := some s }) (getLengthPrefixed input)
  else if tag = 2 then took "log number" (fun n => { e with logNumber := some n }) (getNumber input)
  else if tag = 9 then took "previous log number" (fun n => { e with prevLogNumber := some n }) (getNumber input)
  else if tag = 3 then took "next file number" (fun n => { e with nextFileNumber := some n }) (getNumber input)
  else if tag = 4 then took "last sequence number" (fun n => { e with lastSequence := some n }) (getNumber input)
  else if tag = 5 then took "compaction pointer" (fun p => { e with compactPointers := e.compactPointers ++ [p] }) (getPointer input)
  else if tag = 6 then took "deleted file" (fun p => { e with deletedFiles := e.deletedFiles.insert p }) (getDeleted input)
  else if tag = 7 then took "new-file entry" (fun p => { e with newFiles := e.newFiles ++ [p] }) (getNewFile input)
  else .error "unknown tag"

/-- The loop of `VersionEdit::DecodeFrom`: the edit, and the message. -/
@[grind =] def decodeLoop : ℕ → VersionEdit → Bytes → VersionEdit × Option String
  | 0, e, _ => (e, none)
  | fuel + 1, e, input =>
    match getVarint32 input with
    | none => (e, if input = [] then none else some "invalid tag")
    | some (tag, input) =>
      match decodeField e tag input with
      | .error msg => (e, some msg)
      | .ok (e, input) => decodeLoop fuel e input

/-- `VersionEdit::DecodeFrom`. Each round takes a byte at least. -/
def decodeFrom (e : VersionEdit) (src : Bytes) : VersionEdit × Status :=
  let r := decodeLoop (src.length + 1) e.clear src
  (r.1, match r.2 with
    | none => .ok
    | some msg => .corruption ("VersionEdit: " ++ msg))

variable {e e' e'' : VersionEdit} {input rest rest' : Bytes}

theorem getNumber_putNumber (n : UInt64) (rest : Bytes) : getNumber (putNumber n ++ rest) = some (n, rest) := by
  unfold getNumber putNumber
  rw [getVarint64_encode n.toNat_lt, map_some, UInt64.ofNat_toNat]

theorem getLevel_encode {level : ℕ} (h : level < kNumLevels) (rest : Bytes) : getLevel (encodeVarint32 level ++ rest) = some (level, rest) := by
  unfold getLevel
  rw [getVarint32_encode (lt_trans h (by decide))]
  exact if_pos h

theorem getInternalKey_prefixed {key : Bytes} (h : key.length < 2 ^ 32) (rest : Bytes) :
    getInternalKey (lengthPrefixed key ++ rest) = some (key, rest) := getLengthPrefixed_lengthPrefixed h rest

variable {p : ℕ × Bytes}

theorem getPointer_bytes (hl : p.1 < kNumLevels) (hk : p.2.length < 2 ^ 32) (rest : Bytes) :
    getPointer (encodeVarint32 p.1 ++ lengthPrefixed p.2 ++ rest) = some (p, rest) := by
  unfold getPointer
  rw [append_assoc, getLevel_encode hl]
  dsimp only [bind_eq_bind, bind_some]
  rw [getInternalKey_prefixed hk]
  rfl

theorem getDeleted_bytes {p : ℕ × UInt64} (hl : p.1 < kNumLevels) (rest : Bytes) :
    getDeleted (encodeVarint32 p.1 ++ putNumber p.2 ++ rest) = some (p, rest) := by
  unfold getDeleted
  rw [append_assoc, getLevel_encode hl]
  dsimp only [bind_eq_bind, bind_some]
  rw [getNumber_putNumber]
  rfl

theorem getNewFile_bytes {p : ℕ × FileMetaData} (hl : p.1 < kNumLevels) (hs : p.2.smallest.length < 2 ^ 32)
    (hg : p.2.largest.length < 2 ^ 32) (rest : Bytes) :
    getNewFile (encodeVarint32 p.1 ++ putNumber p.2.number ++ putNumber p.2.fileSize ++ lengthPrefixed p.2.smallest ++
      lengthPrefixed p.2.largest ++ rest) = some (p, rest) := by
  unfold getNewFile
  simp only [append_assoc]
  rw [getLevel_encode hl]
  dsimp only [bind_eq_bind, bind_some]
  rw [getNumber_putNumber]
  dsimp only [bind_some]
  rw [getNumber_putNumber]
  dsimp only [bind_some]
  rw [getInternalKey_prefixed hs]
  dsimp only [bind_some]
  rw [getInternalKey_prefixed hg]
  rfl

def Steps (e : VersionEdit) (input : Bytes) (e' : VersionEdit) (rest : Bytes) : Prop :=
  ∀ fuel, input.length < fuel → ∃ fuel', rest.length < fuel' ∧ decodeLoop fuel e input = decodeLoop fuel' e' rest

theorem Steps.refl (e : VersionEdit) (input : Bytes) : Steps e input e input := fun fuel h => ⟨fuel, h, rfl⟩

theorem Steps.trans (h : Steps e input e' rest) (h' : Steps e' rest e'' rest') : Steps e input e'' rest' := by
  intro fuel hfuel
  obtain ⟨fuel1, hfuel1, heq1⟩ := h fuel hfuel
  obtain ⟨fuel2, hfuel2, heq2⟩ := h' fuel1 hfuel1
  exact ⟨fuel2, hfuel2, by rw [heq1, heq2]⟩

variable {tag : ℕ}

theorem Steps.field {bytes : Bytes} (htag : tag < 2 ^ 32) (h : decodeField e tag (bytes ++ rest) = .ok (e', rest)) :
    Steps e (encodeVarint32 tag ++ bytes ++ rest) e' rest := by
  intro fuel hfuel
  obtain ⟨fuel, rfl⟩ : ∃ n, fuel = n + 1 := ⟨fuel - 1, by omega⟩
  have hget := getVarint32_encode htag (bytes ++ rest)
  have hpos : (bytes ++ rest).length < (encodeVarint32 tag ++ (bytes ++ rest)).length := by
    obtain ⟨⟨v, hv⟩, hget, heq⟩ := map_eq_some_iff.1 hget
    obtain ⟨-, rfl⟩ := Prod.mk.inj heq
    exact (getVarint_append [] hget).2
  rw [append_assoc] at hfuel ⊢
  rw [length_append] at hpos
  refine ⟨fuel, by omega, ?_⟩
  rw [decodeLoop, hget]
  dsimp only
  rw [h]

theorem Steps.option {α : Type} {put : α → Bytes} {o : Option α} (htag : tag < 2 ^ 32) (hnone : o = none → e' = e)
    (hsome : ∀ a, o = some a → decodeField e tag (put a ++ rest) = .ok (e', rest)) :
    Steps e (VersionEdit.field tag put o ++ rest) e' rest := by
  cases o with
  | none =>
    rw [hnone rfl]
    exact .refl e rest
  | some a => exact .field htag (hsome a rfl)

theorem Steps.flatMap {α : Type} {put : α → Bytes} {add : VersionEdit → α → VersionEdit} : ∀ {l : List α} {e : VersionEdit},
    (∀ a ∈ l, ∀ e rest, Steps e (put a ++ rest) (add e a) rest) → Steps e (l.flatMap put ++ rest) (l.foldl add e) rest
  | [], e, _ => .refl e rest
  | a :: l, e, h => by
    obtain ⟨ha, hl⟩ := forall_mem_cons.1 h
    rw [flatMap_cons, append_assoc, foldl_cons]
    exact (ha e _).trans (Steps.flatMap hl)

theorem decodeLoop_nil (fuel : ℕ) (e : VersionEdit) : decodeLoop fuel e [] = (e, none) := by
  cases fuel with
  | zero => rfl
  | succ fuel => rfl

structure LevelsOk (e : VersionEdit) : Prop where
  compactPointers : ∀ p ∈ e.compactPointers, p.1 < kNumLevels
  deletedFiles : ∀ p ∈ e.deletedFiles.files, p.1 < kNumLevels
  newFiles : ∀ p ∈ e.newFiles, p.1 < kNumLevels

structure KeysOk (e : VersionEdit) : Prop where
  compactPointers : ∀ p ∈ e.compactPointers, p.2 ≠ []
  newFiles : ∀ p ∈ e.newFiles, p.2.smallest ≠ [] ∧ p.2.largest ≠ []

structure Fits (e : VersionEdit) : Prop where
  comparator : ∀ s, e.comparator = some s → s.length < 2 ^ 32
  compactPointers : ∀ p ∈ e.compactPointers, p.2.length < 2 ^ 32
  newFiles : ∀ p ∈ e.newFiles, p.2.smallest.length < 2 ^ 32 ∧ p.2.largest.length < 2 ^ 32

def addPointer (e : VersionEdit) (p : ℕ × Bytes) : VersionEdit := { e with compactPointers := e.compactPointers ++ [p] }

def addDeleted (e : VersionEdit) (p : ℕ × UInt64) : VersionEdit := { e with deletedFiles := e.deletedFiles.insert p }

def addNewFile (e : VersionEdit) (p : ℕ × FileMetaData) : VersionEdit := { e with newFiles := e.newFiles ++ [p] }

theorem foldl_addPointer : ∀ (l : List (ℕ × Bytes)) (e : VersionEdit),
    l.foldl addPointer e = { e with compactPointers := e.compactPointers ++ l }
  | [], e => by rw [append_nil]; rfl
  | p :: l, e => by
    rw [foldl_cons, foldl_addPointer l]
    unfold addPointer
    rw [append_assoc]
    rfl

theorem foldl_addNewFile : ∀ (l : List (ℕ × FileMetaData)) (e : VersionEdit), l.foldl addNewFile e = { e with newFiles := e.newFiles ++ l }
  | [], e => by rw [append_nil]; rfl
  | p :: l, e => by
    rw [foldl_cons, foldl_addNewFile l]
    unfold addNewFile
    rw [append_assoc]
    rfl

theorem insertBy_end {file : ℕ × UInt64} : ∀ {l : List (ℕ × UInt64)}, (∀ a ∈ l, fileKey a < fileKey file) →
    insertBy fileKey file l = l ++ [file]
  | [], _ => rfl
  | a :: l, h => by
    obtain ⟨ha, hl⟩ := forall_mem_cons.1 h
    rw [insertBy, if_neg (not_lt.2 (le_of_lt ha)), if_pos ha, insertBy_end hl, cons_append]

theorem foldl_addDeleted : ∀ (l : List (ℕ × UInt64)) (e : VersionEdit) (hs : KeySorted fileKey (e.deletedFiles.files ++ l)),
    l.foldl addDeleted e = { e with deletedFiles := ⟨e.deletedFiles.files ++ l, hs⟩ }
  | [], e, hs => by
    refine VersionEdit.ext rfl rfl rfl rfl rfl rfl ?_ rfl
    exact DeletedFileSet.ext (append_nil _).symm
  | p :: l, e, hs => by
    have hend : insertBy fileKey p e.deletedFiles.files = e.deletedFiles.files ++ [p] :=
      insertBy_end fun a ha => (pairwise_append.1 hs).2.2 a ha p mem_cons_self
    have hs' : KeySorted fileKey ((addDeleted e p).deletedFiles.files ++ l) := by
      unfold addDeleted DeletedFileSet.insert
      dsimp only
      rw [hend, append_assoc]
      exact hs
    rw [foldl_cons, foldl_addDeleted l _ hs']
    refine VersionEdit.ext rfl rfl rfl rfl rfl rfl ?_ rfl
    apply DeletedFileSet.ext
    unfold addDeleted DeletedFileSet.insert
    dsimp only
    rw [hend, append_assoc]
    rfl

def heading (c : Option Bytes) (log prev next last : Option UInt64) : VersionEdit := ⟨c, log, prev, next, last, [], .empty, []⟩

theorem steps_heading (hf : e.Fits) (rest : Bytes) : Steps new (field 1 lengthPrefixed e.comparator ++ (field 2 putNumber e.logNumber ++
    (field 9 putNumber e.prevLogNumber ++ (field 3 putNumber e.nextFileNumber ++ (field 4 putNumber e.lastSequence ++ rest)))))
    (heading e.comparator e.logNumber e.prevLogNumber e.nextFileNumber e.lastSequence) rest := by
  have hnum : ∀ {tag : ℕ} {o : Option UInt64} {a a' : VersionEdit} (msg : String) (set : UInt64 → VersionEdit), tag < 2 ^ 32 →
      (∀ input, decodeField a tag input = took msg set (getNumber input)) → (o = none → a' = a) → (∀ n, o = some n → a' = set n) →
      ∀ rest, Steps a (field tag putNumber o ++ rest) a' rest := by
    intro tag o a a' msg set htag hdec hnone hsome rest
    refine .option htag hnone fun n hn => ?_
    rw [hdec, getNumber_putNumber, hsome n hn]
    rfl
  refine @Steps.trans _ (heading e.comparator none none none none) _ _ _ _ (.option (by decide) (fun h => by rw [h]; rfl) fun s hs => ?_) ?_
  · unfold decodeField
    rw [if_pos rfl, getLengthPrefixed_lengthPrefixed (hf.comparator s hs), hs]
    rfl
  refine @Steps.trans _ (heading e.comparator e.logNumber none none none) _ _ _ _ (hnum "log number" _ (by decide) (fun _ => rfl)
    (fun h => by rw [h]) (fun n h => by rw [h]; rfl) _) ?_
  refine @Steps.trans _ (heading e.comparator e.logNumber e.prevLogNumber none none) _ _ _ _ (hnum "previous log number" _ (by decide)
    (fun _ => rfl) (fun h => by rw [h]) (fun n h => by rw [h]; rfl) _) ?_
  refine @Steps.trans _ (heading e.comparator e.logNumber e.prevLogNumber e.nextFileNumber none) _ _ _ _ (hnum "next file number" _
    (by decide) (fun _ => rfl) (fun h => by rw [h]) (fun n h => by rw [h]; rfl) _) ?_
  exact hnum "last sequence number" _ (show 4 < 2 ^ 32 by decide) (fun _ => rfl) (fun h => by rw [h]) (fun n h => by rw [h]; rfl) _

theorem steps_lists (hl : e.LevelsOk) (hf : e.Fits) (a : VersionEdit) : Steps a (e.compactPointers.flatMap pointerBytes ++
    (e.deletedFiles.files.flatMap deletedBytes ++ (e.newFiles.flatMap newFileBytes ++ [])))
    (e.newFiles.foldl addNewFile (e.deletedFiles.files.foldl addDeleted (e.compactPointers.foldl addPointer a))) [] := by
  refine (Steps.flatMap fun p hp a rest => ?_).trans ((Steps.flatMap fun p hp a rest => ?_).trans (Steps.flatMap fun p hp a rest => ?_))
  · unfold pointerBytes
    rw [append_assoc (encodeVarint32 5)]
    refine .field (by decide) ?_
    have hdec : ∀ input, decodeField a 5 input = took "compaction pointer" (addPointer a) (getPointer input) := fun _ => rfl
    rw [hdec, getPointer_bytes (hl.compactPointers p hp) (hf.compactPointers p hp)]
    rfl
  · unfold deletedBytes
    rw [append_assoc (encodeVarint32 6)]
    refine .field (by decide) ?_
    have hdec : ∀ input, decodeField a 6 input = took "deleted file" (addDeleted a) (getDeleted input) := fun _ => rfl
    rw [hdec, getDeleted_bytes (hl.deletedFiles p hp)]
    rfl
  · unfold newFileBytes
    simp only [append_assoc (encodeVarint32 7)]
    rw [← append_assoc (encodeVarint32 7)]
    refine .field (by decide) ?_
    have hdec : ∀ input, decodeField a 7 input = took "new-file entry" (addNewFile a) (getNewFile input) := fun _ => rfl
    rw [hdec, getNewFile_bytes (hl.newFiles p hp) (hf.newFiles p hp).1 (hf.newFiles p hp).2]
    rfl

theorem lists_heading (e : VersionEdit) : e.newFiles.foldl addNewFile (e.deletedFiles.files.foldl addDeleted
    (e.compactPointers.foldl addPointer (heading e.comparator e.logNumber e.prevLogNumber e.nextFileNumber e.lastSequence))) = e := by
  rw [foldl_addPointer, foldl_addDeleted _ _ (by exact e.deletedFiles.sorted), foldl_addNewFile]
  rfl

theorem decodeFrom_encodeTo (hl : e.LevelsOk) (hf : e.Fits) : decodeFrom new e.encodeTo = (e, .ok) := by
  have h := (steps_heading hf _).trans (steps_lists hl hf _)
  rw [lists_heading] at h
  have hbytes : e.encodeTo = field 1 lengthPrefixed e.comparator ++ (field 2 putNumber e.logNumber ++ (field 9 putNumber e.prevLogNumber ++
      (field 3 putNumber e.nextFileNumber ++ (field 4 putNumber e.lastSequence ++ (e.compactPointers.flatMap pointerBytes ++
      (e.deletedFiles.files.flatMap deletedBytes ++ (e.newFiles.flatMap newFileBytes ++ []))))))) := by
    unfold encodeTo
    simp only [append_assoc, append_nil]
  rw [← hbytes] at h
  obtain ⟨fuel, -, heq⟩ := h (e.encodeTo.length + 1) (Nat.lt_succ_self _)
  have hnew : new.clear = new := rfl
  unfold decodeFrom
  rw [hnew, heq, decodeLoop_nil]

/-- What is read into an edit, for a fact about edits. -/
theorem decodeLoop_inv {P : VersionEdit → Prop} (hstep : ∀ e tag input e' rest, P e → decodeField e tag input = .ok (e', rest) → P e') :
    ∀ (fuel : ℕ) {e : VersionEdit} (input : Bytes), P e → P (decodeLoop fuel e input).1 := by
  intro fuel
  induction fuel with
  | zero => exact fun input he => he
  | succ fuel ih =>
    intro e input he
    rw [decodeLoop]
    cases getVarint32 input with
    | none => exact he
    | some r =>
      dsimp only
      cases hd : decodeField e r.1 r.2 with
      | error msg => exact he
      | ok r' => exact ih r'.2 (hstep e r.1 r.2 r'.1 r'.2 he hd)

theorem took_ok {α : Type} {msg : String} {set : α → VersionEdit} {o : Option (α × Bytes)} (h : took msg set o = .ok (e', rest)) :
    ∃ a, o = some (a, rest) ∧ e' = set a := by
  cases o with
  | none => cases h
  | some r =>
    obtain ⟨rfl, rfl⟩ := Prod.mk.inj (Except.ok.inj h)
    exact ⟨r.1, rfl, rfl⟩

theorem decodeField_cases (h : decodeField e tag input = .ok (e', rest)) :
    (∃ s, getLengthPrefixed input = some (s, rest) ∧ e' = { e with comparator := some s }) ∨
    (∃ n, e' = { e with logNumber := some n } ∨ e' = { e with prevLogNumber := some n } ∨ e' = { e with nextFileNumber := some n } ∨
      e' = { e with lastSequence := some n }) ∨
    (∃ p, getPointer input = some (p, rest) ∧ e' = e.addPointer p) ∨ (∃ p, e' = e.addDeleted p) ∨
    ∃ p, getNewFile input = some (p, rest) ∧ e' = e.addNewFile p := by
  unfold decodeField at h
  split_ifs at h
  · exact Or.inl (took_ok h)
  · obtain ⟨n, -, rfl⟩ := took_ok h
    exact Or.inr (Or.inl ⟨n, Or.inl rfl⟩)
  · obtain ⟨n, -, rfl⟩ := took_ok h
    exact Or.inr (Or.inl ⟨n, Or.inr (Or.inl rfl)⟩)
  · obtain ⟨n, -, rfl⟩ := took_ok h
    exact Or.inr (Or.inl ⟨n, Or.inr (Or.inr (Or.inl rfl))⟩)
  · obtain ⟨n, -, rfl⟩ := took_ok h
    exact Or.inr (Or.inl ⟨n, Or.inr (Or.inr (Or.inr rfl))⟩)
  · exact Or.inr (Or.inr (Or.inl (took_ok h)))
  · obtain ⟨p, -, rfl⟩ := took_ok h
    exact Or.inr (Or.inr (Or.inr (Or.inl ⟨p, rfl⟩)))
  · exact Or.inr (Or.inr (Or.inr (Or.inr (took_ok h))))

theorem getPointer_fits (h : getPointer input = some (p, rest)) : p.2.length < 2 ^ 32 := by
  obtain ⟨⟨level, input'⟩, -, h⟩ := bind_eq_some_iff.1 h
  obtain ⟨⟨key, input''⟩, hkey, h⟩ := bind_eq_some_iff.1 h
  obtain ⟨rfl, -⟩ := Prod.mk.inj (Option.some.inj h)
  exact length_of_getLengthPrefixed hkey

theorem getNewFile_fits {p : ℕ × FileMetaData} (h : getNewFile input = some (p, rest)) :
    p.2.smallest.length < 2 ^ 32 ∧ p.2.largest.length < 2 ^ 32 := by
  obtain ⟨_, -, h⟩ := bind_eq_some_iff.1 h
  obtain ⟨_, -, h⟩ := bind_eq_some_iff.1 h
  obtain ⟨_, -, h⟩ := bind_eq_some_iff.1 h
  obtain ⟨⟨smallest, _⟩, hs, h⟩ := bind_eq_some_iff.1 h
  obtain ⟨⟨largest, _⟩, hg, h⟩ := bind_eq_some_iff.1 h
  obtain ⟨rfl, -⟩ := Prod.mk.inj (Option.some.inj h)
  exact ⟨length_of_getLengthPrefixed hs, length_of_getLengthPrefixed hg⟩

theorem Fits.decodeField (hf : e.Fits) (h : decodeField e tag input = .ok (e', rest)) : e'.Fits := by
  rcases decodeField_cases h with ⟨s, hs, rfl⟩ | ⟨n, rfl | rfl | rfl | rfl⟩ | ⟨p, hp, rfl⟩ | ⟨p, rfl⟩ | ⟨p, hp, rfl⟩
  · refine ⟨fun s' hs' => ?_, hf.compactPointers, hf.newFiles⟩
    obtain rfl := Option.some.inj hs'
    exact length_of_getLengthPrefixed hs
  · exact ⟨hf.comparator, hf.compactPointers, hf.newFiles⟩
  · exact ⟨hf.comparator, hf.compactPointers, hf.newFiles⟩
  · exact ⟨hf.comparator, hf.compactPointers, hf.newFiles⟩
  · exact ⟨hf.comparator, hf.compactPointers, hf.newFiles⟩
  · exact ⟨hf.comparator, forall_mem_append.2 ⟨hf.compactPointers, by simpa using getPointer_fits hp⟩, hf.newFiles⟩
  · exact ⟨hf.comparator, hf.compactPointers, hf.newFiles⟩
  · exact ⟨hf.comparator, hf.compactPointers, forall_mem_append.2 ⟨hf.newFiles, by simpa using getNewFile_fits hp⟩⟩

theorem decodeFrom_fits (src : Bytes) : (decodeFrom new src).1.Fits :=
  decodeLoop_inv (fun _ _ _ _ _ hf h => hf.decodeField h) _ src
    ⟨fun _ h => (by cases h), fun _ h => absurd h not_mem_nil, fun _ h => absurd h not_mem_nil⟩

def behind (front : List (ℕ × Bytes)) (e : VersionEdit) : VersionEdit := { e with compactPointers := front ++ e.compactPointers }

theorem decodeField_behind (front : List (ℕ × Bytes)) (e : VersionEdit) (tag : ℕ) (input : Bytes) :
    decodeField (e.behind front) tag input = (decodeField e tag input).map fun r => (r.1.behind front, r.2) := by
  have htook : ∀ {α : Type} {msg : String} {set set' : α → VersionEdit} {o : Option (α × Bytes)}, (∀ a, set' a = (set a).behind front) →
      took msg set' o = (took msg set o).map fun r => (r.1.behind front, r.2) := by
    intro α msg set set' o h
    cases o with
    | none => rfl
    | some r => exact congrArg (fun e => Except.ok (e, r.2)) (h r.1)
  unfold decodeField
  split_ifs
  · exact htook fun _ => rfl
  · exact htook fun _ => rfl
  · exact htook fun _ => rfl
  · exact htook fun _ => rfl
  · exact htook fun _ => rfl
  · refine htook fun p => ?_
    unfold behind
    rw [append_assoc]
  · exact htook fun _ => rfl
  · exact htook fun _ => rfl
  · rfl

theorem decodeLoop_behind (front : List (ℕ × Bytes)) : ∀ (fuel : ℕ) (e : VersionEdit) (input : Bytes),
    decodeLoop fuel (e.behind front) input = ((decodeLoop fuel e input).1.behind front, (decodeLoop fuel e input).2) := by
  intro fuel
  induction fuel with
  | zero => exact fun e input => rfl
  | succ fuel ih =>
    intro e input
    rw [decodeLoop, decodeLoop]
    cases getVarint32 input with
    | none => rfl
    | some r =>
      dsimp only
      rw [decodeField_behind]
      cases decodeField e r.1 r.2 with
      | error msg => rfl
      | ok r' => exact ih r'.1 r'.2

theorem decodeFrom_pointers (used : VersionEdit) (src : Bytes) :
    decodeFrom used src = ((decodeFrom new src).1.behind used.compactPointers, (decodeFrom new src).2) := by
  have hclear : used.clear = new.clear.behind used.compactPointers := by
    unfold clear behind
    rw [show new.compactPointers = [] from rfl, append_nil]
  unfold decodeFrom
  rw [hclear, decodeLoop_behind]

theorem decodeFrom_iff (used e : VersionEdit) (src : Bytes) : (e.LevelsOk → e.KeysOk → (decodeFrom new e.encodeTo = (e, .ok) ↔ e.Fits)) ∧
    (decodeFrom used src = decodeFrom new src ↔ used.compactPointers = []) := by
  refine ⟨fun hl _ => ⟨fun h => ?_, decodeFrom_encodeTo hl⟩, ?_⟩
  · have hfits := decodeFrom_fits e.encodeTo
    rw [h] at hfits
    exact hfits
  · rw [decodeFrom_pointers]
    constructor
    · intro h
      have hlen := congrArg (fun r => r.1.compactPointers.length) h
      unfold behind at hlen
      rw [length_append] at hlen
      exact eq_nil_of_length_eq_zero (by omega)
    · intro h
      rw [h]
      rfl

theorem decodeFrom_fails : decodeFrom { new with compactPointers := [(1, [7])] } [] ≠ decodeFrom new [] := by
  intro h
  have hlen := congrArg (fun r => r.1.compactPointers.length) h
  revert hlen
  decide

end VersionEdit

end KVStores.LevelDb.Manifest
