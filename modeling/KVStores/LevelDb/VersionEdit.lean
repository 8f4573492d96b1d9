import KVStores.LevelDb.Version
import KVStores.LevelDb.LogWriter
import KVStores.Lib.KeyedSet

/-!
# Edits of a version

A `VersionEdit` says what changes from one version to the next; a `VersionSet::Builder` applies
edits to a version, one or many, before it sorts the files of each level (`version_set.cc`).
-/

namespace KVStores.LevelDb

open List Function

/-- `VersionEdit`. The files to delete are pairs of a level and a number. -/
structure VersionEdit (K : Type) where
  comparator : Option String
  logNumber : Option ℕ
  prevLogNumber : Option ℕ
  nextFileNumber : Option ℕ
  lastSequence : Option ℕ
  compactPointers : List (ℕ × InternalKey K)
  deletedFiles : List (ℕ × ℕ)
  newFiles : List (ℕ × FileMetaData K)
deriving DecidableEq

def VersionEdit.clear {K : Type} : VersionEdit K := ⟨none, none, none, none, none, [], [], []⟩

/-- What `BySmallestKey` compares: the smallest key, then the number. -/
def bySmallestKey {K : Type} (f : FileMetaData K) : InternalKey K ×ₗ ℕ := toLex (f.smallest, f.number)

/-- `VersionSet::Builder`: the version it starts from, and of each level the numbers of the files
that are deleted and the files that are added. -/
structure Builder (K : Type) where
  base : Version K
  deletedFiles : ℕ → List ℕ
  addedFiles : ℕ → List (FileMetaData K)

/-- `compact_pointer_` with the pointers of an edit. -/
def applyPointers {K : Type} (pointers : ℕ → Option (InternalKey K)) (edit : VersionEdit K) : ℕ → Option (InternalKey K) :=
  edit.compactPointers.foldl (fun pointers p => Function.update pointers p.1 (some p.2)) pointers

def VersionEdit.newAt {K : Type} (edit : VersionEdit K) (level : ℕ) : List (FileMetaData K) :=
  (edit.newFiles.filter fun p => decide (p.1 = level)).map Prod.snd

def VersionEdit.deletedAt {K : Type} (edit : VersionEdit K) (level : ℕ) : List ℕ :=
  (edit.deletedFiles.filter fun p => decide (p.1 = level)).map Prod.snd

namespace Builder

variable {K : Type} [LinearOrder K]

def new (base : Version K) : Builder K := ⟨base, fun _ => [], fun _ => []⟩

/-- One new file of `Builder::Apply`. -/
def addFile (b : Builder K) (level : ℕ) (f : FileMetaData K) : Builder K :=
  { b with
    deletedFiles := Function.update b.deletedFiles level ((b.deletedFiles level).filter fun n => decide (n ≠ f.number))
    addedFiles := Function.update b.addedFiles level (insertBy bySmallestKey f (b.addedFiles level)) }

/-- One deleted file of `Builder::Apply`. -/
def deleteFile (b : Builder K) (level number : ℕ) : Builder K :=
  { b with deletedFiles := Function.update b.deletedFiles level (number :: b.deletedFiles level) }

/-- `Builder::Apply`, but for the compaction pointers: first the deleted files, then the new ones. -/
def apply (b : Builder K) (edit : VersionEdit K) : Builder K :=
  edit.newFiles.foldl (fun b p => b.addFile p.1 p.2) (edit.deletedFiles.foldl (fun b p => b.deleteFile p.1 p.2) b)

/-- `Builder::SaveTo`. `MaybeAddFile` leaves the deleted files out. -/
def saveTo (b : Builder K) : Version K := fun level =>
  if level < kNumLevels then
    (mergeBy bySmallestKey (b.base level) (b.addedFiles level)).filter fun f => decide (f.number ∉ b.deletedFiles level)
  else []

variable {b : Builder K} {edit : VersionEdit K} {level : ℕ}

omit [LinearOrder K] in
theorem deleteFiles_level : ∀ (del : List (ℕ × ℕ)) (b : Builder K),
    (∀ n, n ∈ (del.foldl (fun b p => b.deleteFile p.1 p.2) b).deletedFiles level ↔
      n ∈ (del.filter fun p => decide (p.1 = level)).map Prod.snd ∨ n ∈ b.deletedFiles level) ∧
    (del.foldl (fun b p => b.deleteFile p.1 p.2) b).addedFiles = b.addedFiles ∧ (del.foldl (fun b p => b.deleteFile p.1 p.2) b).base = b.base
  | [], b => ⟨fun n => by simp, rfl, rfl⟩
  | p :: del, b => by
    obtain ⟨h1, h2, h3⟩ := deleteFiles_level del (b.deleteFile p.1 p.2)
    refine ⟨fun n => ?_, h2, h3⟩
    rw [foldl_cons, h1, filter_cons]
    unfold deleteFile
    dsimp only
    by_cases hp : p.1 = level
    · subst hp
      rw [update_self, if_pos (decide_eq_true rfl), map_cons, mem_cons, mem_cons]
      tauto
    · rw [update_of_ne (Ne.symm hp), if_neg (by simpa using hp)]

theorem addFiles_level : ∀ (new : List (ℕ × FileMetaData K)) (b : Builder K),
    (∀ n, n ∈ (new.foldl (fun b p => b.addFile p.1 p.2) b).deletedFiles level ↔
      n ∈ b.deletedFiles level ∧ ∀ f ∈ (new.filter fun p => decide (p.1 = level)).map Prod.snd, n ≠ f.number) ∧
    (new.foldl (fun b p => b.addFile p.1 p.2) b).addedFiles level =
      ((new.filter fun p => decide (p.1 = level)).map Prod.snd).foldl (fun l f => insertBy bySmallestKey f l) (b.addedFiles level) ∧
    (new.foldl (fun b p => b.addFile p.1 p.2) b).base = b.base
  | [], b => ⟨fun n => by simp, rfl, rfl⟩
  | p :: new, b => by
    obtain ⟨h1, h2, h3⟩ := addFiles_level new (b.addFile p.1 p.2)
    rw [foldl_cons, filter_cons]
    refine ⟨fun n => ?_, ?_, h3⟩
    · rw [h1]
      unfold addFile
      dsimp only
      by_cases hp : p.1 = level
      · subst hp
        rw [update_self, if_pos (decide_eq_true rfl), map_cons, forall_mem_cons, mem_filter, decide_eq_true_eq]
        tauto
      · rw [update_of_ne (Ne.symm hp), if_neg (by simpa using hp)]
    · rw [h2]
      unfold addFile
      dsimp only
      by_cases hp : p.1 = level
      · subst hp
        rw [update_self, if_pos (decide_eq_true rfl), map_cons, foldl_cons]
      · rw [update_of_ne (Ne.symm hp), if_neg (by simpa using hp)]

theorem apply_addedFiles (b : Builder K) (edit : VersionEdit K) (level : ℕ) :
    (b.apply edit).addedFiles level = (edit.newAt level).foldl (fun l f => insertBy bySmallestKey f l) (b.addedFiles level) := by
  unfold apply VersionEdit.newAt
  rw [(addFiles_level _ _).2.1, (@deleteFiles_level _ level _ b).2.1]

theorem mem_apply_deletedFiles {n : ℕ} : n ∈ (b.apply edit).deletedFiles level ↔
    (n ∈ edit.deletedAt level ∨ n ∈ b.deletedFiles level) ∧ ∀ f ∈ edit.newAt level, n ≠ f.number := by
  unfold apply VersionEdit.newAt VersionEdit.deletedAt
  rw [(addFiles_level _ _).1, (deleteFiles_level _ _).1]

@[simp] theorem apply_base (b : Builder K) (edit : VersionEdit K) : (b.apply edit).base = b.base := by
  unfold apply
  rw [(@addFiles_level _ _ 0 _ _).2.2, (@deleteFiles_level _ 0 _ b).2.2]

def OneFile (files : ℕ → FileMetaData K) (l : List (FileMetaData K)) : Prop := ∀ f ∈ l, f = files f.number

variable {files : ℕ → FileMetaData K} {l : List (FileMetaData K)} {f g : FileMetaData K}

omit [LinearOrder K] in
theorem OneFile.eq (h : OneFile files l) (hf : f ∈ l) (hg : g ∈ l) (hn : f.number = g.number) : f = g := by
  rw [h f hf, h g hg, hn]

omit [LinearOrder K] in
theorem OneFile.key (h : OneFile files l) (hf : f ∈ l) (hg : g ∈ l) (hk : bySmallestKey f = bySmallestKey g) : f = g :=
  h.eq hf hg (congrArg (fun p => (ofLex p).2) hk)

/-- A builder that starts from nothing, in which a number stands for one file. -/
structure FromNothing (files : ℕ → FileMetaData K) (b : Builder K) : Prop where
  base : b.base = fun _ => []
  sorted : ∀ level, KeySorted bySmallestKey (b.addedFiles level)
  oneFile : ∀ level, OneFile files (b.addedFiles level)

def Fresh (files : ℕ → FileMetaData K) (v : Version K) (edit : VersionEdit K) : Prop :=
  ∀ level, OneFile files (edit.newAt level) ∧ ∀ f ∈ edit.newAt level, ∀ g ∈ v level, g.number ≠ f.number

variable {files : ℕ → FileMetaData K}

omit [LinearOrder K] in
theorem mem_newAt : f ∈ edit.newAt level ↔ (level, f) ∈ edit.newFiles := by
  unfold VersionEdit.newAt
  rw [List.mem_map]
  constructor
  · rintro ⟨p, hp, rfl⟩
    obtain ⟨hp, hl⟩ := mem_filter.1 hp
    rwa [← of_decide_eq_true hl]
  · intro h
    exact ⟨(level, f), mem_filter.2 ⟨h, decide_eq_true rfl⟩, rfl⟩

omit [LinearOrder K] in
theorem mem_deletedAt {n : ℕ} : n ∈ edit.deletedAt level ↔ (level, n) ∈ edit.deletedFiles := by
  unfold VersionEdit.deletedAt
  rw [List.mem_map]
  constructor
  · rintro ⟨p, hp, rfl⟩
    obtain ⟨hp, hl⟩ := mem_filter.1 hp
    rwa [← of_decide_eq_true hl]
  · intro h
    exact ⟨(level, n), mem_filter.2 ⟨h, decide_eq_true rfl⟩, rfl⟩

variable {v : Version K}

omit [LinearOrder K] in
theorem fresh_iff : Fresh files v edit ↔ ∀ p ∈ edit.newFiles, p.2 = files p.2.number ∧ ∀ g ∈ v p.1, g.number ≠ p.2.number := by
  constructor
  · intro h p hp
    have hmem : p.2 ∈ edit.newAt p.1 := mem_newAt.2 hp
    exact ⟨(h p.1).1 p.2 hmem, (h p.1).2 p.2 hmem⟩
  · intro h level
    exact ⟨fun f hf => (h _ (mem_newAt.1 hf)).1, fun f hf => (h _ (mem_newAt.1 hf)).2⟩

theorem FromNothing.saveTo_eq (h : FromNothing files b) (hlevel : level < kNumLevels) :
    b.saveTo level = (b.addedFiles level).filter fun f => decide (f.number ∉ b.deletedFiles level) := by
  unfold saveTo
  rw [if_pos hlevel, h.base, mergeBy_nil]

theorem FromNothing.saveTo_sorted (h : FromNothing files b) (level : ℕ) :
    KeySorted bySmallestKey (b.saveTo level) ∧ OneFile files (b.saveTo level) := by
  by_cases hlevel : level < kNumLevels
  · rw [h.saveTo_eq hlevel]
    exact ⟨List.Pairwise.filter _ (h.sorted level), fun f hf => h.oneFile level f (mem_filter.1 hf).1⟩
  · unfold saveTo
    rw [if_neg hlevel]
    exact ⟨List.Pairwise.nil, fun f hf => (not_mem_nil hf).elim⟩

theorem FromNothing.apply (h : FromNothing files b) (hnew : ∀ level, OneFile files (edit.newAt level)) : FromNothing files (b.apply edit) := by
  have hkey : ∀ level, ∀ a ∈ edit.newAt level ++ b.addedFiles level, ∀ c ∈ edit.newAt level ++ b.addedFiles level,
      bySmallestKey c = bySmallestKey a → c = a := by
    intro level a ha c hc hk
    have hall : OneFile files (edit.newAt level ++ b.addedFiles level) := by
      intro f hf
      rcases mem_append.1 hf with hf | hf
      · exact hnew level f hf
      · exact h.oneFile level f hf
    exact hall.key hc ha hk
  refine ⟨by rw [apply_base, h.base], fun level => ?_, fun level f hf => ?_⟩
  · rw [apply_addedFiles]
    exact (foldl_insertBy _ (h.sorted level) (hkey level)).1
  · rw [apply_addedFiles, (foldl_insertBy _ (h.sorted level) (hkey level)).2] at hf
    rcases hf with hf | hf
    · exact hnew level f hf
    · exact h.oneFile level f hf

omit [LinearOrder K] in
theorem FromNothing.new (files : ℕ → FileMetaData K) [LinearOrder K] : FromNothing files (Builder.new fun _ => []) :=
  ⟨rfl, fun _ => List.Pairwise.nil, fun _ _ hf => (not_mem_nil hf).elim⟩

theorem new_apply_saveTo_of {v : Version K} (hv : KeySorted bySmallestKey (v level))
    (hone : ∀ a ∈ edit.newAt level, ∀ c ∈ edit.newAt level, bySmallestKey c = bySmallestKey a → c = a)
    (hne : ∀ f ∈ edit.newAt level, ∀ g ∈ v level, g.number ≠ f.number) (hlevel : level < kNumLevels) :
    KeySorted bySmallestKey (((Builder.new v).apply edit).saveTo level) ∧
    ∀ f, f ∈ ((Builder.new v).apply edit).saveTo level ↔ f ∈ edit.newAt level ∨ f ∈ v level ∧ f.number ∉ edit.deletedAt level := by
  obtain ⟨hadd, hmem⟩ := @foldl_insertBy _ _ _ bySmallestKey (edit.newAt level) [] List.Pairwise.nil fun a ha c hc hk => by
    rw [append_nil] at ha hc
    exact hone a ha c hc hk
  have hlist : ((Builder.new v).apply edit).saveTo level =
      (mergeBy bySmallestKey (v level) ((edit.newAt level).foldl (fun l f => insertBy bySmallestKey f l) [])).filter fun f =>
        decide (f.number ∉ ((Builder.new v).apply edit).deletedFiles level) := by
    unfold saveTo
    rw [if_pos hlevel, apply_base, apply_addedFiles]
    rfl
  generalize (edit.newAt level).foldl (fun l f => insertBy bySmallestKey f l) [] = added at hadd hmem hlist
  have hperm := @mergeBy_perm _ _ _ bySmallestKey (v level) added
  -- no key is there twice: the new files are not in the version
  have hsorted : KeySorted bySmallestKey (mergeBy bySmallestKey (v level) added) := by
    refine (mergeBy_ordered hv.ordered hadd.ordered).sorted ?_
    rw [hperm.pairwise_iff (fun {a b} hab => Ne.symm hab)]
    refine pairwise_append.2 ⟨hv.imp fun hab => ne_of_lt hab, hadd.imp fun hab => ne_of_lt hab, fun a ha c hc hk => ?_⟩
    have hc := ((hmem c).1 hc).resolve_right not_mem_nil
    exact hne c hc a ha (congrArg (fun p => (ofLex p).2) hk)
  rw [hlist]
  refine ⟨List.Pairwise.filter _ hsorted, fun f => ?_⟩
  rw [mem_filter, hperm.mem_iff, mem_append, hmem, decide_eq_true_eq, mem_apply_deletedFiles]
  have hnil : f.number ∉ (Builder.new v).deletedFiles level := not_mem_nil
  constructor
  · rintro ⟨hf | hf, hdel⟩
    · by_cases hin : f ∈ edit.newAt level
      · exact Or.inl hin
      · refine Or.inr ⟨hf, fun hd => hdel ⟨Or.inl hd, fun g hg hn => ?_⟩⟩
        exact hne g hg f hf hn
    · exact Or.inl (hf.resolve_right not_mem_nil)
  · rintro (hf | ⟨hf, hd⟩)
    · exact ⟨Or.inr (Or.inl hf), fun hdel => hdel.2 f hf rfl⟩
    · exact ⟨Or.inl hf, fun hdel => hdel.1.elim hd hnil⟩

theorem new_apply_saveTo {v : Version K} (hv : KeySorted bySmallestKey (v level)) (hfresh : Fresh files v edit) (hlevel : level < kNumLevels) :
    KeySorted bySmallestKey (((Builder.new v).apply edit).saveTo level) ∧
    ∀ f, f ∈ ((Builder.new v).apply edit).saveTo level ↔ f ∈ edit.newAt level ∨ f ∈ v level ∧ f.number ∉ edit.deletedAt level :=
  new_apply_saveTo_of hv (fun _ ha _ hc hk => (hfresh level).1.key hc ha hk) (hfresh level).2 hlevel

/-- **One more edit in a builder has the effect of the edit on the version that the builder stands for.** -/
theorem apply_saveTo (h : FromNothing files b) (hfresh : Fresh files b.saveTo edit) :
    (b.apply edit).saveTo = ((Builder.new b.saveTo).apply edit).saveTo := by
  funext level
  by_cases hlevel : level < kNumLevels
  · have hb := h.apply fun level => (hfresh level).1
    obtain ⟨hs, hmem⟩ := new_apply_saveTo (h.saveTo_sorted level).1 hfresh hlevel
    refine (hb.saveTo_sorted level).1.ext hs fun f => ?_
    have hkey : ∀ a ∈ edit.newAt level ++ b.addedFiles level, ∀ c ∈ edit.newAt level ++ b.addedFiles level,
        bySmallestKey c = bySmallestKey a → c = a := by
      intro a ha c hc hk
      have hall : OneFile files (edit.newAt level ++ b.addedFiles level) := by
        intro f hf
        rcases mem_append.1 hf with hf | hf
        · exact (hfresh level).1 f hf
        · exact h.oneFile level f hf
      exact hall.key hc ha hk
    rw [hmem, hb.saveTo_eq hlevel, h.saveTo_eq hlevel, mem_filter, mem_filter, apply_addedFiles,
      (foldl_insertBy _ (h.sorted level) hkey).2, decide_eq_true_eq, decide_eq_true_eq, mem_apply_deletedFiles]
    constructor
    · rintro ⟨hf, hdel⟩
      by_cases hin : f ∈ edit.newAt level
      · exact Or.inl hin
      · have hf := hf.resolve_left hin
        -- no new file has its number: it would be the file
        have hnum : ∀ g ∈ edit.newAt level, f.number ≠ g.number := by
          intro g hg hn
          have : f = g := by rw [h.oneFile level f hf, (hfresh level).1 g hg, hn]
          exact hin (this ▸ hg)
        exact Or.inr ⟨⟨hf, fun hd => hdel ⟨Or.inr hd, hnum⟩⟩, fun hd => hdel ⟨Or.inl hd, hnum⟩⟩
    · rintro (hf | ⟨⟨hf, hd⟩, hd'⟩)
      · exact ⟨Or.inl hf, fun hdel => hdel.2 f hf rfl⟩
      · exact ⟨Or.inr hf, fun hdel => hdel.1.elim hd' hd⟩
  · unfold saveTo
    rw [if_neg hlevel, if_neg hlevel]

end Builder

end KVStores.LevelDb
