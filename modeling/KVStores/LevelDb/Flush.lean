import KVStores.LevelDb.Installed

/-!
# Flushes in the middle of a compaction

`DoCompactionWork` writes a full memtable to a table whenever it sees one (`CompactMemTable`). The level of
the table is picked by the files of the current version; the outputs of the compaction are not there yet.

* `flushes_installed_apart`: **the version behind flushes and the compaction has its levels apart exactly when no
  table that went to the level of the outputs overlaps one of them**, and so when these tables are outside of the
  range of the inputs.
-/

namespace KVStores.LevelDb

open List

variable {K V : Type} [LinearOrder K]

/-- The keys that `PackSequenceAndType` makes. -/
def KeyOk (k : InternalKey K) : Prop := k.type? ≠ none ∧ k.sequence ≤ kMaxSequenceNumber

def KeysOk (v : Version K) : Prop := ∀ level, ∀ f ∈ v level, KeyOk f.largest

/-- The edit of `CompactMemTable`; a table without entries is not added. -/
def flushEdit (v : Version K) (logNumber : ℕ) (f : FileMetaData K) : VersionEdit K :=
  { (VersionEdit.clear : VersionEdit K) with
    prevLogNumber := some 0
    logNumber := some logNumber
    newFiles := if 0 < f.fileSize then [(pickLevelForMemTableOutput v f.smallest.userKey f.largest.userKey, f)] else [] }

/-- `CompactMemTable`: the version with the table of a memtable. -/
def flush (v : Version K) (logNumber : ℕ) (f : FileMetaData K) : Version K := ((Builder.new v).apply (flushEdit v logNumber f)).saveTo

def flushes (v : Version K) (fs : List (ℕ × FileMetaData K)) : Version K := fs.foldl (fun v p => flush v p.1 p.2) v

/-- What flushes may be given: a table with a new number and keys as `PackSequenceAndType` makes them. -/
@[grind =] def FlushesOk : Version K → List (ℕ × FileMetaData K) → Prop
  | _, [] => True
  | v, p :: fs => (p.2.smallest ≤ p.2.largest ∧ KeyOk p.2.largest ∧ ∀ level, ∀ g ∈ v level, g.number ≠ p.2.number) ∧ FlushesOk (flush v p.1 p.2) fs

@[grind =] def flushedTo (level : ℕ) : Version K → List (ℕ × FileMetaData K) → List (FileMetaData K)
  | _, [] => []
  | v, p :: fs => (flushEdit v p.1 p.2).newAt level ++ flushedTo level (flush v p.1 p.2) fs

def FlushClear (c : Compaction K) (v : Version K) (f : FileMetaData K) : Prop :=
  pickLevelForMemTableOutput v f.smallest.userKey f.largest.userKey = c.level + 1 →
    ∀ s l, getRange2 c.inputs0 c.inputs1 = some (s, l) → f.largest.userKey < s.userKey ∨ l.userKey < f.smallest.userKey

@[grind =] def FlushesClear (c : Compaction K) : Version K → List (ℕ × FileMetaData K) → Prop
  | _, [] => True
  | v, p :: fs => FlushClear c v p.2 ∧ FlushesClear c (flush v p.1 p.2) fs

variable {v : Version K} {c : Compaction K} {f g : FileMetaData K} {level n : ℕ} {a b m n' : K} {files : List (FileMetaData K)}

theorem kMax_le_iff {k : InternalKey K} (h : KeyOk k) : lookupKey a kMaxSequenceNumber ≤ k ↔ a ≤ k.userKey := by
  rw [lookupKey_le_iff h.1, le_iff_lt_or_eq (a := a)]
  exact or_congr Iff.rfl (and_iff_left h.2)

theorem overlapInLevel_false (hok : FilesOk v) (hkeys : KeysOk v) (hdisj : Apart v) (h : overlapInLevel v level (some a) (some b) = false) :
    ∀ f ∈ v level, f.largest.userKey < a ∨ b < f.smallest.userKey := by
  unfold overlapInLevel someFileOverlapsRange at h
  rcases Nat.eq_zero_or_pos level with rfl | hlevel
  · rw [if_pos (by decide), List.any_eq_false] at h
    intro f hf
    have := h f hf
    simp only [afterFile, beforeFile] at this
    by_contra hc
    rw [not_or, not_lt, not_lt] at hc
    exact this (by simp [hc.1, hc.2])
  · rw [if_neg (by simp [hlevel])] at h
    dsimp only at h
    rw [findFile_getElem? (hok.endsSorted hdisj level hlevel)] at h
    cases hfind : (v level).find? (fun f => decide (lookupKey a kMaxSequenceNumber ≤ f.largest)) with
    | none =>
      intro f hf
      left
      have := List.find?_eq_none.1 hfind f hf
      rwa [decide_eq_true_eq, kMax_le_iff (hkeys level f hf), not_le] at this
    | some g =>
      rw [hfind] at h
      have hg : b < g.smallest.userKey := by simpa [beforeFile] using h
      obtain ⟨-, x, y, hxy, hx⟩ := List.find?_eq_some_iff_append.1 hfind
      have hpair := hdisj level hlevel
      rw [hxy] at hpair
      intro f hf
      rw [hxy] at hf
      rcases mem_append.1 hf with hf' | hf'
      · -- the files before the one that is found end before the range
        left
        have hmem : f ∈ v level := by rw [hxy]; exact hf
        have := hx f hf'
        rw [Bool.not_eq_true', decide_eq_false_iff_not, kMax_le_iff (hkeys level f hmem), not_le] at this
        exact this
      · right
        rcases mem_cons.1 hf' with rfl | hf'
        · exact hg
        · have hlt := (pairwise_cons.1 (pairwise_append.1 hpair).2.1).1 f hf'
          have hgv : g ∈ v level := by rw [hxy]; exact mem_append_right _ mem_cons_self
          exact lt_of_lt_of_le hg (InternalKey.userKey_le (le_trans (hok.range level g hgv) (le_of_lt hlt)))

theorem pickLevelLoop_spec : ∀ (fuel level : ℕ), let level' := pickLevelLoop v a b fuel level
    level' ≤ level + fuel ∧ ∀ i, level < i → i ≤ level' → overlapInLevel v i (some a) (some b) = false
  | 0, level => ⟨le_refl _, fun i h1 h2 => absurd h2 (not_le.2 h1)⟩
  | fuel + 1, level => by
    have hstop : level ≤ level + (fuel + 1) ∧ ∀ i, level < i → i ≤ level → overlapInLevel v i (some a) (some b) = false :=
      ⟨Nat.le_add_right _ _, fun i h1 h2 => absurd h2 (not_le.2 h1)⟩
    unfold pickLevelLoop
    by_cases ho : overlapInLevel v (level + 1) (some a) (some b) = true
    · rw [if_pos ho]
      exact hstop
    · rw [if_neg ho]
      by_cases hbytes : kMaxGrandParentOverlapBytes < totalFileSize (getOverlappingInputs v (level + 2)
          (some (.pack a kMaxSequenceNumber kValueTypeForSeek)) (some (.pack b 0 .deletion)))
      · rw [if_pos hbytes]
        exact hstop
      · rw [if_neg hbytes]
        obtain ⟨h1, h2⟩ := pickLevelLoop_spec fuel (level + 1)
        refine ⟨by omega, fun i hi1 hi2 => ?_⟩
        rcases Nat.lt_or_ge (level + 1) i with hi | hi
        · exact h2 i hi hi2
        · obtain rfl : i = level + 1 := by omega
          exact Bool.eq_false_of_not_eq_true ho

theorem pickLevel_spec : pickLevelForMemTableOutput v a b < kNumLevels ∧
    ∀ i, 0 < pickLevelForMemTableOutput v a b → i ≤ pickLevelForMemTableOutput v a b → overlapInLevel v i (some a) (some b) = false := by
  unfold pickLevelForMemTableOutput
  by_cases h0 : overlapInLevel v 0 (some a) (some b) = true
  · rw [if_pos h0]
    exact ⟨by decide, fun i h => absurd h (Nat.lt_irrefl 0)⟩
  · rw [if_neg h0]
    obtain ⟨h1, h2⟩ := pickLevelLoop_spec (v := v) (a := a) (b := b) kMaxMemCompactLevel 0
    have hmax : 0 + kMaxMemCompactLevel < kNumLevels := by decide
    refine ⟨lt_of_le_of_lt h1 hmax, fun i _ hi => ?_⟩
    rcases Nat.eq_zero_or_pos i with rfl | hpos
    · exact Bool.eq_false_of_not_eq_true h0
    · exact h2 i hpos hi

theorem mem_newAt_flushEdit {p : FileMetaData K} : f ∈ (flushEdit v n p).newAt level ↔
    f = p ∧ 0 < p.fileSize ∧ level = pickLevelForMemTableOutput v p.smallest.userKey p.largest.userKey := by
  rw [Builder.mem_newAt]
  unfold flushEdit
  by_cases h : 0 < p.fileSize
  · rw [if_pos h, mem_singleton, Prod.mk.injEq]
    tauto
  · simp [h]

theorem mem_flush (hok : FilesOk v) (hdisj : Apart v) (hnew : ∀ level, ∀ g ∈ v level, g.number ≠ f.number) (level : ℕ) :
    KeySorted bySmallestKey (flush v n f level) ∧ ∀ g, g ∈ flush v n f level ↔ g ∈ (flushEdit v n f).newAt level ∨ g ∈ v level := by
  by_cases hlevel : level < kNumLevels
  · obtain ⟨h1, h2⟩ := @Builder.new_apply_saveTo_of _ _ (flushEdit v n f) level v (hok.sorted hdisj level)
      (fun a ha b hb _ => by rw [(mem_newAt_flushEdit.1 ha).1, (mem_newAt_flushEdit.1 hb).1])
      (fun a ha b hb => by rw [(mem_newAt_flushEdit.1 ha).1]; exact hnew level b hb) hlevel
    refine ⟨h1, fun g => ?_⟩
    change g ∈ ((Builder.new v).apply (flushEdit v n f)).saveTo level ↔ _
    rw [h2]
    have hnone : ∀ n', n' ∉ (flushEdit v n f).deletedAt level := fun n' hn => not_mem_nil (Builder.mem_deletedAt.1 hn)
    exact or_congr Iff.rfl (and_iff_left (hnone _))
  · have hempty : flush v n f level = [] := by
      unfold flush Builder.saveTo
      rw [if_neg hlevel]
    rw [hempty, hok.levels level (not_lt.1 hlevel)]
    refine ⟨List.Pairwise.nil, fun g => ⟨fun hg => (not_mem_nil hg).elim, ?_⟩⟩
    rintro (hg | hg)
    · exact absurd ((mem_newAt_flushEdit.1 hg).2.2 ▸ pickLevel_spec.1) hlevel
    · exact (not_mem_nil hg).elim

theorem flush_apart (hok : FilesOk v) (hkeys : KeysOk v) (hdisj : Apart v) (hle : f.smallest ≤ f.largest) (hkey : KeyOk f.largest)
    (hnew : ∀ level, ∀ g ∈ v level, g.number ≠ f.number) : FilesOk (flush v n f) ∧ KeysOk (flush v n f) ∧ Apart (flush v n f) := by
  have hmem := fun level => mem_flush (n := n) hok hdisj hnew level
  have hrange : ∀ level, ∀ g ∈ flush v n f level, g.smallest ≤ g.largest ∧ KeyOk g.largest := by
    intro level g hg
    rcases ((hmem level).2 g).1 hg with hg | hg
    · rw [(mem_newAt_flushEdit.1 hg).1]
      exact ⟨hle, hkey⟩
    · exact ⟨hok.range level g hg, hkeys level g hg⟩
  refine ⟨⟨fun level g hg => (hrange level g hg).1, fun level level' g hg h hh hn => ?_, (hmem 0).1, fun level hlevel => ?_⟩,
    fun level g hg => (hrange level g hg).2, fun level hlevel => ?_⟩
  · rcases ((hmem level).2 g).1 hg with hg | hg <;> rcases ((hmem level').2 h).1 hh with hh | hh
    · rw [mem_newAt_flushEdit] at hg hh
      exact ⟨hg.2.2.trans hh.2.2.symm, hg.1.trans hh.1.symm⟩
    · rw [(mem_newAt_flushEdit.1 hg).1] at hn
      exact absurd hn.symm (hnew level' h hh)
    · rw [(mem_newAt_flushEdit.1 hh).1] at hn
      exact absurd hn (hnew level g hg)
    · exact hok.number level level' g hg h hh hn
  · unfold flush Builder.saveTo
    rw [if_neg (not_lt.2 hlevel)]
  · -- the new table has no user key in common with the files of its level
    have hnewApart : ∀ p ∈ (flushEdit v n f).newAt level, ∀ g ∈ v level, g.largest < p.smallest ∨ p.largest < g.smallest := by
      intro p hp g hg
      obtain ⟨rfl, -, hl⟩ := mem_newAt_flushEdit.1 hp
      have hno := pickLevel_spec.2 level (hl ▸ hlevel) (le_of_eq hl)
      exact (overlapInLevel_false hok hkeys hdisj hno g hg).imp InternalKey.lt_of_userKey InternalKey.lt_of_userKey
    refine apart_of_sorted (hmem level).1 (fun g hg => (hrange level g hg).1) fun g hg h hh hne => ?_
    rcases ((hmem level).2 g).1 hg with hg | hg <;> rcases ((hmem level).2 h).1 hh with hh | hh
    · rw [mem_newAt_flushEdit] at hg hh
      exact absurd (hg.1.trans hh.1.symm) hne
    · exact (hnewApart g hg h hh).symm
    · exact hnewApart h hh g hg
    · exact hdisj.or hlevel hg hh hne

variable {fs : List (ℕ × FileMetaData K)} {T T' : Tables K V} {outputs : List (FileMetaData K)} {entries l : List (Entry K V)}

theorem flushes_spec : ∀ (fs : List (ℕ × FileMetaData K)) {v : Version K}, FilesOk v → KeysOk v → Apart v → FlushesOk v fs →
    FilesOk (flushes v fs) ∧ Apart (flushes v fs) ∧ (∀ level g, g ∈ flushes v fs level ↔ g ∈ flushedTo level v fs ∨ g ∈ v level) ∧
    ∀ level level', ∀ f ∈ flushedTo level v fs, ∀ g ∈ v level', g.number ≠ f.number
  | [], _, hok, _, hdisj, _ =>
    ⟨hok, hdisj, fun _ _ => (or_iff_right not_mem_nil).symm, fun _ _ _ hf => (not_mem_nil hf).elim⟩
  | p :: fs, v, hok, hkeys, hdisj, ⟨⟨hle, hkey, hnew⟩, hfs⟩ => by
    obtain ⟨hok', hkeys', hdisj'⟩ := flush_apart (n := p.1) hok hkeys hdisj hle hkey hnew
    obtain ⟨h1, h2, h3, h4⟩ := flushes_spec fs hok' hkeys' hdisj' hfs
    have hmem := fun level => (mem_flush (n := p.1) hok hdisj hnew level).2
    refine ⟨h1, h2, fun level g => ?_, fun level level' f hf g hg => ?_⟩
    · change g ∈ flushes (flush v p.1 p.2) fs level ↔ _
      rw [h3, hmem, flushedTo, mem_append]
      tauto
    · rcases mem_append.1 hf with hf | hf
      · rw [(mem_newAt_flushEdit.1 hf).1]
        exact hnew level' g hg
      · exact h4 level level' f hf g ((hmem level' g).2 (Or.inr hg))

theorem FlushesClear.outside : ∀ (fs : List (ℕ × FileMetaData K)) {v : Version K}, FlushesClear c v fs → ∀ f ∈ flushedTo (c.level + 1) v fs,
    ∀ s l, getRange2 c.inputs0 c.inputs1 = some (s, l) → f.largest.userKey < s.userKey ∨ l.userKey < f.smallest.userKey
  | [], _, _, _, hf => (not_mem_nil hf).elim
  | p :: fs, v, ⟨hp, hfs⟩, f, hf => by
    rcases mem_append.1 hf with hf | hf
    · obtain ⟨rfl, -, hl⟩ := mem_newAt_flushEdit.1 hf
      exact hp hl.symm
    · exact FlushesClear.outside fs hfs f hf

theorem flushes_installed_apart (hok : VersionOk T v) (hkeys : KeysOk v) (hdisj : Apart v) (hc : Chosen v c) (hfs : FlushesOk v fs)
    (hout : Outputs T T' (flushes v fs) c outputs entries) (hsub : ∀ e ∈ entries, e ∈ mergedInputs T c) (hs : SortedEntries entries) :
    (Apart (installed (flushes v fs) c outputs) ↔
      ∀ f ∈ flushedTo (c.level + 1) v fs, ∀ o ∈ outputs, f.largest < o.smallest ∨ o.largest < f.smallest) ∧
    (FlushesClear c v fs → Apart (installed (flushes v fs) c outputs)) := by
  have hc := hc.selected
  obtain ⟨hok', hdisj', hmem, hnew⟩ := flushes_spec fs hok.files hkeys hdisj hfs
  have hin : InputsOf (flushes v fs) c :=
    ⟨hc.level_lt, fun f hf => (hmem _ f).2 (Or.inr (hc.inputsOf.inputs0 f hf)), fun f hf => (hmem _ f).2 (Or.inr (hc.inputsOf.inputs1 f hf)),
      hc.deletedFiles, hc.newFiles⟩
  -- the ends of an output are keys of inputs
  have hsmallest : ∀ o ∈ outputs, ∃ h, (h ∈ c.inputs0 ∨ h ∈ c.inputs1) ∧ h.smallest ≤ o.smallest := by
    intro o ho
    obtain ⟨a, ha, hak⟩ := (hout.tableOk hs ho).exists_smallest
    obtain ⟨h, hh, ha⟩ := hout.origin hsub ho ha
    obtain ⟨level, -, -, hv⟩ := hc.inputsOf.mem hh
    exact ⟨h, hh, hak ▸ (hok.tables level h hv).smallest_le ha⟩
  have hlargest : ∀ o ∈ outputs, ∃ h, (h ∈ c.inputs0 ∨ h ∈ c.inputs1) ∧ o.largest ≤ h.largest := by
    intro o ho
    obtain ⟨a, ha, hak⟩ := (hout.tableOk hs ho).exists_largest
    obtain ⟨h, hh, ha⟩ := hout.origin hsub ho ha
    obtain ⟨level, -, -, hv⟩ := hc.inputsOf.mem hh
    exact ⟨h, hh, hak ▸ (hok.tables level h hv).le_largest ha⟩
  have hiff : Apart (installed (flushes v fs) c outputs) ↔
      ∀ f ∈ flushedTo (c.level + 1) v fs, ∀ o ∈ outputs, f.largest < o.smallest ∨ o.largest < f.smallest := by
    have hmem' := fun f => (mem_installed hok' hdisj' hin hout.numbers (c.level + 1)).2 f
    constructor
    · intro hap f hf o ho
      have hfw : f ∈ flushes v fs (c.level + 1) := (hmem _ f).2 (Or.inl hf)
      have hr : Remains (flushes v fs) c (c.level + 1) f := by
        refine ⟨hfw, fun hl => absurd hl.1 (Nat.succ_ne_self _), fun hl => ?_⟩
        exact hnew _ _ f hf f (hc.inputsOf.inputs1 f hl.2) rfl
      refine hap.or (Nat.succ_pos _) ((hmem' f).2 (Or.inr hr)) ((hmem' o).2 (Or.inl ⟨rfl, ho⟩)) ?_
      rintro rfl
      exact absurd (hout.numbers.fresh f ho _ f hfw rfl).1 (Nat.succ_ne_self _)
    · intro hclear
      refine installed_apart hok' hdisj' hin hout.numbers (fun o ho => (hout.tableOk hs ho).smallest_le_largest) (hout.apart hs) ?_
      intro f hr o ho
      rcases (hmem _ f).1 hr.1 with hf | hf
      · exact hclear f hf o ho
      · obtain ⟨h, hh, hhs⟩ := hsmallest o ho
        obtain ⟨h', hh', hhl⟩ := hlargest o ho
        rcases hc.outside hok.files hdisj ⟨hf, hr.2⟩ with hbefore | hbehind
        · exact Or.inl (lt_of_lt_of_le (hbefore h hh) hhs)
        · exact Or.inr (lt_of_le_of_lt hhl (hbehind h' hh'))
  refine ⟨hiff, fun hclear => hiff.2 fun f hf o ho => ?_⟩
  obtain ⟨h, hh, hhs⟩ := hsmallest o ho
  obtain ⟨h', hh', hhl⟩ := hlargest o ho
  obtain ⟨s, l, hrange⟩ := @getRange_some _ _ (c.inputs0 ++ c.inputs1) fun hnil => by
    rw [append_eq_nil_iff] at hnil
    rcases hh with hh | hh
    · exact not_mem_nil (hnil.1 ▸ hh)
    · exact not_mem_nil (hnil.2 ▸ hh)
  obtain ⟨-, -, hcover⟩ := getRange_spec hrange
  rcases hclear.outside fs f hf s l hrange with hlt | hlt
  · exact Or.inl (lt_of_lt_of_le (lt_of_lt_of_le (InternalKey.lt_of_userKey hlt) (hcover h (mem_append.2 hh)).1) hhs)
  · exact Or.inr (lt_of_le_of_lt (le_trans hhl (hcover h' (mem_append.2 hh')).2) (InternalKey.lt_of_userKey hlt))

theorem flush_level (hok : FilesOk v) (hdisj : Apart v) (hnew : ∀ level, ∀ g ∈ v level, g.number < f.number) (level : ℕ) (g : FileMetaData K) :
    g ∈ flush v n f level ↔ (g = f ∧ 0 < f.fileSize ∧ level = pickLevelForMemTableOutput v f.smallest.userKey f.largest.userKey) ∨ g ∈ v level := by
  rw [(mem_flush hok hdisj (fun level g hg => Nat.ne_of_lt (hnew level g hg)) level).2, mem_newAt_flushEdit]

/-- **A table goes under the levels that it overlaps**, so that what is newer stays above. -/
theorem flush_layered (hok : VersionOk T v) (hkeys : KeysOk v) (hlay : Layered T v) (hnew : ∀ level, ∀ g ∈ v level, g.number < f.number)
    (htable : TableOk (Function.update T f.number l) f) (hkey : KeyOk f.largest) (hnewer : ∀ level, ∀ g ∈ v level, Newer l (T g.number)) :
    VersionOk (Function.update T f.number l) (flush v n f) ∧ KeysOk (flush v n f) ∧ Layered (Function.update T f.number l) (flush v n f) := by
  have hne : ∀ level, ∀ g ∈ v level, g.number ≠ f.number := fun level g hg => Nat.ne_of_lt (hnew level g hg)
  have hold : ∀ level, ∀ g ∈ v level, Function.update T f.number l g.number = T g.number := fun level g hg => Function.update_of_ne (hne level g hg) _ _
  have hself : Function.update T f.number l f.number = l := Function.update_self _ _ _
  have hmem := flush_level (n := n) hok.files hlay.disjoint hnew
  obtain ⟨hfiles, hkeys', hdisj⟩ := flush_apart (n := n) hok.files hkeys hlay.disjoint htable.smallest_le_largest hkey hne
  refine ⟨⟨hfiles, fun level g hg => ?_⟩, hkeys', hdisj, fun level level' hlt g hg h hh => ?_, fun g hg h hh hlt => ?_⟩
  · rcases (hmem level g).1 hg with ⟨rfl, -⟩ | hg
    · exact htable
    · obtain ⟨h1, h2, h3⟩ := hok.tables level g hg
      exact ⟨by rwa [hold level g hg], by rwa [hold level g hg], by rwa [hold level g hg]⟩
  · rcases (hmem level g).1 hg with ⟨rfl, -, hl⟩ | hgv <;> rcases (hmem level' h).1 hh with ⟨rfl, -, hl'⟩ | hhv
    · omega
    · rw [hself, hold level' h hhv]
      exact hnewer level' h hhv
    · -- the levels above have no user key of the table
      rw [hold level g hgv, hself]
      have hno := overlapInLevel_false hok.files hkeys hlay.disjoint
        (pickLevel_spec.2 level (Nat.lt_of_le_of_lt (Nat.zero_le level) (hl' ▸ hlt)) (Nat.le_of_lt (hl' ▸ hlt))) g hgv
      intro d hd e he hu
      have hsmall := InternalKey.userKey_le (htable.smallest_le (by rw [hself]; exact he))
      have hlarge := InternalKey.userKey_le (htable.le_largest (by rw [hself]; exact he))
      rcases hno with hlt | hlt
      · exact absurd (lt_of_le_of_lt (InternalKey.userKey_le ((hok.tables level g hgv).le_largest hd)) hlt) (not_lt.2 (hu ▸ hsmall))
      · exact absurd (lt_of_lt_of_le hlt (InternalKey.userKey_le ((hok.tables level g hgv).smallest_le hd))) (not_lt.2 (hu ▸ hlarge))
    · rw [hold level g hgv, hold level' h hhv]
      exact hlay.newer level level' hlt g hgv h hhv
  · rcases (hmem 0 g).1 hg with ⟨rfl, -⟩ | hgv <;> rcases (hmem 0 h).1 hh with ⟨rfl, -⟩ | hhv
    · exact absurd hlt (Nat.lt_irrefl _)
    · rw [hself, hold 0 h hhv]
      exact hnewer 0 h hhv
    · exact absurd hlt (Nat.lt_asymm (hnew 0 g hgv))
    · rw [hold 0 g hgv, hold 0 h hhv]
      exact hlay.level0 g hgv h hhv hlt

def gapTables : Tables ℕ ℕ := fun number =>
  if number = 1 then [⟨.pack 1 1 .value, 11⟩, ⟨.pack 3 2 .value, 32⟩]
  else if number = 2 then [⟨.pack 7 3 .value, 73⟩, ⟨.pack 9 4 .value, 94⟩]
  else if number = 5 then [⟨.pack 4 10 .value, 410⟩, ⟨.pack 5 11 .value, 511⟩]
  else if number = 6 then [⟨.pack 1 1 .value, 11⟩, ⟨.pack 3 2 .value, 32⟩, ⟨.pack 7 3 .value, 73⟩, ⟨.pack 9 4 .value, 94⟩]
  else []

def gapFile1 : FileMetaData ℕ := ⟨1, 100, .pack 1 1 .value, .pack 3 2 .value⟩

def gapFile2 : FileMetaData ℕ := ⟨2, 100, .pack 7 3 .value, .pack 9 4 .value⟩

def gapVersion : Version ℕ := twoFiles gapFile1 gapFile2

def gapCompaction : Compaction ℕ :=
  { level := 1
    inputVersion := gapVersion
    inputs0 := [gapFile1, gapFile2]
    inputs1 := []
    grandparents := []
    edit := { (VersionEdit.clear : VersionEdit ℕ) with compactPointers := [(1, .pack 9 4 .value)] } }

def gapOutput : FileMetaData ℕ := ⟨6, 190, .pack 1 1 .value, .pack 9 4 .value⟩

def gapFlush (first last : ℕ) : FileMetaData ℕ := ⟨5, 100, .pack first 10 .value, .pack last 11 .value⟩

theorem gapVersion_ok : VersionOk gapTables gapVersion ∧ KeysOk gapVersion ∧ Apart gapVersion := by
  refine ⟨twoFiles_ok ⟨by unfold SortedEntries; decide, rfl, rfl⟩ ⟨by unfold SortedEntries; decide, rfl, rfl⟩ (by decide),
    fun level f hf => ?_, (twoFiles_layered (T := gapTables) (by decide)).disjoint⟩
  rcases (mem_twoFiles.1 hf).2 with rfl | rfl <;> exact ⟨by decide, by decide⟩

theorem gapCompaction_chosen : Chosen gapVersion gapCompaction := Chosen.range 1 none none _ (by decide) rfl

theorem gapFlush_ok {a b : ℕ} (hle : (gapFlush a b).smallest ≤ (gapFlush a b).largest) : FlushesOk gapVersion [(3, gapFlush a b)] := by
  refine ⟨⟨hle, ⟨by simp [gapFlush], ?_⟩, fun level g hg => ?_⟩, trivial⟩
  · rw [show (gapFlush a b).largest.sequence = 11 from InternalKey.pack_sequence _ _ _]
    decide
  · intro (hn : g.number = 5)
    rcases (mem_twoFiles.1 hg).2 with rfl | rfl <;> exact absurd hn (by decide)

theorem gapOutputs {a b : ℕ} (hle : (gapFlush a b).smallest ≤ (gapFlush a b).largest) :
    Outputs gapTables gapTables (flushes gapVersion [(3, gapFlush a b)]) gapCompaction [gapOutput] (mergedInputs gapTables gapCompaction) := by
  obtain ⟨hok, hkeys, hdisj⟩ := gapVersion_ok
  obtain ⟨-, -, hmem, -⟩ := flushes_spec _ hok.files hkeys hdisj (gapFlush_ok hle)
  refine ⟨⟨nodup_singleton _, fun o ho level f hf hn => ?_⟩, fun _ _ _ _ => rfl, fun o ho => ?_, fun o ho => ?_, by decide⟩
  · rw [mem_singleton.1 ho] at hn
    rcases (hmem level f).1 hf with hf | hf
    · rw [flushedTo, flushedTo, append_nil] at hf
      rw [(mem_newAt_flushEdit.1 hf).1] at hn
      exact absurd hn (show (5 : ℕ) ≠ 6 by decide)
    · rcases (mem_twoFiles.1 hf).2 with rfl | rfl <;> exact absurd hn (by decide)
  · rw [mem_singleton.1 ho]
    rfl
  · rw [mem_singleton.1 ho]
    rfl

theorem flushes_installed_apart_behind : Apart (installed (flushes gapVersion [(3, gapFlush 20 21)]) gapCompaction [gapOutput]) := by
  obtain ⟨hok, hkeys, hdisj⟩ := gapVersion_ok
  have hle : (gapFlush 20 21).smallest ≤ (gapFlush 20 21).largest := by decide
  refine (flushes_installed_apart hok hkeys hdisj gapCompaction_chosen (gapFlush_ok hle) (gapOutputs hle) (fun _ => id)
    (by unfold SortedEntries; decide)).2 ⟨fun _ s l hrange => Or.inr ?_, trivial⟩
  have hl : some (s, l) = some (InternalKey.pack 1 1 .value, InternalKey.pack 9 4 .value) := hrange.symm.trans (by decide)
  obtain ⟨-, rfl⟩ := Prod.mk.inj (Option.some.inj hl)
  decide

/-- **A flush into the gap of a manual compaction, and the output that spans the gap, overlap in one level**; what was flushed is found before
the compaction is installed and not found behind it. -/
theorem installed_overlaps : ∃ c fs outputs, Chosen gapVersion c ∧ VersionOk gapTables gapVersion ∧ KeysOk gapVersion ∧ Apart gapVersion ∧
    FlushesOk gapVersion fs ∧ Outputs gapTables gapTables (flushes gapVersion fs) c outputs (mergedInputs gapTables c) ∧
    SortedEntries (mergedInputs gapTables c) ∧ ¬Apart (installed (flushes gapVersion fs) c outputs) ∧
    versionGet gapTables (flushes gapVersion fs) 4 100 = .found 410 ∧ versionGet gapTables (installed (flushes gapVersion fs) c outputs) 4 100 = .notFound := by
  obtain ⟨hok, hkeys, hdisj⟩ := gapVersion_ok
  have hle : (gapFlush 4 5).smallest ≤ (gapFlush 4 5).largest := by decide
  refine ⟨gapCompaction, [(3, gapFlush 4 5)], [gapOutput], gapCompaction_chosen, hok, hkeys, hdisj, gapFlush_ok hle, gapOutputs hle,
    by unfold SortedEntries; decide, fun h => ?_, by decide, by decide⟩
  have hor := @Apart.or _ _ _ (gapFlush 4 5) gapOutput 2 h (by decide) (by decide) (by decide) (by decide)
  exact absurd hor (by decide)

end KVStores.LevelDb
