import KVStores.LevelDb.Compaction
import KVStores.LevelDb.Layered
import Mathlib.Data.List.Pairwise

/-!
# The version behind a compaction

A compaction takes its inputs out of a version and adds the tables made of them to the next level.

* `Selected.outside`: **what is left out of the next level comes before all inputs, or behind them**.
-/

namespace KVStores.LevelDb

open List Option

variable {K V : Type} [LinearOrder K]

/-- The entries that `MakeInputIterator` goes through: those of all inputs, in order. -/
def mergedInputs (T : Tables K V) (c : Compaction K) : List (Entry K V) :=
  ((c.inputs0 ++ c.inputs1).flatMap fun f => T f.number).insertionSort fun a b => a.key ≤ b.key

/-- The numbers of the outputs are new, but that a trivial move keeps the number of its input. -/
structure NewNumbers (v : Version K) (c : Compaction K) (outputs : List (FileMetaData K)) : Prop where
  nodup : (outputs.map FileMetaData.number).Nodup
  fresh : ∀ o ∈ outputs, ∀ level, ∀ f ∈ v level, f.number = o.number → level = c.level ∧ f ∈ c.inputs0

/-- The tables of the outputs hold the entries, cut somewhere into parts that are not empty. -/
structure Outputs (T T' : Tables K V) (v : Version K) (c : Compaction K) (outputs : List (FileMetaData K)) (entries : List (Entry K V)) :
    Prop where
  numbers : NewNumbers v c outputs
  kept : ∀ level, ∀ f ∈ v level, (∀ o ∈ outputs, f.number ≠ o.number) → T' f.number = T f.number
  smallest : ∀ o ∈ outputs, (T' o.number).head?.map Entry.key = some o.smallest
  largest : ∀ o ∈ outputs, (T' o.number).getLast?.map Entry.key = some o.largest
  entries : outputs.flatMap (fun o => T' o.number) = entries

/-- The version that `LogAndApply` makes of the edit of a compaction. -/
def installed (v : Version K) (c : Compaction K) (outputs : List (FileMetaData K)) : Version K :=
  ((Builder.new v).apply (c.editWith outputs)).saveTo

variable {T T' : Tables K V} {v : Version K} {c : Compaction K} {outputs : List (FileMetaData K)} {f g : FileMetaData K} {level level' : ℕ}
  {e d : Entry K V} {entries : List (Entry K V)}

omit [LinearOrder K] in
theorem mem_newAt_editWith (h : c.edit.newFiles = []) : f ∈ (c.editWith outputs).newAt level ↔ level = c.level + 1 ∧ f ∈ outputs := by
  rw [Builder.mem_newAt]
  unfold Compaction.editWith
  rw [h, nil_append, List.mem_map]
  constructor
  · rintro ⟨o, ho, heq⟩
    obtain ⟨rfl, rfl⟩ := Prod.mk.inj heq
    exact ⟨rfl, ho⟩
  · rintro ⟨rfl, hf⟩
    exact ⟨f, hf, rfl⟩

omit [LinearOrder K] in
theorem mem_deletedAt_editWith (h : c.edit.deletedFiles = []) {n : ℕ} : n ∈ (c.editWith outputs).deletedAt level ↔
    (level = c.level ∧ ∃ f ∈ c.inputs0, n = f.number) ∨ level = c.level + 1 ∧ ∃ f ∈ c.inputs1, n = f.number := by
  rw [Builder.mem_deletedAt]
  unfold Compaction.editWith
  rw [h, nil_append, mem_append, List.mem_map, List.mem_map]
  constructor
  · rintro (⟨o, ho, heq⟩ | ⟨o, ho, heq⟩)
    · obtain ⟨rfl, rfl⟩ := Prod.mk.inj heq
      exact Or.inl ⟨rfl, o, ho, rfl⟩
    · obtain ⟨rfl, rfl⟩ := Prod.mk.inj heq
      exact Or.inr ⟨rfl, o, ho, rfl⟩
  · rintro (⟨rfl, o, ho, rfl⟩ | ⟨rfl, o, ho, rfl⟩)
    · exact Or.inl ⟨o, ho, rfl⟩
    · exact Or.inr ⟨o, ho, rfl⟩

structure InputsOf (v : Version K) (c : Compaction K) : Prop where
  level_lt : c.level + 1 < kNumLevels
  inputs0 : ∀ f ∈ c.inputs0, f ∈ v c.level
  inputs1 : ∀ f ∈ c.inputs1, f ∈ v (c.level + 1)
  deletedFiles : c.edit.deletedFiles = []
  newFiles : c.edit.newFiles = []

theorem Selected.inputs1_sublist (hc : Selected v c) : c.inputs1.Sublist (v (c.level + 1)) := by
  obtain ⟨s, l, -, h⟩ := hc.inputs1_eq
  rw [h]
  exact filter_sublist

theorem Selected.inputsOf (hc : Selected v c) : InputsOf v c :=
  ⟨hc.level_lt, fun _ hf => hc.inputs0_sublist.subset hf, fun _ hf => hc.inputs1_sublist.subset hf, hc.deletedFiles, hc.newFiles⟩

def Remains (v : Version K) (c : Compaction K) (level : ℕ) (f : FileMetaData K) : Prop :=
  f ∈ v level ∧ ¬(level = c.level ∧ f ∈ c.inputs0) ∧ ¬(level = c.level + 1 ∧ f ∈ c.inputs1)

theorem mem_installed (hok : FilesOk v) (hdisj : Apart v) (hc : InputsOf v c) (hout : NewNumbers v c outputs) (level : ℕ) :
    KeySorted bySmallestKey (installed v c outputs level) ∧
    ∀ f, f ∈ installed v c outputs level ↔ (level = c.level + 1 ∧ f ∈ outputs) ∨ Remains v c level f := by
  by_cases hlevel : level < kNumLevels
  · have hinj : ∀ a ∈ (c.editWith outputs).newAt level, ∀ b ∈ (c.editWith outputs).newAt level, bySmallestKey b = bySmallestKey a → b = a := by
      intro a ha b hb hk
      exact inj_on_of_nodup_map hout.nodup ((mem_newAt_editWith hc.newFiles).1 hb).2 ((mem_newAt_editWith hc.newFiles).1 ha).2
        (congrArg (fun p => (ofLex p).2) hk)
    have hfresh : ∀ a ∈ (c.editWith outputs).newAt level, ∀ b ∈ v level, b.number ≠ a.number := by
      intro a ha b hb hn
      obtain ⟨hl, ho⟩ := (mem_newAt_editWith hc.newFiles).1 ha
      exact absurd (hl.symm.trans (hout.fresh a ho _ b hb hn).1) (Nat.succ_ne_self _)
    obtain ⟨h1, h2⟩ := Builder.new_apply_saveTo_of (hok.sorted hdisj level) hinj hfresh hlevel
    refine ⟨h1, fun f => ?_⟩
    change f ∈ ((Builder.new v).apply (c.editWith outputs)).saveTo level ↔ _
    rw [h2, mem_newAt_editWith hc.newFiles, mem_deletedAt_editWith hc.deletedFiles]
    refine or_congr Iff.rfl (and_congr_right fun hf => ?_)
    -- the numbers of the inputs are those of no other file
    rw [not_or]
    refine and_congr (not_congr (and_congr_right fun hl => ?_)) (not_congr (and_congr_right fun hl => ?_))
    · refine ⟨fun ⟨g, hg, hn⟩ => ?_, fun hf' => ⟨f, hf', rfl⟩⟩
      rw [(hok.number _ _ f hf g (hc.inputs0 g hg) hn).2]
      exact hg
    · subst hl
      refine ⟨fun ⟨g, hg, hn⟩ => ?_, fun hf' => ⟨f, hf', rfl⟩⟩
      rw [(hok.number _ _ f hf g (hc.inputs1 g hg) hn).2]
      exact hg
  · have hempty : installed v c outputs level = [] := by
      unfold installed Builder.saveTo
      rw [if_neg hlevel]
    rw [hempty]
    refine ⟨List.Pairwise.nil, fun f => ⟨fun hf => (not_mem_nil hf).elim, ?_⟩⟩
    have hlt := hc.level_lt
    rintro (⟨hl, -⟩ | ⟨hf, -⟩)
    · omega
    · rwa [hok.levels level (not_lt.1 hlevel)] at hf

theorem mem_mergedInputs : e ∈ mergedInputs T c ↔ ∃ f, (f ∈ c.inputs0 ∨ f ∈ c.inputs1) ∧ e ∈ T f.number := by
  unfold mergedInputs
  rw [(perm_insertionSort _ _).mem_iff, mem_flatMap]
  simp only [mem_append]

omit [LinearOrder K] in
theorem InputsOf.mem (hc : InputsOf v c) (hf : f ∈ c.inputs0 ∨ f ∈ c.inputs1) :
    ∃ level, c.level ≤ level ∧ level ≤ c.level + 1 ∧ f ∈ v level := by
  rcases hf with hf | hf
  · exact ⟨c.level, le_refl _, Nat.le_succ _, hc.inputs0 f hf⟩
  · exact ⟨c.level + 1, Nat.le_succ _, le_refl _, hc.inputs1 f hf⟩

theorem Apart.or (h : Apart v) (hlevel : 0 < level) (hf : f ∈ v level) (hg : g ∈ v level) (hne : f ≠ g) :
    f.largest < g.smallest ∨ g.largest < f.smallest := by
  have : Std.Symm fun f g : FileMetaData K => f.largest < g.smallest ∨ g.largest < f.smallest := ⟨fun _ _ => Or.symm⟩
  have hpair : (v level).Pairwise fun f g => f.largest < g.smallest ∨ g.largest < f.smallest :=
    (h level hlevel).imp fun hlt => Or.inl hlt
  exact hpair.forall hf hg hne

theorem Layered.key_ne (hok : VersionOk T v) (hlay : Layered T v) (hf : f ∈ v level) (hg : g ∈ v level') (hne : level ≠ level' ∨ f ≠ g)
    (he : e ∈ T f.number) (hd : d ∈ T g.number) : e.key ≠ d.key := by
  intro hk
  have hu : e.key.userKey = d.key.userKey := congrArg InternalKey.userKey hk
  have hs : e.key.sequence = d.key.sequence := congrArg InternalKey.sequence hk
  rcases Nat.lt_trichotomy level level' with hl | rfl | hl
  · exact absurd hs (Nat.ne_of_gt (hlay.newer _ _ hl f hf g hg e he d hd hu))
  · have hfg : f ≠ g := hne.resolve_left (not_not_intro rfl)
    rcases Nat.eq_zero_or_pos level with rfl | hlevel
    · -- the numbers of two files of level 0 differ
      rcases Nat.lt_trichotomy f.number g.number with hn | hn | hn
      · exact absurd hs.symm (Nat.ne_of_gt (hlay.level0 g hg f hf hn d hd e he hu.symm))
      · exact hfg (hok.files.number _ _ f hf g hg hn).2
      · exact absurd hs (Nat.ne_of_gt (hlay.level0 f hf g hg hn e he d hd hu))
    · have hle := (hok.tables level f hf).le_largest he
      have hle' := (hok.tables level g hg).le_largest hd
      rcases hlay.disjoint.or hlevel hf hg hfg with hlt | hlt
      · exact absurd hk (ne_of_lt (lt_of_le_of_lt hle (lt_of_lt_of_le hlt ((hok.tables level g hg).smallest_le hd))))
      · exact absurd hk.symm (ne_of_lt (lt_of_le_of_lt hle' (lt_of_lt_of_le hlt ((hok.tables level f hf).smallest_le he))))
  · exact absurd hs.symm (Nat.ne_of_gt (hlay.newer _ _ hl g hg f hf d hd e he hu.symm))

theorem mergedInputs_sorted (hok : VersionOk T v) (hlay : Layered T v) (hc : Selected v c) : SortedEntries (mergedInputs T c) := by
  have hordered : (mergedInputs T c).Pairwise fun a b => a.key ≤ b.key := by
    exact pairwise_insertionSort _ _
  have hnodup : ∀ level, (v level).Nodup := fun level => KeySorted.nodup (hok.files.sorted hlay.disjoint level)
  have hne : (mergedInputs T c).Pairwise fun a b => a.key ≠ b.key := by
    unfold mergedInputs
    rw [(perm_insertionSort _ _).pairwise_iff (fun {a b} hab => Ne.symm hab), pairwise_flatMap]
    refine ⟨fun f hf => ?_, pairwise_append.2 ⟨?_, ?_, ?_⟩⟩
    · obtain ⟨level, -, -, hf⟩ := hc.inputsOf.mem (mem_append.1 hf)
      exact (hok.tables level f hf).sorted.imp fun hab => ne_of_lt hab
    · refine ((hnodup _).sublist hc.inputs0_sublist).imp_of_mem fun hf hg hfg a ha b hb => ?_
      exact Layered.key_ne hok hlay (hc.inputsOf.inputs0 _ hf) (hc.inputsOf.inputs0 _ hg) (Or.inr hfg) ha hb
    · refine ((hnodup _).sublist hc.inputs1_sublist).imp_of_mem fun hf hg hfg a ha b hb => ?_
      exact Layered.key_ne hok hlay (hc.inputsOf.inputs1 _ hf) (hc.inputsOf.inputs1 _ hg) (Or.inr hfg) ha hb
    · intro f hf g hg a ha b hb
      exact Layered.key_ne hok hlay (hc.inputsOf.inputs0 _ hf) (hc.inputsOf.inputs1 _ hg) (Or.inl (Nat.succ_ne_self _).symm) ha hb
  exact (hordered.and hne).imp fun hab => lt_of_le_of_ne hab.1 hab.2

theorem remains_or_input (c : Compaction K) (hf : f ∈ v level) :
    Remains v c level f ∨ (level = c.level ∧ f ∈ c.inputs0) ∨ level = c.level + 1 ∧ f ∈ c.inputs1 := by
  unfold Remains
  tauto

omit [LinearOrder K] in
theorem Remains.table_eq (hout : Outputs T T' v c outputs entries) (hf : Remains v c level f) : T' f.number = T f.number :=
  hout.kept level f hf.1 fun o ho hn => hf.2.1 (hout.numbers.fresh o ho level f hf.1 hn)

variable {o : FileMetaData K}

theorem Outputs.tableOk (hs : SortedEntries entries) (hout : Outputs T T' v c outputs entries) (ho : o ∈ outputs) : TableOk T' o := by
  rw [← hout.entries] at hs
  exact ⟨(pairwise_flatMap.1 hs).1 o ho, hout.smallest o ho, hout.largest o ho⟩

theorem Outputs.ok (hok : VersionOk T v) (hdisj : Apart v) (hc : InputsOf v c) (hs : SortedEntries entries)
    (hout : Outputs T T' v c outputs entries) : VersionOk T' (installed v c outputs) := by
  have hmem := mem_installed hok.files hdisj hc hout.numbers
  have htables : ∀ level, ∀ f ∈ installed v c outputs level, TableOk T' f := by
    intro level f hf
    rcases ((hmem level).2 f).1 hf with ⟨-, ho⟩ | hr
    · exact hout.tableOk hs ho
    · have htable := hok.tables level f hr.1
      have heq := hr.table_eq hout
      exact ⟨heq ▸ htable.sorted, heq ▸ htable.smallest, heq ▸ htable.largest⟩
  refine ⟨⟨fun level f hf => (htables level f hf).smallest_le_largest, fun level level' f hf g hg hn => ?_, (hmem 0).1, fun level hlevel => ?_⟩,
    htables⟩
  · rcases ((hmem level).2 f).1 hf with ⟨hl, ho⟩ | hr <;> rcases ((hmem level').2 g).1 hg with ⟨hl', ho'⟩ | hr'
    · exact ⟨hl.trans hl'.symm, inj_on_of_nodup_map hout.numbers.nodup ho ho' hn⟩
    · exact absurd (hout.numbers.fresh f ho level' g hr'.1 hn.symm) hr'.2.1
    · exact absurd (hout.numbers.fresh g ho' level f hr.1 hn) hr.2.1
    · exact hok.files.number level level' f hr.1 g hr'.1 hn
  · unfold installed Builder.saveTo
    rw [if_neg (not_lt.2 hlevel)]

theorem Outputs.origin (hout : Outputs T T' v c outputs entries) (hsub : ∀ e ∈ entries, e ∈ mergedInputs T c)
    (ho : o ∈ outputs) (he : e ∈ T' o.number) : ∃ f, (f ∈ c.inputs0 ∨ f ∈ c.inputs1) ∧ e ∈ T f.number := by
  have hmem : e ∈ outputs.flatMap fun o => T' o.number := mem_flatMap.2 ⟨o, ho, he⟩
  rw [hout.entries] at hmem
  exact mem_mergedInputs.1 (hsub e hmem)

theorem holds_installed_iff (hok : VersionOk T v) (hdisj : Apart v) (hc : InputsOf v c) (hout : Outputs T T' v c outputs entries) :
    Holds T' (installed v c outputs) e ↔ e ∈ entries ∨ ∃ level f, Remains v c level f ∧ e ∈ T f.number := by
  have hmem := mem_installed hok.files hdisj hc hout.numbers
  constructor
  · rintro ⟨level, f, hf, he⟩
    rcases ((hmem level).2 f).1 hf with ⟨-, ho⟩ | hr
    · left
      rw [← hout.entries]
      exact mem_flatMap.2 ⟨f, ho, he⟩
    · exact Or.inr ⟨level, f, hr, hr.table_eq hout ▸ he⟩
  · rintro (he | ⟨level, f, hr, he⟩)
    · rw [← hout.entries] at he
      obtain ⟨o, ho, he⟩ := mem_flatMap.1 he
      exact ⟨c.level + 1, o, ((hmem _).2 o).2 (Or.inl ⟨rfl, ho⟩), he⟩
    · exact ⟨level, f, ((hmem _).2 f).2 (Or.inr hr), (hr.table_eq hout).symm ▸ he⟩

theorem holds_iff (hc : InputsOf v c) : Holds T v e ↔ e ∈ mergedInputs T c ∨ ∃ level f, Remains v c level f ∧ e ∈ T f.number := by
  rw [mem_mergedInputs]
  constructor
  · rintro ⟨level, f, hf, he⟩
    rcases remains_or_input c hf with hr | ⟨-, hf⟩ | ⟨-, hf⟩
    · exact Or.inr ⟨level, f, hr, he⟩
    · exact Or.inl ⟨f, Or.inl hf, he⟩
    · exact Or.inl ⟨f, Or.inr hf, he⟩
  · rintro (⟨f, hf, he⟩ | ⟨level, f, hr, he⟩)
    · obtain ⟨level, -, -, hf⟩ := hc.mem hf
      exact ⟨level, f, hf, he⟩
    · exact ⟨level, f, hr.1, he⟩

theorem Outputs.apart (hs : SortedEntries entries) (hout : Outputs T T' v c outputs entries) :
    outputs.Pairwise fun f g => f.largest < g.smallest := by
  rw [← hout.entries] at hs
  refine (pairwise_flatMap.1 hs).2.imp_of_mem fun {f g} hf hg hlt => ?_
  obtain ⟨a, ha, hak⟩ := map_eq_some_iff.1 (hout.largest f hf)
  obtain ⟨b, hb, hbk⟩ := map_eq_some_iff.1 (hout.smallest g hg)
  rw [← hak, ← hbk]
  exact hlt a (mem_of_getLast? ha) b (mem_of_head? hb)

theorem apart_of_sorted {files : List (FileMetaData K)} (hs : KeySorted bySmallestKey files) (hle : ∀ f ∈ files, f.smallest ≤ f.largest)
    (hap : ∀ f ∈ files, ∀ g ∈ files, f ≠ g → f.largest < g.smallest ∨ g.largest < f.smallest) :
    files.Pairwise fun f g => f.largest < g.smallest := by
  refine hs.imp_of_mem fun {f g} hf hg hlt => (hap f hf g hg ?_).resolve_right fun hgf => ?_
  · rintro rfl
    exact lt_irrefl _ hlt
  · -- the smallest keys are the other way round
    have hlt' : g.smallest < f.smallest := lt_of_le_of_lt (hle g hg) hgf
    rcases Prod.Lex.toLex_lt_toLex.1 hlt with h | ⟨h, -⟩
    · exact lt_asymm h hlt'
    · exact absurd h (ne_of_gt hlt')

theorem installed_apart (hok : FilesOk v) (hdisj : Apart v) (hc : InputsOf v c) (hnum : NewNumbers v c outputs)
    (hrange : ∀ o ∈ outputs, o.smallest ≤ o.largest) (hout : outputs.Pairwise fun f g => f.largest < g.smallest)
    (hbetween : ∀ f, Remains v c (c.level + 1) f → ∀ o ∈ outputs, f.largest < o.smallest ∨ o.largest < f.smallest) :
    Apart (installed v c outputs) := by
  intro level hlevel
  obtain ⟨hs, hmem⟩ := mem_installed hok hdisj hc hnum level
  refine apart_of_sorted hs (fun f hf => ?_) fun f hf g hg hne => ?_
  · rcases (hmem f).1 hf with ⟨-, ho⟩ | hr
    · exact hrange f ho
    · exact hok.range level f hr.1
  · rcases (hmem f).1 hf with ⟨hl, ho⟩ | hr <;> rcases (hmem g).1 hg with ⟨hl', ho'⟩ | hr'
    · have : Std.Symm fun f g : FileMetaData K => f.largest < g.smallest ∨ g.largest < f.smallest := ⟨fun _ _ => Or.symm⟩
      have hpair : outputs.Pairwise fun f g => f.largest < g.smallest ∨ g.largest < f.smallest := hout.imp fun hlt => Or.inl hlt
      exact hpair.forall ho ho' hne
    · exact (hbetween g (hl ▸ hr') f ho).symm
    · exact hbetween f (hl' ▸ hr) g ho'
    · exact hdisj.or hlevel hr.1 hr'.1 hne

theorem Selected.outside (hok : FilesOk v) (hdisj : Apart v) (hc : Selected v c) (hr : Remains v c (c.level + 1) f) :
    (∀ h, h ∈ c.inputs0 ∨ h ∈ c.inputs1 → f.largest < h.smallest) ∨ ∀ h, h ∈ c.inputs0 ∨ h ∈ c.inputs1 → h.largest < f.smallest := by
  obtain ⟨s, l, hrange, hin⟩ := hc.inputs1_eq
  obtain ⟨-, -, hcover⟩ := getRange_spec hrange
  have hout : f ∉ c.inputs1 := fun hf => hr.2.2 ⟨rfl, hf⟩
  have hmem1 : ∀ h ∈ c.inputs1, h ∈ v (c.level + 1) ∧ s.userKey ≤ h.largest.userKey ∧ h.smallest.userKey ≤ l.userKey := by
    intro h hh
    rw [hin, mem_filter, overlapsRange_iff] at hh
    exact ⟨hh.1, hh.2.1 _ rfl, hh.2.2 _ rfl⟩
  have hno : ¬overlapsRange (some s.userKey) (some l.userKey) f = true := by
    intro ho
    rw [hin] at hout
    exact hout (mem_filter.2 ⟨hr.1, ho⟩)
  rw [overlapsRange_iff, not_and_or] at hno
  have hne : ∀ h ∈ c.inputs1, f ≠ h := by
    rintro h hh rfl
    exact hout hh
  rcases hno with hno | hno
  · -- the file ends before the range of the files of the level
    push Not at hno
    obtain ⟨u, hu, hlt⟩ := hno
    obtain rfl := Option.some.inj hu
    left
    rintro h (hh | hh)
    · exact lt_of_lt_of_le (InternalKey.lt_of_userKey hlt) (hcover h hh).1
    · obtain ⟨hv, hs, -⟩ := hmem1 h hh
      refine (hdisj.or (Nat.succ_pos _) hr.1 hv (hne h hh)).resolve_right fun hhf => ?_
      have hle := InternalKey.userKey_le (le_trans (le_of_lt hhf) (hok.range _ f hr.1))
      exact absurd (lt_of_lt_of_le hlt hs) (not_lt.2 hle)
  · push Not at hno
    obtain ⟨u, hu, hlt⟩ := hno
    obtain rfl := Option.some.inj hu
    right
    rintro h (hh | hh)
    · exact lt_of_le_of_lt (hcover h hh).2 (InternalKey.lt_of_userKey hlt)
    · obtain ⟨hv, -, hl⟩ := hmem1 h hh
      refine (hdisj.or (Nat.succ_pos _) hr.1 hv (hne h hh)).resolve_left fun hfh => ?_
      have hle := InternalKey.userKey_le (le_trans (hok.range _ f hr.1) (le_of_lt hfh))
      exact absurd (lt_of_le_of_lt hl hlt) (not_lt.2 hle)

end KVStores.LevelDb
