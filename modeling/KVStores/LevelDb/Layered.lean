import KVStores.LevelDb.Overlap
import KVStores.LevelDb.VersionEdit
import KVStores.LevelDb.DbIterScan

/-!
# Layered versions

A version is layered when what a level holds of a user key is newer than what deeper levels hold
of it, and what a file of level 0 holds of it is newer than what files of smaller numbers hold.

* `versionGet_found`: **in a layered version `Version::Get` answers with the newest
  entry that the snapshot sees**.
-/

namespace KVStores.LevelDb

open List Option

variable {K V : Type} [LinearOrder K]

structure TableOk (T : Tables K V) (f : FileMetaData K) : Prop where
  sorted : SortedEntries (T f.number)
  smallest : (T f.number).head?.map Entry.key = some f.smallest
  largest : (T f.number).getLast?.map Entry.key = some f.largest

/-- A number stands for one file of a version, and there are `kNumLevels` levels. -/
structure FilesOk (v : Version K) : Prop where
  range : ∀ level, ∀ f ∈ v level, f.smallest ≤ f.largest
  number : ∀ level level', ∀ f ∈ v level, ∀ g ∈ v level', f.number = g.number → level = level' ∧ f = g
  level0 : KeySorted bySmallestKey (v 0)
  levels : ∀ level, kNumLevels ≤ level → v level = []

structure VersionOk (T : Tables K V) (v : Version K) : Prop where
  files : FilesOk v
  tables : ∀ level, ∀ f ∈ v level, TableOk T f

/-- The files of a level but the first are in order and apart. -/
def Apart (v : Version K) : Prop := ∀ level, 0 < level → (v level).Pairwise fun f g => f.largest < g.smallest

/-- What a table holds of a user key is newer than what another one holds of it. -/
def Newer (a b : List (Entry K V)) : Prop :=
  ∀ e ∈ a, ∀ d ∈ b, e.key.userKey = d.key.userKey → d.key.sequence < e.key.sequence

/-- The levels are apart inside, and newer entries are found first. -/
structure Layered (T : Tables K V) (v : Version K) : Prop where
  disjoint : Apart v
  newer : ∀ level level', level < level' → ∀ f ∈ v level, ∀ g ∈ v level', Newer (T f.number) (T g.number)
  level0 : ∀ f ∈ v 0, ∀ g ∈ v 0, g.number < f.number → Newer (T f.number) (T g.number)

def Holds (T : Tables K V) (v : Version K) (e : Entry K V) : Prop := ∃ level, ∃ f ∈ v level, e ∈ T f.number

/-- The newest entry of a user key that a snapshot sees. -/
structure IsNewest (P : Entry K V → Prop) (u : K) (s : ℕ) (e : Entry K V) : Prop where
  mem : P e
  userKey : e.key.userKey = u
  sequence : e.key.sequence ≤ s
  newest : ∀ d, P d → d.key.userKey = u → d.key.sequence ≤ s → d.key.tag ≤ e.key.tag

def Entry.result (e : Entry K V) : GetResult V :=
  match e.key.type? with
  | none => .corrupt
  | some .value => .found e.value
  | some .deletion => .deleted

variable {T : Tables K V} {v : Version K} {f g : FileMetaData K} {e d : Entry K V} {u : K} {s : ℕ} {l : List (Entry K V)}

theorem TableOk.smallest_le (h : TableOk T f) (he : e ∈ T f.number) : f.smallest ≤ e.key := by
  obtain ⟨a, ha, hk⟩ := map_eq_some_iff.1 h.smallest
  obtain ⟨l, hl⟩ := List.head?_eq_some_iff.1 ha
  have hs := h.sorted
  rw [hl] at he hs
  rw [← hk]
  rcases mem_cons.1 he with rfl | he
  · exact le_refl _
  · exact le_of_lt ((pairwise_cons.1 hs).1 e he)

theorem TableOk.le_largest (h : TableOk T f) (he : e ∈ T f.number) : e.key ≤ f.largest := by
  obtain ⟨a, ha, hk⟩ := map_eq_some_iff.1 h.largest
  obtain ⟨l, hl⟩ := List.getLast?_eq_some_iff.1 ha
  have hs := h.sorted
  rw [hl] at he hs
  rw [← hk]
  rcases mem_append.1 he with he | he
  · exact le_of_lt ((pairwise_append.1 hs).2.2 e he a (mem_singleton_self a))
  · rw [mem_singleton.1 he]

theorem TableOk.exists_smallest (h : TableOk T f) : ∃ e ∈ T f.number, e.key = f.smallest := by
  obtain ⟨a, ha, hk⟩ := map_eq_some_iff.1 h.smallest
  exact ⟨a, mem_of_head? ha, hk⟩

theorem TableOk.exists_largest (h : TableOk T f) : ∃ e ∈ T f.number, e.key = f.largest := by
  obtain ⟨a, ha, hk⟩ := map_eq_some_iff.1 h.largest
  exact ⟨a, mem_of_getLast? ha, hk⟩

theorem TableOk.smallest_le_largest (h : TableOk T f) : f.smallest ≤ f.largest := by
  obtain ⟨e, he, hk⟩ := h.exists_smallest
  exact hk ▸ h.le_largest he

theorem FilesOk.endsSorted (hok : FilesOk v) (h : Apart v) : ∀ level, 0 < level → EndsSorted (v level) :=
  fun level hlevel => (h level hlevel).imp_of_mem fun _ hg hlt => lt_of_lt_of_le hlt (hok.range level _ hg)

theorem FilesOk.sorted (hok : FilesOk v) (h : Apart v) (level : ℕ) : KeySorted bySmallestKey (v level) := by
  rcases Nat.eq_zero_or_pos level with rfl | hlevel
  · exact hok.level0
  · refine (h level hlevel).imp_of_mem fun hf _ hlt => ?_
    exact Prod.Lex.toLex_lt_toLex.2 (Or.inl (lt_of_le_of_lt (hok.range level _ hf) hlt))

def tableGet (l : List (Entry K V)) (u : K) (s : ℕ) : Option (GetResult V) := (internalGet l (lookupKey u s)).bind (saveValue u)

theorem tableGet_found (hs : SortedEntries l) (ht : ∀ e ∈ l, e.key.type? ≠ none) (he : IsNewest (· ∈ l) u s e) :
    tableGet l u s = some e.result := by
  have hfind : internalGet l (lookupKey u s) = some e := by
    unfold internalGet
    rw [List.find?_eq_some_iff_append]
    obtain ⟨x, y, rfl⟩ := append_of_mem he.mem
    refine ⟨decide_eq_true ((lookupKey_le_iff (ht e he.mem)).2 (Or.inr ⟨he.userKey.symm, he.sequence⟩)), x, y, rfl, fun d hd => ?_⟩
    rw [Bool.not_eq_true', decide_eq_false_iff_not, lookupKey_le_iff (ht d (mem_append_left _ hd))]
    have hlt : d.key < e.key := (pairwise_append.1 hs).2.2 d hd e mem_cons_self
    rintro (hu | ⟨hu, hseq⟩)
    · -- a larger user key does not come first
      exact absurd (InternalKey.userKey_le (le_of_lt hlt)) (not_le.2 (he.userKey ▸ hu))
    · have := he.newest d (mem_append_left _ hd) hu.symm hseq
      exact absurd (InternalKey.tag_lt_of_lt hlt (by rw [← hu, he.userKey])) (not_lt.2 this)
  unfold tableGet
  rw [hfind, bind_some]
  unfold saveValue Entry.result
  cases htype : e.key.type? with
  | none => rfl
  | some t =>
    dsimp only
    rw [if_pos he.userKey]
    cases t <;> rfl

theorem tableGet_notFound (ht : ∀ e ∈ l, e.key.type? ≠ none) (h : ∀ e ∈ l, e.key.userKey = u → ¬e.key.sequence ≤ s) :
    tableGet l u s = none := by
  unfold tableGet
  cases hfind : internalGet l (lookupKey u s) with
  | none => rfl
  | some d =>
    have hmem : d ∈ l := List.mem_of_find?_eq_some hfind
    have hle : lookupKey u s ≤ d.key := by
      exact of_decide_eq_true (List.find?_some (p := fun e : Entry K V => decide (lookupKey u s ≤ e.key)) hfind)
    have hne : d.key.userKey ≠ u := by
      intro hu
      rcases (lookupKey_le_iff (ht d hmem)).1 hle with hlt | ⟨-, hseq⟩
      · exact absurd hu.symm (ne_of_lt hlt)
      · exact h d hmem hu hseq
    rw [bind_some]
    unfold saveValue
    cases htype : d.key.type? with
    | none => exact absurd htype (ht d hmem)
    | some t =>
      dsimp only
      rw [if_neg hne]

variable {ikey : InternalKey K}

theorem mem_filesToSearch_zero : f ∈ filesToSearch v 0 u ikey ↔ f ∈ v 0 ∧ f.smallest.userKey ≤ u ∧ u ≤ f.largest.userKey := by
  unfold filesToSearch
  rw [if_pos rfl, (perm_insertionSort _ _).mem_iff, mem_filter, Bool.and_eq_true, decide_eq_true_eq, decide_eq_true_eq]

variable {level : ℕ}

theorem filesToSearch_pos (hlevel : 0 < level) (hs : EndsSorted (v level)) : filesToSearch v level u ikey =
      ((v level).find? fun f => decide (ikey ≤ f.largest)).elim [] fun f => if u < f.smallest.userKey then [] else [f] := by
  unfold filesToSearch
  rw [if_neg (Nat.ne_of_gt hlevel), findFile_getElem? hs]
  cases (v level).find? fun f => decide (ikey ≤ f.largest) <;> rfl

theorem filesToSearch_sub (hs : ∀ level, 0 < level → EndsSorted (v level)) (hf : f ∈ filesToSearch v level u ikey) : f ∈ v level := by
  rcases Nat.eq_zero_or_pos level with rfl | hlevel
  · exact (mem_filesToSearch_zero.1 hf).1
  · rw [filesToSearch_pos hlevel (hs level hlevel)] at hf
    cases hfind : (v level).find? fun f => decide (ikey ≤ f.largest) with
    | none =>
      rw [hfind] at hf
      cases hf
    | some g =>
      rw [hfind, elim_some] at hf
      by_cases hu : u < g.smallest.userKey
      · rw [if_pos hu] at hf
        cases hf
      · rw [if_neg hu] at hf
        rw [mem_singleton.1 hf]
        exact List.mem_of_find?_eq_some hfind

theorem filesToSearch_newer (hok : VersionOk T v) (hlay : Layered T v) (level : ℕ) (ikey : InternalKey K) :
    (filesToSearch v level u ikey).Pairwise fun f g => Newer (T f.number) (T g.number) := by
  have hs := hok.files.endsSorted hlay.disjoint
  rcases Nat.eq_zero_or_pos level with rfl | hlevel
  · -- the files of level 0 are in the order of their numbers
    have hnum : (filesToSearch v 0 u ikey).Pairwise fun f g => g.number ≤ f.number := by
      unfold filesToSearch
      exact pairwise_insertionSort _ _
    have hnodup : (filesToSearch v 0 u ikey).Nodup := by
      unfold filesToSearch
      rw [if_pos rfl, (perm_insertionSort _ _).nodup_iff]
      exact (KeySorted.nodup hok.files.level0).filter _
    refine (hnum.and hnodup).imp_of_mem fun hf hg hfg => ?_
    have hf' := (mem_filesToSearch_zero.1 hf).1
    have hg' := (mem_filesToSearch_zero.1 hg).1
    refine hlay.level0 _ hf' _ hg' (lt_of_le_of_ne hfg.1 fun hn => hfg.2 ?_)
    exact (hok.files.number 0 0 _ hf' _ hg' hn.symm).2
  · rw [filesToSearch_pos hlevel (hs level hlevel)]
    cases (v level).find? fun f => decide (ikey ≤ f.largest) with
    | none => exact List.Pairwise.nil
    | some g =>
      rw [elim_some]
      by_cases hu : u < g.smallest.userKey
      · rw [if_pos hu]
        exact List.Pairwise.nil
      · rw [if_neg hu]
        exact pairwise_singleton _ _

theorem mem_filesToSearch (hok : VersionOk T v) (hlay : Layered T v) (ht : ∀ e, Holds T v e → e.key.type? ≠ none)
    (he : IsNewest (Holds T v) u s e) (hf : f ∈ v level) (hmem : e ∈ T f.number) : f ∈ filesToSearch v level u (lookupKey u s) := by
  have htable := hok.tables level f hf
  have hsmall : f.smallest.userKey ≤ u := he.userKey ▸ InternalKey.userKey_le (htable.smallest_le hmem)
  rcases Nat.eq_zero_or_pos level with rfl | hlevel
  · exact mem_filesToSearch_zero.2 ⟨hf, hsmall, he.userKey ▸ InternalKey.userKey_le (htable.le_largest hmem)⟩
  · have hdisj := hlay.disjoint level hlevel
    rw [filesToSearch_pos hlevel (hok.files.endsSorted hlay.disjoint level hlevel)]
    have hfind : (v level).find? (fun f => decide (lookupKey u s ≤ f.largest)) = some f := by
      rw [List.find?_eq_some_iff_append]
      obtain ⟨x, y, hxy⟩ := append_of_mem hf
      have hkey := (lookupKey_le_iff (ht e he.mem)).2 (Or.inr ⟨he.userKey.symm, he.sequence⟩)
      refine ⟨decide_eq_true (le_trans hkey (htable.le_largest hmem)), x, y, hxy, fun g hg => ?_⟩
      rw [Bool.not_eq_true', decide_eq_false_iff_not]
      intro hle
      -- the last entry of an earlier file would be newer
      have hgv : g ∈ v level := by rw [hxy]; exact mem_append_left _ hg
      obtain ⟨d, hd, hdk⟩ := (hok.tables level g hgv).exists_largest
      have hd' : Holds T v d := ⟨level, g, hgv, hd⟩
      rw [hxy] at hdisj
      have hlt : d.key < e.key := by
        rw [hdk]
        exact lt_of_lt_of_le ((pairwise_append.1 hdisj).2.2 g hg f mem_cons_self) (htable.smallest_le hmem)
      rw [← hdk, lookupKey_le_iff (ht d hd')] at hle
      rcases hle with hu | ⟨hu, hseq⟩
      · exact absurd (InternalKey.userKey_le (le_of_lt hlt)) (not_le.2 (he.userKey ▸ hu))
      · have := he.newest d hd' hu.symm hseq
        exact absurd (InternalKey.tag_lt_of_lt hlt (by rw [← hu, he.userKey])) (not_lt.2 this)
    rw [hfind, elim_some, if_neg (not_lt.2 hsmall)]
    exact mem_singleton_self f

def searched (v : Version K) (u : K) (s : ℕ) : List (FileMetaData K) :=
  (List.range kNumLevels).flatMap fun level => filesToSearch v level u (lookupKey u s)

theorem versionGet_eq : versionGet T v u s = ((searched v u s).findSome? fun f => tableGet (T f.number) u s).getD .notFound := rfl

theorem searched_holds (hs : ∀ level, 0 < level → EndsSorted (v level)) (hf : f ∈ searched v u s) (hd : d ∈ T f.number) : Holds T v d := by
  obtain ⟨level, -, hf⟩ := mem_flatMap.1 hf
  exact ⟨level, f, filesToSearch_sub hs hf, hd⟩

theorem findSome?_first {α β : Type} {answer : α → Option β} {x y : List α} {a : α} {b : β} (ha : answer a = some b)
    (hx : ∀ c ∈ x, answer c = none) : (x ++ a :: y).findSome? answer = some b :=
  List.findSome?_eq_some_iff.2 ⟨x, a, y, rfl, ha, hx⟩

theorem versionGet_found (hok : VersionOk T v) (hlay : Layered T v) (ht : ∀ e, Holds T v e → e.key.type? ≠ none)
    (he : IsNewest (Holds T v) u s e) : versionGet T v u s = e.result := by
  have hs := hok.files.endsSorted hlay.disjoint
  have hnewer : (searched v u s).Pairwise fun f g => Newer (T f.number) (T g.number) := by
    unfold searched
    rw [pairwise_flatMap]
    refine ⟨fun level _ => filesToSearch_newer hok hlay level _, pairwise_lt_range.imp fun hlt f hf g hg => ?_⟩
    exact hlay.newer _ _ hlt f (filesToSearch_sub hs hf) g (filesToSearch_sub hs hg)
  obtain ⟨level, f, hf, hmem⟩ := he.mem
  have hlevel : level < kNumLevels := by
    by_contra hc
    rw [hok.files.levels level (not_lt.1 hc)] at hf
    cases hf
  have hin : f ∈ searched v u s := mem_flatMap.2 ⟨level, mem_range.2 hlevel, mem_filesToSearch hok hlay ht he hf hmem⟩
  obtain ⟨x, y, hxy⟩ := append_of_mem hin
  have hanswer : tableGet (T f.number) u s = some e.result := by
    refine tableGet_found (hok.tables level f hf).sorted (fun d hd => ht d ⟨level, f, hf, hd⟩) ⟨hmem, he.userKey, he.sequence, fun d hd => ?_⟩
    exact he.newest d ⟨level, f, hf, hd⟩
  -- what an earlier file holds of the user key is newer, so that the snapshot does not see it
  have hearlier : ∀ g ∈ x, tableGet (T g.number) u s = none := by
    intro g hg
    have hg' : g ∈ searched v u s := by rw [hxy]; exact mem_append_left _ hg
    refine tableGet_notFound (fun d hd => ht d (searched_holds hs hg' hd)) fun d hd hu hseq => ?_
    rw [hxy] at hnewer
    have hlt := (pairwise_append.1 hnewer).2.2 g hg f mem_cons_self d hd e hmem (by rw [hu, he.userKey])
    exact absurd (InternalKey.sequence_le (he.newest d (searched_holds hs hg' hd) hu hseq)) (not_le.2 hlt)
  rw [versionGet_eq, hxy, @findSome?_first _ _ (fun f => tableGet (T f.number) u s) x y f e.result hanswer hearlier, getD_some]

def twoFiles (f g : FileMetaData K) : Version K := fun level => if level = 1 then [f, g] else []

omit [LinearOrder K] in
theorem mem_twoFiles {h : FileMetaData K} : h ∈ twoFiles f g level ↔ level = 1 ∧ (h = f ∨ h = g) := by
  unfold twoFiles
  by_cases hl : level = 1
  · simp [hl]
  · simp [hl]

theorem twoFiles_ok (hf : TableOk T f) (hg : TableOk T g) (hne : f.number ≠ g.number) : VersionOk T (twoFiles f g) := by
  have htables : ∀ level, ∀ h ∈ twoFiles f g level, TableOk T h := by
    intro level h hh
    rcases (mem_twoFiles.1 hh).2 with rfl | rfl
    · exact hf
    · exact hg
  refine ⟨⟨fun level h hh => (htables level h hh).smallest_le_largest, fun level level' h hh h' hh' hn => ?_, List.Pairwise.nil, ?_⟩, htables⟩
  · obtain ⟨h1, hh⟩ := mem_twoFiles.1 hh
    obtain ⟨h2, hh'⟩ := mem_twoFiles.1 hh'
    refine ⟨h1.trans h2.symm, ?_⟩
    rcases hh with rfl | rfl <;> rcases hh' with rfl | rfl
    · rfl
    · exact absurd hn hne
    · exact absurd hn.symm hne
    · rfl
  · intro level hlevel
    unfold twoFiles
    rw [if_neg (by unfold kNumLevels at hlevel; omega)]

theorem twoFiles_layered (h : f.largest < g.smallest) : Layered T (twoFiles f g) := by
  refine ⟨fun level _ => ?_, fun level level' hlt a ha b hb => ?_, fun a ha => absurd (mem_twoFiles.1 ha).1 (by decide)⟩
  · unfold twoFiles
    by_cases hl : level = 1
    · rw [if_pos hl]
      exact pairwise_pair.2 h
    · rw [if_neg hl]
      exact List.Pairwise.nil
  · have h1 := (mem_twoFiles.1 ha).1
    have h2 := (mem_twoFiles.1 hb).1
    omega

end KVStores.LevelDb
