import KVStores.LevelDb.Installed

/-!
# What a compaction drops

The loop of `DoCompactionWork` goes through the merged inputs and drops entries that it takes for
hidden, and deletion markers that it takes for obsolete.

* `dropStep_spec`, `mem_keptEntries`: **whether an entry is dropped depends on the entry before it alone**, and for a
  deletion marker on the deeper levels.
-/

namespace KVStores.LevelDb

open List Option Function

variable {K V : Type} [LinearOrder K]

/-- The files of a level from its pointer on: whether one has the user key in its range, and the new pointer. -/
@[grind =] def levelHasKey (userKey : K) : List (FileMetaData K) → ℕ → Bool × ℕ
  | [], ptr => (false, ptr)
  | f :: files, ptr =>
    if userKey ≤ f.largest.userKey then (decide (f.smallest.userKey ≤ userKey), ptr)
    else levelHasKey userKey files (ptr + 1)

/-- The loop of `IsBaseLevelForKey` over the levels; it ends at the first one with the key. -/
@[grind =] def isBaseLoop (v : Version K) (userKey : K) : ℕ → ℕ → (ℕ → ℕ) → Bool × (ℕ → ℕ)
  | 0, _, levelPtrs => (true, levelPtrs)
  | fuel + 1, lvl, levelPtrs =>
    let r := levelHasKey userKey ((v lvl).drop (levelPtrs lvl)) (levelPtrs lvl)
    if r.1 then (false, Function.update levelPtrs lvl r.2)
    else isBaseLoop v userKey fuel (lvl + 1) (Function.update levelPtrs lvl r.2)

/-- `Compaction::IsBaseLevelForKey` and the new `level_ptrs_`. -/
def isBaseLevelForKey (c : Compaction K) (levelPtrs : ℕ → ℕ) (userKey : K) : Bool × (ℕ → ℕ) :=
  isBaseLoop c.inputVersion userKey (kNumLevels - (c.level + 2)) (c.level + 2) levelPtrs

/-- The oldest snapshot, or the last sequence number when there is none. -/
def smallestSnapshot (snapshots : List ℕ) (lastSequence : ℕ) : ℕ := snapshots.head?.getD lastSequence

/-- `current_user_key`, `last_sequence_for_key` and `level_ptrs_`. -/
structure DropState (K : Type) where
  currentUserKey : Option K
  lastSequenceForKey : ℕ
  levelPtrs : ℕ → ℕ

def DropState.start : DropState K := ⟨none, kMaxSequenceNumber, fun _ => 0⟩

/-- An entry in the loop of `DoCompactionWork`: whether it is dropped. -/
def dropStep (c : Compaction K) (smallest : ℕ) (st : DropState K) (e : Entry K V) : Bool × DropState K :=
  match e.key.type? with
  | none => (false, { st with currentUserKey := none, lastSequenceForKey := kMaxSequenceNumber })
  | some t =>
    let last := if st.currentUserKey = some e.key.userKey then st.lastSequenceForKey else kMaxSequenceNumber
    if last ≤ smallest then (true, { st with currentUserKey := some e.key.userKey, lastSequenceForKey := e.key.sequence })
    else if t = .deletion ∧ e.key.sequence ≤ smallest then
      let r := isBaseLevelForKey c st.levelPtrs e.key.userKey
      (r.1, ⟨some e.key.userKey, e.key.sequence, r.2⟩)
    else (false, { st with currentUserKey := some e.key.userKey, lastSequenceForKey := e.key.sequence })

@[grind =] def keptFrom (c : Compaction K) (smallest : ℕ) : DropState K → List (Entry K V) → List (Entry K V)
  | _, [] => []
  | st, e :: l =>
    let r := dropStep c smallest st e
    if r.1 then keptFrom c smallest r.2 l else e :: keptFrom c smallest r.2 l

def keptEntries (T : Tables K V) (c : Compaction K) (smallest : ℕ) : List (Entry K V) := keptFrom c smallest .start (mergedInputs T c)

variable {v : Version K} {c : Compaction K} {u : K} {f : FileMetaData K} {files : List (FileMetaData K)} {ptr : ℕ}

def HasKey (u : K) (f : FileMetaData K) : Prop := f.smallest.userKey ≤ u ∧ u ≤ f.largest.userKey

/-- No file below the level of the outputs has the user key in its range. -/
def BaseLevel (v : Version K) (level : ℕ) (u : K) : Prop := ∀ lvl, level + 2 ≤ lvl → ∀ f ∈ v lvl, ¬HasKey u f

theorem levelHasKey_spec (hle : ∀ f ∈ files, f.smallest ≤ f.largest) (hs : files.Pairwise fun f g => f.largest < g.smallest) (ptr : ℕ) :
    ∃ x y, files = x ++ y ∧ (levelHasKey u files ptr).2 = ptr + x.length ∧ (∀ f ∈ x, f.largest.userKey < u) ∧
      ((levelHasKey u files ptr).1 = true ↔ ∃ f ∈ files, HasKey u f) := by
  induction files generalizing ptr with
  | nil => exact ⟨[], [], rfl, rfl, fun f hf => (not_mem_nil hf).elim, by simp [levelHasKey]⟩
  | cons f files ih =>
    obtain ⟨hf, hs⟩ := pairwise_cons.1 hs
    rw [levelHasKey]
    by_cases hu : u ≤ f.largest.userKey
    · rw [if_pos hu]
      refine ⟨[], f :: files, rfl, rfl, fun f hf => (not_mem_nil hf).elim, ?_⟩
      rw [decide_eq_true_eq]
      constructor
      · exact fun h => ⟨f, mem_cons_self, h, hu⟩
      · rintro ⟨g, hg, hgu, -⟩
        rcases mem_cons.1 hg with rfl | hg
        · exact hgu
        · -- the other files begin behind this one
          have h1 := InternalKey.userKey_le (le_of_lt (lt_of_le_of_lt (hle f mem_cons_self) (hf g hg)))
          exact le_trans h1 hgu
    · rw [if_neg hu]
      obtain ⟨x, y, h1, h2, h3, h4⟩ := ih (fun g hg => hle g (mem_cons_of_mem _ hg)) hs (ptr + 1)
      refine ⟨f :: x, y, by rw [h1, cons_append], by rw [h2, length_cons]; omega, ?_, ?_⟩
      · intro g hg
        rcases mem_cons.1 hg with rfl | hg
        · exact not_le.1 hu
        · exact h3 g hg
      · rw [h4]
        constructor
        · rintro ⟨g, hg, hgu⟩
          exact ⟨g, mem_cons_of_mem _ hg, hgu⟩
        · rintro ⟨g, hg, hgu⟩
          rcases mem_cons.1 hg with rfl | hg
          · exact absurd hgu.2 hu
          · exact ⟨g, hg, hgu⟩

/-- The pointers of the levels are behind files that end before the key. -/
def PtrsBefore (v : Version K) (ptrs : ℕ → ℕ) (u : K) : Prop := ∀ lvl, ∀ f ∈ (v lvl).take (ptrs lvl), f.largest.userKey < u

theorem PtrsBefore.mono {ptrs : ℕ → ℕ} {u' : K} (h : PtrsBefore v ptrs u) (hu : u ≤ u') : PtrsBefore v ptrs u' :=
  fun lvl f hf => lt_of_lt_of_le (h lvl f hf) hu

theorem isBaseLoop_spec (hok : FilesOk v) (hdisj : Apart v) : ∀ (fuel lvl : ℕ) {ptrs : ℕ → ℕ}, 0 < lvl → PtrsBefore v ptrs u →
    PtrsBefore v (isBaseLoop v u fuel lvl ptrs).2 u ∧
    ((isBaseLoop v u fuel lvl ptrs).1 = true ↔ ∀ l, lvl ≤ l → l < lvl + fuel → ∀ f ∈ v l, ¬HasKey u f)
  | 0, lvl, ptrs, _, hptrs => ⟨hptrs, iff_of_true rfl fun l h1 h2 => absurd h2 (not_lt.2 h1)⟩
  | fuel + 1, lvl, ptrs, hlvl, hptrs => by
    have hsub : ∀ f ∈ (v lvl).drop (ptrs lvl), f ∈ v lvl := fun f hf => mem_of_mem_drop hf
    obtain ⟨x, y, h1, h2, h3, h4⟩ := levelHasKey_spec (u := u) (fun f hf => hok.range lvl f (hsub f hf))
      ((hdisj lvl hlvl).sublist (drop_sublist _ _)) (ptrs lvl)
    -- in front of the pointer no file has the key
    have hhas : (levelHasKey u ((v lvl).drop (ptrs lvl)) (ptrs lvl)).1 = true ↔ ∃ f ∈ v lvl, HasKey u f := by
      rw [h4]
      constructor
      · rintro ⟨f, hf, hu⟩
        exact ⟨f, hsub f hf, hu⟩
      · rintro ⟨f, hf, hu⟩
        rw [← take_append_drop (ptrs lvl) (v lvl)] at hf
        rcases mem_append.1 hf with hf | hf
        · exact absurd hu.2 (not_le.2 (hptrs lvl f hf))
        · exact ⟨f, hf, hu⟩
    have hptrs' : PtrsBefore v (Function.update ptrs lvl (levelHasKey u ((v lvl).drop (ptrs lvl)) (ptrs lvl)).2) u := by
      intro l f hf
      by_cases hl : l = lvl
      · subst hl
        rw [update_self, h2, take_add, h1, take_left] at hf
        rcases mem_append.1 hf with hf | hf
        · exact hptrs l f hf
        · exact h3 f hf
      · rw [update_of_ne hl] at hf
        exact hptrs l f hf
    rw [isBaseLoop]
    by_cases hr : (levelHasKey u ((v lvl).drop (ptrs lvl)) (ptrs lvl)).1 = true
    · rw [if_pos hr]
      refine ⟨hptrs', iff_of_false Bool.false_ne_true fun h => ?_⟩
      obtain ⟨f, hf, hu⟩ := hhas.1 hr
      exact h lvl (le_refl _) (by omega) f hf hu
    · rw [if_neg hr]
      obtain ⟨g1, g2⟩ := isBaseLoop_spec hok hdisj fuel (lvl + 1) (Nat.succ_pos _) hptrs'
      refine ⟨g1, g2.trans ⟨fun h l h1 h2 f hf hu => ?_, fun h l h1 h2 => h l (by omega) (by omega)⟩⟩
      rcases Nat.lt_or_ge lvl l with hl | hl
      · exact h l hl (by omega) f hf hu
      · obtain rfl : l = lvl := by omega
        exact hr (hhas.2 ⟨f, hf, hu⟩)

theorem isBaseLevelForKey_spec (hok : FilesOk v) (hdisj : Apart v) (hc : Selected v c) {ptrs : ℕ → ℕ} (hptrs : PtrsBefore v ptrs u) :
    PtrsBefore v (isBaseLevelForKey c ptrs u).2 u ∧ ((isBaseLevelForKey c ptrs u).1 = true ↔ BaseLevel v c.level u) := by
  unfold isBaseLevelForKey
  rw [hc.inputVersion]
  obtain ⟨h1, h2⟩ := isBaseLoop_spec hok hdisj (kNumLevels - (c.level + 2)) (c.level + 2) (Nat.succ_pos _) hptrs
  refine ⟨h1, h2.trans ⟨fun h l hl f hf => ?_, fun h l hl _ => h l hl⟩⟩
  have hlt : l < kNumLevels := by
    by_contra hge
    rw [hok.levels l (not_lt.1 hge)] at hf
    cases hf
  exact h l hl (by omega) f hf

def HiddenBy (smallest : ℕ) (before : Option (Entry K V)) (e : Entry K V) : Prop :=
  ∃ d, before = some d ∧ d.key.type? ≠ none ∧ d.key.userKey = e.key.userKey ∧ d.key.sequence ≤ smallest

/-- A deletion marker that no snapshot needs, as no deeper level has the user key. -/
def Obsolete (base : K → Prop) (smallest : ℕ) (e : Entry K V) : Prop :=
  e.key.type? = some .deletion ∧ e.key.sequence ≤ smallest ∧ base e.key.userKey

/-- The entries that are dropped, by the entries before them. -/
def Dropped (base : K → Prop) (smallest : ℕ) (before : Option (Entry K V)) (e : Entry K V) : Prop :=
  e.key.type? ≠ none ∧ (HiddenBy smallest before e ∨ Obsolete base smallest e)

/-- The state of the loop remembers the entry before, when its key is not corrupt. -/
structure Remembers (v : Version K) (before : Option (Entry K V)) (st : DropState K) : Prop where
  current : st.currentUserKey = (before.filter fun d => d.key.type?.isSome).map fun d => d.key.userKey
  last : ∀ d, before = some d → d.key.type? ≠ none → st.lastSequenceForKey = d.key.sequence
  ptrs : ∀ d, before = some d → PtrsBefore v st.levelPtrs d.key.userKey
  start : before = none → ∀ u, PtrsBefore v st.levelPtrs u

variable {smallest : ℕ} {before : Option (Entry K V)} {st : DropState K} {e : Entry K V}

/-- The sequence number that hides an entry is that of an entry of the same user key right before it. -/
theorem Remembers.hidden (h : Remembers v before st) (hmax : smallest < kMaxSequenceNumber) :
    (if st.currentUserKey = some e.key.userKey then st.lastSequenceForKey else kMaxSequenceNumber) ≤ smallest ↔ HiddenBy smallest before e := by
  have hcurrent : st.currentUserKey = some e.key.userKey ↔ ∃ d, before = some d ∧ d.key.type? ≠ none ∧ d.key.userKey = e.key.userKey := by
    rw [h.current, map_eq_some_iff]
    simp only [filter_eq_some_iff, isSome_iff_ne_none]
    tauto
  by_cases hc : st.currentUserKey = some e.key.userKey
  · rw [if_pos hc]
    obtain ⟨d, hd, ht, hu⟩ := hcurrent.1 hc
    rw [h.last d hd ht]
    constructor
    · exact fun hle => ⟨d, hd, ht, hu, hle⟩
    · rintro ⟨d', hd', -, -, hle⟩
      obtain rfl := Option.some.inj (hd.symm.trans hd')
      exact hle
  · rw [if_neg hc]
    refine iff_of_false (not_le.2 hmax) ?_
    rintro ⟨d, hd, ht, hu, -⟩
    exact hc (hcurrent.2 ⟨d, hd, ht, hu⟩)

theorem dropStep_spec (hok : FilesOk v) (hdisj : Apart v) (hc : Selected v c) (hmax : smallest < kMaxSequenceNumber)
    (h : Remembers v before st) (hle : ∀ d, before = some d → d.key.userKey ≤ e.key.userKey) :
    ((dropStep c smallest st e).1 = true ↔ Dropped (BaseLevel v c.level) smallest before e) ∧ Remembers v (some e) (dropStep c smallest st e).2 := by
  have hptrs : PtrsBefore v st.levelPtrs e.key.userKey := by
    cases hb : before with
    | none => exact h.start hb _
    | some d => exact (h.ptrs d hb).mono (hle d hb)
  -- what is remembered of an entry whose key is not corrupt
  have hremember : ∀ {t : ValueType} {ptrs : ℕ → ℕ}, e.key.type? = some t → PtrsBefore v ptrs e.key.userKey →
      Remembers v (some e) ⟨some e.key.userKey, e.key.sequence, ptrs⟩ := by
    intro t ptrs ht hp
    refine ⟨by simp [ht], fun d hd _ => ?_, fun d hd => ?_, fun hnone => (by cases hnone)⟩
    · rw [Option.some.inj hd]
    · rw [← Option.some.inj hd]
      exact hp
  unfold dropStep Dropped
  cases ht : e.key.type? with
  | none =>
    refine ⟨iff_of_false Bool.false_ne_true fun hd => hd.1 rfl, by simp [ht], fun d hd hne => ?_, fun d hd => ?_, fun hnone => (by cases hnone)⟩
    · rw [← Option.some.inj hd] at hne
      exact absurd ht hne
    · rw [← Option.some.inj hd]
      exact hptrs
  | some t =>
    dsimp only
    have hhidden := h.hidden hmax (e := e)
    by_cases hlast : (if st.currentUserKey = some e.key.userKey then st.lastSequenceForKey else kMaxSequenceNumber) ≤ smallest
    · rw [if_pos hlast]
      exact ⟨iff_of_true rfl ⟨some_ne_none t, Or.inl (hhidden.1 hlast)⟩, hremember ht hptrs⟩
    · rw [if_neg hlast]
      by_cases hdel : t = .deletion ∧ e.key.sequence ≤ smallest
      · rw [if_pos hdel]
        obtain ⟨hp, hbase⟩ := isBaseLevelForKey_spec hok hdisj hc hptrs
        refine ⟨hbase.trans ⟨fun hb => ⟨some_ne_none t, Or.inr ⟨by rw [ht, hdel.1], hdel.2, hb⟩⟩, ?_⟩, hremember ht hp⟩
        rintro ⟨-, hh | hb⟩
        · exact absurd (hhidden.2 hh) hlast
        · exact hb.2.2
      · rw [if_neg hdel]
        refine ⟨iff_of_false Bool.false_ne_true ?_, hremember ht hptrs⟩
        rintro ⟨-, hh | hb⟩
        · exact hlast (hhidden.2 hh)
        · exact hdel ⟨Option.some.inj (ht.symm.trans hb.1), hb.2.1⟩

theorem mem_keptFrom (hok : FilesOk v) (hdisj : Apart v) (hc : Selected v c) (hmax : smallest < kMaxSequenceNumber) :
    ∀ (l : List (Entry K V)) {before : Option (Entry K V)} {st : DropState K}, SortedEntries l → Remembers v before st →
    (∀ d, before = some d → ∀ e ∈ l, d.key.userKey ≤ e.key.userKey) → (keptFrom c smallest st l).Sublist l ∧
    ∀ e, e ∈ keptFrom c smallest st l ↔ ∃ x y, l = x ++ e :: y ∧ ¬Dropped (BaseLevel v c.level) smallest (x.getLast?.or before) e
  | [], _, _, _, _, _ => ⟨List.Sublist.slnil, fun e => ⟨fun he => (not_mem_nil he).elim, fun ⟨x, y, h, _⟩ => by simp at h⟩⟩
  | a :: l, before, st, hs, h, hle => by
    obtain ⟨hfirst, hs'⟩ := pairwise_cons.1 hs
    obtain ⟨hdrop, hstate⟩ := dropStep_spec hok hdisj hc hmax h (fun d hd => hle d hd a mem_cons_self)
    obtain ⟨ih1, ih2⟩ := mem_keptFrom hok hdisj hc hmax l hs' hstate fun d hd e he => by
      rw [← Option.some.inj hd]
      exact InternalKey.userKey_le (le_of_lt (hfirst e he))
    have hor : ∀ x : List (Entry K V), (a :: x).getLast?.or before = x.getLast?.or (some a) := by
      intro x
      rw [List.getLast?_cons, some_or]
      cases x.getLast? <;> rfl
    -- an entry of the rest has the same entry before it
    have hrest : ∀ e, (∃ x y, a :: l = x ++ e :: y ∧ ¬Dropped (BaseLevel v c.level) smallest (x.getLast?.or before) e) ↔
        (e = a ∧ ¬Dropped (BaseLevel v c.level) smallest before a) ∨
        ∃ x y, l = x ++ e :: y ∧ ¬Dropped (BaseLevel v c.level) smallest (x.getLast?.or (some a)) e := by
      intro e
      constructor
      · rintro ⟨x, y, hxy, hd⟩
        cases x with
        | nil =>
          obtain ⟨rfl, rfl⟩ := List.cons.inj hxy
          exact Or.inl ⟨rfl, hd⟩
        | cons b x =>
          obtain ⟨rfl, rfl⟩ := List.cons.inj hxy
          refine Or.inr ⟨x, y, rfl, ?_⟩
          rwa [hor] at hd
      · rintro (⟨rfl, hd⟩ | ⟨x, y, rfl, hd⟩)
        · exact ⟨[], l, rfl, hd⟩
        · refine ⟨a :: x, y, rfl, ?_⟩
          rwa [hor]
    rw [keptFrom]
    by_cases hr : (dropStep c smallest st a).1 = true
    · rw [if_pos hr]
      refine ⟨ih1.cons a, fun e => ?_⟩
      rw [ih2, hrest, or_iff_right fun hc => hc.2 (hdrop.1 hr)]
    · rw [if_neg hr]
      refine ⟨ih1.cons_cons a, fun e => ?_⟩
      rw [mem_cons, ih2, hrest]
      exact or_congr (and_iff_left fun hd => hr (hdrop.2 hd)).symm Iff.rfl

/-- **What a compaction keeps of its inputs.** -/
theorem mem_keptEntries {T : Tables K V} (hok : FilesOk v) (hdisj : Apart v) (hc : Selected v c) (hmax : smallest < kMaxSequenceNumber)
    (hs : SortedEntries (mergedInputs T c)) : (keptEntries T c smallest).Sublist (mergedInputs T c) ∧ ∀ e, e ∈ keptEntries T c smallest ↔
      ∃ x y, mergedInputs T c = x ++ e :: y ∧ ¬Dropped (BaseLevel v c.level) smallest x.getLast? e := by
  have hstart : Remembers v (none : Option (Entry K V)) DropState.start :=
    ⟨rfl, fun _ hd => (by cases hd), fun _ hd => (by cases hd), fun _ u lvl f hf => by
      cases hf⟩
  obtain ⟨h1, h2⟩ := mem_keptFrom hok hdisj hc hmax (mergedInputs T c) hs hstart fun _ hd => (by cases hd)
  refine ⟨h1, fun e => (h2 e).trans ?_⟩
  simp only [or_none]

end KVStores.LevelDb
