import KVStores.LevelDb.Drop

/-!
# What a compaction leaves of the values

The value of a user key at a sequence number is that of its newest entry up to there. A deletion marker that
is dropped must not have hidden an older value that stays.

* `values_iff`: **the values from the oldest snapshot on are the same exactly when no such value comes back**.
* `compaction_values`: so it is for the version behind a compaction. The values that can come back are those
  of files that the compaction left out, and those that come right behind a corrupt key of the same user key.
-/

namespace KVStores.LevelDb

open List Option

variable {K V : Type} [LinearOrder K]

/-- The value of a user key at a sequence number. -/
def HasValue (P : Entry K V → Prop) (u : K) (s : ℕ) (w : V) : Prop :=
  ∃ e, IsNewest (fun d => P d ∧ d.key.type? ≠ none) u s e ∧ e.key.type? = some .value ∧ e.value = w

/-- What stays for certain: the entries that are no inputs, and of the inputs a value right behind a corrupt key of the same user
key, as the loop forgets there what came before. -/
def Survivor (inputs : List (Entry K V)) (rest : Entry K V → Prop) (e : Entry K V) : Prop :=
  rest e ∨ e.key.type? = some .value ∧
    ∃ x d y, inputs = x ++ d :: e :: y ∧ d.key.type? = none ∧ d.key.userKey = e.key.userKey

/-- No value comes back: where the newest entry of a user key for the oldest snapshot is an obsolete deletion marker of the inputs, the
newest entry that stays is not a value. -/
def NotResurrected (inputs : List (Entry K V)) (rest : Entry K V → Prop) (base : K → Prop) (smallest : ℕ) : Prop :=
  ∀ x ∈ inputs, Obsolete base smallest x → IsNewest (fun d => (d ∈ inputs ∨ rest d) ∧ d.key.type? ≠ none) x.key.userKey smallest x →
    ∀ y, IsNewest (fun d => Survivor inputs rest d ∧ d.key.type? ≠ none) x.key.userKey smallest y → y.key.type? ≠ some .value

variable {P : Entry K V → Prop} {u : K} {s smallest : ℕ} {e x y : Entry K V} {inputs : List (Entry K V)} {kept : Entry K V → Prop}
  {rest : Entry K V → Prop} {base : K → Prop}

omit [LinearOrder K] in
theorem exists_newest (he : P e) (hu : e.key.userKey = u) (hs : e.key.sequence ≤ s) : ∃ x, IsNewest P u s x := by
  have hbound : ∀ d : Entry K V, d.key.sequence ≤ s → d.key.tag < 256 * (s + 1) := by
    intro d hd
    unfold InternalKey.sequence at hd
    omega
  have hall : ∀ (n : ℕ) (e : Entry K V), P e → e.key.userKey = u → e.key.sequence ≤ s → 256 * (s + 1) - e.key.tag ≤ n → ∃ x, IsNewest P u s x := by
    intro n
    induction n with
    | zero =>
      intro e _ _ hs hn
      have := hbound e hs
      omega
    | succ n ih =>
      intro e he hu hs hn
      by_cases hnewer : ∃ d, P d ∧ d.key.userKey = u ∧ d.key.sequence ≤ s ∧ e.key.tag < d.key.tag
      · obtain ⟨d, hd, hdu, hds, hlt⟩ := hnewer
        exact ih d hd hdu hds (by omega)
      · refine ⟨e, he, hu, hs, fun d hd hdu hds => not_lt.1 fun hlt => hnewer ⟨d, hd, hdu, hds, hlt⟩⟩
  exact hall _ e he hu hs (le_refl _)

omit [LinearOrder K] in
theorem type?_eq_of_tag (h : e.key.tag = x.key.tag) : e.key.type? = x.key.type? := by
  unfold InternalKey.type?
  rw [h]

section kept

variable (hs : SortedEntries inputs)
  (hkept : ∀ e, kept e ↔ ∃ x y, inputs = x ++ e :: y ∧ ¬Dropped base smallest x.getLast? e)
include hkept

omit [LinearOrder K] in
theorem kept_sub (he : kept e) : e ∈ inputs := by
  obtain ⟨x, y, h, -⟩ := (hkept e).1 he
  rw [h]
  exact mem_append_right _ mem_cons_self

omit [LinearOrder K] in
theorem not_kept_obsolete (hx : Obsolete base smallest x) : ¬kept x := by
  intro hk
  obtain ⟨a, b, -, hd⟩ := (hkept x).1 hk
  exact hd ⟨by rw [hx.1]; exact some_ne_none _, Or.inr hx⟩

omit [LinearOrder K] in
theorem Survivor.kept_or_rest (he : Survivor inputs rest e) : kept e ∨ rest e := by
  rcases he with he | ⟨hv, a, d, b, hab, hd, -⟩
  · exact Or.inr he
  · refine Or.inl ((hkept e).2 ⟨a ++ [d], b, by rw [hab, append_assoc, singleton_append], ?_⟩)
    rw [List.getLast?_concat]
    rintro ⟨-, ⟨d', hd', ht, -⟩ | ⟨hdel, -⟩⟩
    · obtain rfl := Option.some.inj hd'
      exact ht hd
    · rw [hv] at hdel
      cases hdel

include hs

theorem newest_kept (hle : smallest ≤ s) (hx : x ∈ inputs) (hno : ¬Obsolete base smallest x)
    (hnew : IsNewest (fun d => (d ∈ inputs ∨ rest d) ∧ d.key.type? ≠ none) u s x) : kept x := by
  obtain ⟨a, b, hab⟩ := append_of_mem hx
  refine (hkept x).2 ⟨a, b, hab, ?_⟩
  rintro ⟨-, ⟨d, hd, ht, hu, hds⟩ | hobs⟩
  · -- the entry before would be newer
    have hda : d ∈ a := mem_of_getLast? hd
    rw [hab] at hs
    have hlt := (pairwise_append.1 hs).2.2 d hda x mem_cons_self
    have hmem : d ∈ inputs := by rw [hab]; exact mem_append_left _ hda
    have htag := hnew.newest d ⟨Or.inl hmem, ht⟩ (hu.trans hnew.userKey) (le_trans hds hle)
    exact absurd (InternalKey.tag_lt_of_lt hlt hu) (not_lt.2 htag)
  · exact hno hobs

/-- What is kept behind an obsolete deletion marker of the same user key is a value behind a corrupt key. -/
theorem kept_survivor (hx : x ∈ inputs) (hobs : Obsolete base smallest x) (he : kept e) (ht : e.key.type? ≠ none)
    (hu : e.key.userKey = x.key.userKey) (htag : e.key.tag < x.key.tag) : Survivor inputs rest e := by
  obtain ⟨a, b, hab, hd⟩ := (hkept e).1 he
  have hlt : x.key < e.key := InternalKey.lt_iff.2 (Or.inr ⟨hu.symm, htag⟩)
  rw [hab] at hs hx
  obtain ⟨ha, hb, hcross⟩ := pairwise_append.1 hs
  -- the marker comes before the entry
  have hxa : x ∈ a := by
    rcases mem_append.1 hx with hx | hx
    · exact hx
    · rcases mem_cons.1 hx with rfl | hx
      · exact absurd hlt (lt_irrefl _)
      · exact absurd hlt (lt_asymm ((pairwise_cons.1 hb).1 x hx))
  rcases eq_nil_or_concat a with rfl | ⟨a', d, rfl⟩
  · cases hxa
  · rw [concat_eq_append] at *
    rw [List.getLast?_concat] at hd
    -- and so the entry right before it is of the same user key
    have hxd : x.key ≤ d.key := by
      rcases mem_append.1 hxa with hx | hx
      · exact le_of_lt ((pairwise_append.1 ha).2.2 x hx d (mem_singleton_self d))
      · rw [mem_singleton.1 hx]
    have hde := hcross d (mem_append_right _ (mem_singleton_self d)) e mem_cons_self
    have hud : d.key.userKey = e.key.userKey :=
      le_antisymm (InternalKey.userKey_le (le_of_lt hde)) (hu ▸ InternalKey.userKey_le hxd)
    have hseq : d.key.sequence ≤ smallest :=
      le_trans (InternalKey.sequence_le (InternalKey.tag_le hxd (by rw [hud, hu]))) hobs.2.1
    have hcorrupt : d.key.type? = none := by
      by_contra hc
      exact hd ⟨ht, Or.inl ⟨d, rfl, hc, hud, hseq⟩⟩
    refine Or.inr ⟨?_, a', d, b, by rw [hab, append_assoc, singleton_append], hcorrupt, hud⟩
    cases htype : e.key.type? with
    | none => exact absurd htype ht
    | some t =>
      cases t with
      | value => rfl
      | deletion =>
        have hes := le_trans (InternalKey.sequence_le (le_of_lt htag)) hobs.2.1
        exact absurd ⟨ht, Or.inr ⟨htype, hes, hu ▸ hobs.2.2⟩⟩ hd

theorem values_iff :
    (∀ u s, smallest ≤ s → ∀ w, HasValue (fun d => d ∈ inputs ∨ rest d) u s w ↔ HasValue (fun d => kept d ∨ rest d) u s w) ↔
    NotResurrected inputs rest base smallest := by
  have hsub : ∀ {d}, (kept d ∨ rest d) → d ∈ inputs ∨ rest d := fun h => h.imp_left (kept_sub hkept)
  constructor
  · -- a value that came back would be one of the same snapshot
    intro hsame x hx hobs hxnew y hy hvalue
    have hafter : IsNewest (fun d => (kept d ∨ rest d) ∧ d.key.type? ≠ none) x.key.userKey smallest y := by
      refine ⟨⟨hy.mem.1.kept_or_rest hkept, hy.mem.2⟩, hy.userKey, hy.sequence, fun d hd hu hds => ?_⟩
      rcases hd.1 with hk | hr
      · have hmem := kept_sub hkept hk
        have hle := hxnew.newest d ⟨Or.inl hmem, hd.2⟩ hu hds
        rcases lt_or_eq_of_le hle with hlt | heq
        · exact hy.newest d ⟨kept_survivor hs hkept hx hobs hk hd.2 hu hlt, hd.2⟩ hu hds
        · -- it would be the marker itself
          have : Obsolete base smallest d := ⟨(type?_eq_of_tag heq).trans hobs.1, hds, hu ▸ hobs.2.2⟩
          exact absurd hk (not_kept_obsolete hkept this)
      · exact hy.newest d ⟨Or.inl hr, hd.2⟩ hu hds
    obtain ⟨e, he, hev, -⟩ := (hsame _ smallest (le_refl _) _).2 ⟨y, hafter, hvalue, rfl⟩
    have h1 := he.newest x hxnew.mem rfl hxnew.sequence
    have h2 := hxnew.newest e he.mem he.userKey he.sequence
    have htype := type?_eq_of_tag (le_antisymm h2 h1)
    rw [hev, hobs.1] at htype
    cases htype
  · intro hno u s hle w
    constructor
    · rintro ⟨e, he, hv, hw⟩
      refine ⟨e, ⟨⟨?_, he.mem.2⟩, he.userKey, he.sequence, fun d hd => he.newest d ⟨hsub hd.1, hd.2⟩⟩, hv, hw⟩
      rcases he.mem.1 with hin | hr
      · refine Or.inl (newest_kept hs hkept hle hin (fun hobs => ?_) he)
        rw [hobs.1] at hv
        cases hv
      · exact Or.inr hr
    · rintro ⟨e, he, hv, hw⟩
      obtain ⟨x, hx⟩ := exists_newest (P := fun d => (d ∈ inputs ∨ rest d) ∧ d.key.type? ≠ none) (e := e) ⟨hsub he.mem.1, he.mem.2⟩ he.userKey
        he.sequence
      rcases lt_or_eq_of_le (hx.newest e ⟨hsub he.mem.1, he.mem.2⟩ he.userKey he.sequence) with hlt | heq
      · -- the newest entry before was dropped: it is an obsolete marker
        have hgone : ¬(kept x ∨ rest x) := fun hstay => not_lt.2 (he.newest x ⟨hstay, hx.mem.2⟩ hx.userKey hx.sequence) hlt
        rw [not_or] at hgone
        have hin := hx.mem.1.resolve_right hgone.2
        have hobs : Obsolete base smallest x := by
          by_contra hc
          exact hgone.1 (newest_kept hs hkept hle hin hc hx)
        have hux := hx.userKey
        have hxs : IsNewest (fun d => (d ∈ inputs ∨ rest d) ∧ d.key.type? ≠ none) x.key.userKey smallest x :=
          ⟨hx.mem, rfl, hobs.2.1, fun d hd hu hds => hx.newest d hd (hu.trans hux) (le_trans hds hle)⟩
        have hes := le_trans (InternalKey.sequence_le (le_of_lt hlt)) hobs.2.1
        have hue : e.key.userKey = x.key.userKey := he.userKey.trans hux.symm
        refine absurd hv (hno x hin hobs hxs e ⟨⟨?_, he.mem.2⟩, hue, hes, fun d hd hu hds => ?_⟩)
        · rcases he.mem.1 with hk | hr
          · exact kept_survivor hs hkept hin hobs hk he.mem.2 hue hlt
          · exact Or.inl hr
        · exact he.newest d ⟨hd.1.kept_or_rest hkept, hd.2⟩ (hu.trans hux) (le_trans hds hle)
      · exact ⟨e, ⟨⟨hsub he.mem.1, he.mem.2⟩, he.userKey, he.sequence, fun d hd hu hds => heq ▸ hx.newest d hd hu hds⟩, hv, hw⟩

end kept

variable {T T' : Tables K V} {v : Version K} {c : Compaction K} {outputs : List (FileMetaData K)} {mem : List (Entry K V)} {snapshots : List ℕ}
  {lastSequence : ℕ}

/-- The entries that are no inputs: those of the memtables and of the files that stay. -/
def Untouched (T : Tables K V) (v : Version K) (c : Compaction K) (mem : List (Entry K V)) (e : Entry K V) : Prop :=
  e ∈ mem ∨ ∃ level f, Remains v c level f ∧ e ∈ T f.number

theorem compaction_values (hok : VersionOk T v) (hlay : Layered T v) (hc : Chosen v c)
    (hmax : smallestSnapshot snapshots lastSequence < kMaxSequenceNumber)
    (hout : Outputs T T' v c outputs (keptEntries T c (smallestSnapshot snapshots lastSequence))) :
    (∀ u s, smallestSnapshot snapshots lastSequence ≤ s → ∀ w,
      HasValue (fun e => e ∈ mem ∨ Holds T v e) u s w ↔ HasValue (fun e => e ∈ mem ∨ Holds T' (installed v c outputs) e) u s w) ↔
    NotResurrected (mergedInputs T c) (Untouched T v c mem) (BaseLevel v c.level) (smallestSnapshot snapshots lastSequence) := by
  have hc := hc.selected
  have hs := mergedInputs_sorted hok hlay hc
  obtain ⟨-, hkept⟩ := mem_keptEntries hok.files hlay.disjoint hc hmax hs
  rw [← values_iff hs hkept]
  have hbefore : (fun e => e ∈ mem ∨ Holds T v e) = fun e => e ∈ mergedInputs T c ∨ Untouched T v c mem e := by
    funext e
    rw [holds_iff hc.inputsOf]
    exact propext or_left_comm
  have hafter : (fun e => e ∈ mem ∨ Holds T' (installed v c outputs) e) =
      fun e => e ∈ keptEntries T c (smallestSnapshot snapshots lastSequence) ∨ Untouched T v c mem e := by
    funext e
    rw [holds_installed_iff hok hlay.disjoint hc.inputsOf hout]
    unfold Untouched
    exact propext or_left_comm
  rw [hbefore, hafter]

/-- **No value comes back when the user keys of the inputs are whole**: no key is corrupt, what stays of the two levels is newer than the
inputs of the same user key, and so are the memtables. -/
theorem notResurrected_of_whole {smallest : ℕ} (hok : VersionOk T v) (hlay : Layered T v) (hc : Selected v c)
    (ht : ∀ e ∈ mergedInputs T c, e.key.type? ≠ none) (hmem : ∀ e ∈ mergedInputs T c, Newer mem [e])
    (hwhole : ∀ level f, Remains v c level f → c.level ≤ level → level ≤ c.level + 1 → Newer (T f.number) (mergedInputs T c)) :
    NotResurrected (mergedInputs T c) (Untouched T v c mem) (BaseLevel v c.level) smallest := by
  intro x hx hobs hxnew y hy hvalue
  have hnotNewer : ¬x.key.sequence < y.key.sequence := by
    refine not_lt.2 (InternalKey.sequence_le (hxnew.newest y ⟨?_, hy.mem.2⟩ hy.userKey hy.sequence))
    rcases hy.mem.1 with hr | ⟨-, a, d, b, hab, -⟩
    · exact Or.inr hr
    · rw [hab]
      exact Or.inl (mem_append_right _ (mem_cons_of_mem _ mem_cons_self))
  rcases hy.mem.1 with (hm | ⟨level, f, hr, hyf⟩) | ⟨-, a, d, b, hab, hd, -⟩
  · exact hnotNewer (hmem x hx y hm x (mem_singleton_self x) hy.userKey)
  · obtain ⟨h, hh, hxh⟩ := mem_mergedInputs.1 hx
    obtain ⟨l, hl1, hl2, hhv⟩ := hc.inputsOf.mem hh
    rcases Nat.lt_or_ge level c.level with hlow | hge
    · exact hnotNewer (hlay.newer level l (by omega) f hr.1 h hhv y hyf x hxh hy.userKey)
    · rcases Nat.lt_or_ge (c.level + 1) level with hdeep | hle
      · -- no deeper level has the user key
        have htable := hok.tables level f hr.1
        refine hobs.2.2 level hdeep f hr.1 ⟨?_, ?_⟩
        · exact hy.userKey ▸ InternalKey.userKey_le (htable.smallest_le hyf)
        · exact hy.userKey ▸ InternalKey.userKey_le (htable.le_largest hyf)
      · exact hnotNewer (hwhole level f hr hge hle y hyf x hx hy.userKey)
  · exact ht d (by rw [hab]; exact mem_append_right _ mem_cons_self) hd

/-- A table that ends with a deletion marker of the user key 2, the table that goes on with an older value of it, and what
compactions make of the first one and of both. -/
def markerTables : Tables ℕ ℕ := fun n =>
  if n = 1 then [⟨.pack 1 7 .value, 17⟩, ⟨.pack 2 10 .deletion, 0⟩]
  else if n = 2 then [⟨.pack 2 5 .value, 25⟩, ⟨.pack 3 6 .value, 36⟩]
  else if n = 8 then [⟨.pack 1 7 .value, 17⟩]
  else if n = 9 then [⟨.pack 1 7 .value, 17⟩, ⟨.pack 3 6 .value, 36⟩]
  else []

def markerFile1 : FileMetaData ℕ := ⟨1, 100, .pack 1 7 .value, .pack 2 10 .deletion⟩

def markerFile2 : FileMetaData ℕ := ⟨2, 100, .pack 2 5 .value, .pack 3 6 .value⟩

def markerVersion : Version ℕ := twoFiles markerFile1 markerFile2

def markerCompaction (inputs : List (FileMetaData ℕ)) (largest : InternalKey ℕ) : Compaction ℕ :=
  { level := 1
    inputVersion := markerVersion
    inputs0 := inputs
    inputs1 := []
    grandparents := []
    edit := { (VersionEdit.clear : VersionEdit ℕ) with compactPointers := [(1, largest)] } }

theorem markerVersion_ok : VersionOk markerTables markerVersion ∧ Layered markerTables markerVersion :=
  ⟨twoFiles_ok ⟨by unfold SortedEntries; decide, rfl, rfl⟩ ⟨by unfold SortedEntries; decide, rfl, rfl⟩ (by decide),
    twoFiles_layered (by decide)⟩

theorem markerOutputs {c : Compaction ℕ} {o : FileMetaData ℕ} {entries : List (Entry ℕ ℕ)} (ho : o.number = 8 ∨ o.number = 9)
    (hs : (markerTables o.number).head?.map Entry.key = some o.smallest)
    (hl : (markerTables o.number).getLast?.map Entry.key = some o.largest) (he : markerTables o.number = entries) :
    Outputs markerTables markerTables markerVersion c [o] entries := by
  refine ⟨⟨nodup_singleton _, fun o' ho' level f hf hn => ?_⟩, fun _ _ _ _ => rfl, fun o' ho' => ?_, fun o' ho' => ?_, ?_⟩
  · rw [mem_singleton.1 ho'] at hn
    rcases (mem_twoFiles.1 hf).2 with rfl | rfl <;> rcases ho with ho | ho <;> exact absurd (hn.trans ho) (by decide)
  · rw [mem_singleton.1 ho']
    exact hs
  · rw [mem_singleton.1 ho']
    exact hl
  · rw [flatMap_singleton, he]

theorem compaction_values_both :
    keptEntries markerTables (markerCompaction [markerFile1, markerFile2] (.pack 3 6 .value)) (smallestSnapshot [] 20) = markerTables 9 ∧
    ∀ u s, smallestSnapshot [] 20 ≤ s → ∀ w, HasValue (fun e => e ∈ [] ∨ Holds markerTables markerVersion e) u s w ↔
      HasValue (fun e => e ∈ [] ∨ Holds markerTables
        (installed markerVersion (markerCompaction [markerFile1, markerFile2] (.pack 3 6 .value)) [⟨9, 190, .pack 1 7 .value, .pack 3 6 .value⟩]) e) u s w := by
  obtain ⟨hok, hlay⟩ := markerVersion_ok
  have hc : Chosen markerVersion (markerCompaction [markerFile1, markerFile2] (.pack 3 6 .value)) :=
    Chosen.range 1 none none _ (by decide) rfl
  have hkept : keptEntries markerTables (markerCompaction [markerFile1, markerFile2] (.pack 3 6 .value)) (smallestSnapshot [] 20) = markerTables 9 := by
    decide
  refine ⟨hkept, (compaction_values hok hlay hc (by decide) (markerOutputs (Or.inr rfl) rfl rfl hkept.symm)).2 ?_⟩
  refine notResurrected_of_whole hok hlay hc.selected (by decide) (fun e _ d hd => (not_mem_nil hd).elim) fun level f hr => ?_
  rcases mem_twoFiles.1 hr.1 with ⟨hl, rfl | rfl⟩
  · exact absurd ⟨hl, mem_cons_self⟩ hr.2.1
  · exact absurd ⟨hl, mem_cons_of_mem _ mem_cons_self⟩ hr.2.1

/-- **A compaction of the first of two files that share a user key drops its deletion marker, and the older value comes back.** -/
theorem compaction_resurrects : ∃ c outputs, Chosen markerVersion c ∧ VersionOk markerTables markerVersion ∧ Layered markerTables markerVersion ∧
    Outputs markerTables markerTables markerVersion c outputs (keptEntries markerTables c (smallestSnapshot [] 20)) ∧
    ¬HasValue (fun e => e ∈ [] ∨ Holds markerTables markerVersion e) 2 20 25 ∧
    HasValue (fun e => e ∈ [] ∨ Holds markerTables (installed markerVersion c outputs) e) 2 20 25 := by
  obtain ⟨hok, hlay⟩ := markerVersion_ok
  have hc : Chosen markerVersion (markerCompaction [markerFile1] (.pack 2 10 .deletion)) :=
    Chosen.range 1 none (some (.pack 1 0 .deletion)) _ (by decide) rfl
  have hout := markerOutputs (c := markerCompaction [markerFile1] (.pack 2 10 .deletion))
    (o := ⟨8, 50, .pack 1 7 .value, .pack 1 7 .value⟩) (Or.inl rfl) rfl rfl
    (show markerTables 8 = keptEntries markerTables (markerCompaction [markerFile1] (.pack 2 10 .deletion)) (smallestSnapshot [] 20) by decide)
  refine ⟨_, _, hc, hok, hlay, hout, ?_, ?_⟩
  · -- the marker is newer than the value
    rintro ⟨e, he, ht, -⟩
    have hmarker : Holds markerTables markerVersion ⟨.pack 2 10 .deletion, 0⟩ :=
      ⟨1, markerFile1, mem_twoFiles.2 ⟨rfl, Or.inl rfl⟩, by decide⟩
    have hle := he.newest ⟨.pack 2 10 .deletion, 0⟩ ⟨Or.inr hmarker, by decide⟩ rfl (by decide)
    obtain ⟨level, f, hf, hmem⟩ := he.mem.1.resolve_left not_mem_nil
    have hnone : ∀ f ∈ [markerFile1, markerFile2], ∀ e ∈ markerTables f.number, e.key.userKey = 2 → e.key.type? = some .value →
        ¬(InternalKey.pack 2 10 .deletion : InternalKey ℕ).tag ≤ e.key.tag := by decide
    refine hnone f ?_ e hmem he.userKey ht hle
    rcases (mem_twoFiles.1 hf).2 with rfl | rfl
    · exact mem_cons_self
    · exact mem_cons_of_mem _ mem_cons_self
  · refine ⟨⟨.pack 2 5 .value, 25⟩, ⟨⟨Or.inr ?_, by decide⟩, rfl, by decide, fun d hd hu _ => ?_⟩, rfl, rfl⟩
    · exact ⟨1, markerFile2, by decide, by decide⟩
    · have hd := hd.1.resolve_left not_mem_nil
      rw [holds_installed_iff hok hlay.disjoint hc.selected.inputsOf hout] at hd
      rcases hd with hd | ⟨level, f, hr, hd⟩
      · have hnone : ∀ e ∈ keptEntries markerTables (markerCompaction [markerFile1] (.pack 2 10 .deletion)) (smallestSnapshot [] 20),
            e.key.userKey ≠ 2 := by decide
        exact absurd hu (hnone d hd)
      · rcases mem_twoFiles.1 hr.1 with ⟨hl, rfl | rfl⟩
        · exact absurd ⟨hl, mem_cons_self⟩ hr.2.1
        · have hle : ∀ e ∈ markerTables 2, e.key.userKey = 2 → e.key.tag ≤ (InternalKey.pack 2 5 .value : InternalKey ℕ).tag := by decide
          exact hle d hd hu

end KVStores.LevelDb
