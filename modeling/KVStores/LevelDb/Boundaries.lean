import KVStores.LevelDb.Installed

/-!
# Compactions of layered versions

The files of a level that a compaction leaves out stay above its outputs. In level 0 they have no user key
in common with the inputs, as what overlaps is taken together; of a deeper level only the picked files
are taken, also when a user key goes on in the next file.

* `installed_layered`: **the new version is layered exactly when no user key is torn apart at a boundary of the
  inputs**; then `Version::Get` answers with the newest entry.
-/

namespace KVStores.LevelDb

open List

variable {K V : Type} [LinearOrder K]

/-- At the boundaries of the inputs of a deeper level no user key is torn apart: the file behind an input begins with another user key, and
what the file in front of an input ends with is another user key, or newer by its sequence number. -/
def BoundaryClear (v : Version K) (c : Compaction K) : Prop :=
  c.level = 0 ∨ ∀ f ∈ v c.level, f ∉ c.inputs0 → ∀ h ∈ c.inputs0,
    (h.largest < f.smallest → h.largest.userKey ≠ f.smallest.userKey) ∧
    (f.largest < h.smallest → f.largest.userKey = h.smallest.userKey → h.smallest.sequence < f.largest.sequence)

variable {T T' : Tables K V} {v : Version K} {c : Compaction K} {outputs : List (FileMetaData K)} {f h : FileMetaData K} {e : Entry K V} {u : K}
  {s : ℕ} {entries : List (Entry K V)}

theorem BoundaryClear.newer (hok : VersionOk T v) (hlay : Layered T v) (hc : Selected v c) (hclear : BoundaryClear v c)
    (hf : f ∈ v c.level) (hout : f ∉ c.inputs0) (hh : h ∈ c.inputs0) : Newer (T f.number) (T h.number) := by
  have hhv := hc.inputsOf.inputs0 h hh
  intro e he d hd hu
  have he1 := InternalKey.userKey_le ((hok.tables _ f hf).smallest_le he)
  have he2 := InternalKey.userKey_le ((hok.tables _ f hf).le_largest he)
  have hd1 := InternalKey.userKey_le ((hok.tables _ h hhv).smallest_le hd)
  have hd2 := InternalKey.userKey_le ((hok.tables _ h hhv).le_largest hd)
  rcases Nat.eq_zero_or_pos c.level with h0 | hlevel
  · -- in level 0 they have no user key in common
    rcases hc.closed h0 f (h0 ▸ hf) hout h hh with hlt | hlt
    · exact absurd hu (ne_of_lt (lt_of_le_of_lt he2 (lt_of_lt_of_le hlt hd1)))
    · exact absurd hu.symm (ne_of_lt (lt_of_le_of_lt hd2 (lt_of_lt_of_le hlt he1)))
  · obtain ⟨hbehind, hfront⟩ := hclear.resolve_left (Nat.ne_of_gt hlevel) f hf hout h hh
    have hne : f ≠ h := by
      rintro rfl
      exact hout hh
    rcases hlay.disjoint.or hlevel hf hhv hne with hlt | hlt
    · -- the file is in front of the input
      have hle := InternalKey.userKey_le (le_of_lt hlt)
      have hfk : e.key.userKey = f.largest.userKey := le_antisymm he2 (le_trans hle (le_trans hd1 (le_of_eq hu.symm)))
      have hhk : h.smallest.userKey = d.key.userKey := le_antisymm hd1 (le_trans (le_of_eq (hu.symm.trans hfk)) hle)
      have hlast := hfront hlt (by rw [← hfk, hu, hhk])
      have hd3 := InternalKey.sequence_le (InternalKey.tag_le ((hok.tables _ h hhv).smallest_le hd) hhk)
      have he3 := InternalKey.sequence_le (InternalKey.tag_le ((hok.tables _ f hf).le_largest he) hfk)
      omega
    · -- the file is behind the input, and begins with another user key
      have hle := InternalKey.userKey_le (le_of_lt hlt)
      exact absurd (le_antisymm hle (le_trans he1 (le_trans (le_of_eq hu) hd2))) (hbehind hlt)

theorem installed_disjoint (hok : VersionOk T v) (hlay : Layered T v) (hc : Selected v c) (hsub : ∀ e ∈ entries, e ∈ mergedInputs T c)
    (hs : SortedEntries entries) (hout : Outputs T T' v c outputs entries) : Apart (installed v c outputs) := by
  have htable : ∀ o ∈ outputs, TableOk T' o := fun o ho => hout.tableOk hs ho
  refine installed_apart hok.files hlay.disjoint hc.inputsOf hout.numbers (fun o ho => (htable o ho).smallest_le_largest) (hout.apart hs) ?_
  intro f hr o ho
  rcases hc.outside hok.files hlay.disjoint hr with hbefore | hbehind
  · left
    obtain ⟨a, ha, hak⟩ := (htable o ho).exists_smallest
    obtain ⟨h, hh, ha⟩ := hout.origin hsub ho ha
    obtain ⟨level, -, -, hv⟩ := hc.inputsOf.mem hh
    exact hak ▸ lt_of_lt_of_le (hbefore h hh) ((hok.tables level h hv).smallest_le ha)
  · right
    obtain ⟨a, ha, hak⟩ := (htable o ho).exists_largest
    obtain ⟨h, hh, ha⟩ := hout.origin hsub ho ha
    obtain ⟨level, -, -, hv⟩ := hc.inputsOf.mem hh
    exact hak ▸ lt_of_le_of_lt ((hok.tables level h hv).le_largest ha) (hbehind h hh)

/-- Outputs of some of the entries go under what stays of the level, where that is newer than the inputs. -/
theorem layered_of_newer (hok : VersionOk T v) (hlay : Layered T v) (hc : Selected v c)
    (hnewer : ∀ f, Remains v c c.level f → ∀ h ∈ c.inputs0, Newer (T f.number) (T h.number)) (hsub : ∀ e ∈ entries, e ∈ mergedInputs T c)
    (hs : SortedEntries entries) (hout : Outputs T T' v c outputs entries) : Layered T' (installed v c outputs) := by
  have hmem := fun level => (mem_installed hok.files hlay.disjoint hc.inputsOf hout.numbers level).2
  refine ⟨installed_disjoint hok hlay hc hsub hs hout, fun level level' hlt f hf g hg => ?_, fun f hf g hg hn => ?_⟩
  · rcases (hmem level f).1 hf with ⟨hl, ho⟩ | hr <;> rcases (hmem level' g).1 hg with ⟨hl', ho'⟩ | hr'
    · omega
    · -- what is in an output was above the deeper levels before
      rw [hr'.table_eq hout]
      intro e he d hd hu
      obtain ⟨h, hh, he⟩ := hout.origin hsub ho he
      obtain ⟨l, -, hl2, hv⟩ := hc.inputsOf.mem hh
      exact hlay.newer l level' (by omega) h hv g hr'.1 e he d hd hu
    · rw [hr.table_eq hout]
      intro e he d hd hu
      obtain ⟨h, hh, hd⟩ := hout.origin hsub ho' hd
      rcases hh with hh | hh
      · rcases Nat.lt_or_ge level c.level with hl | hl
        · exact hlay.newer level c.level hl f hr.1 h (hc.inputsOf.inputs0 h hh) e he d hd hu
        · obtain rfl : level = c.level := by omega
          exact hnewer f hr h hh e he d hd hu
      · exact hlay.newer level (c.level + 1) (by omega) f hr.1 h (hc.inputsOf.inputs1 h hh) e he d hd hu
    · rw [hr.table_eq hout, hr'.table_eq hout]
      exact hlay.newer level level' hlt f hr.1 g hr'.1
  · have hstay : ∀ {f}, f ∈ installed v c outputs 0 → Remains v c 0 f := fun hf =>
      ((hmem 0 _).1 hf).resolve_left fun h => absurd h.1 (Nat.succ_ne_zero _).symm
    rw [(hstay hf).table_eq hout, (hstay hg).table_eq hout]
    exact hlay.level0 f (hstay hf).1 g (hstay hg).1 hn

theorem BoundaryClear.layered (hok : VersionOk T v) (hlay : Layered T v) (hc : Selected v c) (hclear : BoundaryClear v c)
    (hout : Outputs T T' v c outputs (mergedInputs T c)) : Layered T' (installed v c outputs) :=
  layered_of_newer hok hlay hc (fun _ hr _ hh => hclear.newer hok hlay hc hr.1 (fun hf => hr.2.1 ⟨rfl, hf⟩) hh) (fun _ => id)
    (mergedInputs_sorted hok hlay hc) hout

theorem Layered.boundaryClear (hok : VersionOk T v) (hlay : Layered T v) (hc : Selected v c)
    (hout : Outputs T T' v c outputs (mergedInputs T c)) (hnew : Layered T' (installed v c outputs)) : BoundaryClear v c := by
  have hmem := fun level => (mem_installed hok.files hlay.disjoint hc.inputsOf hout.numbers level).2
  rcases Nat.eq_zero_or_pos c.level with h0 | hlevel
  · exact Or.inl h0
  · right
    intro f hf hleft h hh
    have hr : Remains v c c.level f := ⟨hf, fun hf' => hleft hf'.2, fun hf' => absurd hf'.1 (Nat.succ_ne_self _).symm⟩
    -- what stays is newer than what goes down
    have hnewer : Newer (T f.number) (T h.number) := by
      intro e he d hd hu
      have hd' : d ∈ outputs.flatMap fun o => T' o.number := by
        rw [hout.entries]
        exact mem_mergedInputs.2 ⟨h, Or.inl hh, hd⟩
      obtain ⟨o, ho, hd'⟩ := mem_flatMap.1 hd'
      refine hnew.newer c.level (c.level + 1) (Nat.lt_succ_self _) f ((hmem _ f).2 (Or.inr hr)) o ((hmem _ o).2 (Or.inl ⟨rfl, ho⟩)) e ?_ d hd' hu
      rw [hr.table_eq hout]
      exact he
    have htable := hok.tables _ h (hc.inputsOf.inputs0 h hh)
    constructor
    · intro hlt hu
      obtain ⟨e, he, hek⟩ := (hok.tables _ f hf).exists_smallest
      obtain ⟨d, hd, hdk⟩ := htable.exists_largest
      rw [← hek, ← hdk] at hu hlt
      exact absurd (hnewer e he d hd hu.symm) (not_lt.2 (InternalKey.sequence_le (le_of_lt (InternalKey.tag_lt_of_lt hlt hu))))
    · intro hlt hu
      obtain ⟨e, he, hek⟩ := (hok.tables _ f hf).exists_largest
      obtain ⟨d, hd, hdk⟩ := htable.exists_smallest
      rw [← hek, ← hdk] at hu ⊢
      exact hnewer e he d hd hu

theorem installed_layered (hok : VersionOk T v) (hlay : Layered T v) (hc : Chosen v c) (hout : Outputs T T' v c outputs (mergedInputs T c)) :
    (Layered T' (installed v c outputs) ↔ BoundaryClear v c) ∧ (BoundaryClear v c → (∀ e, Holds T v e → e.key.type? ≠ none) →
      ∀ u s e, IsNewest (Holds T v) u s e → versionGet T' (installed v c outputs) u s = e.result) := by
  have hc := hc.selected
  have hs := mergedInputs_sorted hok hlay hc
  refine ⟨⟨fun hnew => hlay.boundaryClear hok hc hout hnew, fun hclear => hclear.layered hok hlay hc hout⟩, fun hclear ht u s e he => ?_⟩
  have hholds : ∀ e, Holds T' (installed v c outputs) e ↔ Holds T v e := fun e => by
    rw [holds_installed_iff hok hlay.disjoint hc.inputsOf hout, holds_iff hc.inputsOf]
  refine versionGet_found (hout.ok hok hlay.disjoint hc.inputsOf hs) (hclear.layered hok hlay hc hout) (fun e he => ht e ((hholds e).1 he)) ?_
  exact ⟨(hholds e).2 he.mem, he.userKey, he.sequence, fun d hd => he.newest d ((hholds d).1 hd)⟩

def splitTables : Tables ℕ ℕ := fun n =>
  if n = 1 then [⟨.pack 1 7 .value, 17⟩, ⟨.pack 2 10 .value, 210⟩]
  else if n = 2 then [⟨.pack 2 5 .value, 25⟩, ⟨.pack 3 6 .value, 36⟩]
  else if n = 8 then [⟨.pack 1 7 .value, 17⟩, ⟨.pack 2 10 .value, 210⟩]
  else if n = 9 then [⟨.pack 1 7 .value, 17⟩, ⟨.pack 2 10 .value, 210⟩, ⟨.pack 2 5 .value, 25⟩, ⟨.pack 3 6 .value, 36⟩]
  else []

def splitFile1 : FileMetaData ℕ := ⟨1, 100, .pack 1 7 .value, .pack 2 10 .value⟩

def splitFile2 : FileMetaData ℕ := ⟨2, 100, .pack 2 5 .value, .pack 3 6 .value⟩

def splitVersion : Version ℕ := twoFiles splitFile1 splitFile2

def splitCompaction (inputs : List (FileMetaData ℕ)) (largest : InternalKey ℕ) : Compaction ℕ :=
  { level := 1
    inputVersion := splitVersion
    inputs0 := inputs
    inputs1 := []
    grandparents := []
    edit := { (VersionEdit.clear : VersionEdit ℕ) with compactPointers := [(1, largest)] } }

theorem splitVersion_ok : VersionOk splitTables splitVersion :=
  twoFiles_ok ⟨by unfold SortedEntries; decide, rfl, rfl⟩ ⟨by unfold SortedEntries; decide, rfl, rfl⟩ (by decide)

theorem splitVersion_layered : Layered splitTables splitVersion := twoFiles_layered (by decide)

theorem splitOutputs {c : Compaction ℕ} {o : FileMetaData ℕ} {entries : List (Entry ℕ ℕ)} (ho : o.number = 8 ∨ o.number = 9)
    (hs : (splitTables o.number).head?.map Entry.key = some o.smallest) (hl : (splitTables o.number).getLast?.map Entry.key = some o.largest)
    (he : splitTables o.number = entries) : Outputs splitTables splitTables splitVersion c [o] entries := by
  refine ⟨⟨nodup_singleton _, fun o' ho' level f hf hn => ?_⟩, fun _ _ _ _ => rfl, fun o' ho' => ?_, fun o' ho' => ?_, ?_⟩
  · rw [mem_singleton.1 ho'] at hn
    rcases (mem_twoFiles.1 hf).2 with rfl | rfl <;> rcases ho with ho | ho <;> exact absurd (hn.trans ho) (by decide)
  · rw [mem_singleton.1 ho']
    exact hs
  · rw [mem_singleton.1 ho']
    exact hl
  · rw [flatMap_singleton, he]

theorem installed_layered_both :
    Layered splitTables (installed splitVersion (splitCompaction [splitFile1, splitFile2] (.pack 3 6 .value)) [⟨9, 190, .pack 1 7 .value, .pack 3 6 .value⟩]) := by
  have hc : Chosen splitVersion (splitCompaction [splitFile1, splitFile2] (.pack 3 6 .value)) :=
    Chosen.range 1 none (some (.pack 2 0 .deletion)) _ (by decide) rfl
  refine (installed_layered splitVersion_ok splitVersion_layered hc (splitOutputs (Or.inr rfl) rfl rfl (by decide))).1.2 ?_
  right
  intro f hf hout
  exact absurd ((mem_twoFiles.1 hf).2.elim (fun h => h ▸ mem_cons_self) fun h => h ▸ mem_cons_of_mem _ mem_cons_self) hout

/-- **A compaction of the first of two files that share a user key hides the newer entry behind the older one.** -/
theorem installed_stale : ∃ c outputs, Chosen splitVersion c ∧ VersionOk splitTables splitVersion ∧ Layered splitTables splitVersion ∧
    Outputs splitTables splitTables splitVersion c outputs (mergedInputs splitTables c) ∧ ¬Layered splitTables (installed splitVersion c outputs) ∧
    versionGet splitTables splitVersion 2 100 = .found 210 ∧ versionGet splitTables (installed splitVersion c outputs) 2 100 = .found 25 := by
  refine ⟨splitCompaction [splitFile1] (.pack 2 10 .value), [⟨8, 100, .pack 1 7 .value, .pack 2 10 .value⟩],
    Chosen.range 1 none (some (.pack 1 0 .deletion)) _ (by decide) rfl, splitVersion_ok, splitVersion_layered,
    splitOutputs (Or.inl rfl) rfl rfl (by decide), fun h => ?_, by decide, by decide⟩
  have hnewer := h.newer 1 2 (by decide) splitFile2 (by decide) ⟨8, 100, .pack 1 7 .value, .pack 2 10 .value⟩ (by decide)
    ⟨.pack 2 5 .value, 25⟩ (by decide) ⟨.pack 2 10 .value, 210⟩ (by decide) rfl
  exact absurd hnewer (by decide)

end KVStores.LevelDb
