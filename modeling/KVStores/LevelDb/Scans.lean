import KVStores.LevelDb.Boundaries
import KVStores.LevelDb.DbIterCursor
import KVStores.LevelDb.DropValues
import KVStores.LevelDb.Flush
import KVStores.LevelDb.Merger

/-!
# What is read of a database

The loop of a compaction over its inputs, and the reads of a database that goes on being written to, flushed and compacted.
-/

namespace KVStores.LevelDb

open List Option

variable {σ K V : Type} [LinearOrder K]

/-- The contents of the iterators that `MakeInputIterator` makes for the inputs of a level: of each file in level 0, of all of them
in a deeper one. -/
def inputLists (T : Tables K V) (level : ℕ) (files : List (FileMetaData K)) : List (List (Entry K V)) :=
  if files = [] then [] else if level = 0 then files.map fun f => T f.number else [files.flatMap fun f => T f.number]

def inputIterators (T : Tables K V) (c : Compaction K) : List (List (Entry K V)) :=
  inputLists T c.level c.inputs0 ++ inputLists T (c.level + 1) c.inputs1

/-- The loop of `DoCompactionWork` over its input: the entries that are not dropped; `none` when it has not ended. -/
@[grind =] def keepLoop (it : Iterator σ (Entry K V) (InternalKey K)) (c : Compaction K) (smallest : ℕ) :
    ℕ → DropState K → σ → Option (List (Entry K V))
  | 0, _, _ => none
  | fuel + 1, st, s =>
    if it.valid s = true then
      (it.current s).bind fun e =>
        let r := dropStep c smallest st e
        (keepLoop it c smallest fuel r.2 (it.call s .next)).map fun kept => if r.1 then kept else e :: kept
    else some []

variable {T : Tables K V} {v : Version K} {c : Compaction K} {level : ℕ} {files : List (FileMetaData K)}

theorem keepLoop_eq (it : Iterator σ (Entry K V) (InternalKey K)) (c : Compaction K) (smallest : ℕ) : ∀ (fuel : ℕ) (st : DropState K) (s : σ),
    keepLoop it c smallest fuel st s = (walk it.valid it.current (it.call · .next) fuel s).map (keptFrom c smallest st)
  | 0, _, _ => rfl
  | fuel + 1, st, s => by
    rw [keepLoop, walk]
    split
    · cases it.current s with
      | none => rfl
      | some e =>
        dsimp only [bind_some]
        rw [keepLoop_eq it c smallest fuel, Option.map_map, Option.map_map]
        rfl
    · rfl

omit [LinearOrder K] in
theorem inputLists_flatten : (inputLists T level files).flatten = files.flatMap fun f => T f.number := by
  unfold inputLists
  split_ifs with h h0
  · rw [h]
    rfl
  · rfl
  · exact flatten_singleton

theorem inputLists_sorted (hok : VersionOk T v) (hdisj : Apart v) (hsub : files.Sublist (v level)) :
    ∀ x ∈ inputLists T level files, Cursor.Sorted Entry.key x := by
  intro x hx
  unfold inputLists at hx
  split_ifs at hx with h h0
  · exact absurd hx not_mem_nil
  · obtain ⟨f, hf, rfl⟩ := mem_map.1 hx
    exact (hok.tables level f (hsub.subset hf)).sorted
  · obtain rfl := mem_singleton.1 hx
    refine pairwise_flatMap.2 ⟨fun f hf => (hok.tables level f (hsub.subset hf)).sorted, ?_⟩
    refine ((hdisj level (Nat.pos_of_ne_zero h0)).sublist hsub).imp_of_mem fun hf hg hfg a ha b hb => ?_
    have hle := (hok.tables level _ (hsub.subset hf)).le_largest ha
    exact lt_of_le_of_lt hle (lt_of_lt_of_le hfg ((hok.tables level _ (hsub.subset hg)).smallest_le hb))

theorem inputs_union (hok : VersionOk T v) (hlay : Layered T v) (hc : Selected v c) :
    Union Entry.key (inputIterators T c) (mergedInputs T c) where
  parts x hx := by
    rcases mem_append.1 hx with hx | hx
    · exact inputLists_sorted hok hlay.disjoint hc.inputs0_sublist x hx
    · exact inputLists_sorted hok hlay.disjoint hc.inputs1_sublist x hx
  sorted := mergedInputs_sorted hok hlay hc
  perm := by
    rw [inputIterators, flatten_append, inputLists_flatten, inputLists_flatten, ← flatMap_append]
    exact perm_insertionSort _ _

theorem follows_walk {α : Type} {it : Iterator σ α K} {keyOf : α → K} {l : List α} {R : σ → Cursor α → Prop} (h : it.Follows keyOf l R) {s : σ}
    {cur : Cursor α} (hs : R s cur) {fuel : ℕ} (hfuel : l.length < fuel) :
    walk it.valid it.current (it.call · .next) fuel (it.call s .seekToFirst) = some l := by
  refine walk_eq (P := fun a s => ∃ b, R s (Cursor.ofLists b a)) (fun s hs => ?_) (fun e a s hs => ?_)
    ⟨[], h.call (m := .seekToFirst) hs trivial⟩ hfuel
  · obtain ⟨b, hs⟩ := hs
    exact Bool.eq_false_iff.2 fun hv => (h.valid hs).1 hv rfl
  · obtain ⟨b, hs⟩ := hs
    exact ⟨(h.valid hs).2 (some_ne_none _), h.current hs, e :: b, h.call (m := .next) hs (some_ne_none _)⟩

/-- What `DBImpl::Get` and the iterators read: the memtables, and the current version. -/
structure ReadState (K V : Type) where
  mem : List (Entry K V)
  imm : Option (List (Entry K V))
  current : Version K

def ReadState.memtables (st : ReadState K V) : List (List (Entry K V)) := st.mem :: st.imm.toList

/-- `MemTable::Get`. -/
def memTableGet (mem : List (Entry K V)) (userKey : K) (seq : ℕ) : Option (GetResult V) :=
  (internalGet mem (lookupKey userKey seq)).bind fun e =>
    if e.key.userKey = userKey then
      match e.key.type? with
      | some .value => some (.found e.value)
      | some .deletion => some .deleted
      | none => none
    else none

def dbGet (T : Tables K V) (st : ReadState K V) (userKey : K) (seq : ℕ) : GetResult V :=
  (st.memtables.findSome? fun mem => memTableGet mem userKey seq).getD (versionGet T st.current userKey seq)

/-- The contents of the iterators that `NewInternalIterator` merges, those of `AddIterators` last. -/
def internalLists (T : Tables K V) (st : ReadState K V) : List (List (Entry K V)) :=
  st.memtables ++ (List.range kNumLevels).flatMap fun level => inputLists T level (st.current level)

def ReadState.Holds (T : Tables K V) (st : ReadState K V) (e : Entry K V) : Prop := e ∈ st.memtables.flatten ∨ LevelDb.Holds T st.current e

/-- A memtable is newer than the tables that are searched after it. -/
structure ReadOk (T : Tables K V) (st : ReadState K V) : Prop where
  version : VersionOk T st.current
  layered : Layered T st.current
  sorted : ∀ mem ∈ st.memtables, SortedEntries mem
  newer : st.memtables.Pairwise Newer
  files : ∀ d, LevelDb.Holds T st.current d → Newer st.memtables.flatten [d]
  types : ∀ e, st.Holds T e → e.key.type? ≠ none

variable {st : ReadState K V} {mem l : List (Entry K V)} {e : Entry K V} {u : K} {s : ℕ} {x : V}

theorem memTableGet_eq (ht : ∀ e ∈ mem, e.key.type? ≠ none) : memTableGet mem u s = tableGet mem u s := by
  unfold memTableGet tableGet
  cases hfind : internalGet mem (lookupKey u s) with
  | none => rfl
  | some e =>
    have htype := ht e (List.mem_of_find?_eq_some hfind)
    dsimp only [bind_some, saveValue]
    cases he : e.key.type? with
    | none => exact absurd he htype
    | some t => cases t <;> rfl

theorem ReadOk.memTableGet_none (h : ReadOk T st) (hmem : mem ∈ st.memtables) (hnot : ∀ d ∈ mem, d.key.userKey = u → ¬d.key.sequence ≤ s) :
    memTableGet mem u s = none := by
  have ht : ∀ d ∈ mem, d.key.type? ≠ none := fun d hd => h.types d (Or.inl (mem_flatten_of_mem hmem hd))
  rw [memTableGet_eq ht, tableGet_notFound ht hnot]

/-- What is searched before the newest entry has nothing of its key that the snapshot sees. -/
theorem ReadOk.memTableGet_newer (h : ReadOk T st) (he : IsNewest (st.Holds T) u s e) (hmem : mem ∈ st.memtables)
    (hnewer : ∀ d ∈ mem, d.key.userKey = e.key.userKey → e.key.sequence < d.key.sequence) : memTableGet mem u s = none :=
  h.memTableGet_none hmem fun d hd hu hs =>
    absurd (InternalKey.sequence_le (he.newest d (Or.inl (mem_flatten_of_mem hmem hd)) hu hs)) (not_le.2 (hnewer d hd (hu.trans he.userKey.symm)))

/-- **`DBImpl::Get` answers with the newest entry** of all memtables and files that the snapshot sees. -/
theorem dbGet_found (h : ReadOk T st) (he : IsNewest (st.Holds T) u s e) : dbGet T st u s = e.result := by
  rcases he.mem with hin | hfile
  · obtain ⟨mem, hmem, hin⟩ := mem_flatten.1 hin
    obtain ⟨before, after, hsplit⟩ := append_of_mem hmem
    have ht : ∀ d ∈ mem, d.key.type? ≠ none := fun d hd => h.types d (Or.inl (mem_flatten_of_mem hmem hd))
    have hanswer : memTableGet mem u s = some e.result := by
      rw [memTableGet_eq ht]
      exact tableGet_found (h.sorted mem hmem) ht ⟨hin, he.userKey, he.sequence, fun d hd => he.newest d (Or.inl (mem_flatten_of_mem hmem hd))⟩
    have hbefore : ∀ c ∈ before, memTableGet c u s = none := by
      intro c hc
      have hnewer := h.newer
      rw [hsplit] at hnewer
      refine h.memTableGet_newer he (by rw [hsplit]; exact mem_append_left _ hc) fun d hd => ?_
      exact (pairwise_append.1 hnewer).2.2 c hc mem mem_cons_self d hd e hin
    rw [dbGet, hsplit, @findSome?_first _ _ (fun mem => memTableGet mem u s) _ _ _ _ hanswer hbefore, getD_some]
  · have hmems : (st.memtables.findSome? fun mem => memTableGet mem u s) = none :=
      findSome?_eq_none_iff.2 fun mem hmem => h.memTableGet_newer he hmem fun d hd =>
        h.files e hfile d (mem_flatten_of_mem hmem hd) e (mem_singleton_self e)
    rw [dbGet, hmems, getD_none]
    exact versionGet_found h.version h.layered (fun d hd => h.types d (Or.inr hd))
      ⟨hfile, he.userKey, he.sequence, fun d hd => he.newest d (Or.inr hd)⟩

theorem dbGet_notFound (h : ReadOk T st) (hnone : ∀ e, st.Holds T e → e.key.userKey = u → ¬e.key.sequence ≤ s) : dbGet T st u s = .notFound := by
  have hmems : (st.memtables.findSome? fun mem => memTableGet mem u s) = none :=
    findSome?_eq_none_iff.2 fun mem hmem => h.memTableGet_none hmem fun d hd => hnone d (Or.inl (mem_flatten_of_mem hmem hd))
  have hfiles : ((searched st.current u s).findSome? fun f => tableGet (T f.number) u s) = none := by
    refine findSome?_eq_none_iff.2 fun f hf => ?_
    have hholds := fun d (hd : d ∈ T f.number) => (Or.inr (searched_holds (h.version.files.endsSorted h.layered.disjoint) hf hd) : st.Holds T d)
    exact tableGet_notFound (fun d hd => h.types d (hholds d hd)) fun d hd => hnone d (hholds d hd)
  rw [dbGet, hmems, getD_none, versionGet_eq, hfiles, getD_none]

/-- `DBImpl::Get` finds the value of the newest entry. -/
theorem dbGet_value (h : ReadOk T st) : dbGet T st u s = .found x ↔ HasValue (st.Holds T) u s x := by
  constructor
  · intro hget
    by_cases hany : ∃ e, st.Holds T e ∧ e.key.userKey = u ∧ e.key.sequence ≤ s
    · obtain ⟨e, he, hu, hs⟩ := hany
      obtain ⟨e, he⟩ := exists_newest he hu hs
      rw [dbGet_found h he, Entry.result] at hget
      split at hget
      · cases hget
      · rename_i htype
        exact ⟨e, ⟨⟨he.mem, h.types e he.mem⟩, he.userKey, he.sequence, fun d hd => he.newest d hd.1⟩, htype, GetResult.found.inj hget⟩
      · cases hget
    · rw [dbGet_notFound h fun e he hu hs => hany ⟨e, he, hu, hs⟩] at hget
      cases hget
  · rintro ⟨e, he, htype, rfl⟩
    rw [dbGet_found h ⟨he.mem.1, he.userKey, he.sequence, fun d hd => he.newest d ⟨hd, h.types d hd⟩⟩, Entry.result, htype]

theorem mem_internalLists (h : ReadOk T st) : e ∈ (internalLists T st).flatten ↔ st.Holds T e := by
  have hlevel : ∀ level, e ∈ (inputLists T level (st.current level)).flatten ↔ ∃ f ∈ st.current level, e ∈ T f.number := fun level => by
    rw [inputLists_flatten, mem_flatMap]
  rw [internalLists, flatten_append, mem_append, ReadState.Holds]
  refine or_congr_right ⟨fun he => ?_, fun ⟨level, f, hf, he⟩ => ?_⟩
  · obtain ⟨x, hx, he⟩ := mem_flatten.1 he
    obtain ⟨level, -, hx⟩ := mem_flatMap.1 hx
    exact ⟨level, (hlevel level).1 (mem_flatten_of_mem hx he)⟩
  · obtain ⟨x, hx, he⟩ := mem_flatten.1 ((hlevel level).2 ⟨f, hf, he⟩)
    have hlt : level < kNumLevels := by
      by_contra hge
      rw [h.version.files.levels level (not_lt.1 hge)] at hf
      cases hf
    exact mem_flatten_of_mem (mem_flatMap.2 ⟨level, mem_range.2 hlt, hx⟩) he

namespace DbIter

variable {bs as : List (Entry K V)} {fuel : ℕ} {it : DbIter K V} {cur : Cursor (Entry K V)}

def shown (it : DbIter K V) : Option (K × V) := it.key.bind fun k => it.value.map fun x => (k, x)

def pairs (l : List (Entry K V)) : List (K × V) := l.map fun e => (e.key.userKey, e.value)

theorem Follows.shown (h : Follows l s it cur) :
    it.valid = cur.isSome ∧ (it.valid = true → it.shown = cur.current.map fun e => (e.key.userKey, e.value)) := by
  refine ⟨h.key.1, fun hv => ?_⟩
  obtain ⟨hk, hx⟩ := h.key.2 hv
  rw [DbIter.shown, hk, hx]
  cases cur.current <;> rfl

theorem findNextUserEntry_direction (it : DbIter K V) (skipping : Bool) : (findNextUserEntry s it skipping).direction = it.direction := by
  unfold findNextUserEntry
  split <;> rfl

theorem next_direction (it : DbIter K V) : (it.next l s).direction = .forward := by
  have hd : (if it.direction = .reverse then
      { it with direction := .forward, iter := if it.iter.isNone then Cursor.seekToFirst l else it.iter.next } else it).direction = .forward := by
    cases hd : it.direction <;> simp [hd]
  unfold next
  dsimp only
  split
  · exact hd
  · rw [findNextUserEntry_direction]
    exact hd

theorem seekToFirst_direction (it : DbIter K V) : (it.seekToFirst l s).direction = .forward := by
  unfold seekToFirst
  dsimp only
  split_ifs
  · rw [findNextUserEntry_direction]
  · rfl

theorem seek_direction (it : DbIter K V) (target : K) : (it.seek l s target).direction = .forward := by
  unfold seek
  dsimp only
  split_ifs
  · rw [findNextUserEntry_direction]
  · rfl

theorem walk_next (h : SortedEntries l) (hd : it.direction = .forward) (hf : Follows l s it (Cursor.ofLists bs as)) (hfuel : as.length < fuel) :
    walk valid shown (next l s) fuel it = some (pairs as) := by
  refine walk_eq (P := fun ps it => it.direction = .forward ∧ ∃ bs as, ps = pairs as ∧ Follows l s it (Cursor.ofLists bs as))
    (fun it hit => ?_) (fun p ps it hit => ?_) ⟨hd, bs, as, rfl, hf⟩ (by rwa [pairs, length_map])
  · obtain ⟨-, bs, as, hps, hf⟩ := hit
    rw [map_eq_nil_iff.1 hps.symm] at hf
    exact hf
  · obtain ⟨hd, bs, as, hps, hf⟩ := hit
    obtain ⟨e, as, rfl, rfl, rfl⟩ := map_eq_cons_iff.1 hps.symm
    have hv : it.valid = true := hf.key.1
    refine ⟨hv, hf.shown.2 hv, next_direction it, e :: bs, as, rfl, next_follows h hf hv fun hr => ?_⟩
    rw [hd] at hr
    cases hr

theorem walk_prev (h : SortedEntries l) (hf : Follows l s it (Cursor.ofListsBack bs as)) (hfuel : bs.length < fuel) :
    walk valid shown (prev s) fuel it = some (pairs bs) := by
  refine walk_eq (P := fun ps it => ∃ bs as, ps = pairs bs ∧ Follows l s it (Cursor.ofListsBack bs as))
    (fun it hit => ?_) (fun p ps it hit => ?_) ⟨bs, as, rfl, hf⟩ (by rwa [pairs, length_map])
  · obtain ⟨bs, as, hps, hf⟩ := hit
    rw [map_eq_nil_iff.1 hps.symm] at hf
    exact hf
  · obtain ⟨bs, as, hps, hf⟩ := hit
    obtain ⟨e, bs, rfl, rfl, rfl⟩ := map_eq_cons_iff.1 hps.symm
    have hv : it.valid = true := hf.key.1
    exact ⟨hv, hf.shown.2 hv, bs, e :: as, rfl, prev_follows h hf hv⟩

/-- **Loops in one direction show what the snapshot sees**, wherever the iterator was before: `Seek` goes to the first key that is not smaller
than the target. -/
theorem scan_shows (h : SortedEntries l) (s : ℕ) (it : DbIter K V) (hfuel : (visible l s).length < fuel) :
    walk valid shown (next l s) fuel (it.seekToFirst l s) = some (pairs (visible l s)) ∧
    walk valid shown (prev s) fuel (it.seekToLast l s) = some (pairs (visible l s)).reverse ∧
    ∀ target, walk valid shown (next l s) fuel (it.seek l s target) =
      some (pairs ((visible l s).filter fun e => decide (target ≤ e.key.userKey))) := by
  refine ⟨walk_next h (seekToFirst_direction it) (seekToFirst_follows h it) hfuel, ?_, fun target => ?_⟩
  · rw [walk_prev h (seekToLast_follows h it) (by rwa [length_reverse]), pairs, pairs, map_reverse]
  · obtain ⟨x, y, hxy, hx, hy⟩ := cut_at (show SortedEntries (visible l s) from h.filter _).userKeys (P := fun k => k < target) fun _ _ hle hb => lt_of_le_of_lt hle hb
    have hcut := Cursor.takeWhile_of_cut (p := fun e : Entry K V => !decide (target ≤ e.key.userKey)) (fun e he => by simpa using hx e he)
      fun e he => by simpa using hy e he
    have hfilter : ((visible l s).filter fun e => decide (target ≤ e.key.userKey)) = y := by
      rw [hxy, filter_append, filter_eq_nil_iff.2 fun e he => by simpa using hx e he, nil_append,
        filter_eq_self.2 fun e he => by simpa using hy e he]
    have hf := seek_follows (s := s) h it target
    rw [Cursor.seek, hxy, hcut.1, hcut.2] at hf
    rw [hfilter]
    refine walk_next h (seek_direction it target) hf (lt_of_le_of_lt ?_ hfuel)
    rw [← hfilter]
    exact length_filter_le _ _

theorem scan_shows_two : walk valid shown (next threeKeys 5) 3 (new.seek threeKeys 5 2) = some [(3, 30)] :=
  (scan_shows (l := threeKeys) (by unfold SortedEntries; decide) 5 new (show (visible threeKeys 5).length < 3 by decide)).2.2 2

theorem mem_pairs : (u, x) ∈ pairs (visible l s) ↔ HasValue (· ∈ l) u s x := by
  constructor
  · intro hp
    obtain ⟨e, he, heq⟩ := mem_map.1 hp
    obtain ⟨rfl, rfl⟩ := Prod.mk.inj heq
    obtain ⟨hel, he⟩ := mem_filter.1 he
    obtain ⟨htype, hseq, hnewest⟩ := of_decide_eq_true he
    exact ⟨e, ⟨⟨hel, by rw [htype]; exact some_ne_none _⟩, rfl, hseq, fun d hd hu hs => hnewest d hd.1 ⟨hd.2, hs⟩ hu⟩, htype, rfl⟩
  · rintro ⟨e, he, htype, rfl⟩
    obtain rfl := he.userKey
    exact mem_map.2 ⟨e, mem_filter.2 ⟨he.mem.1, decide_eq_true ⟨htype, he.sequence, fun d hd hseen hu => he.newest d ⟨hd, hseen.1⟩ hu hseen.2⟩⟩, rfl⟩

end DbIter

/-- What a call of `MemTable::Add` puts into the memtable, but for the sequence number. -/
structure Update (K V : Type) where
  type : ValueType
  userKey : K
  value : V

def Update.entry (w : Update K V) (seq : ℕ) : Entry K V := ⟨.pack w.userKey seq w.type, w.value⟩

/-- The map that the updates make, one after the other. -/
def contents (ws : List (Update K V)) : K → Option V :=
  ws.foldl (fun m w => Function.update m w.userKey (if w.type = .value then some w.value else none)) fun _ => none

/-- A database, with what was written to it so far, and its snapshots, the oldest one first. -/
structure Database (K V : Type) extends ReadState K V where
  updates : List (Update K V)
  snapshots : List ℕ
  tables : Tables K V

def Database.new : Database K V := ⟨⟨[], none, fun _ => []⟩, [], [], fun _ => []⟩

def Database.Holds (db : Database K V) (e : Entry K V) : Prop := db.toReadState.Holds db.tables e

def Database.oldest (db : Database K V) : ℕ := smallestSnapshot db.snapshots db.updates.length

/-- What stays of the two levels is newer than the inputs of the same user key. -/
def Whole (T : Tables K V) (v : Version K) (c : Compaction K) : Prop :=
  ∀ level f, Remains v c level f → c.level ≤ level → level ≤ c.level + 1 → Newer (T f.number) (mergedInputs T c)

/-- The steps of a database: an update of `DBImpl::Write`; `GetSnapshot` and `ReleaseSnapshot`; `MakeRoomForWrite` for a full memtable, and
`CompactMemTable`, whose table has a new number; and a compaction of whole inputs. It drops what was hidden from the oldest snapshot at some
time before. -/
inductive Step : Database K V → Database K V → Prop
  | add (db : Database K V) (w : Update K V) (hmax : db.updates.length + 1 < kMaxSequenceNumber) :
    Step db { db with updates := db.updates ++ [w], mem := insertBy Entry.key (w.entry (db.updates.length + 1)) db.mem }
  | getSnapshot (db : Database K V) : Step db { db with snapshots := db.snapshots ++ [db.updates.length] }
  | releaseSnapshot (db : Database K V) (s : ℕ) : Step db { db with snapshots := db.snapshots.erase s }
  | switch (db : Database K V) (himm : db.imm = none) : Step db { db with mem := [], imm := some db.mem }
  | flushEmpty (db : Database K V) (himm : db.imm = some []) : Step db { db with imm := none }
  | flush (db : Database K V) {l : List (Entry K V)} {f : FileMetaData K} (logNumber : ℕ) (himm : db.imm = some l)
    (hnew : ∀ level, ∀ g ∈ db.current level, g.number < f.number) (hsize : 0 < f.fileSize) (hsmallest : l.head?.map Entry.key = some f.smallest)
    (hlargest : l.getLast?.map Entry.key = some f.largest) :
    Step db { db with imm := none, current := flush db.current logNumber f, tables := Function.update db.tables f.number l }
  | compact (db : Database K V) {T' : Tables K V} {c : Compaction K} {outputs : List (FileMetaData K)} {smallest : ℕ} (hle : smallest ≤ db.oldest)
    (hc : Chosen db.current c) (hwhole : Whole db.tables db.current c)
    (hout : Outputs db.tables T' db.current c outputs (keptEntries db.tables c smallest)) :
    Step db { db with current := installed db.current c outputs, tables := T' }

/-- **What each step keeps up**: what is read from the oldest snapshot on is what was written up to there. -/
structure Keeps (db : Database K V) : Prop where
  reads : ReadOk db.tables db.toReadState
  sequence : ∀ e, db.Holds e → e.key.sequence ≤ db.updates.length
  values : ∀ s, db.oldest ≤ s → ∀ u x, HasValue db.Holds u s x ↔ contents (db.updates.take s) u = some x
  snapshots : (db.snapshots ++ [db.updates.length]).Pairwise (· ≤ ·)
  max : db.updates.length < kMaxSequenceNumber

variable {db db' : Database K V} {P : Entry K V → Prop} {n : ℕ} {snapshots : List ℕ} {w : Update K V} {ws : List (Update K V)}

theorem smallestSnapshot_mem : smallestSnapshot snapshots n ∈ snapshots ++ [n] := by cases snapshots <;> simp [smallestSnapshot]

theorem smallestSnapshot_le (h : (snapshots ++ [n]).Pairwise (· ≤ ·)) (hs : s ∈ snapshots ++ [n]) : smallestSnapshot snapshots n ≤ s := by
  cases snapshots with
  | nil => exact le_of_eq (mem_singleton.1 hs).symm
  | cons a l =>
    rcases mem_cons.1 hs with rfl | hs
    · exact le_refl _
    · exact (pairwise_cons.1 h).1 s hs

theorem contents_take_concat : contents ((ws ++ [w]).take s) u =
    if ws.length + 1 ≤ s ∧ w.userKey = u then if w.type = .value then some w.value else none else contents (ws.take s) u := by
  by_cases hs : ws.length + 1 ≤ s
  · rw [take_of_length_le (by rw [length_append, length_singleton]; exact hs), take_of_length_le (le_of_lt hs), contents, foldl_append, foldl_cons,
      foldl_nil, Function.update_apply]
    simp only [hs, true_and, eq_comm (a := u)]
    rfl
  · rw [take_append_of_le_length (Nat.le_of_not_lt hs), if_neg fun h => hs h.1]

/-- A new entry hides the others of its user key. -/
theorem hasValue_insert (hnew : ∀ d, P d → d.key.sequence < e.key.sequence) (ht : e.key.type? ≠ none) :
    HasValue (fun d => d = e ∨ P d) u s x ↔
      if e.key.sequence ≤ s ∧ e.key.userKey = u then e.key.type? = some .value ∧ e.value = x else HasValue P u s x := by
  split_ifs with h
  · have hnewest : IsNewest (fun d => (d = e ∨ P d) ∧ d.key.type? ≠ none) u s e := by
      refine ⟨⟨Or.inl rfl, ht⟩, h.2, h.1, fun d hd hu hs => ?_⟩
      rcases hd.1 with rfl | hd
      · exact le_refl _
      · exact not_lt.1 fun hlt => absurd (hnew d hd) (not_lt.2 (InternalKey.sequence_le (le_of_lt hlt)))
    refine ⟨fun ⟨d, hd, htype, hx⟩ => ?_, fun ⟨htype, hx⟩ => ⟨e, hnewest, htype, hx⟩⟩
    rcases hd.mem.1 with rfl | hP
    · exact ⟨htype, hx⟩
    · have hle := InternalKey.sequence_le (hd.newest e hnewest.mem h.2 h.1)
      exact absurd (hnew d hP) (not_lt.2 hle)
  · have hne : ∀ d, d.key.userKey = u → d.key.sequence ≤ s → (d = e ∨ P d) → P d := fun d hu hs hd =>
      hd.resolve_left fun hde => h (hde ▸ ⟨hs, hu⟩)
    constructor
    · rintro ⟨d, hd, hv⟩
      exact ⟨d, ⟨⟨hne d hd.userKey hd.sequence hd.mem.1, hd.mem.2⟩, hd.userKey, hd.sequence, fun d' hd' => hd.newest d' ⟨Or.inr hd'.1, hd'.2⟩⟩, hv⟩
    · rintro ⟨d, hd, hv⟩
      exact ⟨d, ⟨⟨Or.inr hd.mem.1, hd.mem.2⟩, hd.userKey, hd.sequence, fun d' hd' hu hs => hd.newest d' ⟨hne d' hu hs hd'.1, hd'.2⟩ hu hs⟩, hv⟩

theorem Keeps.add (h : Keeps db) (w : Update K V) (hmax : db.updates.length + 1 < kMaxSequenceNumber) :
    Keeps { db with updates := db.updates ++ [w], mem := insertBy Entry.key (w.entry (db.updates.length + 1)) db.mem } := by
  have hseq : (w.entry (db.updates.length + 1)).key.sequence = db.updates.length + 1 := InternalKey.pack_sequence _ _ _
  have htype : (w.entry (db.updates.length + 1)).key.type? = some w.type := InternalKey.pack_type? _ _ _
  have hnew : ∀ d, db.Holds d → d.key.sequence < (w.entry (db.updates.length + 1)).key.sequence := fun d hd => by
    rw [hseq]
    exact Nat.lt_succ_of_le (h.sequence d hd)
  have huser : (w.entry (db.updates.length + 1)).key.userKey = w.userKey := rfl
  have hvalue : (w.entry (db.updates.length + 1)).value = w.value := rfl
  generalize w.entry (db.updates.length + 1) = e at hseq htype hnew huser hvalue
  have hmem : ∀ d, d ∈ insertBy Entry.key e db.mem ↔ d = e ∨ d ∈ db.mem := fun d => mem_insertBy fun c hc hk =>
    absurd (hnew c (Or.inl (mem_flatten_of_mem mem_cons_self hc))) (by rw [hk]; exact Nat.lt_irrefl _)
  have hflat : ∀ d, d ∈ (insertBy Entry.key e db.mem :: db.imm.toList).flatten ↔ d = e ∨ d ∈ db.memtables.flatten := fun d => by
    rw [flatten_cons, mem_append, hmem, ReadState.memtables, flatten_cons, mem_append]
    exact or_assoc
  have hholds : Database.Holds { db with updates := db.updates ++ [w], mem := insertBy Entry.key e db.mem } = fun d => d = e ∨ db.Holds d :=
    funext fun d => propext ((or_congr_left (hflat d)).trans or_assoc)
  have hne : e.key.type? ≠ none := by
    rw [htype]
    exact some_ne_none _
  obtain ⟨hmems, himms⟩ := pairwise_cons.1 h.reads.newer
  -- the new entry is newer than all others
  refine ⟨⟨h.reads.version, h.reads.layered, ?_, pairwise_cons.2 ⟨fun m hm a ha d hd hu => ?_, himms⟩, fun d hd a ha d' hd' hu => ?_, fun d hd => ?_⟩,
    fun d hd => ?_, fun s hs u x => ?_, ?_, ?_⟩
  · exact forall_mem_cons.2 ⟨KeySorted.insertBy (h.reads.sorted db.mem mem_cons_self) e, fun m hm => h.reads.sorted m (mem_cons_of_mem _ hm)⟩
  · rcases (hmem a).1 ha with rfl | ha
    · exact hnew d (Or.inl (mem_flatten_of_mem (mem_cons_of_mem _ hm) hd))
    · exact hmems m hm a ha d hd hu
  · rcases (hflat a).1 ha with rfl | ha
    · exact hnew d' (Or.inr (mem_singleton.1 hd' ▸ hd))
    · exact h.reads.files d hd a ha d' hd' hu
  · have hd : Database.Holds _ d := hd
    rw [hholds] at hd
    rcases hd with rfl | hd
    · exact hne
    · exact h.reads.types d hd
  · rw [hholds] at hd
    rw [length_append, length_singleton]
    rcases hd with rfl | hd
    · exact le_of_eq hseq
    · exact Nat.le_succ_of_le (h.sequence d hd)
  · have hold : db.oldest ≤ s := by
      refine le_trans ?_ hs
      show smallestSnapshot db.snapshots _ ≤ smallestSnapshot db.snapshots _
      unfold smallestSnapshot
      cases db.snapshots.head? with
      | none => exact by rw [getD_none, getD_none, length_append]; exact Nat.le_add_right _ _
      | some a => exact le_refl _
    rw [hholds, hasValue_insert hnew hne, contents_take_concat, hseq, huser, hvalue, htype]
    -- a snapshot that sees the new entry sees no other of its key
    by_cases hc : db.updates.length + 1 ≤ s ∧ w.userKey = u
    · rw [if_pos hc, if_pos hc]
      cases w.type <;> simp
    · rw [if_neg hc, if_neg hc]
      exact h.values s hold u x
  · rw [length_append, length_singleton]
    exact pairwise_append.2 ⟨(pairwise_append.1 h.snapshots).1, pairwise_singleton _ _, fun a ha b hb => by
      rw [mem_singleton.1 hb]
      exact Nat.le_succ_of_le ((pairwise_append.1 h.snapshots).2.2 a ha _ (mem_singleton_self _))⟩
  · rw [length_append]
    exact hmax

theorem Keeps.withSnapshots (h : Keeps db) (hsub : ∀ s ∈ snapshots ++ [db.updates.length], s ∈ db.snapshots ++ [db.updates.length])
    (hs : (snapshots ++ [db.updates.length]).Pairwise (· ≤ ·)) : Keeps { db with snapshots := snapshots } :=
  ⟨h.reads, h.sequence, fun s hle u x => h.values s (le_trans (smallestSnapshot_le h.snapshots (hsub _ smallestSnapshot_mem)) hle) u x, hs, h.max⟩

/-- Other memtables with the same entries, in the same order. -/
theorem Keeps.withMemtables (h : Keeps db) {mem : List (Entry K V)} {imm : Option (List (Entry K V))}
    (hflat : (mem :: imm.toList).flatten = db.memtables.flatten) (hsub : ∀ m ∈ mem :: imm.toList, m = [] ∨ m ∈ db.memtables)
    (hnewer : (mem :: imm.toList).Pairwise Newer) : Keeps { db with mem := mem, imm := imm } := by
  have hholds : Database.Holds { db with mem := mem, imm := imm } = db.Holds := funext fun e => by
    rw [Database.Holds, ReadState.Holds, ReadState.memtables, hflat]
    rfl
  refine ⟨⟨h.reads.version, h.reads.layered, fun m hm => ?_, hnewer, fun d hd => ?_, fun e he => h.reads.types e ((congrFun hholds e).mp he)⟩, ?_, ?_, h.snapshots, h.max⟩
  · rcases hsub m hm with rfl | hm
    · exact List.Pairwise.nil
    · exact h.reads.sorted m hm
  · rw [ReadState.memtables, hflat]
    exact h.reads.files d hd
  · rw [hholds]
    exact h.sequence
  · rw [hholds]
    exact h.values

theorem Keeps.flush (h : Keeps db) {f : FileMetaData K} (n : ℕ) (himm : db.imm = some l) (hnew : ∀ level, ∀ g ∈ db.current level, g.number < f.number)
    (hsize : 0 < f.fileSize) (hsmallest : l.head?.map Entry.key = some f.smallest) (hlargest : l.getLast?.map Entry.key = some f.largest) :
    Keeps { db with imm := none, current := LevelDb.flush db.current n f, tables := Function.update db.tables f.number l } := by
  have hmems : db.memtables = [db.mem, l] := by rw [ReadState.memtables, himm]; rfl
  have hl : l ∈ db.memtables := by rw [hmems]; exact mem_cons_of_mem _ (mem_singleton_self l)
  have hself : Function.update db.tables f.number l f.number = l := Function.update_self _ _ _
  have hkey : ∀ e, db.Holds e → KeyOk e.key := fun e he => ⟨h.reads.types e he, (h.sequence e he).trans (le_of_lt h.max)⟩
  have hkeys : KeysOk db.current := fun level g hg => by
    obtain ⟨e, he, hk⟩ := (h.reads.version.tables level g hg).exists_largest
    exact hk ▸ hkey e (Or.inr ⟨level, g, hg, he⟩)
  have htable : TableOk (Function.update db.tables f.number l) f :=
    ⟨by rw [hself]; exact h.reads.sorted l hl, by rw [hself]; exact hsmallest, by rw [hself]; exact hlargest⟩
  obtain ⟨a, ha, hk⟩ := htable.exists_largest
  rw [hself] at ha
  obtain ⟨hversion, -, hlayered⟩ := flush_layered (n := n) h.reads.version hkeys h.reads.layered hnew htable
    (hk ▸ hkey a (Or.inl (mem_flatten_of_mem hl ha))) fun level g hg e he d hd =>
      h.reads.files d ⟨level, g, hg, hd⟩ e (mem_flatten_of_mem hl he) d (mem_singleton_self d)
  have hfiles : ∀ e, LevelDb.Holds (Function.update db.tables f.number l) (LevelDb.flush db.current n f) e ↔ e ∈ l ∨ LevelDb.Holds db.tables db.current e := by
    intro e
    have hlevel := flush_level (n := n) h.reads.version.files h.reads.layered.disjoint hnew
    have hold : ∀ level, ∀ g ∈ db.current level, Function.update db.tables f.number l g.number = db.tables g.number := fun level g hg =>
      Function.update_of_ne (Nat.ne_of_lt (hnew level g hg)) _ _
    constructor
    · rintro ⟨level, g, hg, he⟩
      rcases (hlevel level g).1 hg with ⟨rfl, -⟩ | hg
      · exact Or.inl (hself ▸ he)
      · exact Or.inr ⟨level, g, hg, hold level g hg ▸ he⟩
    · rintro (he | ⟨level, g, hg, he⟩)
      · exact ⟨_, f, (hlevel _ f).2 (Or.inl ⟨rfl, hsize, rfl⟩), hself.symm ▸ he⟩
      · exact ⟨level, g, (hlevel level g).2 (Or.inr hg), (hold level g hg).symm ▸ he⟩
  have hholds : Database.Holds { db with imm := none, current := LevelDb.flush db.current n f, tables := Function.update db.tables f.number l } = db.Holds := by
    funext e
    rw [Database.Holds, ReadState.Holds, hfiles, Database.Holds, ReadState.Holds, hmems, flatten_cons, mem_append, flatten_singleton]
    rw [ReadState.memtables, toList_none, flatten_singleton]
    exact propext or_assoc.symm
  have hnewer := h.reads.newer
  rw [hmems] at hnewer
  refine ⟨⟨hversion, hlayered, fun m hm => ?_, pairwise_singleton _ _, fun d hd => ?_, fun e he => h.reads.types e ((congrFun hholds e).mp he)⟩, ?_, ?_, h.snapshots, h.max⟩
  · exact h.reads.sorted m (mem_singleton.1 hm ▸ mem_cons_self)
  · rw [ReadState.memtables, toList_none, flatten_singleton]
    rcases (hfiles d).1 hd with hd | hd
    · exact fun e he d' hd' => (pairwise_cons.1 hnewer).1 l (mem_singleton_self l) e he d' (mem_singleton.1 hd' ▸ hd)
    · exact fun e he => h.reads.files d hd e (mem_flatten_of_mem mem_cons_self he)
  · rw [hholds]
    exact h.sequence
  · rw [hholds]
    exact h.values

theorem Keeps.compact (h : Keeps db) {T' : Tables K V} {c : Compaction K} {outputs : List (FileMetaData K)} {smallest : ℕ} (hle : smallest ≤ db.oldest)
    (hc : Chosen db.current c) (hwhole : Whole db.tables db.current c)
    (hout : Outputs db.tables T' db.current c outputs (keptEntries db.tables c smallest)) :
    Keeps { db with current := installed db.current c outputs, tables := T' } := by
  have hok := h.reads.version
  have hlay := h.reads.layered
  have hsel := hc.selected
  have hmerged := mergedInputs_sorted hok hlay hsel
  have hinput : ∀ e ∈ mergedInputs db.tables c, LevelDb.Holds db.tables db.current e := fun e he => (holds_iff hsel.inputsOf).2 (Or.inl he)
  have hmax : smallest < kMaxSequenceNumber :=
    lt_of_le_of_lt (hle.trans (smallestSnapshot_le h.snapshots (mem_append_right _ (mem_singleton_self _)))) h.max
  have hkept := (mem_keptEntries hok.files hlay.disjoint hsel hmax hmerged).1
  have hs : SortedEntries (keptEntries db.tables c smallest) := hmerged.sublist hkept
  have hfiles : ∀ e, LevelDb.Holds T' (installed db.current c outputs) e → LevelDb.Holds db.tables db.current e := fun e he =>
    (holds_iff hsel.inputsOf).2 (((holds_installed_iff hok hlay.disjoint hsel.inputsOf hout).1 he).imp_left (hkept.subset ·))
  have hsub : ∀ e, Database.Holds { db with current := installed db.current c outputs, tables := T' } e → db.Holds e := fun e he => he.imp_right (hfiles e)
  -- no value comes back behind a marker that is dropped
  have hvalues : ∀ u s, smallest ≤ s → ∀ x, HasValue db.Holds u s x ↔
      HasValue (Database.Holds { db with current := installed db.current c outputs, tables := T' }) u s x :=
    (@compaction_values _ _ _ _ _ _ _ _ db.memtables.flatten [] smallest hok hlay hc hmax hout).2
      (notResurrected_of_whole hok hlay hsel (fun e he => h.reads.types e (Or.inr (hinput e he))) (fun e he => h.reads.files e (hinput e he)) hwhole)
  have hlayered := layered_of_newer hok hlay hsel (fun f hr g hg e he d hd => hwhole c.level f hr (le_refl _) (Nat.le_succ _) e he d
    (mem_mergedInputs.2 ⟨g, Or.inl hg, hd⟩)) (fun e he => hkept.subset he) hs hout
  exact ⟨⟨hout.ok hok hlay.disjoint hsel.inputsOf hs, hlayered, h.reads.sorted, h.reads.newer, fun d hd => h.reads.files d (hfiles d hd),
    fun e he => h.reads.types e (hsub e he)⟩, fun e he => h.sequence e (hsub e he), fun s hs u x => (hvalues u s (hle.trans hs) x).symm.trans (h.values s hs u x),
    h.snapshots, h.max⟩

theorem Keeps.step (h : Keeps db) (hstep : Step db db') : Keeps db' := by
  cases hstep with
  | add w hmax => exact h.add w hmax
  | getSnapshot =>
    refine h.withSnapshots (fun s hs => ?_) ?_
    · exact (mem_append.1 hs).elim id fun hs => mem_append_right _ hs
    · refine pairwise_append.2 ⟨h.snapshots, pairwise_singleton _ _, fun a ha b hb => ?_⟩
      rw [mem_singleton.1 hb]
      exact (mem_append.1 ha).elim (fun ha => (pairwise_append.1 h.snapshots).2.2 a ha _ (mem_singleton_self _)) fun ha => le_of_eq (mem_singleton.1 ha)
  | releaseSnapshot s =>
    have hsub := (erase_sublist (a := s) (l := db.snapshots)).append_right [db.updates.length]
    exact h.withSnapshots (fun s hs => hsub.subset hs) (h.snapshots.sublist hsub)
  | switch himm =>
    have hmems : db.memtables = [db.mem] := by rw [ReadState.memtables, himm]; rfl
    refine h.withMemtables (by rw [hmems]; rfl) (fun m hm => ?_) (pairwise_pair.2 fun e he => absurd he not_mem_nil)
    rw [hmems]
    exact mem_cons.1 hm
  | flushEmpty himm =>
    have hmems : db.memtables = [db.mem, []] := by rw [ReadState.memtables, himm]; rfl
    refine h.withMemtables (by rw [hmems]; rfl) (fun m hm => Or.inr ?_) (pairwise_singleton _ _)
    rw [hmems, mem_singleton.1 hm]
    exact mem_cons_self
  | flush n himm hnew hsize hsmallest hlargest => exact h.flush n himm hnew hsize hsmallest hlargest
  | compact hle hc hwhole hout => exact h.compact hle hc hwhole hout

theorem Keeps.run (h : Relation.ReflTransGen Step .new db) : Keeps db := by
  induction h with
  | refl =>
    have hnone : ∀ e, ¬Database.Holds (.new : Database K V) e := by
      rintro e (he | ⟨level, f, hf, -⟩)
      · exact not_mem_nil he
      · exact not_mem_nil hf
    refine ⟨⟨⟨⟨?_, ?_, List.Pairwise.nil, fun _ _ => rfl⟩, ?_⟩, ⟨fun _ _ => List.Pairwise.nil, ?_, ?_⟩, ?_, pairwise_singleton _ _,
      fun d hd => absurd (Or.inr hd) (hnone d), fun e he => absurd he (hnone e)⟩, fun e he => absurd he (hnone e), fun s hs u x => ?_, pairwise_singleton _ _,
      show 0 < kMaxSequenceNumber by decide⟩
    · exact fun _ _ hf => absurd hf not_mem_nil
    · exact fun _ _ _ hf => absurd hf not_mem_nil
    · exact fun _ _ hf => absurd hf not_mem_nil
    · exact fun _ _ _ _ hf => absurd hf not_mem_nil
    · exact fun _ hf => absurd hf not_mem_nil
    · exact fun m hm => mem_singleton.1 hm ▸ List.Pairwise.nil
    · rw [show (Database.new : Database K V).updates.take s = [] from take_nil]
      exact iff_of_false (fun ⟨e, he, _⟩ => hnone e he.mem.1) nofun
  | tail _ hstep ih => exact ih.step hstep

/-- A value is written, a snapshot is taken, the value is flushed, and then the key is deleted. -/
def writtenDatabase : Database ℕ ℕ :=
  ⟨⟨[⟨.pack 5 2 .deletion, 0⟩], none, flush (fun _ => []) 3 ⟨4, 100, .pack 5 1 .value, .pack 5 1 .value⟩⟩, [⟨.value, 5, 7⟩, ⟨.deletion, 5, 0⟩], [1],
    Function.update (fun _ => []) 4 [⟨.pack 5 1 .value, 7⟩]⟩

theorem writtenDatabase_run : Relation.ReflTransGen Step .new writtenDatabase := by
  have h1 := Relation.ReflTransGen.refl.tail (Step.add (.new : Database ℕ ℕ) ⟨.value, 5, 7⟩ (by decide))
  have h2 := (h1.tail (.getSnapshot _)).tail (.switch _ rfl)
  have h3 := h2.tail (.flush _ 3 (f := ⟨4, 100, .pack 5 1 .value, .pack 5 1 .value⟩) rfl (fun _ _ hg => absurd hg not_mem_nil) (by decide) rfl rfl)
  exact h3.tail (.add _ ⟨.deletion, 5, 0⟩ (by decide))

end KVStores.LevelDb
