import KVStores.Redis.DictSpec

/-!
# The calls of a hash table

What each public function of `dict.c` does to the entries and answers, on a dict in order whose
tables an `int` can count.
-/

namespace KVStores.Redis

open List Option Function

variable {K V : Type} {ty : DictType K} {t : DictHt K V} {d d' d'' : Dict K V} {k : K} {v : V} {e : K × V} {idx : ℕ}

structure Dict.Kept (ty : DictType K) (d d' : Dict K V) : Prop where
  ok : d'.Ok ty
  entries : d'.entries.Perm d.entries
  iterators : d'.iterators = d.iterators

namespace Dict

theorem Kept.refl (hok : d.Ok ty) : Kept ty d d := ⟨hok, List.Perm.refl _, rfl⟩

theorem Kept.trans (h : Kept ty d d') (h' : Kept ty d' d'') : Kept ty d d'' :=
  ⟨h'.ok, h'.entries.trans h.entries, h'.iterators.trans h.iterators⟩

theorem Kept.lookup (h : Kept ty d d') : lookup ty.keyCompare k d'.entries = lookup ty.keyCompare k d.entries :=
  lookup_perm ty.equiv h.ok.distinct h.entries

/-- An `int` counts the buckets of both tables, and those of a table of twice as many buckets as there are entries. -/
structure Small (d : Dict K V) : Prop where
  ht0 : d.ht0.size < intLimit
  ht1 : d.ht1.size < intLimit
  used : 2 * (d.ht0.used + d.ht1.used) ≤ intLimit

/-- An `int` counts the buckets of the first table and numbers those of the second one. -/
structure Fits (d : Dict K V) : Prop where
  ht0 : d.ht0.size < intLimit
  ht1 : d.ht1.size ≤ intLimit

theorem Small.fits (h : Small d) : Fits d := ⟨h.ht0, h.ht1.le⟩

theorem Ok.used_eq (hok : Ok ty d) : d.ht0.used + d.ht1.used = d.entries.length := by
  rw [hok.ht0.used, hok.ht1.used]
  exact length_append.symm

end Dict

/-- **Rehashing leaves the map as it is.** -/
theorem dictRehash_kept (n : ℕ) (hok : d.Ok ty) (hsmall : d.ht0.size < intLimit) :
    ∃ more d', dictRehash ty n d = some (more, d') ∧ d.Kept ty d' := by
  obtain ⟨more, d', h1, h2, h3, h4, -⟩ := dictRehash_spec n hok hsmall
  exact ⟨more, d', h1, h2, h3, h4⟩

theorem dictRehashStep_kept (hok : d.Ok ty) (hsmall : d.ht0.size < intLimit) :
    ∃ d', dictRehashStep ty d = some d' ∧ d.Kept ty d' ∧ (0 < d.ht0.size → 0 < d'.ht0.size) ∧ (d.Small → d'.Small) := by
  unfold dictRehashStep
  by_cases hstep : (d.isRehashing && decide (d.iterators = 0)) = true
  · rw [if_pos hstep]
    obtain ⟨more, d', h1, h2, h3, h4, h5, h6, h7⟩ := dictRehash_spec 1 hok hsmall
    rw [h1]
    refine ⟨d', rfl, ⟨h2, h3, h4⟩, h5, fun h => ⟨?_, ?_, ?_⟩⟩
    · rcases h6 with h6 | h6
      · exact h6 ▸ h.ht0
      · exact h6 ▸ h.ht1
    · rcases h7 with h7 | h7
      · exact h7 ▸ h.ht1
      · rw [h7]
        decide
    · rw [h2.used_eq, h3.length_eq, ← hok.used_eq]
      exact h.used
  · rw [if_neg hstep]
    exact ⟨d, rfl, .refl hok, id, id⟩

theorem nextPowerLoop_pos (size : ℕ) : ∀ fuel i, 0 < i → 0 < nextPowerLoop size fuel i
  | 0, _, h => h
  | fuel + 1, i, h => by
    rw [nextPowerLoop]
    by_cases hle : size ≤ i
    · rwa [if_pos hle]
    · rw [if_neg hle]
      exact nextPowerLoop_pos size fuel (i * 2) (by omega)

theorem dictNextPower_pos (size : ℕ) : 0 < dictNextPower size := by
  unfold dictNextPower
  by_cases h : longMax ≤ size
  · rw [if_pos h]
    decide
  · rw [if_neg h]
    exact nextPowerLoop_pos size 61 _ (by decide)

theorem nextPowerLoop_le {size : ℕ} (hsize : size ≤ intLimit) : ∀ fuel j, j ≤ 29 → nextPowerLoop size fuel (2 ^ (j + 2)) ≤ intLimit
  | 0, j, hj => Nat.pow_le_pow_right (by omega) (by omega)
  | fuel + 1, j, hj => by
    rw [nextPowerLoop]
    by_cases hle : size ≤ 2 ^ (j + 2)
    · rw [if_pos hle]
      exact Nat.pow_le_pow_right (by omega) (by omega)
    · rw [if_neg hle, ← pow_succ]
      refine nextPowerLoop_le hsize fuel (j + 1) ?_
      by_contra hlt
      have : j = 29 := by omega
      subst this
      exact hle hsize

theorem dictNextPower_le {size : ℕ} (hsize : size ≤ intLimit) : dictNextPower size ≤ intLimit := by
  have hlong : intLimit < longMax := by decide
  unfold dictNextPower
  rw [if_neg (by omega)]
  exact nextPowerLoop_le hsize 61 0 (by omega)

theorem dictExpand_cases (d : Dict K V) (size : ℕ) : dictExpand d size = (false, d) ∨ d.rehashidx = none ∧
      ((d.ht0.size = 0 ∧ dictExpand d size = (true, { d with ht0 := .alloc (dictNextPower size) })) ∨
        (0 < d.ht0.size ∧ dictExpand d size = (true, { d with ht1 := .alloc (dictNextPower size), rehashidx := some 0 }))) := by
  unfold dictExpand
  by_cases hfail : (d.isRehashing || decide (size < d.ht0.used)) = true
  · exact Or.inl (if_pos hfail)
  · rw [if_neg hfail]
    rw [Bool.or_eq_true, not_or, Bool.not_eq_true, Dict.not_isRehashing_iff] at hfail
    refine Or.inr ⟨hfail.1, ?_⟩
    by_cases hzero : d.ht0.size = 0
    · exact Or.inl ⟨hzero, if_pos hzero⟩
    · exact Or.inr ⟨Nat.pos_of_ne_zero hzero, if_neg hzero⟩

theorem DictHt.entries_of_size (h : t.size = 0) : t.entries = [] := by
  unfold DictHt.entries
  rw [h]
  rfl

theorem Dict.Kept.alloc0 (hok : d.Ok ty) (hidle : d.rehashidx = none) (hzero : d.ht0.size = 0) (size : ℕ) :
    d.Kept ty { d with ht0 := .alloc size } := by
  have hentries : ({ d with ht0 := .alloc size } : Dict K V).entries = d.entries := by
    unfold Dict.entries
    rw [DictHt.alloc_entries, DictHt.entries_of_size hzero]
  refine ⟨⟨DictHt.alloc_ok size, hok.ht1, hentries ▸ hok.distinct, hok.idle, fun n hn => ?_⟩, List.Perm.of_eq hentries, rfl⟩
  rw [show d.rehashidx = some n from hn] at hidle
  cases hidle

theorem Dict.Kept.alloc1 (hok : d.Ok ty) (hidle : d.rehashidx = none) (hpos : 0 < d.ht0.size) {size : ℕ} (hsize : 0 < size) :
    d.Kept ty { d with ht1 := .alloc size, rehashidx := some 0 } := by
  have hentries : ({ d with ht1 := .alloc size, rehashidx := some 0 } : Dict K V).entries = d.entries := by
    rw [hok.entries_idle hidle]
    unfold Dict.entries
    rw [DictHt.alloc_entries]
    exact append_nil _
  refine ⟨⟨hok.ht0, DictHt.alloc_ok size, hentries ▸ hok.distinct, fun h => (by cases h), fun n hn => ?_⟩, List.Perm.of_eq hentries, rfl⟩
  obtain rfl := Option.some.inj hn
  exact ⟨hpos, hsize, fun i hi => absurd hi (Nat.not_lt_zero i)⟩

/-- **Expanding leaves the map as it is.** -/
theorem dictExpand_kept (size : ℕ) (hok : d.Ok ty) : d.Kept ty (dictExpand d size).2 := by
  rcases dictExpand_cases d size with h | ⟨hidle, ⟨hzero, h⟩ | ⟨hpos, h⟩⟩
  · rw [h]
    exact .refl hok
  · rw [h]
    exact .alloc0 hok hidle hzero _
  · rw [h]
    exact .alloc1 hok hidle hpos (dictNextPower_pos size)

theorem dictResize_kept (canResize : Bool) (hok : d.Ok ty) : d.Kept ty (dictResize canResize d).2 := by
  unfold dictResize
  by_cases hfail : (!canResize || d.isRehashing) = true
  · rw [if_pos hfail]
    exact .refl hok
  · rw [if_neg hfail]
    exact dictExpand_kept _ hok

theorem dictExpandIfNeeded_kept (canResize : Bool) (hok : d.Ok ty) (hsmall : d.Small) :
    ∃ d', dictExpandIfNeeded canResize d = (true, d') ∧ d.Kept ty d' ∧ 0 < d'.ht0.size ∧ d'.Fits ∧ (d' = d ∨ d.rehashidx = none) := by
  unfold dictExpandIfNeeded
  by_cases hre : d.isRehashing = true
  · rw [if_pos hre]
    obtain ⟨n, hn⟩ := Dict.isRehashing_iff.1 hre
    exact ⟨d, rfl, .refl hok, (hok.busy n hn).1, hsmall.fits, Or.inl rfl⟩
  rw [if_neg hre]
  rw [Bool.not_eq_true, Dict.not_isRehashing_iff] at hre
  by_cases hzero : d.ht0.size = 0
  · rw [if_pos hzero]
    have hused : d.ht0.used = 0 := by
      rw [hok.ht0.used, DictHt.entries_of_size hzero]
      rfl
    have hfail : (d.isRehashing || decide (dictHtInitialSize < d.ht0.used)) = false := by
      rw [Dict.not_isRehashing_iff.2 hre, hused]
      rfl
    have heq : dictExpand d dictHtInitialSize = (true, { d with ht0 := .alloc (dictNextPower dictHtInitialSize) }) := by
      unfold dictExpand
      rw [hfail, if_neg Bool.false_ne_true, if_pos hzero]
    rw [heq]
    have hinitial : dictNextPower dictHtInitialSize < intLimit := by decide
    exact ⟨_, rfl, .alloc0 hok hre hzero _, dictNextPower_pos dictHtInitialSize, ⟨hinitial, hsmall.ht1.le⟩, Or.inr hre⟩
  rw [if_neg hzero]
  by_cases hgrow : d.ht0.size ≤ d.ht0.used ∧ (canResize = true ∨ dictForceResizeRatio < d.ht0.used / d.ht0.size)
  · rw [if_pos hgrow, if_neg (by omega)]
    have hfail : (d.isRehashing || decide (d.ht0.used * 2 < d.ht0.used)) = false := by
      rw [Dict.not_isRehashing_iff.2 hre, decide_eq_false (by omega)]
      rfl
    have heq : dictExpand d (d.ht0.used * 2) = (true, { d with ht1 := .alloc (dictNextPower (d.ht0.used * 2)), rehashidx := some 0 }) := by
      unfold dictExpand
      rw [hfail, if_neg Bool.false_ne_true, if_neg hzero]
    rw [heq]
    have hused := hsmall.used
    exact ⟨_, rfl, .alloc1 hok hre (Nat.pos_of_ne_zero hzero) (dictNextPower_pos _), Nat.pos_of_ne_zero hzero,
      ⟨hsmall.ht0, dictNextPower_le (by omega)⟩, Or.inr hre⟩
  · rw [if_neg hgrow]
    exact ⟨d, rfl, .refl hok, Nat.pos_of_ne_zero hzero, hsmall.fits, Or.inl rfl⟩

theorem DictHt.Ok.find_none (hok : t.Ok ty) (h : (t.table (t.slot ty k)).find? (fun e => ty.keyCompare k e.1) = none) :
    ∀ e ∈ t.entries, ty.keyCompare k e.1 = false := by
  intro e he
  by_contra hc
  have hk := Bool.not_eq_false _ ▸ hc
  exact List.find?_eq_none.1 h e (hok.find he hk) hk

/-- **A key is where its hash says, in one of the two tables, or nowhere.** -/
theorem searchTables_spec (hok : d.Ok ty) (hpos : 0 < d.ht0.size) (k : K) :
    (searchTables ty d k = some none ∧ ∀ e ∈ d.entries, ty.keyCompare k e.1 = false) ∨ (∃ e, searchTables ty d k = some (some (false, e)) ∧
      (d.ht0.table (d.ht0.slot ty k)).find? (fun e => ty.keyCompare k e.1) = some e) ∨
    (∃ e, searchTables ty d k = some (some (true, e)) ∧ 0 < d.ht1.size ∧
      (d.ht1.table (d.ht1.slot ty k)).find? (fun e => ty.keyCompare k e.1) = some e) := by
  unfold searchTables DictHt.bucket
  rw [if_pos (DictHt.slot_lt hpos)]
  dsimp only
  cases h0 : (d.ht0.table (d.ht0.slot ty k)).find? (fun e => ty.keyCompare k e.1) with
  | some e => exact Or.inr (Or.inl ⟨e, rfl, rfl⟩)
  | none =>
    by_cases hre : d.isRehashing = true
    · rw [if_pos hre]
      obtain ⟨n, hn⟩ := Dict.isRehashing_iff.1 hre
      have hpos1 := (hok.busy n hn).2.1
      rw [if_pos (DictHt.slot_lt hpos1), map_some]
      cases h1 : (d.ht1.table (d.ht1.slot ty k)).find? (fun e => ty.keyCompare k e.1) with
      | some e => exact Or.inr (Or.inr ⟨e, rfl, hpos1, rfl⟩)
      | none =>
        refine Or.inl ⟨rfl, fun e he => ?_⟩
        rcases mem_append.1 he with he | he
        · exact hok.ht0.find_none h0 e he
        · exact hok.ht1.find_none h1 e he
    · rw [if_neg hre]
      rw [Bool.not_eq_true, Dict.not_isRehashing_iff] at hre
      refine Or.inl ⟨rfl, fun e he => ?_⟩
      rw [hok.entries_idle hre] at he
      exact hok.ht0.find_none h0 e he

theorem DictHt.mem_of_find (h : 0 < t.size) (he : (t.table (t.slot ty k)).find? (fun e => ty.keyCompare k e.1) = some e) :
    e ∈ t.entries ∧ ty.keyCompare k e.1 = true :=
  ⟨DictHt.mem_entries.2 ⟨_, DictHt.slot_lt h, List.mem_of_find?_eq_some he⟩, List.find?_some (p := fun e : K × V => ty.keyCompare k e.1) he⟩

theorem searchTables_lookup (hok : d.Ok ty) (hpos : 0 < d.ht0.size) (k : K) :
    ∃ found, searchTables ty d k = some found ∧ (found.map Prod.snd).map Prod.snd = lookup ty.keyCompare k d.entries := by
  rcases searchTables_spec hok hpos k with ⟨h, hnone⟩ | ⟨e, h, hfind⟩ | ⟨e, h, hpos1, hfind⟩
  · exact ⟨none, h, (lookup_eq_none.2 hnone).symm⟩
  · obtain ⟨hmem, hk⟩ := DictHt.mem_of_find hpos hfind
    exact ⟨_, h, ((lookup_eq_some ty.equiv hok.distinct).2 ⟨e, mem_append_left _ hmem, hk, rfl⟩).symm⟩
  · obtain ⟨hmem, hk⟩ := DictHt.mem_of_find hpos1 hfind
    exact ⟨_, h, ((lookup_eq_some ty.equiv hok.distinct).2 ⟨e, mem_append_right _ hmem, hk, rfl⟩).symm⟩

theorem Dict.Ok.lookup_empty (hok : d.Ok ty) (hzero : d.ht0.size = 0) (k : K) : lookup ty.keyCompare k d.entries = none := by
  have hidle : d.rehashidx = none := by
    by_contra hne
    obtain ⟨n, hn⟩ := ne_none_iff_exists'.1 hne
    have := (hok.busy n hn).1
    omega
  rw [hok.entries_idle hidle, DictHt.entries_of_size hzero]
  rfl

/-- **`dictFind` returns the value of the key.** -/
theorem dictFind_spec (hok : d.Ok ty) (hsmall : d.ht0.size < intLimit) (k : K) :
    ∃ found d', dictFind ty d k = some (found, d') ∧ found.map Prod.snd = lookup ty.keyCompare k d.entries ∧ d.Kept ty d' := by
  unfold dictFind
  by_cases hzero : d.ht0.size = 0
  · rw [if_pos hzero]
    exact ⟨none, d, rfl, (hok.lookup_empty hzero k).symm, .refl hok⟩
  · rw [if_neg hzero]
    obtain ⟨d', h1, h2, h3, -⟩ := dictRehashStep_kept hok hsmall
    obtain ⟨found, h4, h5⟩ := searchTables_lookup h2.ok (h3 (Nat.pos_of_ne_zero hzero)) k
    rw [h1]
    dsimp only
    rw [h4]
    exact ⟨found.map Prod.snd, d', rfl, h5.trans h2.lookup, h2⟩

structure Dict.Set (ty : DictType K) (k : K) (v : V) (d d' : Dict K V) : Prop where
  ok : d'.Ok ty
  iterators : d'.iterators = d.iterators
  entries : ∃ e l, ty.keyCompare k e.1 = true ∧ d.entries.Perm (e :: l) ∧ d'.entries.Perm ((e.1, v) :: l)

theorem DictType.keyCompare_congr {k' : K} (h : ty.keyCompare k k' = true) (a : K) : ty.keyCompare a k = ty.keyCompare a k' := by
  cases hc : ty.keyCompare a k' with
  | true => exact ty.equiv.trans _ _ _ hc (ty.equiv.symm _ _ h)
  | false =>
    by_contra hne
    rw [ty.equiv.trans a k k' (Bool.not_eq_false _ ▸ hne) h] at hc
    cases hc

theorem Dict.Set.lookup (hok : d.Ok ty) (h : Dict.Set ty k v d d') (k' : K) :
    lookup ty.keyCompare k' d'.entries = if ty.keyCompare k' k = true then some v else lookup ty.keyCompare k' d.entries := by
  obtain ⟨e, l, hk, h1, h2⟩ := h.entries
  rw [lookup_perm ty.equiv h.ok.distinct h2, lookup_set ty.equiv hok.distinct h1]
  rw [← DictType.keyCompare_congr hk k']

theorem dictSetVal_spec {second : Bool} (hok : d.Ok ty) (hpos : 0 < d.ht0.size) (h : searchTables ty d k = some (some (second, e))) (v : V) :
    Dict.Set ty k v d (dictSetVal ty d second k v) := by
  rcases searchTables_spec hok hpos k with ⟨h', -⟩ | ⟨e', h', hfind⟩ | ⟨e', h', hpos1, hfind⟩
  · rw [h] at h'
    cases h'
  · rw [h] at h'
    cases h'
    obtain ⟨g1, l, g2, g3⟩ := hok.ht0.setVal (DictHt.slot_lt hpos) hfind v
    have hk := (DictHt.mem_of_find hpos hfind).2
    have hold : d.entries.Perm (e :: (l ++ d.ht1.entries)) := g2.append_right _
    have hnew : (dictSetVal ty d false k v).entries.Perm ((e.1, v) :: (l ++ d.ht1.entries)) := g3.append_right _
    refine ⟨⟨g1, hok.ht1, ?_, hok.idle, fun n hn => ?_⟩, rfl, e, _, hk, hold, hnew⟩
    · exact (DistinctKeys.set (hok.distinct.perm ty.equiv hold) v).perm ty.equiv hnew.symm
    · obtain ⟨k1, k2, k3⟩ := hok.busy n hn
      refine ⟨k1, k2, fun i hi => ?_⟩
      have hne : i ≠ d.ht0.slot ty k := by
        rintro rfl
        rw [k3 _ hi] at hfind
        cases hfind
      exact (update_of_ne hne _ _).trans (k3 i hi)
  · rw [h] at h'
    cases h'
    obtain ⟨g1, l, g2, g3⟩ := hok.ht1.setVal (DictHt.slot_lt hpos1) hfind v
    have hk := (DictHt.mem_of_find hpos1 hfind).2
    have hold : d.entries.Perm (e :: (d.ht0.entries ++ l)) := (g2.append_left _).trans perm_middle
    have hnew : (dictSetVal ty d true k v).entries.Perm ((e.1, v) :: (d.ht0.entries ++ l)) := (g3.append_left _).trans perm_middle
    refine ⟨⟨hok.ht0, g1, ?_, fun hidle => ?_, hok.busy⟩, rfl, e, _, hk, hold, hnew⟩
    · exact (DistinctKeys.set (hok.distinct.perm ty.equiv hold) v).perm ty.equiv hnew.symm
    · rw [hok.idle hidle] at hpos1
      cases hpos1

/-- **`dictFind` and `dictSetVal`** set the value of a key that is there. -/
theorem dictFindSet_spec (hok : d.Ok ty) (hsmall : d.ht0.size < intLimit) (k : K) (v : V) :
    ∃ found d', dictFindSet ty d k v = some (found, d') ∧ found = (lookup ty.keyCompare k d.entries).isSome ∧
      (found = true → Dict.Set ty k v d d') ∧ (found = false → d.Kept ty d' ∧ (d.Small → d'.Small)) := by
  unfold dictFindSet
  by_cases hzero : d.ht0.size = 0
  · rw [if_pos hzero]
    exact ⟨false, d, rfl, by rw [hok.lookup_empty hzero k]; rfl, fun h => (by cases h), fun _ => ⟨.refl hok, id⟩⟩
  rw [if_neg hzero]
  obtain ⟨d', h1, h2, h3, h4⟩ := dictRehashStep_kept hok hsmall
  have hpos := h3 (Nat.pos_of_ne_zero hzero)
  obtain ⟨found, g1, g2⟩ := searchTables_lookup h2.ok hpos k
  rw [h1]
  dsimp only
  rw [g1, ← h2.lookup, ← g2]
  cases found with
  | none => exact ⟨false, d', rfl, rfl, fun h => (by cases h), fun _ => ⟨h2, h4⟩⟩
  | some r =>
    have hset := dictSetVal_spec h2.ok hpos g1 v
    obtain ⟨e', l, k1, k2, k3⟩ := hset.entries
    exact ⟨true, _, rfl, rfl, fun _ => ⟨hset.ok, hset.iterators.trans h2.iterators, e', l, k1, h2.entries.symm.trans k2, k3⟩,
      fun h => (by cases h)⟩

structure Dict.Added (ty : DictType K) (k : K) (v : V) (d d' : Dict K V) : Prop where
  ok : d'.Ok ty
  iterators : d'.iterators = d.iterators
  entries : d'.entries.Perm ((k, v) :: d.entries)
  second : d'.isRehashing = true → ∀ e ∈ d'.ht0.entries, ty.keyCompare k e.1 = false

theorem Dict.Added.lookup (h : Dict.Added ty k v d d') (k' : K) :
    lookup ty.keyCompare k' d'.entries = if ty.keyCompare k' k = true then some v else lookup ty.keyCompare k' d.entries := by
  rw [lookup_perm ty.equiv h.ok.distinct h.entries, lookup_cons]

theorem Dict.Ok.added (hok : d.Ok ty) (hpos : 0 < d.ht0.size) (hnew : ∀ e ∈ d.entries, ty.keyCompare k e.1 = false) (v : V) :
    Dict.Added ty k v d (if d.isRehashing then { d with ht1 := d.ht1.push (d.ht1.slot ty k) (k, v) }
      else { d with ht0 := d.ht0.push (d.ht0.slot ty k) (k, v) }) := by
  have hdistinct : DistinctKeys ty.keyCompare ((k, v) :: d.entries) := pairwise_cons.2 ⟨hnew, hok.distinct⟩
  by_cases hre : d.isRehashing = true
  · rw [if_pos hre]
    obtain ⟨n, hn⟩ := Dict.isRehashing_iff.1 hre
    obtain ⟨-, hpos1, hbelow⟩ := hok.busy n hn
    obtain ⟨h1, h2⟩ := hok.ht1.push hpos1 (k, v)
    have hentries : d.ht0.entries ++ (d.ht1.push (d.ht1.slot ty k) (k, v)).entries |>.Perm ((k, v) :: d.entries) :=
      (h2.append_left _).trans perm_middle
    refine ⟨⟨hok.ht0, h1, hdistinct.perm ty.equiv hentries.symm, fun hidle => ?_, hok.busy⟩, rfl, hentries,
      fun _ e he => hnew e (mem_append_left _ he)⟩
    rw [show d.rehashidx = none from hidle] at hn
    cases hn
  · rw [if_neg hre]
    have hidle := Dict.not_isRehashing_iff.1 (Bool.not_eq_true _ ▸ hre)
    obtain ⟨h1, h2⟩ := hok.ht0.push hpos (k, v)
    have hentries : (d.ht0.push (d.ht0.slot ty k) (k, v)).entries ++ d.ht1.entries |>.Perm ((k, v) :: d.entries) := h2.append_right _
    refine ⟨⟨h1, hok.ht1, hdistinct.perm ty.equiv hentries.symm, hok.idle, fun n hn => ?_⟩, rfl, hentries, fun h => absurd h hre⟩
    rw [show d.rehashidx = some n from hn] at hidle
    cases hidle

theorem toInt_of_lt {n : ℕ} (h : n < intLimit) : toInt n = n := if_pos h

theorem addEntry_of_lt {n : ℕ} (h : n < intLimit) (d : Dict K V) (e : K × V) :
    addEntry d (toInt n) e = some (true, if d.isRehashing then { d with ht1 := d.ht1.push n e } else { d with ht0 := d.ht0.push n e }) := by
  rw [toInt_of_lt h]
  unfold addEntry
  rw [if_neg (by omega), if_neg (by omega), Int.toNat_natCast]

/-- **`dictAddRaw` adds exactly the keys that are new.** -/
theorem dictAddRaw_spec (canResize : Bool) (hok : d.Ok ty) (hsmall : d.Small) (k : K) (v : V) :
    ∃ added d', dictAddRaw ty canResize d k v = some (added, d') ∧ added = (lookup ty.keyCompare k d.entries).isNone ∧
      (added = true → Dict.Added ty k v d d') ∧ (added = false → d.Kept ty d' ∧ d'.ht0.size < intLimit) := by
  obtain ⟨d1, h1, h2, -, h4⟩ := dictRehashStep_kept hok hsmall.ht0
  obtain ⟨d2, g1, g2, g3, g4, -⟩ := dictExpandIfNeeded_kept canResize h2.ok (h4 hsmall)
  have hkept := h2.trans g2
  unfold dictAddRaw dictKeyIndex
  rw [h1]
  dsimp only
  rw [g1]
  dsimp only
  rcases searchTables_spec g2.ok g3 k with ⟨hsearch, hnew⟩ | ⟨e, hsearch, -⟩ | ⟨e, hsearch, -, -⟩
  · -- the key is new, and its bucket has a number that is an `int`
    have hslot : (if d2.isRehashing then d2.ht1.slot ty k else d2.ht0.slot ty k) < intLimit := by
      by_cases hre : d2.isRehashing = true
      · rw [if_pos hre]
        obtain ⟨n, hn⟩ := Dict.isRehashing_iff.1 hre
        exact (DictHt.slot_lt (g2.ok.busy n hn).2.1).trans_le g4.ht1
      · rw [if_neg hre]
        exact (DictHt.slot_lt g3).trans g4.ht0
    have hadded := g2.ok.added g3 hnew v
    rw [hsearch, map_some]
    dsimp only
    rw [addEntry_of_lt hslot]
    refine ⟨true, _, rfl, ?_, fun _ => ?_, fun h => (by cases h)⟩
    · rw [← hkept.lookup, lookup_eq_none.2 hnew]
      rfl
    · have heq : ∀ i j, i = (if d2.isRehashing then d2.ht1.slot ty k else d2.ht0.slot ty k) → j = d2 →
          (if j.isRehashing then { j with ht1 := j.ht1.push i (k, v) } else { j with ht0 := j.ht0.push i (k, v) } : Dict K V) =
          if d2.isRehashing then { d2 with ht1 := d2.ht1.push (d2.ht1.slot ty k) (k, v) }
            else { d2 with ht0 := d2.ht0.push (d2.ht0.slot ty k) (k, v) } := by
        rintro i j rfl rfl
        by_cases hre : j.isRehashing = true
        · rw [if_pos hre, if_pos hre, if_pos hre]
        · rw [if_neg hre, if_neg hre, if_neg hre]
      rw [heq _ _ rfl rfl]
      exact ⟨hadded.ok, hadded.iterators.trans hkept.iterators, hadded.entries.trans (hkept.entries.cons _), hadded.second⟩
  all_goals
    -- the key is there
    have hsome : (lookup ty.keyCompare k d2.entries).isNone = false := by
      obtain ⟨found, k1, k2⟩ := searchTables_lookup g2.ok g3 k
      rw [hsearch] at k1
      cases k1
      rw [← k2]
      rfl
    rw [hsearch, map_some]
    refine ⟨false, d2, rfl, ?_, fun h => (by cases h), fun _ => ⟨hkept, g4.ht0⟩⟩
    rw [← hkept.lookup, hsome]

/-- **`dictReplace`** adds a new key, or sets the value of a key that is there. -/
theorem dictReplace_spec (canResize : Bool) (hok : d.Ok ty) (hsmall : d.Small) (k : K) (v : V) :
    ∃ added d', dictReplace ty canResize d k v = some (added, d') ∧ added = (lookup ty.keyCompare k d.entries).isNone ∧
      (added = true → Dict.Added ty k v d d') ∧ (added = false → Dict.Set ty k v d d') := by
  obtain ⟨added, d1, h1, h2, h3, h4⟩ := dictAddRaw_spec canResize hok hsmall k v
  unfold dictReplace dictAdd
  rw [h1]
  cases added with
  | true => exact ⟨true, d1, rfl, h2, h3, fun h => (by cases h)⟩
  | false =>
    -- the key is still there behind the failed addition
    obtain ⟨hkept, hsize⟩ := h4 rfl
    obtain ⟨found, d2, g1, g2, g3, -⟩ := dictFindSet_spec hkept.ok hsize k v
    have hfound : found = true := by
      rw [g2, hkept.lookup]
      cases hl : lookup ty.keyCompare k d.entries with
      | none =>
        rw [hl] at h2
        cases h2
      | some w => rfl
    subst hfound
    dsimp only
    rw [g1]
    obtain ⟨e, l, k1, k2, k3⟩ := (g3 rfl).entries
    exact ⟨false, d2, rfl, h2, fun h => (by cases h), fun _ => ⟨(g3 rfl).ok, (g3 rfl).iterators.trans hkept.iterators, e, l, k1,
      hkept.entries.symm.trans k2, k3⟩⟩

/-- **`dictReplaceRaw`** returns the entry of the key, a new one when there is none. -/
theorem dictReplaceRaw_spec (canResize : Bool) (hok : d.Ok ty) (hsmall : d.Small) (k : K) (v : V) :
    ∃ d', dictReplaceRaw ty canResize d k v = some (true, d') ∧ (lookup ty.keyCompare k d.entries = none → Dict.Added ty k v d d') ∧
      (lookup ty.keyCompare k d.entries ≠ none → Dict.Set ty k v d d') := by
  obtain ⟨found, d1, h1, h2, h3, h4⟩ := dictFindSet_spec hok hsmall.ht0 k v
  unfold dictReplaceRaw
  rw [h1]
  cases found with
  | true =>
    refine ⟨d1, rfl, fun hnone => ?_, fun _ => h3 rfl⟩
    rw [hnone] at h2
    cases h2
  | false =>
    have hnone : lookup ty.keyCompare k d.entries = none := isSome_eq_false_iff.1 h2.symm |> isNone_iff_eq_none.1
    obtain ⟨hkept, hsmall1⟩ := h4 rfl
    obtain ⟨added, d2, g1, g2, g3, -⟩ := dictAddRaw_spec canResize hkept.ok (hsmall1 hsmall) k v
    rw [hkept.lookup, hnone] at g2
    obtain rfl : added = true := g2
    have hadded := g3 rfl
    refine ⟨d2, g1, fun _ => ?_, fun hne => absurd hnone hne⟩
    exact ⟨hadded.ok, hadded.iterators.trans hkept.iterators, hadded.entries.trans (hkept.entries.cons _), hadded.second⟩

structure Dict.Deleted (ty : DictType K) (k : K) (d d' : Dict K V) : Prop where
  ok : d'.Ok ty
  iterators : d'.iterators = d.iterators
  entries : ∃ e, ty.keyCompare k e.1 = true ∧ d.entries.Perm (e :: d'.entries)

theorem Dict.Deleted.lookup (hok : d.Ok ty) (h : Dict.Deleted ty k d d') (k' : K) :
    lookup ty.keyCompare k' d'.entries = if ty.keyCompare k' k = true then none else lookup ty.keyCompare k' d.entries := by
  obtain ⟨e, hk, hperm⟩ := h.entries
  rw [lookup_erase ty.equiv hok.distinct hperm, DictType.keyCompare_congr hk]

/-- **`dictDelete` deletes exactly the keys that are there.** -/
theorem dictDelete_spec (hok : d.Ok ty) (hsmall : d.ht0.size < intLimit) (k : K) :
    ∃ deleted d', dictDelete ty d k = some (deleted, d') ∧ deleted = (lookup ty.keyCompare k d.entries).isSome ∧
      (deleted = true → Dict.Deleted ty k d d') ∧ (deleted = false → d.Kept ty d') := by
  unfold dictDelete
  by_cases hzero : d.ht0.size = 0
  · rw [if_pos hzero]
    exact ⟨false, d, rfl, by rw [hok.lookup_empty hzero k]; rfl, fun h => (by cases h), fun _ => .refl hok⟩
  rw [if_neg hzero]
  obtain ⟨d1, h1, h2, h3, -⟩ := dictRehashStep_kept hok hsmall
  have hpos := h3 (Nat.pos_of_ne_zero hzero)
  obtain ⟨found, g1, g2⟩ := searchTables_lookup h2.ok hpos k
  rw [h1, ← h2.lookup, ← g2]
  dsimp only
  rcases searchTables_spec h2.ok hpos k with ⟨hsearch, -⟩ | ⟨e, hsearch, hfind⟩ | ⟨e, hsearch, hpos1, hfind⟩
  · rw [hsearch] at g1 ⊢
    cases g1
    exact ⟨false, d1, rfl, rfl, fun h => (by cases h), fun _ => h2⟩
  · rw [hsearch] at g1 ⊢
    cases g1
    obtain ⟨k1, k2⟩ := h2.ok.ht0.unlink (DictHt.slot_lt hpos) hfind
    have hk := (DictHt.mem_of_find hpos hfind).2
    have hperm : d1.entries.Perm (e :: ((d1.ht0.unlink ty (d1.ht0.slot ty k) k).entries ++ d1.ht1.entries)) := k2.append_right _
    refine ⟨true, _, rfl, rfl, fun _ => ⟨⟨k1, h2.ok.ht1, ?_, h2.ok.idle, fun n hn => ?_⟩, h2.iterators, e, hk,
      h2.entries.symm.trans hperm⟩, fun h => (by cases h)⟩
    · exact (pairwise_cons.1 (h2.ok.distinct.perm ty.equiv hperm)).2
    · obtain ⟨m1, m2, m3⟩ := h2.ok.busy n hn
      refine ⟨m1, m2, fun i hi => ?_⟩
      have hne : i ≠ d1.ht0.slot ty k := by
        rintro rfl
        rw [m3 _ hi] at hfind
        cases hfind
      exact (update_of_ne hne _ _).trans (m3 i hi)
  · rw [hsearch] at g1 ⊢
    cases g1
    obtain ⟨k1, k2⟩ := h2.ok.ht1.unlink (DictHt.slot_lt hpos1) hfind
    have hk := (DictHt.mem_of_find hpos1 hfind).2
    have hperm : d1.entries.Perm (e :: (d1.ht0.entries ++ (d1.ht1.unlink ty (d1.ht1.slot ty k) k).entries)) :=
      (k2.append_left _).trans perm_middle
    refine ⟨true, _, rfl, rfl, fun _ => ⟨⟨h2.ok.ht0, k1, ?_, fun hidle => ?_, h2.ok.busy⟩, h2.iterators, e, hk,
      h2.entries.symm.trans hperm⟩, fun h => (by cases h)⟩
    · exact (pairwise_cons.1 (h2.ok.distinct.perm ty.equiv hperm)).2
    · rw [h2.ok.idle hidle] at hpos1
      cases hpos1

end KVStores.Redis
