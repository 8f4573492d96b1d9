import KVStores.Redis.DictIter

/-!
# Calls between two calls of `dictNext`
-/

namespace KVStores.Redis

open List Option Function

variable {K V : Type} {ty : DictType K} {t : DictHt K V} {d d' d'' : Dict K V} {k : K} {v : V} {e : K × V}

structure SameTables (d d' : Dict K V) : Prop where
  size0 : 0 < d.ht0.size → d'.ht0.size = d.ht0.size
  size1 : d.isRehashing = true → d'.ht1.size = d.ht1.size
  rehashing : d.isRehashing = true → d'.isRehashing = true
  iterators : d'.iterators = d.iterators

structure SameKeys (d d' : Dict K V) : Prop where
  tables : SameTables d d'
  keys : ∀ table m, d'.keys table m = d.keys table m

structure OneBucket (d d' : Dict K V) (table : Bool) (j : ℕ) (keys : List K) : Prop where
  tables : SameTables d d'
  bucket : d'.keys table j = keys
  others : ∀ table' m, (table' ≠ table ∨ m ≠ j) → d'.keys table' m = d.keys table' m

def Pushed (k : K) (d d' : Dict K V) : Prop := ∃ table j, OneBucket d d' table j (k :: d.keys table j)

def Erased (ty : DictType K) (k : K) (d d' : Dict K V) : Prop :=
  ∃ table j x a y, d.keys table j = x ++ a :: y ∧ ty.keyCompare k a = true ∧ OneBucket d d' table j (x ++ y)

theorem SameKeys.refl (d : Dict K V) : SameKeys d d := ⟨⟨fun _ => rfl, fun _ => rfl, id, rfl⟩, fun _ _ => rfl⟩

theorem SameTables.trans (h : SameTables d d') (h' : SameTables d' d'') : SameTables d d'' :=
  ⟨fun hp => (h'.size0 (by rw [h.size0 hp]; exact hp)).trans (h.size0 hp), fun hr => (h'.size1 (h.rehashing hr)).trans (h.size1 hr),
    fun hr => h'.rehashing (h.rehashing hr), h'.iterators.trans h.iterators⟩

theorem SameKeys.trans (h : SameKeys d d') (h' : SameKeys d' d'') : SameKeys d d'' :=
  ⟨h.tables.trans h'.tables, fun table m => (h'.keys table m).trans (h.keys table m)⟩

theorem SameKeys.pushed (h : SameKeys d d') (h' : Pushed k d' d'') : Pushed k d d'' := by
  obtain ⟨table, j, hb⟩ := h'
  refine ⟨table, j, h.tables.trans hb.tables, ?_, fun table' m hne => (hb.others table' m hne).trans (h.keys table' m)⟩
  rw [hb.bucket, h.keys]

theorem oneBucket_ht (d : Dict K V) (table : Bool) (j : ℕ) (l : List (K × V)) (used : ℕ) :
    OneBucket d (if table then { d with ht1 := ⟨Function.update d.ht1.table j l, d.ht1.size, used⟩ }
      else { d with ht0 := ⟨Function.update d.ht0.table j l, d.ht0.size, used⟩ }) table j (l.map Prod.fst) := by
  have hself : ∀ f : ℕ → List (K × V), Function.update f j l j = l := fun f => update_self j l f
  have hne : ∀ (f : ℕ → List (K × V)) m, m ≠ j → Function.update f j l m = f m := fun f m h => update_of_ne h l f
  cases table with
  | true =>
    refine ⟨⟨fun _ => rfl, fun _ => rfl, id, rfl⟩, congrArg (List.map Prod.fst) (hself d.ht1.table), fun table' m h => ?_⟩
    cases table' with
    | true => exact congrArg (List.map Prod.fst) (hne d.ht1.table m (h.resolve_left fun hc => hc rfl))
    | false => rfl
  | false =>
    refine ⟨⟨fun _ => rfl, fun _ => rfl, id, rfl⟩, congrArg (List.map Prod.fst) (hself d.ht0.table), fun table' m h => ?_⟩
    cases table' with
    | true => rfl
    | false => exact congrArg (List.map Prod.fst) (hne d.ht0.table m (h.resolve_left fun hc => hc rfl))

theorem setFirst_keys (ty : DictType K) (k : K) (v : V) (l : List (K × V)) : (DictHt.setFirst ty k v l).map Prod.fst = l.map Prod.fst := by
  induction l with
  | nil => rfl
  | cons e l ih =>
    rw [DictHt.setFirst]
    by_cases h : ty.keyCompare k e.1 = true
    · rw [if_pos h]
      rfl
    · rw [if_neg h, map_cons, map_cons, ih]

theorem OneBucket.same {table : Bool} {j : ℕ} (h : OneBucket d d' table j (d.keys table j)) : SameKeys d d' := by
  refine ⟨h.tables, fun table' m => ?_⟩
  by_cases hne : table' ≠ table ∨ m ≠ j
  · exact h.others table' m hne
  · rw [not_or, not_not, not_not] at hne
    rw [hne.1, hne.2]
    exact h.bucket

theorem dictSetVal_keys (d : Dict K V) (second : Bool) (k : K) (v : V) : SameKeys d (dictSetVal ty d second k v) := by
  have hb := oneBucket_ht d second ((d.ht second).slot ty k) (DictHt.setFirst ty k v ((d.ht second).table ((d.ht second).slot ty k)))
    (d.ht second).used
  rw [setFirst_keys] at hb
  cases second with
  | true => exact hb.same
  | false => exact hb.same

theorem dictExpand_keys (size : ℕ) (hok : d.Ok ty) : SameKeys d (dictExpand d size).2 := by
  rcases dictExpand_cases d size with h | ⟨hidle, ⟨hzero, h⟩ | ⟨-, h⟩⟩
  · rw [h]
    exact .refl d
  all_goals
    have hre := Dict.not_isRehashing_iff.2 hidle
    rw [h]
  · refine ⟨⟨fun hp => absurd hzero (Nat.pos_iff_ne_zero.1 hp), fun _ => rfl, id, rfl⟩, fun table m => ?_⟩
    cases table with
    | true => rfl
    | false => exact (hok.keys_outside (show (d.ht false).size ≤ m from hzero ▸ Nat.zero_le m)).symm
  · refine ⟨⟨fun _ => rfl, fun hc => ?_, fun _ => rfl, rfl⟩, fun table m => ?_⟩
    · rw [hre] at hc
      cases hc
    · cases table with
      | true => exact (hok.keys_idle hre m).symm
      | false => rfl

theorem dictResize_keys (canResize : Bool) (hok : d.Ok ty) : SameKeys d (dictResize canResize d).2 := by
  unfold dictResize
  by_cases hfail : (!canResize || d.isRehashing) = true
  · rw [if_pos hfail]
    exact .refl d
  · rw [if_neg hfail]
    exact dictExpand_keys _ hok

theorem dictExpandIfNeeded_keys (canResize : Bool) (hok : d.Ok ty) : SameKeys d (dictExpandIfNeeded canResize d).2 := by
  unfold dictExpandIfNeeded
  by_cases hre : d.isRehashing = true
  · rw [if_pos hre]
    exact .refl d
  rw [if_neg hre]
  by_cases hzero : d.ht0.size = 0
  · rw [if_pos hzero]
    exact dictExpand_keys _ hok
  rw [if_neg hzero]
  by_cases hgrow : d.ht0.size ≤ d.ht0.used ∧ (canResize = true ∨ dictForceResizeRatio < d.ht0.used / d.ht0.size)
  · rw [if_pos hgrow]
    exact dictExpand_keys _ hok
  · rw [if_neg hgrow]
    exact .refl d

section Iterators

variable (hiter : 0 < d.iterators)

include hiter

theorem dictRehashStep_idle : dictRehashStep ty d = some d := by
  unfold dictRehashStep
  rw [decide_eq_false (Nat.pos_iff_ne_zero.1 hiter), Bool.and_false, if_neg Bool.false_ne_true]

theorem dictFind_keys {found : Option (K × V)} (h : dictFind ty d k = some (found, d')) : SameKeys d d' := by
  unfold dictFind at h
  rw [dictRehashStep_idle hiter] at h
  by_cases hzero : d.ht0.size = 0
  · rw [if_pos hzero] at h
    cases h
    exact .refl d
  · rw [if_neg hzero] at h
    obtain ⟨r, -, hr⟩ := map_eq_some_iff.1 h
    cases hr
    exact .refl d

variable {found : Bool}

theorem dictFindSet_keys (h : dictFindSet ty d k v = some (found, d')) : SameKeys d d' := by
  unfold dictFindSet at h
  rw [dictRehashStep_idle hiter] at h
  by_cases hzero : d.ht0.size = 0
  · rw [if_pos hzero] at h
    cases h
    exact .refl d
  · rw [if_neg hzero] at h
    obtain ⟨r, -, hr⟩ := map_eq_some_iff.1 h
    cases r with
    | none =>
      cases hr
      exact .refl d
    | some r =>
      obtain ⟨second, e⟩ := r
      cases hr
      exact dictSetVal_keys d second k v

variable {canResize added : Bool}

theorem dictAddRaw_keys (hok : d.Ok ty) (h : dictAddRaw ty canResize d k v = some (added, d')) :
    (added = false ∧ SameKeys d d') ∨ (added = true ∧ Pushed k d d') := by
  unfold dictAddRaw at h
  rw [dictRehashStep_idle hiter] at h
  dsimp only at h
  -- the table for additions, which may be a new one
  have hindex : ∀ {index : ℤ} {d1 : Dict K V}, dictKeyIndex ty canResize d k = some (index, d1) → SameKeys d d1 := by
    intro index d1 hk
    have hkeys := dictExpandIfNeeded_keys canResize hok
    unfold dictKeyIndex at hk
    cases hexpand : dictExpandIfNeeded canResize d with
    | mk b d2 =>
      rw [hexpand] at hk hkeys
      cases b with
      | false =>
        cases hk
        exact hkeys
      | true =>
        obtain ⟨r, -, hr⟩ := map_eq_some_iff.1 hk
        cases r <;> cases hr <;> exact hkeys
  cases hk : dictKeyIndex ty canResize d k with
  | none =>
    rw [hk] at h
    cases h
  | some r =>
    obtain ⟨index, d1⟩ := r
    have hsame := hindex hk
    rw [hk] at h
    dsimp only at h
    unfold addEntry at h
    by_cases h1 : index = -1
    · rw [if_pos h1] at h
      cases h
      exact Or.inl ⟨rfl, hsame⟩
    rw [if_neg h1] at h
    by_cases h2 : index < 0
    · rw [if_pos h2] at h
      cases h
    rw [if_neg h2] at h
    cases h
    refine Or.inr ⟨rfl, hsame.pushed ⟨d1.isRehashing, index.toNat, ?_⟩⟩
    have hb := oneBucket_ht d1 d1.isRehashing index.toNat ((k, v) :: (d1.ht d1.isRehashing).table index.toNat)
      ((d1.ht d1.isRehashing).used + 1)
    cases hre : d1.isRehashing <;> rw [hre] at hb <;> exact hb

theorem dictReplace_keys (hok : d.Ok ty) (h : dictReplace ty canResize d k v = some (added, d')) :
    (added = false ∧ SameKeys d d') ∨ (added = true ∧ Pushed k d d') := by
  unfold dictReplace dictAdd at h
  cases hadd : dictAddRaw ty canResize d k v with
  | none =>
    rw [hadd] at h
    cases h
  | some r =>
    obtain ⟨b, d1⟩ := r
    have hkeys := dictAddRaw_keys hiter hok hadd
    rw [hadd] at h
    cases b with
    | true =>
      cases h
      exact hkeys
    | false =>
      have hsame := (hkeys.resolve_right fun hc => (by cases hc.1)).2
      dsimp only at h
      cases hset : dictFindSet ty d1 k v with
      | none =>
        rw [hset] at h
        cases h
      | some r =>
        obtain ⟨b, d2⟩ := r
        have hsame2 := dictFindSet_keys (by rw [hsame.tables.iterators]; exact hiter) hset
        rw [hset] at h
        cases b with
        | false => cases h
        | true =>
          cases h
          exact Or.inl ⟨rfl, hsame.trans hsame2⟩

theorem dictReplaceRaw_keys (hok : d.Ok ty) (hsmall : d.ht0.size < intLimit)
    (h : dictReplaceRaw ty canResize d k v = some (found, d')) : SameKeys d d' ∨ Pushed k d d' := by
  obtain ⟨b, d1, h1, -, -, h4⟩ := dictFindSet_spec hok hsmall k v
  have hsame := dictFindSet_keys hiter h1
  unfold dictReplaceRaw at h
  rw [h1] at h
  cases b with
  | true =>
    cases h
    exact Or.inl hsame
  | false =>
    rcases dictAddRaw_keys (by rw [hsame.tables.iterators]; exact hiter) (h4 rfl).1.ok h with ⟨-, h⟩ | ⟨-, h⟩
    · exact Or.inl (hsame.trans h)
    · exact Or.inr (hsame.pushed h)

theorem dictDelete_keys (hok : d.Ok ty) {deleted : Bool} (h : dictDelete ty d k = some (deleted, d')) : SameKeys d d' ∨ Erased ty k d d' := by
  unfold dictDelete at h
  rw [dictRehashStep_idle hiter] at h
  by_cases hzero : d.ht0.size = 0
  · rw [if_pos hzero] at h
    cases h
    exact Or.inl (.refl d)
  rw [if_neg hzero] at h
  dsimp only at h
  -- the entry is taken out of the chain in which it was found
  have herased : ∀ (table : Bool) {e : K × V}, ((d.ht table).table ((d.ht table).slot ty k)).find? (fun e => ty.keyCompare k e.1) = some e →
      Erased ty k d (if table then { d with ht1 := d.ht1.unlink ty (d.ht1.slot ty k) k } else { d with ht0 := d.ht0.unlink ty (d.ht0.slot ty k) k }) := by
    intro table e he
    obtain ⟨hk, x, y, hxy, hx⟩ := List.find?_eq_some_iff_append.1 he
    have herase : ((d.ht table).table ((d.ht table).slot ty k)).eraseP (fun e => ty.keyCompare k e.1) = x ++ y := by
      rw [hxy, eraseP_append_right _ fun a ha => by simpa using hx a ha, eraseP_cons_of_pos (p := fun e : K × V => ty.keyCompare k e.1) hk]
    have hb := oneBucket_ht d table ((d.ht table).slot ty k) (x ++ y) ((d.ht table).used - 1)
    rw [map_append] at hb
    refine ⟨table, (d.ht table).slot ty k, x.map Prod.fst, e.1, y.map Prod.fst, ?_, hk, ?_⟩
    · unfold Dict.keys
      rw [hxy, map_append, map_cons]
    · cases table with
      | true =>
        unfold DictHt.unlink
        rw [show (d.ht1.table (d.ht1.slot ty k)).eraseP (fun e => ty.keyCompare k e.1) = x ++ y from herase]
        exact hb
      | false =>
        unfold DictHt.unlink
        rw [show (d.ht0.table (d.ht0.slot ty k)).eraseP (fun e => ty.keyCompare k e.1) = x ++ y from herase]
        exact hb
  rcases searchTables_spec hok (Nat.pos_of_ne_zero hzero) k with ⟨hsearch, -⟩ | ⟨e, hsearch, hfind⟩ | ⟨e, hsearch, -, hfind⟩
  · rw [hsearch] at h
    cases h
    exact Or.inl (.refl d)
  · rw [hsearch] at h
    cases h
    exact Or.inr (herased false hfind)
  · rw [hsearch] at h
    cases h
    exact Or.inr (herased true hfind)

end Iterators

variable {s s' : DictState K V} {reply : DictReply V}

theorem DictState.of_answer {r : Option (Bool × Dict K V)} (h : s.answer r = some (reply, s')) : ∃ b, r = some (b, s'.dict) := by
  obtain ⟨⟨b, d⟩, hr, heq⟩ := map_eq_some_iff.1 h
  cases heq
  exact ⟨b, hr⟩

variable {c : DictCall K V}

/-- **A call between two calls of `dictNext`** leaves all keys, puts one in front of a bucket, or takes out the one that it deletes. -/
theorem dictCall_keys (hok : s.dict.Ok ty) (hsmall : s.dict.Small)
    (hiter : 0 < s.dict.iterators) (hc : ∀ n, c ≠ .rehash n) (h : dictCall ty s c = some (reply, s')) :
    SameKeys s.dict s'.dict ∨ (∃ k, Pushed k s.dict s'.dict) ∨ ∃ k, c = .delete k ∧ Erased ty k s.dict s'.dict := by
  cases c with
  | add k v =>
    obtain ⟨b, hr⟩ := DictState.of_answer h
    rcases dictAddRaw_keys hiter hok hr with ⟨-, h⟩ | ⟨-, h⟩
    · exact Or.inl h
    · exact Or.inr (Or.inl ⟨k, h⟩)
  | addRaw k v =>
    obtain ⟨b, hr⟩ := DictState.of_answer h
    rcases dictAddRaw_keys hiter hok hr with ⟨-, h⟩ | ⟨-, h⟩
    · exact Or.inl h
    · exact Or.inr (Or.inl ⟨k, h⟩)
  | replace k v =>
    obtain ⟨b, hr⟩ := DictState.of_answer h
    rcases dictReplace_keys hiter hok hr with ⟨-, h⟩ | ⟨-, h⟩
    · exact Or.inl h
    · exact Or.inr (Or.inl ⟨k, h⟩)
  | replaceRaw k v =>
    obtain ⟨b, hr⟩ := DictState.of_answer h
    exact (dictReplaceRaw_keys hiter hok hsmall.ht0 hr).imp_right fun h => Or.inl ⟨k, h⟩
  | delete k =>
    obtain ⟨b, hr⟩ := DictState.of_answer h
    exact (dictDelete_keys hiter hok hr).imp_right fun h => Or.inr ⟨k, rfl, h⟩
  | find k =>
    obtain ⟨⟨found, d⟩, hr, heq⟩ := map_eq_some_iff.1 h
    cases heq
    exact Or.inl (dictFind_keys hiter hr)
  | resize =>
    cases h
    exact Or.inl (dictResize_keys s.canResize hok)
  | expand size =>
    cases h
    exact Or.inl (dictExpand_keys size hok)
  | rehash n => exact absurd rfl (hc n)
  | enableResize =>
    cases h
    exact Or.inl (.refl _)
  | disableResize =>
    cases h
    exact Or.inl (.refl _)

def Has (ty : DictType K) (k : K) (d : Dict K V) : Prop := ∃ table m, ∃ a ∈ d.keys table m, ty.keyCompare k a = true

theorem has_iff (hok : d.Ok ty) : Has ty k d ↔ lookup ty.keyCompare k d.entries ≠ none := by
  constructor
  · rintro ⟨table, m, a, ha, hk⟩ hnone
    obtain ⟨e, he, rfl⟩ := List.mem_map.1 ha
    rw [lookup_eq_none.1 hnone e (hok.mem_entries he)] at hk
    cases hk
  · intro hne
    by_contra hno
    refine hne (lookup_eq_none.2 fun e he => ?_)
    obtain ⟨table, m, hm⟩ := Dict.Ok.exists_keys he
    by_contra hk
    exact hno ⟨table, m, e.1, List.mem_map_of_mem hm, Bool.not_eq_false _ ▸ hk⟩

theorem Pushed.new (h : Pushed k d d') (hok' : d'.Ok ty) : ¬ Has ty k d := by
  obtain ⟨table, j, hb⟩ := h
  rintro ⟨table', m, a, ha, hk⟩
  have hmem : k ∈ d'.keys table j := by
    rw [hb.bucket]
    exact mem_cons_self
  by_cases hne : table' ≠ table ∨ m ≠ j
  · rw [← hb.others table' m hne] at ha
    obtain ⟨h1, h2⟩ := hok'.keys_unique hmem ha hk
    exact hne.elim (fun hc => hc h1.symm) fun hc => hc h2.symm
  · rw [not_or, not_not, not_not] at hne
    have hpw := hok'.keys_pairwise table j
    rw [hb.bucket] at hpw
    rw [hne.1, hne.2] at ha
    rw [(pairwise_cons.1 hpw).1 a ha] at hk
    cases hk

variable {it : DictIterator K} {i : ℕ} {pre post : List K}

theorem Visiting.tables (hv : Visiting it d i pre post) (h : SameTables d d') {pre' : List K} (hkeys : d'.keys it.table i = pre' ++ post) :
    Visiting it d' i pre' post ∧ (d'.ht it.table).size = (d.ht it.table).size := by
  have hsize : (d'.ht it.table).size = (d.ht it.table).size := by
    have hinside := hv.inside
    cases htable : it.table with
    | true => exact h.size1 (hv.second htable)
    | false =>
      rw [htable] at hinside
      exact h.size0 ((Nat.zero_le i).trans_lt hinside)
  exact ⟨⟨hv.index, hv.entry, hsize ▸ hv.inside, hkeys, hv.next, fun ht => h.rehashing (hv.second ht)⟩, hsize⟩

/-- Which calls may stand between two calls of `dictNext`: the entry that was returned last may be deleted. -/
def CallAllowed (ty : DictType K) (last : Option K) : DictCall K V → Prop
  | .delete key => ∃ l, last = some l ∧ ty.keyCompare key l = true
  | .rehash _ => False
  | _ => True

/-- The entry that was returned last is gone behind its deletion. -/
def lastAfter (last : Option K) : DictCall K V → Option K
  | .delete _ => none
  | _ => last

structure Stayed (ty : DictType K) (it : DictIterator K) (last : Option K) (post : List K) (c : DictCall K V) (d d' : Dict K V) : Prop where
  visiting : ∃ i pre, Visiting it d' i pre post ∧ ∀ l, lastAfter last c = some l → l ∈ pre
  size : (d'.ht it.table).size = (d.ht it.table).size
  ahead : ∀ a, it.Pending d post a → it.Pending d' post a
  behind : ∀ a, it.Pending d' post a → it.Pending d post a ∨ ¬ Has ty a d
  iterators : d'.iterators = d.iterators
  has : ∀ k, (∀ key, c = .delete key → ty.keyCompare key k = false) → Has ty k d → Has ty k d'

variable {last : Option K}

theorem lastAfter_eq {l : K} (h : lastAfter last c = some l) : last = some l := by
  cases c <;> first | exact h | cases h

theorem stayed_same (hv : Visiting it d i pre post) (hl : ∀ l, last = some l → l ∈ pre) (h : SameKeys d d') :
    Stayed ty it last post c d d' := by
  obtain ⟨hv', hsize⟩ := hv.tables h.tables ((h.keys it.table i).trans hv.keys)
  have hpending : ∀ a, it.Pending d' post a ↔ it.Pending d post a := by
    intro a
    unfold DictIterator.Pending Ahead
    simp only [h.keys]
  refine ⟨⟨i, pre, hv', fun l hc => hl l (lastAfter_eq hc)⟩, hsize, fun a => (hpending a).2, fun a ha => Or.inl ((hpending a).1 ha),
    h.tables.iterators, fun k _ hk => ?_⟩
  obtain ⟨table, m, a, ha, hka⟩ := hk
  exact ⟨table, m, a, by rwa [h.keys], hka⟩

theorem stayed_pushed (hok' : d'.Ok ty) (hv : Visiting it d i pre post)
    (hl : ∀ l, last = some l → l ∈ pre) (h : Pushed k d d') : Stayed ty it last post c d d' := by
  have hnew := h.new hok'
  obtain ⟨table, j, hb⟩ := h
  -- every bucket has its keys, and one has the new key in front
  have hkeys : ∀ table' m, d'.keys table' m = d.keys table' m ∨ d'.keys table' m = k :: d.keys table' m := by
    intro table' m
    by_cases hne : table' ≠ table ∨ m ≠ j
    · exact Or.inl (hb.others table' m hne)
    · rw [not_or, not_not, not_not] at hne
      rw [hne.1, hne.2]
      exact Or.inr hb.bucket
  have hsub : ∀ table' m a, a ∈ d.keys table' m → a ∈ d'.keys table' m := by
    intro table' m a ha
    rcases hkeys table' m with h | h
    · rwa [h]
    · rw [h]
      exact mem_cons_of_mem _ ha
  have hback : ∀ table' m a, a ∈ d'.keys table' m → a ∈ d.keys table' m ∨ a = k := by
    intro table' m a ha
    rcases hkeys table' m with h | h
    · exact Or.inl (h ▸ ha)
    · rw [h] at ha
      exact (mem_cons.1 ha).symm
  obtain ⟨pre', hpre', hv', hsize⟩ : ∃ pre', (∀ a, a ∈ pre → a ∈ pre') ∧ Visiting it d' i pre' post ∧
      (d'.ht it.table).size = (d.ht it.table).size := by
    rcases hkeys it.table i with h | h
    · exact ⟨pre, fun _ => id, hv.tables hb.tables (h.trans hv.keys)⟩
    · exact ⟨k :: pre, fun _ => mem_cons_of_mem _, hv.tables hb.tables (by rw [h, hv.keys]; rfl)⟩
  refine ⟨⟨i, pre', hv', fun l hc => hpre' l (hl l (lastAfter_eq hc))⟩, hsize, fun a ha => ?_, fun a ha => ?_, hb.tables.iterators,
    fun k _ ⟨table, m, a, ha, hka⟩ => ⟨table, m, a, hsub table m a ha, hka⟩⟩
  · rcases ha with ha | ⟨m, hm, ha⟩ | ⟨ht, m, ha⟩
    · exact Or.inl ha
    · exact Or.inr (Or.inl ⟨m, hm, hsub _ m a ha⟩)
    · exact Or.inr (Or.inr ⟨ht, m, hsub _ m a ha⟩)
  · rcases ha with ha | ⟨m, hm, ha⟩ | ⟨ht, m, ha⟩
    · exact Or.inl (Or.inl ha)
    · rcases hback _ m a ha with ha | rfl
      · exact Or.inl (Or.inr (Or.inl ⟨m, hm, ha⟩))
      · exact Or.inr hnew
    · rcases hback _ m a ha with ha | rfl
      · exact Or.inl (Or.inr (Or.inr ⟨ht, m, ha⟩))
      · exact Or.inr hnew

theorem stayed_erased (hok : d.Ok ty) (hv : Visiting it d i pre post) (hl : ∀ l, last = some l → l ∈ pre)
    (hlast : ∃ l, last = some l ∧ ty.keyCompare k l = true) (h : Erased ty k d d') : Stayed ty it last post (.delete k) d d' := by
  obtain ⟨l, hlast, hkl⟩ := hlast
  have hl := hl l hlast
  obtain ⟨table, j, x, a, y, hxy, hka, hb⟩ := h
  have hla : ty.keyCompare l a = true := ty.equiv.trans _ _ _ (ty.equiv.symm _ _ hkl) hka
  have ha : a ∈ d.keys table j := by
    rw [hxy]
    exact mem_append_right _ mem_cons_self
  have hlmem : l ∈ d.keys it.table i := by
    rw [hv.keys]
    exact mem_append_left _ hl
  obtain ⟨rfl, rfl⟩ := hok.keys_unique hlmem ha hla
  -- the key that is taken out is one that the iterator has passed
  obtain ⟨pre', rfl⟩ : ∃ pre', y = pre' ++ post := by
    have hsplit := hv.keys.symm.trans hxy
    rcases append_eq_append_iff.1 hsplit with ⟨z, hx, hpost⟩ | ⟨z, hpre, hcons⟩
    · have hpw := hok.keys_pairwise it.table i
      rw [hv.keys] at hpw
      have hmem : a ∈ post := by
        rw [hpost]
        exact mem_append_right _ mem_cons_self
      rw [(pairwise_append.1 hpw).2.2 l hl a hmem] at hla
      cases hla
    · cases z with
      | nil =>
        have hpw := hok.keys_pairwise it.table i
        rw [hv.keys] at hpw
        have hmem : a ∈ post := by
          rw [nil_append] at hcons
          rw [← hcons]
          exact mem_cons_self
        rw [(pairwise_append.1 hpw).2.2 l hl a hmem] at hla
        cases hla
      | cons b z =>
        exact ⟨z, (List.cons.inj hcons).2⟩
  obtain ⟨hv', hsize⟩ := hv.tables hb.tables (by rw [hb.bucket, append_assoc])
  have hpending : ∀ b, it.Pending d' post b ↔ it.Pending d post b := by
    intro b
    refine or_congr_right (or_congr (exists_congr fun m => and_congr_right fun hm => ?_) (and_congr_right fun ht => exists_congr fun m => ?_))
    · rw [hb.others it.table m (Or.inr (by have := hv.index; omega))]
    · rw [hb.others true m (Or.inl (by rw [ht]; exact Bool.noConfusion))]
  refine ⟨⟨i, _, hv', fun l hc => (by cases hc)⟩, hsize, fun b => (hpending b).2, fun b hp => Or.inl ((hpending b).1 hp),
    hb.tables.iterators, fun k' hk' ⟨table, m, b, hmem, hkb⟩ => ?_⟩
  refine ⟨table, m, b, ?_, hkb⟩
  by_cases hne : table ≠ it.table ∨ m ≠ i
  · rwa [hb.others table m hne]
  · rw [not_or, not_not, not_not] at hne
    rw [hne.1, hne.2] at hmem ⊢
    rw [hb.bucket]
    rw [hxy] at hmem
    rcases mem_append.1 hmem with hm | hm
    · exact mem_append_left _ hm
    · rcases mem_cons.1 hm with rfl | hm
      · -- the key itself is deleted
        have hkk' : ty.keyCompare k k' = true := ty.equiv.trans _ _ _ hka (ty.equiv.symm _ _ hkb)
        rw [hk' k rfl] at hkk'
        cases hkk'
      · exact mem_append_right _ hm

theorem stands_call (hok : s.dict.Ok ty) (hsmall : s.dict.Small)
    (hiter : 0 < s.dict.iterators) (hv : Visiting it s.dict i pre post) (hl : ∀ l, last = some l → l ∈ pre) (hc : CallAllowed ty last c) :
    ∃ reply s', dictCall ty s c = some (reply, s') ∧ s'.dict.Ok ty ∧ Stayed ty it last post c s.dict s'.dict := by
  have hgood : DictGood ty (fun k => lookup ty.keyCompare k s.dict.entries) s.dict := ⟨hok, fun _ => rfl⟩
  obtain ⟨reply, s', m', hcall, -, -, hgood'⟩ := dict_step hgood hsmall c
  refine ⟨reply, s', hcall, hgood'.ok, ?_⟩
  have hnot : ∀ n, c ≠ .rehash n := by
    rintro n rfl
    exact hc
  rcases dictCall_keys hok hsmall hiter hnot hcall with h | ⟨k, h⟩ | ⟨k, rfl, h⟩
  · exact stayed_same hv hl h
  · exact stayed_pushed hgood'.ok hv hl h
  · exact stayed_erased hok hv hl hc h

end KVStores.Redis
