import KVStores.Redis.SetResults

/-!
# What the commands on sets do
-/

namespace KVStores.Redis.SetType

open List Option Function

variable {server : Server} {db : Db} {D : PlainDb} {s : SetObj} {S : Finset (List UInt8)} {key dst : Sds} {keys : List Sds}

theorem MissingFirst.other (h : MissingFirst D keys) : AnyOther D keys := by
  induction keys with
  | nil => exact h.elim
  | cons key keys ih =>
    rw [anyOther_cons]
    rw [MissingFirst] at h
    cases hD : D key with
    | none =>
      rw [hD] at h
      exact Or.inr h
    | some p =>
      cases p with
      | other => exact Or.inl rfl
      | set S =>
        rw [hD] at h
        exact Or.inr (ih h)

theorem anyOther_iff (hkey : D key ≠ some .other) : AnyOther D (key :: keys) ↔ AnyOther D keys := anyOther_cons.trans (or_iff_right hkey)

/-- **What the loop finds**: a key of another type before any that is missing, one that is missing, or sets only. -/
theorem sinterLookup_spec (h : DbStands db D) : ∀ (keys : List Sds) (sets : List (Sds × SetObj)),
    (sinterLookup db keys sets = .wrongtype ∧ AnyOther D keys ∧ ¬ MissingFirst D keys) ∨
      (sinterLookup db keys sets = .missing ∧ (AnyOther D keys → MissingFirst D keys) ∧ ∃ key ∈ keys, membersOf D key = ∅) ∨
      (¬ AnyOther D keys ∧ ∃ l, sinterLookup db keys sets = .sets (sets ++ l) ∧ l.map Prod.fst = keys ∧ ∀ p ∈ l, p.2.Represents (membersOf D p.1)) := by
  intro keys
  induction keys with
  | nil =>
    intro sets
    refine Or.inr (Or.inr ⟨fun ⟨_, hin, _⟩ => absurd hin not_mem_nil, [], ?_, rfl, fun p hp => absurd hp not_mem_nil⟩)
    rw [sinterLookup, append_nil]
  | cons key keys ih =>
    intro sets
    rw [sinterLookup, MissingFirst]
    cases hdb : db key with
    | none =>
      obtain ⟨hD, hmembers⟩ := h.missing hdb
      rw [hD, anyOther_iff (fun he => by rw [hD] at he; cases he)]
      exact Or.inr (Or.inl ⟨rfl, id, key, mem_cons_self, hmembers⟩)
    | some o =>
      cases o with
      | other =>
        have hD := h.other hdb
        rw [hD]
        exact Or.inl ⟨rfl, anyOther_cons.2 (Or.inl hD), id⟩
      | set s =>
        obtain ⟨hD, hs, -⟩ := h.set hdb
        rw [hD, anyOther_iff (fun he => by rw [hD] at he; cases he)]
        obtain hwrong | ⟨hmissing, hfirst, k, hk, hempty⟩ | ⟨hother, l, hl, hfst, hrep⟩ := ih (sets ++ [(key, s)])
        · exact Or.inl hwrong
        · exact Or.inr (Or.inl ⟨hmissing, hfirst, k, mem_cons_of_mem _ hk, hempty⟩)
        · refine Or.inr (Or.inr ⟨hother, (key, s) :: l, ?_, ?_, forall_mem_cons.2 ⟨hs, hrep⟩⟩)
          · dsimp only
            rw [hl, append_assoc, singleton_append]
          · rw [map_cons, hfst]

theorem mem_inter {b : List UInt8} : ∀ (Ts : List (Finset (List UInt8))) (T : Finset (List UInt8)), b ∈ Ts.foldl (· ∩ ·) T ↔ b ∈ T ∧ ∀ T' ∈ Ts, b ∈ T' := by
  intro Ts
  induction Ts with
  | nil => exact fun T => (and_iff_left fun T' hT' => absurd hT' not_mem_nil).symm
  | cons T₁ Ts ih =>
    intro T
    rw [foldl_cons, ih, Finset.mem_inter, forall_mem_cons, and_assoc]

theorem mem_interOf {b : List UInt8} : b ∈ interOf D key keys ↔ ∀ k ∈ key :: keys, b ∈ membersOf D k := by
  rw [interOf, mem_inter, forall_mem_cons, List.forall_mem_map]

theorem interOf_empty {k : Sds} (hk : k ∈ key :: keys) (hempty : membersOf D k = ∅) : interOf D key keys = ∅ := by
  rw [Finset.eq_empty_iff_forall_notMem]
  intro b hb
  have hin := mem_interOf.1 hb k hk
  rw [hempty] at hin
  exact absurd hin (Finset.notMem_empty b)

theorem sinter_found {sets sorted : List (Sds × SetObj)} (hperm : sorted.Perm sets) (hfst : sets.map Prod.fst = key :: keys)
    (hrep : ∀ p ∈ sets, p.2.Represents (membersOf D p.1)) :
    ∃ first s others es found, sorted = (first, s) :: others ∧ setTypeElements s = some es ∧ sinterElements first others es = some found ∧
      (stringsOf found).Nodup ∧ (stringsOf found).toFinset = interOf D key keys := by
  have hrep' : ∀ p ∈ sorted, p.2.Represents (membersOf D p.1) := fun p hp => hrep p (hperm.mem_iff.1 hp)
  have hmem : ∀ b, (∀ p ∈ sorted, b ∈ membersOf D p.1) ↔ b ∈ interOf D key keys := by
    intro b
    rw [mem_interOf, ← hfst, List.forall_mem_map]
    exact forall_congr' fun p => imp_congr_left hperm.mem_iff
  cases sorted with
  | nil =>
    rw [← hperm.nil_eq] at hfst
    cases hfst
  | cons p others =>
    obtain ⟨first, s⟩ := p
    obtain ⟨hs, hothers⟩ := forall_mem_cons.1 hrep'
    obtain ⟨es, helements, hnodup, hset⟩ := setTypeElements_spec hs
    have hfirst : ∀ e ∈ es, getDecodedObject e.object ∈ membersOf D first := by
      intro e he
      rw [← hset, List.mem_toFinset]
      exact List.mem_map_of_mem he
    have hfound := sinterElements_spec hothers es (fun v hv => elements_long hs helements hv) hfirst
    refine ⟨first, s, others, es, _, rfl, helements, hfound, ?_, ?_⟩
    · exact hnodup.sublist (filter_sublist.map _)
    · ext b
      rw [← hmem b, forall_mem_cons, List.mem_toFinset, stringsOf, List.mem_map]
      constructor
      · rintro ⟨e, he, rfl⟩
        obtain ⟨he, hall⟩ := mem_filter.1 he
        exact ⟨hfirst e he, of_decide_eq_true hall⟩
      · rintro ⟨hb, hall⟩
        rw [← hset, List.mem_toFinset] at hb
        obtain ⟨e, he, rfl⟩ := List.mem_map.1 hb
        exact ⟨e, mem_filter.2 ⟨he, decide_eq_true hall⟩, rfl⟩

theorem sinter_right (h : DbStands db D) (key : Sds) (keys : List Sds) :
    Right ((SetCommand.sinter key keys).exec server db) ((SetCommand.sinter key keys).plain D) := by
  rw [SetCommand.exec, SetCommand.plain, readPlain, sinterGenericCommand]
  obtain ⟨hlookup, hother, -⟩ | ⟨hlookup, -, k, hk, hempty⟩ | ⟨hother, l, hlookup, hfst, hrep⟩ := sinterLookup_spec h (key :: keys) []
  · rw [hlookup, if_pos hother]
    exact right_other h _ rfl
  · rw [hlookup, interOf_empty hk hempty]
    by_cases hother : AnyOther D (key :: keys)
    · rw [if_pos hother]
      exact right_other h _ rfl
    · rw [if_neg hother]
      exact right_iff.2 ⟨h, [], rfl, nodup_nil, rfl⟩
  · obtain ⟨first, s, others, es, found, hsorted, helements, hfound, hnodup, hset⟩ := sinter_found (mergeSort_perm l _) hfst hrep
    rw [hlookup, if_neg hother, nil_append]
    dsimp only
    rw [hsorted]
    dsimp only
    rw [helements, bind_some, hfound, bind_some]
    exact right_iff.2 ⟨h, stringsOf found, by rw [stringsOf, length_map], hnodup, hset⟩

theorem sinterstore_right (hserver : server.Modest) (h : DbStands db D) (dst key : Sds) (keys : List Sds) :
    Right ((SetCommand.sinterstore dst key keys).exec server db) ((SetCommand.sinterstore dst key keys).plain D) ↔
      (SetCommand.sinterstore dst key keys).Kept D := by
  rw [SetCommand.exec, SetCommand.plain, SetCommand.Kept, storedPlain, sinterGenericCommand]
  obtain ⟨hlookup, hother, hfirst⟩ | ⟨hlookup, hfirst, k, hk, hempty⟩ | ⟨hother, l, hlookup, hfst, hrep⟩ := sinterLookup_spec h (key :: keys) []
  · rw [hlookup, if_pos hother]
    exact iff_of_true (right_other h _ rfl) fun hkept => hfirst hkept.1
  · rw [hlookup, interOf_empty hk hempty]
    dsimp only [Option.elim]
    rw [right_iff]
    by_cases hother : AnyOther D (key :: keys)
    · -- the target is deleted, though there is a key of another type
      rw [if_pos hother, and_iff_right (hfirst hother), not_not]
      constructor
      · rintro ⟨hdb, -⟩
        have hdst := hdb dst
        rw [dbDelete, update_self] at hdst
        exact hdst.unique .missing
      · intro hdst
        have hsame := h.update dst .missing
        rw [← hdst, update_eq_self] at hsame
        exact ⟨hsame, trivial⟩
    · rw [if_neg hother]
      exact iff_of_true ⟨h.update _ .missing, rfl⟩ fun hkept => hother hkept.1.other
  · obtain ⟨first, s, others, es, found, hsorted, helements, hfound, -, hset⟩ := sinter_found (mergeSort_perm l _) hfst hrep
    obtain ⟨dstset, hstore, hstored, hsmall⟩ := sinterStore_spec hserver found result_empty.represents result_empty.small
    rw [hset, Finset.empty_union] at hstored
    obtain ⟨hdb, hreply⟩ := storeResult_stands h dst hstored hsmall
    rw [hlookup, if_neg hother, nil_append]
    dsimp only
    rw [hsorted]
    dsimp only
    rw [helements, bind_some, hfound, bind_some, hstore, map_some]
    exact iff_of_true (right_iff.2 ⟨hdb, hreply⟩) fun hkept => hother hkept.1.other

theorem anyOther_single : AnyOther D [key] ↔ D key = some .other := by
  rw [anyOther_cons]
  exact or_iff_left fun ⟨_, hin, _⟩ => absurd hin not_mem_nil

theorem encoded_decoded (value : Sds) : getDecodedObject (tryObjectEncoding false (.raw value.1)) = value.1 := tryObjectEncoding_decoded false (.raw value.1)

theorem setTypeCreate_spec (value : Robj) : (setTypeCreate value).Represents ∅ ∧ (setTypeCreate value).Small := by
  rw [setTypeCreate]
  by_cases hint : (isObjectRepresentableAsLongLong value).isSome = true
  · rw [if_pos hint]
    exact ⟨result_empty.represents, result_empty.small⟩
  · rw [if_neg hint]
    refine ⟨.ht nodup_nil, ?_⟩
    rintro is h
    cases h

theorem strings_cons (value : Sds) (values : List Sds) : strings (value :: values) = insert value.1 (strings values) := by
  rw [strings, map_cons, toFinset_cons]
  rfl

/-- **The values are added**, and those that are new counted. -/
theorem saddLoop_spec (hserver : server.Modest) : ∀ (values : List Sds) {set : SetObj} {S : Finset (List UInt8)} (added : ℕ), set.Represents S → set.Small →
    ∃ set', saddLoop server values set added = some (set', added + ((S ∪ strings values).card - S.card)) ∧ set'.Represents (S ∪ strings values) ∧ set'.Small := by
  intro values
  induction values with
  | nil =>
    intro set S added h hsmall
    have hsame : S ∪ strings [] = S := Finset.union_empty S
    exact ⟨set, by rw [saddLoop, hsame, Nat.sub_self, Nat.add_zero], by rwa [hsame], hsmall⟩
  | cons value values ih =>
    intro set S added h hsmall
    have hroom := hsmall.hasRoom h (tryObjectEncoding false (.raw value.1))
    obtain ⟨set₁, hadd, h₁⟩ := setTypeAdd_spec server h (tryObjectEncoding false (.raw value.1)) hroom
    have hsmall₁ := setTypeAdd_small hserver h hsmall hroom hadd
    rw [encoded_decoded] at hadd h₁
    obtain ⟨set', hloop, h', hsmall'⟩ := ih (if decide (value.1 ∉ S) = true then added + 1 else added) h₁ hsmall₁
    have hunion : S ∪ strings (value :: values) = insert value.1 S ∪ strings values := by rw [strings_cons, Finset.union_insert, ← Finset.insert_union]
    rw [hunion]
    refine ⟨set', ?_, h', hsmall'⟩
    rw [saddLoop, hadd, bind_some, hloop]
    have hle : (insert value.1 S).card ≤ (insert value.1 S ∪ strings values).card := Finset.card_le_card Finset.subset_union_left
    congr 2
    by_cases hin : value.1 ∈ S
    · rw [decide_eq_false (not_not_intro hin), if_neg (Bool.noConfusion), Finset.insert_eq_of_mem hin]
    · have hcard := Finset.card_insert_of_notMem hin
      rw [decide_eq_true hin, if_pos rfl]
      omega

theorem sadd_right (hserver : server.Modest) (h : DbStands db D) (key value : Sds) (values : List Sds) :
    Right ((SetCommand.sadd key value values).exec server db) ((SetCommand.sadd key value values).plain D) := by
  rw [SetCommand.exec, SetCommand.plain, saddCommand]
  cases hdb : db key with
  | none =>
    obtain ⟨hD, hmembers⟩ := h.missing hdb
    have hother : ¬ AnyOther D [key] := fun h => by rw [anyOther_single, hD] at h; cases h
    obtain ⟨hnew, hsmall⟩ := setTypeCreate_spec (.raw value.1)
    obtain ⟨set', hloop, h', hsmall'⟩ := saddLoop_spec hserver (value :: values) 0 hnew hsmall
    rw [if_neg hother, hmembers]
    rw [hloop, map_some, right_iff, Nat.zero_add]
    exact ⟨h.update _ (.set h' hsmall'), rfl⟩
  | some o =>
    cases o with
    | other =>
      have hother : AnyOther D [key] := anyOther_single.2 (h.other hdb)
      rw [if_pos hother]
      exact right_other h _ rfl
    | set set =>
      obtain ⟨hD, hset, hsmall⟩ := h.set hdb
      have hother : ¬ AnyOther D [key] := fun h => by rw [anyOther_single, hD] at h; cases h
      obtain ⟨set', hloop, h', hsmall'⟩ := saddLoop_spec hserver (value :: values) 0 hset hsmall
      rw [if_neg hother]
      dsimp only
      rw [hloop, map_some, right_iff, Nat.zero_add]
      exact ⟨h.update _ (.set h' hsmall'), rfl⟩

/-- **The values are removed**, and those that were there counted; the loop ends when the set is empty. -/
theorem sremLoop_spec (server : Server) : ∀ (values : List Sds) {set : SetObj} {S : Finset (List UInt8)} (deleted : ℕ), set.Represents S → set.Small →
    ∃ set', sremLoop server values set deleted = some (set', deleted + (S.card - (S \ strings values).card), decide (S \ strings values = ∅ ∧ S ≠ ∅)) ∧
      set'.Represents (S \ strings values) ∧ set'.Small := by
  intro values
  induction values with
  | nil =>
    intro set S deleted h hsmall
    have hsame : S \ strings [] = S := Finset.sdiff_empty
    rw [hsame, Nat.sub_self, Nat.add_zero, decide_eq_false fun hempty => hempty.2 hempty.1]
    exact ⟨set, rfl, h, hsmall⟩
  | cons value values ih =>
    intro set S deleted h hsmall
    obtain ⟨set₁, hremove, h₁⟩ := setTypeRemove_spec server h (.raw value.1)
    have hsmall₁ := setTypeRemove_small h hsmall hremove
    have hvalue : getDecodedObject (.raw value.1) = value.1 := rfl
    rw [hvalue] at hremove h₁
    have hsdiff : S \ strings (value :: values) = S.erase value.1 \ strings values := by rw [strings_cons, Finset.sdiff_insert, ← Finset.erase_sdiff_comm]
    have hle : (S.erase value.1 \ strings values).card ≤ (S.erase value.1).card := Finset.card_le_card Finset.sdiff_subset
    rw [hsdiff, sremLoop, hremove, bind_some]
    by_cases hin : value.1 ∈ S
    · have hcard := Finset.card_erase_add_one hin
      rw [decide_eq_true hin, if_pos rfl, h₁.card]
      by_cases hempty : S.erase value.1 = ∅
      · -- nothing is left
        have hrest : S.erase value.1 \ strings values = ∅ := by rw [hempty, Finset.empty_sdiff]
        rw [if_pos (by rw [hempty, Finset.card_empty]), hrest, decide_eq_true ⟨rfl, Finset.ne_empty_of_mem hin⟩]
        rw [hempty, Finset.card_empty] at hcard
        refine ⟨set₁, ?_, by rwa [hempty] at h₁, hsmall₁⟩
        rw [← hcard, Finset.card_empty]
      · obtain ⟨set', hloop, h', hsmall'⟩ := ih (deleted + 1) h₁ hsmall₁
        rw [if_neg (fun hzero => hempty (Finset.card_eq_zero.1 hzero)), hloop]
        refine ⟨set', ?_, h', hsmall'⟩
        have hflag : (S.erase value.1 \ strings values = ∅ ∧ S.erase value.1 ≠ ∅) ↔ (S.erase value.1 \ strings values = ∅ ∧ S ≠ ∅) :=
          and_congr_right' (iff_of_true hempty (Finset.ne_empty_of_mem hin))
        rw [decide_eq_decide.2 hflag]
        congr 3
        omega
    · rw [Finset.erase_eq_of_notMem hin] at h₁ hle ⊢
      obtain ⟨set', hloop, h', hsmall'⟩ := ih deleted h₁ hsmall₁
      rw [decide_eq_false hin, if_neg (Bool.noConfusion), hloop]
      exact ⟨set', rfl, h', hsmall'⟩

theorem DbStands.restore (h : DbStands db D) (hD : D key = some (.set S)) (hs : s.Represents S) (hsmall : s.Small) : DbStands (dbAdd db key s) D := by
  have hsame := h.update key (.set hs hsmall)
  rwa [← hD, update_eq_self] at hsame

theorem srem_right (server : Server) (h : DbStands db D) (key value : Sds) (values : List Sds) :
    Right ((SetCommand.srem key value values).exec server db) ((SetCommand.srem key value values).plain D) := by
  rw [SetCommand.exec, SetCommand.plain, sremCommand]
  cases hdb : db key with
  | none =>
    obtain ⟨hD, hmembers⟩ := h.missing hdb
    have hother : ¬ AnyOther D [key] := fun h => by rw [anyOther_single, hD] at h; cases h
    rw [if_neg hother, hmembers]
    dsimp only
    rw [Finset.empty_sdiff, if_pos rfl, Finset.card_empty]
    exact right_iff.2 ⟨h, rfl⟩
  | some o =>
    cases o with
    | other => exact right_other h _ (if_pos (anyOther_single.2 (h.other hdb)))
    | set set =>
      obtain ⟨hD, hset, hsmall⟩ := h.set hdb
      have hother : ¬ AnyOther D [key] := fun h => by rw [anyOther_single, hD] at h; cases h
      obtain ⟨set', hloop, h', hsmall'⟩ := sremLoop_spec server (value :: values) 0 hset hsmall
      rw [if_neg hother]
      dsimp only
      rw [hloop, map_some, right_iff, Nat.zero_add]
      refine ⟨?_, rfl⟩
      generalize membersOf D key \ strings (value :: values) = rest at h' ⊢
      by_cases hsame : rest = membersOf D key
      · rw [if_pos hsame, if_neg fun hflag => (of_decide_eq_true hflag).2 (hsame ▸ (of_decide_eq_true hflag).1)]
        exact h.restore hD (hsame ▸ h') hsmall'
      · rw [if_neg hsame, storePlain]
        by_cases hempty : rest = ∅
        · rw [if_pos (decide_eq_true ⟨hempty, fun hnone => hsame (hempty.trans hnone.symm)⟩), if_pos hempty]
          exact h.update _ .missing
        · rw [if_neg fun hflag => hempty (of_decide_eq_true hflag).1, if_neg hempty]
          exact h.update _ (.set h' hsmall')

theorem sismember_right (h : DbStands db D) (key ele : Sds) :
    Right ((SetCommand.sismember key ele).exec server db) ((SetCommand.sismember key ele).plain D) := by
  rw [SetCommand.exec, SetCommand.plain, sismemberCommand]
  cases hdb : db key with
  | none =>
    obtain ⟨hD, hmembers⟩ := h.missing hdb
    have hother : ¬ AnyOther D [key] := fun h => by rw [anyOther_single, hD] at h; cases h
    rw [if_neg hother, hmembers, if_neg (Finset.notMem_empty _)]
    exact right_iff.2 ⟨h, rfl⟩
  | some o =>
    cases o with
    | other => exact right_other h _ (if_pos (anyOther_single.2 (h.other hdb)))
    | set set =>
      obtain ⟨hD, hset, -⟩ := h.set hdb
      have hother : ¬ AnyOther D [key] := fun h => by rw [anyOther_single, hD] at h; cases h
      rw [if_neg hother]
      dsimp only
      rw [setTypeIsMember_spec hset, encoded_decoded, map_some, right_iff]
      refine ⟨h, ?_⟩
      by_cases hin : ele.1 ∈ membersOf D key
      · rw [decide_eq_true hin, if_pos rfl, if_pos hin]
        rfl
      · rw [decide_eq_false hin, if_neg (Bool.noConfusion), if_neg hin]
        rfl

/-- **The two sets of SMOVE**; where they are one, nothing is looked up. -/
theorem smoveSets_spec (hserver : server.Modest) (h : DbStands db D) {src dst ele : Sds} {srcset : SetObj} {dstset : Option SetObj}
    (hD : D src = some (.set (membersOf D src))) (hsrc : srcset.Represents (membersOf D src)) (hsmall : srcset.Small)
    (hdst : (dstset.getD (setTypeCreate (tryObjectEncoding false (.raw ele.1)))).Represents (membersOf D dst))
    (hsmall' : (dstset.getD (setTypeCreate (tryObjectEncoding false (.raw ele.1)))).Small) (hother : ¬ AnyOther D [src, dst]) :
    Right (smoveSets server db src dst (tryObjectEncoding false (.raw ele.1)) srcset dstset) ((SetCommand.smove src dst ele).plain D) ↔
      ¬ (src = dst ∧ ele.1 ∉ membersOf D src) := by
  rw [SetCommand.plain, if_neg hother, smoveSets]
  by_cases hsame : src = dst
  · rw [if_pos hsame, right_iff]
    by_cases hin : ele.1 ∈ membersOf D src
    · rw [if_neg (not_not_intro hin), if_pos hsame]
      exact iff_of_true ⟨h, rfl⟩ fun hbad => hbad.2 hin
    · rw [if_pos hin]
      refine iff_of_false ?_ fun hkept => hkept ⟨hsame, hin⟩
      rintro ⟨-, hreply⟩
      cases hreply
  rw [if_neg hsame]
  refine iff_of_true ?_ fun hbad => hsame hbad.1
  obtain ⟨srcset', hremove, hrep⟩ := setTypeRemove_spec server hsrc (tryObjectEncoding false (.raw ele.1))
  have hsmall₁ := setTypeRemove_small hsrc hsmall hremove
  have hroom := hsmall'.hasRoom hdst (tryObjectEncoding false (.raw ele.1))
  obtain ⟨dstset', hadd, hadded⟩ := setTypeAdd_spec server hdst (tryObjectEncoding false (.raw ele.1)) hroom
  have hsmall₂ := setTypeAdd_small hserver hdst hsmall' hroom hadd
  rw [encoded_decoded] at hremove hrep hadd hadded
  rw [hremove, bind_some]
  by_cases hin : ele.1 ∈ membersOf D src
  · rw [decide_eq_true hin, if_neg (Bool.noConfusion), hadd, map_some, if_neg (not_not_intro hin), if_neg hsame]
    refine right_iff.2 ⟨DbStands.update ?_ _ (.set hadded hsmall₂), rfl⟩
    rw [hrep.card, storePlain]
    by_cases hempty : (membersOf D src).erase ele.1 = ∅
    · rw [if_pos (Finset.card_eq_zero.2 hempty), if_pos hempty]
      exact h.update _ .missing
    · rw [if_neg fun hzero => hempty (Finset.card_eq_zero.1 hzero), if_neg hempty]
      exact h.update _ (.set hrep hsmall₁)
  · rw [Finset.erase_eq_of_notMem hin] at hrep
    rw [decide_eq_false hin, if_pos rfl, if_pos hin]
    exact right_iff.2 ⟨h.restore hD hrep hsmall₁, rfl⟩

theorem smove_right (hserver : server.Modest) (h : DbStands db D) (src dst ele : Sds) :
    Right ((SetCommand.smove src dst ele).exec server db) ((SetCommand.smove src dst ele).plain D) ↔ (SetCommand.smove src dst ele).Kept D := by
  rw [SetCommand.exec, SetCommand.Kept, smoveCommand]
  cases hsrc : db src with
  | none =>
    obtain ⟨hD, hmembers⟩ := h.missing hsrc
    refine iff_of_true ?_ fun ⟨_, S, hset, _⟩ => by rw [hD] at hset; cases hset
    by_cases hother : AnyOther D [src, dst]
    · exact right_other h _ (if_pos hother)
    · have hnot : ele.1 ∉ membersOf D src := by
        rw [hmembers]
        exact Finset.notMem_empty _
      rw [SetCommand.plain, if_neg hother, if_pos hnot]
      exact right_iff.2 ⟨h, rfl⟩
  | some o =>
    cases o with
    | other =>
      have hD := h.other hsrc
      refine iff_of_true (right_other h _ (if_pos (anyOther_cons.2 (Or.inl hD)))) fun ⟨_, S, hset, _⟩ => ?_
      rw [hD] at hset
      cases hset
    | set srcset =>
      obtain ⟨hD, hset, hsmall⟩ := h.set hsrc
      have hkept : (∃ S, D src = some (.set S) ∧ ele.1 ∉ S) ↔ ele.1 ∉ membersOf D src := by
        rw [hD]
        constructor
        · rintro ⟨S, hS, hnot⟩
          cases hS
          exact hnot
        · exact fun hnot => ⟨_, rfl, hnot⟩
      have hpair : AnyOther D [src, dst] ↔ D dst = some .other := (anyOther_iff fun he => by rw [hD] at he; cases he).trans anyOther_single
      rw [hkept]
      cases hdst : db dst with
      | none =>
        obtain ⟨hD', hmembers⟩ := h.missing hdst
        obtain ⟨hnew, hsmallnew⟩ := setTypeCreate_spec (tryObjectEncoding false (.raw ele.1))
        rw [← hmembers] at hnew
        exact smoveSets_spec hserver h hD hset hsmall hnew hsmallnew fun hother => by rw [hpair, hD'] at hother; cases hother
      | some o =>
        cases o with
        | other =>
          have hD' := h.other hdst
          refine iff_of_true (right_other h _ (if_pos (hpair.2 hD'))) fun hbad => ?_
          rw [← hbad.1, hD] at hD'
          cases hD'
        | set dstset =>
          obtain ⟨hD', hset', hsmall'⟩ := h.set hdst
          exact smoveSets_spec hserver h hD hset hsmall hset' hsmall' fun hother => by rw [hpair, hD'] at hother; cases hother

/-- **Every command does to sets in two encodings what it should do to finite sets**, in exactly the cases that `SetCommand.Kept` names. -/
theorem set_iff (hserver : server.Modest) (h : DbStands db D) (c : SetCommand) : Right (c.exec server db) (c.plain D) ↔ c.Kept D := by
  cases c with
  | sinter key keys => exact iff_of_true (sinter_right h key keys) trivial
  | sinterstore dst key keys => exact sinterstore_right hserver h dst key keys
  | sunion key keys => exact sunion_right hserver h key keys
  | sunionstore dst key keys => exact iff_of_true (sunionstore_right hserver h dst key keys) trivial
  | sdiff key keys => exact sdiff_right hserver h key keys
  | sdiffstore dst key keys => exact sdiffstore_right hserver h dst key keys
  | sadd key value values => exact iff_of_true (sadd_right hserver h key value values) trivial
  | srem key value values => exact iff_of_true (srem_right server h key value values) trivial
  | smove src dst ele => exact smove_right hserver h src dst ele
  | sismember key ele => exact iff_of_true (sismember_right h key ele) trivial

/-- `d` has "x" and "5", `i` is the intset of 5, and `o` has another type. -/
def mixedKeys : Db :=
  Function.update (Function.update (Function.update (fun _ => none) ⟨[111], by simp⟩ (some .other)) ⟨[105], by simp⟩ (some (.set (.intset ⟨2, 1, [5, 0]⟩))))
    ⟨[100], by simp⟩ (some (.set (.ht [.raw [120], .raw [53]])))

def mixedPlain : PlainDb :=
  Function.update (Function.update (Function.update (fun _ => none) ⟨[111], by simp⟩ (some .other)) ⟨[105], by simp⟩ (some (.set {[53]})))
    ⟨[100], by simp⟩ (some (.set {[120], [53]}))

theorem mixedKeys_stands : DbStands mixedKeys mixedPlain := by
  have hints : Intset.Holds ⟨2, 1, [5, 0]⟩ [5] := by
    refine ⟨Or.inl rfl, rfl, by decide, pairwise_singleton _ _, ?_, by decide⟩
    intro v hv
    rw [mem_singleton.1 hv]
    decide
  refine DbStands.update (DbStands.update (DbStands.update (fun _ => .missing) _ .other) _ (.set (.intset hints) ?_)) _ (.set (.ht (by decide)) ?_)
  · rintro is h
    cases h
    decide
  · rintro is h
    cases h

theorem sinterstore_mixed :
    Right ((SetCommand.sinterstore ⟨[100], by simp⟩ ⟨[100], by simp⟩ [⟨[105], by simp⟩]).exec ⟨512, fun _ => 0⟩ mixedKeys)
      ((SetCommand.sinterstore ⟨[100], by simp⟩ ⟨[100], by simp⟩ [⟨[105], by simp⟩]).plain mixedPlain) ↔
      (SetCommand.sinterstore ⟨[100], by simp⟩ ⟨[100], by simp⟩ [⟨[105], by simp⟩]).Kept mixedPlain :=
  set_iff (by decide) mixedKeys_stands _

/-- **SINTERSTORE d m o deletes `d`**, since `m` is missing, before it comes to `o`; and SMOVE d d y replies 1, though `d` has no "y". -/
theorem set_wrong : ¬ Right ((SetCommand.sinterstore ⟨[100], by simp⟩ ⟨[109], by simp⟩ [⟨[111], by simp⟩]).exec ⟨512, fun _ => 0⟩ mixedKeys)
        ((SetCommand.sinterstore ⟨[100], by simp⟩ ⟨[109], by simp⟩ [⟨[111], by simp⟩]).plain mixedPlain) ∧
      ¬ Right ((SetCommand.smove ⟨[100], by simp⟩ ⟨[100], by simp⟩ ⟨[121], by simp⟩).exec ⟨512, fun _ => 0⟩ mixedKeys)
        ((SetCommand.smove ⟨[100], by simp⟩ ⟨[100], by simp⟩ ⟨[121], by simp⟩).plain mixedPlain) := by
  refine ⟨fun hright => ?_, fun hright => ?_⟩
  · have hkept := (sinterstore_right (by decide) mixedKeys_stands _ _ _).1 hright
    have hother : AnyOther mixedPlain [⟨[111], by simp⟩] := by decide
    exact hkept ⟨hother, by decide⟩
  · have hkept := (smove_right (by decide) mixedKeys_stands _ _ _).1 hright
    exact hkept ⟨rfl, {[120], [53]}, by decide, by decide⟩

end KVStores.Redis.SetType
