import KVStores.Lib.Listed
import KVStores.Redis.HashType

/-!
# Hashes as finite maps

A ziplist has the entries of the pairs of the map, field and value in turn; a dict has objects that mean the same.
-/

namespace KVStores.Redis.HashType

open ListType (entryObject ziplistIndex)

abbrev Fields := Finmap fun _ : List UInt8 => List UInt8

variable {l la lb : List (List UInt8 × List UInt8)} {k v : List UInt8} {m : Fields} {rest zl : List ZipEntry} {d : Dict} {o : HashObj} {p : ℕ}

@[grind =] def zipPairs : List (List UInt8 × List UInt8) → List ZipEntry
  | [] => []
  | e :: l => zipEntry e.1 :: zipEntry e.2 :: zipPairs l

theorem zipPairs_append : zipPairs (la ++ lb) = zipPairs la ++ zipPairs lb := by
  induction la with
  | nil => rfl
  | cons e la ih => rw [List.cons_append, zipPairs, zipPairs, ih, List.cons_append, List.cons_append]

variable (l) in
theorem length_zipPairs : (zipPairs l).length = 2 * l.length := by
  induction l with
  | nil => rfl
  | cons e l ih =>
    rw [zipPairs, List.length_cons, List.length_cons, List.length_cons, ih]
    omega

theorem getElem?_zipPairs (l : List (List UInt8 × List UInt8)) (n : ℕ) :
    (zipPairs l)[2 * n]? = l[n]?.map (fun e => zipEntry e.1) ∧ (zipPairs l)[2 * n + 1]? = l[n]?.map fun e => zipEntry e.2 := by
  induction l generalizing n with
  | nil => exact ⟨rfl, rfl⟩
  | cons e l ih =>
    cases n with
    | zero => exact ⟨rfl, rfl⟩
    | succ n => exact ih n

theorem getElem?_middle : (zipPairs (la ++ (k, v) :: lb))[2 * la.length + 1]? = some (zipEntry v) := by
  rw [(getElem?_zipPairs _ _).2, List.getElem?_append_right (Nat.le_refl _), Nat.sub_self]
  rfl

theorem next_middle : ziplistNext (zipPairs (la ++ (k, v) :: lb)) (2 * la.length) = some (2 * la.length + 1) := by
  rw [ziplistNext, if_pos]
  rw [length_zipPairs, List.length_append, List.length_cons]
  omega

theorem ziplistIndex_head : ziplistIndex zl 0 = if zl = [] then none else some 0 := by
  have hzero : ziplistIndex zl 0 = ListType.listIndex zl 0 := congrArg (ListType.listIndex zl) Int.zero_bmod
  have hhead : ListType.listIndex zl 0 = if (0 : ℤ) < zl.length then some 0 else none := if_neg (lt_irrefl 0)
  rw [hzero, hhead]
  cases zl with
  | nil => rfl
  | cons e zl =>
    rw [if_pos (Int.natCast_pos.mpr (List.length_pos_of_ne_nil (List.cons_ne_nil e zl))), if_neg (List.cons_ne_nil e zl)]

theorem decoded_entry (s : List UInt8) : getDecodedObject (entryObject (zipEntry s)) = s := by
  have hbytes := zipEntry_bytes s
  cases he : zipEntry s with
  | str t => rwa [he] at hbytes
  | int n => rwa [he] at hbytes

def Vencoding.Knows (vstr : List UInt8) (venc : Vencoding) : Prop := venc.try vstr = (zipTryEncoding vstr).elim .none .int

theorem knows_unknown (vstr : List UInt8) : Vencoding.Knows vstr .unknown := rfl

variable {venc : Vencoding}

theorem Vencoding.Knows.try (h : venc.Knows k) : (venc.try k).Knows k := by
  rw [Vencoding.Knows, h]
  cases zipTryEncoding k <;> rfl

/-- **A pair that is looked at**: only its field is compared, whatever its value is. -/
theorem ziplistFindLoop_pair (h : venc.Knows k) (f v : List UInt8) (p : ℕ) (rest : List ZipEntry) :
    ∃ venc' : Vencoding, venc'.Knows k ∧ ziplistFindLoop k 1 p 0 venc (zipEntry f :: zipEntry v :: rest) =
      if f = k then some p else ziplistFindLoop k 1 (p + 2) 0 venc' rest := by
  cases hf : zipTryEncoding f with
  | none =>
    have hentry : zipEntry f = .str f := by
      rw [zipEntry, hf]
      rfl
    exact ⟨venc, h, by rw [hentry, ziplistFindLoop, ziplistFindLoop]⟩
  | some n =>
    refine ⟨venc.try k, h.try, ?_⟩
    have hentry : zipEntry f = .int n := by
      rw [zipEntry, hf]
      rfl
    have hsame : venc.try k = .int n ↔ f = k := by
      rw [h]
      constructor
      · intro hn
        cases hk : zipTryEncoding k with
        | none =>
          rw [hk] at hn
          cases hn
        | some n' =>
          rw [hk] at hn
          cases hn
          rw [zipTryEncoding_numeral hf, zipTryEncoding_numeral hk]
      · rintro rfl
        rw [hf]
        rfl
    rw [hentry, ziplistFindLoop, ziplistFindLoop]
    by_cases hfk : f = k
    · rw [if_pos (hsame.mpr hfk), if_pos hfk]
    · rw [if_neg fun hn => hfk (hsame.mp hn), if_neg hfk]

theorem ziplistFindLoop_skip (h : venc.Knows k) (hk : k ∉ la.map Prod.fst) (p : ℕ) (rest : List ZipEntry) :
    ∃ venc' : Vencoding, venc'.Knows k ∧
      ziplistFindLoop k 1 p 0 venc (zipPairs la ++ rest) = ziplistFindLoop k 1 (p + 2 * la.length) 0 venc' rest := by
  induction la generalizing p venc with
  | nil => exact ⟨venc, h, rfl⟩
  | cons e la ih =>
    obtain ⟨hne, hnot⟩ := not_or.mp fun hor => hk (List.mem_cons.mpr hor)
    obtain ⟨venc₁, h₁, hpair⟩ := ziplistFindLoop_pair h e.1 e.2 p (zipPairs la ++ rest)
    obtain ⟨venc₂, h₂, hrest⟩ := ih h₁ hnot (p + 2)
    refine ⟨venc₂, h₂, ?_⟩
    rw [zipPairs, List.cons_append, List.cons_append, hpair, if_neg fun heq => hne heq.symm, hrest, List.length_cons]
    congr 1
    omega

theorem findField_eq (l : List (List UInt8 × List UInt8)) (k : List UInt8) : findField (zipPairs l) k = ziplistFindLoop k 1 0 0 .unknown (zipPairs l) := by
  rw [findField, ziplistIndex_head]
  cases l <;> rfl

theorem findField_none (hk : k ∉ l.map Prod.fst) : findField (zipPairs l) k = none := by
  obtain ⟨venc, -, hskip⟩ := ziplistFindLoop_skip (knows_unknown k) hk 0 []
  rw [List.append_nil] at hskip
  rw [findField_eq, hskip, ziplistFindLoop]

/-- **A field that is there.** -/
theorem findField_some (hk : k ∉ la.map Prod.fst) : findField (zipPairs (la ++ (k, v) :: lb)) k = some (2 * la.length) := by
  obtain ⟨venc, hknows, hskip⟩ := ziplistFindLoop_skip (knows_unknown k) hk 0 (zipPairs ((k, v) :: lb))
  obtain ⟨venc', -, hpair⟩ := ziplistFindLoop_pair hknows k v (0 + 2 * la.length) (zipPairs lb)
  rw [findField_eq, zipPairs_append, hskip, zipPairs, hpair, if_pos rfl, Nat.zero_add]

theorem split_of_mem (h : Lists l m) (hk : k ∈ m) : ∃ la v lb, l = la ++ (k, v) :: lb ∧ k ∉ la.map Prod.fst := by
  obtain ⟨⟨k', v⟩, hmem, rfl⟩ := List.mem_map.mp (h.mem_iff.mpr hk)
  obtain ⟨la, lb, rfl⟩ := List.append_of_mem hmem
  refine ⟨la, v, lb, rfl, fun hla => ?_⟩
  have hnodup := h.nodup
  rw [List.map_append, List.map_cons] at hnodup
  exact (List.nodup_append.mp hnodup).2.2 _ hla _ List.mem_cons_self rfl

variable {key : Robj}

theorem dictFind_none (hk : getDecodedObject key ∉ (d.map decodePair).map Prod.fst) :
    (∀ e ∈ d, dictEncObjKeyCompare key e.1 = false) ∧ dictFind d key = none := by
  have hall : ∀ e ∈ d, dictEncObjKeyCompare key e.1 = false := by
    intro e he
    rw [Bool.eq_false_iff, ne_eq, dictEncObjKeyCompare_iff]
    intro heq
    exact hk (List.mem_map.mpr ⟨decodePair e, List.mem_map_of_mem he, heq.symm⟩)
  refine ⟨hall, ?_⟩
  rw [dictFind, List.find?_eq_none.mpr fun e he => by rw [hall e he]; exact Bool.false_ne_true]
  rfl

theorem dict_split (h : Lists (d.map decodePair) m) (hk : getDecodedObject key ∈ m) :
    ∃ da e db, d = da ++ e :: db ∧ getDecodedObject key = getDecodedObject e.1 ∧ ∀ a ∈ da, dictEncObjKeyCompare key a.1 = false := by
  obtain ⟨la, v, lb, hl, hla⟩ := split_of_mem h hk
  obtain ⟨da, db', rfl, rfl, hdb⟩ := List.map_eq_append_iff.mp hl
  obtain ⟨e, db, rfl, he, rfl⟩ := List.map_eq_cons_iff.mp hdb
  exact ⟨da, e, db, rfl, congrArg Prod.fst he.symm, (dictFind_none hla).1⟩

variable {db : Dict}

theorem dictFind_some (hkey : getDecodedObject key = getDecodedObject e.1)
    (hda : ∀ a ∈ da, dictEncObjKeyCompare key a.1 = false) : dictFind (da ++ e :: db) key = some e.2 := by
  have hfind : (da ++ e :: db).find? (fun a => dictEncObjKeyCompare key a.1) = some e :=
    List.find?_eq_some_iff_append.mpr ⟨dictEncObjKeyCompare_iff.mpr hkey, da, db, rfl, fun a ha => by rw [hda a ha]; rfl⟩
  rw [dictFind, hfind]
  rfl

theorem dictSetVal_split {val : Robj} (hkey : getDecodedObject key = getDecodedObject e.1)
    (hda : ∀ a ∈ da, dictEncObjKeyCompare key a.1 = false) : dictSetVal val key (da ++ e :: db) = da ++ (e.1, val) :: db := by
  induction da with
  | nil => exact if_pos (dictEncObjKeyCompare_iff.mpr hkey)
  | cons a da ih =>
    rw [List.cons_append, dictSetVal, hda a List.mem_cons_self, if_neg Bool.noConfusion, ih fun b hb => hda b (List.mem_cons_of_mem a hb), List.cons_append]

theorem dictFind_spec (h : Lists (d.map decodePair) m) (key : Robj) : (dictFind d key).map getDecodedObject = m.lookup (getDecodedObject key) := by
  by_cases hk : getDecodedObject key ∈ m
  · obtain ⟨da, e, db, rfl, hkey, hda⟩ := dict_split h hk
    rw [List.map_append, List.map_cons] at h
    rw [dictFind_some hkey hda, hkey]
    exact h.lookup_middle.symm
  · rw [(dictFind_none fun hmem => hk (h.mem_iff.mp hmem)).2, Finmap.lookup_eq_none.mpr hk]
    rfl

theorem isSome_dictFind (h : Lists (d.map decodePair) m) (key : Robj) : (dictFind d key).isSome = decide (getDecodedObject key ∈ m) := by
  have hfind := dictFind_spec h key
  rw [← Option.isSome_map (f := getDecodedObject), hfind]
  exact Bool.eq_iff_iff.mpr (Finmap.lookup_isSome.trans decide_eq_true_iff.symm)

theorem dictAdd_new (hk : getDecodedObject key ∉ (d.map decodePair).map Prod.fst) (val : Robj) :
    dictAdd d key val = some ((key, val) :: d) := by
  rw [dictAdd, (dictFind_none hk).2]
  rfl

/-- **`dictReplace`** sets the value of one key, and says whether it is new. -/
theorem dictReplace_spec (h : Lists (d.map decodePair) m) (key val : Robj) :
    Lists ((dictReplace d key val).1.map decodePair) (m.insert (getDecodedObject key) (getDecodedObject val)) ∧
      (dictReplace d key val).2 = decide (getDecodedObject key ∉ m) := by
  by_cases hk : getDecodedObject key ∈ m
  · have hadd : dictAdd d key val = none := by
      rw [dictAdd, isSome_dictFind h, decide_eq_true hk, if_pos rfl]
    rw [dictReplace, hadd, decide_eq_false (not_not_intro hk)]
    refine ⟨?_, rfl⟩
    obtain ⟨da, e, db, rfl, hkey, hda⟩ := dict_split h hk
    rw [List.map_append, List.map_cons] at h
    show Lists ((dictSetVal val key (da ++ e :: db)).map decodePair) _
    rw [dictSetVal_split hkey hda, List.map_append, List.map_cons, hkey]
    exact h.insert_old (getDecodedObject val)
  · have hnot : getDecodedObject key ∉ (d.map decodePair).map Prod.fst := fun hmem => hk (h.mem_iff.mp hmem)
    rw [dictReplace, dictAdd_new hnot, decide_eq_true hk]
    exact ⟨h.insert_new hnot (getDecodedObject val), rfl⟩

theorem dictDelete_spec (h : Lists (d.map decodePair) m) (hk : getDecodedObject key ∈ m) :
    ∃ d', dictDelete d key = some d' ∧ Lists (d'.map decodePair) (m.erase (getDecodedObject key)) := by
  have hfound : (dictFind d key).isSome = true := by rw [isSome_dictFind h, decide_eq_true hk]
  refine ⟨d.eraseP fun e => dictEncObjKeyCompare key e.1, if_pos hfound, ?_⟩
  obtain ⟨da, e, db, rfl, hkey, hda⟩ := dict_split h hk
  rw [List.map_append, List.map_cons] at h
  have herase : (e :: db).eraseP (fun a => dictEncObjKeyCompare key a.1) = db := List.eraseP_cons_of_pos (dictEncObjKeyCompare_iff.mpr hkey)
  rw [List.eraseP_append_right _ fun a ha => by rw [hda a ha]; exact Bool.false_ne_true, herase, List.map_append, hkey]
  exact h.erase

theorem addAll_spec {l : List (Robj × Robj)} (h : Lists ((l ++ d).map decodePair) m) :
    ∃ d', addAll l d = some d' ∧ Lists (d'.map decodePair) m := by
  induction l generalizing d with
  | nil => exact ⟨d, rfl, h⟩
  | cons e l ih =>
    have hsame : decodePair (tryObjectEncoding false e.1, tryObjectEncoding false e.2) = decodePair e := by
      rw [decodePair, tryObjectEncoding_decoded, tryObjectEncoding_decoded]
      rfl
    have hperm : ((e :: l ++ d).map decodePair).Perm ((l ++ (tryObjectEncoding false e.1, tryObjectEncoding false e.2) :: d).map decodePair) := by
      rw [List.map_append, List.map_append, List.map_cons, List.map_cons, hsame]
      exact List.perm_middle.symm
    have hnew : getDecodedObject (tryObjectEncoding false e.1) ∉ (d.map decodePair).map Prod.fst := by
      rw [tryObjectEncoding_decoded]
      intro hmem
      have hnodup := h.nodup
      rw [List.cons_append, List.map_cons, List.map_cons, List.nodup_cons, List.map_append, List.map_append] at hnodup
      exact hnodup.1 (List.mem_append_right _ hmem)
    obtain ⟨d', hadd, hlists⟩ := ih (h.perm hperm)
    refine ⟨d', ?_, hlists⟩
    rw [addAll, dictAdd_new hnew, Option.bind_some, hadd]

def pairObjects (e : List UInt8 × List UInt8) : Robj × Robj := (entryObject (zipEntry e.1), entryObject (zipEntry e.2))

theorem decodePair_objects (e : List UInt8 × List UInt8) : decodePair (pairObjects e) = e := by
  rw [decodePair, pairObjects, decoded_entry, decoded_entry]

theorem map_decodePair_objects (l : List (List UInt8 × List UInt8)) : (l.map pairObjects).map decodePair = l := by
  rw [List.map_map]
  exact List.map_id'' (fun e => decodePair_objects e) l

def atPair : ℕ → Iterator
  | 0 => ⟨none, none⟩
  | n + 1 => ⟨some (2 * n), some (2 * n + 1)⟩

theorem hashTypeNext_pairs (l : List (List UInt8 × List UInt8)) (n : ℕ) :
    hashTypeNext (zipPairs l) (atPair n) = some (if n < l.length then some (atPair (n + 1)) else none) := by
  have hlen := length_zipPairs l
  cases n with
  | zero =>
    rw [hashTypeNext, atPair]
    rw [ziplistIndex_head]
    cases l with
    | nil => rfl
    | cons e l => rfl
  | succ n =>
    rw [hashTypeNext, atPair]
    dsimp only
    rw [ziplistNext]
    by_cases hn : n + 1 < l.length
    · rw [if_pos (by omega), if_pos hn]
      dsimp only
      rw [ziplistNext, if_pos (by omega)]
      rfl
    · rw [if_neg (by omega), if_neg hn]

theorem hashTypeCurrent_pairs {n : ℕ} {e : List UInt8 × List UInt8} (h : l[n]? = some e) :
    hashTypeCurrent (zipPairs l) (atPair (n + 1)) = some (pairObjects e) := by
  obtain ⟨hf, hv⟩ := getElem?_zipPairs l n
  rw [h] at hf hv
  rw [hashTypeCurrent, atPair]
  rw [Option.bind_some, Option.bind_some, hf, hv]
  rfl

theorem iterateLoop_spec {n fuel : ℕ} (hn : n ≤ l.length) (hfuel : l.length < n + fuel) :
    iterateLoop (zipPairs l) fuel (atPair n) = some ((l.drop n).map pairObjects) := by
  induction fuel generalizing n with
  | zero => exact absurd hfuel (not_lt.mpr hn)
  | succ fuel ih =>
    rw [iterateLoop, hashTypeNext_pairs, Option.bind_some]
    obtain hlt | rfl := Nat.lt_or_eq_of_le hn
    · have hget : l[n]? = some l[n] := List.getElem?_eq_getElem hlt
      rw [if_pos hlt]
      dsimp only
      rw [hashTypeCurrent_pairs hget, Option.bind_some, ih hlt (by omega), Option.map_some, List.drop_eq_getElem_cons hlt, List.map_cons]
    · rw [if_neg (Nat.lt_irrefl _), List.drop_length]
      rfl

/-- **A full iteration** comes upon each pair, in the order of the ziplist. -/
theorem iterate_ziplist (l : List (List UInt8 × List UInt8)) : hashTypeIterate (.ziplist (zipPairs l)) = some (l.map pairObjects) := by
  have hfuel : l.length < 0 + ((zipPairs l).length + 1) := by
    rw [length_zipPairs]
    omega
  exact iterateLoop_spec (Nat.zero_le _) hfuel

/-- What a hash means. -/
inductive HashObj.Represents : HashObj → Fields → Prop
  | ziplist {l : List (List UInt8 × List UInt8)} {m : Fields} (h : Lists l m) : Represents (.ziplist (zipPairs l)) m
  | ht {d : Dict} {m : Fields} (h : Lists (d.map decodePair) m) : Represents (.ht d) m

theorem createHashObject_represents : createHashObject.Represents ∅ := .ziplist Lists.nil

theorem getFromZiplist_spec (h : Lists l m) (field : Robj) :
    hashTypeGetFromZiplist (zipPairs l) field = some ((m.lookup (getDecodedObject field)).map zipEntry) := by
  rw [hashTypeGetFromZiplist]
  by_cases hk : getDecodedObject field ∈ m
  · obtain ⟨la, v, lb, rfl, hla⟩ := split_of_mem h hk
    rw [findField_some hla, h.lookup_middle]
    dsimp only
    rw [next_middle, Option.bind_some, getElem?_middle]
    rfl
  · rw [findField_none fun hmem => hk (h.mem_iff.mp hmem), Finmap.lookup_eq_none.mpr hk]
    rfl

theorem hashTypeGetObject_spec (h : o.Represents m) (field : Robj) :
    ∃ v, hashTypeGetObject o field = some v ∧ v.map getDecodedObject = m.lookup (getDecodedObject field) := by
  cases h with
  | ziplist h =>
    refine ⟨_, by rw [hashTypeGetObject, getFromZiplist_spec h, Option.map_some], ?_⟩
    cases m.lookup (getDecodedObject field) with
    | none => rfl
    | some v => exact congrArg some (decoded_entry v)
  | ht h => exact ⟨_, rfl, dictFind_spec h field⟩

theorem hashTypeExists_spec (h : o.Represents m) (field : Robj) : hashTypeExists o field = some (decide (getDecodedObject field ∈ m)) := by
  cases h with
  | ziplist h =>
    rw [hashTypeExists]
    rw [getFromZiplist_spec h, Option.map_some, Option.isSome_map]
    exact congrArg some (Bool.eq_iff_iff.mpr (Finmap.lookup_isSome.trans decide_eq_true_iff.symm))
  | ht h => exact congrArg some (isSome_dictFind h field)

theorem hashTypeLength_spec (h : o.Represents m) : hashTypeLength o = m.keys.card := by
  cases h with
  | ziplist h =>
    rw [hashTypeLength, length_zipPairs, ← h.length_eq]
    omega
  | ht h => rw [hashTypeLength, ← h.length_eq, List.length_map]

theorem hashTypeIterate_spec (h : o.Represents m) : ∃ l, hashTypeIterate o = some l ∧ Lists (l.map decodePair) m := by
  cases h with
  | @ziplist l _ h => exact ⟨l.map pairObjects, iterate_ziplist l, by rwa [map_decodePair_objects]⟩
  | @ht d _ h => exact ⟨d, rfl, h⟩

/-- **A conversion** keeps the map. -/
theorem hashTypeConvert_spec (h : Lists l m) (enc : Encoding) :
    ∃ o, hashTypeConvert (.ziplist (zipPairs l)) enc = some o ∧ o.Represents m := by
  cases enc with
  | ziplist => exact ⟨_, rfl, .ziplist h⟩
  | ht =>
    have hpairs : Lists ((l.map pairObjects ++ []).map decodePair) m := by rwa [List.append_nil, map_decodePair_objects]
    obtain ⟨d, hadd, hd⟩ := addAll_spec hpairs
    refine ⟨.ht d, ?_, .ht hd⟩
    rw [hashTypeConvert, iterate_ziplist, Option.bind_some, hadd]
    rfl

theorem setInZiplist_spec (h : Lists l m) (k v : List UInt8) :
    ∃ l', setInZiplist (zipPairs l) k v = some (zipPairs l', decide (k ∈ m)) ∧ Lists l' (m.insert k v) := by
  rw [setInZiplist]
  by_cases hk : k ∈ m
  · obtain ⟨la, w, lb, rfl, hla⟩ := split_of_mem h hk
    refine ⟨la ++ (k, v) :: lb, ?_, h.insert_old v⟩
    have hplace : 2 * la.length + 1 ≠ (zipPairs (la ++ (k, w) :: lb)).length := by
      rw [length_zipPairs]
      omega
    rw [findField_some hla, decide_eq_true hk]
    dsimp only
    rw [next_middle, Option.map_some, List.insertIdx_eraseIdx_self hplace, zipPairs_append, zipPairs_append,
      List.set_append_right _ _ (by rw [length_zipPairs]; exact Nat.le_succ _), length_zipPairs, Nat.add_sub_cancel_left]
    rfl
  · have hnot : k ∉ l.map Prod.fst := fun hmem => hk (h.mem_iff.mp hmem)
    refine ⟨l ++ [(k, v)], ?_, (h.insert_new hnot v).perm (List.perm_append_singleton _ _).symm⟩
    rw [findField_none hnot, decide_eq_false hk, zipPairs_append, List.append_assoc]
    rfl

theorem hashTypeSet_spec (server : Server) (h : o.Represents m) (field value : Robj) :
    ∃ o', hashTypeSet server o field value = some (o', (decide (getDecodedObject field ∈ m)).toNat) ∧
      o'.Represents (m.insert (getDecodedObject field) (getDecodedObject value)) := by
  cases h with
  | ziplist h =>
    obtain ⟨l', hset, h'⟩ := setInZiplist_spec h (getDecodedObject field) (getDecodedObject value)
    rw [hashTypeSet]
    rw [hset, Option.bind_some]
    by_cases hlong : server.hashMaxZiplistEntries < hashTypeLength (.ziplist (zipPairs l'))
    · obtain ⟨o', hconvert, ho'⟩ := hashTypeConvert_spec h' .ht
      exact ⟨o', by rw [if_pos hlong, hconvert, Option.map_some], ho'⟩
    · exact ⟨_, if_neg hlong, .ziplist h'⟩
  | ht h =>
    obtain ⟨hreplace, hnew⟩ := dictReplace_spec h field value
    refine ⟨_, ?_, .ht hreplace⟩
    rw [hashTypeSet]
    rw [hnew]
    by_cases hk : getDecodedObject field ∈ m
    · rw [decide_eq_false (not_not_intro hk), decide_eq_true hk]
      rfl
    · rw [decide_eq_true hk, decide_eq_false hk]
      rfl

theorem hashTypeDelete_spec (h : o.Represents m) (field : Robj) :
    (hashTypeDelete o field).2 = (decide (getDecodedObject field ∈ m)).toNat ∧ (hashTypeDelete o field).1.Represents (m.erase (getDecodedObject field)) := by
  have hkeep : getDecodedObject field ∉ m → m.erase (getDecodedObject field) = m := by
    intro hk
    refine Finmap.ext_lookup fun a => ?_
    by_cases ha : a = getDecodedObject field
    · rw [ha, Finmap.lookup_erase, Finmap.lookup_eq_none.mpr hk]
    · rw [Finmap.lookup_erase_ne ha]
  cases h with
  | ziplist h =>
    rw [hashTypeDelete]
    by_cases hk : getDecodedObject field ∈ m
    · obtain ⟨la, v, lb, rfl, hla⟩ := split_of_mem h hk
      have hrest : ((zipPairs (la ++ (getDecodedObject field, v) :: lb)).eraseIdx (2 * la.length)).eraseIdx (2 * la.length) = zipPairs (la ++ lb) := by
        rw [zipPairs_append, zipPairs_append, ← length_zipPairs la, List.eraseIdx_append_of_length_le (Nat.le_refl _), Nat.sub_self,
          List.eraseIdx_append_of_length_le (Nat.le_refl _), Nat.sub_self]
        rfl
      rw [findField_some hla, decide_eq_true hk]
      dsimp only
      rw [hrest]
      exact ⟨rfl, .ziplist h.erase⟩
    · rw [findField_none fun hmem => hk (h.mem_iff.mp hmem), hkeep hk, decide_eq_false hk]
      exact ⟨rfl, .ziplist h⟩
  | ht h =>
    rw [hashTypeDelete]
    by_cases hk : getDecodedObject field ∈ m
    · obtain ⟨d', hdelete, hd'⟩ := dictDelete_spec h hk
      rw [hdelete, decide_eq_true hk]
      exact ⟨rfl, .ht hd'⟩
    · rw [dictDelete, isSome_dictFind h, decide_eq_false hk, if_neg Bool.noConfusion, hkeep hk]
      exact ⟨rfl, .ht h⟩

/-- A call on a finite map: what it returns, and the map behind it. -/
@[grind =] def Call.Right (m : Fields) (r : Returned) (m' : Fields) : Call → Prop
  | .set field value => r = .int (decide (getDecodedObject field ∈ m)).toNat ∧ m' = m.insert (getDecodedObject field) (getDecodedObject value)
  | .delete field => r = .int (decide (getDecodedObject field ∈ m)).toNat ∧ m' = m.erase (getDecodedObject field)
  | .getObject field => r = .value (m.lookup (getDecodedObject field)) ∧ m' = m
  | .exists field => r = .int (decide (getDecodedObject field ∈ m)).toNat ∧ m' = m
  | .length => r = .int m.keys.card ∧ m' = m
  | .iterate => (∃ l, Lists l m ∧ r = .pairs l) ∧ m' = m
  | .tryConversion _ => r = .void ∧ m' = m
  | .convert _ => r = .void ∧ m' = m

inductive Behaves : Fields → List Call → List Returned → Fields → Prop
  | nil {m : Fields} : Behaves m [] [] m
  | cons {m m' m'' : Fields} {call : Call} {calls : List Call} {r : Returned} {rs : List Returned} (h : call.Right m r m')
      (hs : Behaves m' calls rs m'') : Behaves m (call :: calls) (r :: rs) m''

/-- **One call.** -/
theorem Call.exec_spec (server : Server) (h : o.Represents m) (call : Call) :
    ∃ o' r m', call.exec server o = some (o', r) ∧ call.Right m r m' ∧ o'.Represents m' := by
  cases call with
  | set field value =>
    obtain ⟨o', hset, h'⟩ := hashTypeSet_spec server h field value
    exact ⟨o', _, _, by rw [Call.exec, hset, Option.map_some], ⟨rfl, rfl⟩, h'⟩
  | delete field =>
    obtain ⟨hret, h'⟩ := hashTypeDelete_spec h field
    exact ⟨_, _, _, rfl, ⟨congrArg Returned.int hret, rfl⟩, h'⟩
  | getObject field =>
    obtain ⟨v, hget, hv⟩ := hashTypeGetObject_spec h field
    exact ⟨o, _, m, by rw [Call.exec, hget, Option.map_some], ⟨congrArg Returned.value hv, rfl⟩, h⟩
  | «exists» field => exact ⟨o, _, m, by rw [Call.exec, hashTypeExists_spec h, Option.map_some], ⟨rfl, rfl⟩, h⟩
  | length => exact ⟨o, _, m, rfl, ⟨congrArg Returned.int (hashTypeLength_spec h), rfl⟩, h⟩
  | iterate =>
    obtain ⟨l, hiterate, hl⟩ := hashTypeIterate_spec h
    exact ⟨o, _, m, by rw [Call.exec, hiterate, Option.map_some], ⟨⟨_, hl, rfl⟩, rfl⟩, h⟩
  | tryConversion argv =>
    cases h with
    | ziplist h =>
      by_cases hlong : argv.any (tooLong server) = true
      · obtain ⟨o', hconvert, h'⟩ := hashTypeConvert_spec h .ht
        refine ⟨o', .void, m, ?_, ⟨rfl, rfl⟩, h'⟩
        rw [Call.exec, hashTypeTryConversion]
        rw [if_pos hlong, hconvert, Option.map_some]
      · refine ⟨_, .void, m, ?_, ⟨rfl, rfl⟩, .ziplist h⟩
        rw [Call.exec, hashTypeTryConversion]
        rw [if_neg hlong, Option.map_some]
    | ht h => exact ⟨_, _, m, rfl, ⟨rfl, rfl⟩, .ht h⟩
  | convert enc =>
    cases h with
    | ziplist h =>
      obtain ⟨o', hconvert, h'⟩ := hashTypeConvert_spec h enc
      refine ⟨o', .void, m, ?_, ⟨rfl, rfl⟩, h'⟩
      rw [Call.exec]
      rw [hconvert, Option.map_some]
    | ht h => exact ⟨_, _, m, rfl, ⟨rfl, rfl⟩, .ht h⟩

/-- **A hash is a finite map**: for every sequence of calls, under any thresholds, nothing goes wrong, each call returns what it returns on a
finite map, and the hash means that map in the end. -/
theorem hash_map (h : o.Represents m) (calls : List (Server × Call)) :
    ∃ o' rs m', runCalls calls o = some (o', rs) ∧ Behaves m (calls.map Prod.snd) rs m' ∧ o'.Represents m' := by
  induction calls generalizing o m with
  | nil => exact ⟨o, [], m, rfl, .nil, h⟩
  | cons c calls ih =>
    obtain ⟨o₁, r, m₁, hexec, hright, h₁⟩ := Call.exec_spec c.1 h c.2
    obtain ⟨o₂, rs, m₂, hrun, hbehaves, h₂⟩ := ih h₁
    refine ⟨o₂, r :: rs, m₂, ?_, .cons hright hbehaves, h₂⟩
    rw [runCalls, hexec, Option.bind_some, hrun, Option.map_some]

theorem hash_map_new :
    ∃ o rs m, runCalls [(⟨1, 4⟩, .set (.raw [97]) (.raw [97])), (⟨1, 4⟩, .set (.raw [97]) (.raw [49])), (⟨0, 4⟩, .getObject (.raw [97]))] createHashObject =
        some (o, rs) ∧
      Behaves ∅ [.set (.raw [97]) (.raw [97]), .set (.raw [97]) (.raw [49]), .getObject (.raw [97])] rs m ∧ o.Represents m :=
  hash_map createHashObject_represents _

end KVStores.Redis.HashType
