import KVStores.Redis.Zset

/-!
# What the commands do to sorted sets
-/

namespace KVStores.Redis

open List Option

open SkipList (Layout)

/-! ## The dict -/

variable {dict rest : List (Robj × ℕ)} {ele o : Robj} {x y : ℕ}

def DistinctMembers (dict : List (Robj × ℕ)) : Prop := (dict.map fun e => getDecodedObject e.1).Nodup

theorem DistinctMembers.perm {dict' : List (Robj × ℕ)} (h : DistinctMembers dict) (hp : dict.Perm dict') : DistinctMembers dict' :=
  (hp.map _).nodup_iff.1 h

theorem DistinctMembers.other (h : DistinctMembers dict) (hp : dict.Perm ((o, x) :: rest)) (heq : getDecodedObject ele = getDecodedObject o) :
    ∀ e ∈ rest, dictEncObjKeyCompare ele e.1 = false := by
  intro e he
  rw [Bool.eq_false_iff, ne_eq, dictEncObjKeyCompare_iff, heq]
  intro hc
  exact (nodup_cons.1 (h.perm hp)).1 (List.mem_map.2 ⟨e, he, hc.symm⟩)

theorem mapFind_some (h : DistinctMembers dict) (hp : dict.Perm ((o, x) :: rest)) (heq : getDecodedObject ele = getDecodedObject o) :
    mapFind dict ele = some (o, x) := by
  have hother := h.other hp heq
  have hself : dictEncObjKeyCompare ele o = true := dictEncObjKeyCompare_iff.2 heq
  obtain ⟨e, he⟩ : ∃ e, mapFind dict ele = some e := isSome_iff_exists.1 (List.find?_isSome.2 ⟨(o, x), hp.mem_iff.2 mem_cons_self, hself⟩)
  have hfound := List.find?_some (p := fun e : Robj × ℕ => dictEncObjKeyCompare ele e.1) he
  rcases mem_cons.1 (hp.mem_iff.1 (List.mem_of_find?_eq_some he)) with rfl | hmem
  · exact he
  · rw [hother e hmem] at hfound
    cases hfound

theorem mapFind_none (h : ∀ e ∈ dict, getDecodedObject ele ≠ getDecodedObject e.1) : mapFind dict ele = none := by
  refine List.find?_eq_none.2 fun e he => ?_
  rw [dictEncObjKeyCompare_iff]
  exact h e he

theorem mapDelete_perm (h : DistinctMembers dict) (hp : dict.Perm ((o, x) :: rest)) (heq : getDecodedObject ele = getDecodedObject o) :
    (mapDelete dict ele).Perm rest := by
  have hpairwise : dict.Pairwise fun a b => dictEncObjKeyCompare ele a.1 = true → dictEncObjKeyCompare ele b.1 = true → False :=
    (pairwise_map.1 h).imp fun hne ha hb => hne ((dictEncObjKeyCompare_iff.1 ha).symm.trans (dictEncObjKeyCompare_iff.1 hb))
  have herase := hp.eraseP (fun e : Robj × ℕ => dictEncObjKeyCompare ele e.1) hpairwise
  have hhead : ((o, x) :: rest).eraseP (fun e : Robj × ℕ => dictEncObjKeyCompare ele e.1) = rest :=
    eraseP_cons_of_pos (dictEncObjKeyCompare_iff.2 heq)
  rwa [hhead] at herase

theorem mapSet_perm (h : DistinctMembers dict) (hp : dict.Perm ((o, x) :: rest)) (heq : getDecodedObject ele = getDecodedObject o) :
    (mapSet dict ele y).Perm ((o, y) :: rest) := by
  have hother := h.other hp heq
  have hmap := hp.map fun e : Robj × ℕ => if dictEncObjKeyCompare ele e.1 then (e.1, y) else e
  rw [map_cons, if_pos (dictEncObjKeyCompare_iff.2 heq)] at hmap
  have hrest : (rest.map fun e : Robj × ℕ => if dictEncObjKeyCompare ele e.1 then (e.1, y) else e) = rest := by
    refine (map_congr_left fun e he => ?_).trans (List.map_id rest)
    rw [hother e he, if_neg Bool.false_ne_true]
    rfl
  rwa [hrest] at hmap

/-! ## Sets -/

variable {S : Type}

def dictOf (ids : List ℕ) (es : List (S × Robj)) : List (Robj × ℕ) := List.zipWith (fun x e => (e.2, x)) ids es

variable {ids pre post : List ℕ} {es ea eb : List (S × Robj)} {e : S × Robj} {score : S}

theorem dictOf_perm (hea : ea.length = pre.length) : (dictOf (pre ++ x :: post) (ea ++ e :: eb)).Perm ((e.2, x) :: dictOf (pre ++ post) (ea ++ eb)) := by
  unfold dictOf
  rw [zipWith_append hea.symm, zipWith_append hea.symm, zipWith_cons_cons]
  exact perm_middle

theorem dictOf_members (hlen : ids.length = es.length) : (dictOf ids es).map (fun e => getDecodedObject e.1) = es.map fun e => getDecodedObject e.2 := by
  induction ids generalizing es with
  | nil =>
    rw [length_eq_zero_iff.1 hlen.symm]
    rfl
  | cons x ids ih =>
    cases es with
    | nil => cases hlen
    | cons e es =>
      have hrest : (dictOf ids es).map (fun e => getDecodedObject e.1) = es.map fun e => getDecodedObject e.2 := ih (Nat.succ.inj hlen)
      change getDecodedObject e.2 :: (dictOf ids es).map (fun e => getDecodedObject e.1) = _
      rw [hrest, map_cons]

variable [LinearOrder S]

/-- **The dict and the skip list of a set have the same members**: the nodes in order, each with its entry in the dict. -/
structure Zset.Ok (zs : Zset S) (ids : List ℕ) (es : List (S × Robj)) : Prop where
  layout : Layout zskiplistMaxlevel zs.zsl ids es
  dict : zs.dict.Perm (dictOf ids es)
  sorted : InOrder es
  distinct : (es.map fun e => getDecodedObject e.2).Nodup

namespace Zset.Ok

variable {zs : Zset S}

theorem members (h : zs.Ok ids es) : DistinctMembers zs.dict := by
  unfold DistinctMembers
  rw [(h.dict.map _).nodup_iff, dictOf_members h.layout.es_length]
  exact h.distinct

theorem dict_length (h : zs.Ok ids es) : zs.dict.length = es.length := by
  rw [h.dict.length_eq, dictOf, length_zipWith, h.layout.es_length, Nat.min_self]

theorem find (h : zs.Ok (pre ++ x :: post) (ea ++ e :: eb)) (hea : ea.length = pre.length) (heq : getDecodedObject ele = getDecodedObject e.2) :
    mapFind zs.dict ele = some (e.2, x) := mapFind_some h.members (h.dict.trans (dictOf_perm hea)) heq

theorem find_none (h : zs.Ok ids es) (hnew : ∀ e ∈ es, getDecodedObject e.2 ≠ getDecodedObject ele) : mapFind zs.dict ele = none := by
  refine mapFind_none fun a ha hc => ?_
  have hmem : getDecodedObject a.1 ∈ (dictOf ids es).map fun e => getDecodedObject e.1 := List.mem_map_of_mem (h.dict.mem_iff.1 ha)
  rw [dictOf_members h.layout.es_length] at hmem
  obtain ⟨e, he, heq⟩ := List.mem_map.1 hmem
  exact hnew e he (heq.trans hc.symm)

end Zset.Ok

def SortedSet.NoClash (l : SortedSet S) : Prop := ∀ a ∈ l.elems, ∀ b ∈ l.elems, a.1 = b.1 → ¬ Clash a.2 b.2

def Zobj.Holds (fmt : ScoreFormat S) : Zobj S → SortedSet S → Prop
  | .ziplist zl, l => zl = zzlEntries fmt l.elems
  | .skiplist zs, l => ∃ ids es, zs.Ok ids es ∧ es.map memberOf = l.elems

def Zobj.isSkiplist : Zobj S → Bool
  | .ziplist _ => false
  | .skiplist _ => true

variable {zs : Zset S} {l : SortedSet S} {fmt : ScoreFormat S} {obj : Robj}

theorem Zset.Ok.insert {z : Zskiplist S} {dict : List (Robj × ℕ)} {obj : Robj} (h : Layout zskiplistMaxlevel z (pre ++ x :: post) (ea ++ (score, obj) :: eb))
    (hea : ea.length = pre.length) (hsorted : InOrder (ea ++ (score, obj) :: eb)) (hdict : dict.Perm ((obj, x) :: dictOf (pre ++ post) (ea ++ eb)))
    (hdistinct : ((ea ++ eb).map fun e => getDecodedObject e.2).Nodup) (hnew : ∀ e ∈ ea ++ eb, getDecodedObject e.2 ≠ getDecodedObject obj) :
    Zset.Ok ⟨dict, z⟩ (pre ++ x :: post) (ea ++ (score, obj) :: eb) := by
  have hperm : (dictOf (pre ++ x :: post) (ea ++ (score, obj) :: eb)).Perm ((obj, x) :: dictOf (pre ++ post) (ea ++ eb)) := dictOf_perm hea
  refine ⟨h, hdict.trans hperm.symm, hsorted, ?_⟩
  rw [(perm_middle.map _).nodup_iff, map_cons, nodup_cons]
  refine ⟨fun hmem => ?_, hdistinct⟩
  obtain ⟨e, he, heq⟩ := List.mem_map.1 hmem
  exact hnew e he heq

theorem mem_nodes (hl : es.map memberOf = l.elems) (he : e ∈ es) : memberOf e ∈ l.elems := hl ▸ List.mem_map_of_mem he

theorem not_mem_nodes (hl : es.map memberOf = l.elems) (hnew : getDecodedObject ele ∉ l.elems.map Prod.snd) :
    ∀ e ∈ es, getDecodedObject e.2 ≠ getDecodedObject ele := by
  intro e he hc
  exact hnew (List.mem_map.2 ⟨memberOf e, mem_nodes hl he, hc⟩)

theorem apart_nodes (hno : l.NoClash) (hes : ∀ e ∈ es, memberOf e ∈ l.elems) (hmem : (score, getDecodedObject ele) ∈ l.elems) :
    ∀ e ∈ es, e.1 = score → Apart (getDecodedObject e.2) (getDecodedObject ele) :=
  fun e he heq => ⟨hno _ (hes e he) _ hmem heq, hno _ hmem _ (hes e he) heq.symm⟩

/-- **A new member of a skip list.** -/
theorem zsetInsert_spec (rounds : ℕ → ℕ) (h : zs.Ok ids es) (hl : es.map memberOf = l.elems) (hnew : getDecodedObject ele ∉ l.elems.map Prod.snd)
    (hno : (l.insert (score, getDecodedObject ele) hnew).NoClash) : ∃ zs' ids' es', zsetInsert rounds zs score ele = some zs' ∧ zs'.Ok ids' es' ∧
      es'.map memberOf = (l.insert (score, getDecodedObject ele) hnew).elems := by
  have hother := not_mem_nodes hl hnew
  have hall := SortedSet.mem_insert (e := (score, getDecodedObject ele)) hnew
  have hapart := apart_nodes hno (fun e he => (hall _).2 (Or.inr (mem_nodes hl he))) ((hall _).2 (Or.inl rfl))
  obtain ⟨z', pre, post, ea, eb, h1, rfl, rfl, hea, h2, h3⟩ := zslInsert_spec (rounds zs.zsl.fresh) h.layout h.sorted hapart hother
  have hadd : mapAdd zs.dict ele zs.zsl.fresh = some ((ele, zs.zsl.fresh) :: zs.dict) := by
    rw [mapAdd, h.find_none hother]
    rfl
  refine ⟨⟨(ele, zs.zsl.fresh) :: zs.dict, z'⟩, _, _, ?_, Zset.Ok.insert h2 hea h3 (h.dict.cons _) h.distinct hother, ?_⟩
  · rw [zsetInsert, h1, bind_some, hadd]
    rfl
  · rw [map_append] at hl
    have hsorted : ((ea ++ (score, ele) :: eb).map memberOf).Pairwise fun a b => memberKey a < memberKey b := pairwise_map.2 h3
    rw [map_append, map_cons] at hsorted ⊢
    exact (SortedSet.insert_elems hnew hl.symm hsorted).symm

theorem zslCreate_ok : Zset.Ok (⟨[], zslCreate⟩ : Zset S) [] [] :=
  ⟨SkipList.create_layout (by decide), List.Perm.nil, List.Pairwise.nil, nodup_nil⟩

theorem object_decoded (e : ZipEntry) : getDecodedObject e.object = e.bytes := by cases e <;> rfl

theorem zsetConvertLoop_spec (hread : fmt.Reads) (rounds : ℕ → ℕ) (hno : l.NoClash) : ∀ {lb la : List (Member S)} {zs : Zset S} {ids : List ℕ}
    {es : List (S × Robj)}, l.elems = la ++ lb → zs.Ok ids es → es.map memberOf = la →
    ∃ zs' ids' es', zsetConvertLoop fmt rounds zs (zzlEntries fmt lb) = some zs' ∧ zs'.Ok ids' es' ∧ es'.map memberOf = l.elems := by
  intro lb
  induction lb with
  | nil =>
    intro la zs ids es hl h hes
    rw [append_nil] at hl
    exact ⟨zs, ids, es, rfl, h, hes.trans hl.symm⟩
  | cons e lb ih =>
    intro la zs ids es hl h hes
    have hsub : (la ++ [e]).Sublist l.elems := by
      rw [hl]
      exact List.Sublist.append_left (List.Sublist.cons_cons e (nil_sublist lb)) la
    have hsub' : la.Sublist l.elems := (sublist_append_left la [e]).trans hsub
    have hdec : getDecodedObject (zipEntry e.2).object = e.2 := by rw [object_decoded, zipEntry_bytes]
    -- the members so far are a sorted set, and so they are with this one
    have hdistinct := (l.part (la ++ [e]) hsub).distinct
    change ((la ++ [e]).map Prod.snd).Nodup at hdistinct
    rw [map_append, nodup_append] at hdistinct
    have hnew : getDecodedObject (zipEntry e.2).object ∉ (l.part la hsub').elems.map Prod.snd := by
      rw [hdec]
      exact fun hmem => hdistinct.2.2 e.2 hmem e.2 mem_cons_self rfl
    have helems : ((l.part la hsub').insert (e.1, getDecodedObject (zipEntry e.2).object) hnew).elems = la ++ [e] := by
      have hpair : (e.1, getDecodedObject (zipEntry e.2).object) = e := Prod.ext rfl hdec
      rw [SortedSet.insert_elems hnew (append_nil la).symm (by rw [hpair]; exact l.sorted.sublist hsub), hpair]
    obtain ⟨zs', ids', es', h1, h2, h3⟩ := zsetInsert_spec (l := l.part la hsub') rounds h hes hnew (by
      intro a ha b hb
      rw [helems] at ha hb
      exact hno a (hsub.subset ha) b (hsub.subset hb))
    rw [helems] at h3
    obtain ⟨zs'', ids'', es'', h4, h5, h6⟩ := ih (by rw [hl, append_assoc]; rfl) h2 h3
    refine ⟨zs'', ids'', es'', ?_, h5, h6⟩
    rw [zzlEntries, zsetConvertLoop, hread, h1, bind_some, h4]

variable {z : Zobj S}

/-- **A set is converted to a skip list.** -/
theorem zsetConvert_spec (hread : fmt.Reads) (rounds : ℕ → ℕ) (h : z.Holds fmt l) (hne : l.elems ≠ []) (hno : l.NoClash) :
    ∃ z', zsetConvert fmt rounds z = some z' ∧ z'.Holds fmt l ∧ z'.isSkiplist = true := by
  cases z with
  | skiplist zs => exact ⟨.skiplist zs, rfl, h, rfl⟩
  | ziplist zl =>
    obtain ⟨e, rest, hl⟩ := exists_cons_of_ne_nil hne
    obtain ⟨zs', ids', es', h1, h2, h3⟩ := zsetConvertLoop_spec hread rounds hno (nil_append l.elems).symm zslCreate_ok rfl
    have hzl : zl = zzlEntries fmt l.elems := h
    refine ⟨.skiplist zs', ?_, ⟨ids', es', h2, h3⟩, rfl⟩
    rw [hl, zzlEntries] at hzl h1
    rw [hzl, zsetConvert, h1]
    · rfl
    · exact fun hc => (by cases hc)

/-! ## Additions -/

variable {cfg : ZsetConfig} {add : S → S → Option S} {incr : Bool} {rounds : ℕ → ℕ} {z : Zobj S} {s : S} {m : List UInt8} {arg : ZArg}

def skipAfter (cfg : ZsetConfig) (skip new : Bool) (m : List UInt8) (l' : SortedSet S) : Bool :=
  skip || (new && (decide (cfg.entries < l'.elems.length) || decide (cfg.value < m.length)))

theorem zzlInsert_put (hread : fmt.Reads) : zzlInsert fmt m s (zzlEntries fmt (l.erase m).elems) = some (zzlEntries fmt (l.put (s, m)).elems) := by
  obtain ⟨la, lb, hl, h1, h2, h3⟩ := SortedSet.insert_split (l.erase_not_mem m) (e := (s, m))
  have hput : (l.put (s, m)).elems = la ++ (s, m) :: lb := h3
  rw [hl, hput]
  exact zzlInsert_spec hread h1 h2

/-- **One member that is added to a ziplist.** -/
theorem zaddZiplist_spec (hread : fmt.Reads) (rounds : ℕ → ℕ)
    (htame : ∀ s' new l', l.addMember add incr (s, m) = some (s', new, l') → skipAfter cfg false new m l' = true → l'.NoClash) :
    (l.addMember add incr (s, m) = none ∧ zaddZiplist cfg fmt add incr rounds (zzlEntries fmt l.elems) s m = some none) ∨
    ∃ s' new l' z', l.addMember add incr (s, m) = some (s', new, l') ∧
      zaddZiplist cfg fmt add incr rounds (zzlEntries fmt l.elems) s m = some (some (s', new, z')) ∧ z'.Holds fmt l' ∧
      z'.isSkiplist = skipAfter cfg false new m l' := by
  rcases l.mem_or_split m with hnew | ⟨la, cur, lb, hl⟩
  · have hadd : l.addMember add incr (s, m) = some (s, true, l.put (s, m)) := by
      rw [SortedSet.addMember, SortedSet.score_none hnew]
    have hinsert : zzlInsert fmt m s (zzlEntries fmt l.elems) = some (zzlEntries fmt (l.put (s, m)).elems) := by
      have h := zzlInsert_put (l := l) (m := m) (s := s) hread
      rwa [SortedSet.erase_of_not_mem hnew] at h
    have hno := htame s true _ hadd
    unfold skipAfter at hno
    rw [Bool.false_or, Bool.true_and, Bool.or_eq_true, decide_eq_true_iff, decide_eq_true_iff] at hno
    rw [zaddZiplist, zzlFind_not_mem hnew]
    rw [hinsert, bind_some, zzlLength_entries]
    have hholds : (Zobj.ziplist (zzlEntries fmt (l.put (s, m)).elems)).Holds fmt (l.put (s, m)) := rfl
    -- a set that is too long, or has too long a member, becomes a skip list
    obtain ⟨z1, h1, h2, h3⟩ : ∃ z1 : Zobj S, (if cfg.entries < (l.put (s, m)).elems.length then zsetConvert fmt rounds (.ziplist (zzlEntries fmt (l.put (s, m)).elems))
        else some (.ziplist (zzlEntries fmt (l.put (s, m)).elems))) = some z1 ∧ z1.Holds fmt (l.put (s, m)) ∧
        z1.isSkiplist = decide (cfg.entries < (l.put (s, m)).elems.length) := by
      by_cases hlong : cfg.entries < (l.put (s, m)).elems.length
      · rw [if_pos hlong, decide_eq_true hlong]
        exact zsetConvert_spec hread rounds hholds (l.put_ne_nil _) (hno (Or.inl hlong))
      · rw [if_neg hlong, decide_eq_false hlong]
        exact ⟨_, rfl, hholds, rfl⟩
    obtain ⟨z2, h4, h5, h6⟩ : ∃ z2 : Zobj S, (if cfg.value < m.length then zsetConvert fmt rounds z1 else some z1) = some z2 ∧ z2.Holds fmt (l.put (s, m)) ∧
        z2.isSkiplist = (decide (cfg.entries < (l.put (s, m)).elems.length) || decide (cfg.value < m.length)) := by
      by_cases hlong : cfg.value < m.length
      · rw [if_pos hlong, decide_eq_true hlong, Bool.or_true]
        exact zsetConvert_spec hread rounds h2 (l.put_ne_nil _) (hno (Or.inr hlong))
      · rw [if_neg hlong, decide_eq_false hlong, Bool.or_false]
        exact ⟨z1, rfl, h2, h3⟩
    rw [h1, bind_some, h4]
    exact Or.inr ⟨s, true, l.put (s, m), z2, hadd, rfl, h5, h6⟩
  · have hscore : l.score m = some cur := SortedSet.score_mem hl
    have hfind : zzlFind fmt (zzlEntries fmt l.elems) m = some (some (2 * la.length, cur)) := by
      have hnot : m ∉ la.map Prod.snd := fun hmem => SortedSet.not_mem_others hl (by
        rw [map_append]
        exact mem_append_left _ hmem)
      rw [hl]
      exact zzlFind_mem (e := (cur, m)) hread hnot
    have hadd : l.addMember add incr (s, m) = (zaddScore add incr s cur).map fun s => (s, false, l.put (s, m)) := by
      rw [SortedSet.addMember, hscore]
      rfl
    rw [zaddZiplist, hfind, hadd]
    dsimp only
    cases zaddScore add incr s cur with
    | none => exact Or.inl ⟨rfl, rfl⟩
    | some s' =>
      refine Or.inr ⟨s', false, l.put (s', m), .ziplist (zzlEntries fmt (l.put (s', m)).elems), rfl, ?_, rfl, rfl⟩
      dsimp only
      by_cases hsame : s' = cur
      · subst hsame
        rw [if_neg (not_not.2 rfl), SortedSet.put_same hl]
      · have hdelete : zzlDelete (zzlEntries fmt l.elems) (2 * la.length) = zzlEntries fmt (l.erase m).elems := by
          have herase : (l.erase m).elems = la ++ lb := SortedSet.erase_elems hl
          rw [hl, zzlDelete_spec, herase]
        rw [if_pos hsame, hdelete, zzlInsert_put hread]
        rfl

theorem member_node (h : zs.Ok ids es) (hl : es.map memberOf = l.elems) {la lb : List (Member S)} {cur : S} (hm : l.elems = la ++ (cur, m) :: lb) :
    ∃ pre x post ea e eb, ids = pre ++ x :: post ∧ es = ea ++ e :: eb ∧ ea.length = pre.length ∧ memberOf e = (cur, m) ∧
      (ea ++ eb).map memberOf = (l.erase m).elems := by
  rw [hm] at hl
  obtain ⟨ea, r, rfl, hea, hr⟩ := map_eq_append_iff.1 hl
  obtain ⟨e, eb, rfl, he, heb⟩ := map_eq_cons_iff.1 hr
  obtain ⟨pre, rest, rfl, hlen⟩ := h.layout.split
  have herase : (l.erase m).elems = la ++ lb := SortedSet.erase_elems hm
  cases rest with
  | nil =>
    have hall := h.layout.es_length
    rw [append_nil, length_append, length_cons] at hall
    omega
  | cons x post => exact ⟨pre, x, post, ea, e, eb, rfl, rfl, hlen, he, by rw [map_append, hea, heb, herase]⟩

theorem zslDelete_node (h : zs.Ok (pre ++ x :: post) (ea ++ e :: eb)) (hea : ea.length = pre.length)
    (hl : (ea ++ e :: eb).map memberOf = l.elems) (hno : l.NoClash) (hobj : getDecodedObject e.2 = getDecodedObject obj) :
    ∃ z', zslDelete zs.zsl e.1 obj = some (true, z') ∧ Layout zskiplistMaxlevel z' (pre ++ post) (ea ++ eb) := by
  refine zslDelete_spec h.layout hea h.sorted hobj (apart_nodes hno (fun e he => mem_nodes hl he) ?_)
  rw [← hobj]
  exact mem_nodes hl (mem_append_right ea mem_cons_self)

/-- **One member that is added to a skip list.** -/
theorem zaddSkiplist_spec (rounds : ℕ → ℕ) (h : zs.Ok ids es) (hl : es.map memberOf = l.elems) (hno : l.NoClash) (hele : getDecodedObject ele = m)
    (htame : ∀ s' new l', l.addMember add incr (s, m) = some (s', new, l') → l'.NoClash) :
    (l.addMember add incr (s, m) = none ∧ zaddSkiplist add incr rounds zs s ele = some none) ∨
    ∃ s' new l' zs' ids' es', l.addMember add incr (s, m) = some (s', new, l') ∧ zaddSkiplist add incr rounds zs s ele = some (some (s', new, zs')) ∧
      zs'.Ok ids' es' ∧ es'.map memberOf = l'.elems := by
  rcases l.mem_or_split m with hnew | ⟨la, cur, lb, hm⟩
  · have hadd : l.addMember add incr (s, m) = some (s, true, l.put (s, m)) := by
      rw [SortedSet.addMember, SortedSet.score_none hnew]
    have hput : l.put (s, m) = l.insert (s, m) hnew := SortedSet.put_new hnew
    subst hele
    obtain ⟨zs', ids', es', h1, h2, h3⟩ := zsetInsert_spec rounds h hl hnew (hput ▸ htame s true _ hadd)
    rw [zaddSkiplist, h.find_none (not_mem_nodes hl hnew)]
    rw [h1]
    exact Or.inr ⟨s, true, l.put (s, _), zs', ids', es', hadd, rfl, h2, by rw [h3, hput]⟩
  · have hscore : l.score m = some cur := SortedSet.score_mem hm
    have hadd : l.addMember add incr (s, m) = (zaddScore add incr s cur).map fun s => (s, false, l.put (s, m)) := by
      rw [SortedSet.addMember, hscore]
      rfl
    obtain ⟨pre, x, post, ea, e, eb, rfl, rfl, hea, he, hrest⟩ := member_node h hl hm
    have hcur : e.1 = cur := congrArg (fun p : Member S => p.1) he
    have hdec : getDecodedObject e.2 = m := congrArg (fun p : Member S => p.2) he
    rw [zaddSkiplist, h.find hea (hele.trans hdec.symm)]
    dsimp only
    rw [h.layout.elem_behind hea, bind_some, hcur]
    cases hs : zaddScore add incr s cur with
    | none => exact Or.inl ⟨by rw [hadd, hs]; rfl, rfl⟩
    | some s' =>
      have hadd' : l.addMember add incr (s, m) = some (s', false, l.put (s', m)) := by rw [hadd, hs]; rfl
      dsimp only
      by_cases hsame : s' = cur
      · subst hsame
        rw [if_neg (not_not.2 rfl)]
        exact Or.inr ⟨s', false, l.put (s', m), zs, _, _, hadd', rfl, h, by rw [hl, SortedSet.put_same hm]⟩
      · obtain ⟨z1, h1, h2⟩ := zslDelete_node h hea hl hno rfl
        rw [hcur] at h1
        -- the node goes to the place of its new score
        have hnew' := l.erase_not_mem m
        have hother : ∀ a ∈ ea ++ eb, getDecodedObject a.2 ≠ getDecodedObject e.2 := by
          intro a ha hc
          refine hnew' ?_
          rw [← hrest, ← hdec, ← hc]
          exact List.mem_map.2 ⟨memberOf a, List.mem_map_of_mem ha, rfl⟩
        have hall : ∀ b, b ∈ (l.put (s', m)).elems ↔ b = (s', m) ∨ b ∈ (l.erase m).elems := SortedSet.mem_insert (e := (s', m)) hnew'
        have hapart : ∀ a ∈ ea ++ eb, a.1 = s' → Apart (getDecodedObject a.2) (getDecodedObject e.2) := apart_nodes (htame s' false _ hadd')
          (fun a ha => (hall _).2 (Or.inr (hrest ▸ List.mem_map_of_mem ha))) ((hall _).2 (Or.inl (by rw [hdec])))
        have hsub : (ea ++ eb).Sublist (ea ++ e :: eb) := List.Sublist.append_left (sublist_cons_self e eb) ea
        obtain ⟨z2, pre', post', ea', eb', h3, hids, hes, hea', h4, h5⟩ :=
          zslInsert_spec (rounds z1.fresh) h2 (h.sorted.sublist hsub) hapart hother
        have hperm := mapSet_perm (y := z1.fresh) h.members (h.dict.trans (dictOf_perm hea)) rfl
        rw [if_pos hsame, h1]
        dsimp only
        rw [h3]
        refine Or.inr ⟨s', false, l.put (s', m), ⟨mapSet zs.dict e.2 z1.fresh, z2⟩, _, _, hadd', rfl, Zset.Ok.insert h4 hea' h5 ?_ ?_ ?_, ?_⟩
        · rw [← hids, ← hes]
          exact hperm
        · rw [← hes]
          exact h.distinct.sublist (hsub.map _)
        · rw [← hes]
          exact hother
        · have hsorted : ((ea' ++ (s', e.2) :: eb').map memberOf).Pairwise fun a b => memberKey a < memberKey b := pairwise_map.2 h5
          have hmid : memberOf (s', e.2) = (s', m) := by rw [← hdec]; rfl
          rw [map_append, map_cons, hmid] at hsorted ⊢
          refine (SortedSet.insert_elems hnew' ?_ hsorted).symm
          rw [← hrest, hes, map_append]

/-- A set, and that no two of its members with the same score clash when it is a skip list. -/
structure Zobj.Good (fmt : ScoreFormat S) (z : Zobj S) (l : SortedSet S) : Prop where
  holds : z.Holds fmt l
  noClash : z.isSkiplist = true → l.NoClash

/-- The same of a key; one without a set has no members, and one with a set has some. -/
structure DbGood (fmt : ScoreFormat S) (db : Option (Zobj S)) (l : SortedSet S) : Prop where
  absent : db = none → l.elems = []
  present : ∀ z, db = some z → z.Good fmt l ∧ l.elems ≠ []

@[grind =] def AddTame (cfg : ZsetConfig) (add : S → S → Option S) (incr : Bool) : Bool → SortedSet S → List (Member S) → Prop
  | _, _, [] => True
  | skip, l, e :: es => ∀ s new l', l.addMember add incr e = some (s, new, l') →
      (skipAfter cfg skip new e.2 l' = true → l'.NoClash) ∧ AddTame cfg add incr (skipAfter cfg skip new e.2 l') l' es

/-- **One member that is added.** -/
theorem zaddMember_spec (hread : fmt.Reads) (rounds : ℕ → ℕ) (h : z.Good fmt l)
    (htame : ∀ s' new l', l.addMember add incr (s, arg.bytes) = some (s', new, l') → skipAfter cfg z.isSkiplist new arg.bytes l' = true → l'.NoClash) :
    (l.addMember add incr (s, arg.bytes) = none ∧ zaddMember cfg fmt add incr rounds z (s, arg) = some none) ∨
    ∃ s' new l' z', l.addMember add incr (s, arg.bytes) = some (s', new, l') ∧
      zaddMember cfg fmt add incr rounds z (s, arg) = some (some (s', new, z')) ∧ z'.Good fmt l' ∧
      z'.isSkiplist = skipAfter cfg z.isSkiplist new arg.bytes l' := by
  cases z with
  | ziplist zl =>
    obtain rfl : zl = zzlEntries fmt l.elems := h.holds
    rcases zaddZiplist_spec hread rounds htame with h1 | ⟨s', new, l', z', h1, h2, h3, h4⟩
    · exact Or.inl h1
    · exact Or.inr ⟨s', new, l', z', h1, h2, ⟨h3, fun hskip => htame s' new l' h1 (h4.symm.trans hskip)⟩, h4⟩
  | skiplist zs =>
    obtain ⟨ids, es, hok, hes⟩ := h.holds
    have hdec : getDecodedObject (tryObjectEncoding arg.shared (.raw arg.bytes)) = arg.bytes := tryObjectEncoding_decoded arg.shared (.raw arg.bytes)
    have hskip : ∀ {new : Bool} {l' : SortedSet S}, skipAfter cfg true new arg.bytes l' = true := fun {_ _} => Bool.true_or _
    rw [zaddMember]
    rcases zaddSkiplist_spec rounds hok hes (h.noClash rfl) hdec (fun s' new l' hl' => htame s' new l' hl' hskip) with
      ⟨h1, h2⟩ | ⟨s', new, l', zs', ids', es', h1, h2, h3, h4⟩
    · rw [h2]
      exact Or.inl ⟨h1, rfl⟩
    · rw [h2]
      exact Or.inr ⟨s', new, l', .skiplist zs', h1, rfl, ⟨⟨ids', es', h3, h4⟩, fun _ => htame s' new l' h1 hskip⟩, hskip.symm⟩

variable {l' : SortedSet S}

theorem addMember_ne_nil {e : Member S} {new : Bool} (h : l.addMember add incr e = some (s, new, l')) : l'.elems ≠ [] := by
  unfold SortedSet.addMember at h
  cases hscore : l.score e.2 with
  | none =>
    rw [hscore] at h
    obtain ⟨-, -, rfl⟩ := Option.some.inj h
    exact l.put_ne_nil e
  | some cur =>
    rw [hscore] at h
    obtain ⟨s', -, heq⟩ := map_eq_some_iff.1 h
    cases heq
    exact l.put_ne_nil _

theorem addMember_none {e : Member S} (h : l.addMember add incr e = none) : l.elems ≠ [] := by
  intro hnil
  have hscore : l.score e.2 = none := SortedSet.score_none (by rw [hnil]; exact not_mem_nil)
  rw [SortedSet.addMember, hscore] at h
  cases h

/-- **The members that are added, one after the other.** -/
theorem zaddLoop_spec (hread : fmt.Reads) (rounds : ℕ → ℕ) : ∀ (es : List (S × ZArg)) {added : ℕ} {score : S} {z : Zobj S} {l : SortedSet S}, z.Good fmt l →
    l.elems ≠ [] ∨ es ≠ [] → AddTame cfg add incr z.isSkiplist l (es.map fun e => (e.1, e.2.bytes)) →
    ∃ z', zaddLoop cfg fmt add incr rounds added score z es = some ((SortedSet.addMembers add incr added score l (es.map fun e => (e.1, e.2.bytes))).1, z') ∧
      z'.Good fmt (SortedSet.addMembers add incr added score l (es.map fun e => (e.1, e.2.bytes))).2 ∧
      (SortedSet.addMembers add incr added score l (es.map fun e => (e.1, e.2.bytes))).2.elems ≠ [] := by
  intro es
  induction es with
  | nil =>
    intro added score z l h hne _
    exact ⟨z, rfl, h, hne.resolve_right fun hc => hc rfl⟩
  | cons e es ih =>
    intro added score z l h _ htame
    rw [map_cons] at htame ⊢
    rw [zaddLoop, SortedSet.addMembers]
    rcases zaddMember_spec hread rounds h (fun s' new l' hl' => (htame s' new l' hl').1) with
      ⟨h1, h2⟩ | ⟨s', new, l', z', h1, h2, h3, h4⟩
    · rw [h1, h2]
      exact ⟨z, rfl, h, addMember_none h1⟩
    · have hne' := addMember_ne_nil h1
      have htame' := (htame s' new l' h1).2
      rw [h1, h2]
      rw [← h4] at htame'
      exact ih h3 (Or.inl hne') htame'

variable {db : Option (Zobj S)}

theorem noClash_empty (h : l.elems = []) : l.NoClash := by
  intro a ha
  rw [h] at ha
  exact (not_mem_nil ha).elim

theorem SortedSet.NoClash.sub (h : l.NoClash) (hsub : l'.elems ⊆ l.elems) : l'.NoClash :=
  fun a ha b hb => h a (hsub ha) b (hsub hb)

theorem zaddCreate_good (h : l.elems = []) (ele : List UInt8) : (zaddCreate cfg ele : Zobj S).Good fmt l := by
  refine ⟨?_, fun _ => noClash_empty h⟩
  unfold zaddCreate
  by_cases hskip : cfg.entries = 0 ∨ cfg.value < ele.length
  · rw [if_pos hskip]
    exact ⟨[], [], zslCreate_ok, h.symm⟩
  · rw [if_neg hskip]
    change [] = zzlEntries fmt l.elems
    rw [h]
    rfl

/-- **`ZADD` and `ZINCRBY`.** -/
theorem zaddGenericCommand_spec (hread : fmt.Reads) (rounds : ℕ → ℕ) (h : DbGood fmt db l) (first : S × ZArg) (more : List (S × ZArg))
    (htame : AddTame cfg add incr (db.getD (zaddCreate cfg first.2.bytes)).isSkiplist l ((first :: more).map fun e => (e.1, e.2.bytes))) :
    ∃ db', zaddGenericCommand cfg fmt add incr rounds db first more =
        some ((SortedSet.addMembers add incr 0 first.1 l ((first :: more).map fun e => (e.1, e.2.bytes))).1, db') ∧
      DbGood fmt db' (SortedSet.addMembers add incr 0 first.1 l ((first :: more).map fun e => (e.1, e.2.bytes))).2 := by
  have hgood : (db.getD (zaddCreate cfg first.2.bytes)).Good fmt l := by
    cases db with
    | none => exact zaddCreate_good (h.absent rfl) _
    | some z => exact (h.present z rfl).1
  obtain ⟨z', h1, h2, h3⟩ := zaddLoop_spec hread rounds (first :: more) hgood (Or.inr (cons_ne_nil first more)) htame
  refine ⟨some z', by rw [zaddGenericCommand, h1]; rfl, fun hc => (by cases hc), fun z hz => ?_⟩
  obtain rfl := Option.some.inj hz
  exact ⟨h2, h3⟩

/-! ## Deletions -/

theorem erase_sub (l : SortedSet S) (m : List UInt8) : (l.erase m).elems ⊆ l.elems := filter_sublist.subset

variable {n : ℕ}

theorem DbGood.of_length (h : z.Good fmt l) (hn : n = l.elems.length) : DbGood fmt (if n = 0 then none else some z) l := by
  by_cases hzero : n = 0
  · rw [if_pos hzero]
    exact ⟨fun _ => length_eq_zero_iff.1 (hn.symm.trans hzero), fun z hz => (by cases hz)⟩
  · rw [if_neg hzero]
    refine ⟨fun hc => (by cases hc), fun z' hz => ?_⟩
    obtain rfl := Option.some.inj hz
    exact ⟨h, fun hc => hzero (hn.trans (length_eq_zero_iff.2 hc))⟩

theorem remMembers_nil (h : l.elems = []) : ∀ (ms : List (List UInt8)) (deleted : ℕ), l.remMembers deleted ms = (deleted, l)
  | [], _ => rfl
  | m :: ms, deleted => by
    have hscore : l.score m = none := SortedSet.score_none (by rw [h]; exact not_mem_nil)
    rw [SortedSet.remMembers, hscore]
    exact remMembers_nil h ms deleted

/-- **`ZREM` for a ziplist.** -/
theorem zremZiplist_spec (hread : fmt.Reads) : ∀ (ms : List (List UInt8)) {deleted : ℕ} {l : SortedSet S}, l.elems ≠ [] →
    ∃ r, zremZiplist fmt deleted (zzlEntries fmt l.elems) ms = some ((l.remMembers deleted ms).1, r) ∧
      ((r = none ∧ (l.remMembers deleted ms).2.elems = []) ∨
        (r = some (zzlEntries fmt (l.remMembers deleted ms).2.elems) ∧ (l.remMembers deleted ms).2.elems ≠ [])) := by
  intro ms
  induction ms with
  | nil =>
    intro deleted l hne
    exact ⟨_, rfl, Or.inr ⟨rfl, hne⟩⟩
  | cons m ms ih =>
    intro deleted l hne
    rw [zremZiplist, SortedSet.remMembers]
    rcases l.mem_or_split m with hnew | ⟨la, cur, lb, hm⟩
    · rw [zzlFind_not_mem hnew, SortedSet.score_none hnew]
      exact ih hne
    · have hscore : l.score m = some cur := SortedSet.score_mem hm
      have herase : (l.erase m).elems = la ++ lb := SortedSet.erase_elems hm
      have hnot : m ∉ la.map Prod.snd := fun hmem => SortedSet.not_mem_others hm (by
        rw [map_append]
        exact mem_append_left _ hmem)
      have hfind : zzlFind fmt (zzlEntries fmt l.elems) m = some (some (2 * la.length, cur)) := by
        rw [hm]
        exact zzlFind_mem (e := (cur, m)) hread hnot
      have hdelete : zzlDelete (zzlEntries fmt l.elems) (2 * la.length) = zzlEntries fmt (l.erase m).elems := by rw [hm, zzlDelete_spec, herase]
      rw [hfind, hscore]
      dsimp only
      rw [hdelete, zzlLength_entries, isSome_some, if_pos rfl]
      by_cases hzero : (l.erase m).elems.length = 0
      · -- with its last member the set is gone
        have hnil := length_eq_zero_iff.1 hzero
        rw [if_pos hzero, remMembers_nil hnil]
        exact ⟨none, rfl, Or.inl ⟨rfl, hnil⟩⟩
      · rw [if_neg hzero]
        exact ih fun hc => hzero (by rw [hc]; rfl)

variable {z' : Zskiplist S}

theorem Zset.Ok.delete (h : zs.Ok (pre ++ x :: post) (ea ++ e :: eb)) (hea : ea.length = pre.length)
    (hobj : getDecodedObject ele = getDecodedObject e.2) (hz' : Layout zskiplistMaxlevel z' (pre ++ post) (ea ++ eb)) :
    Zset.Ok ⟨mapDelete zs.dict ele, z'⟩ (pre ++ post) (ea ++ eb) := by
  have hsub : (ea ++ eb).Sublist (ea ++ e :: eb) := List.Sublist.append_left (sublist_cons_self e eb) ea
  exact ⟨hz', mapDelete_perm h.members (h.dict.trans (dictOf_perm hea)) hobj, h.sorted.sublist hsub, h.distinct.sublist (hsub.map _)⟩

/-- **`ZREM` for a skip list.** -/
theorem zremSkiplist_spec : ∀ (ms : List (List UInt8)) {deleted : ℕ} {l : SortedSet S} {zs : Zset S} {ids : List ℕ} {es : List (S × Robj)},
    zs.Ok ids es → es.map memberOf = l.elems → l.NoClash → l.elems ≠ [] →
    ∃ r, zremSkiplist deleted zs ms = some ((l.remMembers deleted ms).1, r) ∧ ((r = none ∧ (l.remMembers deleted ms).2.elems = []) ∨
        ((l.remMembers deleted ms).2.elems ≠ [] ∧ (l.remMembers deleted ms).2.NoClash ∧ ∃ zs' ids' es', r = some zs' ∧ zs'.Ok ids' es' ∧
          es'.map memberOf = (l.remMembers deleted ms).2.elems)) := by
  intro ms
  induction ms with
  | nil =>
    intro deleted l zs ids es h hl hno hne
    exact ⟨_, rfl, Or.inr ⟨hne, hno, zs, ids, es, rfl, h, hl⟩⟩
  | cons m ms ih =>
    intro deleted l zs ids es h hl hno hne
    rw [zremSkiplist, SortedSet.remMembers]
    rcases l.mem_or_split m with hnew | ⟨la, cur, lb, hm⟩
    · have hfind : mapFind zs.dict (.raw m) = none := h.find_none (not_mem_nodes hl hnew)
      rw [hfind, SortedSet.score_none hnew]
      exact ih h hl hno hne
    · have hscore : l.score m = some cur := SortedSet.score_mem hm
      obtain ⟨pre, x, post, ea, e, eb, rfl, rfl, hea, he, hrest⟩ := member_node h hl hm
      have hdec : getDecodedObject (.raw m) = getDecodedObject e.2 := (congrArg (fun p : Member S => p.2) he).symm
      obtain ⟨z', h1, h2⟩ := zslDelete_node h hea hl hno hdec.symm
      have hok := h.delete hea hdec h2
      rw [h.find hea hdec, hscore]
      dsimp only
      rw [h.layout.elem_behind hea, bind_some, h1, isSome_some, if_pos rfl]
      dsimp only
      have hlen : (mapDelete zs.dict (.raw m)).length = (l.erase m).elems.length := by rw [← hrest, length_map, ← hok.dict_length]
      rw [hlen]
      by_cases hzero : (l.erase m).elems.length = 0
      · have hnil := length_eq_zero_iff.1 hzero
        rw [if_pos hzero, remMembers_nil hnil]
        exact ⟨none, rfl, Or.inl ⟨rfl, hnil⟩⟩
      · rw [if_neg hzero]
        exact ih hok hrest (hno.sub (erase_sub l m)) fun hc => hzero (by rw [hc]; rfl)

/-- **`ZREM`.** -/
theorem zremCommand_spec (hread : fmt.Reads) (h : DbGood fmt db l) (ms : List (List UInt8)) :
    ∃ db', zremCommand fmt db ms = some (.number (l.remMembers 0 ms).1, db') ∧ DbGood fmt db' (l.remMembers 0 ms).2 := by
  have hnone : ∀ {l' : SortedSet S}, l'.elems = [] → DbGood fmt none l' := fun hl' => ⟨fun _ => hl', fun z hz => (by cases hz)⟩
  have hsome : ∀ {z : Zobj S} {l' : SortedSet S}, z.Good fmt l' → l'.elems ≠ [] → DbGood fmt (some z) l' := fun hz hne =>
    ⟨fun hc => (by cases hc), fun z' hz' => Option.some.inj hz' ▸ ⟨hz, hne⟩⟩
  cases db with
  | none =>
    have hnil := h.absent rfl
    rw [remMembers_nil hnil]
    exact ⟨none, rfl, hnone hnil⟩
  | some z =>
    obtain ⟨⟨hholds, hno⟩, hne⟩ := h.present z rfl
    cases z with
    | ziplist zl =>
      obtain rfl : zl = zzlEntries fmt l.elems := hholds
      obtain ⟨r, h1, h2⟩ := zremZiplist_spec hread ms hne
      refine ⟨r.map .ziplist, by rw [zremCommand, h1]; rfl, ?_⟩
      rcases h2 with ⟨rfl, hnil⟩ | ⟨rfl, hne'⟩
      · exact hnone hnil
      · exact hsome ⟨rfl, fun hc => (by cases hc)⟩ hne'
    | skiplist zs =>
      obtain ⟨ids, es, hok, hes⟩ := hholds
      obtain ⟨r, h1, h2⟩ := zremSkiplist_spec ms hok hes (hno rfl) hne
      refine ⟨r.map .skiplist, by rw [zremCommand, h1]; rfl, ?_⟩
      rcases h2 with ⟨rfl, hnil⟩ | ⟨hne', hno', zs', ids', es', rfl, hok', hes'⟩
      · exact hnone hnil
      · exact hsome ⟨⟨ids', es', hok', hes'⟩, fun _ => hno'⟩ hne'

omit [LinearOrder S] in
theorem foldl_mapDelete : ∀ {mid : List ℕ} {ei : List (S × Robj)} {dict rest : List (Robj × ℕ)}, ei.length = mid.length → DistinctMembers dict →
    dict.Perm (dictOf mid ei ++ rest) → ((ei.map Prod.snd).foldl mapDelete dict).Perm rest
  | [], [], _, _, _, _, hp => hp
  | x :: mid, e :: ei, dict, rest, hlen, hd, hp => by
    have hperm : (mapDelete dict e.2).Perm (dictOf mid ei ++ rest) := mapDelete_perm hd hp rfl
    have hrest : DistinctMembers (dictOf mid ei ++ rest) := (nodup_cons.1 (hd.perm hp)).2
    have hlen' : ei.length = mid.length := Nat.succ.inj (by rwa [length_cons, length_cons] at hlen)
    have hgo : ((ei.map Prod.snd).foldl mapDelete (mapDelete dict e.2)).Perm rest := foldl_mapDelete hlen' (hrest.perm hperm.symm) hperm
    exact hgo
  | [], _ :: _, _, _, hlen, _, _ => by cases hlen
  | _ :: _, [], _, _, hlen, _, _ => by cases hlen

variable (fmt) in
theorem deletedZiplist_spec (l' : SortedSet S) (n : ℕ) : ∃ db', deletedZiplist (n, zzlEntries fmt l'.elems) = ((.number n : ZReply S), db') ∧ DbGood fmt db' l' := by
  refine ⟨_, rfl, DbGood.of_length (z := .ziplist (zzlEntries fmt l'.elems)) ⟨rfl, fun hc => (by cases hc)⟩ zzlLength_entries⟩

variable (fmt) in
theorem deletedSkiplist_spec {mid : List ℕ} {ei : List (S × Robj)} (h : zs.Ok (pre ++ mid ++ post) (ea ++ ei ++ eb))
    (hea : ea.length = pre.length) (hei : ei.length = mid.length) (hz' : Layout zskiplistMaxlevel z' (pre ++ post) (ea ++ eb))
    (hl' : (ea ++ eb).map memberOf = l'.elems) (hno : l'.NoClash) :
    ∃ db', deletedSkiplist zs.dict (ei.map Prod.snd, z') = (.number ei.length, db') ∧ DbGood fmt db' l' := by
  have hperm : (dictOf (pre ++ mid ++ post) (ea ++ ei ++ eb)).Perm (dictOf mid ei ++ dictOf (pre ++ post) (ea ++ eb)) := by
    unfold dictOf
    rw [zipWith_append (by rw [length_append, length_append, hea, hei]), zipWith_append hea.symm, zipWith_append hea.symm, ← append_assoc]
    exact perm_append_comm.append_right _
  have hsub : (ea ++ eb).Sublist (ea ++ ei ++ eb) := (sublist_append_left ea ei).append_right eb
  have hdict := foldl_mapDelete hei h.members (h.dict.trans hperm)
  have hok : Zset.Ok ⟨(ei.map Prod.snd).foldl mapDelete zs.dict, z'⟩ (pre ++ post) (ea ++ eb) :=
    ⟨hz', hdict, h.sorted.sublist hsub, h.distinct.sublist (hsub.map _)⟩
  refine ⟨_, by rw [deletedSkiplist, length_map], DbGood.of_length (z := .skiplist _) ⟨⟨_, _, hok, hl'⟩, fun _ => hno⟩ ?_⟩
  rw [← hl', length_map]
  exact hok.dict_length

/-- **`ZREMRANGEBYSCORE`.** -/
theorem zremrangebyscoreCommand_spec (hread : fmt.Reads) (h : DbGood fmt db l) (range : Zrangespec S) :
    ∃ db', zremrangebyscoreCommand fmt db range = some (.number (l.elems.filter (inRange range)).length, db') ∧
      DbGood fmt db' (l.keep fun e => !inRange range e) := by
  have hkeep : (l.keep fun e => !inRange range e).elems = l.elems.filter fun e => !inRange range e := rfl
  cases db with
  | none =>
    have hnil := h.absent rfl
    rw [hnil] at hkeep ⊢
    exact ⟨none, rfl, fun _ => hkeep, fun z hz => (by cases hz)⟩
  | some z =>
    obtain ⟨⟨hholds, hno⟩, -⟩ := h.present z rfl
    cases z with
    | ziplist zl =>
      obtain rfl : zl = zzlEntries fmt l.elems := hholds
      obtain ⟨below, inside, above, hl, hsplit⟩ := range_split range l.sorted
      obtain ⟨h1, h2⟩ := hsplit.filter
      rw [← hl] at h1 h2
      obtain ⟨db', h3, h4⟩ := deletedZiplist_spec fmt (l.keep fun e => !inRange range e) inside.length
      rw [hkeep, h2] at h3
      refine ⟨db', ?_, h4⟩
      rw [h1, zremrangebyscoreCommand, hl, zzlDeleteRangeByScore_spec hread hsplit, map_some, h3]
    | skiplist zs =>
      obtain ⟨ids, es, hok, hes⟩ := hholds
      obtain ⟨ea, ei, eb, pre, mid, post, rfl, rfl, hsplit⟩ := nodes_split range hok.layout hok.sorted
      obtain ⟨h1, h2⟩ := hsplit.split.filter
      rw [map_append, map_append] at hes
      rw [hes] at h1 h2
      rw [h2, ← map_append] at hkeep
      obtain ⟨z', h3, h4⟩ := zslDeleteRangeByScore_spec hok.layout hsplit
      obtain ⟨db', h5, h6⟩ := deletedSkiplist_spec fmt hok hsplit.pre hsplit.mid h4 hkeep.symm ((hno rfl).sub filter_sublist.subset)
      refine ⟨db', ?_, h6⟩
      rw [zremrangebyscoreCommand, h3, map_some, h5, h1, length_map]

variable {start stop : ℤ}

theorem sanitizeIndexes_none (h : sanitizeIndexes n start stop = none) :
    (fromEnd n stop + 1).toNat ≤ (fromEnd n start).toNat ∨ n ≤ (fromEnd n start).toNat := by
  unfold sanitizeIndexes at h
  unfold fromEnd
  by_contra hc
  rw [if_neg (by split_ifs at * <;> omega)] at h
  cases h

variable {i j : ℕ}

theorem sanitizeIndexes_some (h : sanitizeIndexes n start stop = some (i, j)) :
    i = (fromEnd n start).toNat ∧ i ≤ j ∧ j < n ∧ (j + 1 = (fromEnd n stop + 1).toNat ∨ j + 1 = n ∧ n ≤ (fromEnd n stop + 1).toNat) := by
  unfold sanitizeIndexes at h
  unfold fromEnd
  dsimp only at h
  split_ifs at h ⊢ <;> first | (cases h; done) | (simp only [Option.some.injEq, Prod.mk.injEq] at h; omega)

theorem zsetLength_spec (h : z.Holds fmt l) : zsetLength z = l.elems.length := by
  cases z with
  | ziplist zl =>
    obtain rfl : zl = zzlEntries fmt l.elems := h
    exact zzlLength_entries
  | skiplist zs =>
    obtain ⟨ids, es, hok, hes⟩ := h
    rw [zsetLength, hok.layout.length, hok.layout.es_length, ← hes, length_map]

theorem split_at {α : Type} (l : List α) (hij : i ≤ j) (hj : j ≤ l.length) :
    ∃ la lm lb, l = la ++ lm ++ lb ∧ la.length = i ∧ lm.length = j - i ∧ la = l.take i ∧ lb = l.drop j := by
  refine ⟨l.take i, (l.take j).drop i, l.drop j, ?_, ?_, ?_, rfl, rfl⟩
  · have htake : l.take i = (l.take j).take i := by rw [take_take, Nat.min_eq_left hij]
    rw [htake, take_append_drop, take_append_drop]
  · rw [length_take]
    omega
  · rw [length_drop, length_take]
    omega

/-- **`ZREMRANGEBYRANK`.** -/
theorem zremrangebyrankCommand_spec (h : DbGood fmt db l) (start stop : ℤ) :
    ∃ db', zremrangebyrankCommand db start stop = some ((l.update add (.zremrangebyrank start stop)).1, db') ∧
      DbGood fmt db' (l.update add (.zremrangebyrank start stop)).2 := by
  set l' := l.cut (fromEnd l.elems.length start).toNat (fromEnd l.elems.length stop + 1).toNat with hl'
  have hupdate : l.update add (.zremrangebyrank start stop) = (.number (l.elems.length - l'.elems.length : ℕ), l') := rfl
  have hcut : l'.elems = l.elems.take (fromEnd l.elems.length start).toNat ++
      l.elems.drop (max (fromEnd l.elems.length start).toNat (fromEnd l.elems.length stop + 1).toNat) := rfl
  rw [hupdate]
  cases db with
  | none =>
    have hnil := h.absent rfl
    rw [hnil, take_nil, drop_nil] at hcut
    rw [hnil, hcut]
    exact ⟨none, rfl, fun _ => hcut, fun z hz => (by cases hz)⟩
  | some z =>
    obtain ⟨hgood, hne⟩ := h.present z rfl
    have hlen := zsetLength_spec hgood.holds
    rw [zremrangebyrankCommand, hlen]
    cases hs : sanitizeIndexes l.elems.length start stop with
    | none =>
      -- nothing is in the range
      have hsame : l' = l := SortedSet.ext_elems (by
        rw [hcut]
        rcases sanitizeIndexes_none hs with hle | hle
        · rw [max_eq_left hle, take_append_drop]
        · rw [take_of_length_le hle, drop_eq_nil_of_le (hle.trans (le_max_left _ _)), append_nil])
      rw [hsame, Nat.sub_self]
      exact ⟨some z, rfl, h⟩
    | some r =>
      obtain ⟨i, j⟩ := r
      obtain ⟨hi, hij, hj, hstop⟩ := sanitizeIndexes_some hs
      obtain ⟨la, lm, lb, hl, hla, hlm, hla', hlb'⟩ := split_at l.elems (show i ≤ j + 1 by omega) (show j + 1 ≤ l.elems.length by omega)
      have hcut' : l'.elems = la ++ lb := by
        rw [hcut, ← hi, hla', hlb']
        congr 1
        rcases hstop with hstop | ⟨hstop, hle⟩
        · rw [← hstop, max_eq_right (by omega)]
        · rw [drop_eq_nil_of_le (hle.trans (le_max_right _ _)), hstop, drop_length]
      have hdeleted : l.elems.length - l'.elems.length = lm.length := by
        rw [hcut', hl, length_append, length_append, length_append]
        omega
      have hlast : la.length + lm.length = j + 1 := by omega
      have hsub : l'.elems ⊆ l.elems := by
        rw [hcut', hl]
        exact ((sublist_append_left la lm).append_right lb).subset
      rw [hdeleted]
      cases z with
      | ziplist zl =>
        obtain rfl : zl = zzlEntries fmt l.elems := hgood.holds
        obtain ⟨db', h3, h4⟩ := deletedZiplist_spec fmt l' lm.length
        rw [hcut'] at h3
        refine ⟨db', ?_, h4⟩
        dsimp only
        rw [← hlast, ← hla, hl, zzlDeleteRangeByRank_spec (fun hc => by rw [hc, length_nil] at hlm; omega), h3]
      | skiplist zs =>
        obtain ⟨ids, es, hok, hes⟩ := hgood.holds
        rw [hl] at hes
        obtain ⟨ea', eb, rfl, hea', rfl⟩ := map_eq_append_iff.1 hes
        obtain ⟨ea, ei, rfl, rfl, rfl⟩ := map_eq_append_iff.1 hea'
        obtain ⟨pm, post, rfl, hpm⟩ := hok.layout.split
        obtain ⟨pre, mid, rfl, hpre⟩ : ∃ pre mid, pm = pre ++ mid ∧ ea.length = pre.length := by
          rw [length_append] at hpm
          exact ⟨pm.take ea.length, pm.drop ea.length, (take_append_drop _ _).symm, by rw [length_take]; omega⟩
        have hmid : ei.length = mid.length := by
          rw [length_append, length_append] at hpm
          omega
        obtain ⟨z', h3, h4⟩ := zslDeleteRangeByRank_spec hok.layout hpre hmid
        rw [← map_append] at hcut'
        obtain ⟨db', h5, h6⟩ := deletedSkiplist_spec fmt hok hpre hmid h4 hcut'.symm ((hgood.noClash rfl).sub hsub)
        rw [length_map] at hla hlm hlast
        rw [length_map] at hlast
        refine ⟨db', ?_, h6⟩
        dsimp only
        rw [← hlast, ← hla, hpre, hmid, h3, map_some, h5, length_map]

/-! ## Updates -/

/-- **The condition**: no two members with the same score clash whenever a member has been added to a set that is then a skip list. -/
def Tame (cfg : ZsetConfig) (add : S → S → Option S) (db : Option (Zobj S)) (l : SortedSet S) : ZUpdate S → Prop
  | .zadd first more =>
    AddTame cfg add false (db.getD (zaddCreate cfg first.2.bytes)).isSkiplist l ((first :: more).map fun e => (e.1, e.2.bytes))
  | .zincrby score member => AddTame cfg add true (db.getD (zaddCreate cfg member.bytes)).isSkiplist l [(score, member.bytes)]
  | _ => True

/-- **A command does to a set what it is to do**, in either encoding. -/
theorem zsetUpdate_spec (hread : fmt.Reads) (rounds : ℕ → ℕ) (h : DbGood fmt db l) (u : ZUpdate S) (htame : Tame cfg add db l u) :
    ∃ db', zsetUpdate cfg fmt add rounds db u = some ((l.update add u).1, db') ∧ DbGood fmt db' (l.update add u).2 := by
  cases u with
  | zadd first more => exact zaddGenericCommand_spec hread rounds h first more htame
  | zincrby score member => exact zaddGenericCommand_spec hread rounds h (score, member) [] htame
  | zrem members => exact zremCommand_spec hread h members
  | zremrangebyscore range => exact zremrangebyscoreCommand_spec hread h range
  | zremrangebyrank start stop => exact zremrangebyrankCommand_spec h start stop

end KVStores.Redis
