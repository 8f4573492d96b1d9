import KVStores.Redis.ListTypeSpec
import KVStores.Redis.SetTypeSpec
import KVStores.Redis.SortOrder
import KVStores.Redis.ZsetQueries

/-!
# SORT with a range
-/

namespace KVStores.Redis.Sort

open ListType (ListObj listTypeLength listTypeInitIterator listTypeNext)
open SetType (SetObj setTypeElements setTypeSize)

variable {S T : Type} [LinearOrder S] {server : Server S T} {db : Db S} {o : Options} {sortval : SortVal S}

/-- How many of `n` elements are in the range. -/
def Options.sliceLength (o : Options) (n : ℕ) : ℕ :=
  if o.limitCount.1 < 0 then n - o.start.toNat else min o.limitCount.1.toNat (n - o.start.toNat)

/-- The end of the range fits a `long`, or is not computed. -/
def Options.NoOverflow (o : Options) (n : ℕ) : Prop := o.start < n → 0 ≤ o.limitCount.1 → o.start + o.limitCount.1 ≤ 2 ^ 63

theorem Options.start_nonneg (o : Options) : 0 ≤ o.start := by
  unfold Options.start
  split_ifs <;> omega

theorem toInt_small {v : ℤ} (h0 : -2 ^ 31 ≤ v) (h1 : v < 2 ^ 31) : toInt v = v := Int.bmod_eq_of_le (by omega) (by omega)

variable {n : ℕ}

/-- **`start` and `end`**: the range has the length of the slice, and starts where the slice does. -/
theorem limitRange_spec (hn : n < 2 ^ 31) (ho : o.NoOverflow n) :
    (limitRange o n).2 - (limitRange o n).1 + 1 = o.sliceLength n ∧ (limitRange o n).1 < max n 1 ∧
      (0 < o.sliceLength n → (limitRange o n).1 = o.start ∧ o.start.toNat + o.sliceLength n ≤ n) := by
  have hstart := o.start_nonneg
  have h1 : toInt (n - 1 : ℤ) = n - 1 := toInt_small (by omega) (by omega)
  have h2 : toInt (n - 2 : ℤ) = n - 2 := toInt_small (by omega) (by omega)
  unfold limitRange Options.sliceLength
  by_cases hbeyond : (n : ℤ) ≤ o.start
  · rw [if_pos hbeyond, h1, h2, if_neg (show ¬ (n : ℤ) ≤ n - 2 by omega)]
    split_ifs <;> omega
  · rw [if_neg hbeyond]
    dsimp only
    unfold Options.stop
    by_cases hall : o.limitCount.1 < 0
    · rw [if_pos hall, if_pos hall, h1, if_neg (show ¬ (n : ℤ) ≤ n - 1 by omega)]
      omega
    · have hfits := ho (by omega) (by omega)
      have hlong : toLong (o.start + o.limitCount.1 - 1) = o.start + o.limitCount.1 - 1 := Int.bmod_eq_of_le (by omega) (by omega)
      split_ifs <;> omega

theorem limitRange_overflow (hn : n < 2 ^ 31) (hstart : o.start < n) (hcount : 0 ≤ o.limitCount.1) (hover : 2 ^ 63 < o.start + o.limitCount.1) :
    limitRange o n = (o.start, o.start + o.limitCount.1 - 1 - 2 ^ 64) := by
  have hmax := o.limitCount.2
  have hlong : toLong (o.start + o.limitCount.1 - 1) = o.start + o.limitCount.1 - 1 - 2 ^ 64 :=
    (Int.sub_bmod_right (o.start + o.limitCount.1 - 1) (2 ^ 64)).symm.trans (Int.bmod_eq_of_le (by push_cast; omega) (by push_cast; omega))
  rw [limitRange, if_neg (by omega), Options.stop, if_neg (by omega), hlong, if_neg (by omega)]

theorem listTypeNext_tail (subject : ListObj) (hn : n < listTypeLength subject) :
    listTypeNext subject .tail (some n) = some (n, if n + 1 < listTypeLength subject then some (n + 1) else none) := by
  cases subject <;> rfl

theorem listTypeGet_some (subject : ListObj) (hn : n < listTypeLength subject) : ∃ obj, listTypeGet subject n = some obj := by
  cases subject with
  | ziplist zl => exact ⟨_, by rw [listTypeGet, List.getElem?_eq_getElem hn, Option.map_some]⟩
  | linkedlist l => exact ⟨_, by rw [listTypeGet, List.getElem?_eq_getElem hn]⟩

theorem listLoop_spec (subject : ListObj) : ∀ (fuel n : ℕ), listTypeLength subject < n + fuel → n ≤ listTypeLength subject →
    ∃ objs, listLoop subject fuel (if n < listTypeLength subject then some n else none) = some objs ∧ objs.length = listTypeLength subject - n := by
  intro fuel
  induction fuel with
  | zero => exact fun n h1 h2 => absurd h1 (not_lt.2 h2)
  | succ fuel ih =>
    intro n h1 h2
    rw [listLoop]
    by_cases hn : n < listTypeLength subject
    · obtain ⟨obj, hobj⟩ := listTypeGet_some subject hn
      obtain ⟨objs, hloop, hlen⟩ := ih (n + 1) (by omega) hn
      refine ⟨obj :: objs, ?_, ?_⟩
      · rw [if_pos hn, listTypeNext_tail subject hn]
        dsimp only
        rw [hobj, Option.bind_some, hloop, Option.map_some]
      · rw [List.length_cons, hlen]
        omega
    · rw [if_neg hn]
      exact ⟨[], rfl, by rw [List.length_nil]; omega⟩

theorem listTypeInitIterator_zero (subject : ListObj) :
    listTypeInitIterator subject 0 = if 0 < listTypeLength subject then some 0 else none := by
  have hindex : ∀ {α : Type} (l : List α), ListType.listIndex l 0 = if 0 < l.length then some 0 else none := by
    intro α l
    rw [ListType.listIndex, if_neg (by omega)]
    by_cases hpos : 0 < l.length
    · rw [if_pos hpos, if_pos (by omega)]
      rfl
    · rw [if_neg hpos, if_neg (by omega)]
  cases subject with
  | ziplist zl =>
    have hzero : (0 : ℤ).bmod (2 ^ 32) = 0 := Int.zero_bmod
    exact (congrArg (ListType.listIndex zl) hzero).trans (hindex zl)
  | linkedlist l => exact hindex l

def SortVal.size : SortVal S → ℕ
  | .list subject => listTypeLength subject
  | .set subject => setTypeSize subject
  | .zset zobj => zsetLength zobj

/-- What can be sorted is intact: a set has members, and a sorted set has them in order. A ziplist has to be converted, for which its scores
are read as they were printed, and the comparison of the skip lists has to tell its members apart. -/
def Sortable (fmt : ScoreFormat S) : SortVal S → Prop
  | .list _ => True
  | .set subject => ∃ members, subject.Represents members
  | .zset zobj => ∃ set : SortedSet S, zobj.Holds fmt set ∧ (zobj.isSkiplist = true ∨ fmt.Reads ∧ set.elems ≠ [] ∧ set.NoClash)

/-- **A sorted set is converted.** -/
theorem converted_spec (server : Server S T) {zobj : Zobj S} (h : Sortable server.fmt (.zset zobj)) : ∃ zs ids es, converted server zobj = some zs ∧ zs.Ok ids es ∧
    es.length = zsetLength zobj := by
  obtain ⟨set, hholds, hconvert⟩ := h
  have hlen := zsetLength_spec hholds
  cases zobj with
  | skiplist zs =>
    obtain ⟨ids, es, hok, hes⟩ := hholds
    exact ⟨zs, ids, es, rfl, hok, by rw [hlen, ← hes, List.length_map]⟩
  | ziplist zl =>
    obtain ⟨hread, hne, hclash⟩ := hconvert.resolve_left Bool.false_ne_true
    obtain ⟨z', h1, h2, h3⟩ := zsetConvert_spec hread server.rounds hholds hne hclash
    cases z' with
    | ziplist zl' => exact absurd h3 Bool.false_ne_true
    | skiplist zs =>
      obtain ⟨ids, es, hok, hes⟩ := h2
      exact ⟨zs, ids, es, by rw [converted, h1], hok, by rw [hlen, ← hes, List.length_map]⟩

theorem loadVector_spec (server : Server S T) (h : Sortable server.fmt sortval) : ∃ objs, elements server sortval = some objs ∧ objs.length = sortval.size ∧
    ∀ o : Options, ¬ (sortval.isZset = true ∧ o.dontsort = true) → loadVector server o sortval = loadAll o objs.length objs := by
  cases sortval with
  | list subject =>
    obtain ⟨objs, hloop, hlen⟩ := listLoop_spec subject (listTypeLength subject + 1) 0 (by omega) (Nat.zero_le _)
    rw [← listTypeInitIterator_zero] at hloop
    rw [Nat.sub_zero] at hlen
    have helements : elements server (.list subject) = some objs := hloop
    refine ⟨objs, helements, hlen, fun o _ => ?_⟩
    rw [loadVector, helements, Option.bind_some, hlen]
  | set subject =>
    obtain ⟨members, hmembers⟩ := h
    obtain ⟨es, hes, hnodup, hset⟩ := SetType.setTypeElements_spec hmembers
    have hlen : (es.map SetType.Element.object).length = setTypeSize subject := by
      rw [hmembers.card, ← hset, List.toFinset_card_of_nodup hnodup, List.length_map, List.length_map]
    have helements : elements server (.set subject) = some (es.map SetType.Element.object) := by rw [elements, hes, Option.map_some]
    refine ⟨_, helements, hlen, fun o _ => ?_⟩
    rw [loadVector, helements, Option.bind_some, hlen]
  | zset zobj =>
    obtain ⟨zs, ids, es, hconv, hok, hlen⟩ := converted_spec server h
    have helements : elements server (.zset zobj) = some (zs.dict.map Prod.fst) := by rw [elements, hconv, Option.map_some]
    have hdict : (zs.dict.map Prod.fst).length = zs.dict.length := List.length_map _
    refine ⟨_, helements, ?_, fun o ho => ?_⟩
    · rw [hdict, hok.dict_length, hlen]
      rfl
    · rw [loadVector, hconv, Option.bind_some, if_neg fun hc => ho ⟨rfl, hc⟩, helements, Option.bind_some, hdict]

variable {zs : Zset S} {ids : List ℕ} {es : List (S × Robj)}

def nodeStrings (desc : Bool) (es : List (S × Robj)) : List (List UInt8) := (directed desc (es.map memberOf)).map Prod.snd

omit [LinearOrder S] in
theorem nodeStrings_length (desc : Bool) (es : List (S × Robj)) : (nodeStrings desc es).length = es.length := by
  rw [nodeStrings, List.length_map, directed_length, List.length_map]

omit [LinearOrder S] in
theorem nodeLoop_spec (desc : Bool) (z : Zskiplist S) : ∀ (n : ℕ) {p : Option ℕ} {l : List (Member S)}, Walks (zslStep desc z) (zslGet z) p l →
    n ≤ l.length → ∃ objs, nodeLoop desc z n p = some objs ∧ objs.map getDecodedObject = (l.take n).map Prod.snd := by
  intro n
  induction n with
  | zero => exact fun _ _ => ⟨[], rfl, rfl⟩
  | succ n ih =>
    intro p l h hn
    cases l with
    | nil => exact absurd hn (Nat.not_succ_le_zero n)
    | cons e l =>
      obtain ⟨x, y, rfl, hget, hnext, hrest⟩ := h
      obtain ⟨objs, hloop, hobjs⟩ := ih hrest (Nat.le_of_succ_le_succ hn)
      obtain ⟨a, ha, rfl⟩ := Option.map_eq_some_iff.1 hget
      refine ⟨a.2 :: objs, ?_, ?_⟩
      · rw [nodeLoop, ha, Option.bind_some, hnext, Option.bind_some, hloop, Option.map_some]
      · rw [List.map_cons, hobjs, List.take_succ_cons, List.map_cons]
        rfl

/-- **The node at which the range starts**, from where the nodes of the range are walked through. -/
theorem firstNode_spec (hok : zs.Ok ids es) (desc : Bool) {start : ℤ} (hstart : start < max es.length 1) : ∃ p, firstNode desc zs start = some p ∧
    Walks (zslStep desc zs.zsl) (zslGet zs.zsl) p ((directed desc (es.map memberOf)).drop start.toNat) := by
  have hlen := hok.layout.es_length
  have hdict := hok.dict_length
  unfold firstNode
  cases desc with
  | false =>
    rw [if_neg Bool.false_ne_true]
    by_cases hpos : 0 < start
    · obtain ⟨ea, eb, rfl, hea⟩ : ∃ ea eb, es = ea ++ eb ∧ ea.length = start.toNat :=
        ⟨es.take start.toNat, es.drop start.toNat, (List.take_append_drop _ _).symm, by rw [List.length_take]; omega⟩
      obtain ⟨pre, post, rfl, hpre⟩ := hok.layout.split
      cases post with
      | nil =>
        rw [List.append_nil, List.length_append] at hlen
        rw [List.length_append] at hstart
        omega
      | cons x post =>
        refine ⟨some x, ?_, ?_⟩
        · rw [if_pos hpos, show (start + 1).toNat = pre.length + 1 by omega]
          exact zslGetElementByRank_spec hok.layout
        · have hwalk := zsl_walks hok.layout hpre
          have hdrop : ((ea ++ eb).map memberOf).drop start.toNat = eb.map memberOf := by
            rw [show start.toNat = (ea.map memberOf).length by rw [List.length_map, hea], List.map_append, List.drop_left]
          rwa [← hdrop] at hwalk
    · have hwalk : Walks (zslStep false zs.zsl) (zslGet zs.zsl) ids.head? (es.map memberOf) := @zsl_walks S _ _ es [] [] ids hok.layout rfl
      have hforward : ((zs.zsl.node 0).level 0).forward = ids.head? := hok.layout.forward (a := []) rfl
      rw [if_neg hpos, hforward, show start.toNat = 0 by omega, List.drop_zero]
      exact ⟨_, rfl, hwalk⟩
  | true =>
    by_cases hpos : 0 < start
    · obtain ⟨ea, eb, rfl, hea⟩ : ∃ ea eb, es = ea ++ eb ∧ ea.length = es.length - start.toNat :=
        ⟨es.take (es.length - start.toNat), es.drop (es.length - start.toNat), (List.take_append_drop _ _).symm, by rw [List.length_take]; omega⟩
      rw [List.length_append] at hea hdict hstart
      obtain ⟨pre, post, rfl, hpre⟩ := hok.layout.split
      rcases List.eq_nil_or_concat pre with rfl | ⟨pre', x, rfl⟩
      · rw [List.length_nil] at hpre
        omega
      · rw [List.concat_eq_append] at hpre hok
        rw [List.length_append, List.length_singleton] at hpre
        refine ⟨some x, ?_, ?_⟩
        · rw [if_pos hpos, show ((zs.dict.length : ℤ) - start).toNat = pre'.length + 1 by omega]
          have hlayout := hok.layout
          rw [List.append_assoc] at hlayout
          exact zslGetElementByRank_spec hlayout
        · have hwalk := zsl_walks_back hok.layout (by rw [hpre, List.length_append]; rfl)
          have hdrop : ((ea ++ eb).map memberOf).reverse.drop start.toNat = (ea.map memberOf).reverse := by
            rw [List.map_append, List.reverse_append, show start.toNat = (eb.map memberOf).reverse.length by rw [List.length_reverse, List.length_map]; omega,
              List.drop_left]
          rw [List.getLast?_concat, ← hdrop] at hwalk
          exact hwalk
    · have hall : ids = ids ++ [] := (List.append_nil ids).symm
      have hall' : es = es ++ [] := (List.append_nil es).symm
      have hlayout := hok.layout
      rw [hall, hall'] at hlayout
      have hwalk := zsl_walks_back hlayout hlen.symm
      rw [if_neg hpos, hok.layout.tail, show start.toNat = 0 by omega, List.drop_zero]
      exact ⟨_, rfl, hwalk⟩

theorem loadNodes_spec (hok : zs.Ok ids es) (o : Options) {len : ℕ} (hlen : rangeLength o (toInt zs.dict.length) = len)
    (hstart : (limitRange o (toInt zs.dict.length)).1 < max es.length 1)
    (hin : 0 < len → (limitRange o (toInt zs.dict.length)).1.toNat + len ≤ es.length) : ∃ objs, loadNodes o zs =
      some ⟨objs, 0, (limitRange o (toInt zs.dict.length)).2 - (limitRange o (toInt zs.dict.length)).1, len⟩ ∧
      objs.map getDecodedObject = ((nodeStrings o.desc es).drop (limitRange o (toInt zs.dict.length)).1.toNat).take len := by
  obtain ⟨p, hp, hwalk⟩ := firstNode_spec hok o.desc hstart
  obtain ⟨objs, hloop, hobjs⟩ := nodeLoop_spec o.desc zs.zsl len hwalk (by
    rw [List.length_drop, directed_length, List.length_map]
    omega)
  refine ⟨objs, ?_, ?_⟩
  · rw [loadNodes, hlen, if_neg (by omega), hp, Option.bind_some, Int.toNat_natCast, hloop, Option.map_some]
  · rw [hobjs, nodeStrings, List.map_take, List.map_drop]

end KVStores.Redis.Sort
