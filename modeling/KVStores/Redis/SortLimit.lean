import KVStores.Redis.SortRun
import KVStores.Redis.ZsetRun

/-!
# LIMIT of SORT

`SORT` with `LIMIT` against `SORT` without it, for any other options.
-/

namespace KVStores.Redis.Sort

open ListType (ListObj)

variable {S T : Type} {server : Server S T} {db : Db S} {o : Options} {sortval : SortVal S}

/-- Other options of `LIMIT`. -/
def Options.limited (o : Options) (start count : Long) : Options := { o with limitStart := start, limitCount := count }

/-- No `LIMIT`. -/
def Options.unlimited (o : Options) : Options := o.limited Options.initial.limitStart Options.initial.limitCount

theorem forced_limited (o : Options) (start count : Long) (luaClient : Bool) (sortval : SortVal S) :
    (o.limited start count).forced luaClient sortval = (o.forced luaClient sortval).limited start count := by
  unfold Options.forced Options.limited
  split_ifs <;> rfl

theorem scoreLoop_limited (doubles : Doubles T) (start count : Long) : ∀ (objs : List Robj) (c : Conversion),
    scoreLoop doubles db (o.limited start count) objs c = scoreLoop doubles db o objs c := by
  intro objs
  induction objs with
  | nil => exact fun _ => rfl
  | cons obj objs ih =>
    intro c
    refine congrArg (Option.bind (byValue db o obj)) (funext fun byval => ?_)
    exact congrArg (Option.map _) (ih _)

section Order

variable [LT T] [DecidableLT T]

theorem ordered_limited (start count : Long) (l : Loaded) : ordered server db (o.limited start count) l = ordered server db o l := by
  unfold ordered
  rw [scoreLoop_limited]
  rfl

end Order

def sliced {β : Type} (o : Options) (l : List β) : List β :=
  if o.limitCount.1 < 0 then l.drop (o.perElement * o.start.toNat)
  else (l.drop (o.perElement * o.start.toNat)).take (o.perElement * o.limitCount.1.toNat)

/-- What a reply has to be, against the one without `LIMIT`. -/
@[grind =] def SliceOf (o : Options) : Reply → Reply → Prop
  | .unconvertible, .unconvertible => True
  | .multibulk _ sent, .multibulk announced sent' => sent' = sliced o sent ∧ announced = sent'.length
  | .stored _ sobj _, .stored announced sobj' atKey =>
    sobj'.bytes = sliced o sobj.bytes ∧ announced = sobj'.bytes.length ∧ atKey = if sobj'.bytes = [] then none else some sobj'
  | _, _ => False

variable {β : Type} {n : ℕ}

theorem sliced_length {l : List β} (hl : l.length = o.perElement * n) : (sliced o l).length = o.perElement * o.sliceLength n := by
  unfold sliced Options.sliceLength
  split_ifs
  · rw [List.length_drop, hl, Nat.mul_sub]
  · rw [List.length_take, List.length_drop, hl, ← Nat.mul_sub, ← Nat.mul_min_mul_left]

variable {f : β → List γ} {g : ℕ}

theorem drop_flatMap (hf : ∀ x, (f x).length = g) : ∀ (k : ℕ) (l : List β), (l.flatMap f).drop (g * k) = (l.drop k).flatMap f := by
  intro k
  induction k with
  | zero => exact fun _ => rfl
  | succ k ih =>
    intro l
    cases l with
    | nil => rw [List.flatMap_nil, List.drop_nil, List.drop_nil, List.flatMap_nil]
    | cons x l =>
      rw [List.flatMap_cons, List.drop_succ_cons, Nat.mul_succ, Nat.add_comm, ← List.drop_drop, ← hf x, List.drop_left, hf x, ih l]

theorem take_flatMap (hf : ∀ x, (f x).length = g) : ∀ (k : ℕ) (l : List β), (l.flatMap f).take (g * k) = (l.take k).flatMap f := by
  intro k
  induction k with
  | zero =>
    intro l
    rw [Nat.mul_zero, List.take_zero, List.take_zero, List.flatMap_nil]
  | succ k ih =>
    intro l
    cases l with
    | nil => rw [List.flatMap_nil, List.take_nil, List.take_nil, List.flatMap_nil]
    | cons x l =>
      rw [List.flatMap_cons, List.take_succ_cons, List.flatMap_cons, Nat.mul_succ, Nat.add_comm, ← hf x, List.take_length_add_append, hf x, ih l]

def window (o : Options) (strings : List (List UInt8)) : List (List UInt8) := (strings.drop o.start.toNat).take (o.sliceLength strings.length)

theorem window_length (o : Options) (strings : List (List UInt8)) : (window o strings).length = o.sliceLength strings.length := by
  rw [window, List.length_take, List.length_drop]
  unfold Options.sliceLength
  split_ifs <;> omega

theorem sliced_flatMap {f : List UInt8 → List β} (hf : ∀ x, (f x).length = o.perElement) (strings : List (List UInt8)) :
    sliced o (strings.flatMap f) = (window o strings).flatMap f := by
  unfold sliced window Options.sliceLength
  rw [drop_flatMap hf]
  split_ifs
  · rw [List.take_of_length_le (by rw [List.length_drop])]
  · have hall : (strings.drop o.start.toNat).take (strings.length - o.start.toNat) = strings.drop o.start.toNat :=
      List.take_of_length_le (by rw [List.length_drop])
    rw [take_flatMap hf, ← List.take_take, hall]

/-- A reply with the rows of some elements, which announces what `len` makes of it. -/
def Replies (server : Server S T) (db : Db S) (o : Options) (strings : List (List UInt8)) (len : ℤ) (r : Reply) : Prop :=
  ∃ l vals, r = reply server o l vals ∧ vals.map (Option.map getDecodedObject) = strings.flatMap (sentRow db o.operations) ∧ l.stop - l.start + 1 = len

def Options.announced (o : Options) (len : ℤ) : ℕ := ((o.perElement * len) % 2 ^ 32).toNat

theorem storeAll_bytes (cfg : ListType.Config) (vals : List (Option Robj)) :
    (storeAll cfg vals).bytes = (vals.map (Option.map getDecodedObject)).map fun v => v.getD [] := by
  have hloop : ∀ (vals : List (Option Robj)) (sobj : ListObj),
      (vals.foldl (fun sobj val => ListType.listTypePush cfg sobj (val.getD (.raw [])) .tail) sobj).bytes =
        sobj.bytes ++ (vals.map (Option.map getDecodedObject)).map fun v => v.getD [] := by
    intro vals
    induction vals with
    | nil => exact fun sobj => (List.append_nil _).symm
    | cons val vals ih =>
      intro sobj
      have hval : getDecodedObject (val.getD (.raw [])) = (val.map getDecodedObject).getD [] := by cases val <;> rfl
      rw [List.foldl_cons, ih, ListType.listTypePush_bytes, ListType.pushEnd, hval, List.append_assoc]
      rfl
  exact hloop vals (.ziplist [])

theorem sentRow_flatMap_length (hdb : HashesIntact db) (o : Options) (strings : List (List UInt8)) :
    (strings.flatMap (sentRow db o.operations)).length = o.perElement * strings.length := by
  induction strings with
  | nil => rfl
  | cons s strings ih => rw [List.flatMap_cons, List.length_append, ih, sentRow_length hdb, List.length_cons, Nat.mul_succ, Nat.add_comm]

variable {strings strings' : List (List UInt8)} {len len' : ℤ} {r r' : Reply}

/-- **The slice was sent**, and all of it was announced. -/
theorem sliceOf_of_replies (hdb : HashesIntact db) (h : Replies server db o.unlimited strings len r) (h' : Replies server db o strings' len' r')
    (hslice : strings' = window o strings) (hlen : o.announced len' = o.perElement * strings'.length) : SliceOf o r r' := by
  obtain ⟨l, vals, rfl, hvals, -⟩ := h
  obtain ⟨l', vals', rfl, hvals', rfl⟩ := h'
  have hsent : vals'.map (Option.map getDecodedObject) = sliced o (vals.map (Option.map getDecodedObject)) := by
    rw [hvals, hvals', hslice]
    exact (sliced_flatMap (fun s => sentRow_length hdb o s) strings).symm
  have hcount : outputlen o l' = (vals'.map (Option.map getDecodedObject)).length := by
    rw [hvals', sentRow_flatMap_length hdb, ← hlen]
    rfl
  unfold reply
  have hkey : o.unlimited.storekey = o.storekey := rfl
  rw [hkey]
  cases o.storekey with
  | none => exact ⟨hsent, hcount⟩
  | some key =>
    have hbytes := storeAll_bytes server.cfg vals
    have hbytes' := storeAll_bytes server.cfg vals'
    refine ⟨?_, ?_, ?_⟩
    · rw [hbytes, hbytes', hsent]
      unfold sliced
      split_ifs
      · rw [List.map_drop]
      · rw [List.map_take, List.map_drop]
    · rw [hbytes', hcount]
      exact (List.length_map _).symm
    · have hnil : outputlen o l' = 0 ↔ (storeAll server.cfg vals').bytes = [] := by
        rw [hbytes', hcount, List.length_eq_zero_iff]
        exact List.map_eq_nil_iff.symm
      by_cases hzero : outputlen o l' = 0
      · rw [if_neg (not_not.2 hzero), if_pos (hnil.1 hzero)]
      · rw [if_pos hzero, if_neg fun hc => hzero (hnil.2 hc)]

theorem SliceOf.lengths (hdb : HashesIntact db) (h : Replies server db o.unlimited strings len r) (h' : Replies server db o strings' len' r')
    (hslice : SliceOf o r r') : strings'.length = o.sliceLength strings.length ∧ o.announced len' = o.perElement * strings'.length := by
  obtain ⟨l, vals, rfl, hvals, -⟩ := h
  obtain ⟨l', vals', rfl, hvals', rfl⟩ := h'
  have hfull : (vals.map (Option.map getDecodedObject)).length = o.perElement * strings.length := by
    rw [hvals]
    exact sentRow_flatMap_length hdb o strings
  have hpart : (vals'.map (Option.map getDecodedObject)).length = o.perElement * strings'.length := by
    rw [hvals']
    exact sentRow_flatMap_length hdb o strings'
  have hboth : (vals'.map (Option.map getDecodedObject)).length = o.perElement * o.sliceLength strings.length ∧
      outputlen o l' = (vals'.map (Option.map getDecodedObject)).length := by
    unfold reply at hslice
    have hkey : o.unlimited.storekey = o.storekey := rfl
    rw [hkey] at hslice
    cases hstore : o.storekey with
    | none =>
      rw [hstore] at hslice
      obtain ⟨h1, h2⟩ := hslice
      exact ⟨by rw [h1, sliced_length hfull], h2⟩
    | some key =>
      rw [hstore] at hslice
      obtain ⟨h1, h2, -⟩ := hslice
      rw [storeAll_bytes, storeAll_bytes] at h1
      rw [storeAll_bytes] at h2
      rw [List.length_map] at h2
      have hlen := congrArg List.length h1
      rw [List.length_map, sliced_length (n := strings.length) (by rw [List.length_map, hfull])] at hlen
      exact ⟨hlen, h2⟩
  obtain ⟨h1, h2⟩ := hboth
  rw [hpart] at h1 h2
  exact ⟨Nat.eq_of_mul_eq_mul_left o.perElement_pos h1, h2⟩

variable [LinearOrder S] [LT T] [DecidableLT T]

def loadedAll (o : Options) (objs : List Robj) : Loaded := ⟨objs, (limitRange o objs.length).1, (limitRange o objs.length).2, objs.length⟩

/-- **Where all objects are loaded**, the rows of the range are sent, or nothing when its end does not fit a `long`. The order is the same one for
any range. -/
theorem sortVal_all (hdb : HashesIntact db) (hsv : Sortable server.fmt sortval) (hall : ¬ (sortval.isZset = true ∧ o.dontsort = true))
    (hsize : sortval.size < 2 ^ 31) (hcmp : ∀ objs, elements server sortval = some objs → Comparable server db o objs) :
    ∃ (strings : List (List UInt8)) (err : Bool), strings.length = sortval.size ∧
      (err = true ↔ o.dontsort = false ∧ ∃ objs, elements server sortval = some objs ∧ Unconvertible server.doubles server.erange db o objs) ∧
      ∀ a b : Long, (err = true → sortVal server db sortval (o.limited a b) = some .unconvertible) ∧
        (err = false → ((o.limited a b).NoOverflow sortval.size → ∃ r, sortVal server db sortval (o.limited a b) = some r ∧
            Replies server db (o.limited a b) (window (o.limited a b) strings) ((o.limited a b).sliceLength sortval.size) r) ∧
          (¬ (o.limited a b).NoOverflow sortval.size → ∃ r, sortVal server db sortval (o.limited a b) = some r ∧
            ∃ len, Replies server db (o.limited a b) [] len r)) := by
  obtain ⟨objs, helements, hlen, hload⟩ := loadVector_spec server hsv
  obtain ⟨strings, err, hstrings, herr, hordered⟩ := ordered_spec hdb (hcmp objs helements) (hlen.symm ▸ hsize)
  refine ⟨strings, err, hstrings.trans hlen, ?_, fun a b => ?_⟩
  · rw [herr]
    refine and_congr_right fun _ => ⟨fun h => ⟨objs, helements, h⟩, ?_⟩
    rintro ⟨objs', h1, h2⟩
    rw [helements] at h1
    cases h1
    exact h2
  have hint : toInt (objs.length : ℤ) = objs.length := toInt_small (by omega) (by omega)
  have hloaded : loadVector server (o.limited a b) sortval = some (loadedAll (o.limited a b) objs) := by
    rw [hload (o.limited a b) hall, loadAll, hint, if_pos rfl, loadedAll]
  obtain ⟨objs', hobjs', hwindow⟩ := hordered (limitRange (o.limited a b) objs.length).1 (limitRange (o.limited a b) objs.length).2
  rw [← ordered_limited a b] at hobjs'
  change ordered server db (o.limited a b) (loadedAll (o.limited a b) objs) = _ at hobjs'
  refine ⟨fun htrue => ?_, fun hfalse => ⟨fun hno => ?_, fun hover => ?_⟩⟩
  · rw [sortVal, hloaded, Option.bind_some, hobjs', Option.bind_some, if_pos htrue]
  · rw [← hlen] at hno ⊢
    obtain ⟨h1, h2, h3⟩ := limitRange_spec (hlen.symm ▸ hsize) hno
    have hout : ∃ vals, outputLoop db o.operations objs' ((o.limited a b).sliceLength objs.length) (limitRange (o.limited a b) objs.length).1 = some vals ∧
        vals.map (Option.map getDecodedObject) = (window (o.limited a b) strings).flatMap (sentRow db o.operations) := by
      unfold window
      rw [hstrings]
      rcases Nat.eq_zero_or_pos ((o.limited a b).sliceLength objs.length) with hzero | hpos
      · rw [hzero, List.take_zero]
        exact ⟨[], rfl, rfl⟩
      · obtain ⟨h4, h5⟩ := h3 hpos
        have hnonneg := (o.limited a b).start_nonneg
        rw [h4, show (o.limited a b).start = ((o.limited a b).start.toNat : ℕ) by omega]
        refine outputLoop_spec hdb o.operations _ _ _ _ fun k hk1 hk2 => ?_
        obtain ⟨s, hs⟩ : ∃ s, strings[k]? = some s := ⟨_, List.getElem?_eq_getElem (show k < strings.length by omega)⟩
        exact ⟨s, (hwindow hfalse (by omega) (by omega) k (by omega) (by omega)).trans hs, hs⟩
    obtain ⟨vals, hvals, hsent⟩ := hout
    refine ⟨_, ?_, loadedAll (o.limited a b) objs, vals, rfl, hsent, h1⟩
    rw [sortVal, hloaded, Option.bind_some, hobjs', Option.bind_some, hfalse, if_neg Bool.false_ne_true, loadedAll, h1, Int.toNat_natCast]
    exact congrArg (Option.map _) hvals
  · rw [← hlen] at hover
    rw [Options.NoOverflow, not_forall] at hover
    obtain ⟨h1, hover⟩ := hover
    rw [not_forall] at hover
    obtain ⟨h2, h3⟩ := hover
    have hrange := limitRange_overflow (hlen.symm ▸ hsize) h1 h2 (by omega)
    have hmax := (o.limited a b).limitCount.2
    refine ⟨_, ?_, _, loadedAll (o.limited a b) objs, [], rfl, rfl, rfl⟩
    rw [sortVal, hloaded, Option.bind_some, hobjs', Option.bind_some, hfalse, if_neg Bool.false_ne_true, loadedAll, hrange]
    have hzero : ((o.limited a b).start + (o.limited a b).limitCount.1 - 1 - 2 ^ 64 - (o.limited a b).start + 1 : ℤ).toNat = 0 := by omega
    rw [hzero]
    rfl

theorem sortVal_none (hsv : Sortable server.fmt sortval) (hall : ¬ (sortval.isZset = true ∧ o.dontsort = true)) (hsize : 2 ^ 31 ≤ sortval.size) :
    sortVal server db sortval o = none := by
  obtain ⟨objs, -, hlen, hload⟩ := loadVector_spec server hsv
  have hint : toInt (objs.length : ℤ) < 2 ^ 31 := Int.bmod_lt (by decide)
  rw [sortVal, hload o hall, loadAll, if_neg (by omega)]
  rfl

variable {strings : List (List UInt8)}

theorem sortVal_nodes {zobj : Zobj S} {zs : Zset S} (hdb : HashesIntact db) (hconv : converted server zobj = some zs) (hsort : o.dontsort = true)
    {objs : List Robj} {stop vectorlen : ℤ} (hload : loadNodes o zs = some ⟨objs, 0, stop, vectorlen⟩)
    (hobjs : objs.map getDecodedObject = strings) (hstop : stop - 0 + 1 = strings.length) :
    ∃ r, sortVal server db (.zset zobj) o = some r ∧ Replies server db o strings strings.length r := by
  obtain ⟨vals, hvals, hsent⟩ := outputLoop_spec hdb o.operations objs strings strings.length 0 fun k _ hk => by
    rw [Nat.zero_add] at hk
    refine ⟨strings[k], ?_, List.getElem?_eq_getElem hk⟩
    rw [← List.getElem?_map, hobjs, List.getElem?_eq_getElem hk]
  rw [List.drop_zero, List.take_length] at hsent
  refine ⟨_, ?_, ⟨objs, 0, stop, vectorlen⟩, vals, rfl, hsent, hstop⟩
  rw [sortVal, loadVector, hconv, Option.bind_some, if_pos hsort, hload, Option.bind_some, ordered, if_pos hsort, Option.bind_some,
    if_neg Bool.false_ne_true]
  rw [hstop, Int.toNat_natCast]
  exact congrArg (Option.map _) hvals

variable {zobj : Zobj S} {zs : Zset S} {ids : List ℕ} {es : List (S × Robj)}

theorem nodes_window {α : Type} (l : List α) {start len : ℕ} (h : 0 < len → start + len ≤ n) : ((l.take n).drop start).take len = (l.drop start).take len := by
  rcases Nat.eq_zero_or_pos len with rfl | hpos
  · rw [List.take_zero, List.take_zero]
  · rw [List.drop_take, List.take_take, Nat.min_eq_left (by omega)]

/-- **As many nodes as an `int` tells there are**: the rows of the range are sent. -/
theorem sortVal_counted (hdb : HashesIntact db) (hconv : converted server zobj = some zs) (hok : zs.Ok ids es) (hsort : o.dontsort = true)
    (hn : toInt es.length = n) (hno : o.NoOverflow n) : ∃ r, sortVal server db (.zset zobj) o = some r ∧
      Replies server db o (window o ((nodeStrings o.desc es).take n)) (o.sliceLength n) r := by
  have hmod : (n : ℤ) < 2 ^ 31 := hn ▸ Int.bmod_lt (by decide)
  have hle : n ≤ es.length := by
    rw [toInt, Int.bmod] at hn
    split_ifs at hn <;> omega
  obtain ⟨h1, h2, h3⟩ := limitRange_spec (by omega) hno
  rw [← hok.dict_length] at hn
  have hpred : toInt (n - 1 : ℤ) = n - 1 := toInt_small (by omega) (by omega)
  have hlen : rangeLength o n = o.sliceLength n := by
    rw [rangeLength, hpred]
    by_cases hpart : (limitRange o n).1 ≠ 0 ∨ (limitRange o n).2 ≠ n - 1
    · rw [if_pos hpart, h1, toInt_small (by omega) (by omega)]
    · omega
  obtain ⟨objs, hload, hobjs⟩ := loadNodes_spec hok o (show rangeLength o (toInt zs.dict.length) = o.sliceLength n by rw [hn, hlen]) (by rw [hn]; omega) fun hpos => by
    rw [hn]
    obtain ⟨h4, h5⟩ := h3 hpos
    omega
  rw [hn] at hload hobjs
  have htake : ((nodeStrings o.desc es).take n).length = n := by
    rw [List.length_take, nodeStrings_length]
    omega
  have hwindow : objs.map getDecodedObject = window o ((nodeStrings o.desc es).take n) := by
    rw [hobjs, window, htake]
    rcases Nat.eq_zero_or_pos (o.sliceLength n) with hzero | hpos
    · rw [hzero, List.take_zero, List.take_zero]
    · obtain ⟨h4, h5⟩ := h3 hpos
      rw [h4, nodes_window _ fun _ => h5]
  have hwlen := window_length o ((nodeStrings o.desc es).take n)
  rw [htake] at hwlen
  have hreply := sortVal_nodes hdb hconv hsort hload hwindow (by rw [hwlen, ← h1]; omega)
  rwa [hwlen] at hreply

/-- Where the end does not fit a `long` there is no memory for the vector. -/
theorem sortVal_overflow (hconv : converted server zobj = some zs) (hok : zs.Ok ids es) (hsort : o.dontsort = true)
    (hn : toInt es.length = n) (hover : ¬ o.NoOverflow n) : sortVal server db (.zset zobj) o = none := by
  have hmod : (n : ℤ) < 2 ^ 31 := hn ▸ Int.bmod_lt (by decide)
  rw [Options.NoOverflow, not_forall] at hover
  obtain ⟨h1, hover⟩ := hover
  rw [not_forall] at hover
  obtain ⟨h2, h3⟩ := hover
  have hrange := limitRange_overflow (by omega) h1 h2 (by omega)
  have hmax := o.limitCount.2
  have hpred : toInt (n - 1 : ℤ) = n - 1 := toInt_small (by omega) (by omega)
  have hlen : rangeLength o n = o.limitCount.1 - 2 ^ 63 := by
    rw [rangeLength, hrange, hpred, if_pos (Or.inr (by omega))]
    have hsub := Int.sub_mul_bmod_self_left (o.limitCount.1 - 2 ^ 63) (2 ^ 32) (2 ^ 31)
    rw [show o.start + o.limitCount.1 - 1 - 2 ^ 64 - o.start + 1 = o.limitCount.1 - 2 ^ 63 - (2 ^ 32 : ℕ) * 2 ^ 31 by push_cast; omega, toInt, hsub]
    exact Int.bmod_eq_of_le (by push_cast; omega) (by push_cast; omega)
  rw [← hok.dict_length] at hn
  rw [sortVal, loadVector, hconv, Option.bind_some, if_pos hsort, loadNodes, hn, hlen, if_pos (by omega)]
  rfl

theorem sortVal_negative (hdb : HashesIntact db) (hconv : converted server zobj = some zs) (hok : zs.Ok ids es) (hsort : o.dontsort = true)
    (hlow : -2 ^ 31 + 1 < toInt es.length) (hneg : toInt es.length < 0) : ∃ r, sortVal server db (.zset zobj) o = some r ∧ Replies server db o [] 0 r := by
  have hstart := o.start_nonneg
  have hrange : limitRange o (toInt es.length) = (toInt es.length - 1, toInt es.length - 2) := by
    have h1 := toInt_small (v := toInt es.length - 1) (by omega) (by omega)
    have h2 := toInt_small (v := toInt es.length - 2) (by omega) (by omega)
    rw [limitRange, if_pos (by omega), h1, h2, if_neg (by omega)]
  have hlen : rangeLength o (toInt es.length) = (0 : ℕ) := by
    rw [rangeLength, hrange, if_pos (Or.inl (by omega)), toInt_small (by omega) (by omega)]
    omega
  rw [← hok.dict_length] at hrange hlen hneg
  obtain ⟨objs, hload, hobjs⟩ := loadNodes_spec hok o hlen (by rw [hrange]; omega) fun hc => absurd hc (Nat.lt_irrefl 0)
  refine sortVal_nodes hdb hconv hsort hload hobjs ?_
  rw [hrange, List.length_nil]
  omega

theorem sortVal_one (hdb : HashesIntact db) (hconv : converted server zobj = some zs) (hok : zs.Ok ids es) (hsort : o.dontsort = true)
    (hlow : toInt es.length ≤ -2 ^ 31 + 1) : ∃ s, ∀ a b : Long, ∃ r, sortVal server db (.zset zobj) (o.limited a b) = some r ∧
      Replies server db (o.limited a b) [s] 1 r := by
  have hmin : -2 ^ 31 ≤ toInt es.length := Int.le_bmod (by decide)
  have hmany : 2 ^ 31 ≤ es.length := by
    rw [toInt, Int.bmod] at hlow
    split_ifs at hlow <;> omega
  have hedge : toInt (-2 ^ 31 - 1) = 2 ^ 31 - 1 := by decide
  have hedge' : toInt (-2 ^ 31 - 2) = 2 ^ 31 - 2 := by decide
  obtain ⟨k, hk, hrange⟩ : ∃ k : ℤ, k < 2 ^ 31 ∧ k ≠ 0 ∧ ∀ a b : Long, limitRange (o.limited a b) (toInt es.length) = (k, k) := by
    rcases lt_or_eq_of_le hlow with hlt | heq
    · refine ⟨2 ^ 31 - 1, by omega, by omega, fun a b => ?_⟩
      have hstart := (o.limited a b).start_nonneg
      rw [show toInt es.length = -2 ^ 31 by omega, limitRange, if_pos (by omega), hedge, hedge', if_pos (by omega)]
    · refine ⟨-2 ^ 31, by omega, by omega, fun a b => ?_⟩
      have hstart := (o.limited a b).start_nonneg
      rw [heq, limitRange, if_pos (by omega), show (-2 ^ 31 + 1 - 2 : ℤ) = -2 ^ 31 - 1 by omega, hedge, if_pos (by omega),
        toInt_small (by omega) (by omega)]
      rfl
  have hget : k.toNat < (nodeStrings o.desc es).length := by
    rw [nodeStrings_length]
    omega
  refine ⟨(nodeStrings o.desc es)[k.toNat], fun a b => ?_⟩
  have hlen : rangeLength (o.limited a b) (toInt es.length) = (1 : ℕ) := by
    rw [rangeLength, hrange.2 a b, if_pos (Or.inl hrange.1)]
    rw [Int.sub_self]
    decide
  have hrange' := hrange.2 a b
  rw [← hok.dict_length] at hlen hrange'
  obtain ⟨objs, hload, hobjs⟩ := loadNodes_spec hok (o.limited a b) hlen (by rw [hrange']; dsimp only; omega) fun _ => by
    rw [hrange']
    dsimp only
    omega
  rw [hrange'] at hload hobjs
  have hone : objs.map getDecodedObject = [(nodeStrings o.desc es)[k.toNat]] := by
    rw [hobjs, show (nodeStrings (o.limited a b).desc es) = nodeStrings o.desc es from rfl, List.drop_eq_getElem_cons hget, List.take_succ_cons, List.take_zero]
  have hsort' : (o.limited a b).dontsort = true := hsort
  refine sortVal_nodes hdb hconv hsort' hload hone ?_
  rw [List.length_singleton]
  omega

def RangeFits (o : Options) (n : ℕ) : Prop := o.NoOverflow n ∧ o.perElement * o.sliceLength n < 2 ^ 32

/-- How many nodes `SORT` knows of, from their number as an `int`. -/
def reach (vectorlen : ℤ) : ℕ := if vectorlen ≤ -2 ^ 31 + 1 then 1 else vectorlen.toNat

/-- Exactly when `LIMIT` gives the slice. All elements are loaded if their number is an `int`; the nodes of a sorted set as many as this `int`
tells there are, and with the two lowest ones the same node is sent for any range. The rest does not matter when an error is sent. -/
def LimitFits (server : Server S T) (db : Db S) (sortval : SortVal S) (o : Options) : Prop :=
  if sortval.isZset = true ∧ o.dontsort = true then
    (toInt sortval.size ≤ -2 ^ 31 + 1 → o.start = 0 ∧ o.limitCount.1 ≠ 0) ∧ RangeFits o (reach (toInt sortval.size))
  else
    sortval.size < 2 ^ 31 ∧ ((o.dontsort = false ∧ ∃ objs, elements server sortval = some objs ∧ Unconvertible server.doubles server.erange db o objs) ∨
      RangeFits o sortval.size)

theorem announced_natCast (o : Options) (n : ℕ) : o.announced n = o.perElement * n % 2 ^ 32 := by
  unfold Options.announced
  exact Int.toNat_natCast _

theorem unlimited_noOverflow (o : Options) (n : ℕ) : o.unlimited.NoOverflow n := fun _ h => absurd h (show ¬ (0 : ℤ) ≤ -1 by decide)

theorem unlimited_window (o : Options) (strings : List (List UInt8)) : window o.unlimited strings = strings := by
  exact List.take_length

theorem unlimited_sliceLength (o : Options) (n : ℕ) : o.unlimited.sliceLength n = n := Nat.sub_zero n

omit [LinearOrder S] [LT T] [DecidableLT T] in
theorem slice_iff (hdb : HashesIntact db) {len : ℤ} {full limited : Reply} (h : Replies server db o.unlimited strings len full)
    (h' : Replies server db o (window o strings) (o.sliceLength strings.length) limited) :
    SliceOf o full limited ↔ o.perElement * o.sliceLength strings.length < 2 ^ 32 := by
  constructor
  · intro hslice
    obtain ⟨-, hcount⟩ := hslice.lengths hdb h h'
    rw [announced_natCast, window_length] at hcount
    omega
  · intro hsmall
    refine sliceOf_of_replies hdb h h' rfl ?_
    rw [announced_natCast, window_length, Nat.mod_eq_of_lt hsmall]

/-- `SORT` with `LIMIT` gives the slice of what it gives without. -/
def LimitSlices (server : Server S T) (db : Db S) (sortval : SortVal S) (o : Options) : Prop :=
  ∃ full limited, sortWith server db sortval o.unlimited = some full ∧ sortWith server db sortval o = some limited ∧ SliceOf o full limited

omit [LinearOrder S] in
theorem sliceOf_forced (o : Options) (luaClient : Bool) (sortval : SortVal S) : SliceOf (o.forced luaClient sortval) = SliceOf o := by
  unfold Options.forced
  split_ifs <;> rfl

/-- **All objects are loaded.** -/
theorem limitSlices_all (hdb : HashesIntact db) (hsv : Sortable server.fmt sortval) (hall : ¬ (sortval.isZset = true ∧ o.dontsort = true))
    (hcmp : ∀ objs, elements server sortval = some objs → Comparable server db o objs) :
    (∃ full limited, sortVal server db sortval o.unlimited = some full ∧ sortVal server db sortval o = some limited ∧ SliceOf o full limited) ↔
      sortval.size < 2 ^ 31 ∧ ((o.dontsort = false ∧ ∃ objs, elements server sortval = some objs ∧ Unconvertible server.doubles server.erange db o objs) ∨
        RangeFits o sortval.size) := by
  by_cases hsize : sortval.size < 2 ^ 31
  swap
  · refine iff_of_false ?_ fun h => hsize h.1
    rintro ⟨full, limited, -, h, -⟩
    rw [sortVal_none hsv hall (by omega)] at h
    cases h
  obtain ⟨strings, err, hlen, herr, hrun⟩ := sortVal_all hdb hsv hall hsize hcmp
  obtain ⟨hfull, hfull'⟩ := hrun Options.initial.limitStart Options.initial.limitCount
  obtain ⟨hpart, hpart'⟩ := hrun o.limitStart o.limitCount
  rw [and_iff_right hsize, ← herr]
  cases err with
  | true => exact iff_of_true ⟨_, _, hfull rfl, hpart rfl, trivial⟩ (Or.inl rfl)
  | false =>
    rw [or_iff_right Bool.false_ne_true]
    obtain ⟨full, h1, h2⟩ := (hfull' rfl).1 (unlimited_noOverflow o _)
    have hwhole : Replies server db o.unlimited strings sortval.size full := by
      have := unlimited_window o strings
      have hslice := unlimited_sliceLength o sortval.size
      change Replies server db o.unlimited (window o.unlimited strings) (o.unlimited.sliceLength sortval.size) full at h2
      rwa [this, hslice] at h2
    by_cases hno : o.NoOverflow sortval.size
    · obtain ⟨limited, h3, h4⟩ := (hpart' rfl).1 hno
      rw [← hlen] at h4
      have hiff := slice_iff hdb hwhole h4
      rw [hlen] at hiff
      constructor
      · rintro ⟨full', limited', g1, g2, g3⟩
        cases h1.symm.trans g1
        cases h3.symm.trans g2
        exact ⟨hno, hiff.1 g3⟩
      · exact fun h => ⟨full, limited, h1, h3, hiff.2 h.2⟩
    · refine iff_of_false ?_ fun h => hno h.1
      obtain ⟨limited, h3, len, h4⟩ := (hpart' rfl).2 hno
      rintro ⟨full', limited', g1, g2, g3⟩
      cases h1.symm.trans g1
      cases h3.symm.trans g2
      obtain ⟨hnone, -⟩ := g3.lengths hdb hwhole h4
      -- the slice is not empty
      rw [hlen] at hnone
      rw [Options.NoOverflow, not_forall] at hno
      obtain ⟨h5, hno⟩ := hno
      rw [not_forall] at hno
      have hpos := o.start_nonneg
      change 0 = o.sliceLength sortval.size at hnone
      unfold Options.sliceLength at hnone
      rw [if_neg (by omega)] at hnone
      omega

/-- **The nodes of a sorted set are taken in order.** -/
theorem limitSlices_nodes (hdb : HashesIntact db) (hsv : Sortable server.fmt (.zset zobj)) (hsort : o.dontsort = true) :
    (∃ full limited, sortVal server db (.zset zobj) o.unlimited = some full ∧ sortVal server db (.zset zobj) o = some limited ∧ SliceOf o full limited) ↔
      (toInt (zsetLength zobj) ≤ -2 ^ 31 + 1 → o.start = 0 ∧ o.limitCount.1 ≠ 0) ∧ RangeFits o (reach (toInt (zsetLength zobj))) := by
  obtain ⟨zs, ids, es, hconv, hok, hlen⟩ := converted_spec server hsv
  rw [← hlen]
  have hunlimited : o.unlimited.dontsort = true := hsort
  have hstart := o.start_nonneg
  unfold reach
  by_cases hlow : toInt es.length ≤ -2 ^ 31 + 1
  · obtain ⟨s, hone⟩ := sortVal_one hdb hconv hok hsort hlow
    obtain ⟨full, h1, h2⟩ := hone Options.initial.limitStart Options.initial.limitCount
    obtain ⟨limited, h3, h4⟩ := hone o.limitStart o.limitCount
    rw [if_pos hlow, forall_prop_of_true hlow]
    constructor
    · rintro ⟨full', limited', g1, g2, g3⟩
      cases h1.symm.trans g1
      cases h3.symm.trans g2
      obtain ⟨hsame, hcount⟩ := g3.lengths hdb h2 h4
      have hann := announced_natCast o 1
      rw [Nat.cast_one] at hann
      change 1 = o.sliceLength 1 at hsame
      change o.perElement * 1 % 2 ^ 32 = o.perElement * 1 at hcount
      refine ⟨?_, fun h5 h6 => ?_, by rw [← hsame]; omega⟩
      · unfold Options.sliceLength at hsame
        split_ifs at hsame <;> omega
      · have := o.limitCount.2
        omega
    · rintro ⟨⟨h5, h6⟩, -, h7⟩
      have hslice : o.sliceLength 1 = 1 := by
        unfold Options.sliceLength
        split_ifs <;> omega
      rw [hslice] at h7
      refine ⟨full, limited, h1, h3, sliceOf_of_replies hdb h2 h4 ?_ ?_⟩
      · rw [window, h5]
        change [s] = [s].take (o.sliceLength 1)
        rw [hslice]
        rfl
      · have hann := announced_natCast o 1
        rw [Nat.cast_one] at hann
        rw [hann, Nat.mod_eq_of_lt h7]
        rfl
  rw [if_neg hlow]
  have hskip : (toInt es.length ≤ -2 ^ 31 + 1 → o.start = 0 ∧ o.limitCount.1 ≠ 0) := fun h => absurd h hlow
  rw [and_iff_right hskip]
  by_cases hneg : toInt es.length < 0
  · obtain ⟨full, h1, h2⟩ := sortVal_negative hdb hconv hok hunlimited (not_le.1 hlow) hneg
    obtain ⟨limited, h3, h4⟩ := sortVal_negative hdb hconv hok hsort (not_le.1 hlow) hneg
    rw [show (toInt es.length).toNat = 0 by omega]
    have hzero : o.sliceLength 0 = 0 := by
      unfold Options.sliceLength
      split_ifs <;> omega
    refine iff_of_true ⟨full, limited, h1, h3, sliceOf_of_replies hdb h2 h4 ?_ ?_⟩ ⟨fun h => by omega, by rw [hzero, Nat.mul_zero]; decide⟩
    · rw [window, List.drop_nil, List.take_nil]
    · unfold Options.announced
      rfl
  · obtain ⟨n, hn⟩ := Int.eq_ofNat_of_zero_le (not_lt.1 hneg)
    rw [hn, Int.toNat_natCast]
    obtain ⟨full, h1, h2⟩ := sortVal_counted hdb hconv hok hunlimited hn (unlimited_noOverflow o n)
    rw [unlimited_window, unlimited_sliceLength] at h2
    have htake : ((nodeStrings o.desc es).take n).length = n := by
      rw [List.length_take, nodeStrings_length]
      rw [toInt, Int.bmod] at hn
      split_ifs at hn <;> omega
    by_cases hno : o.NoOverflow n
    · obtain ⟨limited, h3, h4⟩ := sortVal_counted hdb hconv hok hsort hn hno
      have hiff := slice_iff hdb h2 (by rw [show nodeStrings o.unlimited.desc es = nodeStrings o.desc es from rfl, htake]; exact h4)
      rw [show nodeStrings o.unlimited.desc es = nodeStrings o.desc es from rfl, htake] at hiff
      constructor
      · rintro ⟨full', limited', g1, g2, g3⟩
        cases h1.symm.trans g1
        cases h3.symm.trans g2
        exact ⟨hno, hiff.1 g3⟩
      · exact fun h => ⟨full, limited, h1, h3, hiff.2 h.2⟩
    · refine iff_of_false ?_ fun h => hno h.1
      rintro ⟨full', limited', -, g2, -⟩
      rw [sortVal_overflow hconv hok hsort hn hno] at g2
      cases g2

/-- **The partial sort agrees with the full one** in the range. -/
theorem partial_sort_agrees (hdb : HashesIntact db) (hsv : Sortable server.fmt sortval)
    (hcmp : ∀ objs, elements server sortval = some objs → Comparable server db o objs) {l : Loaded} {vec : List (SortObject T)} {c : Conversion}
    (hload : loadVector server o sortval = some l) (hsort : o.dontsort = false)
    (hvec : scoreLoop server.doubles db o l.objs ⟨server.erange, false⟩ = some (vec, c)) (herr : c.error = false) {k : ℕ} (hstart : 0 ≤ l.start)
    (hk : l.start ≤ k ∧ (k : ℤ) ≤ l.stop) (hstop : l.stop < vec.length) :
    ((pqsortList (sortCompare server.strcoll o) sortObjectSize l.start l.stop vec)[k]?).map (fun so => getDecodedObject so.obj) =
      ((qsort (sortCompare server.strcoll o) vec)[k]?).map fun so => getDecodedObject so.obj := by
  obtain ⟨objs, helements, -, hall⟩ := loadVector_spec server hsv
  have hnot : ¬ (sortval.isZset = true ∧ o.dontsort = true) := fun h => absurd h.2 (by rw [hsort]; exact Bool.false_ne_true)
  have hint : toInt (objs.length : ℤ) < 2 ^ 31 := Int.bmod_lt (by decide)
  rw [hall o hnot, loadAll] at hload
  by_cases hroom : (objs.length : ℤ) = toInt objs.length
  · rw [if_pos hroom] at hload
    obtain rfl := Option.some.inj hload
    obtain ⟨vec', c', hloop, hobjs⟩ := scoreLoop_spec server.doubles hdb o objs ⟨server.erange, false⟩
    cases hloop.symm.trans hvec
    have hlen : vec.length = objs.length := by rw [← hobjs, List.length_map]
    refine window_agree (fun so : SortObject T => getDecodedObject so.obj) (by decide) (hcmp objs helements hsort vec c hvec herr) ?_ hstart hstop hk
    rw [hlen, sortObjectSize]
    omega
  · rw [if_neg hroom] at hload
    cases hload

/-- **`LIMIT` gives the slice exactly when** the number of elements is an `int`, the end of the range a `long` and the number of replies an
`unsigned int`; and in the range the partial sort agrees with the full one. -/
theorem sort_limit (hdb : HashesIntact db) (hsv : Sortable server.fmt sortval)
    (hcmp : ∀ objs, elements server sortval = some objs → Comparable server db (o.forced server.luaClient sortval) objs) :
    (LimitSlices server db sortval o ↔ LimitFits server db sortval (o.forced server.luaClient sortval)) ∧
      ∀ l vec c, loadVector server (o.forced server.luaClient sortval) sortval = some l → (o.forced server.luaClient sortval).dontsort = false →
        scoreLoop server.doubles db (o.forced server.luaClient sortval) l.objs ⟨server.erange, false⟩ = some (vec, c) → c.error = false →
        ∀ k : ℕ, 0 ≤ l.start → l.start ≤ k → (k : ℤ) ≤ l.stop → l.stop < vec.length →
          ((pqsortList (sortCompare server.strcoll (o.forced server.luaClient sortval)) sortObjectSize l.start l.stop vec)[k]?).map
              (fun so => getDecodedObject so.obj) =
            ((qsort (sortCompare server.strcoll (o.forced server.luaClient sortval)) vec)[k]?).map fun so => getDecodedObject so.obj := by
  refine ⟨?_, fun l vec c hload hsort hvec herr k h1 h2 h3 h4 => partial_sort_agrees hdb hsv hcmp hload hsort hvec herr h1 ⟨h2, h3⟩ h4⟩
  have hsame : LimitSlices server db sortval o ↔ ∃ full limited, sortVal server db sortval (o.forced server.luaClient sortval).unlimited = some full ∧
      sortVal server db sortval (o.forced server.luaClient sortval) = some limited ∧ SliceOf (o.forced server.luaClient sortval) full limited := by
    unfold LimitSlices sortWith Options.unlimited
    rw [forced_limited, sliceOf_forced]
  rw [hsame]
  unfold LimitFits
  by_cases hnodes : sortval.isZset = true ∧ (o.forced server.luaClient sortval).dontsort = true
  · rw [if_pos hnodes]
    cases sortval with
    | zset zobj => exact limitSlices_nodes hdb hsv hnodes.2
    | list subject => exact absurd hnodes.1 Bool.false_ne_true
    | set subject => exact absurd hnodes.1 Bool.false_ne_true
  · rw [if_neg hnodes]
    exact limitSlices_all hdb hsv hnodes hcmp

def integerServer : Server Long ℤ where
  cfg := ⟨512, 64⟩
  fmt := longFormat
  rounds := fun _ => 0
  doubles := ⟨0, fun v => v.1, fun s => ⟨Aof.strtoll s, eptr s, erange s⟩, fun _ => false⟩
  strcoll := Gdb.strcmpBytes
  luaClient := false
  erange := false

def threeStrings : SortVal Long := .list (.linkedlist [.raw [99], .raw [97], .raw [98]])

theorem second_range : -2 ^ 63 ≤ (1 : ℤ) ∧ (1 : ℤ) < 2 ^ 63 := by decide

theorem far_range : -2 ^ 63 ≤ (2 : ℤ) ∧ (2 : ℤ) < 2 ^ 63 := by decide

theorem most_range : -2 ^ 63 ≤ (2 ^ 63 - 1 : ℤ) ∧ (2 ^ 63 - 1 : ℤ) < 2 ^ 63 := by decide

/-- `ALPHA LIMIT 1 1`. -/
def alphaSecond : Options := { Options.initial with alpha := true, limitStart := ⟨1, second_range⟩, limitCount := ⟨1, second_range⟩ }

theorem sort_limit_second : LimitSlices integerServer (fun _ => none) threeStrings alphaSecond := by
  have hdb : HashesIntact (fun _ => none : Db Long) := fun key h hkey => by cases hkey
  have hsv : Sortable integerServer.fmt threeStrings := trivial
  refine (sort_limit (o := alphaSecond) hdb hsv fun objs hobjs _ vec c hvec _ => ?_).1.2 ?_
  · obtain rfl : [.raw [99], .raw [97], .raw [98]] = objs := Option.some.inj hobjs
    obtain ⟨rfl, -⟩ := Prod.mk.inj (Option.some.inj hvec)
    exact ⟨⟨by decide, by decide⟩, by decide⟩
  · exact ⟨by decide, Or.inr ⟨fun _ _ => by decide, by decide⟩⟩

/-- `BY nosort LIMIT 2 9223372036854775807`. -/
def farLimit : Options := { Options.initial with dontsort := true, limitStart := ⟨2, far_range⟩, limitCount := ⟨2 ^ 63 - 1, most_range⟩ }

theorem far_limit_runs : sortWith integerServer (fun _ => none) threeStrings farLimit.unlimited = some (.multibulk 3 [some [99], some [97], some [98]]) ∧
    sortWith integerServer (fun _ => none) threeStrings farLimit = some (.multibulk 4294967295 []) := by
  constructor <;> decide

theorem far_limit_cut : ¬ LimitSlices integerServer (fun _ => none) threeStrings farLimit := by
  rintro ⟨full, limited, h1, h2, h3⟩
  cases far_limit_runs.1.symm.trans h1
  cases far_limit_runs.2.symm.trans h2
  obtain ⟨-, hcount⟩ := h3
  exact absurd hcount (by decide)

end KVStores.Redis.Sort
