import KVStores.Lib.SkipListChange
import KVStores.Redis.SortedSet

/-!
# What the skip lists do

Each function of the skip lists on nodes in order: it runs into no fault, and does to the members what it says.

* `zslInsert_spec`, `zslDelete_spec`: **a member more, a member less**, as long as it clashes with none of the same score.
-/

namespace KVStores.Redis

open List Option

open SkipList (Layout Passes Searched LastAt)

variable {S : Type}

def memberOf (e : S × Robj) : Member S := (e.1, getDecodedObject e.2)

def Apart (s t : List UInt8) : Prop := ¬ Clash s t ∧ ¬ Clash t s

variable [LinearOrder S] {z : Zskiplist S} {ids pre post : List ℕ} {es ea eb : List (S × Robj)} {score : S} {obj : Robj} {e : S × Robj}

def InOrder (es : List (S × Robj)) : Prop := es.Pairwise fun a b => memberKey (memberOf a) < memberKey (memberOf b)

theorem zslBefore_iff (h : e.1 = score → Apart (getDecodedObject e.2) (getDecodedObject obj)) :
    zslBefore score obj e = true ↔ memberKey (memberOf e) < memberKey (score, getDecodedObject obj) := by
  unfold zslBefore
  rw [Bool.or_eq_true, Bool.and_eq_true, decide_eq_true_iff, decide_eq_true_iff, decide_eq_true_iff, memberKey_lt]
  refine or_congr_right (and_congr_right fun heq => ?_)
  exact (compareStringObjects_spec (h heq).1 (h heq).2).1

theorem order_split (hsorted : InOrder es) (score : S) (obj : Robj) :
    ∃ ea eb, es = ea ++ eb ∧ (∀ e ∈ ea, memberKey (memberOf e) < memberKey (score, getDecodedObject obj)) ∧
      ∀ e ∈ eb, memberKey (score, getDecodedObject obj) ≤ memberKey (memberOf e) := by
  obtain ⟨ea, eb, rfl, h1, h2⟩ := exists_split (p := fun e => decide (memberKey (memberOf e) < memberKey (score, getDecodedObject obj)))
    (hsorted.imp fun h hb => decide_eq_true (h.trans (of_decide_eq_true hb)))
  exact ⟨ea, eb, rfl, fun e he => of_decide_eq_true (h1 e he), fun e he => not_lt.1 (of_decide_eq_false (h2 e he))⟩

theorem zslBefore_search {maxLevel : ℕ} (h : Layout maxLevel z (pre ++ post) (ea ++ eb)) (hea : ea.length = pre.length)
    (hapart : ∀ e ∈ ea ++ eb, e.1 = score → Apart (getDecodedObject e.2) (getDecodedObject obj))
    (hbefore : ∀ e ∈ ea, memberKey (memberOf e) < memberKey (score, getDecodedObject obj))
    (hbehind : ∀ e ∈ eb, memberKey (score, getDecodedObject obj) ≤ memberKey (memberOf e)) :
    ∃ s, z.search (fun _ => zslBefore score obj) = some s ∧ Searched z pre s := by
  refine SkipList.search_spec h (h.passes_all hea (fun e he => ?_) fun e he => ?_)
  · exact (zslBefore_iff (hapart e (mem_append_left eb he))).2 (hbefore e he)
  · rw [Bool.eq_false_iff, ne_eq, zslBefore_iff (hapart e (mem_append_right ea he)), not_lt]
    exact hbehind e he

theorem zslInsert_spec (rounds : ℕ) (h : Layout zskiplistMaxlevel z ids es) (hsorted : InOrder es)
    (hapart : ∀ e ∈ es, e.1 = score → Apart (getDecodedObject e.2) (getDecodedObject obj)) (hnew : ∀ e ∈ es, getDecodedObject e.2 ≠ getDecodedObject obj) :
    ∃ z' pre post ea eb, zslInsert rounds z score obj = some (z.fresh, z') ∧ ids = pre ++ post ∧ es = ea ++ eb ∧ ea.length = pre.length ∧
      Layout zskiplistMaxlevel z' (pre ++ z.fresh :: post) (ea ++ (score, obj) :: eb) ∧ InOrder (ea ++ (score, obj) :: eb) := by
  obtain ⟨ea, eb, rfl, hbefore, hbehind⟩ := order_split hsorted score obj
  obtain ⟨pre, post, rfl, hea⟩ := h.split
  obtain ⟨s, hs, hsearched⟩ := zslBefore_search h hea hapart hbefore hbehind
  have hlevel : 1 ≤ zslRandomLevel rounds ∧ zslRandomLevel rounds ≤ zskiplistMaxlevel := by
    unfold zslRandomLevel zskiplistMaxlevel
    by_cases hlt : rounds + 1 < 32
    · rw [if_pos hlt]
      omega
    · rw [if_neg hlt]
      omega
  refine ⟨_, pre, post, ea, eb, by rw [zslInsert, hs]; rfl, rfl, rfl, hea, SkipList.insertNode_layout h hea hsearched hlevel.1 hlevel.2, ?_⟩
  obtain ⟨h1, h2, h3⟩ := pairwise_append.1 hsorted
  refine pairwise_append.2 ⟨h1, pairwise_cons.2 ⟨fun b hb => ?_, h2⟩, fun a ha b hb => ?_⟩
  · refine lt_of_le_of_ne (hbehind b hb) fun hc => ?_
    exact hnew b (mem_append_right ea hb) (congrArg Prod.snd (memberKey_injective hc)).symm
  · rcases mem_cons.1 hb with rfl | hb
    · exact hbefore a ha
    · exact h3 a ha b hb

theorem zslDelete_spec {x : ℕ} (h : Layout zskiplistMaxlevel z (pre ++ x :: post) (ea ++ e :: eb)) (hea : ea.length = pre.length)
    (hsorted : InOrder (ea ++ e :: eb)) (hobj : getDecodedObject e.2 = getDecodedObject obj)
    (hapart : ∀ a ∈ ea ++ e :: eb, a.1 = e.1 → Apart (getDecodedObject a.2) (getDecodedObject obj)) :
    ∃ z', zslDelete z e.1 obj = some (true, z') ∧ Layout zskiplistMaxlevel z' (pre ++ post) (ea ++ eb) := by
  obtain ⟨-, h2, h3⟩ := pairwise_append.1 hsorted
  have hkey : memberKey (e.1, getDecodedObject obj) = memberKey (memberOf e) := by rw [← hobj]; rfl
  obtain ⟨s, hs, hsearched⟩ := zslBefore_search h hea hapart (fun a ha => hkey ▸ h3 a ha e mem_cons_self) fun b hb => by
    rw [hkey]
    rcases mem_cons.1 hb with rfl | hb
    · exact le_refl _
    · exact ((pairwise_cons.1 h2).1 b hb).le
  obtain ⟨hself1, hself2⟩ := hapart e (mem_append_right ea mem_cons_self) rfl
  refine ⟨z.deleteNode x s.update, ?_, SkipList.deleteNode_layout h hea hsearched.update⟩
  rw [zslDelete, hs]
  dsimp only
  rw [hsearched.forward h, List.head?_cons]
  dsimp only
  rw [h.elem_behind hea, map_some, decide_eq_true rfl, Bool.true_and, (equalStringObjects_spec hself1 hself2).2 hobj, if_pos rfl]

variable {range : Zrangespec S} {mid : List ℕ} {ei : List (S × Robj)} {maxLevel : ℕ}

structure NodesSplit (range : Zrangespec S) (ea ei eb : List (S × Robj)) (pre mid : List ℕ) : Prop where
  split : RangeSplit range (ea.map memberOf) (ei.map memberOf) (eb.map memberOf)
  pre : ea.length = pre.length
  mid : ei.length = mid.length

namespace NodesSplit

variable (hr : NodesSplit range ea ei eb pre mid)
include hr

theorem below (he : e ∈ ea) : zslValueGteMin e.1 range = false := hr.split.below _ (List.mem_map_of_mem he)

theorem inside (he : e ∈ ei) : zslValueGteMin e.1 range = true ∧ zslValueLteMax e.1 range = true := hr.split.inside _ (List.mem_map_of_mem he)

theorem above (he : e ∈ eb) : zslValueGteMin e.1 range = true ∧ zslValueLteMax e.1 range = false := hr.split.above _ (List.mem_map_of_mem he)

theorem touches : (touches range ((ea ++ ei ++ eb).map memberOf) = false → ei = []) ∧
    (touches range ((ea ++ ei ++ eb).map memberOf) = true → rangeEmpty range = false ∧ ei ++ eb ≠ [] ∧ ea ++ ei ≠ []) := by
  obtain ⟨h1, h2⟩ := hr.split.touches
  rw [← map_append, ← map_append] at h1 h2
  refine ⟨fun h => map_eq_nil_iff.1 (h1 h), fun h => ?_⟩
  obtain ⟨h3, h4, h5⟩ := h2 h
  rw [← map_append] at h4
  exact ⟨h3, fun hc => h4 (map_eq_nil_iff.2 hc), fun hc => h5 (map_eq_nil_iff.2 hc)⟩

end NodesSplit

theorem nodes_split_le (range : Zrangespec S) (h : Layout maxLevel z ids es) (hle : es.Pairwise fun a b => a.1 ≤ b.1) :
    ∃ ea ei eb pre mid post, es = ea ++ ei ++ eb ∧ ids = pre ++ mid ++ post ∧ NodesSplit range ea ei eb pre mid := by
  have hle' : (es.map memberOf).Pairwise fun a b => a.1 ≤ b.1 := pairwise_map.2 hle
  obtain ⟨below, inside, above, hes, hsplit⟩ := range_split_le range hle'
  obtain ⟨l, eb, rfl, hl, rfl⟩ := map_eq_append_iff.1 hes
  obtain ⟨ea, ei, rfl, rfl, rfl⟩ := map_eq_append_iff.1 hl
  obtain ⟨l, post, rfl, hl⟩ := h.split
  obtain ⟨pre, mid, rfl, hpre⟩ : ∃ pre mid, l = pre ++ mid ∧ ea.length = pre.length := by
    rw [length_append] at hl
    exact ⟨l.take ea.length, l.drop ea.length, (take_append_drop _ _).symm, by rw [length_take]; omega⟩
  refine ⟨ea, ei, eb, pre, mid, post, rfl, rfl, hsplit, hpre, ?_⟩
  rw [length_append, length_append] at hl
  omega

theorem nodes_split (range : Zrangespec S) (h : Layout maxLevel z ids es) (hsorted : InOrder es) :
    ∃ ea ei eb pre mid post, es = ea ++ ei ++ eb ∧ ids = pre ++ mid ++ post ∧ NodesSplit range ea ei eb pre mid :=
  nodes_split_le range h (hsorted.imp fun hab => (memberKey_lt.1 hab).elim le_of_lt fun hc => hc.1.le)

theorem zslIsInRange_spec (h : Layout maxLevel z ids es) : zslIsInRange z range = some (touches range (es.map memberOf)) := by
  unfold zslIsInRange touches
  cases hempty : rangeEmpty range with
  | true => rfl
  | false =>
    rcases h.last_elem with ⟨htail, rfl⟩ | ⟨x, el, e, htail, rfl, he⟩
    · rw [htail]
      rfl
    rw [htail]
    dsimp only
    rw [he, bind_some, map_append, List.getLast?_append, map_singleton, List.getLast?_singleton, some_or, any_some]
    have hval : zslValueGteMin (memberOf e).1 range = zslValueGteMin e.1 range := rfl
    rw [hval]
    cases zslValueGteMin e.1 range with
    | false => rfl
    | true =>
      obtain ⟨a, rest, hfirst⟩ := exists_cons_of_ne_nil (append_ne_nil_of_right_ne_nil el (cons_ne_nil e []))
      obtain ⟨y, l, -, hforward, ha⟩ := Layout.first_elem (hfirst ▸ h)
      rw [if_pos rfl, hforward]
      dsimp only
      rw [ha, ← map_singleton, ← map_append, hfirst]
      rfl

theorem zslFirstInRange_spec (h : Layout maxLevel z (pre ++ mid ++ post) (ea ++ ei ++ eb)) (hr : NodesSplit range ea ei eb pre mid) :
    zslFirstInRange z range = some mid.head? := by
  obtain ⟨hfalse, htrue⟩ := hr.touches
  have hmid := hr.mid
  rw [zslFirstInRange, zslIsInRange_spec h, bind_some]
  cases hb : touches range ((ea ++ ei ++ eb).map memberOf) with
  | false =>
    rw [hfalse hb] at hmid
    rw [if_neg Bool.false_ne_true, length_eq_zero_iff.1 hmid.symm]
    rfl
  | true =>
    obtain ⟨-, hne, -⟩ := htrue hb
    rw [append_assoc, append_assoc] at h
    obtain ⟨s, hs, hsearched⟩ := SkipList.search_spec h (h.passes_all (p := fun e => !zslValueGteMin e.1 range) hr.pre
      (fun e he => by rw [hr.below he]; rfl) fun e he => by
        rcases mem_append.1 he with he | he
        · rw [(hr.inside he).1]
          rfl
        · rw [(hr.above he).1]
          rfl)
    rw [hs, bind_some, hsearched.forward h]
    cases ei with
    | nil =>
      obtain rfl : mid = [] := length_eq_zero_iff.1 hmid.symm
      cases eb with
      | nil => exact absurd rfl hne
      | cons e eb =>
        cases post with
        | nil =>
          have hlen := h.es_length
          have hpre := hr.pre
          simp only [nil_append, append_nil, length_append, length_cons] at hlen
          omega
        | cons x post =>
          have he := h.elem_behind hr.pre
          rw [nil_append, List.head?_cons, bind_some, he, map_some, (hr.above mem_cons_self).2, if_neg Bool.false_ne_true]
          rfl
    | cons e ei =>
      cases mid with
      | nil => cases hmid
      | cons x mid =>
        have he := h.elem_behind hr.pre
        rw [cons_append, List.head?_cons, bind_some, he, map_some, (hr.inside mem_cons_self).2, if_pos rfl]
        rfl

theorem zslLastInRange_spec (h : Layout maxLevel z (pre ++ mid ++ post) (ea ++ ei ++ eb)) (hr : NodesSplit range ea ei eb pre mid) :
    zslLastInRange z range = some mid.getLast? := by
  obtain ⟨hfalse, htrue⟩ := hr.touches
  have hmid := hr.mid
  rw [zslLastInRange, zslIsInRange_spec h, bind_some]
  cases hb : touches range ((ea ++ ei ++ eb).map memberOf) with
  | false =>
    rw [hfalse hb] at hmid
    rw [if_neg Bool.false_ne_true, length_eq_zero_iff.1 hmid.symm]
    rfl
  | true =>
    obtain ⟨hempty, -, hne⟩ := htrue hb
    rw [if_pos rfl]
    have hlen : (ea ++ ei).length = (pre ++ mid).length := by rw [length_append, length_append, hr.pre, hmid]
    obtain ⟨s, hs, hsearched⟩ := SkipList.search_spec h (h.passes_all (p := fun e => zslValueLteMax e.1 range) hlen
      (fun e he => (mem_append.1 he).elim (fun he => lteMax_of_below hempty (hr.below he)) fun he => (hr.inside he).2)
      fun e he => (hr.above he).2)
    rw [hs, bind_some]
    obtain ⟨a, ha⟩ := hsearched.last
    -- the last one of those that were passed is a node
    obtain ⟨a', rfl⟩ : ∃ a', a = 0 :: a' := by
      cases a with
      | nil =>
        have hnil := (List.cons.inj ha).2
        rw [length_eq_zero_iff.1 (hlen.trans (by rw [hnil]; rfl))] at hne
        exact absurd rfl hne
      | cons w a' =>
        rw [(List.cons.inj ha).1]
        exact ⟨a', rfl⟩
    have ha : pre ++ mid = a' ++ [s.x] := (List.cons.inj ha).2
    have hlast : ∀ {ec : List (S × Robj)} {e : S × Robj}, ea ++ ei = ec ++ [e] → (z.node s.x).elem = some e := by
      intro ec e hec
      rw [ha, hec, append_assoc, append_assoc] at h
      refine h.elem_behind ?_
      rw [ha, hec, length_append, length_append] at hlen
      exact Nat.add_right_cancel hlen
    rcases eq_nil_or_concat ei with rfl | ⟨ei, e, rfl⟩
    · obtain rfl : mid = [] := length_eq_zero_iff.1 hmid.symm
      rw [append_nil] at hne
      obtain ⟨ec, e, hec⟩ := (eq_nil_or_concat ea).resolve_left hne
      rw [concat_eq_append] at hec
      rw [hlast ((append_nil ea).trans hec), map_some, hr.below (hec ▸ mem_append_right ec mem_cons_self), if_neg Bool.false_ne_true]
      rfl
    · rw [concat_eq_append] at hlast hr
      obtain ⟨mid', x, hx⟩ := (eq_nil_or_concat mid).resolve_left (by
        rintro rfl
        rw [concat_eq_append, length_append] at hmid
        cases hmid)
      rw [hx, concat_eq_append, ← append_assoc] at ha
      obtain ⟨-, hsx⟩ := append_inj' ha rfl
      rw [hlast (append_assoc ea ei [e]).symm, map_some, (hr.inside (mem_append_right ei mem_cons_self)).1, if_pos rfl, hx,
        concat_eq_append, List.getLast?_append, List.getLast?_singleton, some_or, singleton_injective hsx]

theorem zslGetRank_spec {x : ℕ} (h : Layout maxLevel z (pre ++ x :: post) (ea ++ e :: eb)) (hea : ea.length = pre.length)
    (hsorted : InOrder (ea ++ e :: eb)) (hobj : getDecodedObject e.2 = getDecodedObject obj)
    (hdistinct : ∀ a ∈ ea, getDecodedObject a.2 ≠ getDecodedObject obj)
    (hapart : ∀ a ∈ ea ++ e :: eb, Apart (getDecodedObject a.2) (getDecodedObject obj)) : zslGetRank z e.1 obj = some (pre.length + 1) := by
  obtain ⟨-, h2, h3⟩ := pairwise_append.1 hsorted
  have hkey : memberKey (e.1, getDecodedObject obj) = memberKey (memberOf e) := by rw [← hobj]; rfl
  set pass := fun a : S × Robj => decide (a.1 < e.1) || (decide (a.1 = e.1) && decide (compareStringObjects a.2 obj ≤ 0)) with hpass
  have hpassiff : ∀ a ∈ ea ++ e :: eb, (pass a = true ↔ memberKey (memberOf a) ≤ memberKey (memberOf e)) := by
    intro a ha
    obtain ⟨h1, h2⟩ := hapart a ha
    obtain ⟨hlt, heq⟩ := compareStringObjects_spec h1 h2
    have hkeyle : memberKey (memberOf a) ≤ memberKey (memberOf e) ↔
        memberKey (memberOf a) < memberKey (e.1, getDecodedObject obj) ∨ memberKey (memberOf a) = memberKey (e.1, getDecodedObject obj) := by
      rw [hkey]
      exact le_iff_lt_or_eq
    rw [hkeyle, memberKey_lt, hpass, Bool.or_eq_true, Bool.and_eq_true, decide_eq_true_iff, decide_eq_true_iff, decide_eq_true_iff,
      le_iff_lt_or_eq, hlt, heq]
    constructor
    · rintro (hs | ⟨hs, hb | hb⟩)
      · exact Or.inl (Or.inl hs)
      · exact Or.inl (Or.inr ⟨hs, hb⟩)
      · exact Or.inr (congrArg memberKey (Prod.ext hs hb))
    · rintro ((hs | ⟨hs, hb⟩) | hk)
      · exact Or.inl hs
      · exact Or.inr ⟨hs, Or.inl hb⟩
      · have hmember : memberOf a = (e.1, getDecodedObject obj) := memberKey_injective hk
        exact Or.inr ⟨congrArg (fun p : Member S => p.1) hmember, Or.inr (congrArg (fun p : Member S => p.2) hmember)⟩
  have hsplit : ea ++ e :: eb = (ea ++ [e]) ++ eb := by rw [append_assoc]; rfl
  have hids : pre ++ x :: post = (pre ++ [x]) ++ post := by rw [append_assoc]; rfl
  have hxelem := h.elem_behind hea
  have h' := h
  rw [hsplit, hids] at h'
  have hpasses : Passes z (fun _ => pass) (pre ++ [x]) post := h'.passes_all (by rw [length_append, length_append, hea]; rfl)
    (fun a ha => (hpassiff a (hsplit ▸ mem_append_left eb ha)).2 (by
      rcases mem_append.1 ha with ha | ha
      · exact (h3 a ha e mem_cons_self).le
      · rw [mem_singleton.1 ha]))
    fun b hb => by
      rw [Bool.eq_false_iff, ne_eq, hpassiff b (hsplit ▸ mem_append_right _ hb), not_le]
      exact (pairwise_cons.1 h2).1 b hb
  obtain ⟨hself1, hself2⟩ := hapart e (mem_append_right ea mem_cons_self)
  have hrank : (pre ++ [x]).length = pre.length + 1 := by rw [length_append, length_singleton]
  have hseek := SkipList.seek_spec (fun x _ => (z.node x).elem.any fun e => equalStringObjects e.2 obj) h' hpasses
    (a := 0 :: pre) rfl (by rw [hxelem, any_some, (equalStringObjects_spec hself1 hself2).2 hobj]) fun c y d hcd hd => by
    -- the nodes before it are others
    cases c with
    | nil =>
      rw [← (List.cons.inj hcd).1, h.header]
      rfl
    | cons w c =>
      have hcd := (List.cons.inj hcd).2
      obtain ⟨d', v, hdv⟩ := (eq_nil_or_concat d).resolve_left hd
      have hcut : c ++ y :: d = (c ++ y :: d') ++ [v] := by rw [hdv, concat_eq_append, append_assoc]; rfl
      have hpre : pre = c ++ y :: d' := (append_inj' (hcd.trans hcut) rfl).1
      have hall := h
      rw [hpre, append_assoc, cons_append] at hall
      obtain ⟨el, a, er, hes, hel, ha⟩ := hall.elem_at rfl
      have hlt : el.length < ea.length := by
        rw [hea, hpre, hel, length_append, length_cons]
        omega
      have hmem : a ∈ ea := by
        have hget := congrArg (fun l => l[el.length]?) hes
        rw [List.getElem?_append_left hlt, List.getElem?_append_right (le_refl _), Nat.sub_self] at hget
        exact mem_of_getElem? hget
      obtain ⟨h1, h2⟩ := hapart a (mem_append_left _ hmem)
      rw [ha, any_some, Bool.eq_false_iff, ne_eq, equalStringObjects_spec h1 h2]
      exact hdistinct a hmem
  rw [zslGetRank, hseek, hrank]
  rfl

omit [LinearOrder S] in
theorem zslGetElementByRank_spec {x : ℕ} (h : Layout maxLevel z (pre ++ x :: post) es) : zslGetElementByRank z (pre.length + 1) = some (some x) := by
  have hids : pre ++ x :: post = (pre ++ [x]) ++ post := by rw [append_assoc]; rfl
  have hrank : (pre ++ [x]).length = pre.length + 1 := by rw [length_append, length_singleton]
  rw [hids] at h
  have hseek := SkipList.seek_spec (fun _ traversed => decide (traversed = pre.length + 1)) h
    (h.passes_rank (p := fun r => decide (r ≤ pre.length + 1)) (fun r _ hr => decide_eq_true (hrank ▸ hr)) fun r hr => decide_eq_false (by omega))
    (a := 0 :: pre) rfl (decide_eq_true hrank) fun c y d hcd hd => by
    refine decide_eq_false fun hlen => hd ?_
    have hall := congrArg List.length hcd
    rw [length_cons, hrank, length_append, length_cons] at hall
    exact length_eq_zero_iff.1 (by omega)
  rw [zslGetElementByRank, hseek]
  rfl

omit [LinearOrder S] in
theorem zslDeleteWhile_spec {inside : ℕ → S × Robj → Bool} {update rank : ℕ → ℕ} (hea : ea.length = pre.length) :
    ∀ (fuel traversed : ℕ) {z : Zskiplist S} {mid : List ℕ} {ei : List (S × Robj)},
    Layout maxLevel z (pre ++ (mid ++ post)) (ea ++ (ei ++ eb)) → (∀ i < z.level, LastAt z.height (0 :: pre) i (update i) (rank i)) →
    ei.length = mid.length → ei.length < fuel → (∀ a e b, ei = a ++ e :: b → inside (traversed + a.length) e = true) →
    (∀ e b, eb = e :: b → inside (traversed + ei.length) e = false) →
    ∃ z', zslDeleteWhile inside update fuel traversed (mid ++ post).head? z = some (ei.map Prod.snd, z') ∧ Layout maxLevel z' (pre ++ post) (ea ++ eb) := by
  intro fuel
  induction fuel with
  | zero =>
    intro traversed z mid ei _ _ _ hfuel
    exact absurd hfuel (Nat.not_lt_zero _)
  | succ fuel ih =>
    intro traversed z mid ei h hlast hmid hfuel hin hout
    cases mid with
    | nil =>
      obtain rfl : ei = [] := length_eq_zero_iff.1 hmid
      rw [nil_append] at h ⊢
      cases post with
      | nil => exact ⟨z, rfl, h⟩
      | cons x post =>
        have hlen := h.es_length
        cases eb with
        | nil =>
          simp only [append_nil, length_append, length_cons] at hlen
          omega
        | cons e eb =>
          have hno : inside traversed e = false := hout e eb rfl
          rw [List.head?_cons, zslDeleteWhile, h.elem_behind hea, bind_some, hno, if_neg Bool.false_ne_true]
          exact ⟨z, rfl, h⟩
    | cons x mid =>
      cases ei with
      | nil => cases hmid
      | cons e ei =>
        rw [cons_append] at h
        have hnext : ((z.node x).level 0).forward = (mid ++ post).head? := h.forward (a := 0 :: pre) (by rw [cons_append])
        have hfirst : inside traversed e = true := hin [] e ei rfl
        obtain ⟨z', h1, h2⟩ := ih (traversed + 1)
          (SkipList.deleteNode_layout h hea hlast) (SkipList.deleteNode_lastAt h hlast) (Nat.succ.inj hmid)
          (by rw [length_cons] at hfuel; omega)
          (fun a e' b hab => by
            have := hin (e :: a) e' b (by rw [hab]; rfl)
            rwa [length_cons, Nat.add_comm a.length, ← Nat.add_assoc] at this)
          fun e' b hb => by
            have := hout e' b hb
            rwa [length_cons, Nat.add_comm ei.length, ← Nat.add_assoc] at this
        rw [cons_append, List.head?_cons, zslDeleteWhile, h.elem_behind hea, bind_some, hfirst, if_pos rfl, hnext, h1]
        exact ⟨z', rfl, h2⟩

theorem zslDeleteRangeByScore_spec (h : Layout maxLevel z (pre ++ mid ++ post) (ea ++ ei ++ eb)) (hr : NodesSplit range ea ei eb pre mid) :
    ∃ z', zslDeleteRangeByScore z range = some (ei.map Prod.snd, z') ∧ Layout maxLevel z' (pre ++ post) (ea ++ eb) := by
  rw [append_assoc, append_assoc] at h
  have hpass : ∀ e : S × Robj, (if range.minex then decide (e.1 ≤ range.min) else decide (e.1 < range.min)) = !zslValueGteMin e.1 range := by
    intro e
    unfold zslValueGteMin
    by_cases hex : range.minex = true
    · rw [if_pos hex, if_pos hex, ← decide_not]
      exact decide_eq_decide.2 not_lt.symm
    · rw [if_neg hex, if_neg hex, ← decide_not]
      exact decide_eq_decide.2 not_le.symm
  have hinside : ∀ e : S × Robj, (if range.maxex then decide (e.1 < range.max) else decide (e.1 ≤ range.max)) = zslValueLteMax e.1 range := fun _ => rfl
  obtain ⟨s, hs, hsearched⟩ := SkipList.search_spec h (h.passes_all (p := fun e => !zslValueGteMin e.1 range) hr.pre
    (fun e he => by rw [hr.below he]; rfl) fun e he => by
      rcases mem_append.1 he with he | he
      · rw [(hr.inside he).1]
        rfl
      · rw [(hr.above he).1]
        rfl)
  unfold zslDeleteRangeByScore
  simp only [hpass, hinside]
  rw [hs, bind_some, hsearched.forward h]
  refine zslDeleteWhile_spec hr.pre (z.length + 1) 0 h hsearched.update hr.mid ?_ (fun a e b hab => ?_) fun e b hb => ?_
  · rw [h.length, h.es_length, length_append, length_append]
    omega
  · exact (hr.inside (hab ▸ mem_append_right a mem_cons_self)).2
  · exact (hr.above (hb ▸ mem_cons_self)).2

omit [LinearOrder S] in
/-- **The members between two ranks are deleted.** -/
theorem zslDeleteRangeByRank_spec (h : Layout maxLevel z (pre ++ mid ++ post) (ea ++ ei ++ eb)) (hea : ea.length = pre.length)
    (hei : ei.length = mid.length) : ∃ z', zslDeleteRangeByRank z (pre.length + 1) (pre.length + mid.length) = some (ei.map Prod.snd, z') ∧
      Layout maxLevel z' (pre ++ post) (ea ++ eb) := by
  rw [append_assoc, append_assoc] at h
  obtain ⟨s, hs, hsearched⟩ := SkipList.search_spec h (h.passes_rank (p := fun r => decide (r < pre.length + 1))
    (fun r _ hr => decide_eq_true (by omega)) fun r hr => decide_eq_false (by omega))
  unfold zslDeleteRangeByRank
  rw [hs, bind_some, hsearched.forward h, hsearched.traversed]
  refine zslDeleteWhile_spec hea (z.length + 1) (pre.length + 1) h hsearched.update hei ?_ (fun a e b hab => decide_eq_true ?_)
    fun e b hb => decide_eq_false ?_
  · rw [h.length, h.es_length, length_append, length_append]
    omega
  · rw [← hei, hab, length_append, length_cons]
    omega
  · omega

end KVStores.Redis
