import KVStores.Redis.SkipListSpec

/-!
# Runs of the skip lists

The functions on skip lists called in any order, with any levels drawn, on elements of which the comparisons make a strict total order
(`Ordered`).

* `zsl_run`: **every run is one of sorted sets**, as long as `zslGetRank` comes upon no element of a lower score that has the member it is asked for.
* `zsl_run_shadowed`: it then takes that element for the one it is asked for.
-/

namespace KVStores.Redis

open List Option

open SkipList (Layout Passes Searched)

variable {S : Type} [LinearOrder S] {K : Type} [LinearOrder K] {key : S × Robj → K} {U : Set (S × Robj)}

/-- Whether `zslDelete` takes an element for the one that it is asked for. -/
def zslSame (e a : S × Robj) : Bool := decide (e.1 = a.1) && equalStringObjects a.2 e.2

structure Ordered (key : S × Robj → K) (U : Set (S × Robj)) : Prop where
  before : ∀ a ∈ U, ∀ e ∈ U, (zslBefore e.1 e.2 a = true ↔ key a < key e)
  same : ∀ a ∈ U, ∀ e ∈ U, (zslSame e a = true ↔ key a = key e)

def zslInRange (range : Zrangespec S) (e : S × Robj) : Bool := zslValueGteMin e.1 range && zslValueLteMax e.1 range

inductive ZslCall (S : Type)
  | insert (rounds : ℕ) (e : S × Robj)
  | delete (e : S × Robj)
  | deleteRangeByScore (range : Zrangespec S)
  | deleteRangeByRank (start stop : ℕ)
  | getRank (e : S × Robj)
  | getElementByRank (rank : ℕ)
  | firstInRange (range : Zrangespec S)
  | lastInRange (range : Zrangespec S)

inductive ZslReply (S : Type)
  | inserted
  | number (n : ℕ)
  | element (e : Option (S × Robj))
deriving DecidableEq

/-- The element of a node that may be `NULL`. -/
def nodeElem (z : Zskiplist S) (x : Option ℕ) : Option (S × Robj) := x.bind fun x => (z.node x).elem

@[grind =] def zslCall (z : Zskiplist S) : ZslCall S → Option (ZslReply S × Zskiplist S)
  | .insert rounds e => (zslInsert rounds z e.1 e.2).map fun r => (.inserted, r.2)
  | .delete e => (zslDelete z e.1 e.2).map fun r => (.number (if r.1 = true then 1 else 0), r.2)
  | .deleteRangeByScore range => (zslDeleteRangeByScore z range).map fun r => (.number r.1.length, r.2)
  | .deleteRangeByRank start stop => (zslDeleteRangeByRank z start stop).map fun r => (.number r.1.length, r.2)
  | .getRank e => (zslGetRank z e.1 e.2).map fun rank => (.number rank, z)
  | .getElementByRank rank => (zslGetElementByRank z rank).map fun x => (.element (nodeElem z x), z)
  | .firstInRange range => (zslFirstInRange z range).map fun x => (.element (nodeElem z x), z)
  | .lastInRange range => (zslLastInRange z range).map fun x => (.element (nodeElem z x), z)

@[grind =] def listCall (es : List (S × Robj)) : ZslCall S → ZslReply S × List (S × Robj)
  | .insert _ e => (.inserted, es.takeWhile (zslBefore e.1 e.2) ++ e :: es.dropWhile (zslBefore e.1 e.2))
  | .delete e => (.number (if es.any (zslSame e) = true then 1 else 0), es.filter fun a => !zslSame e a)
  | .deleteRangeByScore range => (.number (es.filter (zslInRange range)).length, es.filter fun a => !zslInRange range a)
  | .deleteRangeByRank start stop => (.number ((es.take stop).drop (start - 1)).length, es.take (start - 1) ++ es.drop (max stop (start - 1)))
  | .getRank e => (.number ((es.findIdx? (zslSame e)).elim 0 (· + 1)), es)
  | .getElementByRank rank => (.element es[rank - 1]?, es)
  | .firstInRange range => (.element (es.filter (zslInRange range)).head?, es)
  | .lastInRange range => (.element (es.filter (zslInRange range)).getLast?, es)

/-- The calls that are asked about: of elements under the order, none inserted that is there, and of ranks from 1 on. -/
@[grind =] def ZslCall.Proper (U : Set (S × Robj)) (es : List (S × Robj)) : ZslCall S → Prop
  | .insert _ e => e ∈ U ∧ ∀ a ∈ es, zslSame e a = false
  | .delete e => e ∈ U
  | .getRank e => e ∈ U
  | .getElementByRank rank => 1 ≤ rank
  | _ => True

/-- No element of a lower score has the member that `zslGetRank` is asked for. -/
def ZslCall.Clear (es : List (S × Robj)) : ZslCall S → Prop
  | .getRank e => ∀ a ∈ es, a.1 < e.1 → equalStringObjects a.2 e.2 = false
  | _ => True

structure Sorted (key : S × Robj → K) (U : Set (S × Robj)) (es : List (S × Robj)) : Prop where
  sorted : es.Pairwise fun a b => key a < key b
  mem : ∀ e ∈ es, e ∈ U

variable {es ea eb : List (S × Robj)} {e : S × Robj}

theorem Sorted.le (hU : Ordered key U) (hes : Sorted key U es) : es.Pairwise fun a b => a.1 ≤ b.1 := by
  refine List.Pairwise.imp_of_mem ?_ hes.sorted
  intro a b ha hb hlt
  have hbefore := (hU.before a (hes.mem a ha) b (hes.mem b hb)).2 hlt
  rw [zslBefore, Bool.or_eq_true, Bool.and_eq_true, decide_eq_true_iff, decide_eq_true_iff] at hbefore
  rcases hbefore with h | h
  · exact h.le
  · exact h.1.le

theorem Sorted.split (hU : Ordered key U) (hes : Sorted key U es) (he : e ∈ U) :
    ∃ ea eb, es = ea ++ eb ∧ (∀ a ∈ ea, key a < key e ∧ zslBefore e.1 e.2 a = true) ∧ ∀ b ∈ eb, key e ≤ key b ∧ zslBefore e.1 e.2 b = false := by
  obtain ⟨ea, eb, rfl, h1, h2⟩ := exists_split (p := fun a => decide (key a < key e))
    (hes.sorted.imp fun h hb => decide_eq_true (h.trans (of_decide_eq_true hb)))
  refine ⟨ea, eb, rfl, ?_, ?_⟩
  · intro a ha
    have hlt := of_decide_eq_true (h1 a ha)
    exact ⟨hlt, (hU.before a (hes.mem a (mem_append_left eb ha)) e he).2 hlt⟩
  · intro b hb
    have hnot := of_decide_eq_false (h2 b hb)
    refine ⟨not_lt.1 hnot, ?_⟩
    rw [Bool.eq_false_iff, ne_eq, hU.before b (hes.mem b (mem_append_right ea hb)) e he]
    exact hnot

variable {p : S × Robj → Bool}

omit [LinearOrder S] in
theorem takeWhile_split (h1 : ∀ a ∈ ea, p a = true) (h2 : ∀ b ∈ eb, p b = false) :
    (ea ++ eb).takeWhile p = ea ∧ (ea ++ eb).dropWhile p = eb := by
  have hrest : eb.takeWhile p = [] ∧ eb.dropWhile p = eb := by
    cases eb with
    | nil => exact ⟨rfl, rfl⟩
    | cons b eb =>
      have hb := h2 b mem_cons_self
      rw [takeWhile_cons_of_neg (by rw [hb]; exact Bool.false_ne_true), dropWhile_cons_of_neg (by rw [hb]; exact Bool.false_ne_true)]
      exact ⟨rfl, rfl⟩
  rw [takeWhile_append_of_pos h1, dropWhile_append_of_pos h1, hrest.1, hrest.2, append_nil]
  exact ⟨rfl, rfl⟩

variable {z : Zskiplist S} {ids : List ℕ}

theorem zslRandomLevel_bounds (rounds : ℕ) : 1 ≤ zslRandomLevel rounds ∧ zslRandomLevel rounds ≤ zskiplistMaxlevel := by
  unfold zslRandomLevel zskiplistMaxlevel
  by_cases hlt : rounds + 1 < 32
  · rw [if_pos hlt]
    omega
  · rw [if_neg hlt]
    omega

/-- **An element is inserted** where it belongs. -/
theorem insert_call (hU : Ordered key U) (h : Layout zskiplistMaxlevel z ids es) (hes : Sorted key U es) (rounds : ℕ) (he : e ∈ U)
    (hnew : ∀ a ∈ es, zslSame e a = false) :
    ∃ z' ids', zslCall z (.insert rounds e) = some (.inserted, z') ∧ Layout zskiplistMaxlevel z' ids' (listCall es (.insert rounds e)).2 ∧
      Sorted key U (listCall es (.insert rounds e)).2 := by
  obtain ⟨ea, eb, rfl, hbefore, hbehind⟩ := hes.split hU he
  obtain ⟨pre, post, rfl, hea⟩ := h.split
  obtain ⟨s, hs, hsearched⟩ := SkipList.search_spec h (h.passes_all hea (fun a ha => (hbefore a ha).2) fun b hb => (hbehind b hb).2)
  obtain ⟨hpos, hmax⟩ := zslRandomLevel_bounds rounds
  obtain ⟨htake, hdrop⟩ := takeWhile_split (fun a ha => (hbefore a ha).2) fun b hb => (hbehind b hb).2
  have hlist : (listCall (ea ++ eb) (.insert rounds e)).2 = ea ++ e :: eb := by
    rw [listCall, htake, hdrop]
  rw [hlist]
  refine ⟨_, _, ?_, SkipList.insertNode_layout h hea hsearched hpos hmax, ?_, ?_⟩
  · rw [zslCall, zslInsert, hs]
    rfl
  · obtain ⟨h1, h2, h3⟩ := pairwise_append.1 hes.sorted
    refine pairwise_append.2 ⟨h1, pairwise_cons.2 ⟨?_, h2⟩, ?_⟩
    · intro b hb
      refine lt_of_le_of_ne (hbehind b hb).1 ?_
      intro hkey
      have hmem := mem_append_right ea hb
      have hsame := (hU.same b (hes.mem b hmem) e he).2 hkey.symm
      rw [hnew b hmem] at hsame
      exact absurd hsame Bool.false_ne_true
    · intro a ha b hb
      rcases mem_cons.1 hb with rfl | hb
      · exact (hbefore a ha).1
      · exact h3 a ha b hb
  · intro a ha
    rcases mem_append.1 ha with ha | ha
    · exact hes.mem a (mem_append_left eb ha)
    · rcases mem_cons.1 ha with rfl | ha
      · exact he
      · exact hes.mem a (mem_append_right ea ha)

theorem Sorted.behind (hU : Ordered key U) (hes : Sorted key U (ea ++ eb)) (he : e ∈ U) (hbefore : ∀ a ∈ ea, key a < key e)
    (hbehind : ∀ b ∈ eb, key e ≤ key b) :
    (∀ a ∈ ea, zslSame e a = false) ∧ ((∀ b ∈ eb, zslSame e b = false) ∨ ∃ a rest, eb = a :: rest ∧ zslSame e a = true ∧ ∀ b ∈ rest, zslSame e b = false) := by
  have hother : ∀ a ∈ ea ++ eb, key a ≠ key e → zslSame e a = false := by
    intro a ha hne
    rw [Bool.eq_false_iff, ne_eq, hU.same a (hes.mem a ha) e he]
    exact hne
  refine ⟨fun a ha => hother a (mem_append_left eb ha) (hbefore a ha).ne, ?_⟩
  cases eb with
  | nil => exact Or.inl fun b hb => absurd hb not_mem_nil
  | cons a rest =>
    have hmem : a ∈ ea ++ a :: rest := mem_append_right ea mem_cons_self
    have hrest : ∀ b ∈ rest, zslSame e b = false := by
      intro b hb
      have hlt := (pairwise_cons.1 (pairwise_append.1 hes.sorted).2.1).1 b hb
      exact hother b (mem_append_right ea (mem_cons_of_mem a hb)) ((hbehind a mem_cons_self).trans_lt hlt).ne'
    by_cases hkey : key a = key e
    · exact Or.inr ⟨a, rest, rfl, (hU.same a (hes.mem a hmem) e he).2 hkey, hrest⟩
    · refine Or.inl ?_
      intro b hb
      rcases mem_cons.1 hb with rfl | hb
      · exact hother b hmem hkey
      · exact hrest b hb

omit [LinearOrder S] in
theorem filter_none (es : List (S × Robj)) (h : ∀ a ∈ es, p a = false) : (es.filter fun a => !p a) = es ∧ es.filter p = [] ∧ es.any p = false := by
  refine ⟨?_, ?_, ?_⟩
  · refine filter_eq_self.2 ?_
    intro a ha
    rw [h a ha]
    rfl
  · refine filter_eq_nil_iff.2 ?_
    intro a ha
    rw [h a ha]
    exact Bool.false_ne_true
  · refine List.any_eq_false.2 ?_
    intro a ha
    rw [h a ha]
    exact Bool.false_ne_true

omit [LinearOrder S] in
theorem Sorted.sublist {es' : List (S × Robj)} (hes : Sorted key U es) (hsub : es'.Sublist es) : Sorted key U es' :=
  ⟨hes.sorted.sublist hsub, fun a ha => hes.mem a (hsub.subset ha)⟩

/-- **An element is deleted**, if it is there. -/
theorem delete_call (hU : Ordered key U) (h : Layout zskiplistMaxlevel z ids es) (hes : Sorted key U es) (he : e ∈ U) :
    ∃ z' ids', zslCall z (.delete e) = some ((listCall es (.delete e)).1, z') ∧ Layout zskiplistMaxlevel z' ids' (listCall es (.delete e)).2 ∧
      Sorted key U (listCall es (.delete e)).2 := by
  obtain ⟨ea, eb, rfl, hbefore, hbehind⟩ := hes.split hU he
  obtain ⟨pre, post, rfl, hea⟩ := h.split
  obtain ⟨s, hs, hsearched⟩ := SkipList.search_spec h (h.passes_all hea (fun a ha => (hbefore a ha).2) fun b hb => (hbehind b hb).2)
  obtain ⟨hleft, hright⟩ := hes.behind hU he (fun a ha => (hbefore a ha).1) fun b hb => (hbehind b hb).1
  have hea_same := filter_none ea hleft
  rcases hright with hright | ⟨a, rest, rfl, hsame, hright⟩
  · -- the node behind the search is another one, or there is none
    have hnone := filter_none (ea ++ eb) fun a ha => (mem_append.1 ha).elim (hleft a) (hright a)
    have hdelete : zslDelete z e.1 e.2 = some (false, z) := by
      rw [zslDelete, hs]
      dsimp only
      rw [hsearched.forward h]
      cases post with
      | nil => rfl
      | cons x post =>
        obtain ⟨b, rest, rfl⟩ : ∃ b rest, eb = b :: rest := by
          cases eb with
          | nil =>
            have hlen := h.es_length
            simp only [append_nil, length_append, length_cons] at hlen
            omega
          | cons b rest => exact ⟨b, rest, rfl⟩
        have hb : (decide (e.1 = b.1) && equalStringObjects b.2 e.2) = false := hright b mem_cons_self
        rw [List.head?_cons]
        dsimp only
        rw [h.elem_behind hea, map_some, hb, if_neg Bool.false_ne_true]
    refine ⟨z, pre ++ post, ?_, ?_, ?_⟩
    · rw [zslCall, hdelete, listCall, hnone.2.2]
      rfl
    · rw [listCall, hnone.1]
      exact h
    · rw [listCall, hnone.1]
      exact hes
  · obtain ⟨x, post', rfl⟩ : ∃ x post', post = x :: post' := by
      cases post with
      | nil =>
        have hlen := h.es_length
        simp only [append_nil, length_append, length_cons] at hlen
        omega
      | cons x post' => exact ⟨x, post', rfl⟩
    have hdelete : zslDelete z e.1 e.2 = some (true, z.deleteNode x s.update) := by
      have hcond : (decide (e.1 = a.1) && equalStringObjects a.2 e.2) = true := hsame
      rw [zslDelete, hs]
      dsimp only
      rw [hsearched.forward h, List.head?_cons]
      dsimp only
      rw [h.elem_behind hea, map_some, hcond, if_pos rfl]
    have hany : (ea ++ a :: rest).any (zslSame e) = true := List.any_eq_true.2 ⟨a, mem_append_right ea mem_cons_self, hsame⟩
    have hfilter : ((ea ++ a :: rest).filter fun b => !zslSame e b) = ea ++ rest := by
      rw [filter_append, hea_same.1, filter_cons_of_neg (by rw [hsame]; exact Bool.false_ne_true), (filter_none rest hright).1]
    refine ⟨z.deleteNode x s.update, pre ++ post', ?_, ?_, ?_⟩
    · rw [zslCall, hdelete, listCall, hany]
      rfl
    · rw [listCall, hfilter]
      exact SkipList.deleteNode_layout h hea hsearched.update
    · rw [listCall, hfilter]
      exact hes.sublist (List.Sublist.append_left (sublist_cons_self a rest) ea)

theorem NodesSplit.filter {range : Zrangespec S} {ei : List (S × Robj)} {pre mid : List ℕ} (hr : NodesSplit range ea ei eb pre mid) :
    (ea ++ ei ++ eb).filter (zslInRange range) = ei ∧ ((ea ++ ei ++ eb).filter fun a => !zslInRange range a) = ea ++ eb := by
  have hlow : ∀ a ∈ ea, zslInRange range a = false := fun a ha => by rw [zslInRange, hr.below ha, Bool.false_and]
  have hhigh : ∀ a ∈ eb, zslInRange range a = false := fun a ha => by rw [zslInRange, (hr.above ha).2, Bool.and_false]
  have hbelow := filter_none ea hlow
  have habove := filter_none eb hhigh
  have hinside : ∀ a ∈ ei, zslInRange range a = true := fun a ha => by rw [zslInRange, (hr.inside ha).1, (hr.inside ha).2, Bool.and_self]
  have hkept : ei.filter (zslInRange range) = ei := filter_eq_self.2 hinside
  have hgone : (ei.filter fun a => !zslInRange range a) = [] := by
    refine filter_eq_nil_iff.2 ?_
    intro a ha
    rw [hinside a ha]
    exact Bool.false_ne_true
  rw [filter_append, filter_append, filter_append, filter_append, hbelow.1, hbelow.2.1, habove.1, habove.2.1, hkept, hgone,
    nil_append, append_nil, append_nil]
  exact ⟨rfl, rfl⟩

/-- **The elements in a range of scores are deleted.** -/
theorem deleteRangeByScore_call (hU : Ordered key U) (h : Layout zskiplistMaxlevel z ids es) (hes : Sorted key U es) (range : Zrangespec S) :
    ∃ z' ids', zslCall z (.deleteRangeByScore range) = some ((listCall es (.deleteRangeByScore range)).1, z') ∧
      Layout zskiplistMaxlevel z' ids' (listCall es (.deleteRangeByScore range)).2 ∧ Sorted key U (listCall es (.deleteRangeByScore range)).2 := by
  obtain ⟨ea, ei, eb, pre, mid, post, rfl, rfl, hr⟩ := nodes_split_le range h (hes.le hU)
  obtain ⟨z', hdelete, hlayout⟩ := zslDeleteRangeByScore_spec h hr
  obtain ⟨hin, hout⟩ := hr.filter
  refine ⟨z', pre ++ post, ?_, ?_, ?_⟩
  · rw [zslCall, hdelete, listCall, hin, map_some, length_map]
  · rw [listCall, hout]
    exact hlayout
  · rw [listCall, hout, append_assoc] at *
    exact hes.sublist (List.Sublist.append_left (sublist_append_right ei eb) ea)

/-- **The elements between two ranks are deleted.** -/
theorem deleteRangeByRank_call (h : Layout zskiplistMaxlevel z ids es) (hes : Sorted key U es) (start stop : ℕ) :
    ∃ z' ids', zslCall z (.deleteRangeByRank start stop) = some ((listCall es (.deleteRangeByRank start stop)).1, z') ∧
      Layout zskiplistMaxlevel z' ids' (listCall es (.deleteRangeByRank start stop)).2 ∧ Sorted key U (listCall es (.deleteRangeByRank start stop)).2 := by
  have hlen := h.es_length
  have hmax : start - 1 + (stop - (start - 1)) = max stop (start - 1) := by omega
  -- in front of the ranks, in between, and behind them
  have hids : ids = ids.take (start - 1) ++ ((ids.drop (start - 1)).take (stop - (start - 1)) ++ ids.drop (max stop (start - 1))) := by
    rw [← hmax, ← drop_drop, take_append_drop, take_append_drop]
  have hsplit : es = es.take (start - 1) ++ ((es.drop (start - 1)).take (stop - (start - 1)) ++ es.drop (max stop (start - 1))) := by
    rw [← hmax, ← drop_drop, take_append_drop, take_append_drop]
  have hea : (es.take (start - 1)).length = (ids.take (start - 1)).length := by rw [length_take, length_take, hlen]
  have hei : ((es.drop (start - 1)).take (stop - (start - 1))).length = ((ids.drop (start - 1)).take (stop - (start - 1))).length := by
    rw [length_take, length_take, length_drop, length_drop, hlen]
  have hpasses : Passes z (fun r _ => decide (r < start)) (ids.take (start - 1)) (ids.drop (start - 1)) := by
    constructor
    · intro a x b e hab _
      have hshort := congrArg List.length hab
      rw [length_take, length_append, length_cons] at hshort
      exact decide_eq_true (by omega)
    · intro a x b e hab _
      have hrest := congrArg List.length hab
      rw [length_drop, length_append, length_cons] at hrest
      have hfront : (ids.take (start - 1)).length = start - 1 := by
        rw [length_take]
        omega
      exact decide_eq_false (by omega)
  have h' := h
  rw [← take_append_drop (start - 1) ids] at h'
  obtain ⟨s, hs, hsearched⟩ := SkipList.search_spec h' hpasses
  have hforward := hsearched.forward h'
  have hcut : ids.drop (start - 1) = (ids.drop (start - 1)).take (stop - (start - 1)) ++ ids.drop (max stop (start - 1)) := by
    rw [← hmax, ← drop_drop, take_append_drop]
  rw [hids, hsplit] at h
  have hwhile : ∃ z', zslDeleteWhile (fun traversed _ => decide (traversed ≤ stop)) s.update (z.length + 1) ((ids.take (start - 1)).length + 1)
      ((ids.drop (start - 1)).take (stop - (start - 1)) ++ ids.drop (max stop (start - 1))).head? z =
        some (((es.drop (start - 1)).take (stop - (start - 1))).map Prod.snd, z') ∧
      Layout zskiplistMaxlevel z' (ids.take (start - 1) ++ ids.drop (max stop (start - 1))) (es.take (start - 1) ++ es.drop (max stop (start - 1))) := by
    refine zslDeleteWhile_spec hea (z.length + 1) _ h hsearched.update hei ?_ ?_ ?_
    · rw [h.length, ← hids, length_take, length_drop]
      omega
    · intro a e b hab
      have hin := congrArg List.length hab
      rw [length_take, length_drop, length_append, length_cons] at hin
      refine decide_eq_true ?_
      rw [length_take]
      omega
    · intro e b hb
      have hrest := congrArg List.length hb
      rw [length_drop, length_cons] at hrest
      refine decide_eq_false ?_
      rw [length_take, length_take, length_drop]
      omega
  obtain ⟨z', hdelete, hlayout⟩ := hwhile
  have hcall : zslDeleteRangeByRank z start stop = some (((es.drop (start - 1)).take (stop - (start - 1))).map Prod.snd, z') := by
    rw [zslDeleteRangeByRank, hs, bind_some, hforward, hsearched.traversed, hcut]
    exact hdelete
  have hsub : (es.take (start - 1) ++ es.drop (max stop (start - 1))).Sublist es := by
    have hdropped := List.Sublist.append_left (sublist_append_right ((es.drop (start - 1)).take (stop - (start - 1)))
      (es.drop (max stop (start - 1)))) (es.take (start - 1))
    rw [← hsplit] at hdropped
    exact hdropped
  refine ⟨z', _, ?_, hlayout, hes.sublist hsub⟩
  rw [zslCall, hcall, listCall, drop_take, map_some, length_map]

theorem compareStringObjects_eq_zero (a b : Robj) : compareStringObjects a b = 0 ↔ equalStringObjects a b = true := by
  cases a with
  | raw s => cases b <;> exact decide_eq_true_iff.symm
  | int v =>
    cases b with
    | raw t => exact decide_eq_true_iff.symm
    | int w =>
      have hvw := @not_clash (getDecodedObject (.int v)) (getDecodedObject (.int w)) (ll2string_noNul w.1)
      have hwv := @not_clash (getDecodedObject (.int w)) (getDecodedObject (.int v)) (ll2string_noNul v.1)
      rw [(compareStringObjects_spec hvw hwv).2, equalStringObjects_spec hvw hwv]

/-- The condition of the loop of `zslGetRank`. -/
def rankPass (e a : S × Robj) : Bool := decide (a.1 < e.1) || (decide (a.1 = e.1) && decide (compareStringObjects a.2 e.2 ≤ 0))

theorem rankPass_iff (hU : Ordered key U) {a : S × Robj} (ha : a ∈ U) (he : e ∈ U) : rankPass e a = true ↔ key a ≤ key e := by
  rw [le_iff_lt_or_eq, ← hU.before a ha e he, ← hU.same a ha e he, zslBefore, zslSame, rankPass]
  simp only [Bool.or_eq_true, Bool.and_eq_true, decide_eq_true_iff, le_iff_lt_or_eq, compareStringObjects_eq_zero, eq_comm (a := e.1)]
  tauto

variable {maxLevel : ℕ}

omit [LinearOrder S] in
theorem elem_before {pre post c d : List ℕ} {y : ℕ} (h : Layout maxLevel z (pre ++ post) (ea ++ eb)) (hea : ea.length = pre.length)
    (hcd : 0 :: pre = c ++ y :: d) : (z.node y).elem = none ∨ ∃ a ∈ ea, (z.node y).elem = some a := by
  cases c with
  | nil =>
    rw [← (List.cons.inj hcd).1]
    exact Or.inl h.header
  | cons w c =>
    have hpre : pre = c ++ y :: d := (List.cons.inj hcd).2
    rw [hpre, append_assoc, cons_append] at h
    obtain ⟨el, a, er, hes, hel, ha⟩ := h.elem_at rfl
    have hlt : el.length < ea.length := by
      rw [hea, hpre, hel, length_append, length_cons]
      omega
    have hget := congrArg (fun l => l[el.length]?) hes
    rw [List.getElem?_append_left hlt, List.getElem?_append_right (le_refl _), Nat.sub_self] at hget
    exact Or.inr ⟨a, mem_of_getElem? hget, ha⟩

/-- **The rank of an element**, when no element of a lower score has its member. -/
theorem getRank_call (hU : Ordered key U) (h : Layout zskiplistMaxlevel z ids es) (hes : Sorted key U es) (he : e ∈ U)
    (hclear : ∀ a ∈ es, a.1 < e.1 → equalStringObjects a.2 e.2 = false) : zslCall z (.getRank e) = some ((listCall es (.getRank e)).1, z) := by
  obtain ⟨ea, eb, rfl, hbefore, hbehind⟩ := hes.split hU he
  obtain ⟨pre, post, rfl, hea⟩ := h.split
  obtain ⟨hleft, hright⟩ := hes.behind hU he (fun a ha => (hbefore a ha).1) fun b hb => (hbehind b hb).1
  have hmem : ∀ a ∈ ea ++ eb, a ∈ U := hes.mem
  -- a node of a lesser element has another member
  have hother : ∀ a ∈ ea, equalStringObjects a.2 e.2 = false := by
    intro a ha
    have hlt := (hbefore a ha).2
    rw [zslBefore, Bool.or_eq_true, Bool.and_eq_true, decide_eq_true_iff, decide_eq_true_iff] at hlt
    rcases hlt with hlt | ⟨heq, -⟩
    · exact hclear a (mem_append_left eb ha) hlt
    · have hsame := hleft a ha
      rw [zslSame, heq, decide_eq_true rfl, Bool.true_and] at hsame
      exact hsame
  have hgo : ∀ c y d, 0 :: pre = c ++ y :: d → ((z.node y).elem.any fun a => equalStringObjects a.2 e.2) = false := by
    intro c y d hcd
    rcases elem_before h hea hcd with hnone | ⟨a, ha, hsome⟩
    · rw [hnone]
      rfl
    · rw [hsome, any_some]
      exact hother a ha
  have hpassed : ∀ a ∈ ea, rankPass e a = true := fun a ha => (rankPass_iff hU (hmem a (mem_append_left eb ha)) he).2 (hbefore a ha).1.le
  have hindex : ∀ l, (ea ++ l).findIdx? (zslSame e) = (l.findIdx? (zslSame e)).map (· + ea.length) := by
    intro l
    rw [List.findIdx?_append, List.findIdx?_eq_none_iff.2 hleft, none_or]
  rcases hright with hright | ⟨a, rest, rfl, hsame, hright⟩
  · have hstopped : ∀ b ∈ eb, rankPass e b = false := by
      intro b hb
      have hb' := hmem b (mem_append_right ea hb)
      rw [Bool.eq_false_iff, ne_eq, rankPass_iff hU hb' he, not_le]
      refine lt_of_le_of_ne (hbehind b hb).1 ?_
      intro hkey
      have hsame := (hU.same b hb' e he).2 hkey.symm
      rw [hright b hb] at hsame
      exact absurd hsame Bool.false_ne_true
    have hseek := SkipList.seek_none (fun x _ => (z.node x).elem.any fun a => equalStringObjects a.2 e.2) h (h.passes_all hea hpassed hstopped) hgo
    have hnone : zslGetRank z e.1 e.2 = some 0 := by
      exact congrArg (Option.map fun found => Option.elim found 0 Prod.snd) hseek
    rw [zslCall, hnone, listCall, hindex, List.findIdx?_eq_none_iff.2 hright]
    rfl
  · obtain ⟨x, post', rfl⟩ : ∃ x post', post = x :: post' := by
      cases post with
      | nil =>
        have hlen := h.es_length
        simp only [append_nil, length_append, length_cons] at hlen
        omega
      | cons x post' => exact ⟨x, post', rfl⟩
    have hkey := (hU.same a (hmem a (mem_append_right ea mem_cons_self)) e he).1 hsame
    have hxelem := h.elem_behind hea
    have hequal : equalStringObjects a.2 e.2 = true := (Bool.and_eq_true_iff.1 hsame).2
    have hes' : ea ++ a :: rest = (ea ++ [a]) ++ rest := by rw [append_assoc]; rfl
    have hids' : pre ++ x :: post' = (pre ++ [x]) ++ post' := by rw [append_assoc]; rfl
    have h' := h
    rw [hes', hids'] at h'
    have hpassed' : ∀ b ∈ ea ++ [a], rankPass e b = true := by
      intro b hb
      rcases mem_append.1 hb with hb | hb
      · exact hpassed b hb
      · rw [mem_singleton.1 hb]
        exact (rankPass_iff hU (hmem a (mem_append_right ea mem_cons_self)) he).2 hkey.le
    have hstopped : ∀ b ∈ rest, rankPass e b = false := by
      intro b hb
      have hlt := (pairwise_cons.1 (pairwise_append.1 hes.sorted).2.1).1 b hb
      rw [Bool.eq_false_iff, ne_eq, rankPass_iff hU (hmem b (mem_append_right ea (mem_cons_of_mem a hb))) he, not_le, ← hkey]
      exact hlt
    have hlen' : (ea ++ [a]).length = (pre ++ [x]).length := by rw [length_append, length_append, hea]; rfl
    have hseek := SkipList.seek_spec (fun x _ => (z.node x).elem.any fun a => equalStringObjects a.2 e.2) h' (h'.passes_all hlen' hpassed' hstopped)
      (a := 0 :: pre) rfl (by rw [hxelem, any_some, hequal]) fun c y d hcd hd => by
        obtain ⟨d', v, hdv⟩ := (eq_nil_or_concat d).resolve_left hd
        have hcut : c ++ y :: d = (c ++ y :: d') ++ [v] := by rw [hdv, concat_eq_append, append_assoc]; rfl
        have hfront : (0 :: pre) ++ [x] = (c ++ y :: d') ++ [v] := by rw [← hcut]; exact hcd
        exact hgo c y d' (append_inj' hfront rfl).1
    have hrank : zslGetRank z e.1 e.2 = some (pre.length + 1) := by
      rw [zslGetRank]
      refine (congrArg (Option.map fun found => Option.elim found 0 Prod.snd) hseek).trans ?_
      rw [length_append]
      rfl
    rw [zslCall, hrank, listCall, hindex, List.findIdx?_cons, hsame, ← hea]
    show some (ZslReply.number (ea.length + 1), z) = some (ZslReply.number (0 + ea.length + 1), z)
    rw [Nat.zero_add]

omit [LinearOrder S] in
theorem nodeElem_eq {x : Option ℕ} {e : Option (S × Robj)} (helem : x.map (fun x => (z.node x).elem) = e.map some) : nodeElem z x = e := by
  cases x with
  | none =>
    cases e with
    | none => rfl
    | some e => exact absurd helem nofun
  | some x =>
    cases e with
    | none => exact absurd helem nofun
    | some e => exact Option.some.inj helem

omit [LinearOrder S] in
theorem nodeElem_at (h : Layout maxLevel z ids es) (i : ℕ) : nodeElem z ids[i]? = es[i]? := by
  have helems := congrArg (fun l => l[i]?) h.elems
  rw [List.getElem?_map, List.getElem?_map] at helems
  exact nodeElem_eq helems

/-- **The element of a rank.** -/
theorem getElementByRank_call (h : Layout zskiplistMaxlevel z ids es) {rank : ℕ} (hrank : 1 ≤ rank) :
    zslCall z (.getElementByRank rank) = some ((listCall es (.getElementByRank rank)).1, z) := by
  have hfound : zslGetElementByRank z rank = some ids[rank - 1]? := by
    by_cases hin : rank - 1 < ids.length
    · have hsplit : ids = ids.take (rank - 1) ++ ids[rank - 1] :: ids.drop (rank - 1 + 1) := by
        rw [getElem_cons_drop, take_append_drop]
      have h' := h
      rw [hsplit] at h'
      have hspec := zslGetElementByRank_spec h'
      rw [length_take, Nat.min_eq_left (Nat.le_of_lt hin), Nat.sub_add_cancel hrank] at hspec
      rw [hspec, List.getElem?_eq_getElem hin]
    · have hpasses : Passes z (fun r _ => decide (r ≤ rank)) ids [] := by
        constructor
        · intro a x b e hab _
          have hlen := congrArg List.length hab
          rw [length_append, length_cons] at hlen
          exact decide_eq_true (by omega)
        · intro a x b e hab _
          exact absurd hab.symm (append_ne_nil_of_right_ne_nil a (cons_ne_nil x b))
      have h' := h
      rw [← append_nil ids] at h'
      have hseek := SkipList.seek_none (fun _ traversed => decide (traversed = rank)) h' hpasses fun c x d hcd => by
        have hlen := congrArg List.length hcd
        rw [length_cons, length_append, length_cons] at hlen
        exact decide_eq_false (by omega)
      rw [zslGetElementByRank, hseek, List.getElem?_eq_none (by omega)]
      rfl
  rw [zslCall, hfound, map_some, nodeElem_at h, listCall]

/-- **The first element in a range, and the last one.** -/
theorem inRange_calls (hU : Ordered key U) (h : Layout zskiplistMaxlevel z ids es) (hes : Sorted key U es) (range : Zrangespec S) :
    zslCall z (.firstInRange range) = some ((listCall es (.firstInRange range)).1, z) ∧
      zslCall z (.lastInRange range) = some ((listCall es (.lastInRange range)).1, z) := by
  obtain ⟨ea, ei, eb, pre, mid, post, rfl, rfl, hr⟩ := nodes_split_le range h (hes.le hU)
  have hmid : mid.map (fun x => (z.node x).elem) = ei.map some := by
    have helems := h.elems
    rw [map_append, map_append, map_append, map_append] at helems
    obtain ⟨hfront, -⟩ := append_inj helems (by simp only [length_append, length_map, hr.pre, hr.mid])
    exact (append_inj hfront (by simp only [length_map, hr.pre])).2
  have hin := hr.filter.1
  constructor
  · have hhead := congrArg List.head? hmid
    rw [List.head?_map, List.head?_map] at hhead
    rw [zslCall, zslFirstInRange_spec h hr, listCall, hin, map_some, nodeElem_eq hhead]
  · have hlast := congrArg List.getLast? hmid
    rw [List.getLast?_map, List.getLast?_map] at hlast
    rw [zslCall, zslLastInRange_spec h hr, listCall, hin, map_some, nodeElem_eq hlast]

/-- **One call** does what it would do to the list of the elements. -/
theorem zslCall_spec (hU : Ordered key U) (h : Layout zskiplistMaxlevel z ids es) (hes : Sorted key U es) {c : ZslCall S} (hproper : c.Proper U es)
    (hclear : c.Clear es) : ∃ z' ids', zslCall z c = some ((listCall es c).1, z') ∧ Layout zskiplistMaxlevel z' ids' (listCall es c).2 ∧
      Sorted key U (listCall es c).2 := by
  cases c with
  | insert rounds e => exact insert_call hU h hes rounds hproper.1 hproper.2
  | delete e => exact delete_call hU h hes hproper
  | deleteRangeByScore range => exact deleteRangeByScore_call hU h hes range
  | deleteRangeByRank start stop => exact deleteRangeByRank_call h hes start stop
  | getRank e => exact ⟨z, ids, getRank_call hU h hes hproper hclear, h, hes⟩
  | getElementByRank rank => exact ⟨z, ids, getElementByRank_call h hproper, h, hes⟩
  | firstInRange range => exact ⟨z, ids, (inRange_calls hU h hes range).1, h, hes⟩
  | lastInRange range => exact ⟨z, ids, (inRange_calls hU h hes range).2, h, hes⟩

@[grind =] def zslRun (z : Zskiplist S) : List (ZslCall S) → Option (List (ZslReply S) × Zskiplist S)
  | [] => some ([], z)
  | c :: cs => (zslCall z c).bind fun r => (zslRun r.2 cs).map fun rs => (r.1 :: rs.1, rs.2)

@[grind =] def listRun (es : List (S × Robj)) : List (ZslCall S) → List (ZslReply S) × List (S × Robj)
  | [] => ([], es)
  | c :: cs => ((listCall es c).1 :: (listRun (listCall es c).2 cs).1, (listRun (listCall es c).2 cs).2)

/-- A condition on each call and on the elements that it comes upon. -/
@[grind =] def Throughout (p : List (S × Robj) → ZslCall S → Prop) : List (S × Robj) → List (ZslCall S) → Prop
  | _, [] => True
  | es, c :: cs => p es c ∧ Throughout p (listCall es c).2 cs

theorem zslRun_spec (hU : Ordered key U) : ∀ {cs : List (ZslCall S)} {z : Zskiplist S} {ids : List ℕ} {es : List (S × Robj)},
    Layout zskiplistMaxlevel z ids es → Sorted key U es → Throughout (fun es c => c.Proper U es) es cs → Throughout (fun es c => c.Clear es) es cs →
    ∃ z' ids', zslRun z cs = some ((listRun es cs).1, z') ∧ Layout zskiplistMaxlevel z' ids' (listRun es cs).2 ∧ Sorted key U (listRun es cs).2 := by
  intro cs
  induction cs with
  | nil =>
    intro z ids es h hes _ _
    exact ⟨z, ids, rfl, h, hes⟩
  | cons c cs ih =>
    intro z ids es h hes hproper hclear
    obtain ⟨z₁, ids₁, hcall, h₁, hes₁⟩ := zslCall_spec hU h hes hproper.1 hclear.1
    obtain ⟨z', ids', hrun, h', hes'⟩ := ih h₁ hes₁ hproper.2 hclear.2
    refine ⟨z', ids', ?_, h', hes'⟩
    rw [zslRun, hcall, bind_some, hrun, map_some, listRun]

theorem zsl_run (hU : Ordered key U) {cs : List (ZslCall S)} (hproper : Throughout (fun es c => c.Proper U es) [] cs)
    (hclear : Throughout (fun es c => c.Clear es) [] cs) :
    ∃ z ids, zslRun zslCreate cs = some ((listRun [] cs).1, z) ∧ Layout zskiplistMaxlevel z ids (listRun [] cs).2 ∧
      (listRun [] cs).2.Pairwise fun a b => key a < key b := by
  have hcreate : Layout zskiplistMaxlevel (zslCreate : Zskiplist S) [] [] := SkipList.create_layout (by decide)
  obtain ⟨z, ids, hrun, hlayout, hsorted⟩ := zslRun_spec hU hcreate ⟨List.Pairwise.nil, fun e he => absurd he not_mem_nil⟩ hproper hclear
  exact ⟨z, ids, hrun, hlayout, hsorted.sorted⟩

theorem ordered_apart (hapart : ∀ a ∈ U, ∀ e ∈ U, Apart (getDecodedObject a.2) (getDecodedObject e.2)) :
    Ordered (fun e => memberKey (memberOf e)) U := by
  constructor
  · intro a ha e he
    exact zslBefore_iff fun _ => hapart a ha e he
  · intro a ha e he
    obtain ⟨h1, h2⟩ := hapart a ha e he
    rw [zslSame, Bool.and_eq_true, decide_eq_true_iff, equalStringObjects_spec h1 h2]
    constructor
    · rintro ⟨hs, hm⟩
      exact congrArg memberKey (Prod.ext hs.symm hm)
    · intro hkey
      have hmember : memberOf a = memberOf e := memberKey_injective hkey
      exact ⟨(congrArg (fun p : Member S => p.1) hmember).symm, congrArg (fun p : Member S => p.2) hmember⟩

def letters : Set (ℤ × Robj) := {(1, .raw [97]), (2, .raw [97]), (2, .raw [98])}

theorem letters_ordered : Ordered (fun e => memberKey (memberOf e)) letters := by
  refine ordered_apart ?_
  have hnoNul : ∀ e ∈ letters, (0 : UInt8) ∉ getDecodedObject e.2 := by
    rintro e (rfl | rfl | rfl) <;> decide
  intro a ha e he
  exact ⟨not_clash (hnoNul e he), not_clash (hnoNul a ha)⟩

theorem zsl_run_shadowed : ¬ ∀ cs : List (ZslCall ℤ), Throughout (fun es c => c.Proper letters es) [] cs →
    (zslRun zslCreate cs).map Prod.fst = some (listRun [] cs).1 := by
  intro hclaim
  have hrun := hclaim [.insert 0 (1, .raw [97]), .getRank (2, .raw [97])]
    ⟨⟨Or.inl rfl, fun a ha => absurd ha not_mem_nil⟩, Or.inr (Or.inl rfl), trivial⟩
  exact absurd hrun (by decide)

def letterCalls : List (ZslCall ℤ) :=
  [.insert 3 (2, .raw [98]), .insert 0 (2, .raw [97]), .getRank (2, .raw [98]), .deleteRangeByRank 1 1, .getRank (2, .raw [97])]

theorem zsl_run_letters :
    ∃ z ids, zslRun zslCreate letterCalls = some ((listRun [] letterCalls).1, z) ∧ Layout zskiplistMaxlevel z ids (listRun [] letterCalls).2 ∧
      (listRun [] letterCalls).2.Pairwise fun a b => memberKey (memberOf a) < memberKey (memberOf b) := by
  refine zsl_run letters_ordered ?_ ?_
  · refine ⟨⟨Or.inr (Or.inr rfl), fun a ha => absurd ha not_mem_nil⟩, ⟨Or.inr (Or.inl rfl), ?_⟩, Or.inr (Or.inr rfl), trivial, Or.inr (Or.inl rfl), trivial⟩
    decide
  · refine ⟨trivial, trivial, ?_, trivial, ?_, trivial⟩
    · show ∀ a ∈ _, _
      decide
    · show ∀ a ∈ _, _
      decide

end KVStores.Redis
