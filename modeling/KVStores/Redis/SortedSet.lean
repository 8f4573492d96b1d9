import KVStores.Redis.SkipList
import Mathlib.Data.List.Sort

/-!
# Sorted sets as sorted lists

What the sorted set commands are to do: a sorted set is the list of its members in the order of
their scores, and of their bytes where the scores are the same.
-/

namespace KVStores.Redis

open List Option

abbrev Member (S : Type) := S × List UInt8

variable {S : Type}

def memberKey (e : Member S) : S ×ₗ List ℕ := toLex (e.1, ordBytes e.2)

variable {a b : Member S}

theorem memberKey_injective (h : memberKey a = memberKey b) : a = b := by
  have hpair := Prod.mk.inj (toLex.injective h)
  exact Prod.ext hpair.1 (ordBytes_injective hpair.2)

variable [LinearOrder S]

theorem memberKey_lt : memberKey a < memberKey b ↔ a.1 < b.1 ∨ a.1 = b.1 ∧ ordBytes a.2 < ordBytes b.2 := Prod.Lex.toLex_lt_toLex

/-- A sorted set: its members in order, none of them twice. -/
structure SortedSet (S : Type) [LinearOrder S] where
  elems : List (Member S)
  sorted : elems.Pairwise fun a b => memberKey a < memberKey b
  distinct : (elems.map Prod.snd).Nodup

namespace SortedSet

theorem ext_elems {l l' : SortedSet S} (h : l.elems = l'.elems) : l = l' := by
  cases l
  cases l'
  cases h
  rfl

def empty : SortedSet S := ⟨[], List.Pairwise.nil, nodup_nil⟩

def part (l : SortedSet S) (es : List (Member S)) (h : es.Sublist l.elems) : SortedSet S := ⟨es, l.sorted.sublist h, l.distinct.sublist (h.map Prod.snd)⟩

def keep (l : SortedSet S) (p : Member S → Bool) : SortedSet S := l.part (l.elems.filter p) filter_sublist

def cut (l : SortedSet S) (start stop : ℕ) : SortedSet S :=
  l.part (l.elems.take start ++ l.elems.drop (max start stop)) (by
    have h : (l.elems.take start ++ l.elems.drop (max start stop)).Sublist (l.elems.take start ++ l.elems.drop start) :=
      List.Sublist.append_left (drop_sublist_drop_left _ (le_max_left start stop)) _
    rwa [take_append_drop] at h)

def erase (l : SortedSet S) (m : List UInt8) : SortedSet S := l.keep fun e => decide (e.2 ≠ m)

def insert (l : SortedSet S) (e : Member S) (h : e.2 ∉ l.elems.map Prod.snd) : SortedSet S :=
  have hperm := perm_orderedInsert (fun a b => memberKey a ≤ memberKey b) e l.elems
  have hdistinct : ((l.elems.orderedInsert (fun a b => memberKey a ≤ memberKey b) e).map Prod.snd).Nodup :=
    (hperm.map Prod.snd).nodup_iff.2 (nodup_cons.2 ⟨h, l.distinct⟩)
  have hsorted : (l.elems.orderedInsert (fun a b => memberKey a ≤ memberKey b) e).Pairwise fun a b => memberKey a ≤ memberKey b :=
    List.Pairwise.orderedInsert e l.elems (l.sorted.imp le_of_lt)
  ⟨l.elems.orderedInsert (fun a b => memberKey a ≤ memberKey b) e,
    (hsorted.and (pairwise_map.1 hdistinct)).imp fun h => lt_of_le_of_ne h.1 fun hc => h.2 (congrArg Prod.snd (memberKey_injective hc)),
    hdistinct⟩

theorem erase_not_mem (l : SortedSet S) (m : List UInt8) : m ∉ (l.erase m).elems.map Prod.snd := by
  intro h
  obtain ⟨e, he, rfl⟩ := List.mem_map.1 h
  exact of_decide_eq_true (mem_filter.1 he).2 rfl

def put (l : SortedSet S) (e : Member S) : SortedSet S := (l.erase e.2).insert e (l.erase_not_mem e.2)

def score (l : SortedSet S) (m : List UInt8) : Option S := (l.elems.find? fun e => decide (e.2 = m)).map Prod.fst

def rank (l : SortedSet S) (m : List UInt8) : Option ℕ := l.elems.findIdx? fun e => decide (e.2 = m)

end SortedSet

theorem exists_split {α : Type} {p : α → Bool} : ∀ {l : List α}, (l.Pairwise fun a b => p b = true → p a = true) →
    ∃ la lb, l = la ++ lb ∧ (∀ a ∈ la, p a = true) ∧ ∀ b ∈ lb, p b = false
  | [], _ => ⟨[], [], rfl, fun _ h => (not_mem_nil h).elim, fun _ h => (not_mem_nil h).elim⟩
  | a :: l, h => by
    obtain ⟨hhead, htail⟩ := pairwise_cons.1 h
    cases ha : p a with
    | true =>
      obtain ⟨la, lb, rfl, h1, h2⟩ := exists_split htail
      refine ⟨a :: la, lb, rfl, fun b hb => ?_, h2⟩
      rcases mem_cons.1 hb with rfl | hb
      · exact ha
      · exact h1 b hb
    | false =>
      refine ⟨[], a :: l, rfl, fun _ h => (not_mem_nil h).elim, fun b hb => ?_⟩
      rcases mem_cons.1 hb with rfl | hb
      · exact ha
      · by_contra hc
        rw [hhead b hb (by simpa using hc)] at ha
        cases ha

namespace SortedSet

variable {l : SortedSet S} {la lb : List (Member S)} {e : Member S} {m : List UInt8}

theorem insert_elems (h : e.2 ∉ l.elems.map Prod.snd) (hl : l.elems = la ++ lb)
    (hsorted : (la ++ e :: lb).Pairwise fun a b => memberKey a < memberKey b) : (l.insert e h).elems = la ++ e :: lb := by
  change l.elems.orderedInsert (fun a b => memberKey a ≤ memberKey b) e = _
  rw [hl]
  clear hl h
  induction la with
  | nil =>
    cases lb with
    | nil => rfl
    | cons b lb => exact orderedInsert_cons_of_le _ _ ((pairwise_cons.1 hsorted).1 b mem_cons_self).le
  | cons a la ih =>
    obtain ⟨hhead, htail⟩ := pairwise_cons.1 hsorted
    have hlt := hhead e (mem_append_right la mem_cons_self)
    have hstep : (a :: (la ++ lb)).orderedInsert (fun a b => memberKey a ≤ memberKey b) e =
        a :: (la ++ lb).orderedInsert (fun a b => memberKey a ≤ memberKey b) e := orderedInsert_of_not_le _ _ (not_le.2 hlt)
    rw [cons_append, hstep, ih htail, cons_append]

theorem erase_elems (hl : l.elems = la ++ e :: lb) : (l.erase e.2).elems = la ++ lb := by
  have hdistinct := l.distinct
  rw [hl, map_append, map_cons] at hdistinct
  obtain ⟨-, h2, h3⟩ := nodup_append.1 hdistinct
  have hla : la.filter (fun a => decide (a.2 ≠ e.2)) = la := filter_eq_self.2 fun a ha =>
    decide_eq_true (h3 a.2 (List.mem_map_of_mem ha) e.2 mem_cons_self)
  have hlb : lb.filter (fun b => decide (b.2 ≠ e.2)) = lb := filter_eq_self.2 fun b hb =>
    decide_eq_true fun hc => (nodup_cons.1 h2).1 (hc ▸ List.mem_map_of_mem hb)
  change l.elems.filter (fun a => decide (a.2 ≠ e.2)) = _
  rw [hl, filter_append, filter_cons_of_neg (by simp), hla, hlb]

theorem erase_of_not_mem (h : m ∉ l.elems.map Prod.snd) : l.erase m = l :=
  ext_elems (filter_eq_self.2 fun _ he => decide_eq_true fun hc => h (hc ▸ List.mem_map_of_mem he))

theorem score_mem (hl : l.elems = la ++ e :: lb) : l.score e.2 = some e.1 := by
  have hdistinct := l.distinct
  rw [hl, map_append, map_cons] at hdistinct
  have hla := (nodup_append.1 hdistinct).2.2
  unfold score
  rw [hl, List.find?_append, List.find?_eq_none.2 fun a ha => by
    rw [decide_eq_true_iff]
    exact hla a.2 (List.mem_map_of_mem ha) e.2 mem_cons_self, none_or, List.find?_cons, decide_eq_true rfl]
  rfl

theorem score_none (h : m ∉ l.elems.map Prod.snd) : l.score m = none := by
  unfold score
  rw [List.find?_eq_none.2 fun a ha => by
    rw [decide_eq_true_iff]
    exact fun hc => h (hc ▸ List.mem_map_of_mem ha)]
  rfl

theorem rank_mem (hl : l.elems = la ++ e :: lb) : l.rank e.2 = some la.length := by
  have hdistinct := l.distinct
  rw [hl, map_append, map_cons] at hdistinct
  have hla := (nodup_append.1 hdistinct).2.2
  unfold rank
  rw [hl, List.findIdx?_append, List.findIdx?_eq_none_iff.2 fun a ha => by
    rw [decide_eq_false_iff_not]
    exact hla a.2 (List.mem_map_of_mem ha) e.2 mem_cons_self, none_or, List.findIdx?_cons, decide_eq_true rfl, if_pos rfl, map_some,
    Nat.zero_add]

theorem rank_none (h : m ∉ l.elems.map Prod.snd) : l.rank m = none := by
  unfold rank
  rw [List.findIdx?_eq_none_iff]
  intro a ha
  rw [decide_eq_false_iff_not]
  exact fun hc => h (hc ▸ List.mem_map_of_mem ha)

theorem mem_or_split (l : SortedSet S) (m : List UInt8) : m ∉ l.elems.map Prod.snd ∨ ∃ la s lb, l.elems = la ++ (s, m) :: lb := by
  by_cases h : m ∈ l.elems.map Prod.snd
  · obtain ⟨e, he, rfl⟩ := List.mem_map.1 h
    obtain ⟨la, lb, hl⟩ := append_of_mem he
    exact Or.inr ⟨la, e.1, lb, hl⟩
  · exact Or.inl h

theorem not_mem_others (hl : l.elems = la ++ e :: lb) : e.2 ∉ (la ++ lb).map Prod.snd := by
  rw [← erase_elems hl]
  exact l.erase_not_mem e.2

theorem put_new (h : e.2 ∉ l.elems.map Prod.snd) : l.put e = l.insert e h :=
  have herase : l.erase e.2 = l := erase_of_not_mem h
  ext_elems (congrArg (fun l : SortedSet S => l.elems.orderedInsert (fun a b => memberKey a ≤ memberKey b) e) herase)

theorem put_same (hl : l.elems = la ++ e :: lb) : l.put e = l := ext_elems (by
  rw [hl]
  exact insert_elems _ (erase_elems hl) (hl ▸ l.sorted))

theorem insert_split (h : e.2 ∉ l.elems.map Prod.snd) : ∃ la lb, l.elems = la ++ lb ∧ (∀ a ∈ la, memberKey a < memberKey e) ∧
    (∀ b ∈ lb, memberKey e < memberKey b) ∧ (l.insert e h).elems = la ++ e :: lb := by
  obtain ⟨la, lb, hl, h1, h2⟩ := exists_split (p := fun a => decide (memberKey a < memberKey e))
    (l.sorted.imp fun hab hb => decide_eq_true (hab.trans (of_decide_eq_true hb)))
  have hbefore : ∀ a ∈ la, memberKey a < memberKey e := fun a ha => of_decide_eq_true (h1 a ha)
  have hbehind : ∀ b ∈ lb, memberKey e < memberKey b := by
    intro b hb
    refine lt_of_le_of_ne (not_lt.1 (of_decide_eq_false (h2 b hb))) fun hc => h ?_
    rw [memberKey_injective hc]
    exact List.mem_map_of_mem (hl ▸ mem_append_right la hb)
  refine ⟨la, lb, hl, hbefore, hbehind, insert_elems h hl ?_⟩
  have hsorted := l.sorted
  rw [hl] at hsorted
  obtain ⟨hla, hlb, hlt⟩ := pairwise_append.1 hsorted
  refine pairwise_append.2 ⟨hla, pairwise_cons.2 ⟨hbehind, hlb⟩, fun a ha b hb => ?_⟩
  rcases mem_cons.1 hb with rfl | hb
  · exact hbefore a ha
  · exact hlt a ha b hb

theorem mem_insert (h : e.2 ∉ l.elems.map Prod.snd) (a : Member S) : a ∈ (l.insert e h).elems ↔ a = e ∨ a ∈ l.elems := by
  have hperm : (l.insert e h).elems.Perm (e :: l.elems) := perm_orderedInsert _ _ _
  rw [hperm.mem_iff, mem_cons]

theorem put_ne_nil (l : SortedSet S) (e : Member S) : (l.put e).elems ≠ [] :=
  ne_nil_of_mem ((mem_insert (l.erase_not_mem e.2) e).2 (Or.inl rfl))

end SortedSet

structure ZArg where
  bytes : List UInt8
  shared : Bool

/-- The commands that change a sorted set, with their arguments as they were parsed. `ZADD` has at least one member. -/
inductive ZUpdate (S : Type)
  | zadd (first : S × ZArg) (more : List (S × ZArg))
  | zincrby (score : S) (member : ZArg)
  | zrem (members : List (List UInt8))
  | zremrangebyscore (range : Zrangespec S)
  | zremrangebyrank (start stop : ℤ)

inductive ZQuery (S : Type)
  | zrange (reverse withscores : Bool) (start stop : ℤ)
  | zrangebyscore (reverse withscores : Bool) (range : Zrangespec S) (offset limit : ℤ)
  | zcount (range : Zrangespec S)
  | zrank (reverse : Bool) (member : ZArg)
  | zscore (member : ZArg)
  | zcard

inductive ZReply (S : Type)
  | double (s : S)
  | number (n : ℤ)
  | error (text : String)
  | nullbulk
  | multibulk (members : List (List UInt8 × Option S))
deriving DecidableEq

def nanerr : String := "resulting score is not a number (NaN)"

def bulk (withscores : Bool) (e : Member S) : List UInt8 × Option S := (e.2, if withscores then some e.1 else none)

def inRange (range : Zrangespec S) (e : Member S) : Bool := zslValueGteMin e.1 range && zslValueLteMax e.1 range

def fromEnd (length : ℕ) (index : ℤ) : ℤ := if index < 0 then length + index else index

def limited {α : Type} (limit : ℤ) (l : List α) : List α := if limit < 0 then l else l.take limit.toNat

/-- Without as many elements as an offset says, or without any. -/
def skipped {α : Type} (offset : ℤ) (l : List α) : List α := if offset < 0 then [] else l.drop offset.toNat

def directed {α : Type} (reverse : Bool) (l : List α) : List α := if reverse then l.reverse else l

namespace SortedSet

/-- One member of `ZADD` or `ZINCRBY`: its new score, and whether it was not there. A sum that is not a number is none. -/
def addMember (add : S → S → Option S) (incr : Bool) (l : SortedSet S) (e : Member S) : Option (S × Bool × SortedSet S) :=
  match l.score e.2 with
  | none => some (e.1, true, l.put e)
  | some cur => (if incr then add e.1 cur else some e.1).map fun s => (s, false, l.put (s, e.2))

/-- The members of `ZADD` or `ZINCRBY`, one after the other. -/
@[grind =] def addMembers (add : S → S → Option S) (incr : Bool) : ℕ → S → SortedSet S → List (Member S) → ZReply S × SortedSet S
  | added, score, l, [] => (if incr then .double score else .number added, l)
  | added, _, l, e :: es =>
    match addMember add incr l e with
    | none => (.error nanerr, l)
    | some (s, new, l') => addMembers add incr (if new && !incr then added + 1 else added) s l' es

/-- The members of `ZREM`, one after the other. -/
@[grind =] def remMembers : ℕ → SortedSet S → List (List UInt8) → ℕ × SortedSet S
  | deleted, l, [] => (deleted, l)
  | deleted, l, m :: ms => if (l.score m).isSome then remMembers (deleted + 1) (l.erase m) ms else remMembers deleted l ms

@[grind =] def update (add : S → S → Option S) (l : SortedSet S) : ZUpdate S → ZReply S × SortedSet S
  | .zadd first more => addMembers add false 0 first.1 l ((first :: more).map fun e => (e.1, e.2.bytes))
  | .zincrby score member => addMembers add true 0 score l [(score, member.bytes)]
  | .zrem members => ((remMembers 0 l members).1 |> fun n => .number n, (remMembers 0 l members).2)
  | .zremrangebyscore range => (.number (l.elems.filter (inRange range)).length, l.keep fun e => !inRange range e)
  | .zremrangebyrank start stop =>
    let length := l.elems.length
    let l' := l.cut (fromEnd length start).toNat (fromEnd length stop + 1).toNat
    (.number (length - l'.elems.length : ℕ), l')

@[grind =] def query (l : SortedSet S) : ZQuery S → ZReply S
  | .zrange reverse withscores start stop =>
    let length := l.elems.length
    .multibulk ((((directed reverse l.elems).take (fromEnd length stop + 1).toNat).drop (fromEnd length start).toNat).map (bulk withscores))
  | .zrangebyscore reverse withscores range offset limit =>
    .multibulk ((limited limit (skipped offset ((directed reverse l.elems).filter (inRange range)))).map (bulk withscores))
  | .zcount range => .number (l.elems.filter (inRange range)).length
  | .zrank reverse member =>
    match l.rank member.bytes with
    | none => .nullbulk
    | some r => .number (if reverse then l.elems.length - 1 - r else r)
  | .zscore member => (l.score member.bytes).elim .nullbulk .double
  | .zcard => .number l.elems.length

end SortedSet

variable {range : Zrangespec S} {s t : S}

theorem gteMin_mono (hle : s ≤ t) (h : zslValueGteMin s range = true) : zslValueGteMin t range = true := by
  unfold zslValueGteMin at *
  by_cases hex : range.minex = true
  · rw [if_pos hex, decide_eq_true_iff] at *
    exact h.trans_le hle
  · rw [if_neg hex, decide_eq_true_iff] at *
    exact h.trans hle

theorem lteMax_mono (hle : s ≤ t) (h : zslValueLteMax t range = true) : zslValueLteMax s range = true := by
  unfold zslValueLteMax at *
  by_cases hex : range.maxex = true
  · rw [if_pos hex, decide_eq_true_iff] at *
    exact hle.trans_lt h
  · rw [if_neg hex, decide_eq_true_iff] at *
    exact hle.trans h

theorem rangeEmpty_spec (h : rangeEmpty range = true) (hmin : zslValueGteMin s range = true) : zslValueLteMax s range = false := by
  unfold rangeEmpty at h
  unfold zslValueGteMin at hmin
  unfold zslValueLteMax
  rw [Bool.or_eq_true, Bool.and_eq_true, Bool.or_eq_true, decide_eq_true_iff, decide_eq_true_iff] at h
  have hle : range.min ≤ s := by
    by_cases hex : range.minex = true
    · rw [if_pos hex, decide_eq_true_iff] at hmin
      exact hmin.le
    · rwa [if_neg hex, decide_eq_true_iff] at hmin
  by_cases hmaxex : range.maxex = true
  · rw [if_pos hmaxex, decide_eq_false_iff_not, not_lt]
    rcases h with h | h
    · exact h.le.trans hle
    · exact h.1 ▸ hle
  · rw [if_neg hmaxex, decide_eq_false_iff_not, not_le]
    rcases h with h | ⟨heq, h⟩
    · exact h.trans_le hle
    · rw [if_pos (h.resolve_right hmaxex), decide_eq_true_iff] at hmin
      exact heq ▸ hmin

theorem lteMax_of_below (h : rangeEmpty range = false) (hmin : zslValueGteMin s range = false) : zslValueLteMax s range = true := by
  unfold rangeEmpty at h
  unfold zslValueGteMin at hmin
  unfold zslValueLteMax
  rw [Bool.or_eq_false_iff, Bool.and_eq_false_iff, Bool.or_eq_false_iff, decide_eq_false_iff_not, decide_eq_false_iff_not, not_lt] at h
  obtain ⟨hle, hne⟩ := h
  by_cases hminex : range.minex = true
  · rw [if_pos hminex, decide_eq_false_iff_not, not_lt] at hmin
    have hlt : range.min < range.max := lt_of_le_of_ne hle (hne.resolve_right fun hc => by
      rw [hminex] at hc
      exact absurd hc.1 (by decide))
    by_cases hmaxex : range.maxex = true
    · rw [if_pos hmaxex, decide_eq_true_iff]
      exact hmin.trans_lt hlt
    · rw [if_neg hmaxex, decide_eq_true_iff]
      exact hmin.trans hle
  · rw [if_neg hminex, decide_eq_false_iff_not, not_le] at hmin
    by_cases hmaxex : range.maxex = true
    · rw [if_pos hmaxex, decide_eq_true_iff]
      exact hmin.trans_le hle
    · rw [if_neg hmaxex, decide_eq_true_iff]
      exact (hmin.trans_le hle).le

structure RangeSplit (range : Zrangespec S) (below inside above : List (Member S)) : Prop where
  below : ∀ e ∈ below, zslValueGteMin e.1 range = false
  inside : ∀ e ∈ inside, zslValueGteMin e.1 range = true ∧ zslValueLteMax e.1 range = true
  above : ∀ e ∈ above, zslValueGteMin e.1 range = true ∧ zslValueLteMax e.1 range = false

variable {l : List (Member S)}

theorem range_split_le (range : Zrangespec S) (hle : l.Pairwise fun a b => a.1 ≤ b.1) :
    ∃ below inside above, l = below ++ inside ++ above ∧ RangeSplit range below inside above := by
  obtain ⟨below, rest, rfl, h1, h2⟩ := exists_split (p := fun e : Member S => !zslValueGteMin e.1 range)
    (hle.imp fun {a b} hab hb => by
      by_contra hc
      rw [gteMin_mono hab (by simpa using hc)] at hb
      cases hb)
  obtain ⟨inside, above, rfl, h3, h4⟩ := exists_split (p := fun e : Member S => zslValueLteMax e.1 range)
    ((pairwise_append.1 hle).2.1.imp fun hab => lteMax_mono hab)
  have hmin : ∀ e ∈ inside ++ above, zslValueGteMin e.1 range = true := fun e he => by simpa using h2 e he
  exact ⟨below, inside, above, (append_assoc _ _ _).symm, fun e he => by simpa using h1 e he,
    fun e he => ⟨hmin e (mem_append_left above he), h3 e he⟩, fun e he => ⟨hmin e (mem_append_right inside he), h4 e he⟩⟩

theorem range_split (range : Zrangespec S) (h : l.Pairwise fun a b => memberKey a < memberKey b) :
    ∃ below inside above, l = below ++ inside ++ above ∧ RangeSplit range below inside above :=
  range_split_le range (h.imp fun hab => (memberKey_lt.1 hab).elim le_of_lt fun hc => hc.1.le)

variable {below inside above : List (Member S)}

theorem RangeSplit.filter (h : RangeSplit range below inside above) :
    (below ++ inside ++ above).filter (inRange range) = inside ∧ ((below ++ inside ++ above).filter fun e => !inRange range e) = below ++ above := by
  have h1 : ∀ e ∈ below, inRange range e = false := fun e he => by rw [inRange, h.below e he, Bool.false_and]
  have h2 : ∀ e ∈ inside, inRange range e = true := fun e he => by rw [inRange, (h.inside e he).1, (h.inside e he).2, Bool.true_and]
  have h3 : ∀ e ∈ above, inRange range e = false := fun e he => by rw [inRange, (h.above e he).2, Bool.and_false]
  have hnot : ∀ {l : List (Member S)}, (∀ e ∈ l, inRange range e = false) → l.filter (inRange range) = [] ∧ (l.filter fun e => !inRange range e) = l :=
    fun hl => ⟨filter_eq_nil_iff.2 fun e he => by rw [hl e he]; exact Bool.false_ne_true, filter_eq_self.2 fun e he => by rw [hl e he]; rfl⟩
  have hall : inside.filter (inRange range) = inside ∧ (inside.filter fun e => !inRange range e) = [] :=
    ⟨filter_eq_self.2 h2, filter_eq_nil_iff.2 fun e he => by rw [h2 e he]; exact Bool.false_ne_true⟩
  rw [filter_append, filter_append, filter_append, filter_append, (hnot h1).1, (hnot h1).2, (hnot h3).1, (hnot h3).2, hall.1, hall.2,
    nil_append, append_nil, append_nil]
  exact ⟨rfl, rfl⟩

def touches (range : Zrangespec S) (l : List (Member S)) : Bool :=
  !rangeEmpty range && (l.getLast?.any fun e => zslValueGteMin e.1 range) && l.head?.any fun e => zslValueLteMax e.1 range

theorem RangeSplit.touches (h : RangeSplit range below inside above) : (touches range (below ++ inside ++ above) = false → inside = []) ∧
      (touches range (below ++ inside ++ above) = true → rangeEmpty range = false ∧ inside ++ above ≠ [] ∧ below ++ inside ≠ []) := by
  have hbelow : rangeEmpty range = false → ∀ e ∈ below ++ inside, zslValueLteMax e.1 range = true := fun hempty e he =>
    (mem_append.1 he).elim (fun he => lteMax_of_below hempty (h.below e he)) fun he => (h.inside e he).2
  have habove : ∀ e ∈ inside ++ above, zslValueGteMin e.1 range = true := fun e he =>
    (mem_append.1 he).elim (fun he => (h.inside e he).1) fun he => (h.above e he).1
  unfold Redis.touches
  constructor
  · intro hfalse
    by_contra hne
    obtain ⟨e, he⟩ := exists_mem_of_ne_nil _ hne
    have hempty : rangeEmpty range = false := by
      by_contra hc
      have := rangeEmpty_spec (by simpa using hc) (h.inside e he).1
      rw [(h.inside e he).2] at this
      cases this
    obtain ⟨a, rest, hfirst⟩ := exists_cons_of_ne_nil (append_ne_nil_of_right_ne_nil below hne)
    obtain ⟨front, b, hlast⟩ := (eq_nil_or_concat (inside ++ above)).resolve_left fun hc => hne (append_eq_nil_iff.1 hc).1
    rw [concat_eq_append] at hlast
    have hmin := habove b (hlast ▸ mem_append_right front mem_cons_self)
    have hmax := hbelow hempty a (hfirst ▸ mem_cons_self)
    have hlast' : (below ++ inside ++ above).getLast? = some b := by
      rw [append_assoc, hlast, ← append_assoc, List.getLast?_append, List.getLast?_singleton, some_or]
    rw [hempty, hlast', any_some, hmin, hfirst, cons_append, List.head?_cons, any_some, hmax] at hfalse
    cases hfalse
  · intro htrue
    rw [Bool.and_eq_true, Bool.and_eq_true, Bool.not_eq_true'] at htrue
    obtain ⟨⟨hempty, hlast⟩, hfirst⟩ := htrue
    refine ⟨hempty, fun hnil => ?_, fun hnil => ?_⟩
    · rw [append_assoc, hnil, append_nil] at hlast
      obtain ⟨b, hb, hmin⟩ := (Option.any_eq_true _ _).1 hlast
      rw [h.below b (mem_of_getLast? hb)] at hmin
      cases hmin
    · rw [hnil, nil_append] at hfirst
      obtain ⟨a, ha, hmax⟩ := (Option.any_eq_true _ _).1 hfirst
      rw [(h.above a (mem_of_head? ha)).2] at hmax
      cases hmax

end KVStores.Redis
