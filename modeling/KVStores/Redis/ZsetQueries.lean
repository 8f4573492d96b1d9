import KVStores.Redis.ZsetQuery

/-!
# What the commands read

* `zsetQuery_spec`: **a command reads what it is to read**, in either encoding, when no two members clash.
-/

namespace KVStores.Redis

open List Option

open SkipList (Layout)

variable {S P : Type} {next : P → Option (Option P)} {get : P → Option (Member S)}

/-! ## Loops over members -/

/-- A pointer that leads from one member to the next one, and after the last one is `NULL`. -/
@[grind =] def Walks (next : P → Option (Option P)) (get : P → Option (Member S)) : Option P → List (Member S) → Prop
  | p, [] => p = none
  | p, e :: l => ∃ x y, p = some x ∧ get x = some e ∧ next x = some y ∧ Walks next get y l

theorem rangeLoop_spec : ∀ {n : ℕ} {p : Option P} {l : List (Member S)}, Walks next get p l → n ≤ l.length →
    rangeLoop next get n p = some (l.take n) := by
  intro n
  induction n with
  | zero =>
    intro p l _ _
    rw [rangeLoop, take_zero]
  | succ n ih =>
    intro p l h hn
    cases l with
    | nil => exact absurd hn (Nat.not_succ_le_zero n)
    | cons e l =>
      obtain ⟨x, y, rfl, hget, hnext, hwalk⟩ := h
      rw [rangeLoop, hget, bind_some, hnext, bind_some, ih hwalk (Nat.le_of_succ_le_succ hn)]
      rfl

theorem offsetLoop_spec : ∀ {fuel : ℕ} {offset : ℤ} {p : Option P} {l : List (Member S)}, Walks next get p l → l.length < fuel →
    ∃ p', offsetLoop next fuel offset p = some p' ∧ Walks next get p' (skipped offset l) := by
  intro fuel
  induction fuel with
  | zero =>
    intro offset p l _ hfuel
    exact absurd hfuel (Nat.not_lt_zero _)
  | succ fuel ih =>
    intro offset p l h hfuel
    cases l with
    | nil =>
      obtain rfl : p = none := h
      refine ⟨none, rfl, ?_⟩
      unfold skipped
      by_cases hneg : offset < 0
      · rw [if_pos hneg]
        rfl
      · rw [if_neg hneg, drop_nil]
        rfl
    | cons e l =>
      obtain ⟨x, y, rfl, hget, hnext, hwalk⟩ := id h
      rw [offsetLoop]
      by_cases hzero : offset = 0
      · subst hzero
        exact ⟨some x, rfl, h⟩
      · rw [if_neg hzero, hnext, bind_some]
        obtain ⟨p', h1, h2⟩ := ih hwalk (Nat.lt_of_succ_lt_succ hfuel)
        refine ⟨p', h1, ?_⟩
        have hskip : skipped offset (e :: l) = skipped (offset - 1) l := by
          unfold skipped
          by_cases hneg : offset < 0
          · rw [if_pos hneg, if_pos (by omega)]
          · have hsucc : offset.toNat = (offset - 1).toNat + 1 := by omega
            rw [if_neg hneg, if_neg (by omega), hsucc, drop_succ_cons]
        rwa [hskip]

theorem limitLoop_spec {inside : S → Bool} : ∀ {fuel : ℕ} {limit : ℤ} {p : Option P} {l : List (Member S)}, Walks next get p l → l.length < fuel →
    limitLoop next get inside fuel limit p = some (limited limit (l.takeWhile fun e => inside e.1)) := by
  intro fuel
  induction fuel with
  | zero =>
    intro limit p l _ hfuel
    exact absurd hfuel (Nat.not_lt_zero _)
  | succ fuel ih =>
    intro limit p l h hfuel
    cases l with
    | nil =>
      obtain rfl : p = none := h
      unfold limited
      rw [takeWhile_nil, take_nil, ite_self]
      rfl
    | cons e l =>
      obtain ⟨x, y, rfl, hget, hnext, hwalk⟩ := h
      rw [limitLoop]
      by_cases hzero : limit = 0
      · rw [if_pos hzero, hzero]
        rfl
      · rw [if_neg hzero, hget, bind_some, takeWhile_cons]
        by_cases hin : inside e.1 = true
        · rw [if_pos hin, if_pos hin, hnext, bind_some, ih hwalk (Nat.lt_of_succ_lt_succ hfuel), map_some]
          congr 1
          unfold limited
          by_cases hneg : limit < 0
          · rw [if_pos hneg, if_pos (by omega)]
          · have hsucc : limit.toNat = (limit - 1).toNat + 1 := by omega
            rw [if_neg hneg, if_neg (by omega), hsucc, take_succ_cons]
        · rw [if_neg hin, if_neg hin]
          unfold limited
          rw [take_nil, ite_self]

theorem skipped_nil (offset : ℤ) : skipped offset ([] : List (Member S)) = [] := by
  unfold skipped
  rw [drop_nil, ite_self]

theorem limited_nil (limit : ℤ) : limited limit ([] : List (Member S)) = [] := by
  unfold limited
  rw [take_nil, ite_self]

theorem takeWhile_skipped {p : Member S → Bool} {la lb : List (Member S)} (offset : ℤ) (hla : ∀ e ∈ la, p e = true) (hlb : ∀ e ∈ lb, p e = false) :
    (skipped offset (la ++ lb)).takeWhile p = skipped offset la := by
  have hstop : ∀ {l : List (Member S)}, (∀ e ∈ l, p e = false) → l.takeWhile p = [] := by
    intro l hl
    cases l with
    | nil => rfl
    | cons e l => exact takeWhile_cons_of_neg (by rw [hl e mem_cons_self]; exact Bool.false_ne_true)
  unfold skipped
  by_cases hneg : offset < 0
  · rw [if_pos hneg, if_pos hneg]
    rfl
  · rw [if_neg hneg, if_neg hneg, drop_append, takeWhile_append_of_pos fun e he => hla e (mem_of_mem_drop he),
      hstop fun e he => hlb e (mem_of_mem_drop he), append_nil]

/-! ## Pointers -/

variable {fmt : ScoreFormat S} {l la lb : List (Member S)} {e : Member S}

theorem zzlGet_at (hread : fmt.Reads) : zzlGet fmt (zzlEntries fmt (la ++ e :: lb)) (2 * la.length, 2 * la.length + 1) = some e := by
  obtain ⟨h1, h2⟩ : (zzlEntries fmt (la ++ e :: lb))[2 * la.length]? = some (zipEntry e.2) ∧ _ := zzlEntries_at
  rw [zzlGet, h1, bind_some, h2, map_some, zipEntry_bytes, hread]

theorem zzlPair_at : zzlPair (zzlEntries fmt (la ++ e :: lb)) (2 * la.length) = some (2 * la.length, 2 * la.length + 1) := by
  rw [zzlPair, ziplistNext, zzlEntries_length, length_append, length_cons, if_pos (by omega)]
  rfl

variable {zl : List ZipEntry} {index : ℤ}

theorem ziplistIndex_front (h : 0 ≤ index) (hlt : index < zl.length) : ziplistIndex zl index = some index.toNat := by
  rw [ziplistIndex, if_neg (not_lt.2 h)]
  exact if_pos ⟨h, hlt⟩

theorem ziplistIndex_back (h : index < 0) (hle : 0 ≤ zl.length + index) : ziplistIndex zl index = some (zl.length + index).toNat := by
  rw [ziplistIndex, if_pos h]
  exact if_pos ⟨hle, by omega⟩

/-- **Through a ziplist, forward.** -/
theorem zzl_walks (hread : fmt.Reads) : ∀ {lb la : List (Member S)} {e : Member S},
    Walks (zzlStep false (zzlEntries fmt (la ++ e :: lb))) (zzlGet fmt (zzlEntries fmt (la ++ e :: lb))) (some (2 * la.length, 2 * la.length + 1)) (e :: lb) := by
  intro lb
  induction lb with
  | nil =>
    intro la e
    refine ⟨_, none, rfl, zzlGet_at hread, ?_, rfl⟩
    rw [zzlStep, if_neg Bool.false_ne_true, zzlNext, ziplistNext, zzlEntries_length, length_append, length_singleton, if_neg (by omega)]
  | cons e' lb ih =>
    intro la e
    have hlen : (la ++ [e]).length = la.length + 1 := by rw [length_append, length_singleton]
    have hrest := @ih (la ++ [e]) e'
    rw [append_assoc, singleton_append, hlen] at hrest
    refine ⟨_, _, rfl, zzlGet_at hread, ?_, hrest⟩
    have h1 : 2 * la.length + 1 + 1 < 2 * (la.length + (lb.length + 1 + 1)) := by omega
    have h2 : 2 * la.length + 1 + 1 + 1 < 2 * (la.length + (lb.length + 1 + 1)) := by omega
    rw [zzlStep, if_neg Bool.false_ne_true, zzlNext, ziplistNext, zzlEntries_length, length_append, length_cons, length_cons, if_pos h1]
    dsimp only
    rw [ziplistNext, zzlEntries_length, length_append, length_cons, length_cons, if_pos h2]
    rfl

/-- **Through a ziplist, backward.** -/
theorem zzl_walks_back (hread : fmt.Reads) : ∀ {la lb : List (Member S)} {e : Member S},
    Walks (zzlStep true (zzlEntries fmt (la ++ e :: lb))) (zzlGet fmt (zzlEntries fmt (la ++ e :: lb))) (some (2 * la.length, 2 * la.length + 1))
      (e :: la.reverse) := by
  intro la
  induction la using List.reverseRecOn with
  | nil =>
    intro lb e
    exact ⟨_, none, rfl, zzlGet_at hread, rfl, rfl⟩
  | append_singleton la e' ih =>
    intro lb e
    have hlen : (la ++ [e']).length = la.length + 1 := by rw [length_append, length_singleton]
    have hrest := @ih (e :: lb) e'
    have hget : zzlGet fmt (zzlEntries fmt (la ++ [e'] ++ e :: lb)) (2 * (la ++ [e']).length, 2 * (la ++ [e']).length + 1) = some e := zzlGet_at hread
    rw [append_assoc, singleton_append, hlen] at hget
    rw [append_assoc, singleton_append, hlen, reverse_append]
    refine ⟨_, _, rfl, hget, ?_, hrest⟩
    have h1 : ¬ 2 * (la.length + 1) = 0 := by omega
    have h2 : ¬ 2 * (la.length + 1) - 1 = 0 := by omega
    have h3 : 2 * (la.length + 1) - 1 = 2 * la.length + 1 := by omega
    rw [zzlStep, if_pos rfl, zzlPrev, ziplistPrev, if_neg h1]
    dsimp only
    rfl

variable {maxLevel : ℕ} {z : Zskiplist S} {ids : List ℕ} {es : List (S × Robj)}

/-- **Through a skip list, forward.** -/
theorem zsl_walks : ∀ {eb ea : List (S × Robj)} {pre post : List ℕ}, Layout maxLevel z (pre ++ post) (ea ++ eb) → ea.length = pre.length →
    Walks (zslStep false z) (zslGet z) post.head? (eb.map memberOf) := by
  intro eb
  induction eb with
  | nil =>
    intro ea pre post h hea
    have hlen := h.es_length
    rw [append_nil, length_append, hea] at hlen
    rw [length_eq_zero_iff.1 (show post.length = 0 by omega)]
    rfl
  | cons e eb ih =>
    intro ea pre post h hea
    cases post with
    | nil =>
      have hlen := h.es_length
      rw [append_nil, length_append, length_cons] at hlen
      omega
    | cons x post =>
      have hsplit : pre ++ x :: post = (pre ++ [x]) ++ post := by rw [append_assoc]; rfl
      have hsplit' : ea ++ e :: eb = (ea ++ [e]) ++ eb := by rw [append_assoc]; rfl
      have hforward : ((z.node x).level 0).forward = post.head? := h.forward (a := 0 :: pre) rfl
      have hrest := ih (hsplit ▸ hsplit' ▸ h) (by rw [length_append, length_append, hea]; rfl)
      refine ⟨x, _, rfl, ?_, ?_, hrest⟩
      · rw [zslGet, h.elem_behind hea]
        rfl
      · rw [zslStep, if_neg Bool.false_ne_true, hforward]

/-- **Through a skip list, backward.** -/
theorem zsl_walks_back : ∀ {ea eb : List (S × Robj)} {pre post : List ℕ}, Layout maxLevel z (pre ++ post) (ea ++ eb) → ea.length = pre.length →
    Walks (zslStep true z) (zslGet z) pre.getLast? (ea.map memberOf).reverse := by
  intro ea
  induction ea using List.reverseRecOn with
  | nil =>
    intro eb pre post _ hea
    rw [length_eq_zero_iff.1 hea.symm]
    rfl
  | append_singleton ea e ih =>
    intro eb pre post h hea
    rcases eq_nil_or_concat pre with rfl | ⟨pre, x, rfl⟩
    · rw [length_append] at hea
      cases hea
    · rw [concat_eq_append] at h hea ⊢
      rw [length_append, length_append] at hea
      have hea : ea.length = pre.length := Nat.add_right_cancel hea
      rw [append_assoc, append_assoc, singleton_append, singleton_append] at h
      have hbackward : (z.node x).backward = pre.getLast? := by
        rcases eq_nil_or_concat pre with rfl | ⟨pre', w, rfl⟩
        · exact h.backward [] 0 x post rfl
        · rw [concat_eq_append] at h ⊢
          have hw : w ≠ 0 := h.ne_zero (mem_append_left _ (mem_append_right pre' mem_cons_self))
          have hb := h.backward (0 :: pre') w x post (by rw [append_assoc]; rfl)
          rwa [if_neg hw, ← List.getLast?_concat] at hb
      rw [map_append, reverse_append, List.getLast?_concat]
      refine ⟨x, _, rfl, ?_, ?_, ih h hea⟩
      · rw [zslGet, h.elem_behind hea]
        rfl
      · rw [zslStep, if_pos rfl, hbackward]

/-! ## Ranges of ranks -/

theorem directed_length (reverse : Bool) : (directed reverse l).length = l.length := by
  cases reverse with
  | true => exact length_reverse
  | false => rfl

variable {start stop : ℤ}

theorem ranked_none (h : sanitizeIndexes l.length start stop = none) :
    (l.take (fromEnd l.length stop + 1).toNat).drop (fromEnd l.length start).toNat = [] := by
  refine drop_eq_nil_of_le ?_
  rw [length_take]
  rcases sanitizeIndexes_none h with hle | hle
  · exact (min_le_left _ _).trans hle
  · exact (min_le_right _ _).trans hle

theorem ranked_some {i j : ℕ} (h : sanitizeIndexes l.length start stop = some (i, j)) :
    (l.take (fromEnd l.length stop + 1).toNat).drop (fromEnd l.length start).toNat = (l.drop i).take (j - i + 1) := by
  obtain ⟨hi, hij, hj, hstop⟩ := sanitizeIndexes_some h
  rw [← hi, drop_take]
  rcases hstop with hstop | ⟨hstop, hle⟩
  · congr 1
    omega
  · rw [take_of_length_le (by rw [length_drop]; omega), take_of_length_le (by rw [length_drop]; omega)]

theorem directed_split {i : ℕ} (reverse : Bool) (h : i < l.length) :
    ∃ la e lb, l = la ++ e :: lb ∧ la.length = (if reverse then l.length - 1 - i else i) ∧
      (directed reverse l).drop i = e :: if reverse then la.reverse else lb := by
  have hk : (if reverse then l.length - 1 - i else i) < l.length := by
    cases reverse with
    | true =>
      rw [if_pos rfl]
      omega
    | false => exact h
  obtain ⟨lm, e, lb, rfl, hlen⟩ : ∃ la e lb, l = la ++ e :: lb ∧ la.length = (if reverse then l.length - 1 - i else i) := by
    generalize (if reverse then l.length - 1 - i else i) = k at hk
    exact ⟨l.take k, l[k], l.drop (k + 1), by rw [← drop_eq_getElem_cons hk, take_append_drop], by rw [length_take]; omega⟩
  refine ⟨lm, e, lb, rfl, hlen, ?_⟩
  rw [length_append, length_cons] at hlen h
  cases reverse with
  | true =>
    rw [if_pos rfl] at hlen ⊢
    change (lm ++ e :: lb).reverse.drop i = _
    have hrev : (lm ++ e :: lb).reverse = lb.reverse ++ e :: lm.reverse := by
      rw [reverse_append, reverse_cons, append_assoc]
      rfl
    have hlb : i = lb.reverse.length := by
      rw [length_reverse]
      omega
    rw [hrev, hlb, drop_left]
  | false =>
    rw [if_neg Bool.false_ne_true] at hlen ⊢
    change (lm ++ e :: lb).drop i = _
    rw [← hlen, drop_left]

variable [LinearOrder S] {set : SortedSet S} {db : Option (Zobj S)}

/-- **`ZRANGE` and `ZREVRANGE`.** -/
theorem zrangeGenericCommand_spec (hread : fmt.Reads) (h : DbGood fmt db set) (reverse withscores : Bool) (start stop : ℤ) :
    zrangeGenericCommand fmt db reverse withscores start stop = some (set.query (.zrange reverse withscores start stop)) := by
  have hquery : set.query (.zrange reverse withscores start stop) = .multibulk ((((directed reverse set.elems).take
    (fromEnd set.elems.length stop + 1).toNat).drop (fromEnd set.elems.length start).toNat).map (bulk withscores)) := rfl
  rw [hquery]
  cases db with
  | none =>
    have hnil : directed reverse set.elems = [] := length_eq_zero_iff.1 (by rw [directed_length, h.absent rfl]; rfl)
    rw [hnil, take_nil, drop_nil]
    rfl
  | some z =>
    obtain ⟨hgood, -⟩ := h.present z rfl
    have hlen := zsetLength_spec hgood.holds
    have hdir : (directed reverse set.elems).length = set.elems.length := directed_length reverse
    rw [zrangeGenericCommand, hlen]
    cases hs : sanitizeIndexes set.elems.length start stop with
    | none =>
      rw [← hdir] at hs ⊢
      rw [ranked_none hs]
      rfl
    | some r =>
      obtain ⟨i, j⟩ := r
      obtain ⟨-, hij, hj, -⟩ := sanitizeIndexes_some hs
      obtain ⟨la, e, lb, hl, hla, hdrop⟩ := directed_split reverse (show i < set.elems.length by omega)
      have hranked : ((directed reverse set.elems).take (fromEnd set.elems.length stop + 1).toNat).drop (fromEnd set.elems.length start).toNat =
          (e :: if reverse then la.reverse else lb).take (j - i + 1) := by
        rw [← hdrop, ← hdir]
        exact ranked_some (hdir.symm ▸ hs)
      have hrange : j - i + 1 ≤ (e :: if reverse then la.reverse else lb).length := by
        rw [← hdrop, length_drop, hdir]
        omega
      have hn : set.elems.length = la.length + (lb.length + 1) := by rw [hl, length_append, length_cons]
      rw [hranked]
      cases z with
      | ziplist zl =>
        obtain rfl : zl = zzlEntries fmt set.elems := hgood.holds
        have hindex : ziplistIndex (zzlEntries fmt set.elems) (if reverse then -2 - 2 * (i : ℤ) else 2 * i) = some (2 * la.length) := by
          have hentries : (zzlEntries fmt set.elems).length = 2 * set.elems.length := zzlEntries_length fmt set.elems
          cases reverse with
          | true =>
            rw [if_pos rfl] at hla
            rw [if_pos rfl, ziplistIndex_back (by omega) (by omega), hentries]
            congr 1
            omega
          | false =>
            rw [if_neg Bool.false_ne_true] at hla
            rw [if_neg Bool.false_ne_true, ziplistIndex_front (by omega) (by omega)]
            congr 1
            omega
        have hwalk : Walks (zzlStep reverse (zzlEntries fmt set.elems)) (zzlGet fmt (zzlEntries fmt set.elems)) (some (2 * la.length, 2 * la.length + 1))
            (e :: if reverse then la.reverse else lb) := by
          rw [hl]
          cases reverse with
          | true => exact zzl_walks_back hread
          | false => exact zzl_walks hread
        have hpair : zzlPair (zzlEntries fmt set.elems) (2 * la.length) = some (2 * la.length, 2 * la.length + 1) := by rw [hl, zzlPair_at]
        dsimp only
        rw [hindex, bind_some, hpair, bind_some, rangeLoop_spec hwalk hrange]
        rfl
      | skiplist zs =>
        obtain ⟨ids, es, hok, hes⟩ := hgood.holds
        rw [hl] at hes
        obtain ⟨ea, r, rfl, rfl, hr⟩ := map_eq_append_iff.1 hes
        obtain ⟨e', eb, rfl, rfl, rfl⟩ := map_eq_cons_iff.1 hr
        obtain ⟨pre, rest, rfl, hpre⟩ := hok.layout.split
        have hlen' := hok.layout.es_length
        cases rest with
        | nil =>
          rw [append_nil, length_append, length_cons] at hlen'
          omega
        | cons x post =>
          have hpost : post.length = eb.length := by
            rw [length_append, length_append, length_cons, length_cons] at hlen'
            omega
          rw [length_map] at hla hn
          rw [length_map] at hn
          have hlength : zs.zsl.length = set.elems.length := hlen
          have hstart : (if reverse then (if 0 < i then zslGetElementByRank zs.zsl (zs.zsl.length - i) else some zs.zsl.tail)
              else if 0 < i then zslGetElementByRank zs.zsl (i + 1) else some ((zs.zsl.node 0).level 0).forward) = some (some x) := by
            cases reverse with
            | true =>
              rw [if_pos rfl] at hla ⊢
              by_cases hi : 0 < i
              · rw [if_pos hi, hlength, show set.elems.length - i = pre.length + 1 by omega]
                exact zslGetElementByRank_spec hok.layout
              · obtain rfl : post = [] := length_eq_zero_iff.1 (by omega)
                rw [if_neg hi, hok.layout.tail, List.getLast?_concat]
            | false =>
              rw [if_neg Bool.false_ne_true] at hla ⊢
              by_cases hi : 0 < i
              · rw [if_pos hi, show i + 1 = pre.length + 1 by omega]
                exact zslGetElementByRank_spec hok.layout
              · obtain rfl : pre = [] := length_eq_zero_iff.1 (by omega)
                have hforward : ((zs.zsl.node 0).level 0).forward = some x := hok.layout.forward (a := []) rfl
                rw [if_neg hi, hforward]
          have hwalk : Walks (zslStep reverse zs.zsl) (zslGet zs.zsl) (some x) (memberOf e' :: if reverse then (ea.map memberOf).reverse else eb.map memberOf) := by
            cases reverse with
            | true =>
              have hsplit : pre ++ x :: post = (pre ++ [x]) ++ post := by rw [append_assoc]; rfl
              have hsplit' : ea ++ e' :: eb = (ea ++ [e']) ++ eb := by rw [append_assoc]; rfl
              have hlayout := hok.layout
              rw [hsplit, hsplit'] at hlayout
              have hwalk := zsl_walks_back hlayout (by rw [length_append, length_append, hpre]; rfl)
              rwa [List.getLast?_concat, map_append, reverse_append] at hwalk
            | false => exact zsl_walks hok.layout hpre
          dsimp only
          rw [hstart, bind_some, rangeLoop_spec hwalk hrange]
          rfl

/-! ## Ranges of scores -/

variable {range : Zrangespec S} {below inside above : List (Member S)}

theorem RangeSplit.directed (h : RangeSplit range below inside above) (reverse : Bool) :
    (∀ e ∈ Redis.directed reverse inside, stillInside reverse range e.1 = true) ∧
      ∀ e ∈ (if reverse then below.reverse else above), stillInside reverse range e.1 = false := by
  cases reverse with
  | true => exact ⟨fun e he => (h.inside e (mem_reverse.1 he)).1, fun e he => h.below e (mem_reverse.1 he)⟩
  | false => exact ⟨fun e he => (h.inside e he).2, fun e he => (h.above e he).2⟩

theorem zrangebyscore_loops {p : P} (h : RangeSplit range below inside above) (reverse : Bool) (offset limit : ℤ) {fuel : ℕ}
    (hwalk : Walks next get (some p) (Redis.directed reverse inside ++ if reverse then below.reverse else above))
    (hfuel : (below ++ inside ++ above).length < fuel) :
    ((offsetLoop next fuel offset (some p)).bind fun p => limitLoop next get (stillInside reverse range) fuel limit p) =
      some (limited limit (skipped offset (Redis.directed reverse inside))) := by
  have hlen : (Redis.directed reverse inside ++ if reverse then below.reverse else above).length < fuel := by
    rw [length_append, length_append] at hfuel
    rw [length_append, directed_length]
    cases reverse with
    | true =>
      rw [if_pos rfl, length_reverse]
      omega
    | false =>
      rw [if_neg Bool.false_ne_true]
      omega
  obtain ⟨hin, hout⟩ := h.directed reverse
  obtain ⟨p', h1, h2⟩ := offsetLoop_spec hwalk hlen
  have hlen' : (skipped offset (Redis.directed reverse inside ++ if reverse then below.reverse else above)).length < fuel := by
    unfold skipped
    by_cases hneg : offset < 0
    · rw [if_pos hneg]
      exact Nat.zero_lt_of_lt hlen
    · rw [if_neg hneg, length_drop]
      omega
  rw [h1, bind_some, limitLoop_spec h2 hlen', takeWhile_skipped offset hin hout]

theorem directed_filter (h : RangeSplit range below inside above) (reverse : Bool) :
    (Redis.directed reverse (below ++ inside ++ above)).filter (inRange range) = Redis.directed reverse inside := by
  cases reverse with
  | true =>
    change (below ++ inside ++ above).reverse.filter (inRange range) = inside.reverse
    rw [filter_reverse, h.filter.1]
  | false => exact h.filter.1

omit [LinearOrder S] in
theorem directed_cons (reverse : Bool) (hl : l = below ++ inside ++ above) (hne : inside ≠ []) :
    ∃ la e lb, l = la ++ e :: lb ∧ (Redis.directed reverse inside ++ if reverse then below.reverse else above) = e :: (if reverse then la.reverse else lb) ∧
      la.length = (if reverse then below.length + inside.length - 1 else below.length) := by
  cases reverse with
  | true =>
    obtain ⟨li, e, rfl⟩ := (eq_nil_or_concat inside).resolve_left hne
    refine ⟨below ++ li, e, above, ?_, ?_, ?_⟩
    · rw [hl, concat_eq_append, append_assoc, append_assoc, append_assoc]
      rfl
    · change (li.concat e).reverse ++ below.reverse = e :: (below ++ li).reverse
      rw [concat_eq_append, reverse_append, reverse_append]
      rfl
    · rw [if_pos rfl, length_append, length_concat]
      rfl
  | false =>
    obtain ⟨e, li, rfl⟩ := exists_cons_of_ne_nil hne
    exact ⟨below, e, li ++ above, by rw [hl, append_assoc]; rfl, rfl, rfl⟩

theorem zsl_range {ids : List ℕ} {es : List (S × Robj)} (h : Layout maxLevel z ids es) (hsorted : InOrder es) (range : Zrangespec S) (reverse : Bool) :
    ∃ below inside above start, es.map memberOf = below ++ inside ++ above ∧ RangeSplit range below inside above ∧
      (if reverse then zslLastInRange z range else zslFirstInRange z range) = some start ∧ (start = none ↔ inside = []) ∧
      (inside ≠ [] → Walks (zslStep reverse z) (zslGet z) start (directed reverse inside ++ if reverse then below.reverse else above)) := by
  obtain ⟨ea, ei, eb, pre, mid, post, rfl, rfl, hsplit⟩ := nodes_split range h hsorted
  refine ⟨ea.map memberOf, ei.map memberOf, eb.map memberOf, if reverse then mid.getLast? else mid.head?, by rw [map_append, map_append],
    hsplit.split, ?_, ?_, fun hne => ?_⟩
  · cases reverse with
    | true => exact zslLastInRange_spec h hsplit
    | false => exact zslFirstInRange_spec h hsplit
  · have hnil : (ei.map memberOf = []) ↔ mid = [] := by
      rw [map_eq_nil_iff, ← length_eq_zero_iff, ← length_eq_zero_iff, hsplit.mid]
    rw [hnil]
    cases reverse with
    | true => exact List.getLast?_eq_none_iff
    | false => exact List.head?_eq_none_iff
  · have hmid : mid ≠ [] := by
      rintro rfl
      exact hne (map_eq_nil_iff.2 (length_eq_zero_iff.1 hsplit.mid))
    cases reverse with
    | true =>
      have hwalk := zsl_walks_back h (by rw [length_append, length_append, hsplit.pre, hsplit.mid])
      rw [map_append, reverse_append, List.getLast?_append_of_ne_nil _ hmid] at hwalk
      exact hwalk
    | false =>
      rw [append_assoc, append_assoc] at h
      have hwalk := zsl_walks h hsplit.pre
      rw [map_append, List.head?_append_of_ne_nil _ hmid] at hwalk
      exact hwalk

theorem zzl_range (hread : fmt.Reads) (range : Zrangespec S) (reverse : Bool) :
    ∃ below inside above eptr, set.elems = below ++ inside ++ above ∧ RangeSplit range below inside above ∧
      (if reverse then zzlLastInRange fmt (zzlEntries fmt set.elems) range else zzlFirstInRange fmt (zzlEntries fmt set.elems) range) = some eptr ∧
      (eptr = none ↔ inside = []) ∧ ∀ i, eptr = some i → ∃ p, zzlPair (zzlEntries fmt set.elems) i = some p ∧
        Walks (zzlStep reverse (zzlEntries fmt set.elems)) (zzlGet fmt (zzlEntries fmt set.elems)) (some p)
          (directed reverse inside ++ if reverse then below.reverse else above) := by
  obtain ⟨below, inside, above, hl, hsplit⟩ := range_split range set.sorted
  refine ⟨below, inside, above, if reverse then inside.getLast?.map fun _ => 2 * (below.length + inside.length - 1) else inside.head?.map fun _ => 2 * below.length,
    hl, hsplit, ?_, ?_, fun i hi => ?_⟩
  · rw [hl]
    cases reverse with
    | true => exact zzlLastInRange_spec hread hsplit
    | false => exact zzlFirstInRange_spec hread hsplit
  · cases reverse with
    | true => exact map_eq_none_iff.trans List.getLast?_eq_none_iff
    | false => exact map_eq_none_iff.trans List.head?_eq_none_iff
  · have hne : inside ≠ [] := by
      rintro rfl
      cases reverse <;> cases hi
    obtain ⟨la, e, lb, hl', hwalk, hla⟩ := directed_cons reverse hl hne
    have hptr : i = 2 * la.length := by
      rw [hla]
      cases reverse with
      | true =>
        obtain ⟨-, -, hi⟩ := map_eq_some_iff.1 hi
        exact hi.symm
      | false =>
        obtain ⟨-, -, hi⟩ := map_eq_some_iff.1 hi
        exact hi.symm
    refine ⟨(2 * la.length, 2 * la.length + 1), by rw [hptr, hl', zzlPair_at], ?_⟩
    rw [hwalk, hl']
    cases reverse with
    | true => exact zzl_walks_back hread
    | false => exact zzl_walks hread

/-- **`ZRANGEBYSCORE` and `ZREVRANGEBYSCORE`.** -/
theorem genericZrangebyscoreCommand_spec (hread : fmt.Reads) (h : DbGood fmt db set) (reverse withscores : Bool) (range : Zrangespec S)
    (offset limit : ℤ) : genericZrangebyscoreCommand fmt db reverse withscores range offset limit =
      some (set.query (.zrangebyscore reverse withscores range offset limit)) := by
  have hquery : set.query (.zrangebyscore reverse withscores range offset limit) = .multibulk ((limited limit (skipped offset
    ((directed reverse set.elems).filter (inRange range)))).map (bulk withscores)) := rfl
  rw [hquery]
  cases db with
  | none =>
    have hnil : directed reverse set.elems = [] := length_eq_zero_iff.1 (by rw [directed_length, h.absent rfl]; rfl)
    rw [hnil, filter_nil, skipped_nil, limited_nil]
    rfl
  | some z =>
    obtain ⟨hgood, -⟩ := h.present z rfl
    cases z with
    | ziplist zl =>
      obtain rfl : zl = zzlEntries fmt set.elems := hgood.holds
      obtain ⟨below, inside, above, eptr, hl, hsplit, hstart, hnone, hwalk⟩ := zzl_range hread range reverse
      have hfilter : (directed reverse set.elems).filter (inRange range) = directed reverse inside := by rw [hl, directed_filter hsplit]
      rw [genericZrangebyscoreCommand, hstart, bind_some, hfilter]
      cases eptr with
      | none =>
        have hnil : directed reverse inside = [] := length_eq_zero_iff.1 (by rw [directed_length, hnone.1 rfl]; rfl)
        rw [hnil, skipped_nil, limited_nil]
        rfl
      | some i =>
        obtain ⟨p, hp, hwalk⟩ := hwalk i rfl
        have hfuel : (below ++ inside ++ above).length < (zzlEntries fmt set.elems).length + 1 := by
          rw [zzlEntries_length, ← hl]
          omega
        have hloops := zrangebyscore_loops hsplit reverse offset limit hwalk hfuel
        obtain ⟨p', h1, h2⟩ := bind_eq_some_iff.1 hloops
        dsimp only
        rw [hp, bind_some, h1, bind_some, h2]
        rfl
    | skiplist zs =>
      obtain ⟨ids, es, hok, hes⟩ := hgood.holds
      obtain ⟨below, inside, above, start, hl, hsplit, hstart, hnone, hwalk⟩ := zsl_range hok.layout hok.sorted range reverse
      have hfilter : (directed reverse set.elems).filter (inRange range) = directed reverse inside := by rw [← hes, hl, directed_filter hsplit]
      rw [genericZrangebyscoreCommand, hstart, bind_some, hfilter]
      cases start with
      | none =>
        have hnil : directed reverse inside = [] := length_eq_zero_iff.1 (by rw [directed_length, hnone.1 rfl]; rfl)
        rw [hnil, skipped_nil, limited_nil]
        rfl
      | some x =>
        have hfuel : (below ++ inside ++ above).length < zs.zsl.length + 1 := by
          rw [hok.layout.length, hok.layout.es_length, ← hl, length_map]
          omega
        have hloops := zrangebyscore_loops hsplit reverse offset limit (hwalk fun hc => (by cases hnone.2 hc)) hfuel
        obtain ⟨p', h1, h2⟩ := bind_eq_some_iff.1 hloops
        dsimp only
        rw [h1, bind_some, h2]
        rfl

def SortedSet.NoNul (l : SortedSet S) : Prop := ∀ e ∈ l.elems, (0 : UInt8) ∉ e.2

theorem apart_noNul {s t : List UInt8} (hs : (0 : UInt8) ∉ s) (ht : (0 : UInt8) ∉ t) : Apart s t := ⟨not_clash ht, not_clash hs⟩

theorem zslGetRank_node {zs : Zset S} {pre post : List ℕ} {ea eb : List (S × Robj)} {e : S × Robj} {x : ℕ} {obj : Robj}
    (h : zs.Ok (pre ++ x :: post) (ea ++ e :: eb)) (hea : ea.length = pre.length) (hl : (ea ++ e :: eb).map memberOf = set.elems) (hnul : set.NoNul)
    (hobj : getDecodedObject e.2 = getDecodedObject obj) : zslGetRank zs.zsl e.1 obj = some (pre.length + 1) := by
  have hmem : ∀ a ∈ ea ++ e :: eb, (0 : UInt8) ∉ getDecodedObject a.2 := fun a ha => hnul _ (mem_nodes hl ha)
  have hself : (0 : UInt8) ∉ getDecodedObject obj := hobj ▸ hmem e (mem_append_right ea mem_cons_self)
  refine zslGetRank_spec h.layout hea h.sorted hobj (fun a ha hc => ?_) fun a ha => apart_noNul (hmem a ha) hself
  have hdistinct := h.distinct
  rw [map_append, map_cons, nodup_append] at hdistinct
  exact hdistinct.2.2 _ (List.mem_map_of_mem ha) _ mem_cons_self (hc.trans hobj.symm)

/-- **`ZCOUNT`.** -/
theorem zcountCommand_spec (hread : fmt.Reads) (h : DbGood fmt db set) (hnul : set.NoNul) (range : Zrangespec S) :
    zcountCommand fmt db range = some (set.query (.zcount range)) := by
  have hquery : set.query (.zcount range) = .number (set.elems.filter (inRange range)).length := rfl
  rw [hquery]
  cases db with
  | none =>
    rw [h.absent rfl]
    rfl
  | some z =>
    obtain ⟨hgood, -⟩ := h.present z rfl
    cases z with
    | ziplist zl =>
      obtain rfl : zl = zzlEntries fmt set.elems := hgood.holds
      obtain ⟨below, inside, above, eptr, hl, hsplit, hstart, hnone, hwalk⟩ := zzl_range hread range false
      rw [if_neg Bool.false_ne_true] at hstart
      have hfilter : set.elems.filter (inRange range) = inside := by rw [hl, hsplit.filter.1]
      rw [zcountCommand, hstart, bind_some, hfilter]
      cases eptr with
      | none =>
        rw [hnone.1 rfl]
        rfl
      | some i =>
        obtain ⟨p, hp, hwalk⟩ := hwalk i rfl
        obtain ⟨e, li, rfl⟩ := exists_cons_of_ne_nil fun hc => (by cases hnone.2 hc : False)
        obtain ⟨x, y, hx, hget, -, -⟩ := id hwalk
        obtain rfl := Option.some.inj hx
        have hlen : (e :: li ++ above).length < (zzlEntries fmt set.elems).length + 1 := by
          rw [zzlEntries_length, hl, length_append, length_append, length_append]
          omega
        have hloop : limitLoop (zzlStep false (zzlEntries fmt set.elems)) (zzlGet fmt (zzlEntries fmt set.elems)) (fun s => zslValueLteMax s range)
            ((zzlEntries fmt set.elems).length + 1) (-1) (some p) = some (limited (-1) ((e :: li ++ above).takeWhile fun a => zslValueLteMax a.1 range)) :=
          limitLoop_spec hwalk hlen
        have htake := takeWhile_skipped (p := fun a : Member S => zslValueLteMax a.1 range) 0 (fun a ha => (hsplit.inside a ha).2) fun a ha => (hsplit.above a ha).2
        have hzero : ∀ l : List (Member S), skipped 0 l = l := fun l => rfl
        rw [hzero, hzero] at htake
        dsimp only
        rw [hp, bind_some, hget, bind_some, (hsplit.inside e mem_cons_self).2, if_pos rfl, hloop, htake]
        rfl
    | skiplist zs =>
      obtain ⟨ids, es, hok, hes⟩ := hgood.holds
      obtain ⟨ea, ei, eb, pre, mid, post, rfl, rfl, hsplit⟩ := nodes_split range hok.layout hok.sorted
      have hfilter : set.elems.filter (inRange range) = ei.map memberOf := by rw [← hes, map_append, map_append, hsplit.split.filter.1]
      rw [zcountCommand, zslFirstInRange_spec hok.layout hsplit, bind_some, hfilter, length_map, hsplit.mid]
      cases mid with
      | nil => rfl
      | cons x mid =>
        have hmid := hsplit.mid
        obtain ⟨e, li, rfl⟩ := exists_cons_of_length_pos (l := ei) (by rw [hmid, length_cons]; omega)
        -- the rank of the first one
        have hids : pre ++ x :: mid ++ post = pre ++ x :: (mid ++ post) := by rw [append_assoc]; rfl
        have hes' : ea ++ e :: li ++ eb = ea ++ e :: (li ++ eb) := by rw [append_assoc]; rfl
        have hrank : zslNodeRank zs.zsl x = some (pre.length + 1) := by
          have hok' := hok
          have hes'' := hes
          rw [hids, hes'] at hok'
          rw [hes'] at hes''
          rw [zslNodeRank, hok'.layout.elem_behind hsplit.pre, bind_some, zslGetRank_node hok' hsplit.pre hes'' hnul rfl]
        -- the rank of the last one
        obtain ⟨mid', y, hy⟩ := (eq_nil_or_concat (x :: mid)).resolve_left (cons_ne_nil x mid)
        obtain ⟨li', e', he'⟩ := (eq_nil_or_concat (e :: li)).resolve_left (cons_ne_nil e li)
        rw [concat_eq_append] at hy he'
        have hlen : li'.length = mid'.length := by
          rw [hy, he', length_append, length_append] at hmid
          exact Nat.add_right_cancel hmid
        have hrank' : zslNodeRank zs.zsl y = some (pre.length + (x :: mid).length) := by
          have hids' : pre ++ x :: mid ++ post = (pre ++ mid') ++ y :: post := by rw [hy, ← append_assoc, append_assoc _ [y]]; rfl
          have hes'' : ea ++ e :: li ++ eb = (ea ++ li') ++ e' :: eb := by rw [he', ← append_assoc, append_assoc _ [e']]; rfl
          have hok' := hok
          have hmap := hes
          rw [hids', hes''] at hok'
          rw [hes''] at hmap
          have hea : (ea ++ li').length = (pre ++ mid').length := by rw [length_append, length_append, hsplit.pre, hlen]
          rw [zslNodeRank, hok'.layout.elem_behind hea, bind_some, zslGetRank_node hok' hea hmap hnul rfl, hy, length_append,
            length_append, length_singleton, Nat.add_assoc]
        have hlast : zslLastInRange zs.zsl range = some (some y) := by
          rw [zslLastInRange_spec hok.layout hsplit, hy, List.getLast?_append, List.getLast?_singleton, some_or]
        rw [List.head?_cons]
        dsimp only
        rw [hrank, bind_some, hlast, bind_some]
        dsimp only
        rw [hrank', map_some]
        congr 2
        push_cast
        omega

/-! ## Single members -/

omit [LinearOrder S] in
theorem zrankLoop_spec {m : List UInt8} (hla : m ∉ la.map Prod.snd) : ∀ rank,
    zrankLoop m rank (zzlEntries fmt la ++ zzlEntries fmt lb) = zrankLoop m (rank + la.length) (zzlEntries fmt lb) := by
  induction la with
  | nil =>
    intro rank
    rfl
  | cons a la ih =>
    intro rank
    obtain ⟨hne, hmem⟩ := not_or.1 (fun h => hla (mem_cons.2 h))
    have hno : ziplistCompare (zipEntry a.2) m = false := by
      rw [Bool.eq_false_iff, ne_eq, ziplistCompare_iff]
      exact fun h => hne h.symm
    rw [zzlEntries, cons_append, cons_append, zrankLoop, hno, if_neg Bool.false_ne_true, ih hmem, length_cons]
    congr 1
    omega

/-- **`ZRANK` and `ZREVRANK`.** -/
theorem zrankGenericCommand_spec (h : DbGood fmt db set) (hnul : set.NoNul) (reverse : Bool) (ele : ZArg) :
    zrankGenericCommand db reverse ele = some (set.query (.zrank reverse ele)) := by
  have hdec : getDecodedObject (tryObjectEncoding ele.shared (.raw ele.bytes)) = ele.bytes := tryObjectEncoding_decoded ele.shared (.raw ele.bytes)
  -- the reply for a member at a place
  have hreply : ∀ {la lb : List (Member S)} {s : S}, set.elems = la ++ (s, ele.bytes) :: lb →
      set.query (.zrank reverse ele) = rankReply reverse set.elems.length (la.length + 1) := by
    intro la lb s hl
    have hrank : set.rank ele.bytes = some la.length := SortedSet.rank_mem hl
    rw [SortedSet.query, hrank, rankReply]
    dsimp only
    congr 1
    cases reverse with
    | true =>
      rw [if_pos rfl, if_pos rfl]
      omega
    | false =>
      rw [if_neg Bool.false_ne_true, if_neg Bool.false_ne_true]
      omega
  have hnone : ele.bytes ∉ set.elems.map Prod.snd → set.query (.zrank reverse ele) = .nullbulk := by
    intro hnew
    rw [SortedSet.query, SortedSet.rank_none hnew]
  cases db with
  | none =>
    rw [hnone (by rw [h.absent rfl]; exact not_mem_nil)]
    rfl
  | some z =>
    obtain ⟨hgood, hne⟩ := h.present z rfl
    have hlen := zsetLength_spec hgood.holds
    cases z with
    | ziplist zl =>
      obtain rfl : zl = zzlEntries fmt set.elems := hgood.holds
      obtain ⟨a, rest, hcons⟩ := exists_cons_of_ne_nil hne
      have hcommand : zrankGenericCommand (some (.ziplist (zzlEntries fmt set.elems))) reverse ele =
          (zrankLoop ele.bytes 1 (zzlEntries fmt set.elems)).map fun rank => rank.elim (.nullbulk : ZReply S) (rankReply reverse (zzlLength (zzlEntries fmt set.elems))) := by
        rw [hcons]
        rfl
      rw [hcommand, zzlLength_entries]
      rcases set.mem_or_split ele.bytes with hnew | ⟨la, s, lb, hl⟩
      · have hloop : zrankLoop ele.bytes 1 (zzlEntries fmt set.elems ++ zzlEntries fmt []) = some none := zrankLoop_spec hnew 1
        rw [zzlEntries, append_nil] at hloop
        rw [hloop, hnone hnew]
        rfl
      · have hla : ele.bytes ∉ la.map Prod.snd := fun hmem => SortedSet.not_mem_others hl (by
          rw [map_append]
          exact mem_append_left _ hmem)
        have hloop : zrankLoop ele.bytes 1 (zzlEntries fmt set.elems) = some (some (la.length + 1)) := by
          rw [hl, zzlEntries_append, zrankLoop_spec hla, zzlEntries, zrankLoop, ziplistCompare_iff.2 rfl, if_pos rfl, Nat.add_comm]
        rw [hloop, hreply hl]
        rfl
    | skiplist zs =>
      obtain ⟨ids, es, hok, hes⟩ := hgood.holds
      rw [zrankGenericCommand]
      rcases set.mem_or_split ele.bytes with hnew | ⟨la, s, lb, hl⟩
      · rw [hok.find_none (not_mem_nodes hes (hdec.symm ▸ hnew)), hnone hnew]
      · obtain ⟨pre, x, post, ea, e, eb, rfl, rfl, hea, he, -⟩ := member_node hok hes hl
        have hobj : getDecodedObject e.2 = getDecodedObject (tryObjectEncoding ele.shared (.raw ele.bytes)) := by
          rw [hdec]
          exact congrArg (fun p : Member S => p.2) he
        have hplace : la.length = pre.length := by
          have hrank : set.rank ele.bytes = some la.length := SortedSet.rank_mem hl
          have hrank' : set.rank (memberOf e).2 = some (ea.map memberOf).length :=
            SortedSet.rank_mem (by rw [← hes, map_append, map_cons])
          rw [he, hrank, length_map, hea] at hrank'
          exact Option.some.inj hrank'
        rw [hok.find hea hobj.symm]
        dsimp only
        rw [hok.layout.elem_behind hea, bind_some, zslGetRank_node hok hea hes hnul hobj, bind_some, if_neg (Nat.succ_ne_zero _), hreply hl,
          hplace]
        rw [zsetLength] at hlen
        rw [hlen]

/-- **`ZSCORE`.** -/
theorem zscoreCommand_spec (hread : fmt.Reads) (h : DbGood fmt db set) (ele : ZArg) : zscoreCommand fmt db ele = some (set.query (.zscore ele)) := by
  have hdec : getDecodedObject (tryObjectEncoding ele.shared (.raw ele.bytes)) = ele.bytes := tryObjectEncoding_decoded ele.shared (.raw ele.bytes)
  have hquery : set.query (.zscore ele) = (set.score ele.bytes).elim .nullbulk .double := rfl
  rw [hquery]
  cases db with
  | none =>
    rw [SortedSet.score_none (by rw [h.absent rfl]; exact not_mem_nil)]
    rfl
  | some z =>
    obtain ⟨hgood, -⟩ := h.present z rfl
    cases z with
    | ziplist zl =>
      obtain rfl : zl = zzlEntries fmt set.elems := hgood.holds
      rw [zscoreCommand]
      rcases set.mem_or_split ele.bytes with hnew | ⟨la, s, lb, hl⟩
      · rw [zzlFind_not_mem hnew, SortedSet.score_none hnew]
        rfl
      · have hscore : set.score ele.bytes = some s := SortedSet.score_mem hl
        have hla : ele.bytes ∉ la.map Prod.snd := fun hmem => SortedSet.not_mem_others hl (by
          rw [map_append]
          exact mem_append_left _ hmem)
        have hfind : zzlFind fmt (zzlEntries fmt set.elems) ele.bytes = some (some (2 * la.length, s)) := by
          rw [hl]
          exact zzlFind_mem (e := (s, ele.bytes)) hread hla
        rw [hfind, hscore]
        rfl
    | skiplist zs =>
      obtain ⟨ids, es, hok, hes⟩ := hgood.holds
      rw [zscoreCommand]
      rcases set.mem_or_split ele.bytes with hnew | ⟨la, s, lb, hl⟩
      · rw [hok.find_none (not_mem_nodes hes (hdec.symm ▸ hnew)), SortedSet.score_none hnew]
        rfl
      · have hscore : set.score ele.bytes = some s := SortedSet.score_mem hl
        obtain ⟨pre, x, post, ea, e, eb, rfl, rfl, hea, he, -⟩ := member_node hok hes hl
        have hobj : getDecodedObject (tryObjectEncoding ele.shared (.raw ele.bytes)) = getDecodedObject e.2 := by
          rw [hdec]
          exact (congrArg (fun p : Member S => p.2) he).symm
        have hcur : e.1 = s := congrArg (fun p : Member S => p.1) he
        rw [hok.find hea hobj, hscore]
        dsimp only
        rw [hok.layout.elem_behind hea, map_some, hcur]
        rfl

/-- **`ZCARD`.** -/
theorem zcardCommand_spec (h : DbGood fmt db set) : zcardCommand db = set.query .zcard := by
  have hquery : set.query .zcard = .number set.elems.length := rfl
  rw [hquery, zcardCommand]
  cases db with
  | none =>
    rw [h.absent rfl]
    rfl
  | some z =>
    rw [elim_some, zsetLength_spec (h.present z rfl).1.holds]

theorem zsetQuery_spec (hread : fmt.Reads) (h : DbGood fmt db set) (hnul : set.NoNul) (q : ZQuery S) : zsetQuery fmt db q = some (set.query q) := by
  cases q with
  | zrange reverse withscores start stop => exact zrangeGenericCommand_spec hread h reverse withscores start stop
  | zrangebyscore reverse withscores range offset limit => exact genericZrangebyscoreCommand_spec hread h reverse withscores range offset limit
  | zcount range => exact zcountCommand_spec hread h hnul range
  | zrank reverse member => exact zrankGenericCommand_spec h hnul reverse member
  | zscore member => exact zscoreCommand_spec hread h member
  | zcard => exact congrArg some (zcardCommand_spec h)

end KVStores.Redis
