import KVStores.LevelDb.DbIterScan

/-!
# The iterator is a cursor
-/

namespace KVStores.LevelDb

open List Option

variable {K V : Type} [LinearOrder K] {s : ℕ}

namespace DbIter

/-! ## The loops -/

def skipKey (skipping : Bool) (skip : Option K) : Option K := if skipping then skip else none

theorem inspect_spec (s : ℕ) (e : Entry K V) (skipping : Bool) (skip : Option K) (status : Status) :
    (Shown s (skipKey skipping skip) e ∧ inspect s e skipping skip status = none) ∨
    (¬Shown s (skipKey skipping skip) e ∧ ∃ skipping' skip' status', inspect s e skipping skip status = some (skipping', skip', status') ∧
      skipKey skipping' skip' = advance s (skipKey skipping skip) e) := by
  by_cases hseen : Seen s e
  · rcases seen_cases hseen with ht | ht
    · have hany : (skipping = true ∧ skip.any (e.key.userKey ≤ ·) = true) ↔ skipped (skipKey skipping skip) e := by
        cases skipping <;> cases skip <;> simp [skipKey, skipped]
      by_cases hsk : skipped (skipKey skipping skip) e
      · have hns : ¬Shown s (skipKey skipping skip) e := fun h => h.2.2 hsk
        refine Or.inr ⟨hns, skipping, skip, status, ?_, ?_⟩
        · unfold inspect
          rw [ht]
          dsimp only
          rw [if_pos hseen.2, if_pos (hany.2 hsk)]
        · unfold advance
          rw [if_neg]
          rintro (h | ⟨h, -⟩)
          · exact hns h
          · rw [ht] at h
            cases h
      · refine Or.inl ⟨⟨ht, hseen.2, hsk⟩, ?_⟩
        unfold inspect
        rw [ht]
        dsimp only
        rw [if_pos hseen.2, if_neg (fun h => hsk (hany.1 h))]
    · have hns : ¬Shown s (skipKey skipping skip) e := by
        intro h
        rw [h.1] at ht
        cases ht
      refine Or.inr ⟨hns, true, some e.key.userKey, status, ?_, ?_⟩
      · unfold inspect
        rw [ht]
        dsimp only
        rw [if_pos hseen.2]
      · unfold advance
        rw [if_pos (Or.inr ⟨ht, hseen.2⟩)]
        rfl
  · refine Or.inr ⟨not_shown_unseen hseen, skipping, skip, ?_⟩
    rw [advance_unseen hseen]
    unfold inspect
    cases ht : e.key.type? with
    | none => exact ⟨_, rfl, rfl⟩
    | some t =>
      dsimp only
      rw [if_neg (fun h => hseen ⟨by rw [ht]; exact some_ne_none _, h⟩)]
      exact ⟨_, rfl, rfl⟩

/-- `FindNextUserEntry` stops where a scan stops first. -/
theorem findNext_spec : ∀ (after before : List (Entry K V)) (e : Entry K V) (skipping : Bool) (skip : Option K) (status : Status),
    ((findNext s before e after skipping skip status).1 = none ∧ scan s (skipKey skipping skip) (e :: after) = []) ∨
    ∃ b x a xs, (findNext s before e after skipping skip status).1 = some (b, x, a) ∧
      b.reverse ++ x :: a = before.reverse ++ e :: after ∧ scan s (skipKey skipping skip) (e :: after) = x :: xs := by
  intro after
  induction after with
  | nil =>
    intro before e skipping skip status
    rw [findNext, scan]
    rcases inspect_spec s e skipping skip status with ⟨hs, hi⟩ | ⟨hs, sk', k', st', hi, -⟩
    · rw [hi, if_pos hs]
      exact Or.inr ⟨before, e, [], _, rfl, rfl, rfl⟩
    · rw [hi, if_neg hs]
      exact Or.inl ⟨rfl, rfl⟩
  | cons e' after ih =>
    intro before e skipping skip status
    rw [findNext, scan]
    rcases inspect_spec s e skipping skip status with ⟨hs, hi⟩ | ⟨hs, sk', k', st', hi, hadv⟩
    · rw [hi, if_pos hs]
      exact Or.inr ⟨before, e, e' :: after, _, rfl, rfl, rfl⟩
    · rw [hi, if_neg hs, nil_append, ← hadv]
      rcases ih (e :: before) e' sk' k' st' with ⟨h1, h2⟩ | ⟨b, x, a, xs, h1, h2, h3⟩
      · exact Or.inl ⟨h1, h2⟩
      · refine Or.inr ⟨b, x, a, xs, h1, ?_, h3⟩
        rw [h2, reverse_cons, append_assoc, singleton_append]

/-- What `FindPrevUserEntry` has found so far. -/
def Found (p : PrevState K V) (found : Option (Entry K V)) : Prop :=
  match found with
  | none => p.valueType = .deletion
  | some c => p.valueType = .value ∧ p.savedKey = some c.key.userKey ∧ p.savedValue = some c.value

/-- What was found behind an entry, and what is found with it: a value or a deletion of the same key takes its place. -/
def foundWith (s : ℕ) (e : Entry K V) (found : Option (Entry K V)) : Option (Entry K V) :=
  if Seen s e then if e.key.type? = some .value then some e else none else found

variable {e : Entry K V} {p : PrevState K V} {found : Option (Entry K V)}

theorem look_spec (hf : Found p found) (hle : ∀ c, found = some c → e.key.userKey ≤ c.key.userKey) :
    (look s e p = none ∧ Seen s e ∧ ∃ c, found = some c ∧ e.key.userKey < c.key.userKey) ∨
    ∃ p', look s e p = some p' ∧ Found p' (foundWith s e found) ∧ (Seen s e → ∀ c, found = some c → c.key.userKey = e.key.userKey) := by
  by_cases hseen : Seen s e
  · have hbreak : (p.valueType ≠ .deletion ∧ p.savedKey.any (e.key.userKey < ·) = true) ↔
        ∃ c, found = some c ∧ e.key.userKey < c.key.userKey := by
      cases found with
      | none =>
        have hp : p.valueType = .deletion := hf
        simp [hp]
      | some c =>
        obtain ⟨hv, hk, -⟩ := hf
        simp [hv, hk]
    by_cases hb : ∃ c, found = some c ∧ e.key.userKey < c.key.userKey
    · refine Or.inl ⟨?_, hseen, hb⟩
      unfold look
      rcases seen_cases hseen with ht | ht
      · rw [ht]
        dsimp only
        rw [if_pos hseen.2, if_pos (hbreak.2 hb)]
      · rw [ht]
        dsimp only
        rw [if_pos hseen.2, if_pos (hbreak.2 hb)]
    · have hsame : ∀ c, found = some c → c.key.userKey = e.key.userKey := fun c hc =>
        le_antisymm (not_lt.1 fun hlt => hb ⟨c, hc, hlt⟩) (hle c hc)
      refine Or.inr ?_
      unfold look foundWith
      rw [if_pos hseen]
      rcases seen_cases hseen with ht | ht
      · rw [ht, if_pos rfl]
        dsimp only
        rw [if_pos hseen.2, if_neg (fun h => hb (hbreak.1 h))]
        exact ⟨_, rfl, ⟨rfl, rfl, rfl⟩, fun _ => hsame⟩
      · rw [ht, if_neg (by simp)]
        dsimp only
        rw [if_pos hseen.2, if_neg (fun h => hb (hbreak.1 h))]
        exact ⟨_, rfl, rfl, fun _ => hsame⟩
  · refine Or.inr ?_
    unfold look foundWith
    rw [if_neg hseen]
    cases ht : e.key.type? with
    | none =>
      refine ⟨_, rfl, ?_, fun h => absurd h hseen⟩
      cases found with
      | none => exact hf
      | some c => exact hf
    | some t =>
      dsimp only
      rw [if_neg (fun h => hseen ⟨by rw [ht]; exact some_ne_none _, h⟩)]
      exact ⟨p, rfl, hf, fun h => absurd h hseen⟩

theorem scan_foundWith (before : List (Entry K V)) (hsame : Seen s e → ∀ c, found = some c → c.key.userKey = e.key.userKey) :
    scan s none (before ++ e :: found.toList) = scan s none (before ++ (foundWith s e found).toList) := by
  rw [scan_append, scan_append]
  congr 1
  generalize before.foldl (advance s) none = skip
  unfold foundWith
  by_cases hseen : Seen s e
  · rw [if_pos hseen, scan]
    -- whatever is found behind the entry is skipped then
    have hrest : ∀ skip' : Option K, (∀ c, found = some c → skipped skip' c) → scan s skip' found.toList = [] := by
      intro skip' h
      cases found with
      | none => rfl
      | some c =>
        rw [toList_some, scan, if_neg (fun hs => hs.2.2 (h c rfl)), scan, append_nil]
    have hskip : ∀ c, found = some c → skipped (advance s skip e) c := by
      intro c hc
      have hk := hsame hseen c hc
      unfold advance
      by_cases h : Shown s skip e ∨ e.key.type? = some .deletion ∧ e.key.sequence ≤ s
      · rw [if_pos h]
        exact ⟨_, rfl, le_of_eq hk⟩
      · rw [if_neg h]
        have hval : e.key.type? = some .value := by
          rcases seen_cases hseen with ht | ht
          · exact ht
          · exact absurd (Or.inr ⟨ht, hseen.2⟩) h
        have hsk : skipped skip e := by
          by_contra hns
          exact h (Or.inl ⟨hval, hseen.2, hns⟩)
        obtain ⟨k, hk', hle⟩ := hsk
        exact ⟨k, hk', by rw [hk]; exact hle⟩
    rw [hrest _ hskip, append_nil]
    by_cases ht : e.key.type? = some .value
    · rw [if_pos ht, toList_some, scan, scan, append_nil]
    · rw [if_neg ht, if_neg (fun h => ht h.1)]
      rfl
  · rw [if_neg hseen, scan, if_neg (not_shown_unseen hseen), advance_unseen hseen, nil_append]

omit [LinearOrder K] in
theorem foundWith_value (hval : ∀ c, found = some c → Seen s c ∧ c.key.type? = some .value) :
    ∀ c, foundWith s e found = some c → Seen s c ∧ c.key.type? = some .value := by
  intro c hc
  unfold foundWith at hc
  by_cases hseen : Seen s e
  · rw [if_pos hseen] at hc
    by_cases ht : e.key.type? = some .value
    · rw [if_pos ht] at hc
      obtain rfl := Option.some.inj hc
      exact ⟨hseen, ht⟩
    · rw [if_neg ht] at hc
      cases hc
  · rw [if_neg hseen] at hc
    exact hval c hc

omit [LinearOrder K] in
theorem foundWith_sublist (e : Entry K V) (found : Option (Entry K V)) : (foundWith s e found).toList.Sublist (e :: found.toList) := by
  unfold foundWith
  by_cases hseen : Seen s e
  · rw [if_pos hseen]
    by_cases ht : e.key.type? = some .value
    · rw [if_pos ht]
      exact cons_sublist_cons.2 (nil_sublist _)
    · rw [if_neg ht]
      exact nil_sublist _
  · rw [if_neg hseen]
    exact sublist_cons_self _ _

variable {c : Entry K V}

omit [LinearOrder K] in
theorem mem_foundWith (hseen : Seen s e) (h : c ∈ (foundWith s e found).toList) : c = e := by
  unfold foundWith at h
  rw [if_pos hseen] at h
  by_cases ht : e.key.type? = some .value
  · rw [if_pos ht] at h
    exact mem_singleton.1 h
  · rw [if_neg ht] at h
    cases h

theorem scan_value (h : Seen s c ∧ c.key.type? = some .value) : scan s none [c] = [c] := by
  have hshown : Shown s none c := ⟨h.2, h.1.2, by rintro ⟨k, hk, -⟩; cases hk⟩
  rw [scan, if_pos hshown, scan, append_nil]

theorem findPrev_break (before after : List (Entry K V)) (hf : Found p (some c))
    (hlt : e.key.userKey < c.key.userKey) (hval : ∀ c', some c = some c' → Seen s c' ∧ c'.key.type? = some .value)
    (hbefore : ∀ a ∈ before.reverse, a.key.userKey ≤ e.key.userKey) :
    Found p (scan s none (before.reverse ++ e :: (some c).toList)).getLast? ∧
    ∀ y, (scan s none (before.reverse ++ e :: (some c).toList)).getLast? = some y → ∃ x z, before.reverse ++ [e] = x ++ z ∧
      some (before, e, after) = Cursor.ofListsBack x.reverse (z ++ after) ∧
      (∀ a ∈ x, a.key.userKey < y.key.userKey) ∧ ∀ a ∈ z, a.key.userKey < y.key.userKey → ¬Seen s a := by
  have hx : ∀ a ∈ before.reverse ++ [e], a.key.userKey < c.key.userKey := by
    intro a ha
    rcases mem_append.1 ha with ha | ha
    · exact lt_of_le_of_lt (hbefore a ha) hlt
    · rwa [mem_singleton.1 ha]
  have hlast : (scan s none (before.reverse ++ e :: (some c).toList)).getLast? = some c := by
    have hlist : before.reverse ++ e :: (some c).toList = (before.reverse ++ [e]) ++ [c] := by
      rw [append_assoc, singleton_append, toList_some]
    rw [hlist, scan_cut hx fun a ha => by rw [mem_singleton.1 ha], scan_value (hval c rfl), List.getLast?_append,
      List.getLast?_singleton, some_or]
  rw [hlast]
  refine ⟨hf, fun y hy => ?_⟩
  obtain rfl := Option.some.inj hy
  refine ⟨before.reverse ++ [e], [], (append_nil _).symm, ?_, hx, fun a ha => (not_mem_nil ha).elim⟩
  rw [reverse_append, reverse_reverse]
  rfl

/-- The loop of `FindPrevUserEntry` finds the last entry that a scan of the entries up to here shows. It stops at an
entry that counts and has a smaller key, or in front of all entries. -/
theorem findPrev_spec : ∀ (before : List (Entry K V)) (e : Entry K V) (after : List (Entry K V)) (p : PrevState K V)
    (found : Option (Entry K V)), Found p found →
    (before.reverse ++ e :: found.toList).Pairwise (fun a b => a.key.userKey ≤ b.key.userKey) →
    (∀ c, found = some c → Seen s c ∧ c.key.type? = some .value) →
    Found (findPrev s before e after p).2 (scan s none (before.reverse ++ e :: found.toList)).getLast? ∧
    ∀ y, (scan s none (before.reverse ++ e :: found.toList)).getLast? = some y → ∃ x z, before.reverse ++ [e] = x ++ z ∧
      (findPrev s before e after p).1 = Cursor.ofListsBack x.reverse (z ++ after) ∧
      (∀ a ∈ x, a.key.userKey < y.key.userKey) ∧ ∀ a ∈ z, a.key.userKey < y.key.userKey → ¬Seen s a := by
  intro before
  induction before with
  | nil =>
    intro e after p found hf hsort hval
    have hle : ∀ c, found = some c → e.key.userKey ≤ c.key.userKey := fun c hc =>
      (pairwise_cons.1 hsort).1 c (by rw [hc]; exact mem_singleton_self c)
    rw [findPrev]
    rcases look_spec hf hle with ⟨hl, hseen, c, rfl, hlt⟩ | ⟨p', hl, hf', hsame⟩
    · rw [hl]
      exact findPrev_break [] after hf hlt hval fun a ha => (not_mem_nil ha).elim
    · rw [hl]
      have hscan : scan s none ([].reverse ++ e :: found.toList) = (foundWith s e found).toList := by
        rw [reverse_nil, scan_foundWith [] hsame, nil_append]
        cases hfw : foundWith s e found with
        | none => rfl
        | some c => exact scan_value (foundWith_value hval c hfw)
      rw [hscan]
      refine ⟨?_, fun y hy => ⟨[], [e], rfl, rfl, fun a ha => (not_mem_nil ha).elim, fun a ha hlt hseen => ?_⟩⟩
      · cases hfw : foundWith s e found with
        | none => rwa [hfw] at hf'
        | some c => rwa [hfw] at hf'
      · obtain rfl := mem_singleton.1 ha
        have hya := mem_foundWith hseen (mem_of_getLast? hy)
        rw [hya] at hlt
        exact lt_irrefl _ hlt
  | cons e' before ih =>
    intro e after p found hf hsort hval
    have hle : ∀ c, found = some c → e.key.userKey ≤ c.key.userKey := fun c hc =>
      (pairwise_cons.1 (pairwise_append.1 hsort).2.1).1 c (by rw [hc]; exact mem_singleton_self c)
    have hbefore : ∀ a ∈ (e' :: before).reverse, a.key.userKey ≤ e.key.userKey := fun a ha =>
      (pairwise_append.1 hsort).2.2 a ha e mem_cons_self
    rw [findPrev]
    rcases look_spec hf hle with ⟨hl, hseen, c, rfl, hlt⟩ | ⟨p', hl, hf', hsame⟩
    · rw [hl]
      exact findPrev_break (e' :: before) after hf hlt hval hbefore
    · rw [hl]
      dsimp only
      have hlist : (e' :: before).reverse ++ (foundWith s e found).toList = before.reverse ++ e' :: (foundWith s e found).toList := by
        rw [reverse_cons, append_assoc, singleton_append]
      have hsort' : (before.reverse ++ e' :: (foundWith s e found).toList).Pairwise (fun a b => a.key.userKey ≤ b.key.userKey) := by
        rw [← hlist]
        exact hsort.sublist (List.Sublist.append_left (foundWith_sublist e found) _)
      rw [scan_foundWith _ hsame, hlist]
      obtain ⟨h1, h2⟩ := ih e' (e :: after) p' _ hf' hsort' (foundWith_value hval)
      refine ⟨h1, fun y hy => ?_⟩
      obtain ⟨x, z, hxz, hiter, hx, hz⟩ := h2 y hy
      refine ⟨x, z ++ [e], ?_, ?_, hx, fun a ha hlt hseen => ?_⟩
      · rw [reverse_cons, hxz, append_assoc]
      · rw [hiter, append_assoc, singleton_append]
      · rcases mem_append.1 ha with ha | ha
        · exact hz a ha hlt hseen
        · -- an entry that counts is the last one that can be shown
          obtain rfl := mem_singleton.1 ha
          have hmem := (scan_sublist _ none).subset (mem_of_getLast? hy)
          rw [← hlist] at hmem
          rcases mem_append.1 hmem with hm | hm
          · exact absurd hlt (not_lt.2 (hbefore y hm))
          · rw [mem_foundWith hseen hm] at hlt
            exact lt_irrefl _ hlt

/-! ## The cursor -/

/-- Where the iterator is when it shows an entry. Going back, no entry between it and those of the
key counts. -/
def At (l : List (Entry K V)) (s : ℕ) (it : DbIter K V) (e : Entry K V) : Prop :=
  match it.direction with
  | .forward => ∃ b a, it.iter = some (b, e, a) ∧ b.reverse ++ e :: a = l
  | .reverse => it.savedKey = some e.key.userKey ∧ it.savedValue = some e.value ∧
      ∃ x y, x ++ y = l ∧ it.iter = Cursor.ofListsBack x.reverse y ∧ (∀ a ∈ x, a.key.userKey < e.key.userKey) ∧
        ∀ a ∈ y, a.key.userKey < e.key.userKey → ¬Seen s a

/-- The iterator shows the entry at which the cursor over the visible entries is. -/
def Follows (l : List (Entry K V)) (s : ℕ) (it : DbIter K V) : Cursor (Entry K V) → Prop
  | none => it.valid = false
  | some (bs, e, as) => it.valid = true ∧ bs.reverse ++ e :: as = visible l s ∧ At l s it e

variable {l : List (Entry K V)} {it : DbIter K V} {bs as : List (Entry K V)} {e : Entry K V} {c : Cursor (Entry K V)}

theorem Follows.key (h : Follows l s it c) :
    it.valid = c.isSome ∧ (it.valid = true → it.key = c.current.map (fun e => e.key.userKey) ∧ it.value = c.current.map Entry.value) := by
  cases c with
  | none =>
    have hv : it.valid = false := h
    refine ⟨hv, fun hv' => ?_⟩
    rw [hv] at hv'
    cases hv'
  | some p =>
    obtain ⟨hv, -, hat⟩ := h
    refine ⟨hv, fun _ => ?_⟩
    unfold At at hat
    unfold DbIter.key DbIter.value
    cases hd : it.direction with
    | forward =>
      rw [hd] at hat
      obtain ⟨b, a, hi, -⟩ := hat
      rw [if_pos rfl, if_pos rfl, hi]
      exact ⟨rfl, rfl⟩
    | reverse =>
      rw [hd] at hat
      obtain ⟨hk, hval, -⟩ := hat
      exact ⟨hk, hval⟩

variable {b a rest : List (Entry K V)}

theorem findNextUserEntry_follows {b : List (Entry K V)} {e' : Entry K V} {a rest : List (Entry K V)} {skipping : Bool}
    (hd : it.direction = .forward) (hi : it.iter = some (b, e', a)) (hl : b.reverse ++ e' :: a = l)
    (hscan : scan s (skipKey skipping it.savedKey) (e' :: a) = rest) (hv : bs.reverse ++ rest = visible l s) :
    Follows l s (findNextUserEntry s it skipping) (Cursor.ofLists bs rest) := by
  unfold findNextUserEntry
  rw [hi]
  dsimp only
  rcases findNext_spec a b e' skipping it.savedKey it.status with ⟨h1, h2⟩ | ⟨b', x, a', xs, h1, h2, h3⟩
  · rw [h1]
    rw [h2] at hscan
    rw [← hscan]
    rfl
  · rw [h1]
    rw [h3] at hscan
    rw [← hscan] at hv ⊢
    refine ⟨rfl, hv, ?_⟩
    rw [hd]
    exact ⟨b', a', rfl, h2.trans hl⟩

theorem findPrevUserEntry_follows (h : SortedEntries l) {pre post : List (Entry K V)} (hd : it.direction = .reverse)
    (hl : pre ++ post = l) (hi : it.iter = Cursor.ofListsBack pre.reverse post) (hscan : scan s none pre = bs.reverse)
    (hv : bs.reverse ++ rest = visible l s) : Follows l s (findPrevUserEntry s it) (Cursor.ofListsBack bs rest) := by
  unfold findPrevUserEntry
  rw [hi]
  rcases eq_nil_or_concat pre with rfl | ⟨pre, e, rfl⟩
  · have hbs : bs = [] := reverse_eq_nil_iff.1 hscan.symm
    rw [hbs]
    rfl
  · rw [concat_eq_append] at *
    have hrev : (pre ++ [e]).reverse = e :: pre.reverse := by rw [reverse_append]; rfl
    have hsort : (pre.reverse.reverse ++ e :: (none : Option (Entry K V)).toList).Pairwise (fun a b => a.key.userKey ≤ b.key.userKey) := by
      have := h.userKeys
      rw [← hl] at this
      rw [reverse_reverse]
      exact (pairwise_append.1 this).1
    rw [hrev, show Cursor.ofListsBack (e :: pre.reverse) post = some (pre.reverse, e, post) from rfl]
    obtain ⟨h1, h2⟩ := @findPrev_spec _ _ _ s pre.reverse e post ⟨.deletion, it.savedKey, it.savedValue, it.status⟩ none rfl hsort
      fun c hc => by cases hc
    rw [reverse_reverse, toList_none, hscan, List.getLast?_reverse] at h1
    rw [reverse_reverse, toList_none, hscan, List.getLast?_reverse] at h2
    cases bs with
    | nil =>
      rw [if_pos (show _ = ValueType.deletion from h1)]
      rfl
    | cons y bs =>
      obtain ⟨hval, hk, hsv⟩ := h1
      obtain ⟨x, z, hxz, hiter, hx, hz⟩ := h2 y rfl
      rw [if_neg (by rw [hval]; decide)]
      refine ⟨rfl, ?_, ?_⟩
      · rw [← hv, reverse_cons, append_assoc, singleton_append]
      · rw [hd]
        refine ⟨hk, hsv, x, z ++ post, ?_, hiter, hx, fun a ha hlt => ?_⟩
        · rw [← hl, hxz, append_assoc]
        · rcases mem_append.1 ha with ha | ha
          · exact hz a ha hlt
          · -- behind the prefix no key is smaller
            have hy : y ∈ pre ++ [e] := (scan_sublist _ none).subset (by rw [hscan]; exact mem_reverse.2 mem_cons_self)
            have hkeys := h.userKeys
            rw [← hl] at hkeys
            exact absurd hlt (not_lt.2 ((pairwise_append.1 hkeys).2.2 y hy a ha))

/-! ## The moves -/

inductive Call (K : Type)
  | seekToFirst
  | seekToLast
  | seek (target : K)
  | next
  | prev

@[grind =] def call (l : List (Entry K V)) (s : ℕ) (it : DbIter K V) : Call K → DbIter K V
  | .seekToFirst => it.seekToFirst l s
  | .seekToLast => it.seekToLast l s
  | .seek target => it.seek l s target
  | .next => it.next l s
  | .prev => it.prev s

@[grind =] def cursorCall (l : List (Entry K V)) (s : ℕ) (c : Cursor (Entry K V)) : Call K → Cursor (Entry K V)
  | .seekToFirst => Cursor.seekToFirst (visible l s)
  | .seekToLast => Cursor.seekToLast (visible l s)
  | .seek target => Cursor.seek (fun e => decide (target ≤ e.key.userKey)) (visible l s)
  | .next => c.next
  | .prev => c.prev

/-- `Next` and `Prev` are called at an entry only. -/
def Legal (it : DbIter K V) : Call K → Prop
  | .next | .prev => it.valid = true
  | _ => True

instance (it : DbIter K V) : (a : Call K) → Decidable (it.Legal a)
  | .next | .prev => inferInstanceAs (Decidable (it.valid = true))
  | .seekToFirst | .seekToLast | .seek _ => inferInstanceAs (Decidable True)

/-- The last entry of a smaller user key than `key()` counts for the snapshot, if there is one. -/
def NextClear (l : List (Entry K V)) (s : ℕ) (it : DbIter K V) : Prop :=
  ∀ k ∈ it.key, ∀ a ∈ (l.filter fun a => decide (a.key.userKey < k)).getLast?, Seen s a

instance (l : List (Entry K V)) (s : ℕ) (it : DbIter K V) : Decidable (NextClear l s it) :=
  inferInstanceAs (Decidable (∀ k ∈ it.key, _))

/-- A call of `Next` that turns around does so where the entry in front of those of the key counts. -/
def Clear (l : List (Entry K V)) (s : ℕ) (it : DbIter K V) : Call K → Prop
  | .next => it.direction = .reverse → NextClear l s it
  | _ => True

instance (l : List (Entry K V)) (s : ℕ) (it : DbIter K V) : (a : Call K) → Decidable (Clear l s it a)
  | .next => inferInstanceAs (Decidable (it.direction = .reverse → NextClear l s it))
  | .prev | .seekToFirst | .seekToLast | .seek _ => inferInstanceAs (Decidable True)

theorem next_at (h : SortedEntries l) (hv : bs.reverse ++ e :: as = visible l s)
    (hl : b.reverse ++ e' :: a = l) (hk : e'.key.userKey = e.key.userKey) : scan s (some e'.key.userKey) (e' :: a) = as := by
  have hkeys := h.userKeys
  rw [← hl] at hkeys
  obtain ⟨-, hrest, hcross⟩ := pairwise_append.1 hkeys
  -- the entries of the key come first
  have hge : ∀ c ∈ e' :: a, e'.key.userKey ≤ c.key.userKey := by
    intro c hc
    rcases mem_cons.1 hc with rfl | hc
    · exact le_rfl
    · exact (pairwise_cons.1 hrest).1 c hc
  obtain ⟨x, y, hxy, hx, hy⟩ := cut_at hrest (P := fun c => c ≤ e'.key.userKey) (fun _ _ hle hb => le_trans hle hb)
  have hx : ∀ c ∈ x, c.key.userKey = e'.key.userKey := fun c hc =>
    le_antisymm (hx c hc) (hge c (by rw [hxy]; exact mem_append_left _ hc))
  have hy : ∀ c ∈ y, e'.key.userKey < c.key.userKey := fun c hc => not_le.1 (hy c hc)
  rw [hxy, scan_behind hx hy]
  refine (split_visible h hv.symm).2 (x := b.reverse ++ x) ?_ ?_ ?_
  · rw [← hl, hxy, append_assoc]
  · intro c hc
    rcases mem_append.1 hc with hc | hc
    · rw [← hk]
      exact hcross c hc e' mem_cons_self
    · rw [hx c hc, hk]
  · intro c hc
    rw [← hk]
    exact hy c hc

theorem next_follows (h : SortedEntries l) (hf : Follows l s it c) (hvalid : it.valid = true)
    (hclear : it.direction = .reverse → NextClear l s it) : Follows l s (it.next l s) c.next := by
  cases c with
  | none =>
    have hv : it.valid = false := hf
    rw [hv] at hvalid
    cases hvalid
  | some p =>
    obtain ⟨bs, e, as⟩ := p
    obtain ⟨-, hv, hat⟩ := hf
    -- the iterator is moved to an entry of the key
    have hstep : ∀ (it' : DbIter K V) (b : List (Entry K V)) (e' : Entry K V) (a : List (Entry K V)), it'.direction = .forward →
        it'.iter = some (b, e', a) → b.reverse ++ e' :: a = l → e'.key.userKey = e.key.userKey →
        Follows l s (findNextUserEntry s { it' with savedKey := some e'.key.userKey } true) (Cursor.ofLists (e :: bs) as) := by
      intro it' b e' a hd hi hl hk
      refine findNextUserEntry_follows hd hi hl (next_at h hv hl hk) ?_
      rw [reverse_cons, append_assoc, singleton_append, hv]
    unfold At at hat
    unfold next
    cases hd : it.direction with
    | forward =>
      rw [hd] at hat
      obtain ⟨b, a, hi, hl⟩ := hat
      rw [if_neg (by decide)]
      dsimp only
      rw [hi]
      exact hstep { it with iter := some (b, e, a) } b e a hd rfl hl rfl
    | reverse =>
      rw [hd] at hat
      obtain ⟨hk, -, x, y, hl, hi, hx, hy⟩ := hat
      have hmem : e ∈ y := by
        have he : e ∈ visible l s := by rw [← hv]; exact mem_append_right _ mem_cons_self
        have he := (mem_filter.1 he).1
        rw [← hl] at he
        rcases mem_append.1 he with he | he
        · exact absurd (hx e he) (lt_irrefl _)
        · exact he
      have hkeys := h.userKeys
      rw [← hl] at hkeys
      have hyge : ∀ a ∈ y, e.key.userKey ≤ a.key.userKey := by
        by_contra hcon
        push Not at hcon
        obtain ⟨a, ha, hlt⟩ := hcon
        -- the last of the smaller entries is behind the iterator then
        have hfilter : (l.filter fun a => decide (a.key.userKey < e.key.userKey)) =
            x.filter (fun a => decide (a.key.userKey < e.key.userKey)) ++ y.filter (fun a => decide (a.key.userKey < e.key.userKey)) := by
          rw [← hl, filter_append]
        have hne : y.filter (fun a => decide (a.key.userKey < e.key.userKey)) ≠ [] :=
          ne_nil_of_mem (mem_filter.2 ⟨ha, decide_eq_true hlt⟩)
        obtain ⟨a', ha'⟩ : ∃ a', (y.filter fun a => decide (a.key.userKey < e.key.userKey)).getLast? = some a' :=
          ⟨_, List.getLast?_eq_some_getLast hne⟩
        have hlast : (l.filter fun a => decide (a.key.userKey < e.key.userKey)).getLast? = some a' := by
          rw [hfilter, List.getLast?_append, ha', some_or]
        have hkey : it.key = some e.key.userKey := by
          unfold DbIter.key
          rw [hd, if_neg (by decide), hk]
        have hseen := hclear hd e.key.userKey hkey a' hlast
        obtain ⟨hay, halt⟩ := mem_filter.1 (mem_of_getLast? ha')
        exact hy a' hay (of_decide_eq_true halt) hseen
      have hiter : (if it.iter.isNone then Cursor.seekToFirst l else it.iter.next) = Cursor.ofLists x.reverse y := by
        rw [hi]
        rcases eq_nil_or_concat x with rfl | ⟨x, f, rfl⟩
        · rw [← hl]
          rfl
        · rw [concat_eq_append, reverse_append]
          rfl
      rw [if_pos rfl, hiter]
      cases y with
      | nil => cases hmem
      | cons e' a =>
        have hk' : e'.key.userKey = e.key.userKey := by
          refine le_antisymm ?_ (hyge e' mem_cons_self)
          rcases mem_cons.1 hmem with rfl | hmem
          · exact le_rfl
          · exact (pairwise_cons.1 (pairwise_append.1 hkeys).2.1).1 e hmem
        exact hstep { it with direction := .forward, iter := some (x.reverse, e', a) } x.reverse e' a rfl rfl
          (by rw [reverse_reverse]; exact hl) hk'

theorem scanBack_spec {k : K} : ∀ (before : List (Entry K V)) (e : Entry K V) (after : List (Entry K V)),
    before.reverse.Pairwise (fun a b => a.key.userKey ≤ b.key.userKey) → (∀ a ∈ e :: after, k ≤ a.key.userKey) →
    ∃ x y, before.reverse ++ e :: after = x ++ y ∧ scanBack k before e after = Cursor.ofListsBack x.reverse y ∧
      (∀ a ∈ x, a.key.userKey < k) ∧ ∀ a ∈ y, k ≤ a.key.userKey := by
  intro before
  induction before with
  | nil =>
    intro e after _ hk
    exact ⟨[], e :: after, rfl, rfl, fun a ha => (not_mem_nil ha).elim, hk⟩
  | cons e' before ih =>
    intro e after hsort hk
    rw [reverse_cons] at hsort
    obtain ⟨hbefore, -, hcross⟩ := pairwise_append.1 hsort
    rw [scanBack]
    by_cases hlt : e'.key.userKey < k
    · rw [if_pos hlt]
      refine ⟨(e' :: before).reverse, e :: after, rfl, by rw [reverse_reverse]; rfl, fun a ha => ?_, hk⟩
      rw [reverse_cons] at ha
      rcases mem_append.1 ha with ha | ha
      · exact lt_of_le_of_lt (hcross a ha e' (mem_singleton_self e')) hlt
      · rwa [mem_singleton.1 ha]
    · rw [if_neg hlt]
      obtain ⟨x, y, hxy, hrest⟩ := ih e' (e :: after) hbefore fun a ha => by
        rcases mem_cons.1 ha with rfl | ha
        · exact not_lt.1 hlt
        · exact hk a ha
      exact ⟨x, y, by rw [← hxy, reverse_cons, append_assoc, singleton_append], hrest⟩

theorem prev_follows (h : SortedEntries l) (hf : Follows l s it c) (hvalid : it.valid = true) : Follows l s (it.prev s) c.prev := by
  cases c with
  | none =>
    have hv : it.valid = false := hf
    rw [hv] at hvalid
    cases hvalid
  | some p =>
    obtain ⟨bs, e, as⟩ := p
    obtain ⟨-, hv, hat⟩ := hf
    have hkeys := h.userKeys
    unfold At at hat
    unfold prev
    cases hd : it.direction with
    | forward =>
      rw [hd] at hat
      obtain ⟨b, a, hi, hl⟩ := hat
      rw [← hl] at hkeys
      obtain ⟨hb, ha, -⟩ := pairwise_append.1 hkeys
      obtain ⟨x, y, hxy, hback, hx, hy⟩ := scanBack_spec b e a hb (fun c hc => by
        rcases mem_cons.1 hc with rfl | hc
        · exact le_rfl
        · exact (pairwise_cons.1 ha).1 c hc)
      rw [hl] at hxy
      have hscan := ((split_visible h hv.symm).1 hxy hx hy).1
      rw [if_pos rfl, hi]
      dsimp only
      rw [hback]
      rcases eq_nil_or_concat x with rfl | ⟨x, f, rfl⟩
      · have hbs : bs = [] := reverse_eq_nil_iff.1 hscan.symm
        rw [hbs]
        rfl
      · rw [concat_eq_append] at *
        rw [show Cursor.ofListsBack (x ++ [f]).reverse y = some (x.reverse, f, y) by rw [reverse_append]; rfl]
        refine findPrevUserEntry_follows h rfl hxy.symm ?_ hscan hv
        rw [reverse_append]
        rfl
    | reverse =>
      rw [hd] at hat
      obtain ⟨-, -, x, y, hl, hi, hx, hy⟩ := hat
      refine findPrevUserEntry_follows h hd hl hi ?_ hv
      -- what is between the iterator and the key shows nothing
      rw [← hl] at hkeys
      have hys := (pairwise_append.1 hkeys).2.1
      obtain ⟨z, w, rfl, hz, hw⟩ := cut_at hys (P := fun c => c < e.key.userKey) fun _ _ hle hb => lt_of_le_of_lt hle hb
      have hscan := ((split_visible h hv.symm).1 (x := x ++ z) (y := w) (by rw [append_assoc, hl]) (fun a ha => by
        rcases mem_append.1 ha with ha | ha
        · exact hx a ha
        · exact hz a ha) fun a ha => not_lt.1 (hw a ha)).1
      rw [scan_append, (scan_unseen z _ fun a ha => hy a (mem_append_left _ ha) (hz a ha)).1, append_nil] at hscan
      exact hscan

theorem seekToFirst_follows (h : SortedEntries l) (it : DbIter K V) : Follows l s (it.seekToFirst l s) (Cursor.seekToFirst (visible l s)) := by
  unfold seekToFirst
  cases l with
  | nil => rfl
  | cons e l =>
    rw [if_pos (show (Cursor.seekToFirst (e :: l)).isSome = true from rfl)]
    exact @findNextUserEntry_follows _ _ _ _ _ _ [] _ _ _ _ _ rfl rfl rfl (scan_eq_visible h s) rfl

theorem seekToLast_follows (h : SortedEntries l) (it : DbIter K V) : Follows l s (it.seekToLast l s) (Cursor.seekToLast (visible l s)) := by
  have hscan : scan s none l = (visible l s).reverse.reverse := by rw [reverse_reverse, scan_eq_visible h s]
  exact findPrevUserEntry_follows h rfl (append_nil l) rfl hscan (by rw [append_nil, reverse_reverse])

theorem seek_scan (h : SortedEntries l) (target : K) : scan s none (l.takeWhile fun e => !decide (lookupKey target s ≤ e.key)) =
      (visible l s).takeWhile (fun e => !decide (target ≤ e.key.userKey)) ∧
    scan s none (l.dropWhile fun e => !decide (lookupKey target s ≤ e.key)) =
      (visible l s).dropWhile (fun e => !decide (target ≤ e.key.userKey)) := by
  generalize htake : l.takeWhile (fun e => !decide (lookupKey target s ≤ e.key)) = T
  generalize hdrop : l.dropWhile (fun e => !decide (lookupKey target s ≤ e.key)) = D
  have hl : T ++ D = l := by rw [← htake, ← hdrop, takeWhile_append_dropWhile]
  have hT : ∀ e ∈ T, e.key < lookupKey target s := by
    intro e he
    rw [← htake] at he
    have := mem_takeWhile_imp (p := fun e : Entry K V => !decide (lookupKey target s ≤ e.key)) he
    simpa using this
  have hD : ∀ e ∈ D, lookupKey target s ≤ e.key := by
    intro e he
    cases hD : D with
    | nil =>
      rw [hD] at he
      cases he
    | cons d D' =>
      have hd : lookupKey target s ≤ d.key := by
        have := List.head?_dropWhile_not (fun e : Entry K V => !decide (lookupKey target s ≤ e.key)) l
        rw [hdrop, hD] at this
        simpa using this
      have hsort : SortedEntries (d :: D') := by
        rw [← hD, ← hdrop]
        exact List.Pairwise.sublist (dropWhile_sublist _) h
      rw [hD] at he
      rcases mem_cons.1 he with rfl | he
      · exact hd
      · exact le_trans hd (le_of_lt ((pairwise_cons.1 hsort).1 e he))
  have hTk : ∀ e ∈ T, Seen s e → e.key.userKey < target := by
    intro e he hseen
    refine lt_of_le_of_ne (InternalKey.userKey_le (le_of_lt (hT e he))) fun hk => ?_
    exact absurd ((lookupKey_le_iff hseen.1).2 (Or.inr ⟨hk.symm, hseen.2⟩)) (not_le.2 (hT e he))
  have hDk : ∀ e ∈ D, target ≤ e.key.userKey := fun e he => InternalKey.userKey_le (hD e he)
  -- the scan of the first part shows smaller keys, that of the second the others
  have hcut : visible l s = scan s none T ++ scan s none D := by
    rw [← scan_eq_visible h, ← hl]
    obtain ⟨x, y, hxy, hx, hy⟩ := cut_at (l := T) (P := fun k => k < target)
      ((SortedEntries.userKeys (by rw [SortedEntries, ← hl] at h; exact (pairwise_append.1 h).1))) fun _ _ hle hb => lt_of_le_of_lt hle hb
    have hun : ∀ a ∈ y, ¬Seen s a := fun a ha hseen => hy a ha (hTk a (by rw [hxy]; exact mem_append_right _ ha) hseen)
    have hyD : ∀ a ∈ y ++ D, target ≤ a.key.userKey := by
      intro a ha
      rcases mem_append.1 ha with ha | ha
      · exact not_lt.1 (hy a ha)
      · exact hDk a ha
    obtain ⟨h1, h2⟩ := scan_unseen y none hun
    have hyD' : scan s none (y ++ D) = scan s none D := by rw [scan_append, h1, h2, nil_append]
    have hxy' : scan s none (x ++ y) = scan s none x := by rw [scan_append, (scan_unseen y _ hun).1, append_nil]
    rw [hxy, append_assoc, scan_cut hx hyD, hyD', hxy']
  have hsmall : ∀ a ∈ scan s none T, (fun e : Entry K V => !decide (target ≤ e.key.userKey)) a = true := by
    intro a ha
    have hmem := (scan_sublist T none).subset ha
    simpa using hTk a hmem (scan_seen T none a ha)
  have hlarge : ∀ a ∈ scan s none D, ¬(fun e : Entry K V => !decide (target ≤ e.key.userKey)) a = true := by
    intro a ha
    simpa using hDk a ((scan_sublist D none).subset ha)
  rw [hcut, takeWhile_append_of_pos hsmall, dropWhile_append_of_pos hsmall]
  cases hs : scan s none D with
  | nil => exact ⟨(append_nil _).symm, rfl⟩
  | cons d ds =>
    rw [hs] at hlarge
    have hd := hlarge d mem_cons_self
    rw [takeWhile_cons_of_neg (p := fun e : Entry K V => !decide (target ≤ e.key.userKey)) hd,
      dropWhile_cons_of_neg (p := fun e : Entry K V => !decide (target ≤ e.key.userKey)) hd]
    exact ⟨(append_nil _).symm, rfl⟩

theorem seek_follows (h : SortedEntries l) (it : DbIter K V) (target : K) :
    Follows l s (it.seek l s target) (Cursor.seek (fun e => decide (target ≤ e.key.userKey)) (visible l s)) := by
  obtain ⟨-, hscan⟩ := seek_scan (s := s) h target
  unfold seek Cursor.seek
  have hl : (l.takeWhile fun e => !decide (lookupKey target s ≤ e.key)) ++ (l.dropWhile fun e => !decide (lookupKey target s ≤ e.key)) = l :=
    takeWhile_append_dropWhile
  cases hd : l.dropWhile fun e => !decide (lookupKey target s ≤ e.key) with
  | nil =>
    rw [hd] at hscan
    rw [← hscan]
    rfl
  | cons e D =>
    rw [hd] at hscan hl
    rw [if_pos (show (Cursor.ofLists _ (e :: D)).isSome = true from rfl)]
    refine findNextUserEntry_follows rfl rfl ?_ hscan ?_
    · rw [reverse_reverse, hl]
    · rw [reverse_reverse, takeWhile_append_dropWhile]

/-! ## Runs -/

/-- A legal call keeps the iterator and the cursor together, unless it is a `Next` that turns around where an entry in
front of those of the key does not count. -/
theorem call_follows (h : SortedEntries l) (hf : Follows l s it c) {a : Call K} (hlegal : Legal it a)
    (hclear : Clear l s it a) : Follows l s (it.call l s a) (cursorCall l s c a) := by
  cases a with
  | seekToFirst => exact seekToFirst_follows h it
  | seekToLast => exact seekToLast_follows h it
  | seek target => exact seek_follows h it target
  | next => exact next_follows h hf hlegal hclear
  | prev => exact prev_follows h hf hlegal

def run (l : List (Entry K V)) (s : ℕ) (it : DbIter K V) (calls : List (Call K)) : DbIter K V := calls.foldl (call l s) it

@[grind =] def ClearRun (l : List (Entry K V)) (s : ℕ) : DbIter K V → List (Call K) → Prop
  | _, [] => True
  | it, a :: calls => Legal it a ∧ Clear l s it a ∧ ClearRun l s (it.call l s a) calls

instance instDecidableClearRun (l : List (Entry K V)) (s : ℕ) : (it : DbIter K V) → (calls : List (Call K)) → Decidable (ClearRun l s it calls)
  | _, [] => inferInstanceAs (Decidable True)
  | it, a :: calls =>
    have := instDecidableClearRun l s (it.call l s a) calls
    inferInstanceAs (Decidable (_ ∧ _ ∧ _))

theorem run_follows_from (h : SortedEntries l) : ∀ (calls : List (Call K)) {it : DbIter K V} {c : Cursor (Entry K V)}, Follows l s it c →
    ClearRun l s it calls → Follows l s (it.run l s calls) (calls.foldl (cursorCall l s) c)
  | [], _, _, hf, _ => hf
  | _ :: calls, _, _, hf, ⟨hlegal, hclear, hrest⟩ => run_follows_from h calls (call_follows h hf hlegal hclear) hrest

def Shows (it : DbIter K V) (c : Cursor (Entry K V)) : Prop :=
  it.valid = c.isSome ∧ (it.valid = true → it.key = c.current.map (fun e => e.key.userKey) ∧ it.value = c.current.map Entry.value)

/-- **In a run whose calls are clear the iterator is a cursor over the entries that the snapshot sees.** -/
theorem run_shows (h : SortedEntries l) (s : ℕ) (calls : List (Call K)) (hrun : ClearRun l s new calls) :
    Shows (new.run l s calls) (calls.foldl (cursorCall l s) none) :=
  (run_follows_from h calls (show Follows l s new none from rfl) hrun).key

def threeKeys : List (Entry ℕ ℕ) := [⟨.pack 1 1 .value, 10⟩, ⟨.pack 2 9 .value, 20⟩, ⟨.pack 3 2 .value, 30⟩]

theorem run_shows_all : Shows (new.run threeKeys 9 [.seekToLast, .prev, .next, .next])
    ([Call.seekToLast, .prev, .next, .next].foldl (cursorCall threeKeys 9) none) :=
  run_shows (by unfold SortedEntries; decide) 9 _ (by decide)

/-- A snapshot that does not see the second key: behind the last key `Next` shows it once more. -/
theorem next_repeats : visible threeKeys 5 = [⟨.pack 1 1 .value, 10⟩, ⟨.pack 3 2 .value, 30⟩] ∧
    (new.run threeKeys 5 [.seekToLast]).key = some 3 ∧ (new.run threeKeys 5 [.seekToLast, .next]).key = some 3 ∧
    ¬Shows (new.run threeKeys 5 [.seekToLast, .next]) ([Call.seekToLast, .next].foldl (cursorCall threeKeys 5) none) :=
  ⟨by decide, by decide, by decide, fun h => absurd h.1 (by decide)⟩

end DbIter

end KVStores.LevelDb
