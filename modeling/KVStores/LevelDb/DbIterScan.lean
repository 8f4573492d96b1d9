import KVStores.LevelDb.DbIter

/-!
# What a snapshot sees

* `scan`: the entries at which `FindNextUserEntry` stops, call after call; `scan_eq_visible`:
  **they are the visible ones**.
-/

namespace KVStores.LevelDb

open List Option

variable {K V : Type} [LinearOrder K]

def Seen (s : ℕ) (e : Entry K V) : Prop := e.key.type? ≠ none ∧ e.key.sequence ≤ s

instance (s : ℕ) (e : Entry K V) : Decidable (Seen s e) := inferInstanceAs (Decidable (_ ∧ _))

/-- The entries that a snapshot sees: of each user key the newest one that counts, if it is a value. -/
def visible (l : List (Entry K V)) (s : ℕ) : List (Entry K V) :=
  l.filter fun e => decide (e.key.type? = some .value ∧ e.key.sequence ≤ s ∧
    ∀ e' ∈ l, Seen s e' → e'.key.userKey = e.key.userKey → e'.key.tag ≤ e.key.tag)

def skipped (skip : Option K) (e : Entry K V) : Prop := ∃ k, skip = some k ∧ e.key.userKey ≤ k

instance (skip : Option K) (e : Entry K V) : Decidable (skipped skip e) :=
  decidable_of_iff (skip.any (e.key.userKey ≤ ·) = true) (by cases skip <;> simp [skipped])

def Shown (s : ℕ) (skip : Option K) (e : Entry K V) : Prop :=
  e.key.type? = some .value ∧ e.key.sequence ≤ s ∧ ¬skipped skip e

instance (s : ℕ) (skip : Option K) (e : Entry K V) : Decidable (Shown s skip e) := inferInstanceAs (Decidable (_ ∧ _ ∧ _))

def advance (s : ℕ) (skip : Option K) (e : Entry K V) : Option K :=
  if Shown s skip e ∨ e.key.type? = some .deletion ∧ e.key.sequence ≤ s then some e.key.userKey else skip

@[grind =] def scan (s : ℕ) : Option K → List (Entry K V) → List (Entry K V)
  | _, [] => []
  | skip, e :: l => (if Shown s skip e then [e] else []) ++ scan s (advance s skip e) l

variable {s : ℕ} {skip : Option K} {e : Entry K V} {l x y : List (Entry K V)} {k : K}

theorem Shown.seen (h : Shown s skip e) : Seen s e := ⟨by rw [h.1]; exact some_ne_none _, h.2.1⟩

theorem advance_unseen (h : ¬Seen s e) : advance s skip e = skip := by
  unfold advance
  rw [if_neg]
  rintro (hs | ⟨ht, hs⟩)
  · exact h hs.seen
  · exact h ⟨by rw [ht]; exact some_ne_none _, hs⟩

theorem not_shown_unseen (h : ¬Seen s e) : ¬Shown s skip e := fun hs => h hs.seen

theorem scan_append : ∀ (x : List (Entry K V)) (skip : Option K), scan s skip (x ++ y) = scan s skip x ++ scan s (x.foldl (advance s) skip) y
  | [], _ => rfl
  | e :: x, skip => by rw [cons_append, scan, scan, scan_append x, foldl_cons, append_assoc]

theorem scan_unseen : ∀ (x : List (Entry K V)) (skip : Option K), (∀ e ∈ x, ¬Seen s e) → scan s skip x = [] ∧ x.foldl (advance s) skip = skip
  | [], _, _ => ⟨rfl, rfl⟩
  | e :: x, skip, h => by
    have he := h e mem_cons_self
    obtain ⟨h1, h2⟩ := scan_unseen x skip fun e' he' => h e' (mem_cons_of_mem _ he')
    refine ⟨?_, ?_⟩
    · rw [scan, if_neg (not_shown_unseen he), advance_unseen he, h1, nil_append]
    · rw [foldl_cons, advance_unseen he, h2]

theorem scan_sublist : ∀ (l : List (Entry K V)) (skip : Option K), (scan s skip l).Sublist l
  | [], _ => List.Sublist.refl _
  | e :: l, skip => by
    rw [scan]
    by_cases h : Shown s skip e
    · rw [if_pos h]
      exact (scan_sublist l _).cons_cons e
    · rw [if_neg h]
      exact (scan_sublist l _).cons e

theorem scan_seen : ∀ (l : List (Entry K V)) (skip : Option K), ∀ e ∈ scan s skip l, Seen s e
  | [], _, _, he => by cases he
  | a :: l, skip, e, he => by
    rcases mem_append.1 he with he | he
    · by_cases hs : Shown s skip a
      · rw [if_pos hs] at he
        rw [mem_singleton.1 he]
        exact hs.seen
      · rw [if_neg hs] at he
        cases he
    · exact scan_seen l _ e he

theorem scan_skip : ∀ (l : List (Entry K V)) (skip : Option K), (∀ e ∈ l, ¬skipped skip e) → scan s skip l = scan s none l
  | [], _, _ => rfl
  | e :: l, skip, h => by
    have he := h e mem_cons_self
    have hnone : ¬skipped none e := by rintro ⟨k, hk, -⟩; cases hk
    have hiff : Shown s skip e ↔ Shown s none e := by simp only [Shown, he, hnone]
    rw [scan, scan]
    unfold advance
    simp only [hiff]
    by_cases hs : Shown s none e ∨ e.key.type? = some .deletion ∧ e.key.sequence ≤ s
    · rw [if_pos hs, if_pos hs]
    · rw [if_neg hs, if_neg hs, scan_skip l skip fun e' he' => h e' (mem_cons_of_mem _ he')]

theorem foldl_advance {P : K → Prop} : ∀ (x : List (Entry K V)) (skip : Option K), (∀ k, skip = some k → P k) →
    (∀ e ∈ x, P e.key.userKey) → ∀ k, x.foldl (advance s) skip = some k → P k
  | [], _, h, _ => h
  | e :: x, skip, h, hx => by
    refine foldl_advance x _ (fun k hk => ?_) fun e' he' => hx e' (mem_cons_of_mem _ he')
    unfold advance at hk
    split at hk
    · rw [← Option.some.inj hk]
      exact hx e mem_cons_self
    · exact h k hk

theorem scan_cut (hx : ∀ e ∈ x, e.key.userKey < k) (hy : ∀ e ∈ y, k ≤ e.key.userKey) :
    scan s none (x ++ y) = scan s none x ++ scan s none y := by
  rw [scan_append, scan_skip y]
  rintro e he ⟨k', hk', hle⟩
  have := foldl_advance (P := fun k' => k' < k) x none (fun k' h => by cases h) hx k' hk'
  exact absurd (lt_of_le_of_lt hle this) (not_lt.2 (hy e he))

theorem scan_same : ∀ (x : List (Entry K V)), (∀ e ∈ x, e.key.userKey = k) → scan s (some k) x = [] ∧ x.foldl (advance s) (some k) = some k
  | [], _ => ⟨rfl, rfl⟩
  | e :: x, h => by
    have he := h e mem_cons_self
    obtain ⟨h1, h2⟩ := scan_same x fun e' he' => h e' (mem_cons_of_mem _ he')
    have hns : ¬Shown s (some k) e := fun hs => hs.2.2 ⟨k, rfl, le_of_eq he⟩
    have ha : advance s (some k) e = some k := by
      unfold advance
      split
      · rw [he]
      · rfl
    refine ⟨?_, ?_⟩
    · rw [scan, if_neg hns, ha, h1, nil_append]
    · rw [foldl_cons, ha, h2]

theorem scan_behind (hx : ∀ e ∈ x, e.key.userKey = k) (hy : ∀ e ∈ y, k < e.key.userKey) : scan s (some k) (x ++ y) = scan s none y := by
  obtain ⟨h1, h2⟩ := scan_same (s := s) x hx
  rw [scan_append, h1, h2, nil_append, scan_skip y]
  rintro e he ⟨k', hk', hle⟩
  obtain rfl := Option.some.inj hk'
  exact absurd (hy e he) (not_lt.2 hle)

/-- Sorted by internal keys, none twice. -/
def SortedEntries (l : List (Entry K V)) : Prop := l.Pairwise fun a b => a.key < b.key

omit [LinearOrder K] in
theorem seen_cases (h : Seen s e) : e.key.type? = some .value ∨ e.key.type? = some .deletion := by
  cases ht : e.key.type? with
  | none => exact absurd ht h.1
  | some t =>
    cases t with
    | deletion => exact Or.inr rfl
    | value => exact Or.inl rfl

theorem scan_eq_filter : ∀ (l : List (Entry K V)) (skip : Option K), SortedEntries l → (∀ k, skip = some k → ∀ e ∈ l, k ≤ e.key.userKey) →
    scan s skip l = l.filter fun e => decide (Shown s skip e ∧
      ∀ e' ∈ l, Seen s e' → e'.key.userKey = e.key.userKey → e'.key.tag ≤ e.key.tag)
  | [], _, _, _ => rfl
  | e :: l, skip, hs, hskip => by
    obtain ⟨hfirst, hl⟩ := pairwise_cons.1 hs
    have hkey : ∀ a ∈ l, e.key.userKey ≤ a.key.userKey := fun a ha => InternalKey.userKey_le (le_of_lt (hfirst a ha))
    -- the first entry is shown when nothing skips it: it is the newest of its key
    have hhead : (Shown s skip e ∧ ∀ e' ∈ e :: l, Seen s e' → e'.key.userKey = e.key.userKey → e'.key.tag ≤ e.key.tag) ↔ Shown s skip e := by
      refine ⟨fun h => h.1, fun h => ⟨h, fun e' he' _ hk => ?_⟩⟩
      rcases mem_cons.1 he' with rfl | he'
      · exact le_rfl
      · exact le_of_lt (InternalKey.tag_lt_of_lt (hfirst e' he') hk.symm)
    have hskip' : ∀ k, advance s skip e = some k → ∀ a ∈ l, k ≤ a.key.userKey := by
      intro k hk a ha
      unfold advance at hk
      split at hk
      · rw [← Option.some.inj hk]
        exact hkey a ha
      · exact hskip k hk a (mem_cons_of_mem _ ha)
    -- for the others it is the key to skip that tells
    have htail : ∀ a ∈ l, (Shown s skip a ∧ (Seen s e → e.key.userKey = a.key.userKey → e.key.tag ≤ a.key.tag)) ↔ Shown s (advance s skip e) a := by
      intro a ha
      have hne : (Seen s e → e.key.userKey = a.key.userKey → e.key.tag ≤ a.key.tag) ↔ (Seen s e → e.key.userKey ≠ a.key.userKey) :=
        ⟨fun h hse hk => absurd (h hse hk) (not_le.2 (InternalKey.tag_lt_of_lt (hfirst a ha) hk)), fun h hse hk => absurd hk (h hse)⟩
      rw [hne]
      unfold Shown
      by_cases hcase : Shown s skip e ∨ e.key.type? = some .deletion ∧ e.key.sequence ≤ s
      · have hadv : advance s skip e = some e.key.userKey := if_pos hcase
        have hseen : Seen s e := by
          rcases hcase with h | ⟨ht, h⟩
          · exact h.seen
          · exact ⟨by rw [ht]; exact some_ne_none _, h⟩
        have hsk : skipped (some e.key.userKey) a ↔ e.key.userKey = a.key.userKey := by
          refine ⟨fun ⟨k, hk, hle⟩ => ?_, fun h => ⟨_, rfl, le_of_eq h.symm⟩⟩
          obtain rfl := Option.some.inj hk
          exact le_antisymm (hkey a ha) hle
        rw [hadv, hsk]
        refine ⟨fun ⟨⟨h1, h2, _⟩, h4⟩ => ⟨h1, h2, h4 hseen⟩, fun ⟨h1, h2, h3⟩ => ⟨⟨h1, h2, ?_⟩, fun _ => h3⟩⟩
        rintro ⟨k, hk, hle⟩
        have hk1 := hskip k hk e mem_cons_self
        exact h3 (le_antisymm (hkey a ha) (le_trans hle hk1))
      · have hadv : advance s skip e = skip := if_neg hcase
        rw [hadv]
        refine ⟨fun h => h.1, fun h => ⟨h, fun hseen hk => ?_⟩⟩
        -- a value that counts and is not shown is skipped, and so are the others of its key
        have hval : e.key.type? = some .value := by
          rcases seen_cases hseen with ht | ht
          · exact ht
          · exact absurd (Or.inr ⟨ht, hseen.2⟩) hcase
        have hsk : skipped skip e := by
          by_contra hns
          exact hcase (Or.inl ⟨hval, hseen.2, hns⟩)
        obtain ⟨k, hk', hle⟩ := hsk
        exact h.2.2 ⟨k, hk', by rw [← hk]; exact hle⟩
    have hrest := scan_eq_filter l (advance s skip e) hl hskip'
    rw [scan, hrest]
    have hcongr : (l.filter fun a => decide (Shown s (advance s skip e) a ∧
        ∀ e' ∈ l, Seen s e' → e'.key.userKey = a.key.userKey → e'.key.tag ≤ a.key.tag)) = l.filter fun a => decide (Shown s skip a ∧
          ∀ e' ∈ e :: l, Seen s e' → e'.key.userKey = a.key.userKey → e'.key.tag ≤ a.key.tag) := by
      apply filter_congr
      intro a ha
      rw [decide_eq_decide, ← htail a ha, forall_mem_cons, and_assoc]
    rw [hcongr, filter_cons]
    simp only [hhead]
    by_cases h : Shown s skip e
    · rw [if_pos h, if_pos (decide_eq_true h), singleton_append]
    · rw [if_neg h, if_neg (by rw [decide_eq_false h]; exact Bool.false_ne_true), nil_append]

/-- **A scan stops at the entries that the snapshot sees.** -/
theorem scan_eq_visible (h : SortedEntries l) (s : ℕ) : scan s none l = visible l s := by
  rw [scan_eq_filter l none h fun k hk => by cases hk]
  apply filter_congr
  intro e _
  have hnone : ¬skipped none e := by rintro ⟨k, hk, -⟩; cases hk
  unfold Shown
  simp only [hnone, not_false_eq_true, and_true, and_assoc]

theorem visible_pairwise (h : SortedEntries l) (s : ℕ) : (visible l s).Pairwise fun a b => a.key.userKey < b.key.userKey := by
  have hf : (visible l s).Pairwise fun a b => a.key < b.key := h.filter _
  refine hf.imp_of_mem fun {a b} ha hb hab => ?_
  rcases InternalKey.lt_iff.1 hab with hk | ⟨hk, ht⟩
  · exact hk
  · -- the second is not the newest then
    obtain ⟨hal, ha⟩ := mem_filter.1 ha
    obtain ⟨-, hb⟩ := mem_filter.1 hb
    have ha := of_decide_eq_true ha
    have hb := of_decide_eq_true hb
    have hseen : Seen s a := ⟨by rw [ha.1]; exact some_ne_none _, ha.2.1⟩
    exact absurd (hb.2.2 a hal hseen hk) (not_le.2 ht)

theorem SortedEntries.userKeys (h : SortedEntries l) : l.Pairwise fun a b => a.key.userKey ≤ b.key.userKey :=
  h.imp fun hab => InternalKey.userKey_le (le_of_lt hab)

/-- Sorted entries are cut where a property of small user keys ends. -/
theorem cut_at {P : K → Prop} [DecidablePred P] (h : l.Pairwise fun a b => a.key.userKey ≤ b.key.userKey)
    (hP : ∀ a b, a ≤ b → P b → P a) : ∃ x y, l = x ++ y ∧ (∀ a ∈ x, P a.key.userKey) ∧ ∀ a ∈ y, ¬P a.key.userKey := by
  induction l with
  | nil => exact ⟨[], [], rfl, fun a ha => (not_mem_nil ha).elim, fun a ha => (not_mem_nil ha).elim⟩
  | cons e l ih =>
    obtain ⟨hfirst, hl⟩ := pairwise_cons.1 h
    by_cases he : P e.key.userKey
    · obtain ⟨x, y, rfl, hx, hy⟩ := ih hl
      exact ⟨e :: x, y, rfl, forall_mem_cons.2 ⟨he, hx⟩, hy⟩
    · exact ⟨[], e :: l, rfl, fun a ha => (not_mem_nil ha).elim, forall_mem_cons.2 ⟨he, fun a ha hPa => he (hP _ _ (hfirst a ha) hPa)⟩⟩

theorem cut_unique {α : Type} {p r p' r' : List α} {P : α → Prop} [DecidablePred P] (h : p ++ r = p' ++ r') (hp : ∀ a ∈ p, P a)
    (hr : ∀ a ∈ r, ¬P a) (hp' : ∀ a ∈ p', P a) (hr' : ∀ a ∈ r', ¬P a) : p = p' ∧ r = r' := by
  have hfilter : ∀ {p r : List α}, (∀ a ∈ p, P a) → (∀ a ∈ r, ¬P a) → (p ++ r).filter (fun a => decide (P a)) = p := by
    intro p r hp hr
    rw [filter_append, filter_eq_self.2 fun a ha => decide_eq_true (hp a ha),
      filter_eq_nil_iff.2 fun a ha => by simpa using hr a ha, append_nil]
  have heq : p = p' := by rw [← hfilter hp hr, h, hfilter hp' hr']
  subst heq
  exact ⟨rfl, append_cancel_left h⟩

theorem split_visible (h : SortedEntries l) {p q : List (Entry K V)} (hv : visible l s = p ++ e :: q) :
    (∀ {x y : List (Entry K V)}, l = x ++ y → (∀ a ∈ x, a.key.userKey < e.key.userKey) → (∀ a ∈ y, e.key.userKey ≤ a.key.userKey) →
      scan s none x = p ∧ scan s none y = e :: q) ∧
    (∀ {x y : List (Entry K V)}, l = x ++ y → (∀ a ∈ x, a.key.userKey ≤ e.key.userKey) → (∀ a ∈ y, e.key.userKey < a.key.userKey) →
      scan s none y = q) := by
  have hpair := visible_pairwise h s
  rw [hv] at hpair
  obtain ⟨-, hq, hpq⟩ := pairwise_append.1 hpair
  have hq' := (pairwise_cons.1 hq).1
  have hsub : ∀ (l : List (Entry K V)), ∀ a ∈ scan s none l, a ∈ l := fun l a ha => (scan_sublist l none).subset ha
  refine ⟨fun {x y} hl hx hy => ?_, fun {x y} hl hx hy => ?_⟩
  · have hcut : p ++ e :: q = scan s none x ++ scan s none y := by rw [← hv, ← scan_eq_visible h, hl, scan_cut hx hy]
    obtain ⟨h1, h2⟩ := cut_unique (P := fun a : Entry K V => a.key.userKey < e.key.userKey) hcut
      (fun a ha => hpq a ha e mem_cons_self)
      (fun a ha => not_lt.2 (by
        rcases mem_cons.1 ha with rfl | ha
        · exact le_rfl
        · exact le_of_lt (hq' a ha)))
      (fun a ha => hx a (hsub x a ha)) fun a ha => not_lt.2 (hy a (hsub y a ha))
    exact ⟨h1.symm, h2.symm⟩
  · have hskip : scan s (x.foldl (advance s) none) y = scan s none y := by
      apply scan_skip
      rintro a ha ⟨k, hk, hle⟩
      have := foldl_advance (P := fun k => k ≤ e.key.userKey) x none (fun k h => by cases h) hx k hk
      exact absurd (lt_of_lt_of_le (hy a ha) hle) (not_lt.2 this)
    have hcut : (p ++ [e]) ++ q = scan s none x ++ scan s none y := by
      rw [append_assoc, singleton_append, ← hv, ← scan_eq_visible h, hl, scan_append, hskip]
    exact (cut_unique (P := fun a : Entry K V => a.key.userKey ≤ e.key.userKey) hcut
      (fun a ha => by
        rcases mem_append.1 ha with ha | ha
        · exact le_of_lt (hpq a ha e mem_cons_self)
        · rw [mem_singleton.1 ha])
      (fun a ha => not_le.2 (hq' a ha))
      (fun a ha => hx a (hsub x a ha)) fun a ha => not_le.2 (hy a (hsub y a ha))).2.symm

end KVStores.LevelDb
