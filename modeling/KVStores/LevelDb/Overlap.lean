import KVStores.LevelDb.Version
import KVStores.LevelDb.LogWriter
import KVStores.Lib.KeyedSet
import Mathlib.Data.List.Count

/-!
# The files that overlap a range

* `getOverlappingInputs_closed`: **what is left out of level 0 has no user key in common with what
  is taken**.
-/

namespace KVStores.LevelDb

open List

variable {K : Type} [LinearOrder K] {b e : Option K} {f : FileMetaData K} {files : List (FileMetaData K)}

def Inside (b e : Option K) (f : FileMetaData K) : Prop :=
  (∀ u, b = some u → u ≤ f.smallest.userKey) ∧ ∀ u, e = some u → f.largest.userKey ≤ u

theorem overlapsRange_iff : overlapsRange b e f = true ↔
    (∀ u, b = some u → u ≤ f.largest.userKey) ∧ ∀ u, e = some u → f.smallest.userKey ≤ u := by
  unfold overlapsRange afterFile beforeFile
  cases b <;> cases e <;> simp

theorem sticksOutBefore_iff : sticksOutBefore b f = true ↔ ∃ u, b = some u ∧ f.smallest.userKey < u := by
  unfold sticksOutBefore
  cases b <;> simp

theorem sticksOutAfter_iff : sticksOutAfter e f = true ↔ ∃ u, e = some u ∧ u < f.largest.userKey := by
  unfold sticksOutAfter
  cases e <;> simp

theorem inside_of_not_sticksOut (hb : ¬sticksOutBefore b f = true) (he : ¬sticksOutAfter e f = true) : Inside b e f := by
  rw [sticksOutBefore_iff] at hb
  rw [sticksOutAfter_iff] at he
  exact ⟨fun u hu => not_lt.1 fun hlt => hb ⟨u, hu, hlt⟩, fun u hu => not_lt.1 fun hlt => he ⟨u, hu, hlt⟩⟩

theorem scanLevel0_ok : ∀ (files : List (FileMetaData K)) {inputs : List (FileMetaData K)}, scanLevel0 b e files = .ok inputs →
    inputs = files.filter (overlapsRange b e) ∧ ∀ f ∈ inputs, Inside b e f
  | [], inputs, h => by
    obtain rfl := Except.ok.inj h
    exact ⟨rfl, fun f hf => (not_mem_nil hf).elim⟩
  | f :: files, inputs, h => by
    rw [scanLevel0] at h
    rw [filter_cons]
    by_cases ho : overlapsRange b e f = true
    · rw [if_pos ho] at h ⊢
      by_cases hb : sticksOutBefore b f = true
      · rw [if_pos hb] at h
        cases h
      · rw [if_neg hb] at h
        by_cases he : sticksOutAfter e f = true
        · rw [if_pos he] at h
          cases h
        · rw [if_neg he] at h
          cases hr : scanLevel0 b e files with
          | error r =>
            rw [hr] at h
            cases h
          | ok rest =>
            rw [hr] at h
            obtain rfl := Except.ok.inj h
            obtain ⟨h1, h2⟩ := scanLevel0_ok files hr
            rw [h1]
            exact ⟨rfl, forall_mem_cons.2 ⟨inside_of_not_sticksOut hb he, h1 ▸ h2⟩⟩
    · rw [if_neg ho] at h ⊢
      exact scanLevel0_ok files h

theorem scanLevel0_error : ∀ (files : List (FileMetaData K)) {r : Option K × Option K}, scanLevel0 b e files = .error r →
    ∃ f ∈ files, overlapsRange b e f = true ∧ ((∃ u, b = some u ∧ f.smallest.userKey < u ∧ r = (some f.smallest.userKey, e)) ∨
        ∃ u, e = some u ∧ u < f.largest.userKey ∧ r = (b, some f.largest.userKey))
  | [], r, h => by cases h
  | f :: files, r, h => by
    have hrest : scanLevel0 b e files = .error r → ∃ f' ∈ f :: files, overlapsRange b e f' = true ∧
        ((∃ u, b = some u ∧ f'.smallest.userKey < u ∧ r = (some f'.smallest.userKey, e)) ∨
          ∃ u, e = some u ∧ u < f'.largest.userKey ∧ r = (b, some f'.largest.userKey)) := by
      intro hr
      obtain ⟨f', hf', hrest⟩ := scanLevel0_error files hr
      exact ⟨f', mem_cons_of_mem _ hf', hrest⟩
    rw [scanLevel0] at h
    by_cases ho : overlapsRange b e f = true
    · rw [if_pos ho] at h
      by_cases hb : sticksOutBefore b f = true
      · rw [if_pos hb] at h
        obtain rfl := Except.error.inj h
        obtain ⟨u, hu, hlt⟩ := sticksOutBefore_iff.1 hb
        exact ⟨f, mem_cons_self, ho, Or.inl ⟨u, hu, hlt, rfl⟩⟩
      · rw [if_neg hb] at h
        by_cases he : sticksOutAfter e f = true
        · rw [if_pos he] at h
          obtain rfl := Except.error.inj h
          obtain ⟨u, hu, hlt⟩ := sticksOutAfter_iff.1 he
          exact ⟨f, mem_cons_self, ho, Or.inr ⟨u, hu, hlt, rfl⟩⟩
        · rw [if_neg he] at h
          cases hr : scanLevel0 b e files with
          | error r' =>
            rw [hr] at h
            obtain rfl := Except.error.inj h
            exact hrest hr
          | ok rest =>
            rw [hr] at h
            cases h
    · rw [if_neg ho] at h
      exact hrest h

theorem countP_lt {α : Type} {p q : α → Bool} {a : α} : ∀ {l : List α}, (∀ x, p x = true → q x = true) → a ∈ l → q a = true → ¬p a = true →
    l.countP p < l.countP q
  | x :: l, hpq, ha, hqa, hpa => by
    have hle : l.countP p ≤ l.countP q := countP_mono_left fun x _ hx => hpq x hx
    rw [countP_cons, countP_cons]
    rcases mem_cons.1 ha with rfl | ha
    · rw [if_pos hqa, if_neg hpa]
      omega
    · have hlt := countP_lt hpq ha hqa hpa
      by_cases hx : p x = true
      · rw [if_pos hx, if_pos (hpq x hx)]
        omega
      · rw [if_neg hx]
        split <;> omega

theorem scanLevel0_fewer {r : Option K × Option K} (h : scanLevel0 b e files = .error r) :
    files.countP (sticksOutBefore r.1) + files.countP (sticksOutAfter r.2) <
      files.countP (sticksOutBefore b) + files.countP (sticksOutAfter e) := by
  obtain ⟨f, hf, -, ⟨u, rfl, hlt, rfl⟩ | ⟨u, rfl, hlt, rfl⟩⟩ := scanLevel0_error files h
  · refine Nat.add_lt_add_right (countP_lt (a := f) (fun x hx => ?_) hf (sticksOutBefore_iff.2 ⟨u, rfl, hlt⟩) fun hc => ?_) _
    · obtain ⟨w, hw, hxw⟩ := sticksOutBefore_iff.1 hx
      obtain rfl := Option.some.inj hw
      exact sticksOutBefore_iff.2 ⟨u, rfl, lt_trans hxw hlt⟩
    · obtain ⟨w, hw, hfw⟩ := sticksOutBefore_iff.1 hc
      obtain rfl := Option.some.inj hw
      exact lt_irrefl _ hfw
  · refine Nat.add_lt_add_left (countP_lt (a := f) (fun x hx => ?_) hf (sticksOutAfter_iff.2 ⟨u, rfl, hlt⟩) fun hc => ?_) _
    · obtain ⟨w, hw, hxw⟩ := sticksOutAfter_iff.1 hx
      obtain rfl := Option.some.inj hw
      exact sticksOutAfter_iff.2 ⟨u, rfl, lt_trans hlt hxw⟩
    · obtain ⟨w, hw, hfw⟩ := sticksOutAfter_iff.1 hc
      obtain rfl := Option.some.inj hw
      exact lt_irrefl _ hfw

/-- The passes end at a range out of which no file sticks that overlaps it. It has grown from file to file: what lies
between the files of the level is not inside, unless it was. -/
theorem restartLevel0_spec : ∀ (fuel : ℕ) {b e : Option K}, files.countP (sticksOutBefore b) + files.countP (sticksOutAfter e) < fuel →
    ∃ b' e', restartLevel0 files fuel b e = files.filter (overlapsRange b' e') ∧
      (∀ f ∈ files.filter (overlapsRange b' e'), Inside b' e' f) ∧ (∀ f, overlapsRange b e f = true → overlapsRange b' e' f = true) ∧
      (b = none → b' = none) ∧ (e = none → e' = none) ∧ ∀ m n, m ≤ n → (∀ f ∈ files, n < f.smallest.userKey ∨ f.largest.userKey < m) →
        (∃ u, b = some u ∧ n < u) ∨ (∃ u, e = some u ∧ u < m) → (∃ u, b' = some u ∧ n < u) ∨ ∃ u, e' = some u ∧ u < m := by
  intro fuel
  induction fuel with
  | zero => exact fun h => absurd h (Nat.not_lt_zero _)
  | succ fuel ih =>
    intro b e h
    rw [restartLevel0]
    cases hs : scanLevel0 b e files with
    | ok inputs =>
      obtain ⟨h1, h2⟩ := scanLevel0_ok files hs
      subst h1
      exact ⟨b, e, rfl, h2, fun _ hf => hf, id, id, fun _ _ _ _ hmn => hmn⟩
    | error r =>
      have hfewer := scanLevel0_fewer hs
      obtain ⟨f, hf, ho, hr⟩ := scanLevel0_error files hs
      rw [overlapsRange_iff] at ho
      rcases hr with ⟨u, rfl, hlt, rfl⟩ | ⟨u, rfl, hlt, rfl⟩
      · -- the beginning moves down to that of a file
        dsimp only at hfewer
        obtain ⟨b', e', h1, h2, h3, h4, h5, h6⟩ := ih (b := some f.smallest.userKey) (e := e) (by omega)
        refine ⟨b', e', h1, h2, fun g hg => h3 g ?_, (fun hc => by cases hc), h5, fun m n hmn hbetween hout => h6 m n hmn hbetween ?_⟩
        · rw [overlapsRange_iff] at hg ⊢
          refine ⟨fun w hw => ?_, hg.2⟩
          obtain rfl := Option.some.inj hw
          exact le_trans (le_of_lt hlt) (hg.1 u rfl)
        · rcases hout with ⟨w, hw, hn⟩ | hout
          · obtain rfl := Option.some.inj hw
            left
            refine ⟨_, rfl, ?_⟩
            rcases hbetween f hf with hlow | hhigh
            · exact hlow
            · exact absurd (lt_of_lt_of_le hhigh hmn) (not_lt.2 (le_trans (le_of_lt hn) (ho.1 u rfl)))
          · exact Or.inr hout
      · -- the end moves up
        dsimp only at hfewer
        obtain ⟨b', e', h1, h2, h3, h4, h5, h6⟩ := ih (b := b) (e := some f.largest.userKey) (by omega)
        refine ⟨b', e', h1, h2, fun g hg => h3 g ?_, h4, (fun hc => by cases hc), fun m n hmn hbetween hout => h6 m n hmn hbetween ?_⟩
        · rw [overlapsRange_iff] at hg ⊢
          refine ⟨hg.1, fun w hw => ?_⟩
          obtain rfl := Option.some.inj hw
          exact le_trans (hg.2 u rfl) (le_of_lt hlt)
        · rcases hout with hout | ⟨w, hw, hm⟩
          · exact Or.inl hout
          · obtain rfl := Option.some.inj hw
            right
            refine ⟨_, rfl, ?_⟩
            rcases hbetween f hf with hlow | hhigh
            · exact absurd (lt_of_le_of_lt hmn hlow) (not_lt.2 (le_trans (ho.2 u rfl) (le_of_lt hm)))
            · exact hhigh

/-- The range `b'` to `e'` takes in the range `b` to `e`; no key stands for an end that is open. -/
def Within (b e b' e' : Option K) : Prop :=
  (∀ u', b' = some u' → ∃ u, b = some u ∧ u' ≤ u) ∧ ∀ u', e' = some u' → ∃ u, e = some u ∧ u ≤ u'

theorem Within.refl (b e : Option K) : Within b e b e := ⟨fun u hu => ⟨u, hu, le_rfl⟩, fun u hu => ⟨u, hu, le_rfl⟩⟩

theorem Within.trans {b e b1 e1 b2 e2 : Option K} (h : Within b e b1 e1) (h' : Within b1 e1 b2 e2) : Within b e b2 e2 := by
  refine ⟨fun u hu => ?_, fun u hu => ?_⟩
  · obtain ⟨u1, hu1, hle1⟩ := h'.1 u hu
    obtain ⟨u0, hu0, hle0⟩ := h.1 u1 hu1
    exact ⟨u0, hu0, le_trans hle1 hle0⟩
  · obtain ⟨u1, hu1, hle1⟩ := h'.2 u hu
    obtain ⟨u0, hu0, hle0⟩ := h.2 u1 hu1
    exact ⟨u0, hu0, le_trans hle0 hle1⟩

theorem Within.overlaps {b' e' : Option K} (h : Within b e b' e') (ho : overlapsRange b e f = true) : overlapsRange b' e' f = true := by
  rw [overlapsRange_iff] at ho ⊢
  refine ⟨fun u hu => ?_, fun u hu => ?_⟩
  · obtain ⟨w, hw, hle⟩ := h.1 u hu
    exact le_trans hle (ho.1 w hw)
  · obtain ⟨w, hw, hle⟩ := h.2 u hu
    exact le_trans (ho.2 w hw) hle

def Absorbs (files : List (FileMetaData K)) (b e : Option K) : Prop := ∀ f ∈ files, overlapsRange b e f = true → Inside b e f

/-- `b'` to `e'` is the least range that takes in `b` to `e` and every file that it overlaps. -/
structure LeastAbsorbing (files : List (FileMetaData K)) (b e b' e' : Option K) : Prop where
  contains : Within b e b' e'
  absorbs : Absorbs files b' e'
  least : ∀ b2 e2, Within b e b2 e2 → Absorbs files b2 e2 → Within b' e' b2 e2

def Restarts (files : List (FileMetaData K)) (r r' : Option K × Option K) : Prop := scanLevel0 r.1 r.2 files = .error r'

theorem Restarts.within {r r' : Option K × Option K} (h : Restarts files r r') : Within r.1 r.2 r'.1 r'.2 ∧
    ∀ b2 e2, Within r.1 r.2 b2 e2 → Absorbs files b2 e2 → Within r'.1 r'.2 b2 e2 := by
  obtain ⟨f, hf, ho, hr⟩ := scanLevel0_error files h
  -- an absorbing range overlaps the file, and so takes it in
  have hinside : ∀ b2 e2, Within r.1 r.2 b2 e2 → Absorbs files b2 e2 → Inside b2 e2 f := fun b2 e2 hw ha => ha f hf (hw.overlaps ho)
  rcases hr with ⟨u, hu, hlt, rfl⟩ | ⟨u, hu, hlt, rfl⟩
  · refine ⟨⟨fun w hw => ?_, fun w hw => ⟨w, hw, le_rfl⟩⟩, fun b2 e2 hw ha => ⟨fun w hw2 => ?_, hw.2⟩⟩
    · obtain rfl := Option.some.inj hw
      exact ⟨u, hu, le_of_lt hlt⟩
    · exact ⟨_, rfl, (hinside b2 e2 hw ha).1 w hw2⟩
  · refine ⟨⟨fun w hw => ⟨w, hw, le_rfl⟩, fun w hw => ?_⟩, fun b2 e2 hw ha => ⟨hw.1, fun w hw2 => ?_⟩⟩
    · obtain rfl := Option.some.inj hw
      exact ⟨u, hu, le_of_lt hlt⟩
    · exact ⟨_, rfl, (hinside b2 e2 hw ha).2 w hw2⟩

/-- The passes that begin at a range end at the least absorbing range around it. -/
theorem restartLevel0_least : ∀ (fuel : ℕ) {b e : Option K}, files.countP (sticksOutBefore b) + files.countP (sticksOutAfter e) < fuel →
    ∃ b' e', LeastAbsorbing files b e b' e' ∧ Relation.ReflTransGen (Restarts files) (b, e) (b', e') ∧
      scanLevel0 b' e' files = .ok (restartLevel0 files fuel b e) := by
  intro fuel
  induction fuel with
  | zero => exact fun h => absurd h (Nat.not_lt_zero _)
  | succ fuel ih =>
    intro b e h
    unfold restartLevel0
    cases hs : scanLevel0 b e files with
    | ok inputs =>
      obtain ⟨rfl, hin⟩ := scanLevel0_ok files hs
      exact ⟨b, e, ⟨Within.refl b e, fun f hf ho => hin f (mem_filter.2 ⟨hf, ho⟩), fun _ _ hw _ => hw⟩, .refl, hs⟩
    | error r =>
      have hfewer := scanLevel0_fewer hs
      obtain ⟨b', e', hleast, hrun, hend⟩ := @ih r.1 r.2 (by omega)
      have hstep : Restarts files (b, e) r := hs
      refine ⟨b', e', ⟨hstep.within.1.trans hleast.contains, hleast.absorbs, fun b2 e2 hw ha => ?_⟩, .head hstep hrun, hend⟩
      exact hleast.least b2 e2 (hstep.within.2 b2 e2 hw ha) ha

variable {v : Version K} {level : ℕ} {begin_ end_ : Option (InternalKey K)}

theorem getOverlappingInputs_pos (h : 0 < level) : getOverlappingInputs v level begin_ end_ =
    (v level).filter (overlapsRange (begin_.map InternalKey.userKey) (end_.map InternalKey.userKey)) := by
  unfold getOverlappingInputs
  rw [if_neg (Nat.ne_of_gt h)]

theorem sticksOut_lt (b e : Option K) (files : List (FileMetaData K)) :
    files.countP (sticksOutBefore b) + files.countP (sticksOutAfter e) < 2 * files.length + 1 := by
  have h1 := countP_le_length (p := sticksOutBefore b) (l := files)
  have h2 := countP_le_length (p := sticksOutAfter e) (l := files)
  omega

theorem getOverlappingInputs_zero : ∃ b' e', getOverlappingInputs v 0 begin_ end_ = (v 0).filter (overlapsRange b' e') ∧
    (∀ f ∈ (v 0).filter (overlapsRange b' e'), Inside b' e' f) ∧
    (∀ f, overlapsRange (begin_.map InternalKey.userKey) (end_.map InternalKey.userKey) f = true → overlapsRange b' e' f = true) ∧
    (begin_ = none → b' = none) ∧ (end_ = none → e' = none) ∧ ∀ m n, m ≤ n → (∀ f ∈ v 0, n < f.smallest.userKey ∨ f.largest.userKey < m) →
      (∃ u, begin_.map InternalKey.userKey = some u ∧ n < u) ∨ (∃ u, end_.map InternalKey.userKey = some u ∧ u < m) →
      (∃ u, b' = some u ∧ n < u) ∨ ∃ u, e' = some u ∧ u < m := by
  obtain ⟨b', e', h1, h2, h3, h4, h5, h6⟩ := restartLevel0_spec _ (sticksOut_lt (begin_.map InternalKey.userKey)
    (end_.map InternalKey.userKey) (v 0))
  refine ⟨b', e', ?_, h2, h3, fun hb => h4 (by rw [hb]; rfl), fun he => h5 (by rw [he]; rfl), h6⟩
  unfold getOverlappingInputs
  rw [if_pos rfl, h1]

theorem getOverlappingInputs_sublist : (getOverlappingInputs v level begin_ end_).Sublist (v level) := by
  rcases Nat.eq_zero_or_pos level with rfl | h
  · obtain ⟨b', e', h1, -⟩ := @getOverlappingInputs_zero _ _ v begin_ end_
    rw [h1]
    exact filter_sublist
  · rw [getOverlappingInputs_pos h]
    exact filter_sublist

theorem getOverlappingInputs_closed {h : FileMetaData K} (hf : f ∈ v 0) (hout : f ∉ getOverlappingInputs v 0 begin_ end_)
    (hh : h ∈ getOverlappingInputs v 0 begin_ end_) : f.largest.userKey < h.smallest.userKey ∨ h.largest.userKey < f.smallest.userKey := by
  obtain ⟨b', e', h1, h2, -⟩ := @getOverlappingInputs_zero _ _ v begin_ end_
  rw [h1] at hout hh
  have hin := h2 h hh
  have hno : ¬overlapsRange b' e' f = true := fun ho => hout (mem_filter.2 ⟨hf, ho⟩)
  rw [overlapsRange_iff, not_and_or] at hno
  rcases hno with hno | hno
  · push Not at hno
    obtain ⟨u, hu, hlt⟩ := hno
    exact Or.inl (lt_of_lt_of_le hlt (hin.1 u hu))
  · push Not at hno
    obtain ⟨u, hu, hlt⟩ := hno
    exact Or.inr (lt_of_le_of_lt (hin.2 u hu) hlt)

/-- **The files taken from level 0 are those that overlap the least range that takes in the range asked for and every file
of level 0 that it overlaps**: the passes that widen the range come to an end, and the last one runs to the end of the level.
From a deeper level the files that overlap the range are taken. -/
theorem getOverlappingInputs_exact (v : Version K) (begin_ end_ : Option (InternalKey K)) :
    (∃ b e, LeastAbsorbing (v 0) (begin_.map InternalKey.userKey) (end_.map InternalKey.userKey) b e ∧
      Relation.ReflTransGen (Restarts (v 0)) (begin_.map InternalKey.userKey, end_.map InternalKey.userKey) (b, e) ∧
      scanLevel0 b e (v 0) = .ok (getOverlappingInputs v 0 begin_ end_) ∧
      getOverlappingInputs v 0 begin_ end_ = (v 0).filter (overlapsRange b e)) ∧ (∀ level, getOverlappingInputs v (level + 1) begin_ end_ =
      (v (level + 1)).filter (overlapsRange (begin_.map InternalKey.userKey) (end_.map InternalKey.userKey))) ∧
    ∀ level, (getOverlappingInputs v level begin_ end_).Sublist (v level) ∧
      ((v level).Nodup → (getOverlappingInputs v level begin_ end_).Nodup) := by
  refine ⟨?_, fun level => getOverlappingInputs_pos (Nat.succ_pos level), fun level => ?_⟩
  · obtain ⟨b, e, hleast, hrun, hend⟩ := restartLevel0_least _ (sticksOut_lt (begin_.map InternalKey.userKey)
      (end_.map InternalKey.userKey) (v 0))
    have heq : getOverlappingInputs v 0 begin_ end_ = restartLevel0 (v 0) (2 * (v 0).length + 1) (begin_.map InternalKey.userKey)
        (end_.map InternalKey.userKey) := by
      unfold getOverlappingInputs
      exact if_pos rfl
    exact ⟨b, e, hleast, hrun, hend, (scanLevel0_ok _ hend).1⟩
  · have hsub := @getOverlappingInputs_sublist _ _ v level begin_ end_
    exact ⟨hsub, fun h => h.sublist hsub⟩

def EndsSorted (files : List (FileMetaData K)) : Prop := files.Pairwise fun f g => f.largest < g.largest

variable {key : InternalKey K}

/-- The search keeps between its ends the first file that does not end before the key. -/
theorem findFileLoop_spec {key : InternalKey K} (hs : EndsSorted files) : ∀ (fuel left right : ℕ), right - left ≤ fuel → left ≤ right →
    right ≤ files.length → (∀ (i : ℕ) (f : FileMetaData K), files[i]? = some f → i < left → f.largest < key) →
    (∀ (i : ℕ) (f : FileMetaData K), files[i]? = some f → right ≤ i → ¬f.largest < key) →
    ∀ (i : ℕ) (f : FileMetaData K), files[i]? = some f → (i < findFileLoop files key fuel left right ↔ f.largest < key) := by
  -- from here on the search is at its end
  have hend : ∀ left right, right ≤ left → (∀ (i : ℕ) (f : FileMetaData K), files[i]? = some f → i < left → f.largest < key) →
      (∀ (i : ℕ) (f : FileMetaData K), files[i]? = some f → right ≤ i → ¬f.largest < key) → left ≤ right →
      ∀ (i : ℕ) (f : FileMetaData K), files[i]? = some f → (i < right ↔ f.largest < key) := by
    intro left right hrl hlow hhigh hlr i f hf
    exact ⟨fun hi => hlow i f hf (lt_of_lt_of_le hi hrl), fun hlt => not_le.1 fun hi => hhigh i f hf hi hlt⟩
  intro fuel
  induction fuel with
  | zero =>
    intro left right hfuel hlr hr hlow hhigh
    exact hend left right (by omega) hlow hhigh hlr
  | succ fuel ih =>
    intro left right hfuel hlr hr hlow hhigh
    rw [findFileLoop]
    by_cases hlt : left < right
    · rw [if_pos hlt]
      have hmid : (left + right) / 2 < files.length := by omega
      dsimp only
      rw [List.getElem?_eq_getElem hmid]
      dsimp only
      have hpair := pairwise_iff_getElem.1 hs
      by_cases hkey : files[(left + right) / 2].largest < key
      · rw [if_pos hkey]
        refine ih _ _ (by omega) (by omega) hr (fun i f hf hi => ?_) hhigh
        obtain ⟨hlen, rfl⟩ := List.getElem?_eq_some_iff.1 hf
        rcases Nat.lt_or_ge i ((left + right) / 2) with hi' | hi'
        · exact lt_trans (hpair i _ hlen hmid hi') hkey
        · have : i = (left + right) / 2 := by omega
          subst this
          exact hkey
      · rw [if_neg hkey]
        refine ih _ _ (by omega) (by omega) (by omega) hlow fun i f hf hi => ?_
        obtain ⟨hlen, rfl⟩ := List.getElem?_eq_some_iff.1 hf
        rcases Nat.lt_or_ge ((left + right) / 2) i with hi' | hi'
        · exact fun hlt' => hkey (lt_trans (hpair _ i hmid hlen hi') hlt')
        · have : i = (left + right) / 2 := by omega
          subst this
          exact hkey
    · rw [if_neg hlt]
      exact hend left right (by omega) hlow hhigh hlr

theorem findFile_getElem? (hs : EndsSorted files) : files[findFile files key]? = files.find? fun f => decide (key ≤ f.largest) := by
  have hspec := @findFileLoop_spec _ _ files key hs files.length 0 files.length (by omega) (by omega) (le_refl _)
    (fun i f _ hi => absurd hi (Nat.not_lt_zero i)) fun i f hf hi => by
      rw [List.getElem?_eq_none hi] at hf
      cases hf
  change files[findFileLoop files key files.length 0 files.length]? = _
  generalize findFileLoop files key files.length 0 files.length = i at hspec ⊢
  cases hf : files[i]? with
  | none =>
    symm
    rw [List.find?_eq_none]
    intro f hmem hle
    obtain ⟨j, hj, rfl⟩ := mem_iff_getElem.1 hmem
    have hlen : files.length ≤ i := List.getElem?_eq_none_iff.1 hf
    have hlt := (hspec j _ (List.getElem?_eq_getElem hj)).1 (lt_of_lt_of_le hj hlen)
    exact absurd (of_decide_eq_true hle) (not_le.2 hlt)
  | some f =>
    symm
    rw [List.find?_eq_some_iff_getElem]
    obtain ⟨hlen, rfl⟩ := List.getElem?_eq_some_iff.1 hf
    refine ⟨decide_eq_true (not_lt.1 fun hlt => ?_), i, hlen, rfl, fun j hj => ?_⟩
    · exact lt_irrefl _ ((hspec i _ hf).2 hlt)
    · have hlt := (hspec j _ (List.getElem?_eq_getElem (lt_trans hj hlen))).1 hj
      rw [Bool.not_eq_true', decide_eq_false_iff_not]
      exact not_le.2 hlt

end KVStores.LevelDb
