import KVStores.Redis.SetTypeSpec

/-!
# Unions and differences of sets

An intset has room for whatever is added as long as `set_max_intset_entries` is modest (`Server.Modest`).
-/

namespace KVStores.Redis.SetType

open List Option

def Server.Modest (server : Server) : Prop := server.setMaxIntsetEntries + 1 < 2 ^ 29

instance (server : Server) : Decidable server.Modest := inferInstanceAs (Decidable (_ < _))

variable {server : Server} {s : SetObj} {S : Finset (List UInt8)} {value : Robj}

def SetObj.Small (s : SetObj) : Prop := ∀ is, s = .intset is → intsetLen is + 1 < 2 ^ 29

theorem SetObj.Small.hasRoom (h : s.Represents S) (hsmall : s.Small) (value : Robj) : s.HasRoom value := by
  rintro is v rfl -
  refine Or.inr ?_
  have hlen : is.length + 1 < 2 ^ 29 := hsmall is rfl
  have hwidth : max is.encoding (intsetValueEncoding v.1) ≤ 8 := by
    cases h with
    | intset h =>
      have henc := h.encoding
      have hvalue := valueEncoding_cases v.1
      omega
  have hle : (is.length + 1) * max is.encoding (intsetValueEncoding v.1) ≤ (is.length + 1) * 8 := Nat.mul_le_mul_left _ hwidth
  omega

variable {s' : SetObj}

theorem setTypeAdd_small (hserver : server.Modest) (h : s.Represents S) (hsmall : s.Small) (hroom : s.HasRoom value) {added : Bool}
    (hadd : setTypeAdd server s value = some (s', added)) : s'.Small := by
  rintro is' rfl
  cases s with
  | ht d =>
    rw [setTypeAdd] at hadd
    cases hd : dictAdd d value with
    | none => rw [hd] at hadd; cases hadd
    | some d' => rw [hd] at hadd; cases hadd
  | intset is =>
    obtain ⟨s₁, hadd₁, hrep⟩ := setTypeAdd_spec server h value hroom
    rw [hadd] at hadd₁
    obtain ⟨rfl, hflag⟩ := Prod.mk.inj (Option.some.inj hadd₁)
    have hlen := hrep.card
    have hold := h.card
    by_cases hmem : getDecodedObject value ∈ S
    · rw [Finset.insert_eq_of_mem hmem, ← hold] at hlen
      have hlen : intsetLen is' = intsetLen is := hlen
      rw [hlen]
      exact hsmall is rfl
    · -- an integer that is new: the size was checked
      rw [decide_eq_true hmem] at hflag
      subst hflag
      rw [setTypeAdd] at hadd
      cases hvalue : isObjectRepresentableAsLongLong value with
      | none =>
        rw [hvalue] at hadd
        obtain ⟨d, -, hadd⟩ := bind_eq_some_iff.1 hadd
        obtain ⟨d', -, hadd⟩ := map_eq_some_iff.1 hadd
        cases hadd
      | some v =>
        rw [hvalue] at hadd
        dsimp only at hadd
        obtain ⟨r, -, hadd⟩ := bind_eq_some_iff.1 hadd
        by_cases hr : r.2 = true
        · rw [if_pos hr] at hadd
          by_cases hmany : server.setMaxIntsetEntries < intsetLen r.1
          · rw [if_pos hmany] at hadd
            obtain ⟨d, -, hadd⟩ := map_eq_some_iff.1 hadd
            cases hadd
          · rw [if_neg hmany] at hadd
            cases hadd
            unfold Server.Modest at hserver
            omega
        · rw [if_neg hr] at hadd
          cases hadd

theorem setTypeRemove_small (h : s.Represents S) (hsmall : s.Small) {removed : Bool}
    (hremove : setTypeRemove server s value = some (s', removed)) : s'.Small := by
  rintro is' rfl
  cases s with
  | ht d =>
    rw [setTypeRemove] at hremove
    cases hd : dictDelete d value with
    | none => rw [hd] at hremove; cases hremove
    | some d' => rw [hd] at hremove; cases hremove
  | intset is =>
    obtain ⟨s₁, hremove₁, hrep⟩ := setTypeRemove_spec server h value
    rw [hremove] at hremove₁
    obtain ⟨rfl, -⟩ := Prod.mk.inj (Option.some.inj hremove₁)
    have hlen := hrep.card
    have hold := h.card
    have hle : (S.erase (getDecodedObject value)).card ≤ S.card := Finset.card_erase_le
    have hsmall := hsmall is rfl
    rw [setTypeSize] at hlen hold
    omega

/-- **The result so far**: what it stands for, and how many its counter says. -/
structure Result (S : Finset (List UInt8)) (r : SetObj × ℤ) : Prop where
  represents : r.1.Represents S
  small : r.1.Small
  count : r.2 = (S.card : ℤ).bmod (2 ^ 32)

theorem result_empty : Result ∅ (.intset intsetNew, 0) := by
  refine ⟨.intset intsetNew_holds, ?_, by simp⟩
  rintro is h
  cases h
  decide

variable {r : SetObj × ℤ} {op : SetOp} {j : ℕ}

theorem add_element (hserver : server.Modest) (h : Result S r) (hop : op = .union ∨ j = 0) (ele : Robj) :
    ∃ r', sunionDiffElement server op j r ele = some r' ∧ Result (insert (getDecodedObject ele) S) r' := by
  have hroom := h.small.hasRoom h.represents ele
  obtain ⟨s', hadd, hrep⟩ := setTypeAdd_spec server h.represents ele hroom
  have hsmall := setTypeAdd_small hserver h.represents h.small hroom hadd
  rw [sunionDiffElement, if_pos hop, hadd, map_some]
  refine ⟨_, rfl, hrep, hsmall, ?_⟩
  by_cases hmem : getDecodedObject ele ∈ S
  · rw [decide_eq_false (not_not_intro hmem), if_neg Bool.false_ne_true, Finset.insert_eq_of_mem hmem, h.count]
  · rw [decide_eq_true hmem, if_pos rfl, Finset.card_insert_of_notMem hmem, h.count, Int.bmod_add_bmod]
    push_cast
    rfl

theorem remove_element (h : Result S r) (hop : ¬ (op = .union ∨ j = 0)) (ele : Robj) :
    ∃ r', sunionDiffElement server op j r ele = some r' ∧ Result (S.erase (getDecodedObject ele)) r' := by
  obtain ⟨s', hremove, hrep⟩ := setTypeRemove_spec server h.represents ele
  have hsmall := setTypeRemove_small h.represents h.small hremove
  rw [sunionDiffElement, if_neg hop, hremove, map_some]
  refine ⟨_, rfl, hrep, hsmall, ?_⟩
  by_cases hmem : getDecodedObject ele ∈ S
  · have hcard := Finset.card_erase_add_one hmem
    rw [decide_eq_true hmem, if_pos rfl, h.count, ← hcard, Int.bmod_sub_bmod]
    push_cast
    rw [Int.add_sub_cancel]
  · rw [decide_eq_false hmem, if_neg Bool.false_ne_true, Finset.erase_eq_of_notMem hmem, h.count]

def stringsOf (es : List Element) : List (List UInt8) := es.map fun e => getDecodedObject e.object

theorem stringsOf_cons (e : Element) (es : List Element) : stringsOf (e :: es) = getDecodedObject e.object :: stringsOf es := rfl

/-- **All elements of a set are added.** -/
theorem sunionDiffElements_add (hserver : server.Modest) (hop : op = .union ∨ j = 0) :
    ∀ (es : List Element) {S : Finset (List UInt8)} {r : SetObj × ℤ}, Result S r →
      ∃ r', sunionDiffElements server op j es r = some r' ∧ Result (S ∪ (stringsOf es).toFinset) r' := by
  intro es
  induction es with
  | nil =>
    intro S r h
    exact ⟨r, rfl, by rwa [stringsOf, map_nil, toFinset_nil, Finset.union_empty]⟩
  | cons e es ih =>
    intro S r h
    obtain ⟨r₁, hstep, h₁⟩ := add_element hserver h hop e.object
    obtain ⟨r₂, hrest, h₂⟩ := ih h₁
    refine ⟨r₂, by rw [sunionDiffElements, hstep, bind_some, hrest], ?_⟩
    rwa [stringsOf_cons, toFinset_cons, Finset.union_insert, ← Finset.insert_union]

/-- **All elements of a set are removed.** -/
theorem sunionDiffElements_remove (server : Server) (hop : ¬ (op = .union ∨ j = 0)) :
    ∀ (es : List Element) {S : Finset (List UInt8)} {r : SetObj × ℤ}, Result S r →
      ∃ r', sunionDiffElements server op j es r = some r' ∧ Result (S \ (stringsOf es).toFinset) r' := by
  intro es
  induction es with
  | nil =>
    intro S r h
    exact ⟨r, rfl, by rwa [stringsOf, map_nil, toFinset_nil, Finset.sdiff_empty]⟩
  | cons e es ih =>
    intro S r h
    obtain ⟨r₁, hstep, h₁⟩ := remove_element h hop e.object
    obtain ⟨r₂, hrest, h₂⟩ := ih h₁
    refine ⟨r₂, by rw [sunionDiffElements, hstep, bind_some, hrest], ?_⟩
    rwa [stringsOf_cons, toFinset_cons, Finset.sdiff_insert, ← Finset.erase_sdiff_comm]

/-- What a key stands for: a missing one for the empty set. -/
def Stands (o : Option SetObj) (T : Finset (List UInt8)) : Prop := (o = none ∧ T = ∅) ∨ ∃ s, o = some s ∧ s.Represents T

variable {sets : List (Option SetObj)} {Ts : List (Finset (List UInt8))}

/-- **Unions**, of sets in any encoding. -/
theorem union_spec (hserver : server.Modest) (hsets : List.Forall₂ Stands sets Ts) :
    ∀ (j : ℕ) {S : Finset (List UInt8)} {r : SetObj × ℤ}, Result S r →
      ∃ r', sunionDiffLoop server .union j sets r = some r' ∧ Result (Ts.foldl (· ∪ ·) S) r' := by
  induction hsets with
  | nil => exact fun j S r h => ⟨r, rfl, h⟩
  | cons hset _ ih =>
    intro j S r h
    obtain ⟨rfl, rfl⟩ | ⟨s, rfl, hs⟩ := hset
    · obtain ⟨r', hloop, h'⟩ := ih (j + 1) h
      refine ⟨r', ?_, ?_⟩
      · rw [sunionDiffLoop, if_neg fun hop => (by cases hop.1), hloop]
      · rwa [foldl_cons, Finset.union_empty]
    · obtain ⟨es, helements, -, hstrings⟩ := setTypeElements_spec hs
      obtain ⟨r₁, hadd, h₁⟩ := sunionDiffElements_add hserver (show SetOp.union = .union ∨ j = 0 from Or.inl rfl) es h
      obtain ⟨r', hloop, h'⟩ := ih (j + 1) h₁
      refine ⟨r', ?_, ?_⟩
      · rw [sunionDiffLoop, helements, bind_some, hadd, bind_some, if_neg fun hop => (by cases hop.1), hloop]
      · rw [foldl_cons, ← hstrings]
        exact h'

def without (T : Finset (List UInt8)) (Ts : List (Finset (List UInt8))) : Finset (List UInt8) := Ts.foldl (· \ ·) T

theorem without_cons (S T : Finset (List UInt8)) (Ts : List (Finset (List UInt8))) : without S (T :: Ts) = without (S \ T) Ts := rfl

theorem without_subset (Ts : List (Finset (List UInt8))) : ∀ T, without T Ts ⊆ T := by
  induction Ts with
  | nil => exact fun T => Finset.Subset.refl T
  | cons T' Ts ih => exact fun T => (ih (T \ T')).trans Finset.sdiff_subset

/-- What the loop leaves: it ends when its counter is 0. -/
@[grind =] def cutFrom : List (Finset (List UInt8)) → Finset (List UInt8) → Finset (List UInt8)
  | [], S => S
  | T :: Ts, S => if 2 ^ 32 ∣ S.card then S else cutFrom Ts (S \ T)

/-- **The counter is 0 too early**: some elements are left, a multiple of 2^32, and the other sets have some of them. -/
def EndsEarly (T : Finset (List UInt8)) (Ts : List (Finset (List UInt8))) : Prop :=
  ∃ n, without T (Ts.take n) ≠ ∅ ∧ 2 ^ 32 ∣ (without T (Ts.take n)).card ∧ without T (Ts.take n) ≠ without T Ts

theorem cutFrom_eq_iff (Ts : List (Finset (List UInt8))) : ∀ T, cutFrom Ts T = without T Ts ↔ ¬ EndsEarly T Ts := by
  induction Ts with
  | nil =>
    intro T
    refine iff_of_true rfl ?_
    rintro ⟨n, -, -, hne⟩
    rw [take_nil] at hne
    exact hne rfl
  | cons T' Ts ih =>
    intro T
    rw [cutFrom]
    by_cases hdvd : 2 ^ 32 ∣ T.card
    · rw [if_pos hdvd]
      constructor
      · -- nothing more is left out
        rintro hsame ⟨n, hnonempty, -, hne⟩
        have hle : without T (T' :: Ts) ⊆ without T ((T' :: Ts).take n) := by
          have hsplit : without T (T' :: Ts) = without (without T ((T' :: Ts).take n)) ((T' :: Ts).drop n) := by
            rw [without, without, without, ← foldl_append, take_append_drop]
          rw [hsplit]
          exact without_subset _ _
        rw [← hsame] at hle hne
        exact hne (Finset.Subset.antisymm (without_subset _ _) hle)
      · intro hearly
        by_contra hne
        refine hearly ⟨0, ?_, hdvd, hne⟩
        rintro hempty
        have hempty : T = ∅ := hempty
        have hsub := without_subset (T' :: Ts) T
        rw [hempty] at hsub hne
        exact hne (Finset.subset_empty.1 hsub).symm
    · rw [if_neg hdvd, without_cons, ih, not_iff_not]
      constructor
      · rintro ⟨n, h⟩
        exact ⟨n + 1, h⟩
      · rintro ⟨n, h⟩
        cases n with
        | zero => exact absurd h.2.1 hdvd
        | succ n => exact ⟨n, h⟩

theorem Result.zero_iff (h : Result S r) : r.2 = 0 ↔ 2 ^ 32 ∣ S.card := by
  rw [h.count, Int.bmod_def]
  split <;> omega

theorem diff_rest (server : Server) (hsets : List.Forall₂ Stands sets Ts) :
    ∀ (j : ℕ) {S : Finset (List UInt8)} {r : SetObj × ℤ}, Result S r →
      ∃ r', (if SetOp.diff = .diff ∧ r.2 = 0 then some r else sunionDiffLoop server .diff (j + 1) sets r) = some r' ∧ Result (cutFrom Ts S) r' := by
  induction hsets with
  | nil =>
    intro j S r h
    refine ⟨r, ?_, h⟩
    split <;> rfl
  | cons hset _ ih =>
    intro j S r h
    rw [cutFrom]
    by_cases hzero : r.2 = 0
    · rw [if_pos ⟨rfl, hzero⟩, if_pos (h.zero_iff.1 hzero)]
      exact ⟨r, rfl, h⟩
    rw [if_neg fun hend => hzero hend.2, if_neg fun hdvd => hzero (h.zero_iff.2 hdvd)]
    obtain ⟨rfl, rfl⟩ | ⟨s, rfl, hs⟩ := hset
    · obtain ⟨r', hloop, h'⟩ := ih (j + 1) h
      rw [if_neg fun hend => hzero hend.2] at hloop
      rw [sunionDiffLoop, if_neg fun hend => Nat.succ_ne_zero j hend.2, Finset.sdiff_empty]
      exact ⟨r', hloop, h'⟩
    · obtain ⟨es, helements, -, hstrings⟩ := setTypeElements_spec hs
      have hop : ¬ (SetOp.diff = .union ∨ j + 1 = 0) := by
        rintro (hop | hop)
        · cases hop
        · exact Nat.succ_ne_zero j hop
      obtain ⟨r₁, hremove, h₁⟩ := sunionDiffElements_remove server hop es h
      obtain ⟨r', hloop, h'⟩ := ih (j + 1) h₁
      rw [sunionDiffLoop, helements, bind_some, hremove, bind_some, ← hstrings]
      exact ⟨r', hloop, h'⟩

/-- **Differences**, of sets in any encoding. -/
theorem diff_spec (hserver : server.Modest) {set : Option SetObj} {T : Finset (List UInt8)} (hset : Stands set T)
    (hsets : List.Forall₂ Stands sets Ts) :
    ∃ r', sunionDiffLoop server .diff 0 (set :: sets) (.intset intsetNew, 0) = some r' ∧ Result (cutFrom Ts T) r' := by
  obtain ⟨rfl, rfl⟩ | ⟨s, rfl, hs⟩ := hset
  · refine ⟨_, by rw [sunionDiffLoop, if_pos ⟨rfl, rfl⟩], ?_⟩
    have hempty : cutFrom Ts ∅ = ∅ := by
      cases Ts with
      | nil => rfl
      | cons T Ts => exact if_pos (dvd_zero _)
    rw [hempty]
    exact result_empty
  · obtain ⟨es, helements, -, hstrings⟩ := setTypeElements_spec hs
    obtain ⟨r₁, hadd, h₁⟩ := sunionDiffElements_add hserver (show SetOp.diff = .union ∨ 0 = 0 from Or.inr rfl) es result_empty
    have hfirst : ∅ ∪ (stringsOf es).toFinset = T := (Finset.empty_union _).trans hstrings
    rw [hfirst] at h₁
    obtain ⟨r', hloop, h'⟩ := diff_rest server hsets 0 h₁
    exact ⟨r', by rw [sunionDiffLoop, helements, bind_some, hadd, bind_some, hloop], h'⟩

theorem replySet_spec (h : s.Represents S) (length : ℤ) :
    ∃ bulks, replySet length s = some (.multibulk length bulks) ∧ bulks.Nodup ∧ bulks.toFinset = S := by
  obtain ⟨es, helements, hnodup, hstrings⟩ := setTypeElements_spec h
  exact ⟨_, by rw [replySet, helements, map_some], hnodup, hstrings⟩

end KVStores.Redis.SetType
