import Mathlib.Data.List.Sort
import Mathlib.Data.List.TakeWhile

/-!
# Sets ordered by a key

A `std::set` with a comparator is a list sorted by a key, in which no two elements have the
same key: `insertBy key a l` puts `a` in its place, unless its key is taken.

`mergeBy key base added`: a sorted list with the elements of such a set put into it, each behind
the elements of `base` that are not larger.
-/

namespace KVStores

open List

variable {α β : Type} [LinearOrder β] {key : α → β}

/-- `std::set::insert`. -/
@[grind =] def insertBy (key : α → β) (a : α) : List α → List α
  | [] => [a]
  | b :: l => if key a < key b then a :: b :: l else if key b < key a then b :: insertBy key a l else b :: l

/-- The elements of `added` put into `base`: in front of each go the elements up to
`std::upper_bound`. -/
@[grind =] def mergeBy (key : α → β) : List α → List α → List α
  | base, [] => base
  | base, a :: added =>
    base.takeWhile (fun b => decide (key b ≤ key a)) ++ a :: mergeBy key (base.dropWhile fun b => decide (key b ≤ key a)) added

def KeySorted (key : α → β) (l : List α) : Prop := l.Pairwise fun a b => key a < key b

def KeyOrdered (key : α → β) (l : List α) : Prop := l.Pairwise fun a b => key a ≤ key b

variable {l : List α}

theorem KeySorted.ordered (h : KeySorted key l) : KeyOrdered key l := h.imp fun hab => le_of_lt hab

theorem subset_insertBy (a : α) (l : List α) : ∀ b ∈ l, b ∈ insertBy key a l := by
  induction l with
  | nil => simp
  | cons c l ih =>
    intro b hb
    unfold insertBy
    by_cases h1 : key a < key c
    · rw [if_pos h1]; exact mem_cons_of_mem _ hb
    · rw [if_neg h1]
      by_cases h2 : key c < key a
      · rw [if_pos h2]
        rcases mem_cons.1 hb with rfl | hb
        · exact mem_cons_self
        · exact mem_cons_of_mem _ (ih b hb)
      · rwa [if_neg h2]

variable {a b : α}

theorem mem_of_mem_insertBy (h : b ∈ insertBy key a l) : b = a ∨ b ∈ l := by
  induction l with
  | nil => exact Or.inl (by simpa [insertBy] using h)
  | cons c l ih =>
    unfold insertBy at h
    by_cases h1 : key a < key c
    · rw [if_pos h1] at h
      exact mem_cons.1 h
    · rw [if_neg h1] at h
      by_cases h2 : key c < key a
      · rw [if_pos h2] at h
        rcases mem_cons.1 h with rfl | h
        · exact Or.inr mem_cons_self
        · exact (ih h).imp id (mem_cons_of_mem _)
      · rw [if_neg h2] at h
        exact Or.inr h

theorem exists_key_insertBy (a : α) (l : List α) : ∃ b ∈ insertBy key a l, key b = key a := by
  induction l with
  | nil => exact ⟨a, by simp [insertBy], rfl⟩
  | cons c l ih =>
    unfold insertBy
    by_cases h1 : key a < key c
    · rw [if_pos h1]; exact ⟨a, mem_cons_self, rfl⟩
    · rw [if_neg h1]
      by_cases h2 : key c < key a
      · rw [if_pos h2]
        obtain ⟨b, hb, hk⟩ := ih
        exact ⟨b, mem_cons_of_mem _ hb, hk⟩
      · rw [if_neg h2]
        exact ⟨c, mem_cons_self, le_antisymm (not_lt.1 h1) (not_lt.1 h2)⟩

/-- **Insertion keeps the set sorted.** -/
theorem KeySorted.insertBy (h : KeySorted key l) (a : α) : KeySorted key (insertBy key a l) := by
  induction l with
  | nil => exact pairwise_singleton _ _
  | cons c l ih =>
    obtain ⟨hc, hl⟩ := pairwise_cons.1 h
    unfold KVStores.insertBy
    by_cases h1 : key a < key c
    · rw [if_pos h1]
      refine pairwise_cons.2 ⟨fun b hb => ?_, h⟩
      rcases mem_cons.1 hb with rfl | hb
      · exact h1
      · exact lt_trans h1 (hc b hb)
    · rw [if_neg h1]
      by_cases h2 : key c < key a
      · rw [if_pos h2]
        refine pairwise_cons.2 ⟨fun b hb => ?_, ih hl⟩
        rcases mem_of_mem_insertBy hb with rfl | hb
        · exact h2
        · exact hc b hb
      · rwa [if_neg h2]

/-- **A merge loses nothing.** -/
theorem mergeBy_perm (base added : List α) : (mergeBy key base added).Perm (base ++ added) := by
  induction added generalizing base with
  | nil => rw [mergeBy, append_nil]
  | cons a added ih =>
    refine (List.Perm.append_left _ ((ih _).cons a)).trans ?_
    rw [← cons_append, ← append_assoc]
    refine (List.Perm.append_right _ perm_middle).trans ?_
    rw [takeWhile_append_dropWhile, cons_append]
    exact perm_middle.symm

/-- **A merge is sorted.** -/
theorem mergeBy_ordered {base added : List α} (hb : KeyOrdered key base) (ha : KeyOrdered key added) :
    KeyOrdered key (mergeBy key base added) := by
  induction added generalizing base with
  | nil => rwa [mergeBy]
  | cons a added ih =>
    obtain ⟨haa, ha⟩ := pairwise_cons.1 ha
    have hfront : ∀ b ∈ base.takeWhile (fun b => decide (key b ≤ key a)), key b ≤ key a := fun b hb =>
      of_decide_eq_true (mem_takeWhile_imp (p := fun b => decide (key b ≤ key a)) hb)
    have hback : ∀ b ∈ base.dropWhile (fun b => decide (key b ≤ key a)), key a ≤ key b := by
      -- the first element behind is larger, and so are the others
      intro b hb'
      have hbo : KeyOrdered key (base.dropWhile fun b => decide (key b ≤ key a)) := hb.sublist (dropWhile_sublist _)
      cases hd : base.dropWhile (fun b => decide (key b ≤ key a)) with
      | nil => rw [hd] at hb'; cases hb'
      | cons c l =>
        have hc : ¬key c ≤ key a := by
          have := List.head?_dropWhile_not (fun b => decide (key b ≤ key a)) base
          rw [hd] at this
          simpa using this
        rw [hd] at hb' hbo
        rcases mem_cons.1 hb' with rfl | hb'
        · exact le_of_lt (not_le.1 hc)
        · exact le_trans (le_of_lt (not_le.1 hc)) ((pairwise_cons.1 hbo).1 b hb')
    have hrest : ∀ b ∈ mergeBy key (base.dropWhile fun b => decide (key b ≤ key a)) added, key a ≤ key b := fun b hb' => by
      rcases mem_append.1 ((mergeBy_perm _ _).mem_iff.1 hb') with hb' | hb'
      · exact hback b hb'
      · exact haa b hb'
    refine pairwise_append.2 ⟨hb.sublist (takeWhile_sublist _), pairwise_cons.2 ⟨hrest, ?_⟩, fun b hb' c hc => ?_⟩
    · exact ih (hb.sublist (dropWhile_sublist _)) ha
    · rcases mem_cons.1 hc with rfl | hc
      · exact hfront b hb'
      · exact le_trans (hfront b hb') (hrest c hc)

theorem mergeBy_nil : ∀ (added : List α), mergeBy key [] added = added
  | [] => rfl
  | a :: added => by rw [mergeBy, takeWhile_nil, dropWhile_nil, mergeBy_nil added, nil_append]

theorem KeySorted.nodup (h : KeySorted key l) : l.Nodup :=
  h.imp fun hab heq => absurd (congrArg key heq) (ne_of_lt hab)

/-- **Sets with the same elements are the same lists.** -/
theorem KeySorted.ext {l' : List α} (h : KeySorted key l) (h' : KeySorted key l') (hmem : ∀ a, a ∈ l ↔ a ∈ l') : l = l' :=
  List.Perm.eq_of_pairwise (fun _ _ _ _ hab hba => absurd hab (lt_asymm hba)) h h' ((perm_ext_iff_of_nodup h.nodup h'.nodup).2 hmem)

theorem KeyOrdered.sorted (h : KeyOrdered key l) (hne : l.Pairwise fun a b => key a ≠ key b) : KeySorted key l :=
  (h.and hne).imp fun hab => lt_of_le_of_ne hab.1 hab.2

theorem mem_insertBy (hkey : ∀ c ∈ l, key c = key a → c = a) : b ∈ insertBy key a l ↔ b = a ∨ b ∈ l := by
  refine ⟨mem_of_mem_insertBy, ?_⟩
  rintro (rfl | hb)
  · obtain ⟨c, hc, hk⟩ := @exists_key_insertBy _ _ _ key b l
    rcases mem_of_mem_insertBy hc with rfl | hcl
    · exact hc
    · exact hkey c hcl hk ▸ hc
  · exact subset_insertBy a l b hb

theorem foldl_insertBy : ∀ (as : List α) {l : List α}, KeySorted key l → (∀ a ∈ as ++ l, ∀ c ∈ as ++ l, key c = key a → c = a) →
    KeySorted key (as.foldl (fun l a => insertBy key a l) l) ∧ ∀ b, b ∈ as.foldl (fun l a => insertBy key a l) l ↔ b ∈ as ∨ b ∈ l
  | [], l, h, _ => ⟨h, fun b => by simp⟩
  | a :: as, l, h, hkey => by
    have hmem : ∀ b, b ∈ insertBy key a l ↔ b = a ∨ b ∈ l := fun b =>
      mem_insertBy fun c hc hk => hkey a mem_cons_self c (mem_append_right _ hc) hk
    have hsub : ∀ b ∈ as ++ insertBy key a l, b ∈ a :: as ++ l := by
      intro b hb
      rcases mem_append.1 hb with hb | hb
      · exact mem_append_left _ (mem_cons_of_mem _ hb)
      · rcases (hmem b).1 hb with rfl | hb
        · exact mem_cons_self
        · exact mem_append_right _ hb
    obtain ⟨h1, h2⟩ := foldl_insertBy as (h.insertBy a) fun b hb c hc => hkey b (hsub b hb) c (hsub c hc)
    refine ⟨h1, fun b => ?_⟩
    rw [foldl_cons, h2, hmem, mem_cons]
    tauto

end KVStores
