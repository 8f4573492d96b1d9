import Mathlib.Algebra.Order.Ring.Int
import Mathlib.Data.List.Infix

/-!
# Borders

The places of a text at which a prefix of a pattern ends, as the search with a failure table goes through them.
-/

namespace KVStores

open List

variable {α : Type*} {n t : List α} {i j k p q : ℕ} {b c m : ℤ}

/-- The first `k` elements of a pattern end at a place of a text. -/
structure EndsAt (n t : List α) (i k : ℕ) : Prop where
  le_pattern : k ≤ n.length
  le_place : k ≤ i
  suffix : n.take k <:+ t.take i

namespace EndsAt

theorem zero (n t : List α) (i : ℕ) : EndsAt n t i 0 := ⟨Nat.zero_le _, Nat.zero_le _, nil_suffix⟩

theorem trans (h : EndsAt n t i j) (h' : EndsAt n n j k) : EndsAt n t i k :=
  ⟨h'.le_pattern, h'.le_place.trans h.le_place, h'.suffix.trans h.suffix⟩

theorem shorter (h : EndsAt n t i j) (h' : EndsAt n t i k) (hkj : k ≤ j) : EndsAt n n j k := by
  refine ⟨h'.le_pattern, hkj, suffix_of_suffix_length_le h'.suffix h.suffix ?_⟩
  rw [length_take_of_le h'.le_pattern, length_take_of_le h.le_pattern]
  exact hkj

end EndsAt

theorem endsAt_succ (hi : i < t.length) : EndsAt n t (i + 1) (k + 1) ↔ EndsAt n t i k ∧ ∃ h : k < n.length, n[k] = t[i] := by
  constructor
  · intro h
    have hk := h.le_pattern
    have hsuffix := h.suffix
    rw [take_succ_eq_append_getElem hi, take_succ_eq_append_getElem hk, suffix_concat_iff] at hsuffix
    rcases hsuffix with hnil | ⟨s, hs, hsuffix⟩
    · exact absurd hnil (append_ne_nil_of_right_ne_nil _ (cons_ne_nil _ _))
    · obtain ⟨hinit, hlast⟩ := append_inj' hs rfl
      exact ⟨⟨by omega, Nat.le_of_succ_le_succ h.le_place, hinit ▸ hsuffix⟩, hk, head_eq_of_cons_eq hlast⟩
  · rintro ⟨h, hk, heq⟩
    refine ⟨hk, Nat.succ_le_succ h.le_place, ?_⟩
    rw [take_succ_eq_append_getElem hi, take_succ_eq_append_getElem hk, heq, suffix_concat_iff]
    exact Or.inr ⟨_, rfl, h.suffix⟩

/-- The longest prefix of the first `q` elements that ends them as well, without being all of them. -/
def IsFailure (n : List α) (q : ℕ) (b : ℤ) : Prop :=
  (q = 0 ∧ b = -1) ∨ ∃ k : ℕ, b = k ∧ k < q ∧ EndsAt n n q k ∧ ∀ k' < q, EndsAt n n q k' → k' ≤ k

/-- The longest of the prefixes up to a length that end at a place and go on there. -/
structure GoesOn (n t : List α) (i : ℕ) (bound b : ℤ) : Prop where
  le_bound : b ≤ bound
  ends : b = -1 ∨ ∃ k : ℕ, b = k ∧ EndsAt n t (i + 1) (k + 1)
  longest : ∀ k : ℕ, (k : ℤ) ≤ bound → EndsAt n t (i + 1) (k + 1) → (k : ℤ) ≤ b

structure IsLongest (n t : List α) (i k : ℕ) : Prop where
  ends : EndsAt n t i k
  longest : ∀ k', EndsAt n t i k' → k' ≤ k

theorem IsFailure.lt (h : IsFailure n q b) : b < q := by
  rcases h with ⟨rfl, rfl⟩ | ⟨k, rfl, hk, -, -⟩ <;> omega

theorem GoesOn.nothing (n t : List α) (i : ℕ) : GoesOn n t i (-1) (-1) := ⟨le_rfl, Or.inl rfl, fun _ hk _ => by omega⟩

theorem GoesOn.found (h : EndsAt n t (i + 1) (k + 1)) : GoesOn n t i k k := ⟨le_rfl, Or.inr ⟨k, rfl, h⟩, fun _ hk _ => hk⟩

/-- A prefix that does not go on is left for the longest one that ends it. -/
theorem GoesOn.fall (hi : i < t.length) (hends : EndsAt n t i k) (hnot : ¬EndsAt n t (i + 1) (k + 1)) (hfail : IsFailure n k b) (h : GoesOn n t i b c) :
    GoesOn n t i k c := by
  refine ⟨h.le_bound.trans hfail.lt.le, h.ends, fun k' hle hk' => ?_⟩
  have hlt : k' < k := by
    rcases Nat.lt_or_ge k' k with hlt | hge
    · exact hlt
    · obtain rfl : k' = k := by omega
      exact absurd hk' hnot
  refine h.longest k' ?_ hk'
  rcases hfail with ⟨rfl, -⟩ | ⟨m, rfl, -, -, hmax⟩
  · exact absurd hlt (Nat.not_lt_zero _)
  · exact_mod_cast hmax k' hlt (hends.shorter ((endsAt_succ hi).1 hk').1 hlt.le)

/-- **The table is filled** one entry after another. -/
theorem IsFailure.step (hq : q < n.length) (h : IsFailure n q b) (hgo : GoesOn n n q b c) : IsFailure n (q + 1) (c + 1) := by
  have hlt := h.lt
  have hmax : ∀ k' < q + 1, EndsAt n n (q + 1) k' → (k' : ℤ) ≤ c + 1 := by
    intro k' hk' hends
    cases k' with
    | zero =>
      rcases hgo.ends with rfl | ⟨k, rfl, -⟩ <;> omega
    | succ m =>
      have hmb : (m : ℤ) ≤ b := by
        rcases h with ⟨rfl, -⟩ | ⟨k, rfl, -, -, hmax⟩
        · omega
        · exact_mod_cast hmax m (by omega) ((endsAt_succ hq).1 hends).1
      have := hgo.longest m hmb hends
      omega
  have hle := hgo.le_bound
  right
  rcases hgo.ends with rfl | ⟨k, rfl, hk⟩
  · exact ⟨0, rfl, by omega, EndsAt.zero n n _, fun k' hk' hends => by have := hmax k' hk' hends; omega⟩
  · exact ⟨k + 1, by push_cast; rfl, by omega, hk, fun k' hk' hends => by exact_mod_cast hmax k' hk' hends⟩

/-- **The text is read** one element after another. -/
theorem IsLongest.step (hi : i < t.length) (h : IsLongest n t i k) (hgo : GoesOn n t i k b) : ∃ k' : ℕ, b + 1 = k' ∧ IsLongest n t (i + 1) k' := by
  have hmax : ∀ k', EndsAt n t (i + 1) k' → (k' : ℤ) ≤ b + 1 := by
    intro k' hends
    cases k' with
    | zero =>
      rcases hgo.ends with rfl | ⟨m, rfl, -⟩ <;> omega
    | succ m =>
      have hmk := h.longest m ((endsAt_succ hi).1 hends).1
      have := hgo.longest m (by omega) hends
      omega
  rcases hgo.ends with rfl | ⟨m, rfl, hm⟩
  · exact ⟨0, rfl, EndsAt.zero n t _, fun k' hends => by have := hmax k' hends; omega⟩
  · exact ⟨m + 1, by push_cast; rfl, hm, fun k' hends => by exact_mod_cast hmax k' hends⟩

theorem endsAt_length_iff (hi : i ≤ t.length) : EndsAt n t i n.length ↔ n.length ≤ i ∧ n <+: t.drop (i - n.length) := by
  constructor
  · rintro ⟨-, hle, s, hs⟩
    rw [take_length] at hs
    have hlen := congrArg List.length hs
    rw [length_append, length_take_of_le hi] at hlen
    refine ⟨hle, t.drop i, ?_⟩
    have hsplit : t = s ++ (n ++ t.drop i) := by rw [← append_assoc, hs, take_append_drop]
    rw [show i - n.length = s.length by omega]
    conv_rhs => rw [hsplit]
    exact drop_left.symm
  · rintro ⟨hle, s, hs⟩
    refine ⟨le_rfl, hle, t.take (i - n.length), ?_⟩
    rw [take_length]
    have hsplit : t = t.take (i - n.length) ++ (n ++ s) := by rw [hs, take_append_drop]
    have hlen : (t.take (i - n.length) ++ n).length = i := by
      rw [length_append, length_take_of_le (by omega)]
      omega
    conv_rhs => rw [hsplit, ← append_assoc]
    rw [take_append_of_le_length hlen.ge, take_of_length_le hlen.le]

variable [DecidableEq α]

def firstOccurrence (t n : List α) : Option ℕ := (List.range (t.length + 1)).find? fun p => n.isPrefixOf (t.drop p)

theorem firstOccurrence_eq_some : firstOccurrence t n = some p ↔ p ≤ t.length ∧ n <+: t.drop p ∧ ∀ p' < p, ¬n <+: t.drop p' := by
  rw [firstOccurrence, List.find?_range_eq_some, isPrefixOf_iff_prefix, mem_range, Nat.lt_succ_iff]
  simp only [Bool.not_eq_true', ← Bool.not_eq_true, isPrefixOf_iff_prefix]
  exact ⟨fun ⟨h1, h2, h3⟩ => ⟨h2, h1, h3⟩, fun ⟨h1, h2, h3⟩ => ⟨h2, h1, h3⟩⟩

theorem firstOccurrence_eq_none : firstOccurrence t n = none ↔ ∀ p ≤ t.length, ¬n <+: t.drop p := by
  rw [firstOccurrence, List.find?_range_eq_none]
  simp only [Bool.not_eq_true', ← Bool.not_eq_true, isPrefixOf_iff_prefix, Nat.lt_succ_iff]

end KVStores
