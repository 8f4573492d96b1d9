import Mathlib.Data.List.Perm.Basic
import Mathlib.Data.List.Pairwise

/-!
# Maps as bags of entries

A finite map as a list of entries in any order, no two of which have the same key. Keys are
compared by a function that may take different keys for the same.
-/

namespace KVStores

open List Option

/-- A comparison that tells which keys are the same. -/
structure KeyEquiv {K : Type} (same : K → K → Bool) : Prop where
  refl : ∀ a, same a a = true
  symm : ∀ a b, same a b = true → same b a = true
  trans : ∀ a b c, same a b = true → same b c = true → same a c = true

variable {K V : Type} {same : K → K → Bool} {k k' : K} {e : K × V} {l l' : List (K × V)}

def DistinctKeys (same : K → K → Bool) (l : List (K × V)) : Prop := l.Pairwise fun a b => same a.1 b.1 = false

def lookup (same : K → K → Bool) (k : K) (l : List (K × V)) : Option V := (l.find? fun e => same k e.1).map Prod.snd

theorem lookup_eq_none : lookup same k l = none ↔ ∀ e ∈ l, same k e.1 = false := by
  unfold lookup
  rw [map_eq_none_iff, List.find?_eq_none]
  exact forall₂_congr fun e _ => Bool.eq_false_iff.symm

theorem KeyEquiv.symm_false (h : KeyEquiv same) {a b : K} (hab : same a b = false) : same b a = false := by
  by_contra hc
  rw [h.symm b a (Bool.not_eq_false _ ▸ hc)] at hab
  cases hab

theorem KeyEquiv.congr (h : KeyEquiv same) (hk : same k k' = true) (a : K) : same k a = same k' a := by
  cases ha : same k' a with
  | true => exact h.trans k k' a hk ha
  | false =>
    by_contra hc
    rw [h.trans k' k a (h.symm k k' hk) (Bool.not_eq_false _ ▸ hc)] at ha
    cases ha

theorem DistinctKeys.perm (hs : KeyEquiv same) (h : DistinctKeys same l) (hp : l.Perm l') : DistinctKeys same l' :=
  (hp.pairwise_iff fun {_ _} hab => hs.symm_false hab).1 h

theorem DistinctKeys.set (h : DistinctKeys same (e :: l)) (v : V) : DistinctKeys same ((e.1, v) :: l) :=
  pairwise_cons.2 ⟨(pairwise_cons.1 h).1, (pairwise_cons.1 h).2⟩

theorem lookup_eq_some (hs : KeyEquiv same) (h : DistinctKeys same l) {v : V} :
    lookup same k l = some v ↔ ∃ e ∈ l, same k e.1 = true ∧ e.2 = v := by
  unfold lookup
  rw [map_eq_some_iff]
  constructor
  · rintro ⟨e, he, rfl⟩
    exact ⟨e, List.mem_of_find?_eq_some he, List.find?_some (p := fun e : K × V => same k e.1) he, rfl⟩
  · rintro ⟨e, he, hk, rfl⟩
    refine ⟨e, ?_, rfl⟩
    obtain ⟨x, y, rfl⟩ := append_of_mem he
    refine List.find?_eq_some_iff_append.2 ⟨hk, x, y, rfl, fun a ha => ?_⟩
    have hne := (pairwise_append.1 h).2.2 a ha e mem_cons_self
    rw [Bool.not_eq_true', ← Bool.not_eq_true]
    intro hka
    rw [hs.trans a.1 k e.1 (hs.symm k a.1 hka) hk] at hne
    cases hne

theorem lookup_perm (hs : KeyEquiv same) (h : DistinctKeys same l) (hp : l.Perm l') : lookup same k l = lookup same k l' := by
  have h' := h.perm hs hp
  apply Option.ext
  intro v
  rw [lookup_eq_some hs h, lookup_eq_some hs h']
  simp only [hp.mem_iff]

theorem lookup_cons : lookup same k (e :: l) = if same k e.1 = true then some e.2 else lookup same k l := by
  unfold lookup
  rw [List.find?_cons]
  cases same k e.1 <;> rfl

theorem lookup_erase (hs : KeyEquiv same) (h : DistinctKeys same l) (hp : l.Perm (e :: l')) :
    lookup same k l' = if same k e.1 = true then none else lookup same k l := by
  rw [lookup_perm hs h hp, lookup_cons]
  by_cases hk : same k e.1 = true
  · rw [if_pos hk, lookup_eq_none]
    intro a ha
    have hne := (pairwise_cons.1 (h.perm hs hp)).1 a ha
    rwa [hs.congr hk a.1]
  · rw [if_neg hk, if_neg hk]

theorem lookup_set (hs : KeyEquiv same) (h : DistinctKeys same l) (hp : l.Perm (e :: l')) (v : V) :
    lookup same k ((e.1, v) :: l') = if same k e.1 = true then some v else lookup same k l := by
  rw [lookup_cons, lookup_erase hs h hp]
  by_cases hk : same k e.1 = true
  · rw [if_pos hk, if_pos hk]
  · rw [if_neg hk, if_neg hk, if_neg hk]

theorem lookup_congr (hs : KeyEquiv same) (hk : same k k' = true) : lookup same k l = lookup same k' l := by
  unfold lookup
  have : (fun e : K × V => same k e.1) = fun e => same k' e.1 := funext fun e => hs.congr hk e.1
  rw [this]

end KVStores
