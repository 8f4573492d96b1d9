import Mathlib.Order.Interval.Finset.Nat

/-!
# Rearranged segments

A sequence whose elements were moved about in one segment, and the places of it that are arranged already: nothing before such a place is
greater, and nothing behind it is less.

* `Arranged.agree`: **two sequences of the same elements agree where both are arranged**, whatever is elsewhere.
-/

namespace KVStores

open List

variable {α : Type*} {v v' v'' : ℕ → α} {lo hi lo' hi' : ℕ}

/-- The elements of a segment, from `lo` up to `hi`, were moved about. -/
def Rearranges (lo hi : ℕ) (v v' : ℕ → α) : Prop := ∃ σ : Equiv.Perm ℕ, (∀ i, i < lo ∨ hi ≤ i → σ i = i) ∧ v' = fun i => v (σ i)

namespace Rearranges

theorem refl (lo hi : ℕ) (v : ℕ → α) : Rearranges lo hi v v := ⟨Equiv.refl ℕ, fun _ _ => rfl, rfl⟩

theorem trans (h : Rearranges lo hi v v') (h' : Rearranges lo hi v' v'') : Rearranges lo hi v v'' := by
  obtain ⟨σ, hσ, rfl⟩ := h
  obtain ⟨τ, hτ, rfl⟩ := h'
  refine ⟨τ.trans σ, fun i hi => ?_, rfl⟩
  rw [Equiv.trans_apply, hτ i hi, hσ i hi]

theorem mono (h : Rearranges lo hi v v') (hlo : lo' ≤ lo) (hhi : hi ≤ hi') : Rearranges lo' hi' v v' := by
  obtain ⟨σ, hσ, rfl⟩ := h
  exact ⟨σ, fun i hi => hσ i (by omega), rfl⟩

theorem swap {i j : ℕ} (h : lo ≤ i ∧ i < hi) (h' : lo ≤ j ∧ j < hi) : Rearranges lo hi v fun k => v (Equiv.swap i j k) :=
  ⟨Equiv.swap i j, fun _ hk => Equiv.swap_apply_of_ne_of_ne (by omega) (by omega), rfl⟩

theorem outside (h : Rearranges lo hi v v') {i : ℕ} (hout : i < lo ∨ hi ≤ i) : v' i = v i := by
  obtain ⟨σ, hσ, rfl⟩ := h
  exact congrArg v (hσ i hout)

theorem inside (h : Rearranges lo hi v v') {i : ℕ} (hlo : lo ≤ i) (hhi : i < hi) : ∃ j, lo ≤ j ∧ j < hi ∧ v' i = v j := by
  obtain ⟨σ, hσ, rfl⟩ := h
  refine ⟨σ i, ?_, ?_, rfl⟩
  · by_contra hlt
    have := σ.injective (hσ (σ i) (Or.inl (by omega)))
    omega
  · by_contra hge
    have := σ.injective (hσ (σ i) (Or.inr (by omega)))
    omega

theorem forall_inside (h : Rearranges lo hi v v') {p : α → Prop} (hp : ∀ i, lo ≤ i → i < hi → p (v i)) : ∀ i, lo ≤ i → i < hi → p (v' i) := by
  intro i hlo hhi
  obtain ⟨j, h1, h2, heq⟩ := h.inside hlo hhi
  rw [heq]
  exact hp j h1 h2

theorem perm {n : ℕ} (h : Rearranges 0 n v v') : ((List.range n).map v').Perm ((List.range n).map v) := by
  obtain ⟨σ, hσ, rfl⟩ := h
  have hrange : ((List.range n).map σ).Perm (List.range n) := by
    refine (perm_ext_iff_of_nodup (nodup_range.map σ.injective) nodup_range).2 fun k => ?_
    rw [List.mem_map, mem_range]
    constructor
    · rintro ⟨i, hi, rfl⟩
      rw [mem_range] at hi
      by_contra hge
      have := σ.injective (hσ (σ i) (Or.inr (by omega)))
      omega
    · intro hk
      refine ⟨σ.symm k, mem_range.2 ?_, σ.apply_symm_apply k⟩
      by_contra hge
      have := hσ (σ.symm k) (Or.inr (by omega))
      rw [σ.apply_symm_apply] at this
      omega
  have hmap := hrange.map v
  rwa [List.map_map] at hmap

end Rearranges

variable {κ : Type*} [LinearOrder κ] {w w' : ℕ → κ} {n k : ℕ}

/-- Nothing before a place of a segment is greater, and nothing behind it is less. -/
def Arranged (w : ℕ → κ) (lo hi k : ℕ) : Prop := (∀ i, lo ≤ i → i < k → w i ≤ w k) ∧ ∀ j, k < j → j < hi → w k ≤ w j

theorem Arranged.congr (h : Arranged w lo hi k) (heq : ∀ i, lo ≤ i → i < hi → w' i = w i) (hlo : lo ≤ k) (hhi : k < hi) : Arranged w' lo hi k := by
  refine ⟨fun i h1 h2 => ?_, fun j h1 h2 => ?_⟩
  · rw [heq i h1 (by omega), heq k hlo hhi]
    exact h.1 i h1 h2
  · rw [heq j (by omega) h2, heq k hlo hhi]
    exact h.2 j h1 h2

/-- A place in a segment of three parts, each with greater elements than the one before, the elements of the middle one all the same. -/
theorem Arranged.join {m₁ m₂ : ℕ} {x : κ} (hlow : ∀ i, lo ≤ i → i < m₁ → w i < x) (hmid : ∀ i, m₁ ≤ i → i < m₂ → w i = x)
    (hhigh : ∀ i, m₂ ≤ i → i < hi → x < w i) (h₁ : lo ≤ k → k < m₁ → Arranged w lo m₁ k) (h₂ : m₂ ≤ k → k < hi → Arranged w m₂ hi k)
    (hlo : lo ≤ k) (hhi : k < hi) : Arranged w lo hi k := by
  have hbelow : ∀ i, lo ≤ i → i < m₂ → w i ≤ x := by
    intro i h1 h2
    rcases Nat.lt_or_ge i m₁ with h | h
    · exact (hlow i h1 h).le
    · exact (hmid i h h2).le
  have habove : ∀ i, m₁ ≤ i → i < hi → x ≤ w i := by
    intro i h1 h2
    rcases Nat.lt_or_ge i m₂ with h | h
    · exact (hmid i h1 h).ge
    · exact (hhigh i h h2).le
  rcases Nat.lt_or_ge k m₁ with hk₁ | hk₁
  · refine ⟨(h₁ hlo hk₁).1, fun j h1 h2 => ?_⟩
    rcases Nat.lt_or_ge j m₁ with hj | hj
    · exact (h₁ hlo hk₁).2 j h1 hj
    · exact (hlow k hlo hk₁).le.trans (habove j hj h2)
  rcases Nat.lt_or_ge k m₂ with hk₂ | hk₂
  · rw [Arranged, hmid k hk₁ hk₂]
    exact ⟨fun i h1 h2 => hbelow i h1 (by omega), fun j h1 h2 => habove j (by omega) h2⟩
  · refine ⟨fun i h1 h2 => ?_, (h₂ hk₂ hhi).2⟩
    rcases Nat.lt_or_ge i m₂ with hi | hi
    · exact (hbelow i h1 hi).trans (hhigh k hk₂ hhi).le
    · exact (h₂ hk₂ hhi).1 i hi h2

theorem Arranged.of_sorted (h : ∀ i j, lo ≤ i → i ≤ j → j < hi → w i ≤ w j) (hlo : lo ≤ k) (hhi : k < hi) : Arranged w lo hi k :=
  ⟨fun i h1 h2 => h i k h1 h2.le hhi, fun j h1 h2 => h k j hlo h1.le h2⟩

theorem Arranged.card_lt (h : Arranged w 0 n k) : {i ∈ Finset.range n | w i < w k}.card ≤ k := by
  have hsub : {i ∈ Finset.range n | w i < w k} ⊆ Finset.range k := by
    intro i hi
    obtain ⟨hin, hlt⟩ := Finset.mem_filter.1 hi
    rw [Finset.mem_range] at hin ⊢
    by_contra hge
    rcases Nat.lt_or_ge k i with hki | hki
    · exact absurd (h.2 i hki hin) (not_le.2 hlt)
    · rw [Nat.le_antisymm hki (not_lt.1 hge)] at hlt
      exact lt_irrefl _ hlt
  simpa only [Finset.card_range] using Finset.card_le_card hsub

theorem Arranged.card_le (h : Arranged w 0 n k) (hk : k < n) : k + 1 ≤ {i ∈ Finset.range n | w i ≤ w k}.card := by
  have hsub : Finset.range (k + 1) ⊆ {i ∈ Finset.range n | w i ≤ w k} := by
    intro i hi
    rw [Finset.mem_range] at hi
    refine Finset.mem_filter.2 ⟨Finset.mem_range.2 (by omega), ?_⟩
    rcases Nat.lt_or_ge i k with hik | hik
    · exact h.1 i (Nat.zero_le i) hik
    · rw [show i = k by omega]
  simpa only [Finset.card_range] using Finset.card_le_card hsub

omit [LinearOrder κ] in
theorem card_filter_range (w : ℕ → κ) (n : ℕ) (p : κ → Prop) [DecidablePred p] :
    {i ∈ Finset.range n | p (w i)}.card = ((List.range n).map w).countP fun x => decide (p x) := by
  rw [countP_map, countP_eq_length_filter]
  rfl

theorem Arranged.le_of_perm (h : Arranged w 0 n k) (h' : Arranged w' 0 n k) (hp : ((List.range n).map w).Perm ((List.range n).map w')) (hk : k < n) :
    w k ≤ w' k := by
  by_contra hlt
  rw [not_le] at hlt
  have hmany := h'.card_le hk
  have hfew := h.card_lt
  rw [card_filter_range w' n (· ≤ w' k), ← hp.countP_eq, ← card_filter_range w n (· ≤ w' k)] at hmany
  have hsub : {i ∈ Finset.range n | w i ≤ w' k} ⊆ {i ∈ Finset.range n | w i < w k} :=
    fun i hi => Finset.mem_filter.2 ⟨(Finset.mem_filter.1 hi).1, lt_of_le_of_lt (Finset.mem_filter.1 hi).2 hlt⟩
  have := Finset.card_le_card hsub
  omega

theorem Arranged.agree (h : Arranged w 0 n k) (h' : Arranged w' 0 n k) (hp : ((List.range n).map w).Perm ((List.range n).map w')) (hk : k < n) :
    w k = w' k := le_antisymm (h.le_of_perm h' hp hk) (h'.le_of_perm h hp.symm hk)

end KVStores
