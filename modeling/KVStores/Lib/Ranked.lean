import Mathlib.Data.List.Basic
import Mathlib.Order.Basic
import Mathlib.Data.Int.Order.Basic

/-!
# Comparisons that are total orders

A comparison function of C that makes a total order on the elements of a list is a comparison of their ranks: of how many elements are less.
-/

namespace KVStores

open List

variable {α : Type*} {cmp : α → α → ℤ} {l : List α} {x y : α}

/-- A comparison makes a total order, in which some elements may be equal. -/
structure TotalOn (cmp : α → α → ℤ) (l : List α) : Prop where
  flip : ∀ x ∈ l, ∀ y ∈ l, cmp x y < 0 ↔ 0 < cmp y x
  trans : ∀ x ∈ l, ∀ y ∈ l, ∀ z ∈ l, cmp x y ≤ 0 → cmp y z ≤ 0 → cmp x z ≤ 0

def rank (cmp : α → α → ℤ) (l : List α) (x : α) : ℕ := l.countP fun z => decide (cmp z x < 0)

theorem TotalOn.lt_of_le (h : TotalOn cmp l) {z : α} (hx : x ∈ l) (hy : y ∈ l) (hz : z ∈ l) (hzx : cmp z x < 0) (hxy : cmp x y ≤ 0) : cmp z y < 0 := by
  by_contra hnot
  have hyz : cmp y z ≤ 0 := by
    rw [h.flip z hz y hy] at hnot
    omega
  have hxz := h.trans x hx y hy z hz hxy hyz
  rw [h.flip z hz x hx] at hzx
  omega

theorem TotalOn.rank_mono (h : TotalOn cmp l) (hx : x ∈ l) (hy : y ∈ l) (hxy : cmp x y ≤ 0) : rank cmp l x ≤ rank cmp l y :=
  countP_mono_left fun _ hz hzx => decide_eq_true (h.lt_of_le hx hy hz (of_decide_eq_true hzx) hxy)

/-- **The comparison is that of the ranks.** -/
theorem TotalOn.rank_lt_iff (h : TotalOn cmp l) (hx : x ∈ l) (hy : y ∈ l) : rank cmp l x < rank cmp l y ↔ cmp x y < 0 := by
  constructor
  · intro hlt
    by_contra hnot
    have hyx : cmp y x ≤ 0 := by
      rw [h.flip x hx y hy] at hnot
      omega
    exact absurd (h.rank_mono hy hx hyx) (Nat.not_le.2 hlt)
  · intro hlt
    -- the element itself is less than the other one, but not than itself
    have hself : ¬ cmp x x < 0 := by
      intro hc
      have := (h.flip x hx x hx).1 hc
      omega
    obtain ⟨l₁, l₂, hl⟩ := append_of_mem hx
    have hmono : ∀ m : List α, (∀ z ∈ m, z ∈ l) → (m.countP fun z => decide (cmp z x < 0)) ≤ m.countP fun z => decide (cmp z y < 0) :=
      fun m hm => countP_mono_left fun z hz hzx => decide_eq_true (h.lt_of_le hx hy (hm z hz) (of_decide_eq_true hzx) hlt.le)
    have h₁ := hmono l₁ fun z hz => hl ▸ mem_append_left _ hz
    have h₂ := hmono l₂ fun z hz => hl ▸ mem_append_right _ (mem_cons_of_mem x hz)
    have hcount : ∀ w, rank cmp l w = (l₁.countP fun z => decide (cmp z w < 0)) + ((l₂.countP fun z => decide (cmp z w < 0)) + if cmp x w < 0 then 1 else 0) := by
      intro w
      rw [rank, hl, countP_append, countP_cons]
      simp only [decide_eq_true_eq]
    rw [hcount x, hcount y, if_neg hself, if_pos hlt]
    omega

theorem TotalOn.rank_eq_iff (h : TotalOn cmp l) (hx : x ∈ l) (hy : y ∈ l) : rank cmp l x = rank cmp l y ↔ cmp x y = 0 := by
  have h₁ := h.rank_lt_iff hx hy
  have h₂ := h.rank_lt_iff hy hx
  have h₄ := h.flip y hy x hx
  omega

/-- **The elements sorted by the comparison are in the order of their ranks.** -/
theorem TotalOn.mergeSort_ranked (h : TotalOn cmp l) :
    (l.mergeSort fun a b => decide (cmp a b ≤ 0)).Pairwise fun a b => rank cmp l a ≤ rank cmp l b := by
  have hsame : (l.mergeSort fun a b => decide (cmp a b ≤ 0)) = l.mergeSort fun a b => decide (rank cmp l a ≤ rank cmp l b) := by
    have hcongr := map_mergeSort (f := id) (l := l) (r := fun a b => decide (cmp a b ≤ 0)) (s := fun a b => decide (rank cmp l a ≤ rank cmp l b))
      fun a ha b hb => by
        have hlt := h.rank_lt_iff hb ha
        have hflip := h.flip b hb a ha
        simp only [id_eq, decide_eq_decide]
        omega
    rwa [List.map_id, List.map_id] at hcongr
  rw [hsame]
  refine (pairwise_mergeSort (fun a b c hab hbc => ?_) (fun a b => ?_) l).imp of_decide_eq_true
  · exact decide_eq_true (Nat.le_trans (of_decide_eq_true hab) (of_decide_eq_true hbc))
  · rw [Bool.or_eq_true, decide_eq_true_iff, decide_eq_true_iff]
    exact Nat.le_total _ _

end KVStores
