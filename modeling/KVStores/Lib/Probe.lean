import Mathlib.Algebra.Order.BigOperators.Group.Finset

/-!
# Circular probing

A table of `n` slots; a slot holds the home of its element, or nothing. An element is found by
probing from its home over slots that hold something, around the end of the table.

A deletion leaves a hole, and the elements behind it move up. `Scan` is the invariant of the scan
for the next one that must: what is behind the hole up to where the scan is need not move.
-/

namespace KVStores.Probe

open Option Function

variable {n h l c p k m : ℕ} {s : ℕ → Option ℕ}

def ahead (n x y : ℕ) : ℕ := if x ≤ y then y - x else y + n - x

theorem ahead_lt (hx : h < n) (hy : p < n) : ahead n h p < n := by
  unfold ahead
  split_ifs <;> omega

theorem add_ahead (hx : h < n) (hy : p < n) : (h + ahead n h p) % n = p := by
  unfold ahead
  split_ifs with hle
  · rw [Nat.add_sub_cancel' hle, Nat.mod_eq_of_lt hy]
  · rw [Nat.add_sub_cancel' (by omega), Nat.add_mod_right, Nat.mod_eq_of_lt hy]

theorem ahead_add (hx : h < n) (hk : k < n) : ahead n h ((h + k) % n) = k := by
  by_cases hwrap : h + k < n
  · rw [Nat.mod_eq_of_lt hwrap, ahead, if_pos (Nat.le_add_right h k), Nat.add_sub_cancel_left]
  · have hmod : (h + k) % n = h + k - n := by
      rw [Nat.mod_eq_sub_mod (not_lt.1 hwrap), Nat.mod_eq_of_lt (by omega)]
    rw [hmod, ahead, if_neg (by omega)]
    omega

theorem ahead_self : ahead n h h = 0 := by rw [ahead, if_pos le_rfl, Nat.sub_self]

theorem ahead_sub (hh : h < n) (hl : l < n) (hle : ahead n l c ≤ ahead n h c) : ahead n h l + ahead n l c = ahead n h c := by
  unfold ahead at *
  split_ifs at * <;> omega

theorem ahead_le_iff (hh : h < n) (hl : l < n) (hne : c ≠ l) :
    ahead n l c ≤ ahead n h c ↔ (l < c ∧ (h ≤ l ∨ c < h)) ∨ (c < l ∧ h ≤ l ∧ c < h) := by
  unfold ahead
  split_ifs <;> omega

/-- A slot is found by probing from `h` over slots with `ok`. -/
def Reach (n : ℕ) (ok : ℕ → Prop) (h p : ℕ) : Prop := ∃ k, p = (h + k) % n ∧ ∀ i ≤ k, ok ((h + i) % n)

def Probed (n : ℕ) (s : ℕ → Option ℕ) : Prop :=
  ∀ p < n, ∀ h, s p = some h → h < n ∧ Reach n (fun q => s q ≠ none) h p

theorem Reach.short {ok : ℕ → Prop} (hr : Reach n ok h p) (hh : h < n) : ∀ i ≤ ahead n h p, ok ((h + i) % n) := by
  obtain ⟨k, rfl, hok⟩ := hr
  have hk : ahead n h ((h + k) % n) = k % n := by
    rw [← Nat.add_mod_mod]
    exact ahead_add hh (Nat.mod_lt k (by omega))
  intro i hi
  exact hok i (hi.trans (hk.trans_le (Nat.mod_le k n)))

theorem reach_of_short {ok : ℕ → Prop} (hh : h < n) (hp : p < n) (hok : ∀ i ≤ ahead n h p, ok ((h + i) % n)) : Reach n ok h p :=
  ⟨ahead n h p, (add_ahead hh hp).symm, hok⟩

/-- **The scan of a table with a hole at** `l`: it is `j` slots behind the hole, and no element before it has its home so far in
front that the hole is on the way. -/
structure Scan (n : ℕ) (s : ℕ → Option ℕ) (l j : ℕ) : Prop where
  lt : l < n
  hole : s l = none
  pos : 0 < j
  le : j ≤ n
  reach : ∀ p < n, ∀ h, s p = some h → h < n ∧ Reach n (fun q => s q ≠ none ∨ q = l) h p
  behind : ∀ m, 0 < m → m < j → ∃ h, s ((l + m) % n) = some h ∧ ahead n h ((l + m) % n) < m

theorem Probed.scan (hs : Probed n s) (hl : l < n) : Scan n (Function.update s l none) l 1 where
  lt := hl
  hole := update_self l none s
  pos := Nat.one_pos
  le := Nat.one_le_iff_ne_zero.2 (by omega)
  reach := by
    intro p hp h hsome
    have hne : p ≠ l := by
      rintro rfl
      rw [update_self] at hsome
      exact absurd hsome.symm (some_ne_none _)
    rw [update_of_ne hne] at hsome
    obtain ⟨hh, k, hk, hok⟩ := hs p hp h hsome
    refine ⟨hh, k, hk, fun i hi => ?_⟩
    by_cases hq : (h + i) % n = l
    · exact Or.inr hq
    · left
      rw [update_of_ne hq]
      exact hok i hi
  behind := fun m h1 h2 => absurd h1 (by omega)

/-- **An element goes into the first slot with nothing** from its home on. -/
theorem Probed.put (hs : Probed n s) (hh : h < n) (hm : ∀ i < m, s ((h + i) % n) ≠ none) :
    Probed n (Function.update s ((h + m) % n) (some h)) := by
  have hok : ∀ q, s q ≠ none ∨ q = (h + m) % n → Function.update s ((h + m) % n) (some h) q ≠ none := by
    intro q hq
    by_cases hqm : q = (h + m) % n
    · rw [hqm, update_self]
      exact some_ne_none h
    · rw [update_of_ne hqm]
      exact hq.resolve_right hqm
  intro p hp h' hsome
  by_cases hpm : p = (h + m) % n
  · rw [hpm, update_self] at hsome
    obtain rfl := Option.some.inj hsome
    refine ⟨hh, m, hpm, fun i hi => hok _ ?_⟩
    rcases Nat.lt_or_eq_of_le hi with hlt | rfl
    · exact Or.inl (hm i hlt)
    · exact Or.inr rfl
  · rw [update_of_ne hpm] at hsome
    obtain ⟨hh', k, hk, hpass⟩ := hs p hp h' hsome
    exact ⟨hh', k, hk, fun i hi => hok _ (Or.inl (hpass i hi))⟩

namespace Scan

variable {j : ℕ}

theorem at_lt (hs : Scan n s l j) : (l + j) % n < n := Nat.mod_lt _ (Nat.zero_lt_of_lt hs.lt)

theorem at_hole (hs : Scan n s l j) : (l + j) % n = l ↔ j = n := by
  constructor
  · intro heq
    by_contra hne
    have hj := ahead_add hs.lt (lt_of_le_of_ne hs.le hne)
    rw [heq, ahead_self] at hj
    exact absurd hs.pos (hj ▸ lt_irrefl 0)
  · rintro rfl
    rw [Nat.add_mod_right, Nat.mod_eq_of_lt hs.lt]

theorem ahead_at (hs : Scan n s l j) (hne : (l + j) % n ≠ l) : ahead n l ((l + j) % n) = j :=
  ahead_add hs.lt (lt_of_le_of_ne hs.le fun hj => hne (hs.at_hole.2 hj))

theorem stay (hs : Scan n s l j) (hne : (l + j) % n ≠ l) (hc : s ((l + j) % n) = some h)
    (hnear : ahead n h ((l + j) % n) < ahead n l ((l + j) % n)) : Scan n s l (j + 1) where
  lt := hs.lt
  hole := hs.hole
  pos := Nat.succ_pos j
  le := Nat.succ_le_of_lt (lt_of_le_of_ne hs.le fun hj => hne (hs.at_hole.2 hj))
  reach := hs.reach
  behind := by
    intro m h1 h2
    rcases Nat.lt_succ_iff_lt_or_eq.1 h2 with hlt | rfl
    · exact hs.behind m h1 hlt
    · exact ⟨h, hc, hnear.trans_eq (hs.ahead_at hne)⟩

theorem move (hs : Scan n s l j) (hne : (l + j) % n ≠ l) (hc : s ((l + j) % n) = some h)
    (hfar : ahead n l ((l + j) % n) ≤ ahead n h ((l + j) % n)) :
    Scan n (Function.update (Function.update s l (some h)) ((l + j) % n) none) ((l + j) % n) 1 where
  lt := hs.at_lt
  hole := update_self ((l + j) % n) none (Function.update s l (some h))
  pos := Nat.one_pos
  le := Nat.one_le_iff_ne_zero.2 (Nat.ne_of_gt (Nat.zero_lt_of_lt hs.lt))
  reach := by
    obtain ⟨c, hcdef⟩ : ∃ c, (l + j) % n = c := ⟨_, rfl⟩
    have hcn := hs.at_lt
    rw [hcdef] at hne hc hfar hcn ⊢
    -- what could be passed before can be passed now
    have hpass : ∀ q, s q ≠ none ∨ q = l → Function.update (Function.update s l (some h)) c none q ≠ none ∨ q = c := by
      intro q hq
      by_cases hqc : q = c
      · exact Or.inr hqc
      · left
        rw [update_of_ne hqc]
        by_cases hql : q = l
        · rw [hql, update_self]
          exact some_ne_none h
        · rw [update_of_ne hql]
          exact hq.resolve_right hql
    intro p hp h' hsome
    have hpc : p ≠ c := by
      rintro rfl
      rw [update_self] at hsome
      exact absurd hsome.symm (some_ne_none _)
    rw [update_of_ne hpc] at hsome
    by_cases hpl : p = l
    · -- the element that moves: its way ends earlier
      subst hpl
      rw [update_self] at hsome
      obtain rfl := Option.some.inj hsome
      obtain ⟨hh, hr⟩ := hs.reach c hcn h hc
      refine ⟨hh, reach_of_short hh hp fun i hi => hpass _ (hr.short hh i ?_)⟩
      have hsum := ahead_sub hh hp hfar
      omega
    · rw [update_of_ne hpl] at hsome
      obtain ⟨hh, k, hk, hok⟩ := hs.reach p hp h' hsome
      exact ⟨hh, k, hk, fun i hi => hpass _ (hok i hi)⟩
  behind := fun m h1 h2 => absurd h1 (by omega)

/-- **The scan ends** at a slot with nothing, or at the hole itself, and every element is found. -/
theorem probed (hs : Scan n s l j) (hend : s ((l + j) % n) = none) : Probed n s := by
  intro p hp h hsome
  obtain ⟨hh, hr⟩ := hs.reach p hp h hsome
  refine ⟨hh, reach_of_short hh hp fun i hi => ?_⟩
  have hok := hr.short hh
  refine (hok i hi).resolve_right fun hil => ?_
  -- the hole is on the way, so the element is behind it
  have hpl : p ≠ l := by
    rintro rfl
    rw [hs.hole] at hsome
    exact absurd hsome.symm (some_ne_none _)
  have hm : (l + (ahead n h p - i)) % n = p := by
    rw [← hil, Nat.mod_add_mod, Nat.add_assoc, Nat.add_sub_cancel' hi, add_ahead hh hp]
  have hpos : 0 < ahead n h p - i := by
    by_contra hzero
    rw [Nat.eq_zero_of_not_pos hzero, Nat.add_zero, Nat.mod_eq_of_lt hs.lt] at hm
    exact hpl hm.symm
  by_cases hmj : ahead n h p - i < j
  · obtain ⟨h', hsome', hnear⟩ := hs.behind _ hpos hmj
    rw [hm, hsome] at hsome'
    obtain rfl := Option.some.inj hsome'
    rw [hm] at hnear
    omega
  · -- the slot with nothing is on the way as well
    have hj := ahead_lt hh hp
    have hat : (h + (i + j)) % n = (l + j) % n := by rw [← Nat.add_assoc, ← Nat.mod_add_mod, hil]
    rcases hok (i + j) (by omega) with hsome' | hback
    · rw [hat] at hsome'
      exact hsome' hend
    · rw [hat, hs.at_hole] at hback
      omega

end Scan

def distance (n : ℕ) (s : ℕ → Option ℕ) (p : ℕ) : ℕ := (s p).elim 0 fun h => ahead n h p

def distances (n : ℕ) (s : ℕ → Option ℕ) : ℕ := ∑ p ∈ Finset.range n, distance n s p

theorem distances_le (hs : ∀ p < n, ∀ h, s p = some h → h < n) : distances n s ≤ n * n := by
  have hterm : ∀ p ∈ Finset.range n, distance n s p ≤ n := by
    intro p hp
    unfold distance
    cases hsome : s p with
    | none => exact Nat.zero_le n
    | some h => exact (ahead_lt (hs p (Finset.mem_range.1 hp) h hsome) (Finset.mem_range.1 hp)).le
  exact (Finset.sum_le_card_nsmul _ _ n hterm).trans_eq (by rw [Finset.card_range]; rfl)

theorem distances_move (hl : l < n) (hc : c < n) (hlc : l ≠ c) (hhole : s l = none) (hsome : s c = some h) (hnear : ahead n h l < ahead n h c) :
    distances n (Function.update (Function.update s l (some h)) c none) < distances n s := by
  have hsplit : ∀ f : ℕ → ℕ, ∑ p ∈ Finset.range n, f p = f l + (f c + ∑ p ∈ ((Finset.range n).erase l).erase c, f p) := by
    intro f
    rw [Finset.add_sum_erase _ _ (Finset.mem_erase.2 ⟨hlc.symm, Finset.mem_range.2 hc⟩), Finset.add_sum_erase _ _ (Finset.mem_range.2 hl)]
  have hrest : ∑ p ∈ ((Finset.range n).erase l).erase c, distance n (Function.update (Function.update s l (some h)) c none) p =
      ∑ p ∈ ((Finset.range n).erase l).erase c, distance n s p := by
    refine Finset.sum_congr rfl fun p hp => ?_
    rw [Finset.mem_erase, Finset.mem_erase] at hp
    rw [distance, distance, update_of_ne hp.1, update_of_ne hp.2.1]
  have hl' : distance n (Function.update (Function.update s l (some h)) c none) l = ahead n h l := by
    rw [distance, update_of_ne hlc, update_self]
    rfl
  have hc' : distance n (Function.update (Function.update s l (some h)) c none) c = 0 := by
    rw [distance, update_self]
    rfl
  have hl0 : distance n s l = 0 := by
    rw [distance, hhole]
    rfl
  have hc0 : distance n s c = ahead n h c := by
    rw [distance, hsome]
    rfl
  rw [distances, distances, hsplit, hsplit (distance n s), hrest, hl', hc', hl0, hc0]
  omega

end KVStores.Probe
