import Mathlib.Data.List.Basic
import Mathlib.Tactic.Ring

/-!
# Numerals to any base

The digits of a number as a `printf` writes them, and what a `strtol` makes of digits.
-/

namespace KVStores.Numeral

open List

variable {α : Type} {base : ℕ} {digit : ℕ → α} {val : α → ℕ}

/-- The digits of a number in front of those written already. -/
@[grind =] def loop (base : ℕ) (digit : ℕ → α) : ℕ → ℕ → List α → List α
  | 0, _, l => l
  | fuel + 1, n, l => if n < base then digit n :: l else loop base digit fuel (n / base) (digit (n % base) :: l)

def numeral (base : ℕ) (digit : ℕ → α) (n : ℕ) : List α := loop base digit (n + 1) n []

/-- The number that digits stand for, behind one that is read already. -/
def value (base : ℕ) (val : α → ℕ) (v : ℕ) (l : List α) : ℕ := l.foldl (fun v c => v * base + val c) v

theorem value_loop (hbase : 1 < base) (hval : ∀ k < base, val (digit k) = k) : ∀ (fuel n : ℕ) (l : List α), n < fuel →
    value base val 0 (loop base digit fuel n l) = value base val n l := by
  intro fuel
  induction fuel with
  | zero => exact fun n l h => absurd h (Nat.not_lt_zero n)
  | succ fuel ih =>
    intro n l hn
    rw [loop]
    by_cases hlt : n < base
    · rw [if_pos hlt, value, foldl_cons, hval n hlt, Nat.zero_mul, Nat.zero_add]
      rfl
    · have hdiv : n / base < n := Nat.div_lt_self (by omega) hbase
      rw [if_neg hlt, ih (n / base) _ (by omega), value, foldl_cons, hval _ (Nat.mod_lt n (by omega)), Nat.div_add_mod']
      rfl

theorem value_numeral (hbase : 1 < base) (hval : ∀ k < base, val (digit k) = k) (n : ℕ) : value base val 0 (numeral base digit n) = n :=
  value_loop hbase hval (n + 1) n [] (Nat.lt_succ_self n)

theorem mem_loop (hbase : 0 < base) {c : α} : ∀ (fuel n : ℕ) (l : List α), c ∈ loop base digit fuel n l → c ∈ l ∨ ∃ k < base, c = digit k := by
  intro fuel
  induction fuel with
  | zero => exact fun n l h => Or.inl h
  | succ fuel ih =>
    intro n l hmem
    rw [loop] at hmem
    by_cases hlt : n < base
    · rw [if_pos hlt] at hmem
      rcases mem_cons.1 hmem with rfl | hmem
      · exact Or.inr ⟨n, hlt, rfl⟩
      · exact Or.inl hmem
    · rw [if_neg hlt] at hmem
      rcases ih _ _ hmem with hmem | hdigit
      · rcases mem_cons.1 hmem with rfl | hmem
        · exact Or.inr ⟨n % base, Nat.mod_lt n hbase, rfl⟩
        · exact Or.inl hmem
      · exact Or.inr hdigit

theorem mem_numeral (hbase : 0 < base) {c : α} {n : ℕ} (h : c ∈ numeral base digit n) : ∃ k < base, c = digit k :=
  (mem_loop hbase (n + 1) n [] h).resolve_left not_mem_nil

theorem length_loop : ∀ (k fuel n : ℕ) (l : List α), n < base ^ (k + 1) → (loop base digit fuel n l).length ≤ k + 1 + l.length := by
  intro k fuel
  induction fuel generalizing k with
  | zero => exact fun n l _ => Nat.le_add_left _ _
  | succ fuel ih =>
    intro n l hn
    rw [loop]
    by_cases hlt : n < base
    · rw [if_pos hlt, length_cons]
      omega
    · rw [if_neg hlt]
      cases k with
      | zero =>
        rw [Nat.zero_add, Nat.pow_one] at hn
        exact absurd hn hlt
      | succ k =>
        have hdiv : n / base < base ^ (k + 1) := Nat.div_lt_of_lt_mul (by rwa [← Nat.pow_succ'])
        have hle := ih k (n / base) (digit (n % base) :: l) hdiv
        rw [length_cons] at hle
        omega

theorem length_numeral (k : ℕ) {n : ℕ} (hn : n < base ^ (k + 1)) : (numeral base digit n).length ≤ k + 1 :=
  length_loop k (n + 1) n [] hn

theorem loop_ne_nil : ∀ (fuel n : ℕ) (l : List α), l ≠ [] → loop base digit fuel n l ≠ [] := by
  intro fuel
  induction fuel with
  | zero => exact fun _ _ h => h
  | succ fuel ih =>
    intro n l hl
    rw [loop]
    by_cases hlt : n < base
    · rw [if_pos hlt]
      exact cons_ne_nil _ _
    · rw [if_neg hlt]
      exact ih _ _ (cons_ne_nil _ _)

theorem numeral_ne_nil (n : ℕ) : numeral base digit n ≠ [] := by
  rw [numeral, loop]
  by_cases hlt : n < base
  · rw [if_pos hlt]
    exact cons_ne_nil _ _
  · rw [if_neg hlt]
    exact loop_ne_nil _ _ _ (cons_ne_nil _ _)

end KVStores.Numeral
