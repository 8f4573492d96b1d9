import Mathlib.Data.List.Induction
import Mathlib.Algebra.Order.Ring.Nat

/-!
# Decimal numerals

Numbers as decimal digits in ASCII, the most significant digit first and without leading zeros.
-/

namespace KVStores

open List

def isDigit (c : UInt8) : Bool := decide (48 ≤ c) && decide (c ≤ 57)

def digitVal (c : UInt8) : ℕ := c.toNat - 48

def digitChar (n : ℕ) : UInt8 := UInt8.ofNat (48 + n)

/-- The number that digits read as, behind those that were read before. -/
def decimalValue (v : ℕ) (l : List UInt8) : ℕ := l.foldl (fun v c => v * 10 + digitVal c) v

/-- The digits of a number from the least significant one on, in front of those that follow. -/
@[grind =] def decimalLoop : ℕ → ℕ → List UInt8 → List UInt8
  | 0, _, l => l
  | fuel + 1, n, l => if n / 10 = 0 then digitChar (n % 10) :: l else decimalLoop fuel (n / 10) (digitChar (n % 10) :: l)

def decimal (n : ℕ) : List UInt8 := decimalLoop (n + 1) n []

variable {c : UInt8}

theorem isDigit_iff : isDigit c = true ↔ 48 ≤ c.toNat ∧ c.toNat ≤ 57 := by
  unfold isDigit
  rw [Bool.and_eq_true, decide_eq_true_iff, decide_eq_true_iff, UInt8.le_iff_toNat_le, UInt8.le_iff_toNat_le]
  exact Iff.rfl

variable {n : ℕ}

theorem digitChar_toNat (h : n < 10) : (digitChar n).toNat = 48 + n := by
  unfold digitChar
  rw [UInt8.toNat_ofNat']
  omega

theorem isDigit_digitChar (h : n < 10) : isDigit (digitChar n) = true := by
  rw [isDigit_iff, digitChar_toNat h]
  omega

theorem digitVal_digitChar (h : n < 10) : digitVal (digitChar n) = n := by
  unfold digitVal
  rw [digitChar_toNat h]
  omega

theorem digitChar_digitVal (h : isDigit c = true) : digitChar (digitVal c) = c := by
  rw [isDigit_iff] at h
  apply UInt8.toNat_inj.1
  unfold digitVal
  rw [digitChar_toNat (by omega)]
  omega

theorem decimalValue_nil (v : ℕ) : decimalValue v [] = v := rfl

theorem decimalValue_cons (v : ℕ) (c : UInt8) (l : List UInt8) : decimalValue v (c :: l) = decimalValue (v * 10 + digitVal c) l := by
  unfold decimalValue
  rw [foldl_cons]

theorem decimalValue_append (v : ℕ) (l l' : List UInt8) : decimalValue v (l ++ l') = decimalValue (decimalValue v l) l' := foldl_append

theorem le_decimalValue (v : ℕ) (l : List UInt8) : v ≤ decimalValue v l := by
  induction l generalizing v with
  | nil => rw [decimalValue_nil]
  | cons c l ih =>
    exact (by omega : v ≤ v * 10 + digitVal c).trans (ih _)

theorem decimalLoop_append (fuel n : ℕ) (l : List UInt8) : decimalLoop fuel n l = decimalLoop fuel n [] ++ l := by
  induction fuel generalizing n l with
  | zero => rfl
  | succ fuel ih =>
    rw [decimalLoop, decimalLoop]
    by_cases h : n / 10 = 0
    · rw [if_pos h, if_pos h]
      rfl
    · rw [if_neg h, if_neg h, ih, ih (n / 10) [_], append_assoc]
      rfl

theorem decimalLoop_fuel (fuel fuel' : ℕ) : ∀ (n : ℕ) (l : List UInt8), n < fuel → n < fuel' → decimalLoop fuel n l = decimalLoop fuel' n l := by
  induction fuel generalizing fuel' with
  | zero =>
    intro n l h _
    exact absurd h (Nat.not_lt_zero n)
  | succ fuel ih =>
    intro n l h h'
    obtain ⟨m, rfl⟩ : ∃ m, fuel' = m + 1 := ⟨fuel' - 1, by omega⟩
    rw [decimalLoop, decimalLoop]
    by_cases hz : n / 10 = 0
    · rw [if_pos hz, if_pos hz]
    · rw [if_neg hz, if_neg hz, ih m _ _ (by omega) (by omega)]

theorem decimal_of_lt (h : n < 10) : decimal n = [digitChar n] := by
  unfold decimal
  rw [decimalLoop, if_pos (by omega), Nat.mod_eq_of_lt h]

theorem decimal_step (h : 10 ≤ n) : decimal n = decimal (n / 10) ++ [digitChar (n % 10)] := by
  have hlt : n / 10 < n := Nat.div_lt_self (by omega) (by omega)
  unfold decimal
  rw [decimalLoop, if_neg (by omega), decimalLoop_append, decimalLoop_fuel n (n / 10 + 1) _ _ hlt (by omega)]

theorem decimal_induction {motive : ℕ → Prop} (digit : ∀ n < 10, motive n) (step : ∀ n, 10 ≤ n → motive (n / 10) → motive n) (n : ℕ) :
    motive n := by
  induction n using Nat.strong_induction_on with
  | _ n ih =>
    by_cases h : n < 10
    · exact digit n h
    · exact step n (by omega) (ih (n / 10) (Nat.div_lt_self (by omega) (by omega)))

theorem isDigit_decimal (n : ℕ) : ∀ c ∈ decimal n, isDigit c = true := by
  induction n using decimal_induction with
  | digit n h =>
    intro c hc
    rw [decimal_of_lt h, mem_singleton] at hc
    rw [hc]
    exact isDigit_digitChar h
  | step n h ih =>
    intro c hc
    rw [decimal_step h, mem_append, mem_singleton] at hc
    rcases hc with hc | rfl
    · exact ih c hc
    · exact isDigit_digitChar (Nat.mod_lt n (by omega))

theorem length_decimal : ∀ (k : ℕ) {n : ℕ}, n < 10 ^ (k + 1) → (decimal n).length ≤ k + 1 := by
  intro k
  induction k with
  | zero =>
    intro n hn
    rw [decimal_of_lt hn]
    exact Nat.le_refl _
  | succ k ih =>
    intro n hn
    by_cases hsmall : n < 10
    · rw [decimal_of_lt hsmall]
      exact Nat.succ_le_succ (Nat.zero_le _)
    · have hdiv : n / 10 < 10 ^ (k + 1) := Nat.div_lt_of_lt_mul (by rwa [pow_succ, Nat.mul_comm] at hn)
      rw [decimal_step (not_lt.1 hsmall), length_append]
      exact Nat.succ_le_succ (ih hdiv)

theorem decimalValue_decimal (n : ℕ) : decimalValue 0 (decimal n) = n := by
  induction n using decimal_induction with
  | digit n h =>
    rw [decimal_of_lt h, decimalValue_cons, decimalValue_nil, digitVal_digitChar h]
    omega
  | step n h ih =>
    rw [decimal_step h, decimalValue_append, ih, decimalValue_cons, decimalValue_nil, digitVal_digitChar (Nat.mod_lt n (by omega))]
    omega

theorem decimal_head (n : ℕ) : ∃ c l, decimal n = c :: l ∧ (0 < n → 49 ≤ c.toNat) ∧ (n < 10 → l = []) := by
  induction n using decimal_induction with
  | digit n h =>
    refine ⟨digitChar n, [], decimal_of_lt h, fun hn => ?_, fun _ => rfl⟩
    rw [digitChar_toNat h]
    omega
  | step n h ih =>
    obtain ⟨c, l, heq, hc, -⟩ := ih
    refine ⟨c, l ++ [digitChar (n % 10)], ?_, fun _ => hc (by omega), fun hlt => absurd hlt (by omega)⟩
    rw [decimal_step h, heq]
    rfl

theorem decimal_decimalValue : ∀ (l : List UInt8) {c : UInt8}, 49 ≤ c.toNat → (∀ b ∈ c :: l, isDigit b = true) →
    decimal (decimalValue 0 (c :: l)) = c :: l ∧ 0 < decimalValue 0 (c :: l) := by
  intro l
  induction l using List.reverseRec with
  | nil =>
    intro c hc hdigits
    have hdigit := hdigits c mem_cons_self
    have hlt : 0 * 10 + digitVal c < 10 := by
      have := (isDigit_iff.1 hdigit).2
      unfold digitVal
      omega
    rw [decimalValue_cons, decimalValue_nil, decimal_of_lt hlt, Nat.zero_mul, Nat.zero_add, digitChar_digitVal hdigit]
    refine ⟨rfl, ?_⟩
    unfold digitVal
    omega
  | append_singleton l b ih =>
    intro c hc hdigits
    obtain ⟨h1, h2⟩ := ih hc fun a ha => hdigits a (mem_append_left [b] ha)
    have hb := hdigits b (mem_append_right (c :: l) mem_cons_self)
    have hval : digitVal b < 10 := by
      have := (isDigit_iff.1 hb).2
      unfold digitVal
      omega
    rw [← cons_append, decimalValue_append, decimalValue_cons, decimalValue_nil, decimal_step (by omega)]
    refine ⟨?_, by omega⟩
    rw [show (decimalValue 0 (c :: l) * 10 + digitVal b) / 10 = decimalValue 0 (c :: l) by omega,
      show (decimalValue 0 (c :: l) * 10 + digitVal b) % 10 = digitVal b by omega, h1, digitChar_digitVal hb]

end KVStores
