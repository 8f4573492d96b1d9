import KVStores.Redis.AofLoad

/-!
# Strings and the numbers in them
-/

namespace KVStores.Redis

open List Option

open Aof

/-- `sds`: `len` is an `int`. -/
abbrev Sds : Type := {s : List UInt8 // s.length < 2 ^ 31}

def unsigned (s : List UInt8) : List UInt8 :=
  match s.dropWhile isspace with
  | 45 :: l => l
  | 43 :: l => l
  | l => l

/-- Where `strtoll` stops reading. -/
def eptr (s : List UInt8) : List UInt8 := if (unsigned s).takeWhile isDigit = [] then s else (unsigned s).dropWhile isDigit

/-- Whether the number is out of the range of a `long long`. -/
def erange (s : List UInt8) : Bool :=
  match s.dropWhile isspace with
  | 45 :: l => decide (2 ^ 63 < decimalValue 0 (l.takeWhile isDigit))
  | _ => decide (2 ^ 63 ≤ decimalValue 0 ((unsigned s).takeWhile isDigit))

def atEnd : List UInt8 → Bool
  | [] => true
  | b :: _ => decide (b = 0)

/-- `getLongLongFromObject` of a string. -/
def getLongLongFromObject (s : List UInt8) : Option ℤ :=
  if s.head?.any isspace = true ∨ atEnd (eptr s) = false ∨ erange s = true then none else some (strtoll s)

theorem getLongLongFromObject_digits {d : UInt8} {l : List UInt8} (hd : isDigit d = true) :
    getLongLongFromObject (d :: l) = if atEnd ((d :: l).dropWhile isDigit) = false ∨ 2 ^ 63 ≤ decimalValue 0 ((d :: l).takeWhile isDigit) then none
      else some (decimalValue 0 ((d :: l).takeWhile isDigit) : ℤ) := by
  have hnot : isspace d = false := by
    rw [isDigit_iff] at hd
    rw [isspace, decide_eq_false_iff_not, not_or, not_and_or]
    refine ⟨?_, Or.inr ?_⟩
    · rintro rfl
      exact absurd hd.1 (by decide)
    · exact not_le.2 (Nat.lt_of_lt_of_le (by decide) hd.1)
  have hdrop : (d :: l).dropWhile isspace = d :: l := dropWhile_cons_of_neg (by rw [hnot]; exact Bool.false_ne_true)
  have hsign : d ≠ 45 ∧ d ≠ 43 := by
    constructor
    · rintro rfl
      exact absurd hd (by decide)
    · rintro rfl
      exact absurd hd (by decide)
  have hunsigned : unsigned (d :: l) = d :: l := by
    rw [unsigned, hdrop]
    split
    · rename_i heq
      exact absurd (List.cons.inj heq).1 hsign.1
    · rename_i heq
      exact absurd (List.cons.inj heq).1 hsign.2
    · rfl
  have herange : erange (d :: l) = decide (2 ^ 63 ≤ decimalValue 0 ((d :: l).takeWhile isDigit)) := by
    rw [erange, hdrop, hunsigned]
    split
    · rename_i heq
      exact absurd (List.cons.inj heq).1 hsign.1
    · rfl
  have hstrtoll : strtoll (d :: l) = min (decimalValue 0 ((d :: l).takeWhile isDigit) : ℤ) (2 ^ 63 - 1) := by
    rw [strtoll, hdrop]
    split
    · rename_i heq
      exact absurd (List.cons.inj heq).1 hsign.1
    · rename_i heq
      exact absurd (List.cons.inj heq).1 hsign.2
    · rfl
  have heptr : eptr (d :: l) = (d :: l).dropWhile isDigit := by
    rw [eptr, hunsigned, if_neg (by rw [takeWhile_cons_of_pos hd]; exact cons_ne_nil _ _)]
  rw [getLongLongFromObject, heptr, herange, hstrtoll, List.head?_cons, any_some, hnot]
  by_cases hbad : atEnd ((d :: l).dropWhile isDigit) = false ∨ 2 ^ 63 ≤ decimalValue 0 ((d :: l).takeWhile isDigit)
  · rw [if_pos hbad, if_pos]
    rcases hbad with h | h
    · exact Or.inr (Or.inl h)
    · exact Or.inr (Or.inr (decide_eq_true h))
  · rw [if_neg hbad, if_neg]
    · congr 1
      omega
    · rintro (h | h | h)
      · exact absurd h Bool.false_ne_true
      · exact hbad (Or.inl h)
      · exact hbad (Or.inr (of_decide_eq_true h))

/-- **A number as it is printed** is read as itself. -/
theorem getLongLongFromObject_ll2string {n : ℤ} (hlow : -2 ^ 63 ≤ n) (hhigh : n < 2 ^ 63) : getLongLongFromObject (ll2string n) = some n := by
  have hall := isDigit_decimal n.natAbs
  have htake : (decimal n.natAbs).takeWhile isDigit = decimal n.natAbs := takeWhile_eq_self_iff.2 hall
  have hdrop : (decimal n.natAbs).dropWhile isDigit = [] := dropWhile_eq_nil_iff.2 hall
  have hvalue := decimalValue_decimal n.natAbs
  obtain ⟨d, l, hd, -, -⟩ := decimal_head n.natAbs
  by_cases hneg : n < 0
  · have hne : decimal n.natAbs ≠ [] := by
      rw [hd]
      exact cons_ne_nil _ _
    have hunsigned : unsigned (45 :: decimal n.natAbs) = decimal n.natAbs := rfl
    have herange : erange (45 :: decimal n.natAbs) = decide (2 ^ 63 < decimalValue 0 ((decimal n.natAbs).takeWhile isDigit)) := rfl
    have hstrtoll : strtoll (45 :: decimal n.natAbs) = max (-(decimalValue 0 ((decimal n.natAbs).takeWhile isDigit) : ℤ)) (-2 ^ 63) := rfl
    have heptr : eptr (45 :: decimal n.natAbs) = [] := by
      rw [eptr, hunsigned, htake, if_neg hne, hdrop]
    rw [ll2string, if_pos hneg, getLongLongFromObject, heptr, herange, hstrtoll, htake, hvalue, if_neg]
    · congr 1
      omega
    · rintro (h | h | h)
      · have hfalse : false = true := h
        exact absurd hfalse (by decide)
      · exact absurd h (by decide)
      · have := of_decide_eq_true h
        omega
  · rw [ll2string, if_neg hneg]
    have hdigit := hall d (by rw [hd]; exact mem_cons_self)
    rw [hd] at htake hdrop hvalue ⊢
    rw [getLongLongFromObject_digits hdigit, htake, hdrop, hvalue, if_neg]
    · congr 1
      omega
    · rintro (h | h)
      · exact absurd h (by decide)
      · omega

theorem strtoll_of_getLongLong {s : List UInt8} {v : ℤ} (hparse : getLongLongFromObject s = some v) : strtoll s = v := by
  rw [getLongLongFromObject] at hparse
  by_cases hbad : s.head?.any isspace = true ∨ atEnd (eptr s) = false ∨ erange s = true
  · rw [if_pos hbad] at hparse
    exact absurd hparse.symm (some_ne_none v)
  · rw [if_neg hbad] at hparse
    exact Option.some.inj hparse

end KVStores.Redis
