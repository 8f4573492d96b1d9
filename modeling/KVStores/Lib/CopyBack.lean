import Mathlib.Logic.Function.Iterate
import KVStores.Lib.Memory

/-!
# Copies of a list onto its own end

The copies of the dictionary coders: elements some places back from the end are appended, and what has just been appended
can be copied again.
-/

namespace KVStores

open List Option Function

variable {α : Type} {d : ℕ}

/-- The element `d` places back from the end is appended. -/
def pushBack (d : ℕ) (l : List α) : List α := l ++ l[l.length - d]?.toList

/-- `n` elements are appended, each from `d` places back. -/
def copyBack (d n : ℕ) (out : List α) : List α := (pushBack d)^[n] out

namespace CopyBack

variable {out l : List α}

theorem copyBack_zero (d : ℕ) (out : List α) : copyBack d 0 out = out := rfl

theorem copyBack_succ (d n : ℕ) (out : List α) : copyBack d (n + 1) out = pushBack d (copyBack d n out) :=
  iterate_succ_apply' _ _ _

theorem length_pushBack (hd : 0 < d) (h : d ≤ l.length) : (pushBack d l).length = l.length + 1 := by
  rw [pushBack, length_append, List.getElem?_eq_getElem (by omega)]
  rfl

theorem length_copyBack (hd : 0 < d) (h : d ≤ out.length) (n : ℕ) : (copyBack d n out).length = out.length + n := by
  induction n with
  | zero => rfl
  | succ n ih =>
    rw [copyBack_succ, length_pushBack hd (by omega), ih]
    rfl

/-- The place from which a place of the copy comes in the end. -/
def source (len d i : ℕ) : ℕ := if i < len then i else len - d + (i - (len - d)) % d

theorem getElem?_copyBack (hd : 0 < d) (h : d ≤ out.length) {n i : ℕ} (hi : i < out.length + n) :
    (copyBack d n out)[i]? = out[source out.length d i]? := by
  induction n generalizing i with
  | zero => rw [copyBack_zero, source, if_pos (by omega)]
  | succ n ih =>
    have hlen := length_copyBack hd h n
    rw [copyBack_succ, pushBack]
    by_cases hlt : i < out.length + n
    · rw [List.getElem?_append_left (by omega)]
      exact ih hlt
    · obtain rfl : i = out.length + n := by omega
      have hsource : out.length + n - d < (copyBack d n out).length := by omega
      rw [List.getElem?_append_right (by omega), hlen, Nat.sub_self, List.getElem?_eq_getElem hsource, toList_some,
        List.getElem?_cons_zero, ← List.getElem?_eq_getElem, ih (by omega)]
      congr 1
      -- one period further on
      rw [source, source, if_neg (by omega : ¬ out.length + n < out.length),
        show out.length + n - (out.length - d) = n + d by omega, Nat.add_mod_right]
      by_cases hn : n < d
      · rw [if_pos (by omega), Nat.mod_eq_of_lt hn]
        omega
      · rw [if_neg (by omega), show out.length + n - d - (out.length - d) = n by omega]

theorem take_copyBack_of_le (hd : 0 < d) (h : d ≤ out.length) {k n : ℕ} (hk : k ≤ n) :
    (copyBack d n out).take (out.length + k) = copyBack d k out := by
  have hkn := length_copyBack hd h k
  refine ext_getElem? fun i => ?_
  by_cases hi : i < out.length + k
  · rw [List.getElem?_take_of_lt hi, getElem?_copyBack hd h (by omega), getElem?_copyBack hd h hi]
  · rw [List.getElem?_eq_none (by rw [length_take]; omega), List.getElem?_eq_none (by omega)]

/-- **A block at once**: from any multiple of the distance back, as long as no element is copied that is not there yet. -/
theorem copyBack_add (hd : 0 < d) (h : d ≤ out.length) {k n e : ℕ} (he : d ∣ e) (hback : e ≤ d + k) (hn : n ≤ e) :
    copyBack d (k + n) out = copyBack d k out ++ ((copyBack d k out).drop (out.length + k - e)).take n := by
  have hk := length_copyBack hd h k
  have hkn := length_copyBack hd h (k + n)
  refine ext_getElem? fun i => ?_
  by_cases hi : i < out.length + k
  · rw [getElem?_copyBack hd h (by omega), List.getElem?_append_left (by omega), getElem?_copyBack hd h hi]
  by_cases hi' : i < out.length + k + n
  · have hsource : source out.length d i = source out.length d (out.length + k - e + (i - (out.length + k))) := by
      obtain ⟨m, rfl⟩ := he
      rw [source, source, if_neg (by omega)]
      have hshift : i - (out.length - d) = out.length + k - d * m + (i - (out.length + k)) - (out.length - d) + d * m := by omega
      rw [hshift, Nat.add_mul_mod_self_left]
      by_cases hold : out.length + k - d * m + (i - (out.length + k)) < out.length
      · rw [if_pos hold, Nat.mod_eq_of_lt (by omega)]
        omega
      · rw [if_neg hold]
    rw [getElem?_copyBack hd h (by omega), List.getElem?_append_right (by omega), hk, List.getElem?_take_of_lt (by omega),
      List.getElem?_drop, getElem?_copyBack hd h (by omega), hsource]
  · rw [List.getElem?_eq_none (by omega), List.getElem?_eq_none]
    rw [length_append, length_take, length_drop]
    omega

/-- **A match is a copy**: where a part of a list repeats an earlier one, copying goes on with the list. -/
theorem copyBack_repeat {input : List α} {p q n : ℕ} (out : List α) (hback : p < q) (hin : q + n ≤ input.length)
    (h : ∀ k < n, input[p + k]? = input[q + k]?) : copyBack (q - p) n (out ++ input.take q) = out ++ input.take (q + n) := by
  induction n with
  | zero => rfl
  | succ n ih =>
    have hlen : (input.take (q + n)).length = q + n := by
      rw [length_take]
      omega
    rw [copyBack_succ, ih (by omega) fun k hk => h k (Nat.lt_succ_of_lt hk), pushBack, length_append, hlen, List.getElem?_append_right (by omega),
      List.getElem?_take_of_lt (by omega), show out.length + (q + n) - (q - p) - out.length = p + n by omega, h n (Nat.lt_succ_self n), append_assoc,
      ← Nat.add_assoc, take_add_one]

/-- A block of memory begins with a list and `k` elements of its copy. -/
def Copied (d : ℕ) (out : List α) (k : ℕ) (m : List α) : Prop := m.take (out.length + k) = copyBack d k out

variable {m : List α}

theorem Copied.mono (hd : 0 < d) (h : d ≤ out.length) {k n : ℕ} (hm : Copied d out n m) (hk : k ≤ n) : Copied d out k m := by
  have htake := congrArg (List.take (out.length + k)) hm
  rw [take_take, Nat.min_eq_left (by omega), take_copyBack_of_le hd h hk] at htake
  exact htake

theorem take_move {m : List α} {dst src n j : ℕ} (hdst : dst + n ≤ m.length) (hsrc : src + n ≤ m.length) (hj : j ≤ n) (hback : src + j ≤ dst) :
    ∃ m', Memory.move m dst src n = some m' ∧ m'.length = m.length ∧ m'.take (dst + j) = m.take dst ++ ((m.take dst).drop src).take j := by
  have hlen : ((m.drop src).take n).length = n := by
    rw [length_take, length_drop]
    omega
  refine ⟨m.take dst ++ (m.drop src).take n ++ m.drop (dst + n), ?_, ?_, ?_⟩
  · rw [Memory.move, Memory.read, if_pos hsrc, bind_some, Memory.write, hlen, if_pos hdst]
  · rw [length_append, length_append, hlen, length_take, length_drop]
    omega
  · have hfront : (m.take dst).length = dst := by
      rw [length_take]
      omega
    have hcut : dst + j = (m.take dst).length + j := by rw [hfront]
    rw [append_assoc, hcut, take_length_add_append, take_append_of_le_length (by omega), take_take, Nat.min_eq_left hj, drop_take,
      take_take, Nat.min_eq_left (by omega)]

/-- **A block is moved**: what is copied from what was there already is right, and there is more of the copy. -/
theorem Copied.move (hd : 0 < d) (h : d ≤ out.length) {k n e : ℕ} {m : List α} (hm : Copied d out k m) (hroom : out.length + k + n ≤ m.length)
    (he : d ∣ e) (hpos : 0 < e) (hback : e ≤ d + k) :
    ∃ m', Memory.move m (out.length + k) (out.length + k - e) n = some m' ∧ m'.length = m.length ∧ Copied d out (k + min e n) m' := by
  obtain ⟨m', hmove, hlen, htake⟩ := @take_move α m (out.length + k) (out.length + k - e) n (min e n) hroom (by omega) (Nat.min_le_right e n) (by omega)
  refine ⟨m', hmove, hlen, ?_⟩
  rw [hm] at htake
  rw [Copied, copyBack_add hd h he hback (Nat.min_le_left e n), ← Nat.add_assoc, htake]

end CopyBack

end KVStores
