import Mathlib.Data.List.Basic

/-!
# Blocks of memory

A block of memory is the list of its cells. What reaches outside a block is a fault (`none`).

Each is stated for a block that is cut where it is used.
-/

namespace KVStores.Memory

open List Option

variable {α : Type}

/-- `n` cells from `p` on. -/
def read (m : List α) (p n : ℕ) : Option (List α) := if p + n ≤ m.length then some ((m.drop p).take n) else none

/-- Some cells are written from `p` on. -/
def write (m : List α) (p : ℕ) (l : List α) : Option (List α) :=
  if p + l.length ≤ m.length then some (m.take p ++ l ++ m.drop (p + l.length)) else none

/-- `n` cells from `src` on are copied to `dst`. -/
def move (m : List α) (dst src n : ℕ) : Option (List α) := (read m src n).bind (write m dst)

/-- The block with `n` cells, those behind the old ones given by `fill`. -/
def realloc (fill : ℕ → α) (m : List α) (n : ℕ) : List α := m.take n ++ (List.range' m.length (n - m.length)).map fill

variable {a b c l : List α} {p n : ℕ}

theorem cell_at {x : α} (hp : p = a.length) : (a ++ x :: b)[p]? = some x := by
  rw [hp, List.getElem?_append_right (Nat.le_refl _), Nat.sub_self]
  rfl

theorem read_at (hp : p = a.length) (hn : n = b.length) : read (a ++ b ++ c) p n = some b := by
  have hlen : a.length + b.length ≤ (a ++ b ++ c).length := by
    rw [length_append, length_append]
    omega
  rw [read, hp, hn, if_pos hlen, append_assoc, drop_left, take_left]

theorem write_at (hp : p = a.length) (hl : l.length = b.length) : write (a ++ b ++ c) p l = some (a ++ l ++ c) := by
  have hlen : a.length + b.length ≤ (a ++ b ++ c).length := by
    rw [length_append, length_append]
    omega
  have hdrop : (a ++ b ++ c).drop (a.length + b.length) = c := by rw [← length_append, drop_left]
  rw [write, hp, hl, if_pos hlen, hdrop, append_assoc a b c, take_left]

variable {d m e : List α} {dst src : ℕ}

/-- **To the front.** The cells in between are overwritten, and some old ones stay behind. -/
theorem move_front (hdst : dst = a.length) (hsrc : src = (a ++ d).length) (hn : n = m.length) :
    ∃ x, x.length = d.length ∧ move (a ++ d ++ m ++ e) dst src n = some (a ++ m ++ x ++ e) := by
  have hcut : ((d ++ m).take m.length).length = m.length := by
    rw [length_take, length_append]
    omega
  have hblock : a ++ d ++ m ++ e = a ++ (d ++ m).take m.length ++ ((d ++ m).drop m.length ++ e) := by
    rw [append_assoc a (List.take _ _), ← append_assoc (List.take _ _), take_append_drop, append_assoc a d, append_assoc a]
  refine ⟨(d ++ m).drop m.length, by rw [length_drop, length_append]; omega, ?_⟩
  rw [move, read_at hsrc hn, bind_some, hblock, write_at hdst hcut.symm, ← append_assoc]

/-- **To the back.** Some old cells stay in between, and those behind are overwritten. -/
theorem move_back (hdst : dst = a.length + d.length) (hsrc : src = a.length) (hn : n = m.length) :
    ∃ x, x.length = d.length ∧ move (a ++ m ++ d ++ e) dst src n = some (a ++ x ++ m ++ e) := by
  have hfront : ((m ++ d).take d.length).length = d.length := by
    rw [length_take, length_append]
    omega
  have hback : m.length = ((m ++ d).drop d.length).length := by
    rw [length_drop, length_append]
    omega
  have hblock : a ++ m ++ d ++ e = (a ++ (m ++ d).take d.length) ++ (m ++ d).drop d.length ++ e := by
    rw [append_assoc a, append_assoc a ((m ++ d).take d.length), take_append_drop]
  have hread : read (a ++ m ++ d ++ e) src n = some m := by
    rw [append_assoc _ d e]
    exact read_at hsrc hn
  refine ⟨(m ++ d).take d.length, hfront, ?_⟩
  rw [move, hread, bind_some, hblock, write_at (by rw [length_append, hfront, hdst]) hback]

theorem realloc_length (fill : ℕ → α) (m : List α) (n : ℕ) : (realloc fill m n).length = n := by
  rw [realloc, length_append, length_take, length_map, length_range']
  omega

theorem realloc_append (fill : ℕ → α) (h : a.length ≤ n) : ∃ x, realloc fill (a ++ b) n = a ++ x ∧ x.length = n - a.length := by
  have htake : (a ++ b).take n = a ++ b.take (n - a.length) := by rw [take_append, take_of_length_le h]
  refine ⟨_, by rw [realloc, htake, append_assoc], ?_⟩
  have hlen := realloc_length fill (a ++ b) n
  rw [realloc, htake, append_assoc, length_append] at hlen
  omega

end KVStores.Memory
