import KVStores.Lib.Memory

/-!
# Memory in pieces

A block of memory that is cut into pieces, as the buffers of a scatter and gather call: a place is a piece and an offset in it.
-/

namespace KVStores.Pieces

open List Option

variable {α : Type}

def start (m : List (List α)) (i : ℕ) : ℕ := (m.take i).flatten.length

/-- `n` cells of a piece. -/
def read (m : List (List α)) (i o n : ℕ) : Option (List α) := m[i]?.bind fun e => Memory.read e o n

def write (m : List (List α)) (i o : ℕ) (l : List α) : Option (List (List α)) := m[i]?.bind fun e => (Memory.write e o l).map (m.set i)

variable {m : List (List α)} {e l : List α} {i o n : ℕ}

theorem flatten_cut (h : m[i]? = some e) : m.flatten = (m.take i).flatten ++ e ++ (m.drop (i + 1)).flatten := by
  obtain ⟨hi, rfl⟩ := List.getElem?_eq_some_iff.1 h
  rw [← flatten_concat, take_append_getElem hi, ← flatten_append, take_append_drop]

theorem start_succ (h : m[i]? = some e) : start m (i + 1) = start m i + e.length := by
  obtain ⟨hi, rfl⟩ := List.getElem?_eq_some_iff.1 h
  rw [start, start, take_succ_eq_append_getElem hi, flatten_concat, length_append]

theorem start_le (m : List (List α)) (i : ℕ) : start m i ≤ m.flatten.length := by
  rw [start, ← congrArg List.length (congrArg List.flatten (take_append_drop i m)), flatten_append, length_append]
  exact Nat.le_add_right _ _

theorem read_flatten (h : m[i]? = some e) (hn : o + n ≤ e.length) :
    ∃ l, read m i o n = some l ∧ Memory.read m.flatten (start m i + o) n = some l := by
  have hpiece : Memory.read e o n = some ((e.drop o).take n) := if_pos hn
  refine ⟨(e.drop o).take n, by rw [read, h, bind_some, hpiece], ?_⟩
  have hlen : start m i + o + n ≤ m.flatten.length := by
    have hnext := start_succ h
    have hle := start_le m (i + 1)
    omega
  rw [Memory.read, if_pos hlen, flatten_cut h, append_assoc, start, drop_length_add_append, drop_append_of_le_length (by omega),
    take_append_of_le_length (by rw [length_drop]; omega)]

theorem write_flatten (h : m[i]? = some e) (hl : o + l.length ≤ e.length) :
    ∃ m', write m i o l = some m' ∧ Memory.write m.flatten (start m i + o) l = some m'.flatten ∧ m'.map List.length = m.map List.length := by
  obtain ⟨hi, he⟩ := List.getElem?_eq_some_iff.1 h
  have hpiece : Memory.write e o l = some (e.take o ++ l ++ e.drop (o + l.length)) := if_pos hl
  have hlength : (e.take o ++ l ++ e.drop (o + l.length)).length = e.length := by
    rw [length_append, length_append, length_take, length_drop]
    omega
  refine ⟨m.set i (e.take o ++ l ++ e.drop (o + l.length)), by rw [write, h, bind_some, hpiece, map_some], ?_, ?_⟩
  · have hcut : m.flatten = ((m.take i).flatten ++ e.take o) ++ (e.drop o).take l.length ++ (e.drop (o + l.length) ++ (m.drop (i + 1)).flatten) := by
      have hpart : (e.drop o).take l.length ++ e.drop (o + l.length) = e.drop o := by rw [← drop_drop, take_append_drop]
      rw [append_assoc, ← append_assoc ((e.drop o).take l.length), hpart, append_assoc, ← append_assoc (e.take o),
        take_append_drop, ← append_assoc]
      exact flatten_cut h
    have hset : (m.set i (e.take o ++ l ++ e.drop (o + l.length))).flatten =
        ((m.take i).flatten ++ e.take o) ++ l ++ (e.drop (o + l.length) ++ (m.drop (i + 1)).flatten) := by
      rw [set_eq_take_append_cons_drop, if_pos hi, flatten_append, flatten_cons]
      simp only [append_assoc]
    rw [hcut, hset]
    refine Memory.write_at ?_ ?_
    · rw [length_append, start, length_take, Nat.min_eq_left (by omega)]
    · rw [length_take, length_drop]
      omega
  · have hmap : i < (m.map List.length).length := by rwa [length_map]
    have hself := set_getElem_self hmap
    rw [getElem_map, he] at hself
    rw [map_set, hlength, hself]

end KVStores.Pieces
