import Mathlib.Data.List.Nodup

/-!
# Ordered dictionaries

A dictionary as the list of its entries, in the order in which their keys came: a new key goes to the end, and a key that is there
keeps its place.
-/

namespace KVStores.Dictionary

variable {K V : Type} [DecidableEq K] {k : K} {v w : V} {l la lb : List (K × V)}

def Distinct (l : List (K × V)) : Prop := (l.map Prod.fst).Nodup

@[grind =] def get (k : K) : List (K × V) → Option V
  | [] => none
  | e :: l => if e.1 = k then some e.2 else get k l

@[grind =] def put (k : K) (v : V) : List (K × V) → List (K × V)
  | [] => [(k, v)]
  | e :: l => if e.1 = k then (k, v) :: l else e :: put k v l

theorem put_new (h : k ∉ l.map Prod.fst) : put k v l = l ++ [(k, v)] := by
  induction l with
  | nil => rfl
  | cons e l ih =>
    rw [List.map_cons, List.mem_cons, not_or] at h
    rw [put, if_neg fun he => h.1 he.symm, ih h.2, List.cons_append]

end KVStores.Dictionary
