import Mathlib.Data.Finmap

/-!
# Finite maps as lists of pairs

A list in any order has the pairs of a finite map, and no key twice.
-/

namespace KVStores

open List Option

variable {K V : Type} [DecidableEq K] {l l' la lb : List (K × V)} {m m' : Finmap fun _ : K => V} {k : K} {v w : V}

structure Lists (l : List (K × V)) (m : Finmap fun _ : K => V) : Prop where
  nodup : (l.map Prod.fst).Nodup
  pair : ∀ k v, (k, v) ∈ l ↔ m.lookup k = some v

namespace Lists

theorem nil : Lists ([] : List (K × V)) ∅ where
  nodup := nodup_nil
  pair k v := by
    exact iff_of_false not_mem_nil fun h => by cases h

theorem perm (h : Lists l m) (hp : l.Perm l') : Lists l' m where
  nodup := (hp.map Prod.fst).nodup_iff.mp h.nodup
  pair k v := hp.mem_iff.symm.trans (h.pair k v)

theorem mem_iff (h : Lists l m) : k ∈ l.map Prod.fst ↔ k ∈ m := by
  rw [Finmap.mem_iff, List.mem_map]
  constructor
  · rintro ⟨⟨k, v⟩, hmem, rfl⟩
    exact ⟨v, (h.pair k v).mp hmem⟩
  · rintro ⟨v, hv⟩
    exact ⟨(k, v), (h.pair k v).mpr hv, rfl⟩

theorem lookup_eq_none (h : Lists l m) : m.lookup k = none ↔ k ∉ l.map Prod.fst := by
  rw [Finmap.lookup_eq_none, h.mem_iff]

theorem length_eq (h : Lists l m) : l.length = m.keys.card := by
  have hkeys : (l.map Prod.fst).toFinset = m.keys := by
    ext k
    rw [List.mem_toFinset, Finmap.mem_keys, h.mem_iff]
  rw [← hkeys, toFinset_card_of_nodup h.nodup, length_map]

theorem insert_new (h : Lists l m) (hk : k ∉ l.map Prod.fst) (v : V) : Lists ((k, v) :: l) (m.insert k v) where
  nodup := nodup_cons.mpr ⟨hk, h.nodup⟩
  pair a b := by
    rw [mem_cons, h.pair]
    by_cases ha : a = k
    · subst ha
      rw [Finmap.lookup_insert, h.lookup_eq_none.mpr hk, Prod.mk.injEq, some_inj]
      constructor
      · rintro (⟨-, rfl⟩ | hnone)
        · rfl
        · cases hnone
      · rintro rfl
        exact Or.inl ⟨rfl, rfl⟩
    · rw [Finmap.lookup_insert_of_ne m ha, Prod.mk.injEq]
      exact or_iff_right fun heq => ha heq.1

theorem erase_head (h : Lists ((k, v) :: l) m) : Lists l (m.erase k) where
  nodup := (nodup_cons.mp h.nodup).2
  pair a b := by
    have hnot := (nodup_cons.mp h.nodup).1
    by_cases ha : a = k
    · subst ha
      rw [Finmap.lookup_erase]
      refine iff_of_false (fun hmem => hnot ?_) fun hnone => by cases hnone
      exact List.mem_map.mpr ⟨(a, b), hmem, rfl⟩
    · rw [Finmap.lookup_erase_ne ha, ← h.pair, mem_cons, Prod.mk.injEq]
      exact (or_iff_right fun heq => ha heq.1).symm

theorem erase (h : Lists (la ++ (k, v) :: lb) m) : Lists (la ++ lb) (m.erase k) := (h.perm perm_middle).erase_head

/-- **Another value for a key that is there**: only its own pair changes. -/
theorem insert_old (h : Lists (la ++ (k, v) :: lb) m) (w : V) : Lists (la ++ (k, w) :: lb) (m.insert k w) := by
  have hfront := h.perm perm_middle
  have hrest := hfront.erase_head.insert_new (nodup_cons.mp hfront.nodup).1 w
  have hsame : (m.erase k).insert k w = m.insert k w := by
    refine Finmap.ext_lookup fun a => ?_
    by_cases ha : a = k
    · rw [ha, Finmap.lookup_insert, Finmap.lookup_insert]
    · rw [Finmap.lookup_insert_of_ne _ ha, Finmap.lookup_insert_of_ne _ ha, Finmap.lookup_erase_ne ha]
  rw [hsame] at hrest
  exact hrest.perm perm_middle.symm

theorem lookup_middle (h : Lists (la ++ (k, v) :: lb) m) : m.lookup k = some v :=
  (h.pair k v).mp (mem_append_right la mem_cons_self)

end Lists

end KVStores
