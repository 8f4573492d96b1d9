import KVStores.Redis.CommandTable

/-!
# Changes make the server dirtier

A command about one key that changes its value also changes `server.dirty`; otherwise it would not be propagated.
-/

namespace KVStores.Redis

variable {Score : Type}

def Change.Dirty : Change Score → Prop
  | .keep => True
  | .store _ k => 0 < k
  | .delete k => 0 < k

theorem storeString_dirty (l : List UInt8) : (storeString l : Change Score).Dirty := by
  rw [storeString]
  by_cases h : l.length < 2 ^ 31
  · rw [dif_pos h]
    exact Nat.one_pos
  · rw [dif_neg h]
    trivial

theorem incrDecrChange_dirty (incr : ℤ) (o : Option (Value Score)) : (incrDecrChange incr o).Dirty := by
  have hstore : ∀ old : ℤ, (if wouldOverflow old incr = true then (.keep : Change Score)
      else .store (.string (createStringObjectFromLongLong (old + incr))) 1).Dirty := by
    intro old
    by_cases h : wouldOverflow old incr = true
    · rw [if_pos h]
      trivial
    · rw [if_neg h]
      exact Nat.one_pos
  cases o with
  | none => exact hstore 0
  | some v =>
    cases v with
    | string v =>
      rw [incrDecrChange]
      cases getLongLongFromObject v.1 with
      | none => trivial
      | some old => exact hstore old
    | list _ => trivial
    | set _ => trivial
    | hash _ => trivial
    | zset _ => trivial

theorem appendChange_dirty (tail : Sds) (o : Option (Value Score)) : (appendChange tail o).Dirty := by
  cases o with
  | none => exact Nat.one_pos
  | some v =>
    cases v with
    | string v =>
      rw [appendChange]
      by_cases h : stringMax < v.1.length + tail.1.length
      · rw [if_pos h]
        trivial
      · rw [if_neg h]
        exact storeString_dirty _
    | list _ => trivial
    | set _ => trivial
    | hash _ => trivial
    | zset _ => trivial

theorem pushGenericChange_dirty (elements : List Sds) (w : Where) (o : Option (Value Score)) : (pushGenericChange elements w o).Dirty := by
  have hstore : ∀ l : List Sds, (if elements = [] then (.keep : Change Score)
      else .store (.list (elements.foldl (fun l v => listTypePush l v w) l)) elements.length).Dirty := by
    intro l
    by_cases h : elements = []
    · rw [if_pos h]
      trivial
    · rw [if_neg h]
      exact List.length_pos_of_ne_nil h
  cases o with
  | none => exact hstore []
  | some v =>
    cases v with
    | list l => exact hstore l
    | string _ => trivial
    | set _ => trivial
    | hash _ => trivial
    | zset _ => trivial

theorem pushxGenericChange_dirty (value : Sds) (w : Where) (o : Option (Value Score)) : (pushxGenericChange none value w o).Dirty := by
  cases o with
  | none => trivial
  | some v =>
    cases v with
    | list l => exact Nat.one_pos
    | string _ => trivial
    | set _ => trivial
    | hash _ => trivial
    | zset _ => trivial

theorem popGenericChange_dirty (w : Where) (o : Option (Value Score)) : (popGenericChange w o).Dirty := by
  cases o with
  | none => trivial
  | some v =>
    cases v with
    | list l =>
      rw [popGenericChange]
      cases listTypePop l w with
      | none => trivial
      | some r =>
        dsimp only
        rw [storeOrDelete]
        by_cases h : r.2 = []
        · rw [if_pos h]
          exact Nat.one_pos
        · rw [if_neg h]
          exact Nat.one_pos
    | string _ => trivial
    | set _ => trivial
    | hash _ => trivial
    | zset _ => trivial

theorem le_saddLoop : ∀ {elements : List Sds} {set : Finset Sds} {added : ℕ}, added ≤ (saddLoop elements (set, added)).2 := by
  intro elements
  induction elements with
  | nil =>
    intro set added
    exact Nat.le_refl _
  | cons x elements ih =>
    intro set added
    rw [saddLoop]
    by_cases h : x ∈ set
    · rw [if_pos h]
      exact ih
    · rw [if_neg h]
      exact Nat.le_of_succ_le ih

theorem saddChange_dirty {elements : List Sds} (hne : elements ≠ []) (o : Option (Value Score)) : (saddChange elements o).Dirty := by
  cases o with
  | none =>
    obtain ⟨x, rest, rfl⟩ := List.exists_cons_of_ne_nil hne
    have hfirst : saddLoop (x :: rest) (∅, 0) = saddLoop rest (insert x ∅, 0 + 1) := by
      rw [saddLoop, if_neg (Finset.notMem_empty x)]
    have hpos : 0 + 1 ≤ (saddLoop (x :: rest) (∅, 0)).2 := by
      exact le_saddLoop
    exact hpos
  | some v =>
    cases v with
    | set m =>
      rw [saddChange]
      by_cases h : (saddLoop elements (m, 0)).2 = 0
      · rw [if_pos h]
        trivial
      · rw [if_neg h]
        exact Nat.pos_of_ne_zero h
    | string _ => trivial
    | list _ => trivial
    | hash _ => trivial
    | zset _ => trivial

theorem sremChange_dirty (elements : List Sds) (o : Option (Value Score)) : (sremChange elements o).Dirty := by
  cases o with
  | none => trivial
  | some v =>
    cases v with
    | set m =>
      rw [sremChange]
      by_cases h : (sremLoop elements (m, 0)).2 = 0
      · rw [if_pos h]
        trivial
      rw [if_neg h]
      by_cases hnil : (sremLoop elements (m, 0)).1 = ∅
      · rw [if_pos hnil]
        exact Nat.pos_of_ne_zero h
      · rw [if_neg hnil]
        exact Nat.pos_of_ne_zero h
    | string _ => trivial
    | list _ => trivial
    | hash _ => trivial
    | zset _ => trivial

theorem hsetChange_dirty (field value : Sds) (o : Option (Value Score)) : (hsetChange field value o).Dirty := by
  rw [hsetChange]
  cases Value.asHash o with
  | none => trivial
  | some h => exact Nat.one_pos

theorem hdelChange_dirty (fields : List Sds) (o : Option (Value Score)) : (hdelChange fields o).Dirty := by
  cases o with
  | none => trivial
  | some v =>
    cases v with
    | hash m =>
      rw [hdelChange]
      by_cases h : (hdelLoop fields (m, 0)).2 = 0
      · rw [if_pos h]
        trivial
      rw [if_neg h]
      by_cases hnil : (hdelLoop fields (m, 0)).1.keys = ∅
      · rw [if_pos hnil]
        exact Nat.pos_of_ne_zero h
      · rw [if_neg hnil]
        exact Nat.pos_of_ne_zero h
    | string _ => trivial
    | list _ => trivial
    | set _ => trivial
    | zset _ => trivial

theorem le_zaddLoop (floats : Floats Score) (incr : Bool) : ∀ {pairs : List (Score × Sds)} {z : ScoreMap Score} {changed : ℕ},
    changed ≤ (Keyspace.zaddLoop floats incr pairs (z, changed)).2 := by
  intro pairs
  induction pairs with
  | nil =>
    intro z changed
    exact Nat.le_refl _
  | cons p pairs ih =>
    intro z changed
    obtain ⟨score, ele⟩ := p
    rw [Keyspace.zaddLoop]
    cases z.lookup ele with
    | none => exact Nat.le_of_succ_le ih
    | some curscore =>
      dsimp only
      cases (if incr = true then floats.add score curscore else some score) with
      | none => exact Nat.le_refl _
      | some score =>
        dsimp only
        by_cases h : floats.eq score curscore = true
        · rw [if_pos h]
          exact ih
        · rw [if_neg h]
          exact Nat.le_of_succ_le ih

theorem zaddGenericChange_dirty (floats : Floats Score) (incr : Bool) {pairs : List (Score × Sds)} (hne : pairs ≠ []) (o : Option (Value Score)) :
    (zaddGenericChange floats incr pairs o).Dirty := by
  cases o with
  | none =>
    obtain ⟨⟨score, ele⟩, rest, rfl⟩ := List.exists_cons_of_ne_nil hne
    have hfirst : Keyspace.zaddLoop floats incr ((score, ele) :: rest) (∅, 0) = Keyspace.zaddLoop floats incr rest (Finmap.insert ele score ∅, 0 + 1) := by
      rw [Keyspace.zaddLoop, Finmap.lookup_empty]
    have hpos : 0 + 1 ≤ (Keyspace.zaddLoop floats incr ((score, ele) :: rest) (∅, 0)).2 := by
      exact le_zaddLoop floats incr
    exact hpos
  | some v =>
    cases v with
    | zset z =>
      rw [zaddGenericChange]
      by_cases h : (Keyspace.zaddLoop floats incr pairs (z, 0)).2 = 0
      · rw [if_pos h]
        trivial
      · rw [if_neg h]
        exact Nat.pos_of_ne_zero h
    | string _ => trivial
    | list _ => trivial
    | set _ => trivial
    | hash _ => trivial

theorem zremChange_dirty (elements : List Sds) (o : Option (Value Score)) : (zremChange elements o).Dirty := by
  cases o with
  | none => trivial
  | some v =>
    cases v with
    | zset z =>
      rw [zremChange, storeRemaining]
      by_cases h : (zremLoop elements (z, 0)).2 = 0
      · rw [if_pos h]
        trivial
      rw [if_neg h]
      by_cases hnil : (zremLoop elements (z, 0)).1.keys = ∅
      · rw [if_pos hnil]
        exact Nat.pos_of_ne_zero h
      · rw [if_neg hnil]
        exact Nat.pos_of_ne_zero h
    | string _ => trivial
    | list _ => trivial
    | set _ => trivial
    | hash _ => trivial

end KVStores.Redis
