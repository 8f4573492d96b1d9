import KVStores.Lib.Ranked
import KVStores.Redis.HashTypeRun
import KVStores.Redis.SortCommand
import Mathlib.Data.List.GetD

/-!
# The order of SORT

What the vector of `SORT` holds when it has been sorted, and what is sent for its objects, as strings.

* `window_agree`: **`pqsort` and `qsort` agree in the range**, where the comparison is a strict total order.
-/

namespace KVStores.Redis.Sort

open List

open Gdb (cstr)

section Window

variable {α β : Type} {cmp : α → α → ℤ} {bytes : α → β} {l : List α} {es : ℕ} {start stop : ℤ}

/-- A comparison makes a strict total order on the elements of a list, as far as they have different strings. -/
structure StrictOrder (cmp : α → α → ℤ) (bytes : α → β) (l : List α) : Prop where
  total : TotalOn cmp l
  strict : ∀ x ∈ l, ∀ y ∈ l, cmp x y = 0 → bytes x = bytes y

theorem map_getD_range (l : List α) (x : α) : (List.range l.length).map (fun j => l.getD j x) = l := by
  refine ext_getElem (by rw [length_map, length_range]) fun i h1 h2 => ?_
  rw [getElem_map, getElem_range, getD_eq_getElem _ _ h2]

theorem getD_mem {x : α} (hx : x ∈ l) (j : ℕ) : l.getD j x ∈ l := by
  by_cases hj : j < l.length
  · rw [getD_eq_getElem _ _ hj]
    exact getElem_mem hj
  · rw [getD_eq_default _ _ (not_lt.1 hj)]
    exact hx

theorem orders_of_total (h : TotalOn cmp l) {x : α} (hx : x ∈ l) : Orders cmp (rank cmp l) fun j => l.getD j x where
  lt := fun i j => (h.rank_lt_iff (getD_mem hx i) (getD_mem hx j)).symm
  gt := fun i j => by
    rw [h.rank_lt_iff (getD_mem hx j) (getD_mem hx i)]
    exact (h.flip _ (getD_mem hx j) _ (getD_mem hx i)).symm

theorem arranged_of_pairwise {κ : Type*} [LinearOrder κ] {key : α → κ} (h : l.Pairwise fun a b => key a ≤ key b) (x : α) {k : ℕ} (hk : k < l.length) :
    Arranged (fun j => key (l.getD j x)) 0 l.length k := by
  refine Arranged.of_sorted (fun i j _ hij hj => ?_) (Nat.zero_le k) hk
  rw [getD_eq_getElem _ _ hj, getD_eq_getElem _ _ (Nat.lt_of_le_of_lt hij hj)]
  rcases Nat.eq_or_lt_of_le hij with rfl | hlt
  · exact le_rfl
  · exact pairwise_iff_getElem.1 h i j _ _ hlt

theorem qsort_perm (cmp : α → α → ℤ) (l : List α) : (qsort cmp l).Perm l := mergeSort_perm l _

theorem pqsortList_perm (start stop : ℤ) (hes : 0 < es) (h : TotalOn cmp l) (hsize : l.length * es < 2 ^ 63) : (pqsortList cmp es start stop l).Perm l := by
  cases l with
  | nil => exact List.Perm.nil
  | cons x rest =>
    have hmoved := (pqsort_settles start stop hes (orders_of_total h mem_cons_self) hsize).1.perm
    rwa [map_getD_range] at hmoved

theorem window_agree (bytes : α → β) (hes : 0 < es) (h : StrictOrder cmp bytes l) (hsize : l.length * es < 2 ^ 63) (hstart : 0 ≤ start) (hstop : stop < l.length)
    {k : ℕ} (hk : start ≤ k ∧ (k : ℤ) ≤ stop) : ((pqsortList cmp es start stop l)[k]?).map bytes = ((qsort cmp l)[k]?).map bytes := by
  have hperm := pqsortList_perm start stop hes h.total hsize
  have hkl : k < l.length := by omega
  have hk1 : k < (pqsortList cmp es start stop l).length := by rwa [hperm.length_eq]
  have hk2 : k < (qsort cmp l).length := by rwa [(qsort_perm cmp l).length_eq]
  rw [List.getElem?_eq_getElem hk1, List.getElem?_eq_getElem hk2, Option.map_some, Option.map_some, Option.some_inj]
  have hmem1 := hperm.mem_iff.1 (getElem_mem hk1)
  have hmem2 := (qsort_perm cmp l).mem_iff.1 (getElem_mem hk2)
  refine h.strict _ hmem1 _ hmem2 ((h.total.rank_eq_iff hmem1 hmem2).1 ?_)
  cases l with
  | nil => cases hkl
  | cons x rest =>
    -- the place is arranged in both vectors, and both have the same elements
    have hsettled := (pqsort_settles start stop hes (orders_of_total h.total mem_cons_self) hsize).2 k hstart hstop hk.1 hk.2
    have hsorted := arranged_of_pairwise h.total.mergeSort_ranked x (k := k) hk2
    have hlen : (qsort cmp (x :: rest)).length = (x :: rest).length := (qsort_perm cmp (x :: rest)).length_eq
    have hranks : ((List.range (x :: rest).length).map fun j => rank cmp (x :: rest) ((qsort cmp (x :: rest)).getD j x)) =
        (qsort cmp (x :: rest)).map (rank cmp (x :: rest)) := by
      rw [← hlen]
      have hmap := congrArg (List.map (rank cmp (x :: rest))) (map_getD_range (qsort cmp (x :: rest)) x)
      rwa [map_map] at hmap
    have hsame : ((List.range (x :: rest).length).map fun j => rank cmp (x :: rest)
        (pqsort cmp (fun j => (x :: rest).getD j x) (x :: rest).length es start stop j)).Perm
        ((List.range (x :: rest).length).map fun j => rank cmp (x :: rest) ((qsort cmp (x :: rest)).getD j x)) := by
      rw [hranks]
      have hmap := (hperm.trans (qsort_perm cmp (x :: rest)).symm).map (rank cmp (x :: rest))
      rwa [pqsortList, map_map] at hmap
    have hsorted' : Arranged (fun j => rank cmp (x :: rest) ((qsort cmp (x :: rest)).getD j x)) 0 (x :: rest).length k := by
      rw [← hlen]
      exact hsorted
    have heq := hsettled.agree hsorted' hsame hkl
    have hleft : (pqsortList cmp es start stop (x :: rest))[k] = pqsort cmp (fun j => (x :: rest).getD j x) (x :: rest).length es start stop k := by
      simp only [pqsortList, getElem_map, getElem_range]
    have hright : (qsort cmp (x :: rest))[k] = (qsort cmp (x :: rest)).getD k x := (getD_eq_getElem _ _ hk2).symm
    rw [hleft, hright]
    exact heq

end Window

variable {S T : Type} {server : Server S T} {db : Db S} {o : Options} {objs : List Robj}

def HashesIntact (db : Db S) : Prop := ∀ key h, db key = some (.hash h) → ∃ m, HashType.HashObj.Represents h m

theorem lookupKeyAndField_some (hdb : HashesIntact db) (key : List UInt8) (field : Option (List UInt8)) :
    (lookupKeyAndField db key field).isSome = true := by
  unfold lookupKeyAndField
  split
  · rfl
  · rename_i h field heq
    obtain ⟨m, hm⟩ := hdb key h heq
    obtain ⟨v, hv, -⟩ := HashType.hashTypeGetObject_spec hm (.raw field)
    rw [hv]
    rfl
  · rfl

theorem lookupKeyByPattern_spec (hdb : HashesIntact db) (pattern : List UInt8) (obj : Robj) : ∃ v v', lookupKeyByPattern db pattern obj = some v ∧
    lookupKeyByPattern db pattern (.raw (getDecodedObject obj)) = some v' ∧ v.map getDecodedObject = v'.map getDecodedObject := by
  unfold lookupKeyByPattern
  by_cases hself : pattern.head? = some 35 ∧ atEnd pattern.tail = true
  · rw [if_pos hself, if_pos hself]
    exact ⟨_, _, rfl, rfl, rfl⟩
  rw [if_neg hself, if_neg hself]
  by_cases hstar : hasStar pattern = false
  · rw [if_pos hstar, if_pos hstar]
    exact ⟨_, _, rfl, rfl, rfl⟩
  rw [if_neg hstar, if_neg hstar]
  obtain ⟨v, hv⟩ := Option.isSome_iff_exists.1 (lookupKeyAndField_some hdb
    (pattern.take (pattern.takeWhile fun c => decide (c ≠ 42)).length ++ getDecodedObject obj ++
      (splitPattern (pattern.drop ((pattern.takeWhile fun c => decide (c ≠ 42)).length + 1))).1)
    (splitPattern (pattern.drop ((pattern.takeWhile fun c => decide (c ≠ 42)).length + 1))).2)
  exact ⟨v, v, hv, hv, rfl⟩

theorem byValue_some (hdb : HashesIntact db) (o : Options) (obj : Robj) : ∃ v, byValue db o obj = some v := by
  unfold byValue
  split
  · obtain ⟨v, -, hv, -⟩ := lookupKeyByPattern_spec hdb _ obj
    exact ⟨v, hv⟩
  · exact ⟨_, rfl⟩

theorem scoreLoop_spec (doubles : Doubles T) (hdb : HashesIntact db) (o : Options) : ∀ (objs : List Robj) (c : Conversion),
    ∃ vec c', scoreLoop doubles db o objs c = some (vec, c') ∧ vec.map SortObject.obj = objs := by
  intro objs
  induction objs with
  | nil => exact fun c => ⟨[], c, rfl, rfl⟩
  | cons obj objs ih =>
    intro c
    obtain ⟨byval, hby⟩ := byValue_some hdb o obj
    obtain ⟨vec, c', hloop, hobjs⟩ := ih (loadScore doubles o obj byval c).2
    refine ⟨(loadScore doubles o obj byval c).1 :: vec, c', ?_, ?_⟩
    · rw [scoreLoop, hby, Option.bind_some, hloop]
      rfl
    · have hobj : (loadScore doubles o obj byval c).1.obj = obj := by
        unfold loadScore
        split
        · rfl
        · split_ifs <;> try rfl
          split <;> rfl
      rw [map_cons, hobj, hobjs]

/-- A string that `strtod` does not take for a number. -/
def NoNumber (doubles : Doubles T) (erange : Bool) (byval : Option Robj) : Prop := ∃ s, byval = some (.raw s) ∧
  (atEnd (doubles.strtod (cstr s).bytes).eptr = false ∨ (erange || (doubles.strtod (cstr s).bytes).erange) = true ∨
    doubles.isnan (doubles.strtod (cstr s).bytes).value = true)

variable {doubles : Doubles T} {obj : Robj} {byval : Option Robj} {c : Conversion}

theorem loadScore_error : (loadScore doubles o obj byval c).2.error = true ↔ c.error = true ∨ o.alpha = false ∧ NoNumber doubles c.erange byval := by
  unfold loadScore NoNumber
  cases byval with
  | none =>
    refine ⟨Or.inl, fun h => h.resolve_right ?_⟩
    rintro ⟨-, s, hc, -⟩
    cases hc
  | some byval =>
    dsimp only
    by_cases halpha : o.alpha = true
    · rw [if_pos halpha, halpha]
      refine ⟨Or.inl, fun h => h.resolve_right ?_⟩
      rintro ⟨hc, -⟩
      cases hc
    · rw [if_neg halpha]
      rw [Bool.not_eq_true] at halpha
      cases byval with
      | int v =>
        refine ⟨Or.inl, fun h => h.resolve_right ?_⟩
        rintro ⟨-, s, hc, -⟩
        cases hc
      | raw s =>
        have hbad : (c.error || (!atEnd (doubles.strtod (cstr s).bytes).eptr || (c.erange || (doubles.strtod (cstr s).bytes).erange) ||
            doubles.isnan (doubles.strtod (cstr s).bytes).value)) = true ↔ c.error = true ∨ (atEnd (doubles.strtod (cstr s).bytes).eptr = false ∨
            (c.erange || (doubles.strtod (cstr s).bytes).erange) = true ∨ doubles.isnan (doubles.strtod (cstr s).bytes).value = true) := by
          rw [Bool.or_eq_true, Bool.or_eq_true, Bool.or_eq_true, Bool.not_eq_true', or_assoc]
        refine hbad.trans (or_congr_right ⟨fun h => ⟨halpha, s, rfl, h⟩, ?_⟩)
        rintro ⟨-, s', hs, h⟩
        cases hs
        exact h

theorem loadScore_erange (h : (loadScore doubles o obj byval c).2.error = false) : (loadScore doubles o obj byval c).2.erange = c.erange := by
  unfold loadScore at h ⊢
  cases byval with
  | none => rfl
  | some byval =>
    dsimp only at h ⊢
    by_cases halpha : o.alpha = true
    · rw [if_pos halpha]
    · rw [if_neg halpha] at h ⊢
      cases byval with
      | int v => rfl
      | raw s =>
        dsimp only at h ⊢
        rw [Bool.or_eq_false_iff, Bool.or_eq_false_iff, Bool.or_eq_false_iff] at h
        have herange := h.2.1.2
        rw [herange]
        rw [Bool.or_eq_false_iff] at herange
        exact herange.1.symm

def Unconvertible (doubles : Doubles T) (erange : Bool) (db : Db S) (o : Options) (objs : List Robj) : Prop :=
  o.alpha = false ∧ ∃ obj ∈ objs, ∃ byval, byValue db o obj = some byval ∧ NoNumber doubles erange byval

/-- **The loop over the scores fails** when there is such a value. -/
theorem scoreLoop_error : ∀ (objs : List Robj) {c c' : Conversion} {vec : List (SortObject T)}, scoreLoop doubles db o objs c = some (vec, c') →
    (c'.error = true ↔ c.error = true ∨ Unconvertible doubles c.erange db o objs) := by
  intro objs
  induction objs with
  | nil =>
    intro c c' vec h
    obtain ⟨-, rfl⟩ := Prod.mk.inj (Option.some.inj h)
    refine ⟨Or.inl, fun h => h.resolve_right ?_⟩
    rintro ⟨-, obj, hobj, -⟩
    cases hobj
  | cons obj objs ih =>
    intro c c' vec h
    obtain ⟨byval, hby, h⟩ := Option.bind_eq_some_iff.1 h
    obtain ⟨r, hloop, h⟩ := Option.map_eq_some_iff.1 h
    obtain ⟨-, rfl⟩ := Prod.mk.inj h
    have hone : (loadScore doubles o obj byval c).2.error = true ↔ c.error = true ∨ o.alpha = false ∧ NoNumber doubles c.erange byval := loadScore_error
    have hall : Unconvertible doubles c.erange db o (obj :: objs) ↔
        (o.alpha = false ∧ NoNumber doubles c.erange byval) ∨ Unconvertible doubles c.erange db o objs := by
      constructor
      · rintro ⟨halpha, a, ha, v, hv, hno⟩
        rcases mem_cons.1 ha with rfl | ha
        · rw [hby] at hv
          cases hv
          exact Or.inl ⟨halpha, hno⟩
        · exact Or.inr ⟨halpha, a, ha, v, hv, hno⟩
      · rintro (⟨halpha, hno⟩ | ⟨halpha, a, ha, h⟩)
        · exact ⟨halpha, obj, mem_cons_self, byval, hby, hno⟩
        · exact ⟨halpha, a, mem_cons_of_mem obj ha, h⟩
    rw [ih hloop, hall, ← or_assoc, ← hone]
    by_cases herror : (loadScore doubles o obj byval c).2.error = true
    · exact iff_of_true (Or.inl herror) (Or.inl herror)
    · rw [loadScore_erange (Bool.eq_false_iff.2 herror)]

variable [LT T] [DecidableLT T]

/-- The comparison is a strict total order on the elements, if they are sorted and have scores. -/
def Comparable (server : Server S T) (db : Db S) (o : Options) (objs : List Robj) : Prop :=
  o.dontsort = false → ∀ vec c, scoreLoop server.doubles db o objs ⟨server.erange, false⟩ = some (vec, c) → c.error = false →
    StrictOrder (sortCompare server.strcoll o) (fun so => getDecodedObject so.obj) vec

theorem ordered_spec (hdb : HashesIntact db) (hcmp : Comparable server db o objs) (hsize : objs.length < 2 ^ 31) :
    ∃ (strings : List (List UInt8)) (err : Bool), strings.length = objs.length ∧
      (err = true ↔ o.dontsort = false ∧ Unconvertible server.doubles server.erange db o objs) ∧
      ∀ start stop : ℤ, ∃ objs', ordered server db o ⟨objs, start, stop, objs.length⟩ = some (objs', err) ∧
        (err = false → 0 ≤ start → stop < objs.length → ∀ k : ℕ, start ≤ k → (k : ℤ) ≤ stop → (objs'[k]?).map getDecodedObject = strings[k]?) := by
  by_cases hsort : o.dontsort = true
  · refine ⟨objs.map getDecodedObject, false, length_map _, ?_, fun start stop => ⟨objs, if_pos hsort, fun _ _ _ k _ _ => ?_⟩⟩
    · rw [hsort]
      refine iff_of_false Bool.false_ne_true ?_
      rintro ⟨hc, -⟩
      cases hc
    · rw [List.getElem?_map]
  · obtain ⟨vec, c, hloop, hobjs⟩ := scoreLoop_spec server.doubles hdb o objs ⟨server.erange, false⟩
    have hlen : vec.length = objs.length := by rw [← hobjs, length_map]
    refine ⟨(qsort (sortCompare server.strcoll o) vec).map fun so => getDecodedObject so.obj, c.error, ?_, ?_, fun start stop => ?_⟩
    · rw [length_map, (qsort_perm _ vec).length_eq, hlen]
    · rw [scoreLoop_error objs hloop]
      refine ⟨fun h => ⟨Bool.eq_false_iff.2 hsort, h.resolve_left Bool.false_ne_true⟩, fun h => Or.inr h.2⟩
    · refine ⟨(sortVector server o ⟨objs, start, stop, objs.length⟩ vec).map SortObject.obj, ?_, fun herr hstart hstop k hk1 hk2 => ?_⟩
      · rw [ordered, if_neg hsort, hloop]
        rfl
      · have hstrict := hcmp (Bool.eq_false_iff.2 hsort) vec c hloop herr
        rw [List.getElem?_map, List.getElem?_map, Option.map_map]
        unfold sortVector
        by_cases hpq : o.sortby.isSome = true ∧ (start ≠ 0 ∨ stop ≠ toInt (objs.length - 1))
        · rw [if_pos hpq]
          refine window_agree (fun so : SortObject T => getDecodedObject so.obj) (by decide) hstrict ?_ hstart (hlen.symm ▸ hstop) ⟨hk1, hk2⟩
          rw [hlen, sortObjectSize]
          omega
        · rw [if_neg hpq]
          rfl

omit [LT T] [DecidableLT T]

def sentRow (db : Db S) (operations : List Sds) (s : List UInt8) : List (Option (List UInt8)) :=
  ((row db operations (.raw s)).getD []).map (Option.map getDecodedObject)

theorem getLoop_spec (hdb : HashesIntact db) (obj : Robj) : ∀ operations : List Sds, ∃ vals vals', getLoop db obj operations = some vals ∧
    getLoop db (.raw (getDecodedObject obj)) operations = some vals' ∧ vals.map (Option.map getDecodedObject) = vals'.map (Option.map getDecodedObject) ∧
    vals'.length = operations.length := by
  intro operations
  induction operations with
  | nil => exact ⟨[], [], rfl, rfl, rfl, rfl⟩
  | cons pattern operations ih =>
    obtain ⟨vals, vals', h1, h2, h3, h4⟩ := ih
    obtain ⟨v, v', h5, h6, h7⟩ := lookupKeyByPattern_spec hdb pattern.1 obj
    refine ⟨v :: vals, v' :: vals', ?_, ?_, ?_, congrArg Nat.succ h4⟩
    · rw [getLoop, h5, Option.bind_some, h1, Option.map_some]
    · rw [getLoop, h6, Option.bind_some, h2, Option.map_some]
    · rw [map_cons, map_cons, h3, h7]

def Options.perElement (o : Options) : ℕ := if o.operations = [] then 1 else o.operations.length

theorem Options.perElement_pos (o : Options) : 0 < o.perElement := by
  unfold Options.perElement
  by_cases hnil : o.operations = []
  · rw [if_pos hnil]
    exact Nat.one_pos
  · rw [if_neg hnil]
    exact length_pos_iff.2 hnil

theorem row_spec (hdb : HashesIntact db) (operations : List Sds) (obj : Robj) : ∃ vals, row db operations obj = some vals ∧
    vals.map (Option.map getDecodedObject) = sentRow db operations (getDecodedObject obj) := by
  unfold sentRow row
  by_cases hnil : operations = []
  · rw [if_pos hnil, if_pos hnil]
    exact ⟨_, rfl, rfl⟩
  · rw [if_neg hnil, if_neg hnil]
    obtain ⟨vals, vals', h1, h2, h3, -⟩ := getLoop_spec hdb obj operations
    exact ⟨vals, h1, by rw [h2]; exact h3⟩

theorem sentRow_length (hdb : HashesIntact db) (o : Options) (s : List UInt8) : (sentRow db o.operations s).length = o.perElement := by
  unfold sentRow row Options.perElement
  rw [length_map]
  by_cases hnil : o.operations = []
  · rw [if_pos hnil, if_pos hnil]
    rfl
  · rw [if_neg hnil, if_neg hnil]
    obtain ⟨-, vals', -, h2, -, h4⟩ := getLoop_spec hdb (.raw s) o.operations
    have hraw : getDecodedObject (.raw s) = s := rfl
    rw [hraw] at h2
    rw [h2]
    exact h4

/-- **The loop over the range** gives the rows of the elements in it. -/
theorem outputLoop_spec (hdb : HashesIntact db) (operations : List Sds) (vector : List Robj) (strings : List (List UInt8)) : ∀ (n j : ℕ),
    (∀ k, j ≤ k → k < j + n → ∃ s, (vector[k]?).map getDecodedObject = some s ∧ strings[k]? = some s) →
    ∃ vals, outputLoop db operations vector n j = some vals ∧
      vals.map (Option.map getDecodedObject) = ((strings.drop j).take n).flatMap (sentRow db operations) := by
  intro n
  induction n with
  | zero =>
    intro j _
    exact ⟨[], rfl, by rw [take_zero]; rfl⟩
  | succ n ih =>
    intro j h
    obtain ⟨s, hs, hs'⟩ := h j le_rfl (by omega)
    obtain ⟨obj, hobj, rfl⟩ := Option.map_eq_some_iff.1 hs
    obtain ⟨vals, hvals, hsent⟩ := row_spec hdb operations obj
    obtain ⟨rest, hrest, hsent'⟩ := ih (j + 1) fun k h1 h2 => h k (by omega) (by omega)
    refine ⟨vals ++ rest, ?_, ?_⟩
    · have hcast : (j : ℤ) + 1 = ((j + 1 : ℕ) : ℤ) := by push_cast; rfl
      rw [outputLoop, if_pos (by omega), Int.toNat_natCast, hobj, Option.bind_some, hvals, Option.bind_some, hcast, hrest, Option.map_some]
    · obtain ⟨hj, hget⟩ := List.getElem?_eq_some_iff.1 hs'
      rw [map_append, hsent, hsent', drop_eq_getElem_cons hj, hget, take_succ_cons, flatMap_cons]

end KVStores.Redis.Sort
