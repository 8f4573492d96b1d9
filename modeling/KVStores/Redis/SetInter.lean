import KVStores.Redis.SetAlgebra

/-!
# Intersections of sets
-/

namespace KVStores.Redis.SetType

open List Option

variable {server : Server} {s : SetObj} {S : Finset (List UInt8)} {es : List Element}

theorem elements_long (h : s.Represents S) (hes : setTypeElements s = some es) {v : ℤ} (hv : .int v ∈ es) : IsLong v := by
  cases h with
  | ht h =>
    cases hes
    obtain ⟨o, -, ho⟩ := List.mem_map.1 hv
    cases ho
  | intset h =>
    rw [setTypeElements, intsetElements_all h] at hes
    cases hes
    obtain ⟨w, hw, he⟩ := List.mem_map.1 hv
    cases he
    exact long_of_mem h hw

variable {e : Element}

theorem sinterFind_spec (h : s.Represents S) (he : ∀ v, e = .int v → IsLong v) :
    sinterFind e s = some (decide (getDecodedObject e.object ∈ S)) := by
  cases e with
  | int v =>
    have hlong := he v rfl
    have hbytes := decoded_integer hlong
    cases h with
    | ht h => exact setTypeIsMember_spec (.ht h) _
    | intset h =>
      rename_i is l
      rw [sinterFind, intsetFind_spec h ⟨v, hlong⟩, Option.some.injEq, Element.object, hbytes]
      exact decide_eq_decide.2 ((mem_integers h ⟨v, hlong⟩).symm.trans List.mem_toFinset.symm)
  | obj o =>
    cases o with
    | raw t => cases h with
      | ht h => exact setTypeIsMember_spec (.ht h) _
      | intset h => exact setTypeIsMember_spec (.intset h) _
    | int v => cases h with
      | ht h => exact setTypeIsMember_spec (.ht h) _
      | intset h =>
        rename_i is l
        have hmember := setTypeIsMember_spec (.intset h) (.int v)
        have hfind : intsetFind is v.1 = some (decide (ll2string v.1 ∈ (l.map ll2string).toFinset)) := by
          rw [intsetFind_spec h, Option.some.injEq]
          exact decide_eq_decide.2 ((mem_integers h v).symm.trans List.mem_toFinset.symm)
        rw [sinterFind, hfind, bind_some, hmember]
        by_cases hin : ll2string v.1 ∈ (l.map ll2string).toFinset
        · rw [decide_eq_true hin, if_neg (Bool.noConfusion)]
          rfl
        · rw [decide_eq_false hin, if_pos rfl, Option.some.injEq]
          exact (decide_eq_false hin).symm

variable {members : Sds → Finset (List UInt8)} {first : Sds}

theorem sinterAll_spec (he : ∀ v, e = .int v → IsLong v) (hfirst : getDecodedObject e.object ∈ members first) :
    ∀ (sets : List (Sds × SetObj)), (∀ p ∈ sets, p.2.Represents (members p.1)) →
      sinterAll first e sets = some (decide (∀ p ∈ sets, getDecodedObject e.object ∈ members p.1)) := by
  intro sets
  induction sets with
  | nil => exact fun _ => congrArg some (decide_eq_true fun p hp => absurd hp not_mem_nil).symm
  | cons p sets ih =>
    intro hsets
    obtain ⟨key, s⟩ := p
    obtain ⟨hs, hsets⟩ := forall_mem_cons.1 hsets
    rw [sinterAll]
    have hcons : (∀ p ∈ (key, s) :: sets, getDecodedObject e.object ∈ members p.1) ↔
        getDecodedObject e.object ∈ members key ∧ ∀ p ∈ sets, getDecodedObject e.object ∈ members p.1 := forall_mem_cons
    by_cases hkey : key = first
    · rw [if_pos hkey, ih hsets, Option.some.injEq]
      exact decide_eq_decide.2 (hcons.trans (and_iff_right (hkey ▸ hfirst))).symm
    · rw [if_neg hkey, sinterFind_spec hs he, bind_some]
      by_cases hin : getDecodedObject e.object ∈ members key
      · rw [decide_eq_true hin, if_neg (Bool.noConfusion), ih hsets, Option.some.injEq]
        exact decide_eq_decide.2 (hcons.trans (and_iff_right hin)).symm
      · rw [decide_eq_false hin, if_pos rfl, Option.some.injEq]
        exact (decide_eq_false fun hall => hin (hcons.1 hall).1).symm

theorem sinterElements_spec {others : List (Sds × SetObj)} (hothers : ∀ p ∈ others, p.2.Represents (members p.1)) :
    ∀ (es : List Element), (∀ v, .int v ∈ es → IsLong v) → (∀ e ∈ es, getDecodedObject e.object ∈ members first) →
      sinterElements first others es = some (es.filter fun e => decide (∀ p ∈ others, getDecodedObject e.object ∈ members p.1)) := by
  intro es
  induction es with
  | nil => exact fun _ _ => rfl
  | cons e es ih =>
    intro hlong hfirst
    obtain ⟨he, hfirst⟩ := forall_mem_cons.1 hfirst
    rw [sinterElements, sinterAll_spec (fun v hv => hlong v (hv ▸ mem_cons_self)) he others hothers, bind_some,
      ih (fun v hv => hlong v (mem_cons_of_mem _ hv)) hfirst, map_some, filter_cons]

/-- **The elements that are left are stored.** -/
theorem sinterStore_spec (hserver : server.Modest) : ∀ (es : List Element) {dstset : SetObj} {S : Finset (List UInt8)}, dstset.Represents S → dstset.Small →
    ∃ dstset', sinterStore server es dstset = some dstset' ∧ dstset'.Represents (S ∪ (stringsOf es).toFinset) ∧ dstset'.Small := by
  intro es
  induction es with
  | nil =>
    intro dstset S h hsmall
    exact ⟨dstset, rfl, by rwa [stringsOf, map_nil, toFinset_nil, Finset.union_empty], hsmall⟩
  | cons e es ih =>
    intro dstset S h hsmall
    have hroom := hsmall.hasRoom h e.object
    obtain ⟨s₁, hadd, h₁⟩ := setTypeAdd_spec server h e.object hroom
    obtain ⟨s₂, hstore, h₂, hsmall₂⟩ := ih h₁ (setTypeAdd_small hserver h hsmall hroom hadd)
    refine ⟨s₂, by rw [sinterStore, hadd, bind_some, hstore], ?_, hsmall₂⟩
    rwa [stringsOf_cons, toFinset_cons, Finset.union_insert, ← Finset.insert_union]

end KVStores.Redis.SetType
