import KVStores.Redis.IntsetRun
import KVStores.Redis.SetType

/-!
# What sets stand for

`SetObj.Represents`: the strings that a set has, in either encoding.
-/

namespace KVStores.Redis.SetType

open List Option

theorem representable_iff {o : Robj} {v : Long} : isObjectRepresentableAsLongLong o = some v ↔ getDecodedObject o = ll2string v.1 := by
  cases o with
  | raw s => exact string2ll_iff
  | int w =>
    rw [isObjectRepresentableAsLongLong, Option.some.injEq, getDecodedObject]
    constructor
    · rintro rfl
      rfl
    · intro h
      exact Option.some.inj ((string2ll_iff.2 rfl).symm.trans (string2ll_iff.2 h))

theorem ll2string_inj {v w : Long} (h : ll2string v.1 = ll2string w.1) : v = w :=
  Option.some.inj ((string2ll_iff.2 rfl).symm.trans (string2ll_iff.2 h))

def IsLong (v : ℤ) : Prop := -2 ^ 63 ≤ v ∧ v < 2 ^ 63

variable {v : ℤ}

theorem decoded_integer (h : IsLong v) : getDecodedObject (StringType.createStringObjectFromLongLong v) = ll2string v := by
  exact congrArg getDecodedObject (dif_pos h)

theorem isLong_of_fits {w : ℕ} (hw : w = 2 ∨ w = 4 ∨ w = 8) (h : Packed.FitsWidth w v) : IsLong v := by
  have hwide := h.mono (show w ≤ 8 by omega)
  have hpow : (256 : ℤ) ^ 8 = 18446744073709551616 := by norm_num
  rw [Packed.FitsWidth, hpow] at hwide
  rw [IsLong]
  omega

theorem dictFind_iff {d : List Robj} {key : Robj} : dictFind d key = true ↔ getDecodedObject key ∈ keysOf d := by
  rw [dictFind, List.any_eq_true, keysOf, List.mem_map]
  constructor
  · rintro ⟨o, ho, heq⟩
    exact ⟨o, ho, (dictEncObjKeyCompare_iff.1 heq).symm⟩
  · rintro ⟨o, ho, heq⟩
    exact ⟨o, ho, dictEncObjKeyCompare_iff.2 heq.symm⟩

theorem keysOf_cons (o : Robj) (d : List Robj) : keysOf (o :: d) = getDecodedObject o :: keysOf d := rfl

theorem keysOf_eraseP (d : List Robj) (key : Robj) : keysOf (d.eraseP (dictEncObjKeyCompare key)) = (keysOf d).erase (getDecodedObject key) := by
  induction d with
  | nil => rfl
  | cons o d ih =>
    rw [keysOf_cons, erase_cons]
    by_cases h : dictEncObjKeyCompare key o = true
    · have hbytes := dictEncObjKeyCompare_iff.1 h
      rw [eraseP_cons_of_pos h, if_pos (by rw [hbytes]; exact beq_self_eq_true _)]
    · have hbytes : getDecodedObject o ≠ getDecodedObject key := fun he => h (dictEncObjKeyCompare_iff.2 he.symm)
      rw [eraseP_cons_of_neg h, if_neg (by rwa [beq_iff_eq]), keysOf_cons, ih]

/-- **The strings of a set.** -/
inductive SetObj.Represents : SetObj → Finset (List UInt8) → Prop
  | intset {is : Intset} {l : List ℤ} (h : is.Holds l) : Represents (.intset is) (l.map ll2string).toFinset
  | ht {d : List Robj} (h : (keysOf d).Nodup) : Represents (.ht d) (keysOf d).toFinset

variable {s : SetObj} {is : Intset} {l : List ℤ} {d : List Robj} {S : Finset (List UInt8)}

theorem long_of_mem (h : is.Holds l) (hv : v ∈ l) : IsLong v := isLong_of_fits h.encoding (h.fits v hv)

theorem mem_integers (h : is.Holds l) (v : Long) : ll2string v.1 ∈ l.map ll2string ↔ v.1 ∈ l := by
  constructor
  · intro hmem
    obtain ⟨w, hw, heq⟩ := List.mem_map.1 hmem
    have hsame := ll2string_inj (v := ⟨w, long_of_mem h hw⟩) (w := v) heq
    rw [← hsame]
    exact hw
  · exact fun hmem => List.mem_map_of_mem hmem

theorem not_integer (h : is.Holds l) {value : Robj} (hvalue : isObjectRepresentableAsLongLong value = none) : getDecodedObject value ∉ l.map ll2string := by
  rw [List.mem_map]
  rintro ⟨v, hv, heq⟩
  have hlong : isObjectRepresentableAsLongLong value = some ⟨v, long_of_mem h hv⟩ := representable_iff.2 heq.symm
  rw [hvalue] at hlong
  cases hlong

theorem nodup_integers (h : is.Holds l) : (l.map ll2string).Nodup := by
  refine (nodup_map_iff_inj_on (h.sorted.imp fun hlt => hlt.ne)).2 fun v hv w hw heq => ?_
  have hsame := ll2string_inj (v := ⟨v, long_of_mem h hv⟩) (w := ⟨w, long_of_mem h hw⟩) heq
  exact congrArg Subtype.val hsame

theorem SetObj.Represents.card (h : s.Represents S) : setTypeSize s = S.card := by
  cases h with
  | intset h => rw [setTypeSize, intsetLen, h.length, toFinset_card_of_nodup (nodup_integers h), length_map]
  | ht h => rw [setTypeSize, toFinset_card_of_nodup h, keysOf, length_map]

theorem intsetElements_spec (h : is.Holds l) : ∀ (n ii : ℕ), ii + n = l.length → intsetElements is n ii = some (l.drop ii) := by
  intro n
  induction n with
  | zero =>
    intro ii hlen
    rw [intsetElements, drop_of_length_le (by omega)]
  | succ n ih =>
    intro ii hlen
    have hcell : l[ii]? = some (l.get ⟨ii, by omega⟩) := List.getElem?_eq_getElem (by omega)
    rw [intsetElements, h.getCell hcell, bind_some, ih (ii + 1) (by omega), map_some, drop_eq_getElem_cons (show ii < l.length by omega)]
    rfl

theorem intsetElements_all (h : is.Holds l) : intsetElements is (intsetLen is) 0 = some l := by
  rw [intsetLen, h.length, intsetElements_spec h l.length 0 (Nat.zero_add _), drop_zero]

theorem setTypeElements_spec (h : s.Represents S) :
    ∃ es, setTypeElements s = some es ∧ (es.map fun e => getDecodedObject e.object).Nodup ∧ (es.map fun e => getDecodedObject e.object).toFinset = S := by
  cases h with
  | intset h =>
    rename_i is l
    have hbytes : (l.map Element.int).map (fun e => getDecodedObject e.object) = l.map ll2string := by
      rw [List.map_map]
      exact map_congr_left fun v hv => decoded_integer (long_of_mem h hv)
    refine ⟨l.map .int, ?_, ?_, ?_⟩
    · rw [setTypeElements, intsetElements_all h, map_some]
    · rw [hbytes]
      exact nodup_integers h
    · rw [hbytes]
  | ht h =>
    rename_i d
    have hbytes : (d.map Element.obj).map (fun e => getDecodedObject e.object) = keysOf d := by
      rw [List.map_map]
      rfl
    exact ⟨d.map .obj, rfl, by rw [hbytes]; exact h, by rw [hbytes]⟩

theorem dictAddAll_spec : ∀ (keys d : List Robj), (keysOf keys).Nodup → (keysOf d).Nodup → (∀ b ∈ keysOf keys, b ∉ keysOf d) →
    ∃ d', dictAddAll keys d = some d' ∧ (keysOf d').Nodup ∧ ∀ b, b ∈ keysOf d' ↔ b ∈ keysOf keys ∨ b ∈ keysOf d := by
  intro keys
  induction keys with
  | nil => exact fun d _ hd _ => ⟨d, rfl, hd, fun b => ⟨Or.inr, fun h => h.resolve_left not_mem_nil⟩⟩
  | cons key keys ih =>
    intro d hkeys hd hnew
    rw [keysOf_cons, nodup_cons] at hkeys
    obtain ⟨hkey, hnew⟩ := forall_mem_cons.1 hnew
    have hfind : ¬ dictFind d key = true := fun h => hkey (dictFind_iff.1 h)
    obtain ⟨d', hadd, hd', hmem⟩ := ih (key :: d) hkeys.2 (nodup_cons.2 ⟨hkey, hd⟩) fun b hb h => by
      rcases mem_cons.1 h with rfl | h
      · exact hkeys.1 hb
      · exact hnew b hb h
    refine ⟨d', ?_, hd', fun b => ?_⟩
    · rw [dictAddAll, dictAdd, if_neg hfind, bind_some, hadd]
    · rw [hmem, keysOf_cons, keysOf_cons, mem_cons, mem_cons]
      exact or_left_comm.trans or_assoc.symm

/-- **A dict with the same strings.** -/
theorem setTypeConvert_spec (h : is.Holds l) : ∃ d, setTypeConvert is = some d ∧ (keysOf d).Nodup ∧ ∀ b, b ∈ keysOf d ↔ b ∈ l.map ll2string := by
  have hbytes : keysOf (l.map StringType.createStringObjectFromLongLong) = l.map ll2string := by
    rw [keysOf, List.map_map]
    exact map_congr_left fun v hv => decoded_integer (long_of_mem h hv)
  obtain ⟨d, hadd, hd, hmem⟩ := dictAddAll_spec (l.map StringType.createStringObjectFromLongLong) [] (by rw [hbytes]; exact nodup_integers h) nodup_nil
    fun _ _ => not_mem_nil
  refine ⟨d, by rw [setTypeConvert, intsetElements_all h, bind_some, hadd], hd, fun b => ?_⟩
  rw [hmem, hbytes]
  exact or_iff_left not_mem_nil

def SetObj.HasRoom (s : SetObj) (value : Robj) : Prop :=
  ∀ is v, s = .intset is → isObjectRepresentableAsLongLong value = some v → is.HasRoom v.1

theorem setTypeIsMember_spec (h : s.Represents S) (value : Robj) : setTypeIsMember s value = some (decide (getDecodedObject value ∈ S)) := by
  cases h with
  | ht h =>
    rename_i d
    rw [setTypeIsMember, Option.some.injEq]
    exact Bool.eq_iff_iff.2 (dictFind_iff.trans (List.mem_toFinset.symm.trans decide_eq_true_iff.symm))
  | intset h =>
    rename_i is l
    rw [setTypeIsMember]
    cases hvalue : isObjectRepresentableAsLongLong value with
    | some v =>
      dsimp only
      rw [intsetFind_spec h, representable_iff.1 hvalue, Option.some.injEq]
      exact decide_eq_decide.2 ((mem_integers h v).symm.trans List.mem_toFinset.symm)
    | none =>
      have hnot : getDecodedObject value ∉ (l.map ll2string).toFinset := fun hin => not_integer h hvalue (List.mem_toFinset.1 hin)
      rw [decide_eq_false hnot]

theorem toFinset_insert {l l' : List ℤ} (hmem : ∀ x, x ∈ l' ↔ x = v ∨ x ∈ l) :
    (l'.map ll2string).toFinset = insert (ll2string v) (l.map ll2string).toFinset := by
  ext b
  rw [Finset.mem_insert, List.mem_toFinset, List.mem_toFinset, List.mem_map, List.mem_map]
  constructor
  · rintro ⟨x, hx, rfl⟩
    rcases (hmem x).1 hx with rfl | hx
    · exact Or.inl rfl
    · exact Or.inr ⟨x, hx, rfl⟩
  · rintro (rfl | ⟨x, hx, rfl⟩)
    · exact ⟨v, (hmem v).2 (Or.inl rfl), rfl⟩
    · exact ⟨x, (hmem x).2 (Or.inr hx), rfl⟩

theorem dictAdd_spec (hd : (keysOf d).Nodup) (value : Robj) :
    (getDecodedObject value ∈ keysOf d → dictAdd d value = none) ∧ (getDecodedObject value ∉ keysOf d →
      dictAdd d value = some (value :: d) ∧ (keysOf (value :: d)).Nodup ∧ (keysOf (value :: d)).toFinset = insert (getDecodedObject value) (keysOf d).toFinset) := by
  refine ⟨fun h => if_pos (dictFind_iff.2 h), fun h => ⟨if_neg fun hfind => h (dictFind_iff.1 hfind), nodup_cons.2 ⟨h, hd⟩, ?_⟩⟩
  rw [keysOf_cons, toFinset_cons]

/-- **Adding**, in either encoding and across them. -/
theorem setTypeAdd_spec (server : Server) (h : s.Represents S) (value : Robj) (hroom : s.HasRoom value) :
    ∃ s', setTypeAdd server s value = some (s', decide (getDecodedObject value ∉ S)) ∧ s'.Represents (insert (getDecodedObject value) S) := by
  cases h with
  | ht hd =>
    rename_i d
    obtain ⟨hold, hnew⟩ := dictAdd_spec hd value
    by_cases hmem : getDecodedObject value ∈ keysOf d
    · have hin := List.mem_toFinset.2 hmem
      refine ⟨.ht d, ?_, ?_⟩
      · rw [setTypeAdd, hold hmem, decide_eq_false (not_not_intro hin)]
        rfl
      · rw [Finset.insert_eq_of_mem hin]
        exact .ht hd
    · obtain ⟨hadd, hd', hset⟩ := hnew hmem
      have hout : getDecodedObject value ∉ (keysOf d).toFinset := fun hin => hmem (List.mem_toFinset.1 hin)
      refine ⟨.ht (value :: d), ?_, ?_⟩
      · rw [setTypeAdd, hadd, decide_eq_true hout]
        rfl
      · rw [← hset]
        exact .ht hd'
  | intset h =>
    rename_i is l
    rw [setTypeAdd]
    cases hvalue : isObjectRepresentableAsLongLong value with
    | none =>
      -- the intset is given up
      obtain ⟨d, hconvert, hd, hmem⟩ := setTypeConvert_spec h
      have hsame : (keysOf d).toFinset = (l.map ll2string).toFinset := by
        ext b
        rw [List.mem_toFinset, List.mem_toFinset, hmem]
      have hnot : getDecodedObject value ∉ keysOf d := fun hin => not_integer h hvalue ((hmem _).1 hin)
      have hout : getDecodedObject value ∉ (keysOf d).toFinset := fun hin => hnot (List.mem_toFinset.1 hin)
      obtain ⟨hadd, hd', hset⟩ := (dictAdd_spec hd value).2 hnot
      refine ⟨.ht (value :: d), ?_, ?_⟩
      · rw [hconvert, bind_some, hadd, map_some, ← hsame, decide_eq_true hout]
      · rw [← hsame, ← hset]
        exact .ht hd'
    | some v =>
      have hbytes := representable_iff.1 hvalue
      obtain ⟨is', l', hadd, h', hmem⟩ := intsetAdd_spec h v (hroom is v rfl hvalue) server.fill
      have hflag : decide (getDecodedObject value ∉ (l.map ll2string).toFinset) = decide (v.1 ∉ l) := by
        rw [hbytes]
        exact decide_eq_decide.2 (not_congr (List.mem_toFinset.trans (mem_integers h v)))
      dsimp only
      rw [hadd, bind_some, hflag, hbytes, ← toFinset_insert hmem]
      by_cases hnew : decide (v.1 ∉ l) = true
      · rw [if_pos hnew, hnew]
        by_cases hmany : server.setMaxIntsetEntries < intsetLen is'
        · -- too many integers
          obtain ⟨d, hconvert, hd, hmem'⟩ := setTypeConvert_spec h'
          have hsame : (keysOf d).toFinset = (l'.map ll2string).toFinset := by
            ext b
            rw [List.mem_toFinset, List.mem_toFinset, hmem']
          refine ⟨.ht d, ?_, ?_⟩
          · rw [if_pos hmany, hconvert, map_some]
          · rw [← hsame]
            exact .ht hd
        · exact ⟨.intset is', by rw [if_neg hmany], .intset h'⟩
      · rw [if_neg hnew, Bool.eq_false_iff.2 hnew]
        exact ⟨.intset is', rfl, .intset h'⟩

theorem setTypeRemove_spec (server : Server) (h : s.Represents S) (value : Robj) :
    ∃ s', setTypeRemove server s value = some (s', decide (getDecodedObject value ∈ S)) ∧ s'.Represents (S.erase (getDecodedObject value)) := by
  cases h with
  | ht hd =>
    rename_i d
    rw [setTypeRemove, dictDelete]
    by_cases hmem : getDecodedObject value ∈ keysOf d
    · refine ⟨.ht (d.eraseP (dictEncObjKeyCompare value)), ?_, ?_⟩
      · rw [if_pos (dictFind_iff.2 hmem), decide_eq_true (List.mem_toFinset.2 hmem)]
        rfl
      · have hset : (keysOf (d.eraseP (dictEncObjKeyCompare value))).toFinset = (keysOf d).toFinset.erase (getDecodedObject value) := by
          ext b
          rw [keysOf_eraseP, List.mem_toFinset, hd.mem_erase_iff, Finset.mem_erase, List.mem_toFinset]
        rw [← hset]
        exact .ht (by rw [keysOf_eraseP]; exact hd.erase _)
    · have hout : getDecodedObject value ∉ (keysOf d).toFinset := fun hin => hmem (List.mem_toFinset.1 hin)
      refine ⟨.ht d, ?_, ?_⟩
      · rw [if_neg fun hfind => hmem (dictFind_iff.1 hfind), decide_eq_false hout]
        rfl
      · rw [Finset.erase_eq_of_notMem hout]
        exact .ht hd
  | intset h =>
    rename_i is l
    rw [setTypeRemove]
    cases hvalue : isObjectRepresentableAsLongLong value with
    | none =>
      have hnot : getDecodedObject value ∉ (l.map ll2string).toFinset := fun hin => not_integer h hvalue (List.mem_toFinset.1 hin)
      rw [Finset.erase_eq_of_notMem hnot, decide_eq_false hnot]
      exact ⟨.intset is, rfl, .intset h⟩
    | some v =>
      have hbytes := representable_iff.1 hvalue
      obtain ⟨is', l', hremove, h', hmem⟩ := intsetRemove_spec h v server.fill
      have hflag : decide (getDecodedObject value ∈ (l.map ll2string).toFinset) = decide (v.1 ∈ l) := by
        rw [hbytes]
        exact decide_eq_decide.2 (List.mem_toFinset.trans (mem_integers h v))
      have hset : (l'.map ll2string).toFinset = (l.map ll2string).toFinset.erase (getDecodedObject value) := by
        ext b
        rw [Finset.mem_erase, List.mem_toFinset, List.mem_toFinset, List.mem_map, List.mem_map, hbytes]
        constructor
        · rintro ⟨x, hx, rfl⟩
          obtain ⟨hne, hx⟩ := (hmem x).1 hx
          exact ⟨fun heq => hne (congrArg Subtype.val (ll2string_inj (v := ⟨x, long_of_mem h hx⟩) heq)), x, hx, rfl⟩
        · rintro ⟨hne, x, hx, rfl⟩
          exact ⟨x, (hmem x).2 ⟨fun heq => hne (by rw [heq]), hx⟩, rfl⟩
      dsimp only
      rw [hremove, map_some, hflag, ← hset]
      exact ⟨.intset is', rfl, .intset h'⟩

end KVStores.Redis.SetType
