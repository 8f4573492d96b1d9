import KVStores.Redis.Dict

/-!
# Hash tables as bags of entries

Each function of `dict.c` on a dict in order: it runs into no fault, keeps the order and does to the
bag of entries what it says.

* `dictRehash_spec`: **rehashing keeps the entries**, and its scan ends in the table.
-/

namespace KVStores.Redis

open List Option Function

variable {K V : Type} {ty : DictType K} {t : DictHt K V} {d : Dict K V} {k : K} {e : K × V} {idx : ℕ}

namespace DictHt

def entries (t : DictHt K V) : List (K × V) := (List.range t.size).flatMap t.table

def others (t : DictHt K V) (idx : ℕ) : List (K × V) := ((List.range t.size).filter fun i => decide (i ≠ idx)).flatMap t.table

/-- Entries are in the bucket of their hash, and `used` counts them. -/
structure Ok (ty : DictType K) (t : DictHt K V) : Prop where
  inside : ∀ i, t.size ≤ i → t.table i = []
  placed : ∀ i, ∀ e ∈ t.table i, t.slot ty e.1 = i
  used : t.used = t.entries.length

theorem slot_lt (h : 0 < t.size) : t.slot ty k < t.size := by
  have hle : t.slot ty k ≤ t.size - 1 := Nat.and_le_right
  omega

theorem mem_entries : e ∈ t.entries ↔ ∃ i, i < t.size ∧ e ∈ t.table i := by
  unfold entries
  simp only [mem_flatMap, mem_range]

theorem entries_perm (h : idx < t.size) : t.entries.Perm (t.table idx ++ t.others idx) := by
  have hperm : (List.range t.size).Perm (idx :: (List.range t.size).filter fun i => decide (i ≠ idx)) := by
    have hcons := perm_cons_erase (mem_range.2 h)
    rw [nodup_range.erase_eq_filter] at hcons
    refine hcons.trans (List.Perm.of_eq (congrArg (idx :: ·) (filter_congr fun i _ => ?_)))
    by_cases hi : i = idx <;> simp [hi]
  exact hperm.flatMap_right t.table

theorem others_congr {t' : DictHt K V} (hsize : t'.size = t.size) (h : ∀ i, i ≠ idx → t'.table i = t.table i) : t'.others idx = t.others idx := by
  unfold others
  rw [hsize]
  refine flatMap_congr fun i hi => h i ?_
  exact of_decide_eq_true (mem_filter.1 hi).2

theorem entries_update (h : idx < t.size) (l : List (K × V)) (used : ℕ) :
    (⟨Function.update t.table idx l, t.size, used⟩ : DictHt K V).entries.Perm (l ++ t.others idx) := by
  have hperm := entries_perm (t := ⟨Function.update t.table idx l, t.size, used⟩) h
  have hothers : (⟨Function.update t.table idx l, t.size, used⟩ : DictHt K V).others idx = t.others idx :=
    others_congr rfl fun i hi => update_of_ne hi _ _
  rw [hothers] at hperm
  simpa using hperm

theorem reset_ok : Ok ty (reset : DictHt K V) := ⟨fun _ _ => rfl, fun _ _ he => (not_mem_nil he).elim, rfl⟩

theorem alloc_entries (size : ℕ) : (alloc size : DictHt K V).entries = [] := by
  unfold entries alloc
  rw [flatMap_eq_nil_iff]
  exact fun _ _ => rfl

theorem alloc_ok (size : ℕ) : Ok ty (alloc size : DictHt K V) :=
  ⟨fun _ _ => rfl, fun _ _ he => (not_mem_nil he).elim, by rw [alloc_entries]; rfl⟩

theorem Ok.update (hok : Ok ty t) (h : idx < t.size) {l : List (K × V)} {used : ℕ} (hl : ∀ e ∈ l, t.slot ty e.1 = idx)
    (hused : used = (l ++ t.others idx).length) : Ok ty (⟨Function.update t.table idx l, t.size, used⟩ : DictHt K V) := by
  refine ⟨fun i hi => ?_, fun i e he => ?_, ?_⟩
  · have hi : t.size ≤ i := hi
    change Function.update t.table idx l i = []
    rw [update_of_ne (by omega)]
    exact hok.inside i hi
  · have he : e ∈ Function.update t.table idx l i := he
    by_cases hi : i = idx
    · subst hi
      rw [update_self] at he
      exact hl e he
    · rw [update_of_ne hi] at he
      exact hok.placed i e he
  · exact hused.trans (entries_update h l used).length_eq.symm

theorem Ok.push (hok : Ok ty t) (h : 0 < t.size) (e : K × V) :
    Ok ty (t.push (t.slot ty e.1) e) ∧ (t.push (t.slot ty e.1) e).entries.Perm (e :: t.entries) := by
  have hlt : t.slot ty e.1 < t.size := slot_lt h
  have hold := entries_perm hlt
  refine ⟨hok.update hlt (fun a ha => ?_) ?_, ?_⟩
  · rcases mem_cons.1 ha with rfl | ha
    · rfl
    · exact hok.placed _ a ha
  · rw [cons_append, length_cons, ← hold.length_eq, hok.used]
  · exact (entries_update hlt _ _).trans (hold.symm.cons e)

theorem Ok.unlink (hok : Ok ty t) (h : idx < t.size) (he : (t.table idx).find? (fun e => ty.keyCompare k e.1) = some e) :
    Ok ty (t.unlink ty idx k) ∧ t.entries.Perm (e :: (t.unlink ty idx k).entries) := by
  obtain ⟨hk, x, y, hxy, hx⟩ := List.find?_eq_some_iff_append.1 he
  have herase : (t.table idx).eraseP (fun e => ty.keyCompare k e.1) = x ++ y := by
    rw [hxy, eraseP_append_right _ fun a ha => by simpa using hx a ha, eraseP_cons_of_pos (p := fun e : K × V => ty.keyCompare k e.1) hk]
  have hold := entries_perm h
  have hmid : t.entries.Perm (e :: ((x ++ y) ++ t.others idx)) := by
    refine hold.trans ?_
    rw [hxy]
    exact perm_middle.append_right _
  have hnew := entries_update h (x ++ y) (t.used - 1)
  have heq : t.unlink ty idx k = ⟨Function.update t.table idx (x ++ y), t.size, t.used - 1⟩ := by
    unfold DictHt.unlink
    rw [herase]
  rw [heq]
  refine ⟨hok.update h (fun a ha => hok.placed idx a ?_) ?_, hmid.trans (hnew.symm.cons e)⟩
  · rw [hxy]
    exact (mem_append.1 ha).elim (mem_append_left _) fun ha => mem_append_right _ (mem_cons_of_mem _ ha)
  · rw [hok.used, hmid.length_eq, length_cons, Nat.add_sub_cancel]

theorem setFirst_append {x y : List (K × V)} {v : V} (hx : ∀ a ∈ x, ty.keyCompare k a.1 = false) (hk : ty.keyCompare k e.1 = true) :
    setFirst ty k v (x ++ e :: y) = x ++ (e.1, v) :: y := by
  induction x with
  | nil =>
    rw [nil_append, setFirst, if_pos hk]
    rfl
  | cons a x ih =>
    rw [cons_append, setFirst, if_neg (by rw [hx a mem_cons_self]; exact Bool.false_ne_true), ih fun b hb => hx b (mem_cons_of_mem _ hb)]
    rfl

theorem Ok.setVal (hok : Ok ty t) (h : idx < t.size) (he : (t.table idx).find? (fun e => ty.keyCompare k e.1) = some e) (v : V) :
    Ok ty (t.setVal ty idx k v) ∧ ∃ l, t.entries.Perm (e :: l) ∧ (t.setVal ty idx k v).entries.Perm ((e.1, v) :: l) := by
  obtain ⟨hk, x, y, hxy, hx⟩ := List.find?_eq_some_iff_append.1 he
  have hset : setFirst ty k v (t.table idx) = x ++ (e.1, v) :: y := by
    rw [hxy]
    exact setFirst_append (fun a ha => by simpa using hx a ha) hk
  have hold := entries_perm h
  rw [hxy] at hold
  have heq : t.setVal ty idx k v = ⟨Function.update t.table idx (x ++ (e.1, v) :: y), t.size, t.used⟩ := by
    unfold DictHt.setVal
    rw [hset]
  rw [heq]
  refine ⟨hok.update h (fun a ha => ?_) ?_, (x ++ y) ++ t.others idx, ?_, ?_⟩
  · have hplaced := hok.placed idx
    rw [hxy] at hplaced
    rcases mem_append.1 ha with ha | ha
    · exact hplaced a (mem_append_left _ ha)
    · rcases mem_cons.1 ha with rfl | ha
      · exact hplaced e (mem_append_right _ mem_cons_self)
      · exact hplaced a (mem_append_right _ (mem_cons_of_mem _ ha))
  · rw [hok.used, hold.length_eq]
    simp only [length_append, length_cons]
  · exact hold.trans (perm_middle.append_right _)
  · exact (entries_update h _ _).trans (perm_middle.append_right _)

theorem Ok.find (hok : Ok ty t) (he : e ∈ t.entries) (hk : ty.keyCompare k e.1 = true) : e ∈ t.table (t.slot ty k) := by
  obtain ⟨i, -, hi⟩ := mem_entries.1 he
  have hslot : t.slot ty k = t.slot ty e.1 := by
    unfold slot
    rw [ty.hash_eq k e.1 hk]
  rw [hslot, hok.placed i e hi]
  exact hi

end DictHt

namespace Dict

def entries (d : Dict K V) : List (K × V) := d.ht0.entries ++ d.ht1.entries

/-- Both tables are in order, no key is there twice, the second table is in use while a rehashing is in progress, and then the
buckets below `rehashidx` are empty. -/
structure Ok (ty : DictType K) (d : Dict K V) : Prop where
  ht0 : d.ht0.Ok ty
  ht1 : d.ht1.Ok ty
  distinct : DistinctKeys ty.keyCompare d.entries
  idle : d.rehashidx = none → d.ht1 = .reset
  busy : ∀ idx, d.rehashidx = some idx → 0 < d.ht0.size ∧ 0 < d.ht1.size ∧ ∀ i < idx, d.ht0.table i = []

theorem create_ok : Ok ty (dictCreate : Dict K V) :=
  ⟨DictHt.reset_ok, DictHt.reset_ok, List.Pairwise.nil, fun _ => rfl, fun _ h => (by cases h)⟩

theorem isRehashing_iff : d.isRehashing = true ↔ ∃ idx, d.rehashidx = some idx := isSome_iff_exists

theorem not_isRehashing_iff : d.isRehashing = false ↔ d.rehashidx = none := isSome_eq_false_iff.trans isNone_iff_eq_none

theorem Ok.entries_idle (hok : Ok ty d) (h : d.rehashidx = none) : d.entries = d.ht0.entries := by
  unfold entries
  rw [hok.idle h]
  exact append_nil _

end Dict

theorem moveBucket_spec : ∀ (chain : List (K × V)) {t : DictHt K V}, t.Ok ty → 0 < t.size →
    (moveBucket ty chain t).Ok ty ∧ (moveBucket ty chain t).size = t.size ∧ (moveBucket ty chain t).entries.Perm (chain ++ t.entries)
  | [], t, hok, _ => ⟨hok, rfl, List.Perm.refl _⟩
  | e :: chain, t, hok, h => by
    obtain ⟨h1, h2⟩ := hok.push h e
    obtain ⟨h3, h4, h5⟩ := moveBucket_spec chain h1 h
    exact ⟨h3, h4, (h5.trans (h2.append_left chain)).trans perm_middle⟩

theorem scanBuckets_spec (hsmall : t.size < intLimit) : ∀ (fuel idx : ℕ), fuel + idx = t.size → (∃ i, idx ≤ i ∧ i < t.size ∧ t.table i ≠ []) →
    ∃ i, scanBuckets t fuel idx = some i ∧ idx ≤ i ∧ i < t.size ∧ ∀ j, idx ≤ j → j < i → t.table j = []
  | 0, idx, hfuel, ⟨i, h1, h2, _⟩ => by omega
  | fuel + 1, idx, hfuel, ⟨i, h1, h2, h3⟩ => by
    rw [scanBuckets]
    by_cases hempty : (t.table idx).isEmpty = true
    · have hne : i ≠ idx := by
        rintro rfl
        exact h3 (List.isEmpty_iff.1 hempty)
      rw [if_pos hempty, if_pos (by omega)]
      obtain ⟨i', g1, g2, g3, g4⟩ := scanBuckets_spec hsmall fuel (idx + 1) (by omega) ⟨i, by omega, h2, h3⟩
      refine ⟨i', g1, by omega, g3, fun j hj1 hj2 => ?_⟩
      rcases Nat.eq_or_lt_of_le hj1 with rfl | hj1
      · exact List.isEmpty_iff.1 hempty
      · exact g4 j hj1 hj2
    · rw [if_neg hempty]
      exact ⟨idx, rfl, le_refl _, by omega, fun j hj1 hj2 => absurd hj2 (not_lt.2 hj1)⟩

theorem dictRehashRound_spec (hok : d.Ok ty) (hidx : d.rehashidx = some idx) (hsmall : d.ht0.size < intLimit) :
    ∃ more d', dictRehashRound ty d idx = some (more, d') ∧ d'.Ok ty ∧ d'.entries.Perm d.entries ∧ d'.iterators = d.iterators ∧
      0 < d'.ht0.size ∧ ((d'.ht0.size = d.ht0.size ∧ d'.ht1.size = d.ht1.size ∧ d'.rehashidx ≠ none) ∨
        (more = false ∧ d'.ht0.size = d.ht1.size ∧ d'.ht1.size = 0 ∧ d'.rehashidx = none)) := by
  obtain ⟨h0, h1, hbelow⟩ := hok.busy idx hidx
  unfold dictRehashRound
  by_cases hused : d.ht0.used = 0
  · -- the first table is empty, and the second one takes its place
    rw [if_pos hused]
    have hnil : d.ht0.entries = [] := eq_nil_of_length_eq_zero (hok.ht0.used ▸ hused)
    have hentries : (⟨d.ht1, .reset, none, d.iterators⟩ : Dict K V).entries = d.entries := by
      unfold Dict.entries
      rw [hnil, nil_append]
      exact append_nil _
    refine ⟨false, _, rfl, ⟨hok.ht1, DictHt.reset_ok, ?_, fun _ => rfl, fun _ h => (by cases h)⟩, List.Perm.of_eq hentries, rfl, h1,
      Or.inr ⟨rfl, rfl, rfl, rfl⟩⟩
    rw [hentries]
    exact hok.distinct
  · rw [if_neg hused]
    -- some bucket is not empty, and it is not below the index
    have hne : d.ht0.entries ≠ [] := by
      intro hnil
      rw [hok.ht0.used, hnil] at hused
      exact hused rfl
    obtain ⟨e, he⟩ := exists_mem_of_ne_nil _ hne
    obtain ⟨i, hi, hmem⟩ := DictHt.mem_entries.1 he
    have hge : idx ≤ i := by
      by_contra hlt
      rw [hbelow i (not_le.1 hlt)] at hmem
      cases hmem
    rw [if_neg (by omega)]
    obtain ⟨j, hscan, hj1, hj2, hj3⟩ := scanBuckets_spec hsmall (d.ht0.size - idx) idx (by omega) ⟨i, hge, hi, ne_nil_of_mem hmem⟩
    rw [hscan]
    dsimp only
    rw [if_pos (by omega)]
    obtain ⟨g1, g2, g3⟩ := moveBucket_spec (d.ht0.table j) hok.ht1 h1
    have hold := DictHt.entries_perm hj2
    have hclear := DictHt.entries_update hj2 [] (d.ht0.used - (d.ht0.table j).length)
    have hperm : (⟨{ d.ht0 with table := Function.update d.ht0.table j [], used := d.ht0.used - (d.ht0.table j).length },
        moveBucket ty (d.ht0.table j) d.ht1, some (j + 1), d.iterators⟩ : Dict K V).entries.Perm d.entries := by
      refine ((hclear.append g3).trans ?_)
      rw [nil_append, ← append_assoc]
      exact (perm_append_comm.trans hold.symm).append_right _
    refine ⟨true, _, rfl, ⟨?_, g1, hok.distinct.perm ty.equiv hperm.symm, fun h => (by cases h), fun n hn => ?_⟩, hperm, rfl, h0,
      Or.inl ⟨rfl, g2, some_ne_none _⟩⟩
    · refine hok.ht0.update hj2 (fun e he => (not_mem_nil he).elim) ?_
      rw [hok.ht0.used, hold.length_eq, length_append, Nat.add_sub_cancel_left, nil_append]
    · obtain rfl := Option.some.inj hn
      refine ⟨h0, by rw [g2]; exact h1, fun m hm => ?_⟩
      by_cases hmj : m = j
      · subst hmj
        exact update_self _ _ _
      · refine (update_of_ne hmj _ _).trans ?_
        rcases Nat.lt_or_ge m idx with hlt | hge'
        · exact hbelow m hlt
        · exact hj3 m hge' (by omega)

theorem dictRehash_spec : ∀ (n : ℕ) {d : Dict K V}, d.Ok ty → d.ht0.size < intLimit →
    ∃ more d', dictRehash ty n d = some (more, d') ∧ d'.Ok ty ∧ d'.entries.Perm d.entries ∧ d'.iterators = d.iterators ∧
      (0 < d.ht0.size → 0 < d'.ht0.size) ∧ (d'.ht0.size = d.ht0.size ∨ d'.ht0.size = d.ht1.size) ∧
      (d'.ht1.size = d.ht1.size ∨ d'.ht1.size = 0) := by
  intro n
  induction n with
  | zero =>
    intro d hok hsmall
    have hsame : ∃ more, dictRehash ty 0 d = some (more, d) := by
      unfold dictRehash
      cases d.rehashidx with
      | none => exact ⟨false, rfl⟩
      | some idx => exact ⟨true, rfl⟩
    obtain ⟨more, h⟩ := hsame
    exact ⟨more, d, h, hok, List.Perm.refl _, rfl, id, Or.inl rfl, Or.inl rfl⟩
  | succ n ih =>
    intro d hok hsmall
    cases hidx : d.rehashidx with
    | none =>
      refine ⟨false, d, ?_, hok, List.Perm.refl _, rfl, id, Or.inl rfl, Or.inl rfl⟩
      unfold dictRehash
      rw [hidx]
    | some idx =>
      obtain ⟨more, d', h1, h2, h3, h4, h5, h6⟩ := dictRehashRound_spec hok hidx hsmall
      have heq : dictRehash ty (n + 1) d = if more then dictRehash ty n d' else some (false, d') := by
        rw [dictRehash, hidx]
        dsimp only
        rw [h1]
        cases more <;> rfl
      rw [heq]
      rcases h6 with ⟨g1, g2, -⟩ | ⟨rfl, g1, g2, -⟩
      · cases more with
        | false => exact ⟨false, d', rfl, h2, h3, h4, fun _ => h5, Or.inl g1, Or.inl g2⟩
        | true =>
          obtain ⟨more, d'', k1, k2, k3, k4, k5, k6, k7⟩ := ih h2 (g1 ▸ hsmall)
          exact ⟨more, d'', k1, k2, k3.trans h3, k4.trans h4, fun _ => k5 h5, g1 ▸ g2 ▸ k6, g2 ▸ k7⟩
      · exact ⟨false, d', rfl, h2, h3, h4, fun _ => h5, Or.inr g1, Or.inr g2⟩

end KVStores.Redis
