import KVStores.Lib.Listed
import KVStores.Lib.Probe

/-!
# The buckets of gdbm

A bucket is a table of elements that `_gdbm_findkey` probes from `hash_value % bucket_elems` on. The hash function is any one. What is left
out: the cache of the last record that was read, and splitting a bucket.

* `gdbm_delete_probed`: **`gdbm_delete` leaves the other elements, and each of them is found again**, in a full bucket as well.
-/

namespace KVStores.Gdbm

open List Option Function

open Probe

structure BucketElement where
  hash_value : ℤ
  key_start : List UInt8
  data_pointer : ℕ
  key_size : ℕ
  data_size : ℕ
deriving DecidableEq

/-- `hash_bucket`, without the list of free space that it has room for. -/
structure HashBucket where
  count : ℤ
  h_table : List BucketElement
deriving DecidableEq

def BucketElement.empty (e : BucketElement) : Prop := e.hash_value = -1

instance (e : BucketElement) : Decidable e.empty := inferInstanceAs (Decidable (_ = _))

/-- `home` in `gdbm_delete`: the remainder as C has it. -/
def BucketElement.home (e : BucketElement) (bucket_elems : ℕ) : ℤ := e.hash_value.tmod bucket_elems

/-- `h_table[i].hash_value = -1`. -/
def clear (e : BucketElement) : BucketElement := { e with hash_value := -1 }

/-- Whether the element at `elem_loc` moves to `last_loc`. -/
def moves (home : ℤ) (last_loc elem_loc : ℕ) : Prop :=
  (last_loc < elem_loc ∧ (home ≤ last_loc ∨ home > elem_loc)) ∨ (last_loc > elem_loc ∧ home ≤ last_loc ∧ home > elem_loc)

instance (home : ℤ) (last_loc elem_loc : ℕ) : Decidable (moves home last_loc elem_loc) := inferInstanceAs (Decidable (_ ∨ _))

/-- The loop of `gdbm_delete` over the elements behind the one that is gone. -/
@[grind =] def shiftLoop (bucket_elems : ℕ) : ℕ → List BucketElement → ℕ → ℕ → Option (List BucketElement)
  | 0, _, _, _ => none
  | fuel + 1, h_table, last_loc, elem_loc =>
    (h_table[elem_loc]?).bind fun e =>
      if elem_loc ≠ last_loc ∧ ¬e.empty then
        if moves (e.home bucket_elems) last_loc elem_loc then
          shiftLoop bucket_elems fuel ((h_table.set last_loc e).set elem_loc (clear e)) elem_loc ((elem_loc + 1) % bucket_elems)
        else shiftLoop bucket_elems fuel h_table last_loc ((elem_loc + 1) % bucket_elems)
      else some h_table

/-- What `gdbm_delete` does to the bucket once it has found the element. -/
def deleteElement (bucket_elems fuel : ℕ) (b : HashBucket) (elem_loc : ℕ) : Option HashBucket :=
  (b.h_table[elem_loc]?).bind fun e =>
    (shiftLoop bucket_elems fuel (b.h_table.set elem_loc (clear e)) elem_loc ((elem_loc + 1) % bucket_elems)).map fun h_table =>
      ⟨b.count - 1, h_table⟩

/-- `SMALL`: the bytes of a key that an element has. -/
def small : ℕ := 4

/-- Whether an element has the key: its hash value, its size and its first bytes, and then what the file has. -/
def BucketElement.has (readEntry : BucketElement → List UInt8) (key : List UInt8) (hash : ℤ) (e : BucketElement) : Prop :=
  e.hash_value = hash ∧ e.key_size = key.length ∧ e.key_start.take (min small e.key_size) = key.take (min small e.key_size) ∧ readEntry e = key

instance (readEntry : BucketElement → List UInt8) (key : List UInt8) (hash : ℤ) (e : BucketElement) : Decidable (e.has readEntry key hash) :=
  inferInstanceAs (Decidable (_ ∧ _))

/-- The loop of `_gdbm_findkey`, from `elem_loc` on; `none` for -1. -/
@[grind =] def findLoop (bucket_elems : ℕ) (readEntry : BucketElement → List UInt8) (key : List UInt8) (hash : ℤ) (h_table : List BucketElement) (home_loc : ℕ) :
    ℕ → ℕ → Option (Option ℕ)
  | 0, _ => none
  | fuel + 1, elem_loc =>
    (h_table[elem_loc]?).bind fun e =>
      if e.empty then some none
      else if e.has readEntry key hash then some (some elem_loc)
      else if (elem_loc + 1) % bucket_elems = home_loc then some none
      else findLoop bucket_elems readEntry key hash h_table home_loc fuel ((elem_loc + 1) % bucket_elems)

/-- The current bucket, and the blocks that the file has at the addresses that `_gdbm_alloc` returned. -/
structure Store where
  bucket : HashBucket
  file : ℕ → List UInt8

/-- A call of `gdbm_store` or `gdbm_delete`. An address is what `_gdbm_alloc` returns in it. -/
inductive Call
  | store (key content : List UInt8) (replace : Bool) (file_adr : ℕ)
  | delete (key : List UInt8)

/-- The search of `gdbm_store` for a slot with nothing. -/
@[grind =] def freeLoop (bucket_elems : ℕ) (h_table : List BucketElement) : ℕ → ℕ → Option ℕ
  | 0, _ => none
  | fuel + 1, elem_loc =>
    (h_table[elem_loc]?).bind fun e => if ¬e.empty then freeLoop bucket_elems h_table fuel ((elem_loc + 1) % bucket_elems) else some elem_loc

def keyAt (file : ℕ → List UInt8) (e : BucketElement) : List UInt8 := (file e.data_pointer).take e.key_size

def contentAt (file : ℕ → List UInt8) (e : BucketElement) : List UInt8 := ((file e.data_pointer).drop e.key_size).take e.data_size

def BucketElement.point (e : BucketElement) (file_adr : ℕ) (key content : List UInt8) : BucketElement :=
  { e with data_pointer := file_adr, key_size := key.length, data_size := content.length }

abbrev Contents := Finmap fun _ : List UInt8 => List UInt8

/-- The end of `gdbm_store`: an element is put into the bucket, and its key and content into the file. -/
def Store.write (s : Store) (count : ℤ) (elem_loc : ℕ) (e : BucketElement) (file_adr : ℕ) (key content : List UInt8) : Store :=
  ⟨⟨count, s.bucket.h_table.set elem_loc (e.point file_adr key content)⟩, Function.update s.file file_adr (key ++ content)⟩

section Calls

variable (bucket_elems fuel : ℕ) (hash : List UInt8 → ℕ)

def homeLoc (key : List UInt8) : ℕ := ((hash key : ℤ).tmod bucket_elems).toNat

/-- `_gdbm_findkey`. -/
def Store.findkey (s : Store) (key : List UInt8) : Option (Option ℕ) :=
  findLoop bucket_elems (keyAt s.file) key (hash key) s.bucket.h_table (homeLoc bucket_elems hash key) fuel (homeLoc bucket_elems hash key)

/-- What `gdbm_fetch` returns. -/
def Store.fetch (s : Store) (key : List UInt8) : Option (Option (List UInt8)) :=
  (s.findkey bucket_elems fuel hash key).bind fun found =>
    match found with
    | none => some none
    | some elem_loc => (s.bucket.h_table[elem_loc]?).map fun e => some (contentAt s.file e)

/-- What a call returns and leaves; `none` where the bucket is split. -/
def Store.call (s : Store) : Call → Option (ℤ × Store)
  | .store key content replace file_adr =>
    (s.findkey bucket_elems fuel hash key).bind fun found =>
      match found with
      | some elem_loc =>
        (s.bucket.h_table[elem_loc]?).map fun e =>
          if replace then
            let file_adr := if e.key_size + e.data_size = key.length + content.length then e.data_pointer else file_adr
            (0, s.write s.bucket.count elem_loc e file_adr key content)
          else (1, s)
      | none =>
        if s.bucket.count = bucket_elems then none
        else
          (freeLoop bucket_elems s.bucket.h_table fuel (homeLoc bucket_elems hash key)).bind fun elem_loc =>
            (s.bucket.h_table[elem_loc]?).map fun e =>
              let key_start := key.take small ++ e.key_start.drop (min small key.length)
              (0, s.write (s.bucket.count + 1) elem_loc { e with hash_value := hash key, key_start := key_start } file_adr key content)
  | .delete key =>
    (s.findkey bucket_elems fuel hash key).bind fun found =>
      match found with
      | none => some (-1, s)
      | some elem_loc => (deleteElement bucket_elems fuel s.bucket elem_loc).map fun b => (0, { s with bucket := b })

end Calls

variable {n p l c i : ℕ} {t : List BucketElement} {e : BucketElement} {b : HashBucket}

def elements (t : List BucketElement) : List BucketElement := t.filter fun e => ¬e.empty

/-- **The probing invariant**: each element is reached from its home over slots that hold something. -/
structure ProbedTable (n : ℕ) (t : List BucketElement) : Prop where
  length_eq : t.length = n
  reach : ∀ p e, t[p]? = some e → ¬e.empty → 0 ≤ e.home n ∧ Reach n (fun q => ∃ e', t[q]? = some e' ∧ ¬e'.empty) (e.home n).toNat p

def homeOf (n : ℕ) (e : BucketElement) : Option ℕ := if e.empty then none else some (e.home n).toNat

def slots (n : ℕ) (t : List BucketElement) (p : ℕ) : Option ℕ := (t[p]?).bind (homeOf n)

theorem clear_empty (e : BucketElement) : (clear e).empty := rfl

theorem homeOf_clear (e : BucketElement) : homeOf n (clear e) = none := if_pos (clear_empty e)

theorem slots_of_empty (he : t[p]? = some e) (h : e.empty) : slots n t p = none := by
  rw [slots, he, bind_some, homeOf, if_pos h]

theorem slots_of_not_empty (he : t[p]? = some e) (h : ¬e.empty) : slots n t p = some (e.home n).toNat := by
  rw [slots, he, bind_some, homeOf, if_neg h]

theorem slots_eq_some {h : ℕ} : slots n t p = some h ↔ ∃ e, t[p]? = some e ∧ ¬e.empty ∧ (e.home n).toNat = h := by
  constructor
  · intro hs
    obtain ⟨e, he, hh⟩ := bind_eq_some_iff.1 hs
    by_cases hempty : e.empty
    · rw [homeOf, if_pos hempty] at hh
      exact absurd hh.symm (some_ne_none _)
    · rw [homeOf, if_neg hempty] at hh
      exact ⟨e, he, hempty, Option.some.inj hh⟩
  · rintro ⟨e, he, hempty, rfl⟩
    exact slots_of_not_empty he hempty

theorem slots_ne_none : slots n t p ≠ none ↔ ∃ e, t[p]? = some e ∧ ¬e.empty := by
  rw [ne_none_iff_exists']
  constructor
  · rintro ⟨h, hs⟩
    obtain ⟨e, he, hempty, -⟩ := slots_eq_some.1 hs
    exact ⟨e, he, hempty⟩
  · rintro ⟨e, he, hempty⟩
    exact ⟨_, slots_of_not_empty he hempty⟩

theorem slots_set (hi : i < t.length) (e : BucketElement) : slots n (t.set i e) = Function.update (slots n t) i (homeOf n e) := by
  funext p
  by_cases hp : p = i
  · subst hp
    rw [update_self, slots, List.getElem?_set_self hi, bind_some]
  · rw [update_of_ne hp, slots, List.getElem?_set_ne fun h => hp h.symm, slots]

theorem home_lt (hn : 0 < n) (e : BucketElement) : e.home n < n := Int.tmod_lt_of_pos _ (Int.natCast_pos.2 hn)

theorem probedTable_iff (hlen : t.length = n) : ProbedTable n t ↔ (∀ e ∈ t, ¬e.empty → 0 ≤ e.home n) ∧ Probed n (slots n t) := by
  have hok : (fun q => slots n t q ≠ none) = fun q => ∃ e', t[q]? = some e' ∧ ¬e'.empty := funext fun q => propext slots_ne_none
  rw [Probed, hok]
  constructor
  · intro h
    refine ⟨fun e he hempty => ?_, fun p hp h' hs => ?_⟩
    · obtain ⟨p, hp⟩ := mem_iff_getElem?.1 he
      exact (h.reach p e hp hempty).1
    · obtain ⟨e, he, hempty, rfl⟩ := slots_eq_some.1 hs
      obtain ⟨hpos, hr⟩ := h.reach p e he hempty
      have hlt := home_lt (Nat.zero_lt_of_lt hp) e
      exact ⟨by omega, hr⟩
  · rintro ⟨hpos, hs⟩
    refine ⟨hlen, fun p e he hempty => ⟨hpos e (mem_of_getElem? he) hempty, ?_⟩⟩
    obtain ⟨hp, -⟩ := List.getElem?_eq_some_iff.1 he
    exact (hs p (hlen ▸ hp) _ (slots_of_not_empty he hempty)).2

variable {e' : BucketElement}

theorem elements_set_not_empty (he : t[i]? = some e) (h : e.empty) (h' : ¬e'.empty) : (elements (t.set i e')).Perm (e' :: elements t) := by
  obtain ⟨hi, rfl⟩ := List.getElem?_eq_some_iff.1 he
  have hold := (getElem_cons_eraseIdx_perm hi).filter fun e => ¬e.empty
  have hnew := (set_perm_cons_eraseIdx hi e').filter fun e => ¬e.empty
  rw [filter_cons_of_neg (by simpa using h)] at hold
  rw [filter_cons_of_pos (by simpa using h')] at hnew
  exact hnew.trans (hold.cons e')

theorem elements_set_empty (he : t[i]? = some e) (h : ¬e.empty) (h' : e'.empty) : (elements t).Perm (e :: elements (t.set i e')) := by
  obtain ⟨hi, rfl⟩ := List.getElem?_eq_some_iff.1 he
  have hold := (getElem_cons_eraseIdx_perm hi).filter fun e => ¬e.empty
  have hnew := (set_perm_cons_eraseIdx hi e').filter fun e => ¬e.empty
  rw [filter_cons_of_pos (by simpa using h)] at hold
  rw [filter_cons_of_neg (by simpa using h')] at hnew
  exact hold.symm.trans (hnew.symm.cons _)

theorem moves_iff {h : ℕ} {home : ℤ} (hhome : home = h) (hh : h < n) (hl : l < n) (hne : c ≠ l) :
    moves home l c ↔ ahead n l c ≤ ahead n h c := by
  rw [ahead_le_iff hh hl hne, moves, hhome]
  omega

/-- **The loop ends**, and what it leaves is probed. -/
theorem shiftLoop_spec : ∀ {fuel l j : ℕ} {t : List BucketElement}, t.length = n → (∀ e ∈ t, ¬e.empty → 0 ≤ e.home n) → Scan n (slots n t) l j →
    distances n (slots n t) * n + (n - j) < fuel →
    ∃ t', shiftLoop n fuel t l ((l + j) % n) = some t' ∧ (elements t').Perm (elements t) ∧ ProbedTable n t' := by
  intro fuel
  induction fuel with
  | zero => exact fun _ _ _ hfuel => absurd hfuel (Nat.not_lt_zero _)
  | succ fuel ih =>
    intro l j t hlen hpos hs hfuel
    have hn : 0 < n := Nat.zero_lt_of_lt hs.lt
    obtain ⟨e, he⟩ : ∃ e, t[(l + j) % n]? = some e := ⟨_, List.getElem?_eq_getElem (hlen.symm ▸ hs.at_lt)⟩
    rw [shiftLoop, he, bind_some]
    by_cases hgo : (l + j) % n ≠ l ∧ ¬e.empty
    · rw [if_pos hgo]
      obtain ⟨hne, hempty⟩ := hgo
      have hsome := slots_of_not_empty (n := n) he hempty
      have hhome : e.home n = ((e.home n).toNat : ℤ) := (Int.toNat_of_nonneg (hpos e (mem_of_getElem? he) hempty)).symm
      have hlt : (e.home n).toNat < n := by
        have := home_lt hn e
        omega
      have hnext : ∀ x, ((x % n) + 1) % n = (x + 1) % n := fun x => Nat.mod_add_mod x n 1
      have hmoves := moves_iff hhome hlt hs.lt hne
      by_cases hfar : moves (e.home n) l ((l + j) % n)
      · -- the element moves, and the hole is where it was
        rw [if_pos hfar]
        rw [hmoves] at hfar
        have hl : l < t.length := hlen.symm ▸ hs.lt
        have hc : (l + j) % n < (t.set l e).length := by
          rw [length_set, hlen]
          exact hs.at_lt
        have hslots : slots n ((t.set l e).set ((l + j) % n) (clear e)) =
            Function.update (Function.update (slots n t) l (some (e.home n).toNat)) ((l + j) % n) none := by
          rw [slots_set hc, slots_set hl, homeOf_clear, homeOf, if_neg hempty]
        have hsum := ahead_sub hlt hs.lt hfar
        have hj := hs.ahead_at hne
        have hjpos := hs.pos
        have hless := distances_move hs.lt hs.at_lt hne.symm hs.hole hsome (by omega)
        have hscan := hs.move hne hsome hfar
        rw [← hslots] at hless hscan
        have hmeasure : distances n (slots n ((t.set l e).set ((l + j) % n) (clear e))) * n + (n - 1) < fuel := by
          have hmul := Nat.mul_le_mul_right n (Nat.succ_le_of_lt hless)
          rw [Nat.succ_mul] at hmul
          omega
        have hpos' : ∀ e' ∈ (t.set l e).set ((l + j) % n) (clear e), ¬e'.empty → 0 ≤ e'.home n := by
          intro e' he' hempty'
          rcases mem_or_eq_of_mem_set he' with he' | rfl
          · rcases mem_or_eq_of_mem_set he' with he' | rfl
            · exact hpos e' he' hempty'
            · exact hpos e' (mem_of_getElem? he) hempty'
          · exact absurd (clear_empty e) hempty'
        obtain ⟨t', h1, h2, h3⟩ := ih (by rw [length_set, length_set, hlen]) hpos' hscan hmeasure
        obtain ⟨x, hx⟩ : ∃ x, t[l]? = some x := ⟨_, List.getElem?_eq_getElem hl⟩
        have hxempty : x.empty := by
          by_contra hx'
          have := hs.hole
          rw [slots_of_not_empty hx hx'] at this
          exact absurd this (some_ne_none _)
        have he' : (t.set l e)[(l + j) % n]? = some e := by rw [List.getElem?_set_ne hne.symm, he]
        have hin := elements_set_not_empty hx hxempty hempty
        have hout := elements_set_empty he' hempty (clear_empty e)
        exact ⟨t', h1, h2.trans (List.Perm.cons_inv (hout.symm.trans hin)), h3⟩
      · rw [if_neg hfar, hnext, Nat.add_assoc]
        rw [hmoves, not_le] at hfar
        have hscan := hs.stay hne hsome hfar
        have hle := hscan.le
        exact ih hlen hpos hscan (by omega)
    · -- nothing is here, or the scan is back at the hole
      rw [if_neg hgo]
      refine ⟨t, rfl, List.Perm.refl _, (probedTable_iff hlen).2 ⟨hpos, hs.probed ?_⟩⟩
      by_cases hback : (l + j) % n = l
      · rw [hback]
        exact hs.hole
      · have hempty : e.empty := by
          by_contra hempty
          exact hgo ⟨hback, hempty⟩
        exact slots_of_empty he hempty

theorem gdbm_delete_probed {fuel : ℕ} (hb : ProbedTable n b.h_table) (he : b.h_table[i]? = some e) (hempty : ¬e.empty) (hfuel : n * n * n + n ≤ fuel) :
    ∃ b', deleteElement n fuel b i = some b' ∧ (elements b.h_table).Perm (e :: elements b'.h_table) ∧ ProbedTable n b'.h_table ∧
      b'.count = b.count - 1 := by
  have hlen := hb.length_eq
  obtain ⟨hi, -⟩ := List.getElem?_eq_some_iff.1 he
  have hin : i < n := hlen ▸ hi
  obtain ⟨hpos, hprobed⟩ := (probedTable_iff hlen).1 hb
  have hslots : slots n (b.h_table.set i (clear e)) = Function.update (slots n b.h_table) i none := by
    rw [slots_set hi, homeOf_clear]
  have hscan := hprobed.scan hin
  rw [← hslots] at hscan
  have hdist : distances n (slots n (b.h_table.set i (clear e))) ≤ n * n := distances_le fun p hp h hs => (hscan.reach p hp h hs).1
  have hmeasure : distances n (slots n (b.h_table.set i (clear e))) * n + (n - 1) < fuel := by
    have hmul := Nat.mul_le_mul_right n hdist
    omega
  have hpos' : ∀ e' ∈ b.h_table.set i (clear e), ¬e'.empty → 0 ≤ e'.home n := by
    intro e' he' hempty'
    rcases mem_or_eq_of_mem_set he' with he' | rfl
    · exact hpos e' he' hempty'
    · exact absurd (clear_empty e) hempty'
  obtain ⟨t', h1, h2, h3⟩ := shiftLoop_spec (by rw [length_set, hlen]) hpos' hscan hmeasure
  refine ⟨⟨b.count - 1, t'⟩, ?_, (elements_set_empty he hempty (clear_empty e)).trans (h2.symm.cons e), h3, rfl⟩
  rw [deleteElement, he, bind_some, h1, map_some]

def fullBucket : HashBucket := ⟨3, [⟨1, [97], 0, 1, 1⟩, ⟨5, [98], 2, 1, 1⟩, ⟨0, [99], 4, 1, 1⟩]⟩

theorem fullBucket_probed : ProbedTable 3 fullBucket.h_table := by
  have hhomes : ∀ q < 3, slots 3 fullBucket.h_table q = some ((q + 1) % 3) := by decide
  refine (probedTable_iff (n := 3) (t := fullBucket.h_table) rfl).2 ⟨by decide, fun p hp h hs => ?_⟩
  rw [hhomes p hp] at hs
  obtain rfl := Option.some.inj hs
  refine ⟨by omega, 2, by omega, fun i _ => ?_⟩
  dsimp only
  rw [hhomes _ (Nat.mod_lt _ (by decide))]
  exact some_ne_none _

theorem gdbm_delete_full : ∃ b', deleteElement 3 30 fullBucket 0 = some b' ∧
    (elements fullBucket.h_table).Perm (⟨1, [97], 0, 1, 1⟩ :: elements b'.h_table) ∧ ProbedTable 3 b'.h_table ∧ b'.count = fullBucket.count - 1 :=
  gdbm_delete_probed fullBucket_probed rfl (by decide) (by decide)

section Search

variable {readEntry : BucketElement → List UInt8} {key : List UInt8} {hash : ℤ}

theorem findLoop_from (ht : ProbedTable n t) {h : ℕ} (hhome : hash.tmod n = h) (hh : h < n) : ∀ {fuel k : ℕ}, k < n → n - k ≤ fuel →
    (∀ i < k, ∀ e, t[(h + i) % n]? = some e → ¬e.has readEntry key hash) →
    ∃ r, findLoop n readEntry key hash t h fuel ((h + k) % n) = some r ∧ (r = none → ∀ e ∈ t, ¬e.empty → ¬e.has readEntry key hash) ∧
      ∀ i, r = some i → ∃ e, t[i]? = some e ∧ ¬e.empty ∧ e.has readEntry key hash := by
  intro fuel
  induction fuel with
  | zero => exact fun hk hfuel _ => absurd hfuel (by omega)
  | succ fuel ih =>
    intro k hk hfuel hpassed
    have hlt : (h + k) % n < t.length := ht.length_eq.symm ▸ Nat.mod_lt _ (by omega)
    obtain ⟨e, he⟩ : ∃ e, t[(h + k) % n]? = some e := ⟨_, List.getElem?_eq_getElem hlt⟩
    -- an element with the key is on the way, and it has not been passed
    have hbehind : ∀ e' ∈ t, ¬e'.empty → e'.has readEntry key hash → ∃ m, k ≤ m ∧ m < n ∧ t[(h + m) % n]? = some e' ∧
        ∀ i ≤ m, ∃ x, t[(h + i) % n]? = some x ∧ ¬x.empty := by
      intro e' he' hempty' hhas
      obtain ⟨p, hp⟩ := mem_iff_getElem?.1 he'
      obtain ⟨hpt, -⟩ := List.getElem?_eq_some_iff.1 hp
      obtain ⟨-, hr⟩ := ht.reach p e' hp hempty'
      have hhome' : (e'.home n).toNat = h := by rw [BucketElement.home, hhas.1, hhome, Int.toNat_natCast]
      rw [hhome'] at hr
      have hpn : p < n := ht.length_eq ▸ hpt
      have hat := add_ahead hh hpn
      refine ⟨ahead n h p, ?_, ahead_lt hh hpn, by rw [hat, hp], hr.short hh⟩
      by_contra hlt'
      exact hpassed _ (not_le.1 hlt') e' (by rw [hat, hp]) hhas
    rw [findLoop, he, bind_some]
    by_cases hempty : e.empty
    · rw [if_pos hempty]
      refine ⟨none, rfl, fun _ e' he' hempty' hhas => ?_, fun i hi => absurd hi.symm (some_ne_none i)⟩
      obtain ⟨m, hkm, -, -, hall⟩ := hbehind e' he' hempty' hhas
      obtain ⟨x, hx, hxempty⟩ := hall k hkm
      rw [he] at hx
      exact hxempty (Option.some.inj hx ▸ hempty)
    · rw [if_neg hempty]
      by_cases hhas : e.has readEntry key hash
      · rw [if_pos hhas]
        refine ⟨_, rfl, fun hnone => absurd hnone (some_ne_none _), fun i hi => ?_⟩
        exact ⟨e, Option.some.inj hi ▸ he, hempty, hhas⟩
      · rw [if_neg hhas, Nat.mod_add_mod, Nat.add_assoc]
        have hpassed' : ∀ i < k + 1, ∀ e, t[(h + i) % n]? = some e → ¬e.has readEntry key hash := by
          intro i hi e' he'
          rcases Nat.lt_succ_iff_lt_or_eq.1 hi with hlt' | rfl
          · exact hpassed i hlt' e' he'
          · rw [he] at he'
            exact Option.some.inj he' ▸ hhas
        by_cases hlast : k + 1 = n
        · -- the search is back at the home
          rw [hlast, Nat.add_mod_right, Nat.mod_eq_of_lt hh, if_pos rfl]
          refine ⟨none, rfl, fun _ e' he' hempty' hhas' => ?_, fun i hi => absurd hi.symm (some_ne_none i)⟩
          obtain ⟨m, hkm, hmn, hm, -⟩ := hbehind e' he' hempty' hhas'
          exact hpassed' m (by omega) e' hm hhas'
        · have hback : (h + (k + 1)) % n ≠ h := by
            intro heq
            have hdist := ahead_add hh (show k + 1 < n by omega)
            rw [heq, ahead_self] at hdist
            omega
          rw [if_neg hback]
          exact ih (by omega) (by omega) hpassed'

/-- **`_gdbm_findkey` finds an element with the key** if the table has one. -/
theorem findLoop_spec (ht : ProbedTable n t) (hn : 0 < n) (hhash : 0 ≤ hash) {fuel : ℕ} (hfuel : n ≤ fuel) :
    ∃ r, findLoop n readEntry key hash t (hash.tmod n).toNat fuel (hash.tmod n).toNat = some r ∧
      (r = none → ∀ e ∈ t, ¬e.empty → ¬e.has readEntry key hash) ∧ ∀ i, r = some i → ∃ e, t[i]? = some e ∧ ¬e.empty ∧ e.has readEntry key hash := by
  have hhome : hash.tmod n = (hash.tmod n).toNat := (Int.toNat_of_nonneg (Int.tmod_nonneg _ hhash)).symm
  have hlt : (hash.tmod n).toNat < n := by
    have := Int.tmod_lt_of_pos hash (Int.natCast_pos.2 hn)
    omega
  have h := @findLoop_from n t readEntry key hash ht _ hhome hlt fuel 0 hn (by omega) fun i hi => absurd hi (Nat.not_lt_zero i)
  rwa [Nat.add_zero, Nat.mod_eq_of_lt hlt] at h

end Search

section Refinement

variable {fuel : ℕ} {hash : List UInt8 → ℕ} {file : ℕ → List UInt8} {s : Store} {m : Contents} {key content : List UInt8}
  {es : List BucketElement}

theorem mem_elements : e ∈ elements t ↔ e ∈ t ∧ ¬e.empty := by
  rw [elements, mem_filter, decide_eq_true_eq]

/-- The element has the key, and its block has the key and the content. -/
structure Block (hash : List UInt8 → ℕ) (file : ℕ → List UInt8) (e : BucketElement) (key content : List UInt8) : Prop where
  block : file e.data_pointer = key ++ content
  hash_value : e.hash_value = hash key
  key_size : e.key_size = key.length
  data_size : e.data_size = content.length
  key_start : e.key_start.take (min small key.length) = key.take (min small key.length)

theorem Block.keyAt_eq (h : Block hash file e key content) : keyAt file e = key := by
  rw [keyAt, h.block, h.key_size, take_left]

theorem Block.contentAt_eq (h : Block hash file e key content) : contentAt file e = content := by
  rw [contentAt, h.block, h.key_size, drop_left, h.data_size, take_length]

theorem Block.not_empty (h : Block hash file e key content) : ¬e.empty := by
  intro hempty
  have := h.hash_value.symm.trans hempty
  omega

def pairAt (file : ℕ → List UInt8) (e : BucketElement) : List UInt8 × List UInt8 := (keyAt file e, contentAt file e)

structure Placed (hash : List UInt8 → ℕ) (file : ℕ → List UInt8) (es : List BucketElement) : Prop where
  block : ∀ e ∈ es, ∃ key content, Block hash file e key content
  pointers : (es.map BucketElement.data_pointer).Nodup

theorem Placed.perm (h : Placed hash file es) {es' : List BucketElement} (hp : es.Perm es') : Placed hash file es' :=
  ⟨fun e he => h.block e (hp.mem_iff.2 he), (hp.map _).nodup_iff.1 h.pointers⟩

theorem Placed.put (h : Placed hash file es) (hadr : e.data_pointer ∉ es.map BucketElement.data_pointer)
    (hb : Block hash (Function.update file e.data_pointer (key ++ content)) e key content) :
    Placed hash (Function.update file e.data_pointer (key ++ content)) (e :: es) ∧
      (e :: es).map (pairAt (Function.update file e.data_pointer (key ++ content))) = (key, content) :: es.map (pairAt file) := by
  have hother : ∀ e' ∈ es, Function.update file e.data_pointer (key ++ content) e'.data_pointer = file e'.data_pointer := fun e' he' =>
    update_of_ne (fun heq => hadr (mem_map.2 ⟨e', he', heq⟩)) _ _
  refine ⟨⟨fun e' he' => ?_, nodup_cons.2 ⟨hadr, h.pointers⟩⟩, ?_⟩
  · rcases mem_cons.1 he' with rfl | he'
    · exact ⟨key, content, hb⟩
    · obtain ⟨key', content', hb'⟩ := h.block e' he'
      exact ⟨key', content', ⟨(hother e' he').trans hb'.block, hb'.hash_value, hb'.key_size, hb'.data_size, hb'.key_start⟩⟩
  · rw [map_cons, pairAt, hb.keyAt_eq, hb.contentAt_eq]
    refine congrArg _ (map_congr_left fun e' he' => ?_)
    rw [pairAt, pairAt, keyAt, keyAt, contentAt, contentAt, hother e' he']

/-- **The bucket stands for the map.** -/
structure Keeps (n : ℕ) (hash : List UInt8 → ℕ) (s : Store) (m : Contents) : Prop where
  probed : ProbedTable n s.bucket.h_table
  count : s.bucket.count = (elements s.bucket.h_table).length
  placed : Placed hash s.file (elements s.bucket.h_table)
  lists : Lists ((elements s.bucket.h_table).map (pairAt s.file)) m

theorem Keeps.findkey (h : Keeps n hash s m) (hn : 0 < n) (hfuel : n ≤ fuel) (key : List UInt8) :
    (∃ i e content, s.findkey n fuel hash key = some (some i) ∧ s.bucket.h_table[i]? = some e ∧ Block hash s.file e key content ∧
      m.lookup key = some content) ∨ s.findkey n fuel hash key = some none ∧ key ∉ m := by
  obtain ⟨r, hr, hnone, hsome⟩ := @findLoop_spec _ _ (keyAt s.file) key _ h.probed hn (Int.natCast_nonneg (hash key)) _ hfuel
  cases r with
  | none =>
    refine Or.inr ⟨hr, fun hmem => ?_⟩
    obtain ⟨content, hc⟩ := Finmap.mem_iff.1 hmem
    obtain ⟨e, he, heq⟩ := mem_map.1 ((h.lists.pair key content).2 hc)
    obtain ⟨key', content', hb⟩ := h.placed.block e he
    obtain rfl : key' = key := hb.keyAt_eq.symm.trans (Prod.mk.inj heq).1
    refine hnone rfl e (mem_elements.1 he).1 hb.not_empty ⟨hb.hash_value, hb.key_size, ?_, hb.keyAt_eq⟩
    rw [hb.key_size]
    exact hb.key_start
  | some i =>
    obtain ⟨e, hi, hempty, hhas⟩ := hsome i rfl
    have he := mem_elements.2 ⟨mem_of_getElem? hi, hempty⟩
    obtain ⟨key', content, hb⟩ := h.placed.block e he
    obtain rfl : key' = key := hb.keyAt_eq.symm.trans hhas.2.2.2
    exact Or.inl ⟨i, e, content, hr, hi, hb, (h.lists.pair _ _).1 (mem_map.2 ⟨e, he, by rw [pairAt, hb.keyAt_eq, hb.contentAt_eq]⟩)⟩

theorem Keeps.fetch (h : Keeps n hash s m) (hn : 0 < n) (hfuel : n ≤ fuel) (key : List UInt8) : s.fetch n fuel hash key = some (m.lookup key) := by
  rw [Store.fetch]
  rcases h.findkey hn hfuel key with ⟨i, e, content, hr, hi, hb, hc⟩ | ⟨hr, hnot⟩
  · rw [hr, hc, bind_some]
    dsimp only
    rw [hi, map_some, hb.contentAt_eq]
  · rw [hr, bind_some, Finmap.lookup_eq_none.2 hnot]

theorem probedTable_set (ht : ProbedTable n t) (hi : i < t.length) (hpos : 0 ≤ e.home n)
    (hs : Probed n (Function.update (slots n t) i (homeOf n e))) : ProbedTable n (t.set i e) := by
  refine (probedTable_iff (by rw [length_set, ht.length_eq])).2 ⟨fun e' he' hempty => ?_, by rwa [slots_set hi]⟩
  rcases mem_or_eq_of_mem_set he' with he' | rfl
  · exact ((probedTable_iff ht.length_eq).1 ht).1 e' he' hempty
  · exact hpos

theorem freeLoop_spec (hlen : t.length = n) {h : ℕ} (hh : h < n) (hfree : ∃ e ∈ t, e.empty) : ∀ {fuel k : ℕ}, k < n → n - k ≤ fuel →
    (∀ j < k, slots n t ((h + j) % n) ≠ none) → ∃ j e, freeLoop n t fuel ((h + k) % n) = some ((h + j) % n) ∧ t[(h + j) % n]? = some e ∧ e.empty ∧
      ∀ j' < j, slots n t ((h + j') % n) ≠ none := by
  intro fuel
  induction fuel with
  | zero => exact fun hk hfuel => absurd hfuel (by omega)
  | succ fuel ih =>
    intro k hk hfuel hpassed
    obtain ⟨e, he⟩ : ∃ e, t[(h + k) % n]? = some e := ⟨_, List.getElem?_eq_getElem (hlen.symm ▸ Nat.mod_lt _ (by omega))⟩
    rw [freeLoop, he, bind_some]
    by_cases hempty : e.empty
    · rw [if_neg (not_not.2 hempty)]
      exact ⟨k, e, rfl, he, hempty, hpassed⟩
    · rw [if_pos hempty, Nat.mod_add_mod, Nat.add_assoc]
      have hpassed' : ∀ j < k + 1, slots n t ((h + j) % n) ≠ none := by
        intro j hj
        rcases Nat.lt_succ_iff_lt_or_eq.1 hj with hlt | rfl
        · exact hpassed j hlt
        · exact slots_ne_none.2 ⟨e, he, hempty⟩
      refine ih ?_ (by omega) hpassed'
      -- the slot with nothing is still ahead
      obtain ⟨e', he', hempty'⟩ := hfree
      obtain ⟨p, hp⟩ := mem_iff_getElem?.1 he'
      obtain ⟨hpt, -⟩ := List.getElem?_eq_some_iff.1 hp
      have hpn : p < n := hlen ▸ hpt
      by_contra hlast
      have hlt := ahead_lt hh hpn
      refine hpassed' (ahead n h p) (by omega) ?_
      rw [add_ahead hh hpn]
      exact slots_of_empty hp hempty'

theorem deleteElement_spec (hb : ProbedTable n b.h_table) (he : b.h_table[i]? = some e) (hempty : ¬e.empty) (hfuel : n * n * n + n ≤ fuel) :
    ∃ t', deleteElement n fuel b i = some ⟨b.count - 1, t'⟩ ∧ (elements b.h_table).Perm (e :: elements t') ∧ ProbedTable n t' := by
  obtain ⟨hi, -⟩ := List.getElem?_eq_some_iff.1 he
  obtain ⟨hpos, hprobed⟩ := (probedTable_iff hb.length_eq).1 hb
  have hslots : slots n (b.h_table.set i (clear e)) = Function.update (slots n b.h_table) i none := by
    rw [slots_set hi, homeOf_clear]
  have hscan := hprobed.scan (hb.length_eq ▸ hi)
  rw [← hslots] at hscan
  have hmul := Nat.mul_le_mul_right n (distances_le fun p hp h hs => (hscan.reach p hp h hs).1)
  have hmeasure : distances n (slots n (b.h_table.set i (clear e))) * n + (n - 1) < fuel := by
    have := hscan.lt
    omega
  have hpos' : ∀ e' ∈ b.h_table.set i (clear e), ¬e'.empty → 0 ≤ e'.home n := by
    intro e' he' hempty'
    rcases mem_or_eq_of_mem_set he' with he' | rfl
    · exact hpos e' he' hempty'
    · exact absurd (clear_empty e) hempty'
  obtain ⟨t', h1, h2, h3⟩ := shiftLoop_spec (by rw [length_set, hb.length_eq]) hpos' hscan hmeasure
  refine ⟨t', ?_, (elements_set_empty he hempty (clear_empty e)).trans (h2.symm.cons e), h3⟩
  rw [deleteElement, he, bind_some, h1, map_some]

/-- The address that `_gdbm_alloc` returns is that of no other key. -/
def Fresh (s : Store) : Call → Prop
  | .store key _ _ file_adr => ∀ e ∈ elements s.bucket.h_table, keyAt s.file e ≠ key → e.data_pointer ≠ file_adr
  | .delete _ => True

def mapCall (m : Contents) : Call → ℤ × Contents
  | .store key content replace _ => if key ∈ m ∧ replace = false then (1, m) else (0, m.insert key content)
  | .delete key => if key ∈ m then (0, m.erase key) else (-1, m)

theorem Store.write_keeps {rest : List BucketElement} {adr : ℕ} {count : ℤ} (hhash : e.hash_value = hash key)
    (hstart : e.key_start.take (min small key.length) = key.take (min small key.length)) (hrest : Placed hash s.file rest)
    (hfree : adr ∉ rest.map BucketElement.data_pointer) (hperm : (elements (s.bucket.h_table.set i (e.point adr key content))).Perm (e.point adr key content :: rest))
    (hprobed : ProbedTable n (s.bucket.h_table.set i (e.point adr key content))) (hcount : count = rest.length + 1)
    (hlists : Lists ((key, content) :: rest.map (pairAt s.file)) m) : Keeps n hash (s.write count i e adr key content) m := by
  obtain ⟨hplaced, hpairs⟩ := hrest.put (e := e.point adr key content) hfree ⟨update_self _ _ _, hhash, rfl, rfl, hstart⟩
  refine ⟨hprobed, ?_, hplaced.perm hperm.symm, ?_⟩
  · show count = ((elements (s.bucket.h_table.set i (e.point adr key content))).length : ℤ)
    rw [hcount, hperm.length_eq, length_cons]
    rfl
  · rw [← hpairs] at hlists
    exact hlists.perm (hperm.symm.map _)

/-- **One call** does what it does to the map, unless the bucket would be too small. -/
theorem Keeps.call (h : Keeps n hash s m) (hn : 0 < n) (hfuel : n * n * n + n ≤ fuel) {a : Call} (hfresh : Fresh s a) (hroom : (mapCall m a).2.keys.card ≤ n) :
    ∃ s', s.call n fuel hash a = some ((mapCall m a).1, s') ∧ Keeps n hash s' (mapCall m a).2 := by
  have hlen := h.probed.length_eq
  have hle : n ≤ fuel := by omega
  cases a with
  | delete key =>
    rcases h.findkey hn hle key with ⟨i, e, content, hr, hi, hb, hc⟩ | ⟨hr, hnot⟩
    · obtain ⟨t', hdelete, hperm, hprobed⟩ := deleteElement_spec h.probed hi hb.not_empty hfuel
      have hplaced := h.placed.perm hperm
      have hlists := h.lists.perm (hperm.map _)
      rw [map_cons, pairAt, hb.keyAt_eq] at hlists
      rw [mapCall, if_pos (Finmap.mem_of_lookup_eq_some hc), Store.call, hr, bind_some]
      refine ⟨⟨_, s.file⟩, by dsimp only; rw [hdelete, map_some], hprobed, ?_, ?_, hlists.erase_head⟩
      · show s.bucket.count - 1 = ((elements t').length : ℤ)
        rw [h.count, hperm.length_eq, length_cons]
        omega
      · exact ⟨fun e' he' => hplaced.block e' (mem_cons_of_mem _ he'), (nodup_cons.1 hplaced.pointers).2⟩
    · rw [mapCall, if_neg hnot, Store.call, hr]
      exact ⟨s, rfl, h⟩
  | store key content replace file_adr =>
    rcases h.findkey hn hle key with ⟨i, e, old, hr, hi, hb, hc⟩ | ⟨hr, hnot⟩
    · rw [Store.call, hr, bind_some]
      dsimp only
      rw [hi, map_some]
      cases replace with
      | false =>
        rw [show mapCall m (.store key content false file_adr) = (1, m) from if_pos ⟨Finmap.mem_of_lookup_eq_some hc, rfl⟩]
        exact ⟨s, rfl, h⟩
      | true =>
        rw [show mapCall m (.store key content true file_adr) = (0, m.insert key content) from if_neg fun hc => Bool.false_ne_true hc.2.symm,
          if_pos rfl]
        obtain ⟨hit, -⟩ := List.getElem?_eq_some_iff.1 hi
        generalize hadr : (if e.key_size + e.data_size = key.length + content.length then e.data_pointer else file_adr) = adr
        have hempty' : ¬(e.point adr key content).empty := hb.not_empty
        have hperm := elements_set_empty hi hb.not_empty (clear_empty e)
        have hperm' := elements_set_not_empty (List.getElem?_set_self hit) (clear_empty e) hempty'
        rw [set_set] at hperm'
        generalize elements (s.bucket.h_table.set i (clear e)) = rest at hperm hperm'
        have hplaced := h.placed.perm hperm
        obtain ⟨hnew, hpointers⟩ := nodup_cons.1 hplaced.pointers
        have hlists := h.lists.perm (hperm.map _)
        rw [map_cons, pairAt, hb.keyAt_eq] at hlists
        refine ⟨_, rfl, Store.write_keeps hb.hash_value hb.key_start ⟨fun r hr => hplaced.block r (mem_cons_of_mem _ hr), hpointers⟩ ?_ hperm' ?_
          (by rw [h.count, hperm.length_eq, length_cons]; rfl) (@Lists.insert_old _ _ _ [] _ _ _ _ hlists content)⟩
        · -- the block is that of the element, or one that no other key has
          intro hmem
          obtain ⟨r, hrest, hrp⟩ := mem_map.1 hmem
          rw [← hadr] at hrp
          split_ifs at hrp
          · exact hnew (mem_map.2 ⟨r, hrest, hrp⟩)
          · refine hfresh r (hperm.mem_iff.2 (mem_cons_of_mem _ hrest)) (fun hkey => ?_) hrp
            exact (nodup_cons.1 hlists.nodup).1 (mem_map.2 ⟨pairAt s.file r, mem_map_of_mem hrest, hkey⟩)
        · have hhome : homeOf n (e.point adr key content) = slots n s.bucket.h_table i := by
            rw [slots, hi, bind_some, homeOf, homeOf, if_neg hempty', if_neg hb.not_empty]
            rfl
          refine probedTable_set h.probed hit (h.probed.reach i e hi hb.not_empty).1 ?_
          rw [hhome, update_eq_self]
          exact ((probedTable_iff hlen).1 h.probed).2
    · have hnew : mapCall m (.store key content replace file_adr) = (0, m.insert key content) := if_neg fun hc => hnot hc.1
      have hlists := h.lists.insert_new (fun hmem => hnot (h.lists.mem_iff.1 hmem)) content
      have hcard := hlists.length_eq
      have hcount := h.count
      rw [length_cons, length_map] at hcard
      rw [hnew] at hroom ⊢
      rw [Store.call, hr, bind_some]
      dsimp only at hroom ⊢
      rw [if_neg (by omega)]
      have hfree : ∃ e ∈ s.bucket.h_table, e.empty := by
        by_contra hall
        have hfull : elements s.bucket.h_table = s.bucket.h_table := filter_eq_self.2 fun e he => decide_eq_true fun hempty => hall ⟨e, he, hempty⟩
        rw [hfull] at hcard
        omega
      have hnonneg : 0 ≤ (hash key : ℤ).tmod n := Int.tmod_nonneg _ (Int.natCast_nonneg _)
      have hlt := Int.tmod_lt_of_pos (hash key) (Int.natCast_pos.2 hn)
      have hhome : homeLoc n hash key < n := by
        rw [homeLoc]
        omega
      obtain ⟨j, e, hloop, hi, hempty, hpassed⟩ := freeLoop_spec hlen hhome hfree hn (show n - 0 ≤ fuel by omega)
        fun _ hj => absurd hj (Nat.not_lt_zero _)
      rw [Nat.add_zero, Nat.mod_eq_of_lt hhome] at hloop
      rw [hloop, bind_some, hi, map_some]
      obtain ⟨hit, -⟩ := List.getElem?_eq_some_iff.1 hi
      have hempty' : ¬((({ e with hash_value := hash key, key_start := key.take small ++ e.key_start.drop (min small key.length) } : BucketElement).point
          file_adr key content).empty) := fun h => absurd h (by show (hash key : ℤ) ≠ -1; omega)
      refine ⟨_, rfl, Store.write_keeps rfl ?_ h.placed ?_ (elements_set_not_empty hi hempty hempty') ?_ (by rw [hcount]) hlists⟩
      · rw [take_append_of_le_length (by rw [length_take]), take_take, Nat.min_eq_left (Nat.min_le_left _ _)]
      · intro hmem
        obtain ⟨r, hr', hrp⟩ := mem_map.1 hmem
        refine hfresh r hr' (fun hkey => hnot (h.lists.mem_iff.1 ?_)) hrp
        exact mem_map.2 ⟨pairAt s.file r, mem_map_of_mem hr', hkey⟩
      · refine probedTable_set h.probed hit hnonneg ?_
        rw [homeOf, if_neg hempty']
        exact ((probedTable_iff hlen).1 h.probed).2.put hhome hpassed

/-- The stores that calls reach from an empty bucket, and the map for each. -/
inductive Reaches (n fuel : ℕ) (hash : List UInt8 → ℕ) : Store → Contents → Prop
  | empty {t : List BucketElement} (hlen : t.length = n) (hempty : ∀ e ∈ t, e.empty) (file : ℕ → List UInt8) : Reaches n fuel hash ⟨⟨0, t⟩, file⟩ ∅
  | call {s s' : Store} {m : Contents} {a : Call} {rc : ℤ} (h : Reaches n fuel hash s m) (hfresh : Fresh s a)
      (hroom : (mapCall m a).2.keys.card ≤ n) (hcall : s.call n fuel hash a = some (rc, s')) : Reaches n fuel hash s' (mapCall m a).2

theorem Reaches.keeps (hn : 0 < n) (hfuel : n * n * n + n ≤ fuel) (h : Reaches n fuel hash s m) : Keeps n hash s m := by
  induction h with
  | @empty t hlen hempty file =>
    have hnone : elements t = [] := filter_eq_nil_iff.2 fun e he => by simpa using hempty e he
    refine ⟨⟨hlen, fun p e he hne => absurd (hempty e (mem_of_getElem? he)) hne⟩, ?_, ?_, ?_⟩
    · dsimp only
      rw [hnone]
      rfl
    · dsimp only
      rw [hnone]
      exact ⟨fun e he => absurd he not_mem_nil, nodup_nil⟩
    · dsimp only
      rw [hnone]
      exact Lists.nil
  | call h hfresh hroom hcall ih =>
    obtain ⟨s', hcall', hkeeps⟩ := ih.call hn hfuel hfresh hroom
    rw [hcall] at hcall'
    rwa [(Prod.mk.inj (Option.some.inj hcall')).2]

def emptySlots : List BucketElement := [⟨-1, [], 0, 0, 0⟩, ⟨-1, [], 0, 0, 0⟩]

end Refinement

end KVStores.Gdbm
