import KVStores.Redis.DictRun
import Mathlib.Data.Prod.Lex

/-!
# Iterators of hash tables

`dictGetIterator` and `dictNext`. A pointer to an entry is its key.

* `dictNext_spec`: **`dictNext` takes the first key of those that are ahead**, and ends when there is none.
-/

namespace KVStores.Redis

open List

variable {K V : Type} {ty : DictType K} {t : DictHt K V} {d d' : Dict K V} {k : K} {v : V} {e : K × V}

/-- `dictIterator`; `table` is whether it is the second one. -/
structure DictIterator (K : Type) where
  table : Bool
  index : ℤ
  safe : Bool
  entry : Option K
  nextEntry : Option K

/-- `dictGetIterator`, and `dictGetSafeIterator` with `safe`. -/
def dictGetIterator (safe : Bool) : DictIterator K := ⟨false, -1, safe, none, none⟩

/-- `d->ht[table]`. -/
def Dict.ht (d : Dict K V) (table : Bool) : DictHt K V := if table then d.ht1 else d.ht0

/-- `(signed) ht->size`. -/
def signedSize (t : DictHt K V) : ℤ := toInt (t.size % 2 ^ 32)

def chainFrom (ty : DictType K) (key : K) (chain : List (K × V)) : List (K × V) := chain.dropWhile fun e => !ty.keyCompare key e.1

/-- The first `dictNext` of a safe iterator counts it. -/
def DictIterator.register (it : DictIterator K) (d : Dict K V) : Dict K V :=
  if it.safe && decide (it.index = -1) && !it.table then { d with iterators := d.iterators + 1 } else d

def DictIterator.take (it : DictIterator K) (e : K × V) (rest : List (K × V)) : DictIterator K :=
  { it with entry := some e.1, nextEntry := rest.head?.map Prod.fst }

/-- The loop of `dictNext`. A read outside of a table and an entry that is not in its chain are faults. -/
@[grind =] def dictNextLoop (ty : DictType K) : ℕ → DictIterator K → Dict K V → Option (Option (K × V) × DictIterator K × Dict K V)
  | 0, _, _ => none
  | fuel + 1, it, d =>
    match it.entry with
    | some _ =>
      match it.nextEntry with
      | none => dictNextLoop ty fuel { it with entry := none } d
      | some key =>
        match chainFrom ty key ((d.ht it.table).table it.index.toNat) with
        | [] => none
        | e :: rest => some (some e, it.take e rest, d)
    | none =>
      let d := it.register d
      let it := { it with index := it.index + 1 }
      let ended := decide (signedSize (d.ht it.table) ≤ it.index)
      if ended && !(d.isRehashing && !it.table) then some (none, it, d)
      else
        let it := if ended then { it with table := true, index := 0 } else it
        match (d.ht it.table).bucket it.index.toNat with
        | none => none
        | some [] => dictNextLoop ty fuel it d
        | some (e :: rest) => some (some e, it.take e rest, d)

/-- `dictNext`; each round of its loop but the first two comes to another bucket. -/
def dictNext (ty : DictType K) (it : DictIterator K) (d : Dict K V) : Option (Option (K × V) × DictIterator K × Dict K V) :=
  dictNextLoop ty (d.ht0.size + d.ht1.size + 3) it d

namespace Dict

def keys (d : Dict K V) (table : Bool) (i : ℕ) : List K := ((d.ht table).table i).map Prod.fst

theorem Ok.ht_ok (hok : d.Ok ty) (table : Bool) : (d.ht table).Ok ty := by
  cases table with
  | true => exact hok.ht1
  | false => exact hok.ht0

theorem mem_entries_of_ht (table : Bool) (he : e ∈ (d.ht table).entries) : e ∈ d.entries := by
  cases table with
  | true => exact mem_append_right _ he
  | false => exact mem_append_left _ he

variable {table : Bool} {i : ℕ}

theorem Ok.mem_entries (hok : d.Ok ty) (he : e ∈ (d.ht table).table i) : e ∈ d.entries := by
  refine mem_entries_of_ht table (DictHt.mem_entries.2 ⟨i, ?_, he⟩)
  by_contra hge
  rw [(hok.ht_ok table).inside i (not_lt.1 hge)] at he
  cases he

theorem Ok.exists_keys (he : e ∈ d.entries) : ∃ table i, e ∈ (d.ht table).table i := by
  rcases mem_append.1 he with he | he
  · obtain ⟨i, -, hi⟩ := DictHt.mem_entries.1 he
    exact ⟨false, i, hi⟩
  · obtain ⟨i, -, hi⟩ := DictHt.mem_entries.1 he
    exact ⟨true, i, hi⟩

theorem Ok.ht_distinct (hok : d.Ok ty) (table : Bool) : DistinctKeys ty.keyCompare (d.ht table).entries := by
  cases table with
  | true => exact (pairwise_append.1 hok.distinct).2.1
  | false => exact (pairwise_append.1 hok.distinct).1

theorem Ok.keys_pairwise (hok : d.Ok ty) (table : Bool) (i : ℕ) : (d.keys table i).Pairwise fun a b => ty.keyCompare a b = false := by
  by_cases hi : i < (d.ht table).size
  · have hperm := (hok.ht_distinct table).perm ty.equiv (DictHt.entries_perm hi)
    exact pairwise_map.2 (pairwise_append.1 hperm).1
  · unfold keys
    rw [(hok.ht_ok table).inside i (not_lt.1 hi)]
    exact List.Pairwise.nil

theorem Ok.keys_unique (hok : d.Ok ty) {table' : Bool} {i' : ℕ} {a b : K} (ha : a ∈ d.keys table i) (hb : b ∈ d.keys table' i')
    (hab : ty.keyCompare a b = true) : table = table' ∧ i = i' := by
  obtain ⟨e, he, rfl⟩ := mem_map.1 ha
  obtain ⟨e', he', rfl⟩ := mem_map.1 hb
  have hin : ∀ {table : Bool} {i : ℕ} {e : K × V}, e ∈ (d.ht table).table i → e ∈ (d.ht table).entries := by
    intro table i e he
    refine DictHt.mem_entries.2 ⟨i, ?_, he⟩
    by_contra hge
    rw [(hok.ht_ok table).inside i (not_lt.1 hge)] at he
    cases he
  have htable : table = table' := by
    have hcross := (pairwise_append.1 hok.distinct).2.2
    cases table <;> cases table'
    · rfl
    · rw [hcross e (hin he) e' (hin he')] at hab
      cases hab
    · have hba := ty.equiv.symm _ _ hab
      rw [hcross e' (hin he') e (hin he)] at hba
      cases hba
    · rfl
  subst htable
  refine ⟨rfl, ?_⟩
  rw [← (hok.ht_ok table).placed i e he, ← (hok.ht_ok table).placed i' e' he']
  unfold DictHt.slot
  rw [ty.hash_eq _ _ hab]

end Dict

/-- A key that is ahead of an iterator: in the rest of its bucket, in a bucket that follows in the same table, or in the second table. -/
def Ahead (d : Dict K V) (table : Bool) (index : ℤ) (post : List K) (a : K) : Prop :=
  a ∈ post ∨ (∃ m : ℕ, index < m ∧ a ∈ d.keys table m) ∨ (table = false ∧ ∃ m, a ∈ d.keys true m)

/-- The iterator is at an entry of a bucket, or behind one that was there: `pre` are the keys up to it, `post` those that follow. -/
structure Visiting (it : DictIterator K) (d : Dict K V) (i : ℕ) (pre post : List K) : Prop where
  index : it.index = i
  entry : it.entry ≠ none
  inside : i < (d.ht it.table).size
  keys : d.keys it.table i = pre ++ post
  next : it.nextEntry = post.head?
  second : it.table = true → d.isRehashing = true

variable {it it' : DictIterator K} {i : ℕ} {pre post : List K} {a : K}

theorem Visiting.not_ahead (hv : Visiting it d i pre post) (hok : d.Ok ty) {b : K} (ha : a ∈ pre) (hb : Ahead d it.table i post b) :
    ty.keyCompare a b = false := by
  have hmem : a ∈ d.keys it.table i := by
    rw [hv.keys]
    exact mem_append_left _ ha
  by_contra hne
  have hab := Bool.not_eq_false _ ▸ hne
  rcases hb with hb | ⟨m, hm, hb⟩ | ⟨htable, m, hb⟩
  · have hpw := hok.keys_pairwise it.table i
    rw [hv.keys] at hpw
    rw [(pairwise_append.1 hpw).2.2 a ha b hb] at hab
    cases hab
  · have := (hok.keys_unique hmem hb hab).2
    omega
  · have := (hok.keys_unique hmem hb hab).1
    rw [htable] at this
    cases this

theorem register_eq (it : DictIterator K) (d : Dict K V) : ∃ n, it.register d = { d with iterators := n } ∧ d.iterators ≤ n ∧
    (it.safe = true → it.index = -1 → it.table = false → 0 < n) := by
  unfold DictIterator.register
  by_cases h : (it.safe && decide (it.index = -1) && !it.table) = true
  · rw [if_pos h]
    exact ⟨d.iterators + 1, rfl, Nat.le_succ _, fun _ _ _ => Nat.succ_pos _⟩
  · rw [if_neg h]
    refine ⟨d.iterators, rfl, le_refl _, fun h1 h2 h3 => absurd ?_ h⟩
    rw [h1, h2, h3]
    rfl

theorem register_of_index (it : DictIterator K) (d : Dict K V) (h : 0 ≤ it.index) : it.register d = d := by
  unfold DictIterator.register
  have hne : decide (it.index = -1) = false := decide_eq_false (by omega)
  rw [hne, Bool.and_false, Bool.false_and, if_neg Bool.false_ne_true]

theorem signedSize_eq (h : t.size < intLimit) : signedSize t = t.size := by
  have hlt : t.size < 2 ^ 31 := h
  unfold signedSize
  rw [Nat.mod_eq_of_lt (by omega), toInt_of_lt h]

variable {table : Bool}

theorem Dict.Ok.keys_outside (hok : d.Ok ty) {m : ℕ} (h : (d.ht table).size ≤ m) : d.keys table m = [] := by
  unfold Dict.keys
  rw [(hok.ht_ok table).inside m h]
  rfl

theorem Dict.Ok.keys_idle (hok : d.Ok ty) (h : d.isRehashing = false) (m : ℕ) : d.keys true m = [] := by
  refine hok.keys_outside ?_
  rw [show d.ht true = d.ht1 from rfl, hok.idle (Dict.not_isRehashing_iff.1 h)]
  exact Nat.zero_le m

variable {index : ℤ}

theorem ahead_post : Ahead d table index post a ↔ a ∈ post ∨ Ahead d table index [] a := by
  unfold Ahead
  simp only [not_mem_nil, false_or]

theorem ahead_bucket (d : Dict K V) (table : Bool) {j : ℕ} (hj : (j : ℤ) = index + 1) (a : K) :
    Ahead d table index [] a ↔ a ∈ d.keys table j ∨ Ahead d table j [] a := by
  unfold Ahead
  simp only [not_mem_nil, false_or]
  constructor
  · rintro (⟨m, hm, ha⟩ | h)
    · by_cases hmj : m = j
      · exact Or.inl (hmj ▸ ha)
      · exact Or.inr (Or.inl ⟨m, by omega, ha⟩)
    · exact Or.inr (Or.inr h)
  · rintro (ha | ⟨m, hm, ha⟩ | h)
    · exact Or.inl ⟨j, by omega, ha⟩
    · exact Or.inl ⟨m, by omega, ha⟩
    · exact Or.inr h

theorem ahead_second (hok : d.Ok ty) (index : ℤ) (hend : (d.ht0.size : ℤ) ≤ index + 1) (a : K) :
    Ahead d false index [] a ↔ a ∈ d.keys true 0 ∨ Ahead d true (0 : ℕ) [] a := by
  unfold Ahead
  simp only [not_mem_nil, false_or, true_and, Bool.true_eq_false, false_and, or_false]
  constructor
  · rintro (⟨m, hm, ha⟩ | ⟨m, ha⟩)
    · rw [hok.keys_outside (show d.ht0.size ≤ m by omega)] at ha
      cases ha
    · cases m with
      | zero => exact Or.inl ha
      | succ m => exact Or.inr ⟨m + 1, by omega, ha⟩
  · rintro (ha | ⟨m, -, ha⟩)
    · exact Or.inr ⟨0, ha⟩
    · exact Or.inr ⟨m, ha⟩

def DictIterator.todo (it : DictIterator K) (d : Dict K V) : ℕ :=
  ((d.ht it.table).size - 1 - it.index).toNat + if it.table then 0 else d.ht1.size

/-- What `dictNext` finds: nothing when no key is ahead, or the first key of those. -/
structure Found (it : DictIterator K) (index : ℤ) (d : Dict K V) (ahead : K → Prop) (e : K × V) (it' : DictIterator K) : Prop where
  safe : it'.safe = it.safe
  progress : (it'.table = it.table ∧ index < it'.index) ∨ (it.table = false ∧ it'.table = true)
  visiting : ∃ i pre post, Visiting it' d i (pre ++ [e.1]) post ∧ ∀ a, ahead a ↔ a = e.1 ∨ Ahead d it'.table i post a
  mem : e ∈ d.entries

theorem dictNextLoop_spec : ∀ (fuel : ℕ) {it : DictIterator K} {d : Dict K V}, d.Ok ty → d.ht0.size < intLimit → d.ht1.size < intLimit →
    it.entry = none → -1 ≤ it.index → it.index < (d.ht it.table).size → (it.table = true → d.isRehashing = true) → it.todo d < fuel →
    ∃ r it', dictNextLoop ty fuel it d = some (r, it', it.register d) ∧
      (r = none → ∀ a, ¬ Ahead d it.table it.index [] a) ∧ ∀ e, r = some e → Found it it.index d (Ahead d it.table it.index []) e it' := by
  intro fuel
  induction fuel with
  | zero =>
    intro it d _ _ _ _ _ _ _ hfuel
    exact absurd hfuel (Nat.not_lt_zero _)
  | succ fuel ih =>
    intro it d hok h0 h1 hentry hindex hlt hsecond hfuel
    -- a bucket, which is empty or has the entry that is returned
    have hvisit : ∀ (d : Dict K V) (it : DictIterator K) (j : ℕ), d.Ok ty → d.ht0.size < intLimit → d.ht1.size < intLimit → it.entry = none →
        it.index = j → j < (d.ht it.table).size → (it.table = true → d.isRehashing = true) → it.todo d < fuel →
        ∃ r it', (match (d.ht it.table).bucket it.index.toNat with
            | none => none
            | some [] => dictNextLoop ty fuel it d
            | some (e :: rest) => some (some e, it.take e rest, d)) = some (r, it', d) ∧
          (r = none → ∀ a, ¬ (a ∈ d.keys it.table j ∨ Ahead d it.table j [] a)) ∧
          ∀ e, r = some e → Found it (it.index - 1) d (fun a => a ∈ d.keys it.table j ∨ Ahead d it.table j [] a) e it' := by
      intro d it j hok h0 h1 hentry hindex hj hsecond hfuel
      have hnat : it.index.toNat = j := by rw [hindex, Int.toNat_natCast]
      rw [hnat, DictHt.bucket, if_pos hj]
      cases hchain : (d.ht it.table).table j with
      | nil =>
        have hkeys : d.keys it.table j = [] := by
          unfold Dict.keys
          rw [hchain]
          rfl
        obtain ⟨r, it', g1, g2, g3⟩ := ih hok h0 h1 hentry (by omega) (by omega) hsecond hfuel
        rw [register_of_index it d (by omega)] at g1
        rw [hindex] at g2 g3
        rw [← hindex] at g3
        refine ⟨r, it', g1, fun hr a ha => ?_, fun e he => ⟨(g3 e he).safe, ?_, ?_, (g3 e he).mem⟩⟩
        · rw [hkeys] at ha
          exact g2 hr a (ha.resolve_left (not_mem_nil))
        · exact (g3 e he).progress.imp_left fun h => ⟨h.1, by omega⟩
        · obtain ⟨i, pre, post, k1, k2⟩ := (g3 e he).visiting
          refine ⟨i, pre, post, k1, fun a => ?_⟩
          rw [hkeys, ← k2 a, hindex]
          exact ⟨fun h => h.resolve_left not_mem_nil, Or.inr⟩
      | cons e rest =>
        dsimp only
        have hkeys : d.keys it.table j = e.1 :: rest.map Prod.fst := by
          unfold Dict.keys
          rw [hchain]
          rfl
        refine ⟨some e, _, rfl, fun h => (by cases h), fun e' he' => ?_⟩
        obtain rfl := Option.some.inj he'
        refine ⟨rfl, Or.inl ⟨rfl, Int.sub_one_lt_of_le (le_refl _)⟩, ⟨j, [], rest.map Prod.fst, ⟨hindex, Option.some_ne_none _, hj, hkeys, ?_, hsecond⟩, fun a => ?_⟩,
          hok.mem_entries (hchain ▸ mem_cons_self)⟩
        · cases rest <;> rfl
        · rw [hkeys, mem_cons, or_assoc]
          exact or_congr_right ahead_post.symm
    obtain ⟨n, hreg, -, -⟩ := register_eq it d
    have hok' : Dict.Ok ty { d with iterators := n } := ⟨hok.ht0, hok.ht1, hok.distinct, hok.idle, hok.busy⟩
    rw [dictNextLoop, hentry]
    dsimp only
    rw [hreg]
    obtain ⟨j, hj⟩ : ∃ j : ℕ, (j : ℤ) = it.index + 1 := ⟨(it.index + 1).toNat, by omega⟩
    have hsize : signedSize (d.ht it.table) = (d.ht it.table).size := by
      cases ht : it.table with
      | true => exact signedSize_eq h1
      | false => exact signedSize_eq h0
    have hsize' : signedSize (({ d with iterators := n } : Dict K V).ht it.table) = (d.ht it.table).size := hsize
    rw [hsize']
    by_cases hend : (d.ht it.table).size ≤ j
    · rw [decide_eq_true (show ((d.ht it.table).size : ℤ) ≤ it.index + 1 by omega)]
      by_cases hgo : d.isRehashing = true ∧ it.table = false
      · -- the second table follows
        obtain ⟨hre, htable⟩ := hgo
        obtain ⟨m, hm⟩ := Dict.isRehashing_iff.1 hre
        have hpos1 := (hok.busy m hm).2.1
        have hcond : (true && !(({ d with iterators := n } : Dict K V).isRehashing && !it.table)) = false := by
          rw [show ({ d with iterators := n } : Dict K V).isRehashing = true from hre, htable]
          rfl
        rw [hcond, if_neg Bool.false_ne_true, if_pos rfl]
        have htodo : ({ it with index := 0, table := true } : DictIterator K).todo { d with iterators := n } < fuel := by
          unfold DictIterator.todo at hfuel ⊢
          rw [htable, if_neg Bool.false_ne_true] at hfuel
          have : (({ d with iterators := n } : Dict K V).ht true).size = d.ht1.size := rfl
          dsimp only
          rw [this, if_pos rfl]
          omega
        obtain ⟨r, it', g1, g2, g3⟩ := hvisit { d with iterators := n } { it with table := true, index := 0, entry := none } 0 hok' h0 h1 rfl rfl hpos1
          (fun _ => hre) htodo
        rw [htable] at hend ⊢
        have hahead := ahead_second hok it.index (by have : d.ht0.size ≤ j := hend; omega)
        refine ⟨r, it', g1, fun hr a ha => g2 hr a ((hahead a).1 ha), fun e he => ⟨(g3 e he).safe, ?_, ?_, (g3 e he).mem⟩⟩
        · exact Or.inr ⟨htable, (g3 e he).progress.elim And.left And.right⟩
        obtain ⟨i, pre, post, k1, k2⟩ := (g3 e he).visiting
        exact ⟨i, pre, post, ⟨k1.index, k1.entry, k1.inside, k1.keys, k1.next, k1.second⟩, fun a => (hahead a).trans (k2 a)⟩
      · -- there is nothing behind
        have hcond : (true && !(({ d with iterators := n } : Dict K V).isRehashing && !it.table)) = true := by
          rw [show ({ d with iterators := n } : Dict K V).isRehashing = d.isRehashing from rfl]
          cases hre : d.isRehashing <;> cases htable : it.table <;> first | rfl | exact absurd ⟨hre, htable⟩ hgo
        rw [hcond, if_pos rfl]
        refine ⟨none, _, rfl, fun _ a ha => ?_, fun e he => (by cases he)⟩
        rcases ha with ha | ⟨m, hm, ha⟩ | ⟨htable, m, ha⟩
        · cases ha
        · rw [hok.keys_outside (by omega)] at ha
          cases ha
        · rw [hok.keys_idle (Bool.eq_false_iff.2 fun hre => hgo ⟨hre, htable⟩) m] at ha
          cases ha
    · -- the next bucket of the table
      rw [decide_eq_false (show ¬ ((d.ht it.table).size : ℤ) ≤ it.index + 1 by omega), Bool.false_and, if_neg Bool.false_ne_true,
        if_neg Bool.false_ne_true]
      have htodo : ({ it with index := it.index + 1 } : DictIterator K).todo { d with iterators := n } < fuel := by
        unfold DictIterator.todo at hfuel ⊢
        have : (({ d with iterators := n } : Dict K V).ht it.table).size = (d.ht it.table).size := rfl
        dsimp only
        omega
      obtain ⟨r, it', g1, g2, g3⟩ := hvisit { d with iterators := n } { it with index := it.index + 1, entry := none } j hok' h0 h1 rfl hj.symm
        (not_le.1 hend) hsecond htodo
      have hahead := fun a => ahead_bucket d it.table hj a
      refine ⟨r, it', g1, fun hr a ha => g2 hr a ((hahead a).1 ha), fun e he => ⟨(g3 e he).safe, ?_, ?_, (g3 e he).mem⟩⟩
      · refine (g3 e he).progress.imp_left fun h => ⟨h.1, ?_⟩
        have := h.2
        dsimp only at this
        omega
      obtain ⟨i, pre, post, k1, k2⟩ := (g3 e he).visiting
      exact ⟨i, pre, post, ⟨k1.index, k1.entry, k1.inside, k1.keys, k1.next, k1.second⟩, fun a => (hahead a).trans (k2 a)⟩

theorem chainFrom_eq {chain : List (K × V)} (hchain : chain.map Prod.fst = pre ++ a :: post)
    (hpw : (chain.map Prod.fst).Pairwise fun a b => ty.keyCompare a b = false) :
    ∃ e rest, chainFrom ty a chain = e :: rest ∧ e.1 = a ∧ rest.map Prod.fst = post := by
  obtain ⟨x, y, rfl, hx, hy⟩ := map_eq_append_iff.1 hchain
  obtain ⟨e, rest, rfl, rfl, hrest⟩ := map_eq_cons_iff.1 hy
  refine ⟨e, rest, ?_, rfl, hrest⟩
  rw [hchain] at hpw
  unfold chainFrom
  rw [dropWhile_append_of_pos, dropWhile_cons_of_neg]
  · rw [ty.equiv.refl e.1]
    exact Bool.false_ne_true
  · intro b hb
    have hb : b.1 ∈ pre := hx ▸ mem_map_of_mem hb
    rw [ty.equiv.symm_false ((pairwise_append.1 hpw).2.2 b.1 hb e.1 mem_cons_self)]
    rfl

/-- An iterator that has not started, or is at an entry; `last` is the key of the entry that was returned last. -/
def Stands (it : DictIterator K) (d : Dict K V) (last : Option K) (post : List K) : Prop :=
  (it.entry = none ∧ it.index = -1 ∧ it.table = false ∧ post = [] ∧ last = none) ∨
    ∃ i pre, Visiting it d i pre post ∧ ∀ l, last = some l → l ∈ pre

def DictIterator.Pending (it : DictIterator K) (d : Dict K V) (post : List K) (a : K) : Prop := Ahead d it.table it.index post a

/-- How far an iterator is from its end: in which table, in which bucket, and where in the bucket. -/
def DictIterator.rank (it : DictIterator K) (d : Dict K V) (post : List K) : ℕ ×ₗ ℕ ×ₗ ℕ :=
  toLex ((if it.table then 0 else 1), toLex (((d.ht it.table).size - it.index).toNat, post.length))

/-- `dictNext` returns an entry: its key was ahead and is no more, and the others are as before. -/
structure Advanced (ty : DictType K) (it : DictIterator K) (d : Dict K V) (post : List K) (e : K × V) (it' : DictIterator K)
    (post' : List K) : Prop where
  safe : it'.safe = it.safe
  mem : e ∈ d.entries
  stands : Stands it' d (some e.1) post'
  pending : ∀ a, it.Pending d post a ↔ a = e.1 ∨ it'.Pending d post' a
  passed : ∀ a, it'.Pending d post' a → ty.keyCompare e.1 a = false
  rank : it'.rank d post' < it.rank d post

theorem Found.advanced (hok : d.Ok ty) (hlt : it.index < (d.ht it.table).size) (h : Found it it.index d (it.Pending d post) e it') :
    ∃ post', Advanced ty it d post e it' post' := by
  obtain ⟨i, pre, post', hv, hp⟩ := h.visiting
  have hpending : ∀ a, it'.Pending d post' a ↔ Ahead d it'.table i post' a := by
    intro a
    unfold DictIterator.Pending
    rw [hv.index]
  refine ⟨post', h.safe, h.mem, Or.inr ⟨i, pre ++ [e.1], hv, fun l hl => ?_⟩, fun a => ?_, fun a ha => ?_, ?_⟩
  · rw [← Option.some.inj hl]
    exact mem_append_right _ mem_cons_self
  · rw [hpending]
    exact hp a
  · exact hv.not_ahead hok (mem_append_right _ mem_cons_self) ((hpending a).1 ha)
  · have hinside := hv.inside
    unfold DictIterator.rank
    rcases h.progress with ⟨htable, hindex⟩ | ⟨h1, h2⟩
    · rw [htable] at hinside ⊢
      exact Prod.Lex.toLex_lt_toLex.2 (Or.inr ⟨rfl, Prod.Lex.toLex_lt_toLex.2 (Or.inl (by dsimp only; omega))⟩)
    · rw [h1, h2]
      exact Prod.Lex.toLex_lt_toLex.2 (Or.inl Nat.zero_lt_one)

theorem dictNext_spec {last : Option K} (hok : d.Ok ty) (h0 : d.ht0.size < intLimit) (h1 : d.ht1.size < intLimit) (hs : Stands it d last post) :
    ∃ r it', dictNext ty it d = some (r, it', it.register d) ∧ (r = none → ∀ a, ¬ it.Pending d post a) ∧
      ∀ e, r = some e → ∃ post', Advanced ty it d post e it' post' := by
  have htodo : ∀ it : DictIterator K, -1 ≤ it.index → it.todo d < d.ht0.size + d.ht1.size + 2 := by
    intro it hindex
    unfold DictIterator.todo
    cases it.table with
    | true =>
      have : d.ht true = d.ht1 := rfl
      rw [this, if_pos rfl]
      omega
    | false =>
      have : d.ht false = d.ht0 := rfl
      rw [this, if_neg Bool.false_ne_true]
      omega
  rcases hs with ⟨hentry, hindex, htable, rfl, -⟩ | ⟨i, pre, hv, -⟩
  · have hlt : it.index < (d.ht it.table).size := by omega
    obtain ⟨r, it', g1, g2, g3⟩ := dictNextLoop_spec (d.ht0.size + d.ht1.size + 3) hok h0 h1 hentry (by omega) hlt
      (fun h => by rw [htable] at h; cases h) (Nat.lt_succ_of_lt (htodo it (by omega)))
    exact ⟨r, it', g1, g2, fun e he => (g3 e he).advanced hok hlt⟩
  · have hreg := register_of_index it d (by rw [hv.index]; omega)
    have hlt : it.index < (d.ht it.table).size := by
      rw [hv.index]
      exact_mod_cast hv.inside
    obtain ⟨a, ha⟩ := Option.ne_none_iff_exists'.1 hv.entry
    rw [hreg, dictNext, dictNextLoop, ha, hv.next]
    cases post with
    | nil =>
      -- the end of the bucket
      let it1 : DictIterator K := { it with entry := none, nextEntry := none }
      have hindex : -1 ≤ it1.index := by
        have : it1.index = i := hv.index
        omega
      obtain ⟨r, it', g1, g2, g3⟩ := @dictNextLoop_spec _ _ ty (d.ht0.size + d.ht1.size + 2) it1 d hok h0 h1 rfl hindex hlt hv.second
        (htodo it1 hindex)
      rw [show it1.register d = d from hreg] at g1
      refine ⟨r, it', g1, g2, fun e he => ?_⟩
      have hlt1 : it1.index < (d.ht it1.table).size := hlt
      have hfound : Found it1 it1.index d (it1.Pending d []) e it' := g3 e he
      obtain ⟨post', k⟩ := hfound.advanced hok hlt1
      exact ⟨post', k.safe, k.mem, k.stands, k.pending, k.passed, k.rank⟩
    | cons b post =>
      -- the next entry of the chain
      dsimp only [List.head?_cons]
      have hkeys : ((d.ht it.table).table i).map Prod.fst = pre ++ b :: post := hv.keys
      obtain ⟨e, rest, hchain, rfl, hrest⟩ := chainFrom_eq hkeys (hok.keys_pairwise it.table i)
      have hnat : it.index.toNat = i := by rw [hv.index, Int.toNat_natCast]
      have hmem : e ∈ (d.ht it.table).table i := (dropWhile_sublist _).subset (show e ∈ chainFrom ty e.1 _ from hchain ▸ mem_cons_self)
      have hv' : Visiting (it.take e rest) d i (pre ++ [e.1]) post := by
        refine ⟨hv.index, Option.some_ne_none _, hv.inside, ?_, ?_, hv.second⟩
        · rw [append_assoc]
          exact hv.keys
        · rw [← hrest]
          cases rest <;> rfl
      have hpending : ∀ a, it.Pending d (e.1 :: post) a ↔ a = e.1 ∨ (it.take e rest).Pending d post a := by
        intro a
        unfold DictIterator.Pending Ahead
        rw [mem_cons, or_assoc]
        exact Iff.rfl
      rw [hnat, hchain]
      refine ⟨some e, it.take e rest, rfl, fun h => (by cases h), fun e' he' => ?_⟩
      obtain rfl := Option.some.inj he'
      refine ⟨post, rfl, hok.mem_entries hmem, Or.inr ⟨i, pre ++ [e.1], hv', fun l hl => ?_⟩, hpending, fun a hp => ?_, ?_⟩
      · rw [← Option.some.inj hl]
        exact mem_append_right _ mem_cons_self
      · refine hv'.not_ahead hok (mem_append_right _ mem_cons_self) ?_
        rw [← hv'.index]
        exact hp
      · exact Prod.Lex.toLex_lt_toLex.2 (Or.inr ⟨rfl, Prod.Lex.toLex_lt_toLex.2 (Or.inr ⟨rfl, Nat.lt_succ_self _⟩)⟩)

end KVStores.Redis
