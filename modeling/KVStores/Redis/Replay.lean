import KVStores.Redis.AofRewriteLoad
import KVStores.Redis.Changes

/-!
# Commands, and the same commands while loading

A command that is called may find keys expired, which it deletes and propagates as `DEL`; the command itself is propagated behind that
if it made the server dirty. `Replays` is what it takes for the log: executed by a server that is loading, after the `DEL`s, the command
does the same again, and it does nothing but these deletions if it is not propagated.
-/

namespace KVStores.Redis

open List Option

open Aof

variable {Score : Type} {now clock : ℤ} {n : ℕ} {d : ℕ → RedisDb Score} {argv : List Sds} {key : Sds}

/-! ## Deleted keys -/

def deleteKey (d : ℕ → RedisDb Score) (n : ℕ) (key : Sds) : ℕ → RedisDb Score := putDict (putExpires d n key none) n key none

def purge (d : ℕ → RedisDb Score) (l : List (ℕ × Sds)) : ℕ → RedisDb Score := l.foldl (fun d p => deleteKey d p.1 p.2) d

/-- A command that has done nothing but find these keys expired. -/
def purged (d : ℕ → RedisDb Score) (argv : List Sds) (l : List (ℕ × Sds)) : Keyspace Score := ⟨purge d l, 0, argv, [], [], l⟩

theorem purged_db (d : ℕ → RedisDb Score) (argv : List Sds) (l : List (ℕ × Sds)) : (purged d argv l).db = purge d l := rfl

theorem start_db (d : ℕ → RedisDb Score) (argv : List Sds) : (Keyspace.start d argv).db = d := rfl

theorem start_eq_purged : Keyspace.start d argv = purged d argv [] := rfl

theorem deleteKey_dict (d : ℕ → RedisDb Score) (n : ℕ) (key : Sds) (m : ℕ) (k : Sds) :
    (deleteKey d n key m).dict k = if m = n ∧ k = key then none else (d m).dict k := by
  rw [deleteKey, putDict_dict, putExpires_dict]

theorem deleteKey_expires (d : ℕ → RedisDb Score) (n : ℕ) (key : Sds) (m : ℕ) (k : Sds) :
    (deleteKey d n key m).expires k = if m = n ∧ k = key then none else (d m).expires k := by
  rw [deleteKey, putDict_expires, putExpires_expires]

theorem purge_concat (d : ℕ → RedisDb Score) (l : List (ℕ × Sds)) (n : ℕ) (key : Sds) : purge d (l ++ [(n, key)]) = deleteKey (purge d l) n key :=
  foldl_concat ..

/-- **Looking up a key** adds it to the keys that were found expired, or does nothing. -/
theorem expireIfNeeded_purged (e : Env) (d : ℕ → RedisDb Score) (argv : List Sds) (l : List (ℕ × Sds)) (n : ℕ) (key : Sds) :
    ∃ l', expireIfNeeded e (purged d argv l) n key = purged d argv l' ∧ (l' = l ∨ l' = l ++ [(n, key)]) := by
  rcases expireIfNeeded_cases e (purged d argv l) n key with h | h
  · exact ⟨l, h, Or.inl rfl⟩
  · refine ⟨l ++ [(n, key)], h.trans ?_, Or.inr rfl⟩
    rw [purged, purged, purge_concat]
    rfl

def ExpiresOk (d : ℕ → RedisDb Score) : Prop := ∀ n key, (d n).expires key ≠ none → (d n).dict key ≠ none

theorem ExpiresOk.putDict (hok : ExpiresOk d) (n : ℕ) (key : Sds) (v : Value Score) : ExpiresOk (putDict d n key (some v)) := by
  intro m k h
  rw [putDict_expires] at h
  rw [putDict_dict]
  by_cases hk : m = n ∧ k = key
  · rw [if_pos hk]
    exact some_ne_none _
  · rw [if_neg hk]
    exact hok m k h

theorem ExpiresOk.putExpires (hok : ExpiresOk d) {n : ℕ} {key : Sds} {t : Option ℤ} (hkey : t ≠ none → (d n).dict key ≠ none) :
    ExpiresOk (putExpires d n key t) := by
  intro m k h
  rw [putExpires_expires] at h
  rw [putExpires_dict]
  by_cases hk : m = n ∧ k = key
  · rw [if_pos hk] at h
    rw [hk.1, hk.2]
    exact hkey h
  · rw [if_neg hk] at h
    exact hok m k h

theorem ExpiresOk.deleteKey (hok : ExpiresOk d) (n : ℕ) (key : Sds) : ExpiresOk (deleteKey d n key) := by
  intro m k h
  rw [deleteKey_expires] at h
  rw [deleteKey_dict]
  by_cases hk : m = n ∧ k = key
  · rw [if_pos hk] at h
    exact absurd rfl h
  · rw [if_neg hk] at h ⊢
    exact hok m k h

theorem ExpiresOk.purge (hok : ExpiresOk d) (l : List (ℕ × Sds)) : ExpiresOk (purge d l) := by
  induction l using List.reverseRecOn with
  | nil => exact hok
  | append_singleton l p ih =>
    rw [purge_concat]
    exact ih.deleteKey _ _

/-! ## Commands about one key -/

/-- **What the log needs of a command** that is propagated as it is. -/
structure Replays (c : Env → Keyspace Score → Keyspace Score) (now clock : ℤ) (n : ℕ) (d : ℕ → RedisDb Score) (argv : List Sds) : Prop where
  argv_eq : (c ⟨false, now⟩ (Keyspace.start d argv)).argv = argv
  home : ∀ p ∈ (c ⟨false, now⟩ (Keyspace.start d argv)).expired, p.1 = n
  ok : ExpiresOk (c ⟨false, now⟩ (Keyspace.start d argv)).db
  clean : (c ⟨false, now⟩ (Keyspace.start d argv)).dirty = 0 →
    (c ⟨false, now⟩ (Keyspace.start d argv)).db = purge d (c ⟨false, now⟩ (Keyspace.start d argv)).expired
  again : (c ⟨true, clock⟩ (Keyspace.start (purge d (c ⟨false, now⟩ (Keyspace.start d argv)).expired) argv)).db =
    (c ⟨false, now⟩ (Keyspace.start d argv)).db

variable {c : Env → Keyspace Score → Keyspace Score} {l : List (ℕ × Sds)}

theorem replays_of {s : Keyspace Score}
    (hs : c ⟨false, now⟩ (Keyspace.start d argv) = s) (hargv : s.argv = argv) (hexpired : s.expired = l) (hhome : ∀ p ∈ l, p.1 = n)
    (hok : ExpiresOk s.db) (hclean : s.dirty = 0 → s.db = purge d l)
    (hagain : (c ⟨true, clock⟩ (Keyspace.start (purge d l) argv)).db = s.db) : Replays c now clock n d argv := by
  subst hs
  subst hexpired
  exact ⟨hargv, hhome, hok, hclean, hagain⟩

theorem replays_id (hok : ExpiresOk d) : Replays (fun _ s => s) now clock n d argv := ⟨rfl, forall_mem_nil _, hok, fun _ => rfl, rfl⟩

/-- The second half of `changeKey`. -/
def applyChange (s : Keyspace Score) (n : ℕ) (key : Sds) : Change Score → Keyspace Score
  | .keep => s
  | .store val k => addDirty (signalModifiedKey (s.setDict n key (some val)) n key) k
  | .delete k => addDirty (signalModifiedKey (dbDelete s n key) n key) k

theorem changeKey_eq (e : Env) (s : Keyspace Score) (n : ℕ) (key : Sds) (change : Option (Value Score) → Change Score) :
    changeKey e s n key change = applyChange (expireIfNeeded e s n key) n key (change (lookupKey (expireIfNeeded e s n key) n key)) := rfl

theorem replays_changeKey (hok : ExpiresOk d) {change : Option (Value Score) → Change Score} (hdirty : ∀ o, (change o).Dirty) (key : Sds) :
    Replays (fun e s => changeKey e s n key change) now clock n d argv := by
  obtain ⟨l, hexpire, hl⟩ := expireIfNeeded_purged ⟨false, now⟩ d argv [] n key
  have hhome : ∀ p ∈ l, p.1 = n := by
    rcases hl with rfl | rfl
    · exact fun p hp => absurd hp not_mem_nil
    · intro p hp
      rw [mem_singleton.1 hp]
  have hlive : changeKey ⟨false, now⟩ (Keyspace.start d argv) n key change =
      applyChange (purged d argv l) n key (change ((purge d l n).dict key)) := by
    rw [changeKey_eq, start_eq_purged, hexpire]
    rfl
  have hload : changeKey ⟨true, clock⟩ (Keyspace.start (purge d l) argv) n key change =
      applyChange (Keyspace.start (purge d l) argv) n key (change ((purge d l n).dict key)) := by
    rw [changeKey_eq, expireIfNeeded_loading]
    rfl
  have hpositive := hdirty ((purge d l n).dict key)
  cases hchange : change ((purge d l n).dict key) with
  | keep =>
    rw [hchange] at hlive hload
    have hagain := congrArg Keyspace.db hload
    exact replays_of hlive rfl rfl hhome (hok.purge l) (fun _ => rfl) hagain
  | store val k =>
    rw [hchange] at hlive hload hpositive
    have hagain := congrArg Keyspace.db hload
    refine replays_of hlive rfl rfl hhome ((hok.purge l).putDict n key val) ?_ hagain
    intro hzero
    have hk : 0 + k = 0 := hzero
    have hpos : 0 < k := hpositive
    omega
  | delete k =>
    rw [hchange] at hlive hload hpositive
    have hagain := congrArg Keyspace.db hload
    refine replays_of hlive rfl rfl hhome ((hok.purge l).deleteKey n key) ?_ hagain
    intro hzero
    have hk : 0 + k = 0 := hzero
    have hpos : 0 < k := hpositive
    omega

/-! ## Commands that set keys -/

theorem setKey_eq (e : Env) (s : Keyspace Score) (n : ℕ) (key : Sds) (val : Value Score) :
    Keyspace.setKey e s n key val = signalModifiedKey (removeExpire ((expireIfNeeded e s n key).setDict n key (some val)) n key) n key := by
  rw [Keyspace.setKey]
  by_cases hnone : lookupKey (expireIfNeeded e s n key) n key = none
  · rw [if_pos hnone]
    rfl
  · rw [if_neg hnone]
    rfl

theorem expireIfNeeded_again (e : Env) (s : Keyspace Score) (n : ℕ) (key : Sds) :
    expireIfNeeded e (expireIfNeeded e s n key) n key = expireIfNeeded e s n key := by
  rcases expireIfNeeded_cases e s n key with h | h
  · rw [h, h]
  · have hnone : getExpire (dbDelete (propagateExpire s n key) n key) n key = -1 := by
      have hexpires : ((dbDelete (propagateExpire s n key) n key).db n).expires key = none := by
        rw [dbDelete_db, putDict_expires, putExpires_expires, if_pos ⟨rfl, rfl⟩]
      rw [getExpire, hexpires]
      rfl
    rw [h, expireIfNeeded, hnone, if_pos (by decide)]

def setAll (n : ℕ) (pairs : List (Sds × Sds)) (d : ℕ → RedisDb Score) : ℕ → RedisDb Score :=
  pairs.foldl (fun d p => putExpires (putDict d n p.1 (some (.string p.2))) n p.1 none) d

variable {pairs : List (Sds × Sds)}

theorem setAll_congr : ∀ {d d' : ℕ → RedisDb Score},
    (∀ m k, ¬ (m = n ∧ k ∈ pairs.map Prod.fst) → (d m).dict k = (d' m).dict k ∧ (d m).expires k = (d' m).expires k) →
    setAll n pairs d = setAll n pairs d' := by
  induction pairs with
  | nil =>
    intro d d' hsame
    exact databases_ext (fun m k => (hsame m k fun h => absurd h.2 not_mem_nil).1) fun m k => (hsame m k fun h => absurd h.2 not_mem_nil).2
  | cons p pairs ih =>
    intro d d' hsame
    rw [setAll, setAll, foldl_cons, foldl_cons]
    refine ih ?_
    intro m k hk
    rw [putExpires_dict, putExpires_dict, putDict_dict, putDict_dict, putExpires_expires, putExpires_expires, putDict_expires, putDict_expires]
    by_cases hp : m = n ∧ k = p.1
    · rw [if_pos hp, if_pos hp, if_pos hp, if_pos hp]
      exact ⟨rfl, rfl⟩
    · rw [if_neg hp, if_neg hp, if_neg hp, if_neg hp]
      refine hsame m k ?_
      rintro ⟨hm, hmem⟩
      rcases mem_cons.1 hmem with heq | hmem
      · exact hp ⟨hm, heq⟩
      · exact hk ⟨hm, hmem⟩

theorem setAll_purge (hl : ∀ p ∈ l, p.1 = n ∧ p.2 ∈ pairs.map Prod.fst) (d : ℕ → RedisDb Score) :
    setAll n pairs (purge d l) = setAll n pairs d := by
  induction l using List.reverseRecOn with
  | nil => rfl
  | append_singleton l p ih =>
    have hp := hl p (mem_append_right _ mem_cons_self)
    rw [← ih fun q hq => hl q (mem_append_left _ hq), purge_concat]
    refine setAll_congr ?_
    intro m k hk
    have hne : ¬ (m = p.1 ∧ k = p.2) := by
      rintro ⟨rfl, rfl⟩
      exact hk hp
    rw [deleteKey_dict, deleteKey_expires, if_neg hne, if_neg hne]
    exact ⟨rfl, rfl⟩

theorem ExpiresOk.setAll : ∀ {d : ℕ → RedisDb Score}, ExpiresOk d → ExpiresOk (setAll n pairs d) := by
  induction pairs with
  | nil =>
    intro d hok
    exact hok
  | cons p pairs ih =>
    intro d hok
    exact ih ((hok.putDict n p.1 _).putExpires (fun h => absurd rfl h))

theorem foldl_setKey (e : Env) (n : ℕ) : ∀ (pairs : List (Sds × Sds)) (s : Keyspace Score),
    (pairs.foldl (fun s p => Keyspace.setKey e s n p.1 (.string p.2)) s).db = setAll n pairs s.db ∧
      (pairs.foldl (fun s p => Keyspace.setKey e s n p.1 (.string p.2)) s).argv = s.argv ∧
      (pairs.foldl (fun s p => Keyspace.setKey e s n p.1 (.string p.2)) s).dirty = s.dirty ∧
      ∃ l, (pairs.foldl (fun s p => Keyspace.setKey e s n p.1 (.string p.2)) s).expired = s.expired ++ l ∧
        ∀ p ∈ l, p.1 = n ∧ p.2 ∈ pairs.map Prod.fst := by
  intro pairs
  induction pairs with
  | nil =>
    intro s
    exact ⟨rfl, rfl, rfl, [], (append_nil _).symm, forall_mem_nil _⟩
  | cons p pairs ih =>
    intro s
    obtain ⟨hdb, hargv, hdirty, l, hl, hmem⟩ := ih (Keyspace.setKey e s n p.1 (.string p.2))
    have hlater : ∀ q ∈ l, q.1 = n ∧ q.2 ∈ (p :: pairs).map Prod.fst :=
      fun q hq => ⟨(hmem q hq).1, mem_cons_of_mem _ (hmem q hq).2⟩
    rw [foldl_cons, hdb, hargv, hdirty, hl, setKey_db]
    have hexpired : ∃ l₁, (Keyspace.setKey e s n p.1 (.string p.2)).expired = s.expired ++ l₁ ∧ ∀ q ∈ l₁, q = (n, p.1) := by
      rw [setKey_eq]
      rcases expireIfNeeded_cases e s n p.1 with h | h
      · rw [h]
        exact ⟨[], (append_nil _).symm, forall_mem_nil _⟩
      · rw [h]
        exact ⟨[(n, p.1)], rfl, fun q hq => mem_singleton.1 hq⟩
    have hrest : (Keyspace.setKey e s n p.1 (.string p.2)).argv = s.argv ∧ (Keyspace.setKey e s n p.1 (.string p.2)).dirty = s.dirty := by
      rw [setKey_eq]
      rcases expireIfNeeded_cases e s n p.1 with h | h
      · rw [h]
        exact ⟨rfl, rfl⟩
      · rw [h]
        exact ⟨rfl, rfl⟩
    obtain ⟨l₁, hl₁, hmem₁⟩ := hexpired
    refine ⟨rfl, hrest.1, hrest.2, l₁ ++ l, ?_, ?_⟩
    · rw [hl₁, append_assoc]
    · intro q hq
      rcases mem_append.1 hq with hq | hq
      · rw [hmem₁ q hq]
        exact ⟨rfl, mem_cons_self⟩
      · exact hlater q hq

/-- **Keys that are set**, and nothing else. -/
theorem replays_setAll (hok : ExpiresOk d) (pairs : List (Sds × Sds)) {k : ℕ} (hk : 0 < k) :
    Replays (fun e s => addDirty (pairs.foldl (fun s p => Keyspace.setKey e s n p.1 (.string p.2)) s) k) now clock n d argv := by
  obtain ⟨hdb, hargv, -, l, hl, hmem⟩ := foldl_setKey ⟨false, now⟩ n pairs (Keyspace.start d argv)
  refine replays_of (l := l) rfl hargv ?_ (fun p hp => (hmem p hp).1) ?_ ?_ ?_
  · exact hl
  · rw [addDirty, hdb]
    exact hok.setAll
  · intro hzero
    have hsum : (pairs.foldl (fun s p => Keyspace.setKey ⟨false, now⟩ s n p.1 (.string p.2)) (Keyspace.start d argv)).dirty + k = 0 := hzero
    omega
  · have hload := (foldl_setKey ⟨true, clock⟩ n pairs (Keyspace.start (purge d l) argv)).1
    rw [addDirty, addDirty, hload, hdb]
    exact setAll_purge hmem d

theorem foldl_expireIfNeeded (e : Env) (n : ℕ) (argv : List Sds) : ∀ (pairs : List (Sds × Sds)) (l : List (ℕ × Sds)),
    ∃ l', pairs.foldl (fun s p => expireIfNeeded e s n p.1) (purged d argv l) = purged d argv (l ++ l') ∧
      ∀ p ∈ l', p.1 = n ∧ p.2 ∈ pairs.map Prod.fst := by
  intro pairs
  induction pairs with
  | nil =>
    intro l
    exact ⟨[], by rw [append_nil]; rfl, forall_mem_nil _⟩
  | cons p pairs ih =>
    intro l
    obtain ⟨l₁, hexpire, hl₁⟩ := expireIfNeeded_purged e d argv l n p.1
    obtain ⟨l', hrest, hl'⟩ := ih l₁
    have hlater : ∀ q ∈ l', q.1 = n ∧ q.2 ∈ (p :: pairs).map Prod.fst := fun q hq => ⟨(hl' q hq).1, mem_cons_of_mem _ (hl' q hq).2⟩
    rw [foldl_cons, hexpire, hrest]
    rcases hl₁ with rfl | rfl
    · exact ⟨l', rfl, hlater⟩
    · refine ⟨(n, p.1) :: l', by rw [append_assoc, singleton_append], ?_⟩
      intro q hq
      rcases mem_cons.1 hq with rfl | hq
      · exact ⟨rfl, mem_cons_self⟩
      · exact hlater q hq

theorem foldl_expireIfNeeded_loading (clock : ℤ) (n : ℕ) (pairs : List (Sds × Sds)) (s : Keyspace Score) :
    pairs.foldl (fun s p => expireIfNeeded ⟨true, clock⟩ s n p.1) s = s := by
  induction pairs with
  | nil => rfl
  | cons p pairs ih => rw [foldl_cons, expireIfNeeded_loading, ih]

theorem purge_dict_none {m : ℕ} {k : Sds} (hnone : (d m).dict k = none) : (purge d l m).dict k = none := by
  induction l using List.reverseRecOn with
  | nil => exact hnone
  | append_singleton l p ih =>
    rw [purge_concat, deleteKey_dict, ih, ite_self]

theorem purge_append (d : ℕ → RedisDb Score) (l l' : List (ℕ × Sds)) : purge d (l ++ l') = purge (purge d l) l' := foldl_append ..

def setNew (pairs : List (Sds × Sds)) (k : ℕ) (e : Env) (s : Keyspace Score) (n : ℕ) : Keyspace Score :=
  let s := pairs.foldl (fun s p => expireIfNeeded e s n p.1) s
  if pairs.any (fun p => (lookupKey s n p.1).isSome) = true then s
  else addDirty (pairs.foldl (fun s p => Keyspace.setKey e s n p.1 (.string p.2)) s) k

def anyThere (n : ℕ) (pairs : List (Sds × Sds)) (d : ℕ → RedisDb Score) : Bool := pairs.any fun p => ((d n).dict p.1).isSome

theorem anyThere_purge (hnone : ¬ anyThere n pairs d = true) : ¬ anyThere n pairs (purge d l) = true := by
  intro hany
  obtain ⟨p, hp, hsome⟩ := List.any_eq_true.1 hany
  refine hnone (List.any_eq_true.2 ⟨p, hp, ?_⟩)
  by_contra hnot
  rw [purge_dict_none (not_isSome_iff_eq_none.1 hnot)] at hsome
  exact absurd hsome Bool.false_ne_true

theorem setNew_eq (pairs : List (Sds × Sds)) (k : ℕ) (e : Env) (s : Keyspace Score) {s' : Keyspace Score}
    (hlookup : pairs.foldl (fun s p => expireIfNeeded e s n p.1) s = s') : setNew pairs k e s n =
      if anyThere n pairs s'.db = true then s' else addDirty (pairs.foldl (fun s p => Keyspace.setKey e s n p.1 (.string p.2)) s') k := by
  subst hlookup
  rfl

theorem replays_setNew (hok : ExpiresOk d) (pairs : List (Sds × Sds)) {k : ℕ} (hk : 0 < k) :
    Replays (fun e s => setNew pairs k e s n) now clock n d argv := by
  obtain ⟨l, hlookup, hl⟩ := @foldl_expireIfNeeded Score d ⟨false, now⟩ n argv pairs []
  have hlive := @setNew_eq Score n pairs k ⟨false, now⟩ (Keyspace.start d argv) _ hlookup
  have hload := fun d' => @setNew_eq Score n pairs k ⟨true, clock⟩ (Keyspace.start d' argv) _ (foldl_expireIfNeeded_loading clock n pairs _)
  rw [nil_append] at hlive
  by_cases hany : anyThere n pairs (purge d l) = true
  · rw [show (purged d argv l).db = purge d l from rfl, if_pos hany] at hlive
    have hagain := hload (purge d l)
    rw [show (Keyspace.start (purge d l) argv).db = purge d l from rfl, if_pos hany] at hagain
    have hdb := congrArg Keyspace.db hagain
    exact replays_of hlive rfl rfl (fun p hp => (hl p hp).1) (hok.purge l) (fun _ => rfl) hdb
  · rw [show (purged d argv l).db = purge d l from rfl, if_neg hany] at hlive
    obtain ⟨hdb, hargv, -, l', hl', hmem⟩ := foldl_setKey ⟨false, now⟩ n pairs (purged d argv l)
    generalize pairs.foldl (fun s p => Keyspace.setKey ⟨false, now⟩ s n p.1 (.string p.2)) (purged d argv l) = s' at hlive hdb hargv hl'
    have hagain := hload (purge d (l ++ l'))
    have hstart : (Keyspace.start (purge d (l ++ l')) argv).db = purge (purge d l) l' := purge_append d l l'
    rw [hstart, if_neg (anyThere_purge hany)] at hagain
    have hset := (foldl_setKey ⟨true, clock⟩ n pairs (Keyspace.start (purge d (l ++ l')) argv)).1
    rw [hstart, setAll_purge hmem] at hset
    refine replays_of (l := l ++ l') hlive hargv hl' ?_ ?_ ?_ ?_
    · intro p hp
      rcases mem_append.1 hp with hp | hp
      · exact (hl p hp).1
      · exact (hmem p hp).1
    · rw [addDirty, hdb]
      exact (hok.purge l).setAll
    · intro hzero
      have hsum : s'.dirty + k = 0 := hzero
      omega
    · rw [hagain, addDirty, addDirty, hset, hdb]
      rfl

/-! ## Each command -/

theorem Replays.congr {c' : Env → Keyspace Score → Keyspace Score} (hc : Replays c now clock n d argv)
    (hsame : ∀ e d', c' e (Keyspace.start d' argv) = c e (Keyspace.start d' argv)) : Replays c' now clock n d argv := by
  have hlive : c' ⟨false, now⟩ (Keyspace.start d argv) = c ⟨false, now⟩ (Keyspace.start d argv) := hsame _ _
  refine ⟨?_, ?_, ?_, ?_, ?_⟩
  · rw [hlive]
    exact hc.argv_eq
  · rw [hlive]
    exact hc.home
  · rw [hlive]
    exact hc.ok
  · rw [hlive]
    exact hc.clean
  · rw [hlive, hsame]
    exact hc.again

theorem replays_set (hok : ExpiresOk d) : Replays (fun e s => setCommand e s n) now clock n d argv := by
  refine (replays_setAll hok [((Keyspace.start d argv).arg 1, (Keyspace.start d argv).arg 2)] Nat.one_pos).congr ?_
  intro e d'
  rw [setCommand, setGenericCommand_plain, foldl_cons, foldl_nil]
  rfl

theorem setNew_single (k : ℕ) (e : Env) (s : Keyspace Score) (key val : Sds) :
    setNew [(key, val)] k e s n = if ((expireIfNeeded e s n key).db n).dict key = none then addDirty (Keyspace.setKey e (expireIfNeeded e s n key) n key (.string val)) k
      else expireIfNeeded e s n key := by
  rw [setNew_eq [(key, val)] k e s rfl, foldl_cons, foldl_nil, foldl_cons, foldl_nil, anyThere, any_cons, any_nil]
  cases ((expireIfNeeded e s n key).db n).dict key with
  | none =>
    have hnone : ¬ ((none : Option (Value Score)).isSome || false) = true := Bool.false_ne_true
    rw [if_neg hnone, if_pos rfl]
  | some o =>
    have hsome : ((some o).isSome || false) = true := rfl
    rw [if_pos hsome, if_neg (some_ne_none o)]

theorem setGenericCommand_nx (e : Env) (s : Keyspace Score) (n : ℕ) (key val : Sds) (seconds : Bool) :
    setGenericCommand e s n true key val none seconds =
      if ((expireIfNeeded e s n key).db n).dict key = none then addDirty (Keyspace.setKey e (expireIfNeeded e s n key) n key (.string val)) 1
      else expireIfNeeded e s n key := by
  rw [setGenericCommand, expireMilliseconds]
  dsimp only
  rw [if_pos rfl, lookupKey]
  by_cases hnone : ((expireIfNeeded e s n key).db n).dict key = none
  · rw [if_pos hnone, if_neg fun h => h.2 hnone]
    rfl
  · rw [if_neg hnone, if_pos ⟨rfl, hnone⟩]

theorem replays_setnx (hok : ExpiresOk d) : Replays (fun e s => setnxCommand e s n) now clock n d argv := by
  refine (replays_setNew hok [((Keyspace.start d argv).arg 1, (Keyspace.start d argv).arg 2)] Nat.one_pos).congr ?_
  intro e d'
  rw [setNew_single, setnxCommand, setGenericCommand_nx]
  rfl

theorem replays_mset (hok : ExpiresOk d) (hargc : 2 < argv.length) : Replays (fun e s => msetCommand e s n) now clock n d argv := by
  by_cases heven : argv.length % 2 = 0
  · refine (replays_id hok).congr ?_
    intro e d'
    have heven' : (Keyspace.start d' argv).argv.length % 2 = 0 := heven
    rw [msetCommand, msetGenericCommand, if_pos heven']
  · have hpos : 0 < (argv.length - 1) / 2 := Nat.div_pos (by omega) Nat.two_pos
    refine (replays_setAll hok (keysAndValues argv.tail) hpos).congr ?_
    intro e d'
    have heven' : ¬ (Keyspace.start d' argv).argv.length % 2 = 0 := heven
    rw [msetCommand, msetGenericCommand, if_neg heven']
    rfl

theorem replays_msetnx (hok : ExpiresOk d) (hargc : 2 < argv.length) : Replays (fun e s => msetnxCommand e s n) now clock n d argv := by
  by_cases heven : argv.length % 2 = 0
  · refine (replays_id hok).congr ?_
    intro e d'
    have heven' : (Keyspace.start d' argv).argv.length % 2 = 0 := heven
    rw [msetnxCommand, msetGenericCommand, if_pos heven']
  · have hpos : 0 < (argv.length - 1) / 2 := Nat.div_pos (by omega) Nat.two_pos
    refine (replays_setNew hok (keysAndValues argv.tail) hpos).congr ?_
    intro e d'
    have heven' : ¬ (Keyspace.start d' argv).argv.length % 2 = 0 := heven
    obtain ⟨l, hlookup, -⟩ := foldl_expireIfNeeded e n argv (keysAndValues argv.tail) ([] : List (ℕ × Sds))
    have hstart : (keysAndValues argv.tail).foldl (fun s p => expireIfNeeded e s n p.1) (Keyspace.start d' argv) = purged d' argv l := hlookup
    have hargv : (Keyspace.start d' argv).argv = argv := rfl
    rw [setNew_eq (keysAndValues argv.tail) _ e (Keyspace.start d' argv) hstart, msetnxCommand, msetGenericCommand, if_neg heven', hargv]
    dsimp only
    rw [if_pos rfl, hstart]
    by_cases hany : anyThere n (keysAndValues argv.tail) (purged d' argv l).db = true
    · rw [if_pos hany]
      exact if_pos ⟨rfl, hany⟩
    · rw [if_neg hany]
      exact if_neg fun h => hany h.2

theorem replays_get (hok : ExpiresOk d) (key : Sds) : Replays (fun e s => expireIfNeeded e s n key) now clock n d argv :=
  @replays_changeKey Score now clock n d argv hok (fun _ => .keep) (fun _ => trivial) key

theorem expireIfNeeded_found (now : ℤ) (d : ℕ → RedisDb Score) (argv : List Sds) (l : List (ℕ × Sds)) (n : ℕ) (key : Sds) (hl : ∀ p ∈ l, p.1 = n) :
    ∃ l', expireIfNeeded ⟨false, now⟩ (purged d argv l) n key = purged d argv l' ∧ (l' = l ∨ l' = l ++ [(n, key)]) ∧ (∀ p ∈ l', p.1 = n) ∧
      expireIfNeeded ⟨false, now⟩ (purged d argv l') n key = purged d argv l' := by
  obtain ⟨l', hexpire, hl'⟩ := expireIfNeeded_purged ⟨false, now⟩ d argv l n key
  refine ⟨l', hexpire, hl', ?_, ?_⟩
  · rcases hl' with rfl | rfl
    · exact hl
    · intro p hp
      rcases mem_append.1 hp with hp | hp
      · exact hl p hp
      · rw [mem_singleton.1 hp]
  · rw [← hexpire]
    exact expireIfNeeded_again ..

theorem replays_getset (hok : ExpiresOk d) : Replays (fun e s => getsetCommand e s n) now clock n d argv := by
  obtain ⟨l, hfound, -, hhome, hagain⟩ := expireIfNeeded_found now d argv [] n ((Keyspace.start d argv).arg 1) (forall_mem_nil _)
  have hexpire : expireIfNeeded ⟨false, now⟩ (Keyspace.start d argv) n ((Keyspace.start d argv).arg 1) = purged d argv l := hfound
  by_cases hother : (lookupKey (purged d argv l) n ((Keyspace.start d argv).arg 1)).any (fun o => !o.isString) = true
  · have hlive : getsetCommand ⟨false, now⟩ (Keyspace.start d argv) n = purged d argv l := by
      rw [getsetCommand, hexpire]
      exact if_pos hother
    have hload : getsetCommand ⟨true, clock⟩ (Keyspace.start (purge d l) argv) n = Keyspace.start (purge d l) argv := by
      rw [getsetCommand, expireIfNeeded_loading]
      exact if_pos hother
    have hdb := congrArg Keyspace.db hload
    exact replays_of hlive rfl rfl hhome (hok.purge l) (fun _ => rfl) hdb
  · have hlive : getsetCommand ⟨false, now⟩ (Keyspace.start d argv) n =
        addDirty (Keyspace.setKey ⟨false, now⟩ (purged d argv l) n ((Keyspace.start d argv).arg 1) (.string ((Keyspace.start d argv).arg 2))) 1 := by
      rw [getsetCommand, hexpire]
      exact if_neg hother
    have hload : getsetCommand ⟨true, clock⟩ (Keyspace.start (purge d l) argv) n =
        addDirty (Keyspace.setKey ⟨true, clock⟩ (Keyspace.start (purge d l) argv) n ((Keyspace.start d argv).arg 1)
          (.string ((Keyspace.start d argv).arg 2))) 1 := by
      rw [getsetCommand, expireIfNeeded_loading]
      exact if_neg hother
    rw [setKey_eq, hagain] at hlive
    rw [setKey_eq, expireIfNeeded_loading] at hload
    have hdb := congrArg Keyspace.db hload
    refine replays_of hlive rfl rfl hhome (((hok.purge l).putDict n _ _).putExpires (fun h => absurd rfl h)) ?_ hdb
    intro hzero
    exact absurd hzero (Nat.succ_ne_zero 0)

theorem deleteKey_absent (hok : ExpiresOk d) {key : Sds} (hnone : (d n).dict key = none) : deleteKey d n key = d := by
  refine databases_ext ?_ ?_
  · intro m k
    rw [deleteKey_dict]
    by_cases hk : m = n ∧ k = key
    · rw [if_pos hk, hk.1, hk.2, hnone]
    · rw [if_neg hk]
  · intro m k
    rw [deleteKey_expires]
    by_cases hk : m = n ∧ k = key
    · rw [if_pos hk, hk.1, hk.2]
      by_contra hne
      exact hok n key (Ne.symm hne) hnone
    · rw [if_neg hk]

theorem delLoop_spec (n : ℕ) : ∀ (keys : List Sds) (s : Keyspace Score), ExpiresOk s.db →
    (delLoop n keys s).argv = s.argv ∧ (delLoop n keys s).expired = s.expired ∧ ExpiresOk (delLoop n keys s).db ∧ s.dirty ≤ (delLoop n keys s).dirty ∧
      ((delLoop n keys s).dirty = s.dirty → (delLoop n keys s).db = s.db) := by
  intro keys
  induction keys with
  | nil =>
    intro s hok
    exact ⟨rfl, rfl, hok, Nat.le_refl _, fun _ => rfl⟩
  | cons key keys ih =>
    intro s hok
    rw [delLoop]
    by_cases hthere : (lookupKey s n key).isSome = true
    · rw [if_pos hthere]
      obtain ⟨hargv, hexpired, hok', hle, -⟩ := ih (addDirty (signalModifiedKey (dbDelete s n key) n key) 1) (hok.deleteKey n key)
      have hless : s.dirty + 1 ≤ (delLoop n keys (addDirty (signalModifiedKey (dbDelete s n key) n key) 1)).dirty := hle
      exact ⟨hargv, hexpired, hok', Nat.le_of_succ_le hless, fun h => absurd hless (by omega)⟩
    · rw [if_neg hthere]
      have hsame : dbDelete s n key = s := by
        have hnone : (s.db n).dict key = none := not_isSome_iff_eq_none.1 hthere
        have hdelete : dbDelete s n key = { s with db := deleteKey s.db n key } := rfl
        rw [hdelete, deleteKey_absent hok hnone]
      rw [hsame]
      exact ih s hok

theorem replays_plain {c : Keyspace Score → Keyspace Score} (hargv : (c (Keyspace.start d argv)).argv = argv)
    (hexpired : (c (Keyspace.start d argv)).expired = []) (hok : ExpiresOk (c (Keyspace.start d argv)).db)
    (hclean : (c (Keyspace.start d argv)).dirty = 0 → (c (Keyspace.start d argv)).db = d) : Replays (fun _ s => c s) now clock n d argv :=
  replays_of rfl hargv hexpired (forall_mem_nil _) hok hclean rfl

theorem replays_del (hok : ExpiresOk d) : Replays (fun _ s => delCommand s n) now clock n d argv := by
  obtain ⟨hargv, hexpired, hok', -, hclean⟩ := delLoop_spec n argv.tail (Keyspace.start d argv) hok
  exact replays_plain hargv hexpired hok' hclean

theorem replays_persist (hok : ExpiresOk d) : Replays (fun _ s => persistCommand s n) now clock n d argv := by
  have hcases : persistCommand (Keyspace.start d argv) n = Keyspace.start d argv ∨
      persistCommand (Keyspace.start d argv) n = addDirty (removeExpire (Keyspace.start d argv) n ((Keyspace.start d argv).arg 1)) 1 := by
    rw [persistCommand]
    by_cases hnone : (lookupKey (Keyspace.start d argv) n ((Keyspace.start d argv).arg 1)).isNone = true
    · exact Or.inl (if_pos hnone)
    rw [if_neg hnone]
    by_cases hexpire : (((Keyspace.start d argv).db n).expires ((Keyspace.start d argv).arg 1)).isSome = true
    · exact Or.inr (if_pos hexpire)
    · exact Or.inl (if_neg hexpire)
  refine replays_plain ?_ ?_ ?_ ?_
  · rcases hcases with h | h <;> rw [h] <;> rfl
  · rcases hcases with h | h <;> rw [h] <;> rfl
  · rcases hcases with h | h <;> rw [h]
    · exact hok
    · exact hok.putExpires (fun h => absurd rfl h)
  · rcases hcases with h | h <;> rw [h]
    · exact fun _ => rfl
    · exact fun hzero => absurd hzero (Nat.succ_ne_zero 0)

/-- The second half of `renameGenericCommand`. -/
def renameTo (s : Keyspace Score) (n : ℕ) (src dst : Sds) (o : Value Score) (expire : ℤ) : Keyspace Score :=
  let s := if (lookupKey s n dst).isSome = true then dbDelete s n dst else s
  let s := dbAdd s n dst o
  let s := if expire ≠ -1 then setExpire s n dst expire else s
  let s := dbDelete s n src
  addDirty (signalModifiedKey (signalModifiedKey s n src) n dst) 1

theorem renameTo_spec (n : ℕ) (src dst : Sds) (o : Value Score) (expire : ℤ) (s : Keyspace Score) :
    (renameTo s n src dst o expire).argv = s.argv ∧ (renameTo s n src dst o expire).expired = s.expired ∧
      (renameTo s n src dst o expire).dirty = s.dirty + 1 ∧ (ExpiresOk s.db → ExpiresOk (renameTo s n src dst o expire).db) ∧
      ∀ s' : Keyspace Score, s'.db = s.db → (renameTo s' n src dst o expire).db = (renameTo s n src dst o expire).db := by
  have hadded : ∀ d : ℕ → RedisDb Score, ExpiresOk d → ExpiresOk (deleteKey (putDict d n dst (some o)) n src) ∧
      ExpiresOk (deleteKey (putExpires (putDict d n dst (some o)) n dst (some expire)) n src) := by
    intro d hok
    refine ⟨(hok.putDict n dst o).deleteKey n src, ((hok.putDict n dst o).putExpires ?_).deleteKey n src⟩
    intro _
    rw [putDict_dict, if_pos ⟨rfl, rfl⟩]
    exact some_ne_none _
  have hcases : ∀ s : Keyspace Score, renameTo s n src dst o expire = { s with
        db := if expire ≠ -1
          then deleteKey (putExpires (putDict (if ((s.db n).dict dst).isSome = true then deleteKey s.db n dst else s.db) n dst (some o)) n dst (some expire)) n src
          else deleteKey (putDict (if ((s.db n).dict dst).isSome = true then deleteKey s.db n dst else s.db) n dst (some o)) n src
        signalled := s.signalled ++ [(n, src)] ++ [(n, dst)]
        dirty := s.dirty + 1 } := by
    intro s
    rw [renameTo, lookupKey]
    by_cases hthere : ((s.db n).dict dst).isSome = true
    · rw [if_pos hthere, if_pos hthere]
      by_cases hexpire : expire ≠ -1
      · rw [if_pos hexpire, if_pos hexpire]
        rfl
      · rw [if_neg hexpire, if_neg hexpire]
        rfl
    · rw [if_neg hthere, if_neg hthere]
      by_cases hexpire : expire ≠ -1
      · rw [if_pos hexpire, if_pos hexpire]
        rfl
      · rw [if_neg hexpire, if_neg hexpire]
        rfl
  rw [hcases]
  refine ⟨rfl, rfl, rfl, ?_, ?_⟩
  · intro hok
    have hbase : ExpiresOk (if ((s.db n).dict dst).isSome = true then deleteKey s.db n dst else s.db) := by
      by_cases hthere : ((s.db n).dict dst).isSome = true
      · rw [if_pos hthere]
        exact hok.deleteKey n dst
      · rw [if_neg hthere]
        exact hok
    by_cases hexpire : expire ≠ -1
    · rw [if_pos hexpire]
      exact (hadded _ hbase).2
    · rw [if_neg hexpire]
      exact (hadded _ hbase).1
  · intro s' hdb
    rw [hcases, hdb]

theorem purge_other {l l' : List (ℕ × Sds)} {dst key : Sds} (hl : l' = l ∨ l' = l ++ [(n, dst)]) (hne : key ≠ dst) :
    (purge d l' n).dict key = (purge d l n).dict key ∧ (purge d l' n).expires key = (purge d l n).expires key := by
  rcases hl with rfl | rfl
  · exact ⟨rfl, rfl⟩
  · rw [purge_concat, deleteKey_dict, deleteKey_expires, if_neg fun h => hne h.2, if_neg fun h => hne h.2]
    exact ⟨rfl, rfl⟩

/-- `renameGenericCommand` once both keys are looked up. -/
def renameFrom (s₁ s₂ : Keyspace Score) (n : ℕ) (src dst : Sds) (nx : Bool) : Option (Value Score) → Keyspace Score
  | none => s₁
  | some o =>
    if ((s₂.db n).dict dst).isSome = true ∧ nx = true then s₂ else renameTo s₂ n src dst o (((s₁.db n).expires src).getD (-1))

theorem replays_rename (hok : ExpiresOk d) (nx : Bool) : Replays (fun e s => renameGenericCommand e s n nx) now clock n d argv := by
  obtain ⟨l₁, hfound, -, hhome₁, -⟩ := expireIfNeeded_found now d argv [] n ((Keyspace.start d argv).arg 1) (forall_mem_nil _)
  obtain ⟨l₂, hexpire₂, hl₂, hhome₂, -⟩ := expireIfNeeded_found now d argv l₁ n ((Keyspace.start d argv).arg 2) hhome₁
  have hexpire₁ : expireIfNeeded ⟨false, now⟩ (Keyspace.start d argv) n ((Keyspace.start d argv).arg 1) = purged d argv l₁ := hfound
  -- the two runs look at the same keys
  have hrun : ∀ (e : Env) (d' : ℕ → RedisDb Score) (s₁ s₂ : Keyspace Score),
      expireIfNeeded e (Keyspace.start d' argv) n ((Keyspace.start d argv).arg 1) = s₁ →
      expireIfNeeded e s₁ n ((Keyspace.start d argv).arg 2) = s₂ → renameGenericCommand e (Keyspace.start d' argv) n nx =
        if (Keyspace.start d argv).arg 1 = (Keyspace.start d argv).arg 2 then Keyspace.start d' argv
        else
          renameFrom s₁ s₂ n ((Keyspace.start d argv).arg 1) ((Keyspace.start d argv).arg 2) nx
            ((s₁.db n).dict ((Keyspace.start d argv).arg 1)) := by
    rintro e d' s₁ s₂ rfl rfl
    rfl
  have hlive := hrun ⟨false, now⟩ d _ _ hexpire₁ hexpire₂
  have hload := fun d' => hrun ⟨true, clock⟩ d' _ _ (expireIfNeeded_loading ..) (expireIfNeeded_loading ..)
  generalize (Keyspace.start d argv).arg 1 = src at hlive hload
  generalize (Keyspace.start d argv).arg 2 = dst at hlive hload hl₂
  by_cases heq : src = dst
  · rw [if_pos heq] at hlive
    have hsame := hload d
    rw [if_pos heq] at hsame
    have hdb := congrArg Keyspace.db hsame
    exact replays_of hlive rfl rfl (forall_mem_nil _) hok (fun _ => rfl) hdb
  rw [if_neg heq] at hlive
  cases hsrc : (purge d l₁ n).dict src with
  | none =>
    have hsame := hload (purge d l₁)
    rw [purged_db, hsrc] at hlive
    rw [if_neg heq, start_db, hsrc] at hsame
    have hdb := congrArg Keyspace.db hsame
    exact replays_of hlive rfl rfl hhome₁ (hok.purge l₁) (fun _ => rfl) hdb
  | some o =>
    have hother := @purge_other Score n d l₁ l₂ dst src hl₂ heq
    have hsame := hload (purge d l₂)
    rw [purged_db, hsrc] at hlive
    rw [if_neg heq, start_db, hother.1, hsrc] at hsame
    rw [renameFrom, purged_db, purged_db] at hlive
    rw [renameFrom, start_db, hother.2] at hsame
    by_cases hthere : ((purge d l₂ n).dict dst).isSome = true ∧ nx = true
    · rw [if_pos hthere] at hlive hsame
      have hdb := congrArg Keyspace.db hsame
      exact replays_of hlive rfl rfl hhome₂ (hok.purge l₂) (fun _ => rfl) hdb
    · rw [if_neg hthere] at hlive hsame
      obtain ⟨hargv, hexpired, hdirty, hok', hdb⟩ := renameTo_spec n src dst o (((purge d l₁ n).expires src).getD (-1)) (purged d argv l₂)
      have hagain := (congrArg Keyspace.db hsame).trans (hdb (Keyspace.start (purge d l₂) argv) rfl)
      refine replays_of hlive hargv hexpired hhome₂ (hok' (hok.purge l₂)) ?_ hagain
      intro hzero
      rw [hdirty] at hzero
      exact absurd hzero (Nat.succ_ne_zero 0)

/-- The second half of `rpoplpushCommand`. -/
def rpoplpushTo (s : Keyspace Score) (n : ℕ) (src dst value : Sds) (rest : List Sds) : Keyspace Score :=
  let s := s.setDict n src (some (.list rest))
  let dobj := (Value.asList (lookupKey s n dst)).getD []
  let s := signalModifiedKey (s.setDict n dst (some (.list (listTypePush dobj value .head)))) n dst
  let s := if (Value.asList (lookupKey s n src)).getD [] = [] then dbDelete s n src else s
  addDirty (signalModifiedKey s n src) 1

/-- What it makes of the databases: the destination is written behind the source, and the source goes when it is empty. -/
def rpoplpushDb (d : ℕ → RedisDb Score) (n : ℕ) (src dst value : Sds) (rest : List Sds) : ℕ → RedisDb Score :=
  let d₁ := putDict d n src (some (.list rest))
  let d₂ := putDict d₁ n dst (some (.list (listTypePush ((Value.asList ((d₁ n).dict dst)).getD []) value .head)))
  if (Value.asList ((d₂ n).dict src)).getD [] = [] then deleteKey d₂ n src else d₂

theorem rpoplpushTo_eq (s : Keyspace Score) (n : ℕ) (src dst value : Sds) (rest : List Sds) : rpoplpushTo s n src dst value rest = { s with
      db := rpoplpushDb s.db n src dst value rest
      signalled := s.signalled ++ [(n, dst)] ++ [(n, src)]
      dirty := s.dirty + 1 } := by
  have htake : ∀ s : Keyspace Score, (if (Value.asList (lookupKey s n src)).getD [] = [] then dbDelete s n src else s) =
      { s with db := if (Value.asList ((s.db n).dict src)).getD [] = [] then deleteKey s.db n src else s.db } := by
    intro s
    by_cases hempty : (Value.asList ((s.db n).dict src)).getD [] = []
    · rw [if_pos hempty]
      exact if_pos hempty
    · rw [if_neg hempty]
      exact if_neg hempty
  rw [rpoplpushTo, htake]
  rfl

theorem rpoplpushTo_spec (n : ℕ) (src dst value : Sds) (rest : List Sds) (s : Keyspace Score) :
    (rpoplpushTo s n src dst value rest).argv = s.argv ∧ (rpoplpushTo s n src dst value rest).expired = s.expired ∧
      (rpoplpushTo s n src dst value rest).dirty = s.dirty + 1 ∧ (ExpiresOk s.db → ExpiresOk (rpoplpushTo s n src dst value rest).db) ∧
      ∀ s' : Keyspace Score, s'.db = s.db → (rpoplpushTo s' n src dst value rest).db = (rpoplpushTo s n src dst value rest).db := by
  rw [rpoplpushTo_eq]
  refine ⟨rfl, rfl, rfl, ?_, ?_⟩
  · intro hok
    dsimp only
    rw [rpoplpushDb]
    have hpushed := (hok.putDict n src (.list rest)).putDict n dst
      (.list (listTypePush ((Value.asList ((putDict s.db n src (some (.list rest)) n).dict dst)).getD []) value .head))
    by_cases hempty : (Value.asList ((putDict (putDict s.db n src (some (.list rest))) n dst (some (.list (listTypePush ((Value.asList
        ((putDict s.db n src (some (.list rest)) n).dict dst)).getD []) value .head))) n).dict src)).getD [] = []
    · rw [if_pos hempty]
      exact hpushed.deleteKey n src
    · rw [if_neg hempty]
      exact hpushed
  · intro s' hdb
    rw [rpoplpushTo_eq, hdb]

/-- `rpoplpushCommand` once both keys are looked up. -/
def rpoplpushFrom (s₁ s₂ : Keyspace Score) (n : ℕ) (src dst : Sds) : Option (Value Score) → Keyspace Score
  | some (.list l) =>
    match listTypePop l .tail with
    | none => s₁
    | some (value, rest) =>
      if (Value.asList ((s₂.db n).dict dst)).isNone = true then s₂ else rpoplpushTo s₂ n src dst value rest
  | _ => s₁

theorem replays_rpoplpush (hok : ExpiresOk d) : Replays (fun e s => rpoplpushCommand e s n) now clock n d argv := by
  obtain ⟨l₁, hfound, -, hhome₁, hagain₁⟩ := expireIfNeeded_found now d argv [] n ((Keyspace.start d argv).arg 1) (forall_mem_nil _)
  obtain ⟨l₂, hexpire₂, hl₂, hhome₂, -⟩ := expireIfNeeded_found now d argv l₁ n ((Keyspace.start d argv).arg 2) hhome₁
  have hexpire₁ : expireIfNeeded ⟨false, now⟩ (Keyspace.start d argv) n ((Keyspace.start d argv).arg 1) = purged d argv l₁ := hfound
  have hrun : ∀ (e : Env) (d' : ℕ → RedisDb Score) (s₁ s₂ : Keyspace Score),
      expireIfNeeded e (Keyspace.start d' argv) n ((Keyspace.start d argv).arg 1) = s₁ →
      expireIfNeeded e s₁ n ((Keyspace.start d argv).arg 2) = s₂ → rpoplpushCommand e (Keyspace.start d' argv) n =
        rpoplpushFrom s₁ s₂ n ((Keyspace.start d argv).arg 1) ((Keyspace.start d argv).arg 2) ((s₁.db n).dict ((Keyspace.start d argv).arg 1)) := by
    rintro e d' s₁ s₂ rfl rfl
    rfl
  have hlive := hrun ⟨false, now⟩ d _ _ hexpire₁ hexpire₂
  have hload := fun d' => hrun ⟨true, clock⟩ d' _ _ (expireIfNeeded_loading ..) (expireIfNeeded_loading ..)
  -- the source is looked up once, also if it is the destination
  have hother : (purge d l₂ n).dict ((Keyspace.start d argv).arg 1) = (purge d l₁ n).dict ((Keyspace.start d argv).arg 1) := by
    by_cases heq : (Keyspace.start d argv).arg 1 = (Keyspace.start d argv).arg 2
    · rw [← heq, hagain₁] at hexpire₂
      have hsame : l₁ = l₂ := congrArg Keyspace.expired hexpire₂
      rw [hsame]
    · exact (purge_other hl₂ heq).1
  generalize (Keyspace.start d argv).arg 1 = src at hlive hload hother
  generalize (Keyspace.start d argv).arg 2 = dst at hlive hload
  have hkept : rpoplpushCommand ⟨false, now⟩ (Keyspace.start d argv) n = purged d argv l₁ →
      rpoplpushCommand ⟨true, clock⟩ (Keyspace.start (purge d l₁) argv) n = Keyspace.start (purge d l₁) argv →
      Replays (fun e s => rpoplpushCommand e s n) now clock n d argv := by
    intro hlive hload
    have hdb := congrArg Keyspace.db hload
    exact replays_of hlive rfl rfl hhome₁ (hok.purge l₁) (fun _ => rfl) hdb
  have hfirst := hload (purge d l₁)
  have hsecond := hload (purge d l₂)
  rw [start_db] at hfirst hsecond
  rw [purged_db] at hlive
  rw [hother] at hsecond
  cases hsrc : (purge d l₁ n).dict src with
  | none =>
    rw [hsrc] at hlive hfirst
    exact hkept hlive hfirst
  | some o =>
    rw [hsrc] at hlive hfirst hsecond
    cases o with
    | list l =>
      rw [rpoplpushFrom] at hlive hfirst hsecond
      cases hpop : listTypePop l .tail with
      | none =>
        rw [hpop] at hlive hfirst
        exact hkept hlive hfirst
      | some r =>
        obtain ⟨value, rest⟩ := r
        rw [hpop] at hlive hsecond
        dsimp only at hlive hsecond
        rw [purged_db] at hlive
        rw [start_db] at hsecond
        by_cases hnone : (Value.asList ((purge d l₂ n).dict dst)).isNone = true
        · rw [if_pos hnone] at hlive hsecond
          have hdb := congrArg Keyspace.db hsecond
          exact replays_of hlive rfl rfl hhome₂ (hok.purge l₂) (fun _ => rfl) hdb
        · rw [if_neg hnone] at hlive hsecond
          obtain ⟨hargv, hexpired, hdirty, hok', hdb⟩ := rpoplpushTo_spec n src dst value rest (purged d argv l₂)
          have hagain := (congrArg Keyspace.db hsecond).trans (hdb (Keyspace.start (purge d l₂) argv) rfl)
          refine replays_of hlive hargv hexpired hhome₂ (hok' (hok.purge l₂)) ?_ hagain
          intro hzero
          rw [hdirty] at hzero
          exact absurd hzero (Nat.succ_ne_zero 0)
    | string _ => exact hkept hlive hfirst
    | set _ => exact hkept hlive hfirst
    | hash _ => exact hkept hlive hfirst
    | zset _ => exact hkept hlive hfirst

end KVStores.Redis
