import KVStores.Redis.AofRewrite
import KVStores.Redis.AofRun

/-!
# Loading a rewritten log

A key that had expired comes back without a time to live, if it is at all: its value is written before its time is looked at.
-/

namespace KVStores.Redis

open List Option

open Aof Protocol

variable {Score : Type} {t : Setting Score} {clock : ℤ} {print : Score → Sds} {now n : ℕ} {d : ℕ → RedisDb Score} {key : Sds}

/-! ## One command -/

theorem mapM_sdsOfBytes (argv : List Sds) : (bytesOf argv).mapM sdsOfBytes = some argv := by
  induction argv with
  | nil => rfl
  | cons a argv ih =>
    have ha : sdsOfBytes a.1 = some a := by rw [sdsOfBytes, dif_pos a.2]
    rw [bytesOf, map_cons, mapM_cons, ha]
    rw [bytesOf] at ih
    rw [ih]
    rfl

variable {name : Sds}

theorem loadExec_proc {cmd : Command} (hname : lookupCommand name = some cmd) (hcmd : cmd ≠ .select) (args : List Sds) :
    loadExec t clock (bytesOf (name :: args)) (n, d) = some (n, (cmd.proc t ⟨true, clock⟩ (Keyspace.start d (name :: args)) n).db) := by
  have hfind : lookupCommand (((name :: args)[0]?).getD Sds.empty) = some cmd := hname
  rw [loadExec, mapM_sdsOfBytes, bind_some, hfind, map_some, if_neg hcmd]

theorem execAll_append (exec : List (List UInt8) → ℕ × (ℕ → RedisDb Score) → Option (ℕ × (ℕ → RedisDb Score))) (l l' : List (List (List UInt8)))
    (c : ℕ × (ℕ → RedisDb Score)) : execAll exec (l ++ l') c = (execAll exec l c).bind (execAll exec l') := by
  induction l generalizing c with
  | nil => rfl
  | cons argv l ih =>
    rw [cons_append, execAll, execAll, bind_assoc]
    congr 1
    funext c'
    exact ih c'

theorem changeKey_loading (s : Keyspace Score) (change : Option (Value Score) → Change Score) {v : Value Score} {k : ℕ}
    (hchange : change (lookupKey s n key) = .store v k) : (changeKey ⟨true, clock⟩ s n key change).db = putDict s.db n key (some v) := by
  rw [changeKey, expireIfNeeded_loading, hchange]
  rfl

theorem load_set (v : Sds) (hexpires : (d n).expires key = none) :
    loadExec t clock (bytesOf [setName, key, v]) (n, d) = some (n, putDict d n key (some (.string v))) := by
  have hname : lookupCommand setName = some .set := by decide
  rw [loadExec_proc hname (by decide)]
  congr 2
  have hsame : putExpires (putDict d n key (some (.string v))) n key none = putDict d n key (some (.string v)) := by
    refine databases_ext ?_ ?_
    · intro m k
      rw [putExpires_dict]
    · intro m k
      rw [putExpires_expires, putDict_expires]
      by_cases hk : m = n ∧ k = key
      · rw [if_pos hk, hk.1, hk.2, hexpires]
      · rw [if_neg hk]
  show (setGenericCommand ⟨true, clock⟩ (Keyspace.start d [setName, key, v]) n false key v none false).db = _
  exact (setKey_db ⟨true, clock⟩ (Keyspace.start d [setName, key, v]) n key (.string v)).trans hsame

/-- What was built of a value so far: nothing of an empty one. -/
def builtOf {Item : Type} (store : List Item → Value Score) (done : List Item) : Option (Value Score) := if done = [] then none else some (store done)

theorem foldl_push (l elements : List Sds) : elements.foldl (fun l v => listTypePush l v .tail) l = l ++ elements := by
  induction elements generalizing l with
  | nil => exact (append_nil l).symm
  | cons v elements ih =>
    rw [foldl_cons, ih, listTypePush, append_assoc]
    rfl

variable {elements : List Sds}

theorem load_rpush {l : List Sds} (hne : elements ≠ []) (hkey : (d n).dict key = none ∧ l = [] ∨ (d n).dict key = some (.list l)) :
    loadExec t clock (bytesOf (rpushName :: key :: elements)) (n, d) = some (n, putDict d n key (some (.list (l ++ elements)))) := by
  have hname : lookupCommand rpushName = some .rpush := by decide
  rw [loadExec_proc hname (by decide)]
  congr 2
  refine changeKey_loading _ _ (k := elements.length) ?_
  rcases hkey with ⟨hnone, rfl⟩ | hlist
  · show pushGenericChange elements .tail ((d n).dict key) = _
    rw [hnone, pushGenericChange]
    dsimp only
    rw [if_neg hne, foldl_push]
  · show pushGenericChange elements .tail ((d n).dict key) = _
    rw [hlist, pushGenericChange]
    dsimp only
    rw [if_neg hne, foldl_push]

theorem saddLoop_fresh : ∀ {elements : List Sds} {set : Finset Sds} {added : ℕ}, elements.Nodup → (∀ x ∈ elements, x ∉ set) →
    saddLoop elements (set, added) = (set ∪ elements.toFinset, added + elements.length) := by
  intro elements
  induction elements with
  | nil =>
    intro set added _ _
    rw [saddLoop, toFinset_nil, Finset.union_empty]
    rfl
  | cons x elements ih =>
    intro set added hnodup hfresh
    have hx := hfresh x mem_cons_self
    obtain ⟨hnot, hnodup⟩ := nodup_cons.1 hnodup
    rw [saddLoop, if_neg hx, ih hnodup, toFinset_cons, length_cons]
    · congr 1
      · rw [Finset.insert_union, Finset.union_insert]
      · omega
    · intro y hy hmem
      rcases Finset.mem_insert.1 hmem with rfl | hmem
      · exact hnot hy
      · exact hfresh y (mem_cons_of_mem _ hy) hmem

theorem load_sadd {set : Finset Sds} (hne : elements ≠ []) (hnodup : elements.Nodup) (hfresh : ∀ x ∈ elements, x ∉ set)
    (hkey : (d n).dict key = none ∧ set = ∅ ∨ (d n).dict key = some (.set set)) :
    loadExec t clock (bytesOf (saddName :: key :: elements)) (n, d) = some (n, putDict d n key (some (.set (set ∪ elements.toFinset)))) := by
  have hname : lookupCommand saddName = some .sadd := by decide
  have hloop : saddLoop elements (set, 0) = _ := saddLoop_fresh hnodup hfresh
  have hlen := length_pos_of_ne_nil hne
  rw [loadExec_proc hname (by decide)]
  congr 2
  refine changeKey_loading _ _ (k := 0 + elements.length) ?_
  show saddChange elements ((d n).dict key) = _
  rcases hkey with ⟨hnone, rfl⟩ | hset
  · rw [hnone, saddChange, hloop]
  · rw [hset, saddChange, hloop, if_neg]
    omega

variable {Item : Type}

theorem foldl_insert_fresh {β : Type} {f : Item → Sds} {g : Item → β} : ∀ {l : List Item} {z : Finmap fun _ : Sds => β} {x : Sds}, x ∉ z →
    x ∉ l.map f → x ∉ l.foldl (fun z p => z.insert (f p) (g p)) z := by
  intro l
  induction l with
  | nil =>
    intro z x hz _
    exact hz
  | cons p l ih =>
    intro z x hz hx
    rw [map_cons, mem_cons, not_or] at hx
    refine ih ?_ hx.2
    rw [Finmap.mem_insert, not_or]
    exact ⟨hx.1, hz⟩

theorem zaddLoop_fresh (floats : Floats Score) : ∀ {pairs : List (Score × Sds)} {z : ScoreMap Score} {changed : ℕ}, (pairs.map Prod.snd).Nodup →
    (∀ x ∈ pairs.map Prod.snd, x ∉ z) →
    Keyspace.zaddLoop floats false pairs (z, changed) = (pairs.foldl (fun z p => z.insert p.2 p.1) z, changed + pairs.length) := by
  intro pairs
  induction pairs with
  | nil =>
    intro z changed _ _
    rfl
  | cons p pairs ih =>
    intro z changed hnodup hfresh
    obtain ⟨score, ele⟩ := p
    obtain ⟨hnot, hnodup⟩ := nodup_cons.1 hnodup
    have hx := Finmap.lookup_eq_none.2 (hfresh ele mem_cons_self)
    rw [Keyspace.zaddLoop, hx]
    dsimp only
    rw [ih hnodup, foldl_cons, length_cons]
    · congr 1
      omega
    · intro y hy hmem
      rcases Finmap.mem_insert.1 hmem with rfl | hmem
      · exact hnot hy
      · exact hfresh y (mem_cons_of_mem _ hy) hmem

theorem zaddPairs_args (hprint : ∀ score, t.floats.getDouble (print score) = some score) (l : List (Element × Score)) :
    zaddPairs t.floats (l.flatMap (scoreArgs print)) = some (l.map fun p => (p.2, p.1.value)) := by
  induction l with
  | nil => rfl
  | cons p l ih =>
    have hargs : (p :: l).flatMap (scoreArgs print) = print p.2 :: p.1.value :: l.flatMap (scoreArgs print) := rfl
    rw [hargs, zaddPairs, hprint, bind_some, ih]
    rfl

variable {args : Item → List Sds}

theorem length_flatMap_two (hwidth : ∀ x, (args x).length = 2) (l : List Item) : (l.flatMap args).length = 2 * l.length := by
  induction l with
  | nil => rfl
  | cons x l ih =>
    rw [flatMap_cons, length_append, hwidth, ih, length_cons]
    omega

variable {l : List (Element × Score)}

theorem load_zadd (hprint : ∀ score, t.floats.getDouble (print score) = some score) {z : ScoreMap Score} (hne : l ≠ [])
    (hnodup : (l.map fun p => p.1.value).Nodup) (hfresh : ∀ p ∈ l, p.1.value ∉ z)
    (hkey : (d n).dict key = none ∧ z = ∅ ∨ (d n).dict key = some (.zset z)) :
    loadExec t clock (bytesOf (zaddName :: key :: l.flatMap (scoreArgs print))) (n, d) =
      some (n, putDict d n key (some (.zset (l.foldl (fun z p => z.insert p.1.value p.2) z)))) := by
  have hname : lookupCommand zaddName = some .zadd := by decide
  have hmap : (l.map fun p => (p.2, p.1.value)).map Prod.snd = l.map fun p => p.1.value := by
    rw [List.map_map]
    rfl
  have hnodup' : ((l.map fun p => (p.2, p.1.value)).map Prod.snd).Nodup := by
    rw [hmap]
    exact hnodup
  have hfresh' : ∀ x ∈ (l.map fun p => (p.2, p.1.value)).map Prod.snd, x ∉ z := by
    rw [hmap]
    intro x hx
    obtain ⟨p, hp, rfl⟩ := List.mem_map.1 hx
    exact hfresh p hp
  have hloop : Keyspace.zaddLoop t.floats false (l.map fun p => (p.2, p.1.value)) (z, 0) = _ := zaddLoop_fresh t.floats hnodup' hfresh'
  rw [foldl_map, length_map] at hloop
  have hlen := length_pos_of_ne_nil hne
  have hargc : (zaddName :: key :: l.flatMap (scoreArgs print)).length % 2 = 0 := by
    have h2 : (l.flatMap (scoreArgs print)).length = _ := length_flatMap_two (fun _ => rfl) l
    rw [length_cons, length_cons, h2]
    omega
  rw [loadExec_proc hname (by decide)]
  congr 2
  show (Keyspace.zaddGenericCommand t.floats ⟨true, clock⟩ (Keyspace.start d (zaddName :: key :: l.flatMap (scoreArgs print))) n false).db = _
  rw [Keyspace.zaddGenericCommand, if_neg]
  swap
  · exact not_not.2 hargc
  have hpairs : zaddPairs t.floats ((Keyspace.start d (zaddName :: key :: l.flatMap (scoreArgs print))).argv.drop 2) =
      some (l.map fun p => (p.2, p.1.value)) := zaddPairs_args hprint l
  rw [hpairs]
  refine changeKey_loading _ _ (k := 0 + l.length) ?_
  show zaddGenericChange t.floats false _ ((d n).dict key) = _
  rcases hkey with ⟨hnone, rfl⟩ | hzset
  · rw [hnone, zaddGenericChange, hloop]
  · rw [hzset, zaddGenericChange, hloop, if_neg]
    omega

theorem keysAndValues_args (l : List (Element × Element)) : keysAndValues (l.flatMap fieldArgs) = l.map fun p => (p.1.value, p.2.value) := by
  induction l with
  | nil => rfl
  | cons p l ih =>
    have hargs : (p :: l).flatMap fieldArgs = p.1.value :: p.2.value :: l.flatMap fieldArgs := rfl
    rw [hargs, keysAndValues, ih]
    rfl

theorem load_hmset {h : Hash} {l : List (Element × Element)} (hkey : (d n).dict key = none ∧ h = ∅ ∨ (d n).dict key = some (.hash h)) :
    loadExec t clock (bytesOf (hmsetName :: key :: l.flatMap fieldArgs)) (n, d) =
      some (n, putDict d n key (some (.hash (l.foldl (fun h p => hashTypeSet h p.1.value p.2.value) h)))) := by
  have hname : lookupCommand hmsetName = some .hmset := by decide
  have hargc : ¬ (hmsetName :: key :: l.flatMap fieldArgs).length % 2 = 1 := by
    have h2 : (l.flatMap fieldArgs).length = _ := length_flatMap_two (fun _ => rfl) l
    rw [length_cons, length_cons, h2]
    omega
  rw [loadExec_proc hname (by decide)]
  congr 2
  show (hmsetCommand ⟨true, clock⟩ (Keyspace.start d (hmsetName :: key :: l.flatMap fieldArgs)) n).db = _
  rw [hmsetCommand, if_neg]
  swap
  · exact hargc
  refine changeKey_loading _ _ (k := 1) ?_
  show hmsetChange (keysAndValues (l.flatMap fieldArgs)) ((d n).dict key) = _
  rw [keysAndValues_args, hmsetChange]
  rcases hkey with ⟨hnone, rfl⟩ | hhash
  · rw [hnone, Value.asHash]
    dsimp only
    rw [foldl_map]
  · rw [hhash, Value.asHash]
    dsimp only
    rw [foldl_map]

theorem load_pexpireat (w : Long) (hkey : (d n).dict key ≠ none) :
    loadExec t clock (bytesOf [pexpireatName, key, (Element.int w).value]) (n, d) = some (n, putExpires d n key (some w.1)) := by
  have hname : lookupCommand pexpireatName = some .pexpireat := by decide
  have hparse : getLongLongFromObject (Element.int w).value.1 = some w.1 := getLongLongFromObject_ll2string w.2.1 w.2.2
  rw [loadExec_proc hname (by decide)]
  congr 2
  show (expireGenericCommand ⟨true, clock⟩ (Keyspace.start d [pexpireatName, key, (Element.int w).value]) n false false).db = _
  have harg : (Keyspace.start d [pexpireatName, key, (Element.int w).value]).arg 2 = (Element.int w).value := rfl
  have hthere : ¬ (lookupKey (Keyspace.start d [pexpireatName, key, (Element.int w).value]) n key).isNone = true := by
    rw [isNone_iff_eq_none]
    exact hkey
  have harg1 : (Keyspace.start d [pexpireatName, key, (Element.int w).value]).arg 1 = key := rfl
  rw [expireGenericCommand, harg, harg1, hparse]
  dsimp only
  rw [if_neg hthere, if_neg (by simp)]
  rfl

theorem load_select {j : ℕ} (hj : j < t.dbnum) (hdbnum : t.dbnum < 2 ^ 31) (c : ℕ) :
    loadExec t clock (bytesOf [selectName, dbArg j]) (c, d) = some (j, d) := by
  have hname : lookupCommand selectName = some .select := by decide
  have hfind : lookupCommand (([selectName, dbArg j][0]?).getD Sds.empty) = some .select := hname
  have hparse : getLongLongFromObject (dbArg j).1 = some (j : ℤ) := by
    have hlow : -2 ^ 63 ≤ (j : ℤ) := by omega
    have hhigh : (j : ℤ) < 2 ^ 63 := by omega
    rw [dbArg, ll2string_bmod hlow hhigh]
    exact getLongLongFromObject_ll2string hlow hhigh
  have hselect : selectCommand t.dbnum [selectName, dbArg j] c = j := by
    have harg : ([selectName, dbArg j][1]?).getD Sds.empty = dbArg j := rfl
    have hmod : ((j : ℤ)).bmod (2 ^ 32) = j := Int.bmod_eq_of_le (by omega) (by omega)
    rw [selectCommand, harg, hparse]
    dsimp only
    rw [hmod, if_neg (by omega), Int.toNat_natCast]
  rw [loadExec, mapM_sdsOfBytes, bind_some, hfind, map_some, if_pos rfl, hselect]

/-! ## One value -/

theorem putDict_putDict (d : ℕ → RedisDb Score) (n : ℕ) (key : Sds) (a b : Option (Value Score)) :
    putDict (putDict d n key a) n key b = putDict d n key b := by
  refine databases_ext ?_ ?_
  · intro m k
    rw [putDict_dict, putDict_dict, putDict_dict]
    by_cases hk : m = n ∧ k = key
    · rw [if_pos hk, if_pos hk]
    · rw [if_neg hk, if_neg hk, if_neg hk]
  · intro m k
    rw [putDict_expires, putDict_expires, putDict_expires]

variable {store : List Item → Value Score}

/-- **Piece by piece**: if the command for any piece adds it to what is there, the commands build the whole. -/
theorem load_pieces {whole : List Item}
    (hone : ∀ (done piece : List Item) (d : ℕ → RedisDb Score), piece ≠ [] → done ++ piece <+: whole → (d n).dict key = builtOf store done →
      loadExec t clock (bytesOf (name :: key :: piece.flatMap args)) (n, d) = some (n, putDict d n key (some (store (done ++ piece))))) :
    ∀ (m : ℕ) {done rest : List Item} {d : ℕ → RedisDb Score}, rest.length ≤ m → done ++ rest = whole → (d n).dict key = builtOf store done →
      execAll (loadExec t clock) ((pieces m rest).map fun piece => bytesOf (name :: key :: piece.flatMap args)) (n, d) =
        some (n, if rest = [] then d else putDict d n key (some (store whole))) := by
  intro m
  induction m with
  | zero =>
    intro done rest d hm _ _
    rw [if_pos (length_eq_zero_iff.1 (Nat.le_zero.1 hm))]
    rfl
  | succ m ih =>
    intro done rest d hm hwhole hbuilt
    rw [pieces]
    by_cases hnil : rest = []
    · rw [if_pos hnil, if_pos hnil]
      rfl
    have hsize : itemsPerCmd = 64 := rfl
    have hpiece : rest.take itemsPerCmd ≠ [] := by
      have hpos := length_pos_of_ne_nil hnil
      intro h
      have hlen := congrArg List.length h
      rw [length_take, length_nil] at hlen
      omega
    have hcut : (done ++ rest.take itemsPerCmd) ++ rest.drop itemsPerCmd = whole := by
      rw [append_assoc, take_append_drop, hwhole]
    have hdone : done ++ rest.take itemsPerCmd ≠ [] := fun h => hpiece (append_eq_nil_iff.1 h).2
    have hshort : (rest.drop itemsPerCmd).length ≤ m := by
      rw [length_drop]
      omega
    rw [if_neg hnil, if_neg hnil, map_cons, execAll, hone done _ d hpiece ⟨_, hcut⟩ hbuilt, bind_some,
      ih hshort hcut (by rw [putDict_dict, if_pos ⟨rfl, rfl⟩, builtOf, if_neg hdone])]
    by_cases hlast : rest.drop itemsPerCmd = []
    · rw [if_pos hlast]
      rw [hlast, append_nil] at hcut
      rw [hcut]
    · rw [if_neg hlast, putDict_putDict]

theorem load_items (store : List Item → Value Score) {l : List Item} (hne : l ≠ []) (hkey : (d n).dict key = none)
    (hone : ∀ (done piece : List Item) (d : ℕ → RedisDb Score), piece ≠ [] → done ++ piece <+: l → (d n).dict key = builtOf store done →
      loadExec t clock (bytesOf (name :: key :: piece.flatMap args)) (n, d) = some (n, putDict d n key (some (store (done ++ piece))))) :
    execAll (loadExec t clock) ((itemCommands name key args l).map bytesOf) (n, d) = some (n, putDict d n key (some (store l))) := by
  have hload := load_pieces hone l.length (Nat.le_refl _) (nil_append l) (by rw [hkey, builtOf, if_pos rfl])
  rw [if_neg hne] at hload
  rw [itemCommands, List.map_map]
  exact hload

theorem built_cases {Repr : Type} {done : List Item} {o : Option (Value Score)} (mk : Repr → Value Score)
    (of : List Item → Repr) (hstore : ∀ l, store l = mk (of l)) (ho : o = builtOf store done) :
    o = none ∧ of done = of [] ∨ o = some (mk (of done)) := by
  rw [builtOf] at ho
  by_cases hnil : done = []
  · rw [if_pos hnil] at ho
    exact Or.inl ⟨ho, by rw [hnil]⟩
  · rw [if_neg hnil, hstore] at ho
    exact Or.inr ho

theorem load_list {l : List Element} (hne : l ≠ []) (hkey : (d n).dict key = none) :
    execAll (loadExec t clock) ((itemCommands rpushName key (fun x : Element => [x.value]) l).map bytesOf) (n, d) =
      some (n, putDict d n key (some (.list (l.map Element.value)))) := by
  refine load_items (fun l => .list (l.map Element.value)) hne hkey ?_
  intro done piece d hpiece _ hbuilt
  have hmap : piece.map Element.value ≠ [] := fun h => hpiece (map_eq_nil_iff.1 h)
  rw [← map_eq_flatMap, load_rpush hmap (built_cases Value.list (fun l => l.map Element.value) (fun _ => rfl) hbuilt), map_append]

theorem load_set_items {value : Item → Sds} {l : List Item} (hne : l ≠ []) (hnodup : (l.map value).Nodup) (hkey : (d n).dict key = none) :
    execAll (loadExec t clock) ((itemCommands saddName key (fun x : Item => [value x]) l).map bytesOf) (n, d) =
      some (n, putDict d n key (some (.set (l.map value).toFinset))) := by
  refine load_items (fun l => .set (l.map value).toFinset) hne hkey ?_
  intro done piece d hpiece hfront hbuilt
  have hmap : piece.map value ≠ [] := fun h => hpiece (map_eq_nil_iff.1 h)
  have hnodup' : (done.map value ++ piece.map value).Nodup := by
    rw [← map_append]
    exact hnodup.sublist (hfront.sublist.map value)
  obtain ⟨-, hpieceNodup, hdisjoint⟩ := nodup_append.1 hnodup'
  have hfresh : ∀ x ∈ piece.map value, x ∉ (done.map value).toFinset := by
    intro x hx hmem
    exact hdisjoint x (List.mem_toFinset.1 hmem) x hx rfl
  rw [← map_eq_flatMap, load_sadd hmap hpieceNodup hfresh (built_cases Value.set (fun l => (l.map value).toFinset) (fun _ => rfl) hbuilt),
    map_append, toFinset_append]

theorem load_zset (hprint : ∀ score, t.floats.getDouble (print score) = some score) (hne : l ≠ [])
    (hnodup : (l.map fun p => p.1.value).Nodup) (hkey : (d n).dict key = none) :
    execAll (loadExec t clock) ((itemCommands zaddName key (scoreArgs print) l).map bytesOf) (n, d) =
      some (n, putDict d n key (some (.zset (scoresOf l)))) := by
  refine load_items (fun l => .zset (scoresOf l)) hne hkey ?_
  intro done piece d hpiece hfront hbuilt
  have hnodup' : (done.map (fun p => p.1.value) ++ piece.map fun p => p.1.value).Nodup := by
    rw [← map_append]
    exact hnodup.sublist (hfront.sublist.map _)
  obtain ⟨-, hpieceNodup, hdisjoint⟩ := nodup_append.1 hnodup'
  have hfresh : ∀ p ∈ piece, p.1.value ∉ scoresOf done := by
    intro p hp
    refine foldl_insert_fresh (Finmap.notMem_empty) ?_
    intro hmem
    exact hdisjoint _ hmem _ (List.mem_map_of_mem hp) rfl
  rw [load_zadd hprint hpiece hpieceNodup hfresh (built_cases Value.zset scoresOf (fun _ => rfl) hbuilt), scoresOf, scoresOf, foldl_append]

theorem load_hash {l : List (Element × Element)} (hne : l ≠ []) (hkey : (d n).dict key = none) :
    execAll (loadExec t clock) ((itemCommands hmsetName key fieldArgs l).map bytesOf) (n, d) =
      some (n, putDict d n key (some (.hash (hashOf l)))) := by
  refine load_items (fun l => .hash (hashOf l)) hne hkey ?_
  intro done piece d _ _ hbuilt
  rw [load_hmset (built_cases Value.hash hashOf (fun _ => rfl) hbuilt), hashOf, hashOf, foldl_append]

theorem load_object (hprint : ∀ score, t.floats.getDouble (print score) = some score) {o : Obj Score} (ho : o.Ok) (hkey : (d n).dict key = none)
    (hexpires : (d n).expires key = none) :
    execAll (loadExec t clock) ((o.commands print key).map bytesOf) (n, d) = some (n, putDict d n key (some o.value)) := by
  cases o with
  | string x =>
    rw [Obj.commands, map_singleton, execAll, load_set x.value hexpires]
    rfl
  | listZiplist l => exact load_list ho hkey
  | listLinked l => exact load_list ho hkey
  | setIntset is => exact load_set_items ho.1 ho.2 hkey
  | setHt l => exact load_set_items ho.1 ho.2 hkey
  | zsetZiplist l => exact load_zset hprint ho.1 ho.2 hkey
  | zsetSkiplist l => exact load_zset hprint ho.1 ho.2 hkey
  | hashZiplist l => exact load_hash ho.1 hkey
  | hashHt l => exact load_hash ho.1 hkey

/-! ## One key -/

def putEntry (now n : ℕ) (d : ℕ → RedisDb Score) (x : Entry Score) : ℕ → RedisDb Score :=
  match x.written now with
  | none => putDict d n x.key (some x.obj.value)
  | some w => putExpires (putDict d n x.key (some x.obj.value)) n x.key (some w.1)

theorem putEntry_dict (now n : ℕ) (d : ℕ → RedisDb Score) (x : Entry Score) (m : ℕ) (k : Sds) :
    (putEntry now n d x m).dict k = if m = n ∧ k = x.key then some x.obj.value else (d m).dict k := by
  rw [putEntry]
  cases x.written now with
  | none => exact putDict_dict ..
  | some w =>
    rw [putExpires_dict]
    exact putDict_dict ..

theorem putEntry_expires (now n : ℕ) (d : ℕ → RedisDb Score) (x : Entry Score) {m : ℕ} {k : Sds} (hnone : (d n).expires x.key = none) :
    (putEntry now n d x m).expires k = if m = n ∧ k = x.key then (x.written now).map Subtype.val else (d m).expires k := by
  rw [putEntry]
  cases x.written now with
  | none =>
    rw [putDict_expires]
    by_cases hk : m = n ∧ k = x.key
    · rw [if_pos hk, hk.1, hk.2, hnone]
      rfl
    · rw [if_neg hk]
  | some w =>
    dsimp only
    rw [putExpires_expires, putDict_expires]
    rfl

variable {x : Entry Score}

theorem load_entry (hprint : ∀ score, t.floats.getDouble (print score) = some score) (hok : x.obj.Ok)
    (hkey : (d n).dict x.key = none) (hexpires : (d n).expires x.key = none) :
    execAll (loadExec t clock) ((x.commands print now).map bytesOf) (n, d) = some (n, putEntry now n d x) := by
  rw [Entry.commands, map_append, execAll_append, load_object hprint hok hkey hexpires, bind_some, putEntry]
  cases x.written now with
  | none => rfl
  | some w =>
    have hthere : (putDict d n x.key (some x.obj.value) n).dict x.key ≠ none := by
      rw [putDict_dict, if_pos ⟨rfl, rfl⟩]
      exact some_ne_none _
    rw [map_singleton, execAll, load_pexpireat w hthere]
    rfl

/-! ## One database -/

def putEntries (now n : ℕ) (d : ℕ → RedisDb Score) (l : List (Entry Score)) : ℕ → RedisDb Score := l.foldl (putEntry now n) d

theorem load_entries (hprint : ∀ score, t.floats.getDouble (print score) = some score) : ∀ {l : List (Entry Score)} {d : ℕ → RedisDb Score},
    (l.map Entry.key).Nodup → (∀ x ∈ l, x.obj.Ok) → (∀ x ∈ l, (d n).dict x.key = none ∧ (d n).expires x.key = none) →
    execAll (loadExec t clock) ((l.flatMap (Entry.commands print now)).map bytesOf) (n, d) = some (n, putEntries now n d l) := by
  intro l
  induction l with
  | nil =>
    intro d _ _ _
    rfl
  | cons x l ih =>
    intro d hnodup hok hfresh
    obtain ⟨hnot, hnodup⟩ := nodup_cons.1 hnodup
    obtain ⟨hkey, hexpires⟩ := hfresh x mem_cons_self
    rw [flatMap_cons, map_append, execAll_append, load_entry hprint (hok x mem_cons_self) hkey hexpires, bind_some,
      ih hnodup (fun y hy => hok y (mem_cons_of_mem _ hy))]
    · rfl
    · intro y hy
      have hne : ¬ (n = n ∧ y.key = x.key) := fun h => hnot (h.2 ▸ List.mem_map_of_mem hy)
      rw [putEntry_dict, putEntry_expires now n d x hexpires, if_neg hne, if_neg hne]
      exact hfresh y (mem_cons_of_mem _ hy)

theorem putEntries_other : ∀ {l : List (Entry Score)} {d : ℕ → RedisDb Score} {m : ℕ} {k : Sds}, (l.map Entry.key).Nodup →
    (∀ x ∈ l, (d n).expires x.key = none) → m ≠ n ∨ k ∉ l.map Entry.key →
    (putEntries now n d l m).dict k = (d m).dict k ∧ (putEntries now n d l m).expires k = (d m).expires k := by
  intro l
  induction l with
  | nil =>
    intro d m k _ _ _
    exact ⟨rfl, rfl⟩
  | cons x l ih =>
    intro d m k hnodup hnone hother
    obtain ⟨hnot, hnodup⟩ := nodup_cons.1 hnodup
    have hx := hnone x mem_cons_self
    have hne : ¬ (m = n ∧ k = x.key) := by
      rintro ⟨hm, rfl⟩
      rcases hother with h | h
      · exact h hm
      · exact h mem_cons_self
    have hrest : ∀ y ∈ l, (putEntry now n d x n).expires y.key = none := by
      intro y hy
      have hney : ¬ (n = n ∧ y.key = x.key) := fun h => hnot (h.2 ▸ List.mem_map_of_mem hy)
      rw [putEntry_expires now n d x hx, if_neg hney]
      exact hnone y (mem_cons_of_mem _ hy)
    obtain ⟨hdict, hexpires⟩ := ih hnodup hrest (hother.imp_right fun h hk => h (mem_cons_of_mem _ hk))
    rw [putEntry_dict, if_neg hne] at hdict
    rw [putEntry_expires now n d x hx, if_neg hne] at hexpires
    exact ⟨hdict, hexpires⟩

theorem putEntries_mem : ∀ {l : List (Entry Score)} {d : ℕ → RedisDb Score} {x : Entry Score}, (l.map Entry.key).Nodup →
    (∀ x ∈ l, (d n).expires x.key = none) → x ∈ l →
    (putEntries now n d l n).dict x.key = some x.obj.value ∧ (putEntries now n d l n).expires x.key = (x.written now).map Subtype.val := by
  intro l
  induction l with
  | nil =>
    intro d x _ _ hx
    exact absurd hx not_mem_nil
  | cons y l ih =>
    intro d x hnodup hnone hx
    obtain ⟨hnot, hnodup'⟩ := nodup_cons.1 hnodup
    have hy := hnone y mem_cons_self
    have hrest : ∀ z ∈ l, (putEntry now n d y n).expires z.key = none := by
      intro z hz
      have hnez : ¬ (n = n ∧ z.key = y.key) := fun h => hnot (h.2 ▸ List.mem_map_of_mem hz)
      rw [putEntry_expires now n d y hy, if_neg hnez]
      exact hnone z (mem_cons_of_mem _ hz)
    rcases mem_cons.1 hx with rfl | hx
    · obtain ⟨hdict, hexpires⟩ := @putEntries_other Score now n l (putEntry now n d x) n x.key hnodup' hrest (Or.inr hnot)
      rw [putEntry_dict, if_pos ⟨rfl, rfl⟩] at hdict
      rw [putEntry_expires now n d x hy, if_pos ⟨rfl, rfl⟩] at hexpires
      exact ⟨hdict, hexpires⟩
    · exact ih hnodup' hrest hx

/-! ## All databases -/

/-- What loading the commands for databases from number `j` on makes of the databases. -/
@[grind =] def putDbs (now : ℕ) : ℕ → List (StoredDb Score) → (ℕ → RedisDb Score) → ℕ → RedisDb Score
  | _, [], d => d
  | j, db :: dbs, d => putDbs now (j + 1) dbs (putEntries now j d db.entries)

theorem putEntries_empty {j : ℕ} {l : List (Entry Score)} (hnodup : (l.map Entry.key).Nodup) (hempty : ∀ m, j ≤ m → d m = .empty) :
    ∀ m, j + 1 ≤ m → putEntries now j d l m = .empty := by
  intro m hm
  have hnone : ∀ x ∈ l, (d j).expires x.key = none := by
    intro x _
    rw [hempty j (Nat.le_refl _)]
    rfl
  have hother := fun k : Sds => @putEntries_other Score now j l d m k hnodup hnone (Or.inl (by omega))
  rw [← hempty m (by omega)]
  exact redisDb_ext (fun k => (hother k).1) fun k => (hother k).2

theorem load_dbs (hprint : ∀ score, t.floats.getDouble (print score) = some score) (hdbnum : t.dbnum < 2 ^ 31) : ∀ {dbs : List (StoredDb Score)}
    {j c : ℕ} {d : ℕ → RedisDb Score}, j + dbs.length ≤ t.dbnum → (∀ m, j ≤ m → d m = .empty) →
    ∃ c', execAll (loadExec t clock) ((dbCommands print now j dbs).map bytesOf) (c, d) = some (c', putDbs now j dbs d) := by
  intro dbs
  induction dbs with
  | nil =>
    intro j c d _ _
    exact ⟨c, rfl⟩
  | cons db dbs ih =>
    intro j c d hj hempty
    rw [length_cons] at hj
    have hfresh : ∀ x ∈ db.entries, (d j).dict x.key = none ∧ (d j).expires x.key = none := by
      intro x _
      rw [hempty j (Nat.le_refl _)]
      exact ⟨rfl, rfl⟩
    rw [dbCommands, putDbs, map_append]
    by_cases hnil : db.entries = []
    · rw [if_pos hnil, hnil]
      obtain ⟨c', hload⟩ := @ih (j + 1) c d (by omega) (fun m hm => hempty m (by omega))
      exact ⟨c', hload⟩
    · obtain ⟨c', hload⟩ := @ih (j + 1) j _ (by omega) (putEntries_empty db.nodup hempty)
      refine ⟨c', ?_⟩
      have hlt : j < t.dbnum := by omega
      rw [if_neg hnil, map_cons, cons_append, execAll, load_select hlt hdbnum, bind_some, execAll_append,
        load_entries hprint db.nodup db.ok hfresh, bind_some]
      exact hload

/-- What a database holds that was built: its keys, but not the times that were not written. -/
def Built (now : ℕ) (db : StoredDb Score) (d : RedisDb Score) : Prop :=
  ∀ x ∈ db.entries, d.dict x.key = some x.obj.value ∧ d.expires x.key = (x.written now).map Subtype.val

theorem putDbs_built : ∀ {dbs : List (StoredDb Score)} {j : ℕ} {d : ℕ → RedisDb Score}, (∀ m, j ≤ m → d m = .empty) →
    (∀ m < j, putDbs now j dbs d m = d m) ∧ ∀ i db, dbs[i]? = some db → Built now db (putDbs now j dbs d (j + i)) := by
  intro dbs
  induction dbs with
  | nil =>
    intro j d _
    exact ⟨fun _ _ => rfl, fun i db h => absurd h nofun⟩
  | cons db dbs ih =>
    intro j d hempty
    have hnone : ∀ x ∈ db.entries, (d j).expires x.key = none := by
      intro x _
      rw [hempty j (Nat.le_refl _)]
      rfl
    have hrest := @putEntries_empty Score now d j db.entries db.nodup hempty
    obtain ⟨hlow, hbuilt⟩ := @ih (j + 1) (putEntries now j d db.entries) hrest
    refine ⟨?_, ?_⟩
    · intro m hm
      have hother := fun k : Sds => @putEntries_other Score now j db.entries d m k db.nodup hnone (Or.inl (by omega))
      rw [putDbs, hlow m (by omega)]
      exact redisDb_ext (fun k => (hother k).1) fun k => (hother k).2
    · intro i db' hdb
      cases i with
      | zero =>
        obtain rfl := Option.some.inj hdb
        show Built now db (putDbs now (j + 1) dbs (putEntries now j d db.entries) j)
        rw [hlow j (Nat.lt_succ_self j)]
        exact fun x hx => putEntries_mem db.nodup hnone hx
      | succ i =>
        have hnext := hbuilt i db' hdb
        rw [Nat.add_right_comm] at hnext
        exact hnext

/-! ## The log -/

variable {argv : List Sds}

theorem loggable_bytesOf (hpos : 0 < argv.length) (hlen : argv.length < 2 ^ 31) : Loggable (bytesOf argv) := by
  refine ⟨?_, ?_, ?_⟩
  · rw [bytesOf, length_map]
    exact hpos
  · rw [bytesOf, length_map]
    exact hlen
  · intro a ha
    obtain ⟨x, -, rfl⟩ := List.mem_map.1 ha
    exact Nat.lt_trans x.2 (by decide)

theorem pieces_short : ∀ (m : ℕ) {l piece : List Item}, piece ∈ pieces m l → piece.length ≤ itemsPerCmd := by
  intro m
  induction m with
  | zero =>
    intro l piece h
    exact absurd h not_mem_nil
  | succ m ih =>
    intro l piece h
    rw [pieces] at h
    by_cases hnil : l = []
    · rw [if_pos hnil] at h
      exact absurd h not_mem_nil
    · rw [if_neg hnil] at h
      rcases mem_cons.1 h with rfl | h
      · exact length_take_le _ _
      · exact ih h

theorem itemCommands_short {l : List Item} (hargs : ∀ x, (args x).length ≤ 2)
    (hargv : argv ∈ itemCommands name key args l) : 0 < argv.length ∧ argv.length < 2 ^ 31 := by
  obtain ⟨piece, hpiece, rfl⟩ := List.mem_map.1 hargv
  have hsize : itemsPerCmd = 64 := rfl
  have hshort := pieces_short _ hpiece
  have hflat : ∀ l : List Item, (l.flatMap args).length ≤ 2 * l.length := by
    intro l
    induction l with
    | nil => exact Nat.le_refl _
    | cons x l ih =>
      have hx := hargs x
      rw [flatMap_cons, length_append, length_cons]
      omega
  have hlen := hflat piece
  rw [length_cons, length_cons]
  omega

theorem commands_short (hargv : argv ∈ x.commands print now) : 0 < argv.length ∧ argv.length < 2 ^ 31 := by
  rw [Entry.commands, mem_append] at hargv
  rcases hargv with hargv | hargv
  · cases hobj : x.obj with
    | string o =>
      rw [hobj] at hargv
      obtain rfl := mem_singleton.1 hargv
      exact ⟨Nat.succ_pos _, (by decide : 3 < 2 ^ 31)⟩
    | listZiplist l =>
      rw [hobj] at hargv
      exact itemCommands_short (fun _ => Nat.le_succ _) hargv
    | listLinked l =>
      rw [hobj] at hargv
      exact itemCommands_short (fun _ => Nat.le_succ _) hargv
    | setIntset is =>
      rw [hobj] at hargv
      exact itemCommands_short (fun _ => Nat.le_succ _) hargv
    | setHt l =>
      rw [hobj] at hargv
      exact itemCommands_short (fun _ => Nat.le_succ _) hargv
    | zsetZiplist l =>
      rw [hobj] at hargv
      exact itemCommands_short (fun _ => Nat.le_refl _) hargv
    | zsetSkiplist l =>
      rw [hobj] at hargv
      exact itemCommands_short (fun _ => Nat.le_refl _) hargv
    | hashZiplist l =>
      rw [hobj] at hargv
      exact itemCommands_short (fun _ => Nat.le_refl _) hargv
    | hashHt l =>
      rw [hobj] at hargv
      exact itemCommands_short (fun _ => Nat.le_refl _) hargv
  · cases hw : x.written now with
    | none =>
      rw [hw] at hargv
      exact absurd hargv not_mem_nil
    | some w =>
      rw [hw] at hargv
      obtain rfl := mem_singleton.1 hargv
      exact ⟨Nat.succ_pos _, (by decide : 3 < 2 ^ 31)⟩

theorem dbCommands_short : ∀ {dbs : List (StoredDb Score)} {j : ℕ} {argv : List Sds}, argv ∈ dbCommands print now j dbs →
    0 < argv.length ∧ argv.length < 2 ^ 31 := by
  intro dbs
  induction dbs with
  | nil =>
    intro j argv h
    exact absurd h not_mem_nil
  | cons db dbs ih =>
    intro j argv h
    rw [dbCommands, mem_append] at h
    rcases h with h | h
    · by_cases hnil : db.entries = []
      · rw [if_pos hnil] at h
        exact absurd h not_mem_nil
      · rw [if_neg hnil] at h
        rcases mem_cons.1 h with rfl | h
        · exact ⟨Nat.succ_pos _, (by decide : 2 < 2 ^ 31)⟩
        · obtain ⟨x, -, hx⟩ := mem_flatMap.1 h
          exact commands_short hx
    · exact ih h

/-- **A rewritten log**, loaded into an empty server. -/
theorem load_rewrite (hprint : ∀ score, t.floats.getDouble (print score) = some score) (hdbnum : t.dbnum < 2 ^ 31) {dbs : List (StoredDb Score)}
    (hdbs : dbs.length ≤ t.dbnum) : ∃ c, loadAppendOnlyFile (loadExec t clock) (rewriteAppendOnlyFile print now dbs) (0, fun _ => .empty) =
      some (c, putDbs now 0 dbs fun _ => .empty) := by
  have hloggable : ∀ argv ∈ (dbCommands print now 0 dbs).map bytesOf, Loggable argv := by
    intro argv h
    obtain ⟨l, hl, rfl⟩ := List.mem_map.1 h
    obtain ⟨hpos, hlen⟩ := dbCommands_short hl
    exact loggable_bytesOf hpos hlen
  rw [rewriteAppendOnlyFile, rewriteDbs_commands dbs (by omega), load_encode _ hloggable]
  exact load_dbs hprint hdbnum (by omega) fun _ _ => rfl

/-! ## What the log should do -/

/-- A key that had expired when the clock was at `now`. -/
def Entry.Expired (now : ℕ) (x : Entry Score) : Prop := ∃ w ∈ x.expire, w.1 < now

/-- Every key that had not expired is there, with its value and its time to live, and no key that had is there without one. -/
def Restores (now : ℕ) (dbs : List (StoredDb Score)) (d : ℕ → RedisDb Score) : Prop :=
  ∀ i db, dbs[i]? = some db → ∀ x ∈ db.entries,
    (¬ x.Expired now → (d i).dict x.key = some x.obj.value ∧ (d i).expires x.key = x.expire.map Subtype.val) ∧
      (x.Expired now → ¬ ((d i).dict x.key ≠ none ∧ (d i).expires x.key = none))

/-- **A rewritten log restores the databases** if and only if no key had expired. -/
theorem rewriteAppendOnlyFile_iff (hprint : ∀ score, t.floats.getDouble (print score) = some score) (hdbnum : t.dbnum < 2 ^ 31)
    {dbs : List (StoredDb Score)} (hdbs : dbs.length ≤ t.dbnum) :
    (∃ c d, loadAppendOnlyFile (loadExec t clock) (rewriteAppendOnlyFile print now dbs) (0, fun _ => .empty) = some (c, d) ∧ Restores now dbs d) ↔
      ∀ db ∈ dbs, ∀ x ∈ db.entries, ¬ x.Expired now := by
  obtain ⟨c, hload⟩ := @load_rewrite Score t clock print now hprint hdbnum dbs hdbs
  have hbuilt := (@putDbs_built Score now dbs 0 (fun _ => .empty) fun _ _ => rfl).2
  constructor
  · rintro ⟨c', d', hload', hrestores⟩ db hdb x hx hexpired
    obtain ⟨-, rfl⟩ := Prod.mk.inj (Option.some.inj (hload'.symm.trans hload))
    obtain ⟨i, hi⟩ := mem_iff_getElem?.1 hdb
    obtain ⟨hdict, hexpires⟩ := hbuilt i db hi x hx
    rw [Nat.zero_add] at hdict hexpires
    refine (hrestores i db hi x hx).2 hexpired ⟨?_, ?_⟩
    · rw [hdict]
      exact nofun
    · -- its time was not written
      obtain ⟨w, hw, hover⟩ := hexpired
      rw [hexpires, Entry.written, mem_def.1 hw, filter_some, if_neg]
      · rfl
      · rw [decide_eq_true_eq]
        omega
  · intro hnone
    refine ⟨c, _, hload, ?_⟩
    intro i db hi x hx
    have hx' := hnone db (mem_of_getElem? hi) x hx
    obtain ⟨hdict, hexpires⟩ := hbuilt i db hi x hx
    rw [Nat.zero_add] at hdict hexpires
    refine ⟨fun _ => ⟨hdict, ?_⟩, fun h => absurd h hx'⟩
    rw [hexpires, Entry.written]
    cases hexpire : x.expire with
    | none => rfl
    | some w =>
      have hfuture : ¬ w.1 < now := fun h => hx' ⟨w, hexpire, h⟩
      rw [filter_some, if_pos]
      rw [decide_eq_true_eq]
      omega

def longFloats : Floats Long where
  getDouble := fun s => (getLongLongFromObject s.1).bind fun v => if h : -2 ^ 63 ≤ v ∧ v < 2 ^ 63 then some ⟨v, h⟩ else none
  eq := fun a b => decide (a = b)
  lt := fun a b => decide (a.1 < b.1)
  add := fun a b => if h : -2 ^ 63 ≤ a.1 + b.1 ∧ a.1 + b.1 < 2 ^ 63 then some ⟨a.1 + b.1, h⟩ else none
  incrbyfloat := fun o incr =>
    (((o.map fun s => getLongLongFromObject s.1).getD (some 0)).bind fun a => (getLongLongFromObject incr.1).map fun b => a + b).map
      createStringObjectFromLongLong
  hincrbyfloat := fun o incr =>
    (((o.map fun s => getLongLongFromObject s.1).getD (some 0)).bind fun a => (getLongLongFromObject incr.1).map fun b => a + b).map
      createStringObjectFromLongLong
  isLongDouble := fun s => (getLongLongFromObject s.1).isSome
  parseRange := fun a b => (getLongLongFromObject a.1).bind fun a => (getLongLongFromObject b.1).map fun b => fun v => decide (a ≤ v.1 ∧ v.1 ≤ b)

def longSetting : Setting Long := ⟨longFloats, 16, ⟨Sds.empty, none, 0⟩⟩

/-- `%.17g` of a whole number. -/
def printLong (v : Long) : Sds := (Element.int v).value

theorem getDouble_printLong (v : Long) : longSetting.floats.getDouble (printLong v) = some v := by
  have hparse : getLongLongFromObject (printLong v).1 = some v.1 := getLongLongFromObject_ll2string v.2.1 v.2.2
  show ((getLongLongFromObject (printLong v).1).bind fun v => if h : -2 ^ 63 ≤ v ∧ v < 2 ^ 63 then some (⟨v, h⟩ : Long) else none) = some v
  rw [hparse, bind_some, dif_pos v.2]

theorem length_letter_lt (c : UInt8) : [c].length < 2 ^ 31 := show 1 < 2 ^ 31 by decide

def letter (c : UInt8) : Sds := ⟨[c], length_letter_lt c⟩

theorem longOf_range (v : ℤ) : -2 ^ 63 ≤ v.bmod (2 ^ 64) ∧ v.bmod (2 ^ 64) < 2 ^ 63 := by
  have hlow := @Int.le_bmod v (2 ^ 64) (by decide)
  have hhigh := @Int.bmod_lt v (2 ^ 64) (by decide)
  omega

def longOf (v : ℤ) : Long := ⟨v.bmod (2 ^ 64), longOf_range v⟩

def expiredEntry : Entry Long := ⟨letter 97, .string (.str (letter 98)), some (longOf 1)⟩

theorem expiredEntries_ok : ∀ x ∈ [expiredEntry], x.obj.Ok := by
  intro x hx
  obtain rfl := mem_singleton.1 hx
  trivial

def expiredDb : StoredDb Long := ⟨[expiredEntry], nodup_singleton _, expiredEntries_ok⟩

/-- The key comes back without its time to live. -/
theorem rewriteAppendOnlyFile_expired : ¬ ∃ c d, loadAppendOnlyFile (loadExec longSetting 9) (rewriteAppendOnlyFile printLong 5 [expiredDb])
    (0, fun _ => .empty) = some (c, d) ∧ Restores 5 [expiredDb] d := by
  rintro ⟨c, d, hload, hrestores⟩
  have hkeeps := (hrestores 0 expiredDb rfl expiredEntry mem_cons_self).2 ⟨⟨1, by decide⟩, rfl, by decide⟩
  have hback : (loadAppendOnlyFile (loadExec longSetting 9) (rewriteAppendOnlyFile printLong 5 [expiredDb]) (0, fun _ => .empty)).map
      (fun r => ((r.2 0).dict expiredEntry.key).isSome && ((r.2 0).expires expiredEntry.key).isNone) = some true := by decide
  rw [hload, map_some] at hback
  have hback := Option.some.inj hback
  rw [Bool.and_eq_true, isSome_iff_ne_none, isNone_iff_eq_none] at hback
  exact hkeeps hback

def storedEntries : List (Entry Long) :=
  [⟨letter 97, .zsetZiplist [(.int (longOf 7), longOf 1), (.str (letter 98), longOf (-2))], some (longOf 8)⟩,
    ⟨letter 99, .listLinked [.str (letter 100)], none⟩]

theorem storedEntries_ok : ∀ x ∈ storedEntries, x.obj.Ok := by
  intro x hx
  rcases mem_cons.1 hx with rfl | hx
  · exact ⟨cons_ne_nil _ _, by decide⟩
  · obtain rfl := mem_singleton.1 hx
    exact cons_ne_nil _ _

theorem storedEntries_nodup : (storedEntries.map Entry.key).Nodup := by decide

def storedDb : StoredDb Long := ⟨storedEntries, storedEntries_nodup, storedEntries_ok⟩

theorem rewriteAppendOnlyFile_iff_stored :
    (∃ c d, loadAppendOnlyFile (loadExec longSetting 9) (rewriteAppendOnlyFile printLong 5 [storedDb]) (0, fun _ => .empty) = some (c, d) ∧
        Restores 5 [storedDb] d) ↔ ∀ db ∈ [storedDb], ∀ x ∈ db.entries, ¬ x.Expired 5 :=
  rewriteAppendOnlyFile_iff getDouble_printLong (by decide) (by decide)

end KVStores.Redis
