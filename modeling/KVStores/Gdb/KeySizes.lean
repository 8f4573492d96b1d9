import KVStores.Gdb.Inserts

/-!
# The sizes beside the keys

`keySizes[i]` is `strlen(keys[i]) + 1`, as long as no size changes in a `char` temporary (`btree_insert.c`).
-/

namespace KVStores.Gdb

open List Option

variable (A : Allocator) (tree : BTree) (mode : PmAccessMode) (rd : Bool)

/-- **The condition** on a call of `__addKey` or `__splitNode`: the sizes of the keys behind the new one come through a `char` as they
were, and so does its own behind all keys of a full node. -/
def KeepsSizes (node : BTreeNode) (key : CStr) : Prop :=
  ∀ i, insertIndex key node.keys node.keyCount = some i → matchesAt key node.keys node.keyCount i = some false →
    (∀ j, i ≤ j → j < node.keyCount → charSize (node.keyAt j).keySize = (node.keyAt j).keySize) ∧
      (i = tree.order - 1 → charSize (dupKey key).keySize = (dupKey key).keySize)

/-- The calls that `__insertKey` makes. -/
@[grind =] def KeepsBelow : ℕ → MemStore → Offset → CStr → Offset → Prop
  | 0, _, _, _, _ => True
  | fuel + 1, s, rootOffset, key, filePos => ∀ rootNode, (memStore A).readNode s tree.order rootOffset = some rootNode →
    if rootNode.leaf then KeepsSizes tree rootNode key
    else ∀ i, insertIndex key rootNode.keys rootNode.keyCount = some i →
      KeepsBelow fuel s (rootNode.childAt i) key filePos ∧
        ∀ r, insertKey (memStore A) tree rd fuel s (rootNode.childAt i) key filePos = some r →
          (r.1.success && r.1.split) = true → KeepsSizes tree rootNode r.1.key

/-- The calls of `btreeInsert`, one after the other. -/
@[grind =] def KeepsRun : List InsertCall → MemStore → Prop
  | [], _ => True
  | c :: calls, s =>
    (c.filePos ≠ 0 → mode.writes → ∀ header, (memStore A).readHeader s tree.block = some header →
      KeepsBelow A tree c.replaceDup header.depth s header.root c.key c.filePos) ∧
    ∀ r, btreeInsert (memStore A) tree mode s c.key c.filePos c.replaceDup = some r → KeepsRun calls r.2

structure Sized (order : ℕ) (ks : List SizedKey) (cs : List Offset) : Prop where
  asc : Ascending ks
  fits : ks.length ≤ order - 1
  count : cs.length = ks.length + 1
  sizes : ∀ k ∈ ks, k.str.strlen < 65535 ∧ k.size = k.str.strlen + 1

def SizedNode (order : ℕ) (n : BTreeNode) : Prop := ∃ leaf ks cs, n = packNode order leaf ks cs ∧ Sized order ks cs

def AllSized (order : ℕ) (w : World) : Prop := ∀ o n, w o = some (.btreeNode n) → SizedNode order n

section Node

variable {order : ℕ} {leaf : Bool} {ks : List SizedKey} {cs : List Offset} {key : CStr} {A tree rd}

def withKey (key : CStr) (ks : List SizedKey) : List SizedKey :=
  ks.take (keyPos key ks) ++ SizedKey.dup key :: ks.drop (keyPos key ks)

theorem withKey_length : (withKey key ks).length = ks.length + 1 := by
  simp only [withKey, length_append, length_take, length_cons, length_drop]
  omega

theorem withKey_asc (h : Ascending ks) (hkey : key ∉ ks.map SizedKey.str) : Ascending (withKey key ks) := by
  have hge : ∀ k ∈ ks.drop (keyPos key ks), key < k.str := fun k hk =>
    lt_of_le_of_ne (le_of_mem_drop_keyPos h hk) fun heq => hkey (heq ▸ mem_map_of_mem (mem_of_mem_drop hk))
  refine pairwise_append.mpr ⟨h.sublist (take_sublist _ _), pairwise_cons.mpr ⟨hge, h.sublist (drop_sublist _ _)⟩, fun a ha b hb => ?_⟩
  have hlt : a.str < key := lt_of_mem_take_keyPos ha
  obtain rfl | hb := mem_cons.mp hb
  · exact hlt
  · exact hlt.trans (hge b hb)

theorem withKey_sizes (h : Sized order ks cs) (hkey : key.strlen < 65535) :
    ∀ k ∈ withKey key ks, k.str.strlen < 65535 ∧ k.size = k.str.strlen + 1 := by
  intro k hk
  obtain hk | hk := mem_append.mp hk
  · exact h.sizes k (mem_of_mem_take hk)
  · obtain rfl | hk := mem_cons.mp hk
    · exact ⟨hkey, Nat.mod_eq_of_lt (by omega)⟩
    · exact h.sizes k (mem_of_mem_drop hk)

theorem KeepsSizes.kept (hc : KeepsSizes tree (packNode order leaf ks cs) key) (hs : Ascending ks) (hkey : key ∉ ks.map SizedKey.str) :
    insertKeys key ks = withKey key ks ∧ (ks.length = tree.order - 1 → overflowKeys key ks = withKey key ks) := by
  obtain ⟨hshift, hlast⟩ := hc (keyPos key ks) (insertIndex_pack key order leaf ks cs)
    (by rw [packNode_keyCount, matchesAt_pack key hs, decide_eq_false hkey])
  have hdrop : (ks.drop (keyPos key ks)).map SizedKey.viaTemp = ks.drop (keyPos key ks) := by
    refine (map_congr_left fun k hk => ?_).trans (List.map_id _)
    obtain ⟨j, hj, rfl⟩ := mem_drop_iff_getElem.mp hk
    rw [Nat.add_comm] at hj
    have hsize := hshift (keyPos key ks + j) (Nat.le_add_right _ _) hj
    rw [keyAt_pack _ _ _ _ hj] at hsize
    exact congrArg (SizedKey.mk _) hsize
  have hinsert : insertKeys key ks = withKey key ks := by rw [insertKeys, withKey, hdrop]
  refine ⟨hinsert, fun hfull => ?_⟩
  have hle := keyPos_le key ks
  unfold overflowKeys
  split_ifs with hlt
  · exact hinsert
  · have hp : keyPos key ks = ks.length := by omega
    rw [withKey, hp, take_length, drop_length]
    exact congrArg (fun k => ks ++ [k]) (congrArg (SizedKey.mk key) (hlast (hp.trans hfull)))

theorem SizedNode.setChild {n : BTreeNode} (h : SizedNode order n) {i : ℕ} (hi : i ≤ n.keyCount) (o : Offset) :
    SizedNode order (n.setChild i o) := by
  obtain ⟨leaf, ks, cs, rfl, hs⟩ := h
  exact ⟨leaf, ks, cs.set i o, packNode_setChild ks cs o (by have := hs.count; simp only [packNode_keyCount] at hi; omega),
    hs.asc, hs.fits, (length_set ..).trans hs.count, hs.sizes⟩

theorem addKey_sized (h : Sized tree.order ks cs) (hroom : ks.length < tree.order - 1)
    (hc : KeepsSizes tree (packNode tree.order leaf ks cs) key) (hkey : key.strlen < 65535) (filePos : Offset) (replaceDup : Bool) :
    Meets True (addKey (packNode tree.order leaf ks cs) key filePos replaceDup) fun r => ∀ n ∈ r.2, SizedNode tree.order n := by
  by_cases hm : key ∈ ks.map SizedKey.str
  · rw [addKey_pack_dup h.asc hm (by have := h.count; omega)]
    intro n hn
    split_ifs at hn
    · obtain rfl := Option.some.inj hn
      exact ⟨leaf, ks, _, rfl, h.asc, h.fits, (length_set ..).trans h.count, h.sizes⟩
    · cases hn
  · rw [addKey_pack_new h.asc hroom h.count hm, (hc.kept h.asc hm).1]
    intro n hn
    obtain rfl := Option.some.inj hn
    refine ⟨leaf, _, _, rfl, withKey_asc h.asc hm, withKey_length.trans_le (by omega), ?_, withKey_sizes h hkey⟩
    rw [withKey_length, length_append, length_take, length_cons, length_drop, h.count]
    omega

theorem Sized.part (h : Sized order ks cs) (hm : key ∉ ks.map SizedKey.str) (hkey : key.strlen < 65535) (leaf : Bool)
    {P : List SizedKey} {Q : List Offset} (hP : P.Sublist (withKey key ks)) (hfits : P.length ≤ order - 1) (hQ : Q.length = P.length + 1) :
    SizedNode order (packNode order leaf P Q) :=
  ⟨leaf, P, Q, rfl, (withKey_asc h.asc hm).sublist hP, hfits, hQ, fun k hk => withKey_sizes h hkey k (hP.subset hk)⟩

theorem split_sized (h : Sized tree.order ks cs) (hfull : ks.length = tree.order - 1) (h3 : 3 ≤ tree.order)
    (hc : KeepsSizes tree (packNode tree.order leaf ks cs) key) (hm : key ∉ ks.map SizedKey.str) (hkey : key.strlen < 65535)
    (filePos : Offset) : Meets True (splitDivide tree.order leaf
      (splitInsert tree.order (packNode tree.order leaf ks cs) key filePos (keyPos key ks))) fun r => r.1.strlen < 65535 ∧
        SizedNode tree.order r.2.2 ∧ ∀ o, SizedNode tree.order (if leaf then r.2.1.setChild r.2.1.keyCount o else r.2.1) := by
  have hlen : (withKey key ks).length = _ := withKey_length
  have hlt := splitPoint_lt h3 leaf
  have hp : splitPoint tree.order leaf < (withKey key ks).length := by omega
  obtain ⟨X, x, M, hL, hX⟩ : ∃ X x M, withKey key ks = X ++ x :: M ∧ X.length = splitPoint tree.order leaf :=
    ⟨_, _, _, by rw [← drop_eq_getElem_cons hp, take_append_drop], length_take_of_le hp.le⟩
  have hclen : (overflowChildren leaf key ks cs filePos).length = tree.order + 1 := by
    rw [overflowChildren, length_append, length_take, length_cons, length_drop, h.count]
    omega
  obtain ⟨Y, Y', hY, hYl⟩ : ∃ Y Y', overflowChildren leaf key ks cs filePos = Y ++ Y' ∧ Y.length = X.length + 1 :=
    ⟨_, _, (take_append_drop _ _).symm, length_take_of_le (by omega)⟩
  rw [split_pack h3 hfull (h.count.trans (by omega)) (((hc.kept h.asc hm).2 hfull).trans hL) hX hY hYl]
  rw [hY, length_append] at hclen
  rw [hL, length_append, length_cons] at hlen
  refine ⟨(withKey_sizes h hkey x (hL ▸ mem_append_right _ mem_cons_self)).1, ?_, fun o => ?_⟩
  · exact h.part hm hkey leaf (hL ▸ (sublist_cons_self x M).trans (sublist_append_right X _)) (by omega) (by omega)
  · cases leaf with
    | true =>
      have hend := packNode_setChild_end tree.order true (X ++ [x]) (show Y.length < tree.order by omega) o
      rw [hYl] at hend
      simp only [if_true, packNode_keyCount, length_append, length_singleton, hend]
      refine h.part hm hkey true (hL ▸ ?_) (by simp; omega) (by simp [hYl])
      exact (append_sublist_append_left X).mpr (singleton_sublist.mpr mem_cons_self)
    | false => exact h.part hm hkey false (hL ▸ sublist_append_left X _) (show X.length ≤ _ by omega) hYl

end Node

section Calls

variable {A tree mode rd} {s : MemStore} {key : CStr} {n : BTreeNode} {order : ℕ} {w : World}

theorem AllSized.put {b : Block} (h : AllSized order w) (hb : ∀ n, b = .btreeNode n → SizedNode order n) (o : Offset) :
    AllSized order (w.put o b) := by
  intro p n hp
  obtain rfl | hne := eq_or_ne p o
  · rw [World.put_self] at hp
    exact hb n (Option.some.inj hp)
  · rw [World.put_of_ne _ _ hne] at hp
    exact h p n hp

theorem AllSized.node (h : AllSized order w) (hn : SizedNode order n) (o : Offset) : AllSized order (w.put o (.btreeNode n)) :=
  h.put (fun _ heq => Block.btreeNode.inj heq ▸ hn) o

theorem AllSized.setHeader (h : AllSized order s.content) (o : Offset) (f : BTreeHeader → BTreeHeader) :
    Meets True (s.setHeader o f) fun s => AllSized order s.content := by
  rw [MemStore.setHeader, meets_map]
  cases s.header? o with
  | none => trivial
  | some header => exact h.put (fun n heq => by cases heq) o

theorem AllSized.read {o : ℕ} (h : AllSized order s.content) : Meets True ((memStore A).readNode s order o) fun n =>
    (memStore A).readNode s order o = some n ∧ SizedNode order n := by
  simp only [memStore, MemStore.node?]
  split
  · exact ⟨rfl, h o _ ‹_›⟩
  · trivial

theorem addOrSplit_sized (h3 : 3 ≤ tree.order) (h : AllSized tree.order s.content) (hn : SizedNode tree.order n) (hc : KeepsSizes tree n key)
    (hkey : key.strlen < 65535) (o filePos : Offset) : Meets True (addOrSplit (memStore A) tree s o n key filePos rd) fun r =>
      AllSized tree.order r.2.content ∧ r.1.key.strlen < 65535 := by
  obtain ⟨leaf, ks, cs, rfl, hs⟩ := hn
  unfold addOrSplit
  split_ifs with hroom
  · refine (addKey_sized hs hroom hc hkey filePos rd).bind ?_
    rintro ⟨success, written⟩ hw
    cases written with
    | none => exact ⟨h, hkey⟩
    | some n => exact ⟨h.node (hw n rfl) o, hkey⟩
  · have hfull : ks.length = tree.order - 1 := le_antisymm hs.fits (not_lt.mp hroom)
    rw [splitNode, ← hfull]
    refine Meets.bind_eq (insertIndex_pack key tree.order leaf ks cs) ?_
    refine Meets.bind_eq (matchesAt_pack key hs.asc tree.order leaf cs) ?_
    by_cases hm : key ∈ ks.map SizedKey.str
    · simp only [hm, decide_true, if_true]
      split_ifs
      · exact ⟨h.node (SizedNode.setChild ⟨leaf, ks, cs, rfl, hs⟩ (keyPos_le key ks) filePos) o, hkey⟩
      · exact ⟨h, hkey⟩
    · simp only [hm, decide_false, Bool.false_eq_true, if_false]
      refine (split_sized hs hfull h3 hc hm hkey filePos).bind ?_
      rintro ⟨promoted, left, right⟩ ⟨hpromoted, hright, hleft⟩
      exact ⟨(h.node hright _).node (hleft _) o, hpromoted⟩

theorem insertKey_sized (h3 : 3 ≤ tree.order) (filePos : Offset) : ∀ (fuel : ℕ) (s : MemStore) (o : Offset), AllSized tree.order s.content →
    KeepsBelow A tree rd fuel s o key filePos → key.strlen < 65535 →
      Meets True (insertKey (memStore A) tree rd fuel s o key filePos) fun r => AllSized tree.order r.2.content ∧ r.1.key.strlen < 65535 := by
  intro fuel
  induction fuel with
  | zero => exact fun _ _ _ _ _ => trivial
  | succ fuel ih =>
    intro s o h hc hkey
    rw [insertKey]
    split_ifs
    · trivial
    refine h.read.bind ?_
    rintro n ⟨hread, hn⟩
    have hc := hc n hread
    split_ifs with hleaf
    · rw [if_pos hleaf] at hc
      exact addOrSplit_sized h3 h hn hc hkey o filePos
    · rw [if_neg hleaf] at hc
      cases hi : insertIndex key n.keys n.keyCount with
      | none => trivial
      | some i =>
        obtain ⟨hbelow, hhere⟩ := hc i hi
        have hchild := ih s (n.childAt i) h hbelow hkey
        refine Meets.bind_eq rfl ?_
        cases hr : insertKey (memStore A) tree rd fuel s (n.childAt i) key filePos with
        | none => trivial
        | some r =>
          obtain ⟨hall, hlen⟩ := hchild.of_eq hr
          refine Meets.bind_eq rfl ?_
          dsimp only
          split_ifs with hsplit
          · exact (addOrSplit_sized h3 hall hn (hhere r hr hsplit) hlen o r.1.filePos).bind fun q hq => hq
          · exact ⟨hall, hlen⟩

theorem newRoot_sized (h3 : 3 ≤ tree.order) (hkey : key.strlen < 65535) (root filePos : Offset) :
    SizedNode tree.order (newRoot tree root key filePos) := by
  have hone : ∀ cs : List Offset, cs.length = 2 → Sized tree.order [SizedKey.dup key] cs := fun cs hcs =>
    ⟨pairwise_singleton _ _, by simp; omega, hcs, fun k hk => by
      rw [mem_singleton.mp hk]
      exact ⟨hkey, Nat.mod_eq_of_lt (by omega)⟩⟩
  obtain rfl | hroot := eq_or_ne root 0
  · exact ⟨true, _, _, newRoot_leaf h3 key filePos 0, hone _ rfl⟩
  · exact ⟨false, _, _, newRoot_inner h3 key hroot, hone _ rfl⟩

theorem btreeInsert_sized (mode : PmAccessMode) (h3 : 3 ≤ tree.order) (h : AllSized tree.order s.content) (hkey : key.strlen < 65535) (filePos : Offset)
    (hc : filePos ≠ 0 → mode.writes → ∀ header, (memStore A).readHeader s tree.block = some header →
      KeepsBelow A tree rd header.depth s header.root key filePos) :
    Meets True (btreeInsert (memStore A) tree mode s key filePos rd) fun r => AllSized tree.order r.2.content := by
  unfold btreeInsert
  split_ifs with hno htest
  · exact h
  · cases hsearch : btreeSearch (memStore A) tree s key with
    | none => exact trivial
    | some v =>
      refine Meets.bind_eq rfl ?_
      split_ifs <;> exact h
  · rw [insertEntry]
    cases hheader : (memStore A).readHeader s tree.block with
    | none => trivial
    | some header =>
      refine Meets.bind_eq rfl ?_
      extract_lets rest
      have hrest : ∀ r, AllSized tree.order r.2.content → r.1.key.strlen < 65535 → Meets True (rest r) fun r => AllSized tree.order r.2.content := by
        rintro ⟨r, s⟩ h hlen
        simp only [rest]
        split_ifs
        · exact h
        · exact h
        · refine (h.setHeader _ _).bind fun s h => Meets.bind_eq rfl ?_
          exact ((h.node (newRoot_sized h3 hlen header.root r.filePos) _).setHeader _ _).bind fun s h => (h.setHeader _ _).bind fun s h => h
        · refine (h.setHeader _ _).bind fun s h => Meets.bind_eq rfl (Meets.bind_eq rfl ?_)
          exact ((h.node (newRoot_sized h3 hlen header.root r.filePos) _).setHeader _ _).bind fun s h => h
        · exact (h.setHeader _ _).bind fun s h => h
      split_ifs
      · exact (insertKey_sized h3 filePos _ s header.root h
          (hc (not_or.mp hno).1 ⟨(not_or.mp hno).2, htest⟩ header hheader) hkey).bind fun r hr => hrest r hr.1 hr.2
      · exact hrest (⟨true, false, key, filePos⟩, s) h hkey

variable {calls : List InsertCall} {s' : MemStore}

theorem insertAll_sized (h3 : 3 ≤ tree.order) (h : AllSized tree.order s.content) (hkeys : ∀ c ∈ calls, c.key.strlen < 65535)
    (hkeep : KeepsRun A tree mode calls s) : Meets True (insertAll (memStore A) tree mode calls s) fun s => AllSized tree.order s.content := by
  induction calls generalizing s with
  | nil => exact h
  | cons c calls ih =>
    have hone := btreeInsert_sized mode h3 h (hkeys c mem_cons_self) c.filePos hkeep.1
    cases hr : btreeInsert (memStore A) tree mode s c.key c.filePos c.replaceDup with
    | none =>
      rw [insertAll, hr]
      trivial
    | some r =>
      rw [insertAll, hr]
      exact ih (hone.of_eq hr) (fun d hd => hkeys d (mem_cons_of_mem _ hd)) (hkeep.2 r hr)

end Calls

end KVStores.Gdb
