import KVStores.Gdb.Search

/-!
# What `__insertKey` does to a tree

* `insertKey_absent`: **a key the tree does not hold** leaves one subtree or two with a
  separator, which hold the old entries and the new one in order (`Inserted`).
-/

namespace KVStores.Gdb

open List Function

variable {σ : Type} {S : NodeStore σ} {F : Prop} {KeyOk : KeySlot → Prop} {Abs : σ → World → Prop}
  {tree : BTree} {s : σ} {w : World}

variable {A B : List SizedKey} {key : CStr}

theorem keyPos_append (hA : ∀ k ∈ A, k.str < key) (hB : ∀ k ∈ B, key ≤ k.str) : keyPos key (A ++ B) = A.length := by
  unfold keyPos
  rw [takeWhile_append_of_pos (by simpa using hA)]
  cases B with
  | nil => simp
  | cons b B =>
    have := hB b mem_cons_self
    simp [this]

def SizedKey.over (key : CStr) (B : List SizedKey) : SizedKey := if B = [] then (dup key).viaTemp else dup key

@[simp] theorem SizedKey.over_str (key : CStr) (B : List SizedKey) : (SizedKey.over key B).str = key := by
  unfold SizedKey.over; split <;> rfl

theorem insertKeys_append (h : keyPos key (A ++ B) = A.length) :
    insertKeys key (A ++ B) = A ++ SizedKey.dup key :: B.map SizedKey.viaTemp := by
  rw [insertKeys, h, take_left' rfl, drop_left' rfl]

theorem overflowKeys_append (h : keyPos key (A ++ B) = A.length) :
    overflowKeys key (A ++ B) = A ++ SizedKey.over key B :: B.map SizedKey.viaTemp := by
  unfold overflowKeys SizedKey.over
  rw [h]
  cases B with
  | nil => simp
  | cons b B => rw [if_pos (by simp), insertKeys_append h]; simp

variable {leaf : Bool}

theorem childPos_append (h : keyPos key (A ++ B) = A.length) :
    childPos leaf key (A ++ B) = if leaf then A.length else A.length + 1 := by rw [childPos, h]

variable {ks X M : List SizedKey} {cs Y Y' : List Offset} {x : SizedKey} {v : Offset}

/-- **A full node is split** around the key at the split point. -/
theorem split_pack {order : ℕ} (ho : 3 ≤ order) (hfull : ks.length = order - 1) (hcs : cs.length = order)
    (hX : overflowKeys key ks = X ++ x :: M) (hXl : X.length = splitPoint order leaf)
    (hY : overflowChildren leaf key ks cs v = Y ++ Y') (hYl : Y.length = X.length + 1) :
    splitDivide order leaf (splitInsert order (packNode order leaf ks cs) key v (keyPos key ks)) =
      some (x.str, packNode order leaf (if leaf then X ++ [x] else X) Y, packNode order leaf M Y') := by
  have hlt := splitPoint_lt ho leaf
  have hlen : ks.length + 1 = X.length + (M.length + 1) := by
    have := congrArg List.length hX
    simpa using this
  have hclen : cs.length + 1 = Y.length + Y'.length := by
    have := congrArg List.length hY
    simp only [overflowChildren, length_append, length_take, length_cons, length_drop] at this
    omega
  obtain ⟨M, kl, rfl, hM⟩ := exists_concat (l := M) (n := order - 2 - X.length) (by omega)
  obtain ⟨Y', cl, rfl, hY'⟩ := exists_concat (l := Y') (n := M.length + 1) (by simp at hlen hclen; omega)
  obtain ⟨Y', c, rfl, hY''⟩ := exists_concat hY'
  rw [splitInsert_pack hfull (by omega) hcs v
      (show overflowKeys key ks = (X ++ x :: M) ++ [kl] by rw [hX]; simp)
      (show overflowChildren leaf key ks cs v = (Y ++ (Y' ++ [c])) ++ [cl] by rw [hY]; simp),
    splitDivide_pack hXl (by rw [hYl, hXl]) (by omega) hY'']
  simp

section Node

variable {leaf : Bool} {A B : List SizedKey} {C C' : List Offset} {key : CStr} {v o : Offset}

/-- An entry whose key a node does not hold goes between the smaller and the larger keys. -/
structure NewEntry (order : ℕ) (leaf : Bool) (A B : List SizedKey) (C C' : List Offset) (key : CStr) : Prop where
  lt : ∀ k ∈ A, k.str < key
  gt : ∀ k ∈ B, key < k.str
  asc : Ascending (A ++ B)
  fits : (A ++ B).length ≤ order - 1
  count : (C ++ C').length = (A ++ B).length + 1
  pos : C.length = if leaf then A.length else A.length + 1

namespace NewEntry

variable {order : ℕ}

theorem keyPos (h : NewEntry order leaf A B C C' key) : KVStores.Gdb.keyPos key (A ++ B) = A.length :=
  keyPos_append h.lt fun k hk => (h.gt k hk).le

theorem notMem (h : NewEntry order leaf A B C C' key) : key ∉ (A ++ B).map SizedKey.str := by
  intro hm
  obtain ⟨k, hk, he⟩ := List.mem_map.1 hm
  rcases mem_append.1 hk with hk | hk
  · exact lt_irrefl _ (he ▸ h.lt k hk)
  · exact lt_irrefl _ (he ▸ h.gt k hk)

theorem take_drop (h : NewEntry order leaf A B C C' key) :
    (C ++ C').take (childPos leaf key (A ++ B)) = C ∧ (C ++ C').drop (childPos leaf key (A ++ B)) = C' := by
  rw [childPos_append h.keyPos, ← h.pos]
  exact ⟨take_left' rfl, drop_left' rfl⟩

end NewEntry

theorem NodeStore.Lawful.keyOk_insert (hS : S.Lawful F KeyOk Abs) {nk : SizedKey}
    (hk : ∀ k ∈ A ++ B, KeyOk k.slot) (hnk : KeyOk nk.slot) :
    ∀ k ∈ A ++ nk :: B.map SizedKey.viaTemp, KeyOk k.slot := by
  intro k hm
  rcases mem_append.1 hm with hm | hm
  · exact hk k (mem_append_left _ hm)
  · rcases mem_cons.1 hm with rfl | hm
    · exact hnk
    · obtain ⟨k', hk', rfl⟩ := List.mem_map.1 hm
      exact hS.keyOk_viaTemp (hk k' (mem_append_right _ hk'))

theorem NodeStore.Lawful.keyOk_over (hS : S.Lawful F KeyOk Abs) (h : KeyOk (dupKey key)) (B : List SizedKey) :
    KeyOk (SizedKey.over key B).slot := by
  unfold SizedKey.over
  split
  · exact hS.keyOk_viaTemp h
  · exact h

theorem addOrSplit_room (hS : S.Lawful F KeyOk Abs) (ha : Abs s w)
    (he : NewEntry tree.order leaf A B C C' key) (hroom : (A ++ B).length < tree.order - 1)
    (hnode : w o = some (.btreeNode (packNode tree.order leaf (A ++ B) (C ++ C'))))
    (hk : ∀ k ∈ A ++ B, KeyOk k.slot) (hkey : KeyOk (dupKey key)) (v : Offset) (rd : Bool) :
    Meets F (addOrSplit S tree s o (packNode tree.order leaf (A ++ B) (C ++ C')) key v rd) fun r =>
      r.1 = ⟨true, false, key, v⟩ ∧ Abs r.2 (w.put o (.btreeNode
        (packNode tree.order leaf (A ++ SizedKey.dup key :: B.map SizedKey.viaTemp) (C ++ v :: C')))) := by
  have hadd : addKey (packNode tree.order leaf (A ++ B) (C ++ C')) key v rd = _ :=
    addKey_pack_new he.asc hroom he.count he.notMem v rd
  rw [insertKeys_append he.keyPos, he.take_drop.1, he.take_drop.2] at hadd
  rw [addOrSplit, if_pos (by simpa using hroom)]
  refine Meets.bind_eq hadd ?_
  refine Meets.bind (hS.writeNode ha hnode ?_) fun s' hs' => Meets.pure ⟨rfl, hs'⟩
  exact nodeOk_pack.2 (hS.keyOk_insert hk hkey)

theorem addOrSplit_full (hS : S.Lawful F KeyOk Abs) (ha : Abs s w) (ho : 3 ≤ tree.order)
    (he : NewEntry tree.order leaf A B C C' key) (hfull : (A ++ B).length = tree.order - 1)
    (hnode : w o = some (.btreeNode (packNode tree.order leaf (A ++ B) (C ++ C'))))
    (hk : ∀ k ∈ A ++ B, KeyOk k.slot) (hkey : KeyOk (dupKey key)) (rd : Bool)
    (hX : A ++ SizedKey.over key B :: B.map SizedKey.viaTemp = X ++ x :: M)
    (hXl : X.length = splitPoint tree.order leaf) (hY : C ++ v :: C' = Y ++ Y') (hYl : Y.length = X.length + 1) :
    Meets F (addOrSplit S tree s o (packNode tree.order leaf (A ++ B) (C ++ C')) key v rd) fun r =>
      ∃ o2, r.1 = ⟨true, true, x.str, o2⟩ ∧ dbHeaderBlockSize ≤ o2 ∧ w o2 = none ∧
        Abs r.2 ((w.put o2 (.btreeNode (packNode tree.order leaf M Y'))).put o (.btreeNode
          (if leaf then packNode tree.order true (X ++ [x]) (Y ++ [o2]) else packNode tree.order false X Y))) := by
  have h1 := insertIndex_pack key tree.order leaf (A ++ B) (C ++ C')
  have h2 := matchesAt_pack key he.asc tree.order leaf (C ++ C')
  have hsp := split_pack ho hfull (show (C ++ C').length = tree.order by rw [he.count, hfull]; omega)
    (show overflowKeys key (A ++ B) = X ++ x :: M by rw [overflowKeys_append he.keyPos, hX]) hXl
    (show overflowChildren leaf key (A ++ B) (C ++ C') v = Y ++ Y' by
      rw [overflowChildren, he.take_drop.1, he.take_drop.2, hY]) hYl
  have hok := hS.keyOk_insert hk (hS.keyOk_over hkey B)
  rw [hX] at hok
  rw [hfull] at h1 h2
  have hlt := splitPoint_lt ho leaf
  rw [addOrSplit, if_neg (by simp at hfull ⊢; omega), splitNode]
  refine Meets.bind_eq h1 ?_
  refine Meets.bind_eq h2 ?_
  rw [if_neg (by simpa using he.notMem)]
  refine Meets.bind_eq hsp ?_
  refine Meets.bind (hS.newNode ha (nodeOk_pack.2 fun k hkM => hok k (by simp [hkM]))) ?_
  rintro ⟨o2, s2⟩ ⟨ho2, hnew, ha2⟩
  have hoo : o ≠ o2 := fun e => by rw [e, hnew] at hnode; cases hnode
  have hlive2 : w.put o2 (.btreeNode (packNode tree.order leaf M Y')) o =
      some (.btreeNode (packNode tree.order leaf (A ++ B) (C ++ C'))) := by rw [World.put_of_ne _ _ hoo, hnode]
  have hleft : (if (packNode tree.order leaf (A ++ B) (C ++ C')).leaf then
      (packNode tree.order leaf (if leaf then X ++ [x] else X) Y).setChild
        (packNode tree.order leaf (if leaf then X ++ [x] else X) Y).keyCount o2
      else packNode tree.order leaf (if leaf then X ++ [x] else X) Y) =
      if leaf then packNode tree.order true (X ++ [x]) (Y ++ [o2]) else packNode tree.order false X Y := by
    cases leaf with
    | false => rfl
    | true =>
      have := packNode_setChild_end tree.order true (X ++ [x]) (show Y.length < tree.order by omega) o2
      simpa [hYl, packNode] using this
  simp only [hleft]
  refine Meets.bind (hS.writeNode ha2 hlive2 ?_) fun s' hs' => Meets.pure ⟨o2, rfl, ho2, hnew, hs'⟩
  cases leaf with
  | false => exact nodeOk_pack.2 fun k hkX => hok k (mem_append_left _ hkX)
  | true =>
    refine nodeOk_pack.2 fun k hkX => hok k ?_
    rcases mem_append.1 hkX with h | h
    · exact mem_append_left _ h
    · rw [mem_singleton.1 h]
      exact mem_append_right _ mem_cons_self

end Node

variable {a b : List Item}

theorem ordered_insert {e : Item} (h : Ordered (a ++ b)) (ha : ∀ i ∈ a, i.lt e) (hb : ∀ i ∈ b, e.lt i) : Ordered (a ++ e :: b) := by
  obtain ⟨h1, h2, h3⟩ := ordered_append.1 h
  refine ordered_append.2 ⟨h1, pairwise_cons.2 ⟨hb, h2⟩, fun i hi j hj => ?_⟩
  rcases mem_cons.1 hj with rfl | hj
  · exact ha i hi
  · exact h3 i hi j hj

variable {u : Offset}

theorem ordered_sep {x : CStr} (h : Ordered (a ++ .entry x u :: b))
    (hb : ∀ i ∈ b, x < i.key) : Ordered (a ++ .entry x u :: .sep x :: b) := by
  have := ordered_insert (a := a ++ [.entry x u]) (b := b) (e := .sep x) (by simpa using h) ?_
    (fun i hi => Item.sep_lt.2 (hb i hi))
  · simpa using this
  · intro i hi
    rcases mem_append.1 hi with hi | hi
    · have hlt := (ordered_append.1 h).2.2 i hi _ mem_cons_self
      cases i with
      | entry k v => exact le_of_lt (Item.entry_lt_entry.1 hlt)
      | sep k => exact Item.sep_lt.2 (Item.sep_lt.1 hlt)
    · rw [mem_singleton.1 hi]
      exact le_refl x

/-- `l'` holds the entries of `l` and a new one, and is ordered wherever `l` is. -/
structure FlatInsert (key : CStr) (v : Offset) (l l' : List Item) : Prop where
  entries : ∃ A B, entriesOf l = A ++ B ∧ entriesOf l' = A ++ (key, v) :: B
  ordered : ∀ pre post, Ordered (pre ++ (l ++ post)) → (∀ i ∈ pre, i.key < key) →
    (∀ i ∈ post, (Item.entry key v).lt i) → Ordered (pre ++ (l' ++ post))

theorem FlatInsert.context {l l' : List Item} (h : FlatInsert key v l l')
    (ha : ∀ i ∈ a, i.key < key) (hb : ∀ i ∈ b, (Item.entry key v).lt i) : FlatInsert key v (a ++ (l ++ b)) (a ++ (l' ++ b)) where
  entries := by
    obtain ⟨A, B, h1, h2⟩ := h.entries
    exact ⟨entriesOf a ++ A, B ++ entriesOf b, by simp [h1], by simp [h2]⟩
  ordered pre post ho hpre hpost := by
    have := h.ordered (pre ++ a) (b ++ post) (by simpa using ho)
      (fun i hi => (mem_append.1 hi).elim (hpre i) (ha i))
      (fun i hi => (mem_append.1 hi).elim (hb i) (hpost i))
    simpa using this

def bump {α : Type} (e : SizedKey × α) : SizedKey × α := (e.1.viaTemp, e.2)

variable {α : Type}

@[simp] theorem bump_snd (e : SizedKey × α) : (bump e).2 = e.2 := rfl
@[simp] theorem bump_fst (e : SizedKey × α) : (bump e).1 = e.1.viaTemp := rfl

theorem map_fst_bump (l : List (SizedKey × α)) : (l.map bump).map Prod.fst = (l.map Prod.fst).map SizedKey.viaTemp := by simp [comp_def]

theorem map_snd_bump (l : List (SizedKey × α)) : (l.map bump).map Prod.snd = l.map Prod.snd := by
  simp [comp_def]

theorem rightFlat_bump {τ : Type} (f : τ → List Item) (R : List (SizedKey × τ)) :
    Spine.rightFlat f (R.map bump) = Spine.rightFlat f R := by
  simp [Spine.rightFlat, flatMap_map]

/-- What inserting a new entry makes of the tree `t`: the subtrees `m`, one or two. -/
structure Inserted (order : ℕ) (KeyOk : KeySlot → Prop) (w w' : World) (key : CStr) (v : Offset) {h : ℕ}
    (t : Tree h) (r : InsertResult) (m : Spine (Tree h)) : Prop where
  graft : Graft order KeyOk w w' (Spine.single t) m
  off : m.first.off = t.off
  success : r.success = true
  shape : (m = Spine.single m.first ∧ r.split = false ∧ t.count ≤ m.first.count) ∨
    ∃ k u, m = Spine.pair m.first k u ∧ r = ⟨true, true, k.str, u.off⟩ ∧ KeyOk (dupKey k.str) ∧
      Tree.minCount order h ≤ m.first.count ∧ Tree.minCount order h ≤ u.count
  sound : ∀ u ∈ m.kids, u.Sound order
  flat : FlatInsert key v t.flat (m.flat Tree.flat)

theorem splitPoint_leaf (order : ℕ) : splitPoint order true = (order + 1) / 2 - 1 := rfl
theorem splitPoint_inner (order : ℕ) : splitPoint order false = order / 2 := rfl

section Leaf

variable {l : Leaf} {key : CStr} {v : Offset}

def itemsOf (E : List (SizedKey × Offset)) : List Item := E.map fun e => .entry e.1.str e.2

@[simp] theorem itemsOf_append (E E' : List (SizedKey × Offset)) : itemsOf (E ++ E') = itemsOf E ++ itemsOf E' :=
  map_append

@[simp] theorem itemsOf_cons (e : SizedKey × Offset) (E : List (SizedKey × Offset)) :
    itemsOf (e :: E) = .entry e.1.str e.2 :: itemsOf E := rfl

@[simp] theorem itemsOf_nil : itemsOf [] = [] := rfl

@[simp] theorem itemsOf_bump (E : List (SizedKey × Offset)) : itemsOf (E.map bump) = itemsOf E := by
  simp [itemsOf, comp_def]

theorem Tree.flat_leaf_items (l : Leaf) : (Tree.leaf l).flat = itemsOf l.entries := rfl

theorem mem_itemsOf {E : List (SizedKey × Offset)} {i : Item} (h : i ∈ itemsOf E) :
    ∃ e ∈ E, i = .entry e.1.str e.2 := by
  obtain ⟨e, he, rfl⟩ := List.mem_map.1 h
  exact ⟨e, he, rfl⟩

theorem flatInsert_items {E E' : List (SizedKey × Offset)} {nk : SizedKey} (hnk : nk.str = key)
    (hlt : ∀ e ∈ E, e.1.str < key) (hgt : ∀ e ∈ E', key < e.1.str) :
    FlatInsert key v (itemsOf (E ++ E')) (itemsOf (E ++ (nk, v) :: E'.map bump)) where
  entries := ⟨entriesOf (itemsOf E), entriesOf (itemsOf E'), by simp, by simp [hnk]⟩
  ordered pre post ho hpre hpost := by
    have := ordered_insert (a := pre ++ itemsOf E) (b := itemsOf E' ++ post) (e := .entry key v)
      (by simpa using ho) ?_ ?_
    · simpa [hnk] using this
    · intro i hi
      rcases mem_append.1 hi with hi | hi
      · exact Item.lt_entry.2 (hpre i hi)
      · obtain ⟨e, he, rfl⟩ := mem_itemsOf hi
        exact hlt e he
    · intro i hi
      rcases mem_append.1 hi with hi | hi
      · obtain ⟨e, he, rfl⟩ := mem_itemsOf hi
        exact hgt e he
      · exact hpost i hi

theorem FlatInsert.sep {l : List Item} {Y Z : List (SizedKey × Offset)} (hZ : Z ≠ [])
    (h : FlatInsert key v l (itemsOf (Y ++ (x, u) :: Z))) : FlatInsert key v l (itemsOf (Y ++ [(x, u)]) ++ .sep x.str :: itemsOf Z) where
  entries := by
    obtain ⟨A, B, h1, h2⟩ := h.entries
    exact ⟨A, B, h1, by rw [← h2]; simp⟩
  ordered pre post ho hpre hpost := by
    have ho' := h.ordered pre post ho hpre hpost
    have := ordered_sep (a := pre ++ itemsOf Y) (b := itemsOf Z ++ post) (x := x.str) (u := u)
      (by simpa using ho') ?_
    · simpa using this
    · obtain ⟨z, Z, rfl⟩ := exists_cons_of_ne_nil hZ
      have ho' : Ordered ((pre ++ itemsOf Y) ++ .entry x.str u :: .entry z.1.str z.2 :: (itemsOf Z ++ post)) := by
        simpa using ho'
      have ht := (ordered_append.1 ho').2.1
      obtain ⟨hx, ht⟩ := pairwise_cons.1 ht
      have hxz : x.str < z.1.str := hx _ mem_cons_self
      intro i hi
      rcases mem_cons.1 (show i ∈ .entry z.1.str z.2 :: (itemsOf Z ++ post) by simpa using hi) with rfl | hi
      · exact hxz
      · exact lt_of_lt_of_le hxz (Item.key_le_of_lt ((pairwise_cons.1 ht).1 i hi))

/-- **A new entry in a leaf.** -/
theorem insert_leaf (hS : S.Lawful F KeyOk Abs) (ha : Abs s w) (ho : 3 ≤ tree.order)
    (hn : NodesIn KeyOk w ((Tree.leaf l).nodes tree.order)) (hord : Ordered (Tree.leaf l).flat)
    (hs : (Tree.leaf l).Sound tree.order) (habs : ∀ v, Item.entry key v ∉ (Tree.leaf l).flat)
    (hkey : KeyOk (dupKey key)) (v : Offset) (rd : Bool) :
    Meets F (addOrSplit S tree s l.off (l.node tree.order) key v rd) fun r =>
      ∃ w' m, Abs r.2 w' ∧ Inserted tree.order KeyOk w w' key v (Tree.leaf l) r.1 m := by
  rw [Tree.nodes_leaf] at hn
  obtain ⟨⟨hoff, hlive, hok⟩, -⟩ := nodesIn_cons.1 hn
  obtain ⟨E, E', hE, -, hlt, hle⟩ := Leaf.exists_cut hord key
  have hgt : ∀ e ∈ E', key < e.1.str := fun e he => lt_of_le_of_ne (hle e he) fun heq =>
    habs e.2 (Leaf.mem_flat.2 ⟨e.1, by simp [hE, he], heq.symm⟩)
  have hnode : l.node tree.order = packNode tree.order true (E.map Prod.fst ++ E'.map Prod.fst)
      (E.map Prod.snd ++ (E'.map Prod.snd ++ [l.next])) := by simp [Leaf.node, hE]
  have hasc := Leaf.ascending hord
  rw [hE, map_append] at hasc
  have hk : ∀ k ∈ E.map Prod.fst ++ E'.map Prod.fst, KeyOk k.slot := by
    rw [hnode] at hok; exact nodeOk_pack.1 hok
  have he : NewEntry tree.order true (E.map Prod.fst) (E'.map Prod.fst) (E.map Prod.snd)
      (E'.map Prod.snd ++ [l.next]) key := by
    refine ⟨?_, ?_, hasc, by simpa [hE] using hs, by simp; omega, by simp⟩
    · intro k hk
      obtain ⟨e, he, rfl⟩ := List.mem_map.1 hk
      exact hlt e he
    · intro k hk
      obtain ⟨e, he, rfl⟩ := List.mem_map.1 hk
      exact hgt e he
  have hflat (nk : SizedKey) (hnk : nk.str = key) := flatInsert_items (v := v) hnk hlt hgt
  rw [hnode]
  rw [hnode] at hlive
  rcases Nat.lt_or_ge (E.map Prod.fst ++ E'.map Prod.fst).length (tree.order - 1) with hroom | hfull
  · refine (addOrSplit_room hS ha he hroom hlive hk hkey v rd).mono ?_
    rintro ⟨r, s'⟩ ⟨rfl, ha'⟩
    let l' : Leaf := ⟨l.off, E ++ (SizedKey.dup key, v) :: E'.map bump, l.next⟩
    have hl' : packNode tree.order true (E.map Prod.fst ++ SizedKey.dup key :: (E'.map Prod.fst).map SizedKey.viaTemp)
        (E.map Prod.snd ++ v :: (E'.map Prod.snd ++ [l.next])) = l'.node tree.order := by
      rw [Leaf.node]; simp [l', comp_def]
    rw [hl'] at ha'
    refine ⟨_, Spine.single (Tree.leaf l'), ha', ?_⟩
    refine ⟨graft_leaf rfl rfl hoff ?_, rfl, rfl, Or.inl ⟨rfl, rfl, ?_⟩, ?_, ?_⟩
    · have := hS.keyOk_insert hk (show KeyOk (SizedKey.dup key).slot from hkey)
      simpa [l', ← map_fst_bump] using this
    · simp [l', hE]
    · simp at hroom ⊢; simp [l']; omega
    · rw [Spine.flat_single, Tree.flat_leaf_items, Tree.flat_leaf_items, hE]
      exact hflat _ rfl
  · have hfull' : (E.map Prod.fst ++ E'.map Prod.fst).length = tree.order - 1 := le_antisymm he.fits hfull
    have hd := splitPoint_lt ho true
    obtain ⟨Y, ⟨x, u⟩, Z, hOE, hY⟩ := exists_at (i := splitPoint tree.order true)
      (l := E ++ (SizedKey.over key (E'.map Prod.fst), v) :: E'.map bump) (by simp at hfull' ⊢; omega)
    have hlen := congrArg List.length hOE
    have hkeys := congrArg (List.map Prod.fst) hOE
    have hvals := congrArg (List.map Prod.snd) hOE
    simp only [map_append, map_cons, map_fst_bump] at hkeys
    simp only [map_append, map_cons, map_snd_bump] at hvals
    have hok' := hS.keyOk_insert hk (hS.keyOk_over hkey (E'.map Prod.fst))
    rw [hkeys] at hok'
    have hvals' : E.map Prod.snd ++ v :: (E'.map Prod.snd ++ [l.next]) =
        (Y.map Prod.snd ++ [u]) ++ (Z.map Prod.snd ++ [l.next]) := by
      simpa using congrArg (· ++ [l.next]) hvals
    refine (addOrSplit_full hS ha ho he hfull' hlive hk hkey rd hkeys (by simpa using hY) hvals' (by simp)).mono ?_
    · rintro ⟨r, s'⟩ ⟨o2, rfl, ho2, hnew, ha'⟩
      let l1 : Leaf := ⟨l.off, Y ++ [(x, u)], o2⟩
      let l2 : Leaf := ⟨o2, Z, l.next⟩
      have h1 : packNode tree.order true (Y.map Prod.fst ++ [x]) (Y.map Prod.snd ++ [u] ++ [o2]) =
          l1.node tree.order := by simp [Leaf.node, l1]
      rw [if_pos rfl, h1] at ha'
      have hZ : Z ≠ [] := by
        rintro rfl
        simp at hlen hfull'; omega
      rw [splitPoint_leaf] at hY
      simp only [length_append, length_cons, length_map] at hlen hfull'
      refine ⟨_, Spine.pair (Tree.leaf l1) x (Tree.leaf l2), ha', ?_⟩
      refine ⟨?_, rfl, rfl, Or.inr ⟨x, Tree.leaf l2, rfl, rfl, ?_, ?_, ?_⟩, ?_, ?_⟩
      · refine graft_leaf_split l1 l2 rfl rfl rfl hoff (by rw [hlive]; simp) ho2 hnew ?_ ?_
        · intro k hm
          refine hok' k ?_
          simp only [l1, map_append, mem_append, map_cons, map_nil, mem_singleton] at hm
          rcases hm with hm | rfl <;> simp [*]
        · exact fun k hm => hok' k (mem_append_right _ (mem_cons_of_mem _ hm))
      · exact hS.keyOk_dup (hok' x (by simp)) rfl
      · simp [Tree.minCount, l1]; omega
      · simp [Tree.minCount, l2]; omega
      · simp only [Spine.kids_pair, mem_cons, not_mem_nil, or_false, forall_eq_or_imp, forall_eq,
          Tree.sound_leaf, l1, l2, length_append, length_singleton]
        omega
      · rw [Spine.flat_pair, Tree.flat_leaf_items, Tree.flat_leaf_items, Tree.flat_leaf_items, hE]
        refine FlatInsert.sep hZ ?_
        rw [← hOE]
        exact hflat _ (SizedKey.over_str _ _)

end Leaf

section Inner

variable {h : ℕ} {o : Offset} {key : CStr} {v : Offset} {L : List (Tree h × SizedKey)} {t : Tree h}
  {R : List (SizedKey × Tree h)}

/-- **The separator of a split child goes into the node above**, which may split in turn. -/
theorem insert_above (hS : S.Lawful F KeyOk Abs) {w1 : World} (ha : Abs s w1) (ho : 3 ≤ tree.order)
    (hn : NodesIn KeyOk w ((Tree.inner o (Spine.plug L (Spine.single t) R)).nodes tree.order))
    (hd : (Tree.inner o (Spine.plug L (Spine.single t) R)).offs.Nodup)
    (hord : Ordered (Tree.inner o (Spine.plug L (Spine.single t) R)).flat)
    (hs : (Tree.inner o (Spine.plug L (Spine.single t) R)).Sound tree.order)
    (hl : ∀ i ∈ Spine.leftFlat Tree.flat L, i.key < key)
    (hr : ∀ i ∈ Spine.rightFlat Tree.flat R, (Item.entry key v).lt i) {t1 u : Tree h} {k : SizedKey}
    (g : Graft tree.order KeyOk w w1 (Spine.single t) (Spine.pair t1 k u)) (hoff : t1.off = t.off)
    (hkey : KeyOk (dupKey k.str)) (h1 : Tree.minCount tree.order h ≤ t1.count) (h2 : Tree.minCount tree.order h ≤ u.count)
    (hs1 : t1.Sound tree.order) (hs2 : u.Sound tree.order)
    (hf : FlatInsert key v t.flat ((Spine.pair t1 k u).flat Tree.flat)) (rd : Bool) :
    Meets F (addOrSplit S tree s o ((Tree.inner o (Spine.plug L (Spine.single t) R)).node tree.order) k.str u.off rd)
      fun r => ∃ w' m, Abs r.2 w' ∧ Inserted tree.order KeyOk w w' key v
        (Tree.inner o (Spine.plug L (Spine.single t) R)) { r.1 with success := true } m := by
  obtain ⟨hoff16, hlive, hkeys, hkids⟩ := hn.inner
  rw [Tree.offs_inner, nodup_cons] at hd
  have hg := (g.plug (L := L) (R := R) hkids hd.2)
  have hlive1 := (hg.frame.live_same (o := o) (by rw [hlive]; simp) hd.1).2
  have hflat : FlatInsert key v (Tree.inner o (Spine.plug L (Spine.single t) R)).flat
      ((Spine.plug L (Spine.pair t1 k u) R).flat Tree.flat) := by
    rw [Tree.flat_inner, Spine.flat_plug, Spine.flat_plug, Spine.flat_single]
    exact hf.context hl hr
  have hord' : Ordered ((Spine.plug L (Spine.pair t1 k u) R).flat Tree.flat) := by
    simpa using hflat.ordered [] [] (by simpa using hord) (by simp) (by simp)
  -- the new separator among the others
  have hasc := Spine.ascending_keys hord'
  rw [Spine.keys_plug, Spine.keys_pair] at hasc
  obtain ⟨-, hascR, hascLR⟩ := pairwise_append.1 hasc
  have hasc0 := Spine.ascending_keys (m := Spine.plug L (Spine.single t) R) hord
  rw [Spine.keys_plug, Spine.keys_single, nil_append] at hasc0 hkeys
  rw [Tree.sound_inner, Spine.rest_length_plug] at hs
  have hnode : (Tree.inner o (Spine.plug L (Spine.single t) R)).node tree.order = packNode tree.order false
      (L.map Prod.snd ++ R.map Prod.fst)
      ((L.map fun p => p.1.off) ++ [t.off] ++ R.map fun p => p.2.off) := by
    rw [Tree.node_inner]; simp [comp_def]
  have he : NewEntry tree.order false (L.map Prod.snd) (R.map Prod.fst) ((L.map fun p => p.1.off) ++ [t.off])
      (R.map fun p => p.2.off) k.str := by
    refine ⟨fun a ha => ?_, fun b hb => ?_, hasc0, by simpa using hs.1, by simp; omega, by simp⟩
    · exact hascLR a ha k (by simp)
    · exact (pairwise_cons.1 hascR).1 b hb
  have hkidsOk : ∀ x ∈ (Spine.plug L (Spine.pair t1 k u) R).kids, Tree.minCount tree.order h ≤ x.count ∧ x.Sound tree.order :=
    Spine.forall_kids_plug hs.2 (by simpa using ⟨⟨h1, hs1⟩, h2, hs2⟩)
  -- the children with the separator in place, whatever the sizes stored with it
  have hOM (nk : SizedKey) (hnk : nk.str = k.str) :
      let m' := Spine.plug L (Spine.pair t1 nk u) (R.map bump)
      m'.kids = (Spine.plug L (Spine.pair t1 k u) R).kids ∧
        m'.keys = L.map Prod.snd ++ nk :: (R.map Prod.fst).map SizedKey.viaTemp ∧
        m'.flat Tree.flat = (Spine.plug L (Spine.pair t1 k u) R).flat Tree.flat ∧
        m'.kids.map Tree.off = ((L.map fun p => p.1.off) ++ [t.off]) ++ u.off :: R.map fun p => p.2.off := by
    refine ⟨by simp, by simp, ?_, by simp [hoff, comp_def]⟩
    simp [rightFlat_bump, hnk]
  rw [hnode] at hlive ⊢
  rw [hlive] at hlive1
  rcases Nat.lt_or_ge (L.map Prod.snd ++ R.map Prod.fst).length (tree.order - 1) with hroom | hfull
  · obtain ⟨hk', hkeys', hflat', harr⟩ := hOM (SizedKey.dup k.str) rfl
    refine (addOrSplit_room hS ha he hroom hlive1 hkeys hkey u.off rd).mono ?_
    rintro ⟨r, s'⟩ ⟨rfl, ha'⟩
    rw [← hkeys', ← harr] at ha'
    refine ⟨_, Spine.single (Tree.inner o (Spine.plug L (Spine.pair t1 (SizedKey.dup k.str) u) (R.map bump))), ha', ?_⟩
    refine ⟨(hg.of_kids hk').inner hoff16 (by rw [hlive]; simp) hd.1 ?_, rfl, rfl, Or.inl ⟨rfl, rfl, ?_⟩, ?_, ?_⟩
    · rw [hkeys']; exact hS.keyOk_insert hkeys hkey
    · simp
    · simp only [Spine.kids_single, mem_singleton, forall_eq, Tree.sound_inner, hk']
      refine ⟨?_, hkidsOk⟩
      simp at hroom ⊢; omega
    · rw [Spine.flat_single, Tree.flat_inner _ (Spine.plug L _ (R.map bump)), hflat']
      exact hflat
  · have hfull' : (L.map Prod.snd ++ R.map Prod.fst).length = tree.order - 1 := le_antisymm he.fits hfull
    obtain ⟨hk', hkeys', hflat', harr⟩ := hOM (SizedKey.over k.str (R.map Prod.fst)) (SizedKey.over_str _ _)
    have hlt := splitPoint_lt ho false
    obtain ⟨A, x, B, hABk, hABs, hABf, hAl, hAf⟩ := Spine.exists_cut
      (Spine.plug L (Spine.pair t1 (SizedKey.over k.str (R.map Prod.fst)) u) (R.map bump))
      (i := splitPoint tree.order false) (by simp at hfull' ⊢; omega)
    have hlen := congrArg List.length hABs
    rw [hkeys'] at hABs hlen
    have hok := hS.keyOk_insert hkeys (hS.keyOk_over hkey (R.map Prod.fst))
    rw [hABs] at hok
    have harr' : ((L.map fun p => p.1.off) ++ [t.off]) ++ u.off :: (R.map fun p => p.2.off) =
        A.kids.map Tree.off ++ B.kids.map Tree.off := by rw [← map_append, ← hABk, harr]
    refine (addOrSplit_full hS ha ho he hfull' hlive1 hkeys hkey rd hABs (by simpa using hAl) harr' (by simp)).mono ?_
    · rintro ⟨r, s'⟩ ⟨o2, rfl, ho2, hnew, ha'⟩
      rw [splitPoint_inner] at hAl
      simp at hlen hfull'
      refine ⟨_, Spine.pair (Tree.inner o A) x (Tree.inner o2 B), ha', ?_⟩
      refine ⟨(hg.of_kids hk').split hABk hoff16 (by rw [hlive]; simp) hd.1 ho2 hnew ?_ ?_, rfl, rfl,
        Or.inr ⟨x, Tree.inner o2 B, rfl, rfl, ?_, ?_, ?_⟩, ?_, ?_⟩
      · exact fun k hk => hok k (mem_append_left _ hk)
      · exact fun k hk => hok k (mem_append_right _ (mem_cons_of_mem _ hk))
      · exact hS.keyOk_dup (hok x (by simp)) rfl
      · simp [Tree.minCount]; omega
      · simp [Tree.minCount]; omega
      · rw [← hk', hABk] at hkidsOk
        simp only [Spine.kids_pair, mem_cons, not_mem_nil, or_false, forall_eq_or_imp, forall_eq,
          Tree.sound_inner]
        refine ⟨⟨by omega, fun y hy => hkidsOk y (mem_append_left _ hy)⟩, by omega,
          fun y hy => hkidsOk y (mem_append_right _ hy)⟩
      · rw [Spine.flat_pair, Tree.flat_inner _ A, Tree.flat_inner _ B, ← hABf, hflat']
        exact hflat

end Inner

section InsertKey

variable {key : CStr}

theorem insertKey_read (hS : S.Lawful F KeyOk Abs) (ha : Abs s w) {h : ℕ} {t : Tree h} {fuel : ℕ}
    (hf : h < fuel) (hn : NodesIn KeyOk w (t.nodes tree.order)) (v : Offset) (rd : Bool)
    {Q : InsertResult × σ → Prop}
    (hrest : ∀ n, fuel = n + 1 → Meets F (if (t.node tree.order).leaf then
        addOrSplit S tree s t.off (t.node tree.order) key v rd
      else do
        let i ← insertIndex key (t.node tree.order).keys (t.node tree.order).keyCount
        let (r, s) ← insertKey S tree rd n s ((t.node tree.order).childAt i) key v
        if r.success && r.split then
          let (r', s) ← addOrSplit S tree s t.off (t.node tree.order) r.key r.filePos rd
          return ({ r' with success := r.success }, s)
        else
          return (r, s)) Q) :
    Meets F (insertKey S tree rd fuel s t.off key v) Q := by
  obtain ⟨n, rfl⟩ : ∃ n, fuel = n + 1 := ⟨fuel - 1, by omega⟩
  have hoff := (hn _ (t.off_mem_nodes tree.order)).1
  rw [insertKey]
  simp only [show ¬ t.off < dbHeaderBlockSize from Nat.not_lt.2 hoff, if_false]
  refine Meets.bind (hS.readRoot ha hn) ?_
  rintro _ rfl
  exact hrest n rfl

theorem insertKey_absent (hS : S.Lawful F KeyOk Abs) (ho : 3 ≤ tree.order) (hkey : KeyOk (dupKey key))
    (v : Offset) (rd : Bool) : ∀ {h : ℕ} (t : Tree h) (fuel : ℕ) (s : σ) (w : World), h < fuel → Abs s w →
      NodesIn KeyOk w (t.nodes tree.order) → t.offs.Nodup → Ordered t.flat → t.Sound tree.order →
      (∀ v, Item.entry key v ∉ t.flat) →
      Meets F (insertKey S tree rd fuel s t.off key v) fun r =>
        ∃ w' m, Abs r.2 w' ∧ Inserted tree.order KeyOk w w' key v t r.1 m := by
  intro h
  induction h with
  | zero =>
    intro t fuel s w hf ha hn hd hord hs habs
    refine insertKey_read hS ha hf hn v rd fun n _ => ?_
    exact insert_leaf hS ha ho hn hord hs habs hkey v rd
  | succ h ih =>
    intro t fuel s w hf ha hn hd hord hs habs
    refine insertKey_read hS ha hf hn v rd fun n hfn => ?_
    obtain ⟨o, m, rfl⟩ := t.exists_inner
    obtain ⟨L, t, R, rfl, hL, hl, hr⟩ := Spine.exists_route (m := m) hord key
    have h1 := insertIndex_pack key tree.order false (Spine.plug L (Spine.single t) R).keys
      ((Spine.plug L (Spine.single t) R).kids.map Tree.off)
    obtain ⟨hoff16, hlive, hkeys, hkids⟩ := hn.inner
    have hd' := Tree.nodup_inner.1 hd
    have hskid := (Tree.sound_inner _ _ _).1 hs
    have habs' : ∀ v, Item.entry key v ∉ t.flat := fun u hu => habs u ((mem_flat_route hl hr).2 hu)
    refine Meets.bind_eq h1 ?_
    rw [childAt_route hL]
    refine Meets.bind (ih t n s w (by omega) ha (hkids.kid (by simp)) (Tree.nodup_kid hd'.2 (by simp)) (Tree.ordered_kid hord (by simp))
      (hskid.2 t (by simp)).2 habs') ?_
    rintro ⟨r, s1⟩ ⟨w1, p, ha1, hp⟩
    rcases hp.shape with ⟨hsing, hsplit, hcount⟩ | ⟨k, u, hpair, hres, hk, hc1, hc2⟩
    · -- the child has not been split: the node stays as it is
      obtain ⟨t1, ht1⟩ : ∃ t1, p = Spine.single t1 := ⟨_, hsing⟩
      subst ht1
      have hsplit : r.split = false := hsplit
      dsimp only
      rw [if_neg (by simp [hsplit])]
      refine Meets.pure ⟨w1, Spine.single (Tree.inner o (Spine.plug L (Spine.single t1) R)), ha1, ?_⟩
      have hoff : t1.off = t.off := hp.off
      refine ⟨(hp.graft.plug hkids hd'.2).inner_same hoff16 hlive hd'.1 (by simpa using hkeys) ?_, rfl,
        hp.success, Or.inl ⟨rfl, hsplit, by simp⟩, ?_, ?_⟩
      · rw [Tree.node_inner, Tree.node_inner]; simp [hoff]
      · simp only [Spine.kids_single, mem_singleton, forall_eq, Tree.sound_inner]
        have hfull : ∀ x ∈ (Spine.single t1).kids, Tree.minCount tree.order h ≤ x.count ∧ x.Sound tree.order := by
          simpa using ⟨le_trans (hskid.2 t (by simp)).1 hcount, hp.sound _ (by simp)⟩
        exact ⟨by simpa using hskid.1, Spine.forall_kids_plug hskid.2 hfull⟩
      · rw [Spine.flat_single, Tree.flat_inner, Tree.flat_inner, Spine.flat_plug, Spine.flat_plug, Spine.flat_single]
        exact hp.flat.context hl (hr v)
    · -- the child has been split
      obtain ⟨t1, ht1⟩ : ∃ t1, p = Spine.pair t1 k u := ⟨_, hpair⟩
      subst ht1
      subst hres
      dsimp only
      refine Meets.bind (insert_above hS ha1 ho hn hd hord hs hl (hr v) hp.graft hp.off hk hc1 hc2
        (hp.sound _ (by simp)) (hp.sound _ (by simp)) hp.flat rd) ?_
      rintro ⟨r', s'⟩ ⟨w', m, ha', hm⟩
      exact Meets.pure ⟨w', m, ha', hm⟩

/-- What replacing the offset of an entry makes of the tree `t`. -/
structure Replaced (order : ℕ) (KeyOk : KeySlot → Prop) (w w' : World) (key : CStr) (v : Offset) {h : ℕ}
    (t t' : Tree h) : Prop where
  graft : Graft order KeyOk w w' (Spine.single t) (Spine.single t')
  off : t'.off = t.off
  count : t'.count = t.count
  sound : t'.Sound order
  flat : ∃ A B u, t.flat = A ++ .entry key u :: B ∧ t'.flat = A ++ .entry key v :: B

theorem addOrSplit_present (hS : S.Lawful F KeyOk Abs) (ha : Abs s w)
    {o : Offset} (hasc : Ascending ks) (hlen : ks.length ≤ tree.order - 1) (hcs : ks.length ≤ cs.length)
    (hnode : w o = some (.btreeNode (packNode tree.order true ks cs))) (hk : ∀ k ∈ ks, KeyOk k.slot)
    (hkey : key ∈ ks.map SizedKey.str) (v : Offset) (rd : Bool) :
    Meets F (addOrSplit S tree s o (packNode tree.order true ks cs) key v rd) fun r => r.1.success = false ∧
      (rd = false → r.2 = s) ∧ (rd = true → Abs r.2 (w.put o (.btreeNode (packNode tree.order true ks (cs.set (keyPos key ks) v))))) := by
  have hwrite : Meets F (S.writeNode s tree.order o (packNode tree.order true ks (cs.set (keyPos key ks) v)))
      fun s' => Abs s' (w.put o (.btreeNode (packNode tree.order true ks (cs.set (keyPos key ks) v)))) :=
    hS.writeNode ha hnode (nodeOk_pack.2 hk)
  rcases Nat.lt_or_ge ks.length (tree.order - 1) with hroom | hfull
  · have hadd : addKey (packNode tree.order true ks cs) key v rd = _ := addKey_pack_dup hasc hkey hcs v rd
    rw [addOrSplit, if_pos (by simpa using hroom)]
    refine Meets.bind_eq hadd ?_
    cases rd with
    | false => exact Meets.pure ⟨rfl, fun _ => rfl, nofun⟩
    | true => exact Meets.bind hwrite fun s' hs' => Meets.pure ⟨rfl, nofun, fun _ => hs'⟩
  · have h1 := insertIndex_pack key tree.order true ks cs
    have h2 := matchesAt_pack key hasc tree.order true cs
    have hp := ((mem_iff_at_keyPos hasc).1 hkey).1
    rw [le_antisymm hlen hfull] at h1 h2
    rw [addOrSplit, if_neg (by simpa using hfull), splitNode]
    refine Meets.bind_eq h1 ?_
    refine Meets.bind_eq h2 ?_
    rw [if_pos (by simpa using hkey)]
    cases rd with
    | false => exact Meets.pure ⟨rfl, fun _ => rfl, nofun⟩
    | true =>
      rw [if_pos (by rfl), packNode_setChild _ _ _ (lt_of_lt_of_le hp hcs)]
      exact Meets.bind hwrite fun s' hs' => Meets.pure ⟨rfl, nofun, fun _ => hs'⟩

/-- **A key the tree holds**: without `replaceDup` nothing changes, with it the entry gets
the new offset. -/
theorem insertKey_present (hS : S.Lawful F KeyOk Abs) (v : Offset) (rd : Bool) : ∀ {h : ℕ} (t : Tree h) (fuel : ℕ)
      (s : σ) (w : World), h < fuel → Abs s w → NodesIn KeyOk w (t.nodes tree.order) → t.offs.Nodup →
      Ordered t.flat → t.Sound tree.order → ∀ u, Item.entry key u ∈ t.flat →
      Meets F (insertKey S tree rd fuel s t.off key v) fun r => r.1.success = false ∧ (rd = false → r.2 = s) ∧
        (rd = true → ∃ w' t', Abs r.2 w' ∧ Replaced tree.order KeyOk w w' key v t t') := by
  intro h
  induction h with
  | zero =>
    intro t fuel s w hf ha hn hd hord hs u hu
    refine insertKey_read hS ha hf hn v rd fun n _ => ?_
    obtain ⟨l, rfl⟩ := t.exists_leaf
    rw [Tree.nodes_leaf, nodesIn_cons] at hn
    obtain ⟨⟨hoff, hlive, hok⟩, -⟩ := hn
    have hmem : key ∈ (l.entries.map Prod.fst).map SizedKey.str := by
      obtain ⟨k, hk, rfl⟩ := Leaf.mem_flat.1 hu
      exact List.mem_map_of_mem (List.mem_map_of_mem hk)
    obtain ⟨E, E', hE, hEl, hlt, hle⟩ := Leaf.exists_cut hord key
    obtain ⟨k, u', E'', rfl, rfl⟩ := Leaf.cut_present hord hE hlt hle hmem
    refine (addOrSplit_present hS ha (Leaf.ascending hord) (by simpa using hs) (by simp) hlive
      (nodeOk_pack.1 hok) hmem v rd).mono ?_
    rintro ⟨r, s'⟩ ⟨h1, h2, h3⟩
    refine ⟨h1, h2, fun hrd => ?_⟩
    have ha' := h3 hrd
    let l' : Leaf := ⟨l.off, E ++ (k, v) :: E'', l.next⟩
    have hnode : packNode tree.order true (l.entries.map Prod.fst)
        ((l.entries.map Prod.snd ++ [l.next]).set (keyPos k.str (l.entries.map Prod.fst)) v) = l'.node tree.order := by
      rw [← hEl, hE, Leaf.node]
      simp [l']
    rw [hnode] at ha'
    refine ⟨_, Tree.leaf l', ha', graft_leaf rfl rfl hoff ?_, rfl, ?_, ?_, itemsOf E, itemsOf E'', u', ?_, ?_⟩
    · have := nodeOk_pack.1 hok
      rw [hE] at this
      simpa [l'] using this
    · simp [l', hE]
    · simpa [l', hE] using hs
    · rw [Tree.flat_leaf_items, hE]; simp
    · rw [Tree.flat_leaf_items]; simp [l']
  | succ h ih =>
    intro t fuel s w hf ha hn hd hord hs u hu
    refine insertKey_read hS ha hf hn v rd fun n hfn => ?_
    obtain ⟨o, m, rfl⟩ := t.exists_inner
    obtain ⟨L, t, R, rfl, hL, hl, hr⟩ := Spine.exists_route (m := m) hord key
    have h1 := insertIndex_pack key tree.order false (Spine.plug L (Spine.single t) R).keys
      ((Spine.plug L (Spine.single t) R).kids.map Tree.off)
    obtain ⟨hoff16, hlive, hkeys, hkids⟩ := hn.inner
    have hd' := Tree.nodup_inner.1 hd
    have hskid := (Tree.sound_inner _ _ _).1 hs
    refine Meets.bind_eq h1 ?_
    rw [childAt_route hL]
    refine Meets.bind (ih t n s w (by omega) ha (hkids.kid (by simp)) (Tree.nodup_kid hd'.2 (by simp)) (Tree.ordered_kid hord (by simp))
      (hskid.2 t (by simp)).2 u ((mem_flat_route hl hr).1 hu)) ?_
    rintro ⟨r, s1⟩ ⟨hsucc, hno, hrepl⟩
    have hsucc : r.success = false := hsucc
    dsimp only
    rw [if_neg (by simp [hsucc])]
    refine Meets.pure ⟨hsucc, hno, fun hrd => ?_⟩
    obtain ⟨w1, t', ha1, hp⟩ := hrepl hrd
    refine ⟨w1, Tree.inner o (Spine.plug L (Spine.single t') R), ha1, ?_, rfl, by simp, ?_, ?_⟩
    · refine (hp.graft.plug hkids hd'.2).inner_same hoff16 hlive hd'.1 (by simpa using hkeys) ?_
      rw [Tree.node_inner, Tree.node_inner]; simp [hp.off]
    · rw [Tree.sound_inner]
      have hfull : ∀ x ∈ (Spine.single t').kids, Tree.minCount tree.order h ≤ x.count ∧ x.Sound tree.order := by
        simpa [hp.count] using ⟨(hskid.2 t (by simp)).1, hp.sound⟩
      exact ⟨by simpa using hskid.1, Spine.forall_kids_plug hskid.2 hfull⟩
    · obtain ⟨A, B, u', h2, h3⟩ := hp.flat
      refine ⟨Spine.leftFlat Tree.flat L ++ A, B ++ Spine.rightFlat Tree.flat R, u', ?_, ?_⟩
      · rw [Tree.flat_inner, Spine.flat_plug, Spine.flat_single, h2]; simp
      · rw [Tree.flat_inner, Spine.flat_plug, Spine.flat_single, h3]; simp

end InsertKey

end KVStores.Gdb
