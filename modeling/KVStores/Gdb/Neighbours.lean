import KVStores.Gdb.NodeDelete
import KVStores.Gdb.Search

/-!
# Neighbours that share or merge

What one rebalancing step makes of two neighbouring subtrees `a` and `b` with the
separator `k` between them.
-/

namespace KVStores.Gdb

open List

/-- `l'` holds the entries of `l`, and ascends wherever `l` does. -/
structure Reorders (l l' : List Item) : Prop where
  entries : entriesOf l' = entriesOf l
  ordered : ∀ X Y, Ordered (X ++ (l ++ Y)) → Ordered (X ++ (l' ++ Y))

namespace Reorders

variable {l l' l'' : List Item}

theorem refl : Reorders l l := ⟨rfl, fun _ _ h => h⟩

theorem of_eq (h : l' = l) : Reorders l l' := h ▸ refl

theorem trans (h : Reorders l l') (h' : Reorders l' l'') : Reorders l l'' :=
  ⟨h'.entries.trans h.entries, fun X Y ho => h'.ordered X Y (h.ordered X Y ho)⟩

theorem context (h : Reorders l l') (P Q : List Item) : Reorders (P ++ (l ++ Q)) (P ++ (l' ++ Q)) where
  entries := by simp [h.entries]
  ordered X Y ho := by
    have := h.ordered (X ++ P) (Q ++ Y) (by simpa using ho)
    simpa using this

theorem drop_sep {P Q : List Item} (k : CStr) : Reorders (P ++ .sep k :: Q) (P ++ Q) where
  entries := by simp
  ordered X Y ho := by
    refine ho.sublist (List.Sublist.append_left ?_ X)
    exact List.Sublist.append_right (List.Sublist.append_left (sublist_cons_self _ _) P) Y

end Reorders

theorem ordered_cons {i : Item} {l : List Item} : Ordered (i :: l) ↔ (∀ j ∈ l, i.lt j) ∧ Ordered l :=
  pairwise_cons

variable {P Q : List Item} {a b : CStr} {u v : Offset}

theorem ordered_insert_sep (h : Ordered (P ++ .entry a u :: .entry b v :: Q)) : Ordered (P ++ .entry a u :: .sep a :: .entry b v :: Q) := by
  obtain ⟨hP, hrest, hPrest⟩ := ordered_append.1 h
  obtain ⟨ha, hQ⟩ := ordered_cons.1 hrest
  have hab : a < b := ha (.entry b v) mem_cons_self
  -- everything behind is above `a`, as it is at or behind the entry of `b`
  have habove : ∀ j ∈ Item.entry b v :: Q, a < j.key := by
    intro j hj
    rcases mem_cons.1 hj with rfl | hj
    · exact hab
    · exact lt_of_lt_of_le hab (Item.key_le_of_lt ((ordered_cons.1 hQ).1 j hj))
  refine ordered_append.2 ⟨hP, ordered_cons.2 ⟨?_, ordered_cons.2 ⟨fun j hj => Item.sep_lt.2 (habove j hj), hQ⟩⟩, ?_⟩
  · intro j hj
    rcases mem_cons.1 hj with rfl | hj
    · exact Item.entry_lt_sep.2 le_rfl
    · exact Item.lt_of_key_lt (habove j hj)
  · intro i hi j hj
    have hia : i.key < a := Item.lt_entry.1 (hPrest i hi (.entry a u) mem_cons_self)
    rcases mem_cons.1 hj with rfl | hj
    · exact Item.lt_of_key_lt hia
    · rcases mem_cons.1 hj with rfl | hj
      · exact Item.lt_of_key_lt hia
      · exact Item.lt_of_key_lt (hia.trans (habove j hj))

theorem ordered_sep_back {x k : CStr} (h : Ordered (P ++ .sep x :: .entry k v :: .entry b u :: Q)) :
    Ordered (P ++ .entry k v :: .sep k :: .entry b u :: Q) :=
  ordered_insert_sep (h.sublist ((sublist_cons_self _ _).append_left P))

theorem ordered_sep_front {x : CStr} (h : Ordered (P ++ .entry a u :: .entry b v :: .sep x :: Q)) :
    Ordered (P ++ .entry a u :: .sep a :: .entry b v :: Q) :=
  ordered_insert_sep (h.sublist ((((sublist_cons_self _ _).cons_cons _).cons_cons _).append_left P))

namespace Spine

variable {τ α : Type}

def join (m : Spine τ) (k : SizedKey) (m' : Spine τ) : Spine τ := ⟨m.first, m.rest ++ (k, m'.first) :: m'.rest⟩

variable (m m' : Spine τ) (k : SizedKey)

@[simp] theorem kids_join : (join m k m').kids = m.kids ++ m'.kids := by simp [join, kids]
@[simp] theorem keys_join : (join m k m').keys = m.keys ++ k :: m'.keys := by simp [join, keys]
@[simp] theorem flat_join (f : τ → List Item) : (join m k m').flat f = m.flat f ++ .sep k.str :: m'.flat f := by
  simp [join, flat]
@[simp] theorem rest_length_join : (join m k m').rest.length = m.rest.length + 1 + m'.rest.length := by
  simp [join]; omega

variable {m : Spine τ}

theorem exists_join_first (h : 0 < m.rest.length) : ∃ t k m', m = join (single t) k m' := by
  obtain ⟨t, rest⟩ := m
  obtain ⟨⟨k, u⟩, rest, rfl⟩ := exists_cons_of_length_pos h
  exact ⟨t, k, ⟨u, rest⟩, rfl⟩

theorem exists_join_last (h : 0 < m.rest.length) : ∃ m' k t, m = join m' k (single t) := by
  obtain ⟨t, rest⟩ := m
  obtain ⟨rest', ⟨k, u⟩, rfl, -⟩ := exists_concat (show rest.length = rest.length - 1 + 1 from (Nat.succ_pred_eq_of_pos h).symm)
  exact ⟨⟨t, rest'⟩, k, u, rfl⟩

theorem plug_cons_right (L : List (τ × SizedKey)) (t : τ) (u : τ) (R : List (SizedKey × τ)) :
    plug L (single t) ((k, u) :: R) = plug L (pair t k u) R := by
  induction L with
  | nil => rfl
  | cons p L ih => simp only [plug, ih]

theorem plug_concat_left (L : List (τ × SizedKey)) (t : τ) (u : τ) (R : List (SizedKey × τ)) :
    plug (L ++ [(t, k)]) (single u) R = plug L (pair t k u) R := by
  induction L with
  | nil => rfl
  | cons p L ih => simp only [cons_append, plug, ih]

end Spine

variable {order : ℕ} {KeyOk : KeySlot → Prop} {w w' : World} {h : ℕ} {m m' : Spine (Tree h)}

theorem Graft.rewrite {m m' : Spine (Tree h)} {own X : List (Offset × BTreeNode)} {D : List Offset}
    (hX : NodesIn KeyOk w X) (hnd : (m.collect Tree.offs).Nodup)
    (hm : (m.collect Tree.offs).Perm (D ++ X.map Prod.fst))
    (hm' : (m'.collect (Tree.nodes order)).Perm (own ++ X)) (hD : (own.map Prod.fst).Sublist D)
    (hown : NodesIn KeyOk w' own) (hgone : ∀ o ∈ D, o ∉ own.map Prod.fst → w' o = none)
    (hsame : ∀ o, o ∉ D → w' o = w o)
    (head : ∀ next, headOff (m'.collect Tree.leaves) next = headOff (m.collect Tree.leaves) next)
    (linked : ∀ next, Linked (m.collect Tree.leaves) next → Linked (m'.collect Tree.leaves) next) : Graft order KeyOk w w' m m' := by
  have hDX := (hm.nodup_iff.1 hnd)
  obtain ⟨hDnd, hXnd, hdis⟩ := nodup_append'.1 hDX
  have hoffs : (m'.collect Tree.offs).Perm (own.map Prod.fst ++ X.map Prod.fst) := by
    rw [← @Spine.map_fst_collect_nodes order _, ← map_append]
    exact hm'.map _
  have hX' : NodesIn KeyOk w' X := hX.congr fun o ho => hsame o fun hoD => hdis hoD ho
  refine ⟨fun p hp => ?_, hoffs.nodup_iff.2 ?_, ⟨fun o h1 h2 => ?_, fun o h1 h2 => ?_, fun o h1 h2 => ?_⟩, head, linked⟩
  · exact nodesIn_append.2 ⟨hown, hX'⟩ p (hm'.mem_iff.1 hp)
  · exact nodup_append'.2 ⟨hDnd.sublist hD, hXnd, fun o ho => hdis (hD.subset ho)⟩
  · rw [hm.mem_iff, mem_append, not_or] at h1
    exact hsame o h1.1
  · rw [hm.mem_iff, mem_append] at h1
    rw [hoffs.mem_iff, mem_append, not_or] at h2
    exact hgone o (h1.resolve_right h2.2) h2.1
  · rw [hoffs.mem_iff, mem_append] at h1
    rw [hm.mem_iff, mem_append, not_or] at h2
    exact absurd h1 (not_or.2 ⟨fun ho => h2.1 (hD.subset ho), h2.2⟩)

section Pair

variable {a b a' b' : Tree h} {k k' : SizedKey}

structure Exchange (order : ℕ) (KeyOk : KeySlot → Prop) (w : World) {h : ℕ} (a : Tree h) (k : SizedKey) (b : Tree h)
    (a' : Tree h) (k' : SizedKey) (b' : Tree h) : Prop where
  off_left : a'.off = a.off
  off_right : b'.off = b.off
  graft : ∀ w' : World, w' a.off = some (.btreeNode (a'.node order)) → w' b.off = some (.btreeNode (b'.node order)) →
    (∀ o, o ≠ a.off → o ≠ b.off → w' o = w o) → Graft order KeyOk w w' (Spine.pair a k b) (Spine.pair a' k' b')
  items : Reorders ((Spine.pair a k b).flat Tree.flat) ((Spine.pair a' k' b').flat Tree.flat)
  keyOk : KeyOk k'.slot
  sound_left : a'.Sound order
  sound_right : b'.Sound order

/-- The left neighbour takes over what the right one holds. -/
structure Absorb (order : ℕ) (KeyOk : KeySlot → Prop) (w : World) {h : ℕ} (a : Tree h) (k : SizedKey) (b : Tree h)
    (a' : Tree h) : Prop where
  off_left : a'.off = a.off
  graft : ∀ w' : World, w' a.off = some (.btreeNode (a'.node order)) → w' b.off = none →
    (∀ o, o ≠ a.off → o ≠ b.off → w' o = w o) → Graft order KeyOk w w' (Spine.pair a k b) (Spine.single a')
  items : Reorders ((Spine.pair a k b).flat Tree.flat) a'.flat
  sound : a'.Sound order

theorem nodesIn_pair (hn : NodesIn KeyOk w ((Spine.pair a k b).collect (Tree.nodes order))) :
    NodesIn KeyOk w (a.nodes order) ∧ NodesIn KeyOk w (b.nodes order) := by
  rwa [Spine.collect_pair, nodesIn_append] at hn

variable {la lb la' : Leaf}

theorem exchange_leaf {lb' : Leaf} (hoa : la'.off = la.off) (hob : lb'.off = lb.off) (hna : la'.next = la.next) (hnb : lb'.next = lb.next)
    (hn : NodesIn KeyOk w ((Spine.pair (Tree.leaf la) k (Tree.leaf lb)).collect (Tree.nodes order)))
    (hnd : ((Spine.pair (Tree.leaf la) k (Tree.leaf lb)).collect Tree.offs).Nodup)
    (hka : ∀ x ∈ la'.entries.map Prod.fst, KeyOk x.slot) (hkb : ∀ x ∈ lb'.entries.map Prod.fst, KeyOk x.slot)
    (wa : w' la.off = some (.btreeNode (la'.node order))) (wb : w' lb.off = some (.btreeNode (lb'.node order)))
    (hsame : ∀ o, o ≠ la.off → o ≠ lb.off → w' o = w o) :
    Graft order KeyOk w w' (Spine.pair (Tree.leaf la) k (Tree.leaf lb)) (Spine.pair (Tree.leaf la') k' (Tree.leaf lb')) := by
  obtain ⟨hn1, hn2⟩ := nodesIn_pair hn
  have hva := hn1.valid (o := la.off) (by simp)
  have hvb := hn2.valid (o := lb.off) (by simp)
  refine @Graft.rewrite _ _ _ _ _ _ _ [(la.off, la'.node order), (lb.off, lb'.node order)] [] [la.off, lb.off]
    nodesIn_nil hnd (by simp) (by simp [hoa, hob]) (List.Sublist.refl _) ?_ ?_ ?_ ?_ ?_
  · simp only [nodesIn_cons, nodesIn_nil, and_true]
    exact ⟨⟨hva, wa, nodeOk_pack.2 hka⟩, hvb, wb, nodeOk_pack.2 hkb⟩
  · intro o ho ho'
    exact absurd ho ho'
  · intro o ho
    simp only [mem_cons, not_mem_nil, or_false, not_or] at ho
    exact hsame o ho.1 ho.2
  · simp [hoa]
  · simp [hna, hnb, hob]

variable {oa ob : Offset} {ma mb : Spine (Tree h)}

theorem exchange_inner {ma' mb' : Spine (Tree h)} (hkids : ma'.kids ++ mb'.kids = ma.kids ++ mb.kids)
    (hn : NodesIn KeyOk w ((Spine.pair (Tree.inner oa ma) k (Tree.inner ob mb)).collect (Tree.nodes order)))
    (hnd : ((Spine.pair (Tree.inner oa ma) k (Tree.inner ob mb)).collect Tree.offs).Nodup)
    (hka : ∀ x ∈ ma'.keys, KeyOk x.slot) (hkb : ∀ x ∈ mb'.keys, KeyOk x.slot)
    (wa : w' oa = some (.btreeNode ((Tree.inner oa ma').node order))) (wb : w' ob = some (.btreeNode ((Tree.inner ob mb').node order)))
    (hsame : ∀ o, o ≠ oa → o ≠ ob → w' o = w o) : Graft order KeyOk w w' (Spine.pair (Tree.inner oa ma) k (Tree.inner ob mb))
      (Spine.pair (Tree.inner oa ma') k' (Tree.inner ob mb')) := by
  obtain ⟨hn1, hn2⟩ := nodesIn_pair hn
  have hva := hn1.valid (o := oa) (by simp)
  have hvb := hn2.valid (o := ob) (by simp)
  rw [Tree.nodes_inner, nodesIn_cons] at hn1 hn2
  have hcol {α : Type} (f : Tree h → List α) : ma'.collect f ++ mb'.collect f = ma.collect f ++ mb.collect f := by
    simp only [Spine.collect, ← flatMap_append, hkids]
  refine @Graft.rewrite _ _ _ _ _ _ _ [(oa, (Tree.inner oa ma').node order), (ob, (Tree.inner ob mb').node order)]
    (ma.collect (Tree.nodes order) ++ mb.collect (Tree.nodes order)) [oa, ob]
    (nodesIn_append.2 ⟨hn1.2, hn2.2⟩) hnd ?_ ?_ (List.Sublist.refl _) ?_ ?_ ?_ ?_ ?_
  · simp only [Spine.collect_pair, Tree.offs_inner, map_append, Spine.map_fst_collect_nodes, cons_append, nil_append]
    exact perm_middle.cons _
  · rw [← hcol]
    simp only [Spine.collect_pair, Tree.nodes_inner, cons_append, nil_append]
    exact perm_middle.cons _
  · simp only [nodesIn_cons, nodesIn_nil, and_true]
    exact ⟨⟨hva, wa, nodeOk_pack.2 hka⟩, hvb, wb, nodeOk_pack.2 hkb⟩
  · intro o ho ho'
    exact absurd ho ho'
  · intro o ho
    simp only [mem_cons, not_mem_nil, or_false, not_or] at ho
    exact hsame o ho.1 ho.2
  · intro next
    simp only [Spine.collect_pair, Tree.leaves_inner, hcol]
  · intro next hl
    simpa only [Spine.collect_pair, Tree.leaves_inner, hcol] using hl

theorem absorb_leaf (hoa : la'.off = la.off) (hna : la'.next = lb.next)
    (hn : NodesIn KeyOk w ((Spine.pair (Tree.leaf la) k (Tree.leaf lb)).collect (Tree.nodes order)))
    (hnd : ((Spine.pair (Tree.leaf la) k (Tree.leaf lb)).collect Tree.offs).Nodup) (hka : ∀ x ∈ la'.entries.map Prod.fst, KeyOk x.slot)
    (wa : w' la.off = some (.btreeNode (la'.node order))) (wb : w' lb.off = none) (hsame : ∀ o, o ≠ la.off → o ≠ lb.off → w' o = w o) :
    Graft order KeyOk w w' (Spine.pair (Tree.leaf la) k (Tree.leaf lb)) (Spine.single (Tree.leaf la')) := by
  obtain ⟨hn1, -⟩ := nodesIn_pair hn
  have hva := hn1.valid (o := la.off) (by simp)
  refine @Graft.rewrite _ _ _ _ _ _ _ [(la.off, la'.node order)] [] [la.off, lb.off]
    nodesIn_nil hnd (by simp) (by simp [hoa]) (by simp) ?_ ?_ ?_ ?_ ?_
  · simp only [nodesIn_cons, nodesIn_nil, and_true]
    exact ⟨hva, wa, nodeOk_pack.2 hka⟩
  · intro o ho ho'
    simp only [mem_cons, not_mem_nil, or_false, map_cons, map_nil] at ho ho'
    rw [ho.resolve_left ho', wb]
  · intro o ho
    simp only [mem_cons, not_mem_nil, or_false, not_or] at ho
    exact hsame o ho.1 ho.2
  · simp [hoa]
  · intro next hl
    simp only [Spine.collect_pair, Spine.collect_single, Tree.leaves_leaf, cons_append, nil_append,
      linked_cons, headOff_nil, linked_nil, and_true] at hl ⊢
    rw [hna, hl.2]

theorem absorb_inner (hkids : m'.kids = ma.kids ++ mb.kids)
    (hn : NodesIn KeyOk w ((Spine.pair (Tree.inner oa ma) k (Tree.inner ob mb)).collect (Tree.nodes order)))
    (hnd : ((Spine.pair (Tree.inner oa ma) k (Tree.inner ob mb)).collect Tree.offs).Nodup)
    (hka : ∀ x ∈ m'.keys, KeyOk x.slot) (wa : w' oa = some (.btreeNode ((Tree.inner oa m').node order)))
    (wb : w' ob = none) (hsame : ∀ o, o ≠ oa → o ≠ ob → w' o = w o) :
    Graft order KeyOk w w' (Spine.pair (Tree.inner oa ma) k (Tree.inner ob mb)) (Spine.single (Tree.inner oa m')) := by
  obtain ⟨hn1, hn2⟩ := nodesIn_pair hn
  have hva := hn1.valid (o := oa) (by simp)
  rw [Tree.nodes_inner, nodesIn_cons] at hn1 hn2
  have hcol {α : Type} (f : Tree h → List α) : m'.collect f = ma.collect f ++ mb.collect f := by
    simp only [Spine.collect, ← flatMap_append, hkids]
  refine @Graft.rewrite _ _ _ _ _ _ _ [(oa, (Tree.inner oa m').node order)]
    (ma.collect (Tree.nodes order) ++ mb.collect (Tree.nodes order)) [oa, ob]
    (nodesIn_append.2 ⟨hn1.2, hn2.2⟩) hnd ?_ ?_ (by simp) ?_ ?_ ?_ ?_ ?_
  · simp only [Spine.collect_pair, Tree.offs_inner, map_append, Spine.map_fst_collect_nodes, cons_append, nil_append]
    exact perm_middle.cons _
  · simp only [Spine.collect_single, Tree.nodes_inner, hcol, cons_append, nil_append]
    exact List.Perm.refl _
  · simp only [nodesIn_cons, nodesIn_nil, and_true]
    exact ⟨hva, wa, nodeOk_pack.2 hka⟩
  · intro o ho ho'
    simp only [mem_cons, not_mem_nil, or_false, map_cons, map_nil] at ho ho'
    rw [ho.resolve_left ho', wb]
  · intro o ho
    simp only [mem_cons, not_mem_nil, or_false, not_or] at ho
    exact hsame o ho.1 ho.2
  · intro next
    simp only [Spine.collect_pair, Spine.collect_single, Tree.leaves_inner, hcol]
  · intro next hl
    simpa only [Spine.collect_pair, Spine.collect_single, Tree.leaves_inner, hcol] using hl

end Pair

theorem NodesIn.keys_leaf {l : Leaf} (hn : NodesIn KeyOk w ((Tree.leaf l).nodes order)) : ∀ x ∈ l.entries.map Prod.fst, KeyOk x.slot :=
  nodeOk_pack.1 (hn (l.off, l.node order) (by simp)).2.2

theorem NodesIn.keys_inner {o : Offset} (hn : NodesIn KeyOk w ((Tree.inner o m).nodes order)) : ∀ x ∈ m.keys, KeyOk x.slot := hn.inner.2.2.1

section Moves

variable {a b : Tree h} {k : SizedKey} {P : List SizedKey} {cs : List Offset} {div : ℕ}

/-- **`__borrowRight`**, when the slot it frees is not in use, moves one key from the right
neighbour to the left one. -/
theorem borrowRight_tree (ho : 3 ≤ order) (hdiv : div < P.length) (hk : P[div] = k) (hkOk : KeyOk k.slot)
    (hmin : a.count < Tree.minCount order h) (hfree : a.count < div) (hspare : Tree.minCount order h < b.count)
    (hsa : a.Sound order) (hsb : b.Sound order)
    (hn : NodesIn KeyOk w ((Spine.pair a k b).collect (Tree.nodes order)))
    (hnd : ((Spine.pair a k b).collect Tree.offs).Nodup) :
    ∃ a' k' b', borrowRight (order / 2) ((order + 1) / 2 - 1) (a.node order) (packNode order false P cs) (b.node order) div =
        some (some ⟨a'.node order, packNode order false (P.set div k') cs, b'.node order⟩) ∧
      Exchange order KeyOk w a k b a' k' b' ∧ a'.count = a.count + 1 ∧ b'.count + 1 = b.count := by
  obtain ⟨hna, hnb⟩ := nodesIn_pair hn
  cases h with
  | zero =>
    obtain ⟨la, rfl⟩ := a.exists_leaf
    obtain ⟨⟨ob, Eb, nb⟩, rfl⟩ := b.exists_leaf
    simp only [Tree.minCount, if_true, Tree.count_leaf] at hmin hfree hspare
    obtain _ | ⟨⟨k0, v0⟩, _ | ⟨⟨k1, v1⟩, E⟩⟩ := Eb
    · simp at hspare
    · simp at hspare; omega
    have hroom : (((k1, v1) :: E).map Prod.fst).length + 1 ≤ order - 1 := by simpa using hsb
    have hmove := @borrowRight_leaf order (order / 2) ((order + 1) / 2 - 1) (la.entries.map Prod.fst)
      (((k1, v1) :: E).map Prod.fst) P (la.entries.map Prod.snd) (((k1, v1) :: E).map Prod.snd ++ [nb]) cs k0 la.next
      v0 div
      (by simp; omega) (by simp) (by simp) hroom (by simpa using hspare) hdiv (by simpa using hfree)
    refine ⟨Tree.leaf ⟨la.off, la.entries ++ [(k0, v0)], la.next⟩, k0, Tree.leaf ⟨ob, (k1, v1) :: E, nb⟩, ?_,
      ⟨rfl, rfl, fun w' wa wb hsame => ?_, ⟨?_, fun X Y hord => ?_⟩, ?_, ?_, ?_⟩, by simp, by simp⟩
    · simpa [Leaf.node] using hmove
    · refine exchange_leaf rfl rfl rfl rfl hn hnd ?_ ?_ wa wb hsame
      · intro x hx
        rw [map_append, mem_append] at hx
        rcases hx with hx | hx
        · exact hna.keys_leaf x hx
        · exact hnb.keys_leaf x (by simp at hx ⊢; exact Or.inl hx)
      · exact fun x hx => hnb.keys_leaf x (mem_cons_of_mem _ hx)
    · simp
    · have := ordered_sep_back (P := X ++ la.entries.map fun e => .entry e.1.str e.2) (x := k.str) (k := k0.str)
        (b := k1.str) (v := v0) (u := v1) (Q := (E.map fun e => .entry e.1.str e.2) ++ Y) (by simpa using hord)
      simpa using this
    · exact hnb.keys_leaf k0 (by simp)
    · rw [Tree.sound_leaf, length_append, length_singleton]; omega
    · rw [Tree.sound_leaf] at hsb ⊢
      exact le_trans (by simp) hsb
  | succ h =>
    obtain ⟨oa, ma, rfl⟩ := a.exists_inner
    obtain ⟨ob, mb, rfl⟩ := b.exists_inner
    simp only [Tree.minCount, Nat.add_one_ne_zero, if_false, Tree.count_inner] at hmin hfree hspare
    obtain ⟨c, k0, mb, rfl⟩ := Spine.exists_join_first (m := mb) (by omega)
    simp only [Tree.sound_inner, Spine.rest_length_join, Spine.kids_join, forall_mem_append, Spine.single_rest,
      length_nil, Spine.kids_single, forall_mem_singleton] at hsa hsb hspare
    have hmove := @borrowRight_internal order (order / 2) ((order + 1) / 2 - 1) ma.keys mb.keys P
      (ma.kids.map Tree.off) (mb.kids.map Tree.off) cs k0 c.off div
      (by simp; omega) (by simp) (by simp) (by simp; omega) (by simp; omega) hdiv (by simpa using hfree)
    refine ⟨Tree.inner oa (ma.join k (.single c)), k0, Tree.inner ob mb, ?_,
      ⟨rfl, rfl, fun w' wa wb hsame => ?_, Reorders.of_eq ?_, ?_, ?_, ?_⟩, by simp, by simp; omega⟩
    · simpa [Tree.node_inner, hk] using hmove
    · refine exchange_inner (by simp) hn hnd ?_ ?_ wa wb hsame
      · intro x hx
        simp only [Spine.keys_join, Spine.keys_single, mem_append, mem_singleton] at hx
        rcases hx with hx | rfl
        · exact hna.keys_inner x hx
        · exact hkOk
      · exact fun x hx => hnb.keys_inner x (by simp [hx])
    · simp
    · exact hnb.keys_inner k0 (by simp)
    · simp only [Tree.sound_inner, Spine.rest_length_join, Spine.kids_join, forall_mem_append, Spine.single_rest,
        length_nil, Spine.kids_single, forall_mem_singleton]
      exact ⟨by omega, hsa.2, hsb.2.1⟩
    · exact (Tree.sound_inner _ _ _).2 ⟨by omega, hsb.2.2⟩

/-- **`__borrowLeft`** moves one key from the left neighbour to the right one. -/
theorem borrowLeft_tree (ho : 3 ≤ order) (hdiv : div - 1 < P.length) (hk : P[div - 1] = k) (hkOk : KeyOk k.slot)
    (hmin : b.count < Tree.minCount order h) (hspare : Tree.minCount order h < a.count)
    (hsa : a.Sound order) (hsb : b.Sound order)
    (hn : NodesIn KeyOk w ((Spine.pair a k b).collect (Tree.nodes order)))
    (hnd : ((Spine.pair a k b).collect Tree.offs).Nodup) :
    ∃ a' k' b', borrowLeft (order / 2) ((order + 1) / 2 - 1) (b.node order) (packNode order false P cs) (a.node order) div =
        some (some ⟨b'.node order, packNode order false (P.set (div - 1) k') cs, a'.node order⟩) ∧
      Exchange order KeyOk w a k b a' k' b' ∧ b'.count = b.count + 1 ∧ a'.count + 1 = a.count := by
  obtain ⟨hna, hnb⟩ := nodesIn_pair hn
  cases h with
  | zero =>
    obtain ⟨⟨oa, Ea, na⟩, rfl⟩ := a.exists_leaf
    obtain ⟨lb, rfl⟩ := b.exists_leaf
    simp only [Tree.minCount, if_true, Tree.count_leaf] at hmin hspare
    obtain ⟨E, ⟨kb, vb⟩, rfl, hE⟩ := exists_concat (show Ea.length = Ea.length - 1 + 1 by omega)
    obtain ⟨E, ⟨ka, va⟩, rfl, -⟩ := exists_concat (show E.length = E.length - 1 + 1 by omega)
    have hroom : (E.map Prod.fst).length + 2 ≤ order - 1 := by simpa using hsa
    have hmove := @borrowLeft_leaf order (order / 2) ((order + 1) / 2 - 1) (lb.entries.map Prod.fst) (E.map Prod.fst)
      P (lb.entries.map Prod.snd ++ [lb.next]) (E.map Prod.snd ++ [va]) cs ka kb na vb div
      (by simp; omega) (by simp) (by simp) hroom (by simp at hspare ⊢; omega) hdiv
    refine ⟨Tree.leaf ⟨oa, E ++ [(ka, va)], na⟩, ka, Tree.leaf ⟨lb.off, (kb, vb) :: lb.entries, lb.next⟩, ?_,
      ⟨rfl, rfl, fun w' wa wb hsame => ?_, ⟨?_, fun X Y hord => ?_⟩, ?_, ?_, ?_⟩, by simp, by simp⟩
    · simpa [Leaf.node] using hmove
    · refine exchange_leaf rfl rfl rfl rfl hn hnd ?_ ?_ wa wb hsame
      · exact fun x hx => hna.keys_leaf x (by simp at hx ⊢; tauto)
      · intro x hx
        rcases mem_cons.1 hx with rfl | hx
        · exact hna.keys_leaf _ (by simp)
        · exact hnb.keys_leaf x hx
    · simp
    · have := ordered_sep_front (P := X ++ E.map fun e => .entry e.1.str e.2) (x := k.str) (a := ka.str)
        (b := kb.str) (v := vb) (u := va) (Q := (lb.entries.map fun e => .entry e.1.str e.2) ++ Y) (by simpa using hord)
      simpa using this
    · exact hna.keys_leaf ka (by simp)
    · rw [Tree.sound_leaf] at hsa ⊢
      exact le_trans (by simp) hsa
    · rw [Tree.sound_leaf, length_cons]; omega
  | succ h =>
    obtain ⟨oa, ma, rfl⟩ := a.exists_inner
    obtain ⟨ob, mb, rfl⟩ := b.exists_inner
    simp only [Tree.minCount, Nat.add_one_ne_zero, if_false, Tree.count_inner] at hmin hspare
    obtain ⟨ma, kb, c, rfl⟩ := Spine.exists_join_last (m := ma) (by omega)
    simp only [Tree.sound_inner, Spine.rest_length_join, Spine.kids_join, forall_mem_append, Spine.single_rest,
      length_nil, Spine.kids_single, forall_mem_singleton] at hsa hsb hspare
    have hmove := @borrowLeft_internal order (order / 2) ((order + 1) / 2 - 1) mb.keys ma.keys P
      (mb.kids.map Tree.off) (ma.kids.map Tree.off) cs kb c.off div
      (by simp; omega) (by simp) (by simp) (by simp; omega) (by simp; omega) hdiv
    refine ⟨Tree.inner oa ma, kb, Tree.inner ob ((Spine.single c).join k mb), ?_,
      ⟨rfl, rfl, fun w' wa wb hsame => ?_, Reorders.of_eq ?_, ?_, ?_, ?_⟩, by simp; omega, by simp⟩
    · simpa [Tree.node_inner, hk] using hmove
    · refine exchange_inner (by simp) hn hnd ?_ ?_ wa wb hsame
      · exact fun x hx => hna.keys_inner x (by simp [hx])
      · intro x hx
        simp only [Spine.keys_join, Spine.keys_single, nil_append, mem_cons] at hx
        rcases hx with rfl | hx
        · exact hkOk
        · exact hnb.keys_inner x hx
    · simp
    · exact hna.keys_inner kb (by simp)
    · exact (Tree.sound_inner _ _ _).2 ⟨by omega, hsa.2.1⟩
    · simp only [Tree.sound_inner, Spine.rest_length_join, Spine.kids_join, forall_mem_append, Spine.single_rest,
        length_nil, Spine.kids_single, forall_mem_singleton]
      exact ⟨by omega, hsa.2.2, hsb.2⟩

/-- **The left merge** puts what the right neighbour holds into the left one. -/
theorem mergeLeft_tree (ho : 3 ≤ order) (hdiv : div - 1 < P.length) (hk : P[div - 1] = k) (hkOk : KeyOk k.slot)
    (hmin : b.count < Tree.minCount order h) (hfull : a.count ≤ Tree.minCount order h)
    (hsa : a.Sound order) (hsb : b.Sound order)
    (hn : NodesIn KeyOk w ((Spine.pair a k b).collect (Tree.nodes order)))
    (hnd : ((Spine.pair a k b).collect Tree.offs).Nodup) :
    ∃ a' : Tree h, mergeLeft (b.node order) (packNode order false P cs) (a.node order) div = some (a'.node order) ∧
      Absorb order KeyOk w a k b a' ∧ a.count ≤ a'.count := by
  obtain ⟨hna, hnb⟩ := nodesIn_pair hn
  cases h with
  | zero =>
    obtain ⟨la, rfl⟩ := a.exists_leaf
    obtain ⟨lb, rfl⟩ := b.exists_leaf
    simp only [Tree.minCount, if_true, Tree.count_leaf] at hmin hfull
    have hmove := @mergeLeft_leaf order (la.entries.map Prod.fst) (lb.entries.map Prod.fst) P
      (la.entries.map Prod.snd) (lb.entries.map Prod.snd) cs la.next lb.next div (by simp) (by simp) (by simp; omega) (by omega)
    refine ⟨Tree.leaf ⟨la.off, la.entries ++ lb.entries, lb.next⟩, ?_, ⟨rfl, fun w' wa wb hsame => ?_, ?_, ?_⟩, by simp⟩
    · simpa [Leaf.node] using hmove
    · refine absorb_leaf rfl rfl hn hnd ?_ wa wb hsame
      intro x hx
      rw [map_append, mem_append] at hx
      exact hx.elim (hna.keys_leaf x) (hnb.keys_leaf x)
    · have := Reorders.drop_sep (P := (Tree.leaf la).flat) (Q := (Tree.leaf lb).flat) k.str
      simpa using this
    · rw [Tree.sound_leaf, length_append]; omega
  | succ h =>
    obtain ⟨oa, ma, rfl⟩ := a.exists_inner
    obtain ⟨ob, mb, rfl⟩ := b.exists_inner
    simp only [Tree.minCount, Nat.add_one_ne_zero, if_false, Tree.count_inner] at hmin hfull
    have hmove := @mergeLeft_internal order ma.keys mb.keys P (ma.kids.map Tree.off) (mb.kids.map Tree.off) cs div
      (by simp) (by simp) (by simp; omega) hdiv
    refine ⟨Tree.inner oa (ma.join k mb), ?_, ⟨rfl, fun w' wa wb hsame => ?_, Reorders.of_eq (by simp), ?_⟩, ?_⟩
    · simpa [Tree.node_inner, hk] using hmove
    · refine absorb_inner (by simp) hn hnd ?_ wa wb hsame
      intro x hx
      simp only [Spine.keys_join, mem_append, mem_cons] at hx
      rcases hx with hx | rfl | hx
      · exact hna.keys_inner x hx
      · exact hkOk
      · exact hnb.keys_inner x hx
    · simp only [Tree.sound_inner, Spine.rest_length_join, Spine.kids_join, forall_mem_append]
      exact ⟨by omega, hsa.2, hsb.2⟩
    · simp only [Tree.count_inner, Spine.rest_length_join]; omega

end Moves

end KVStores.Gdb
