import KVStores.Gdb.Deletes

/-!
# Traversing a tree

`btreeTraverse` follows the leaf chain from `leftLeaf` on.

Two things make it go wrong: a tree emptied by deletions keeps its `leftLeaf`, and an entry
whose offset is `(offset_t)-1` looks like the end of the chain.
-/

namespace KVStores.Gdb

open List Option

theorem entriesOf_leaves : ∀ {h : ℕ} (t : Tree h), entriesOf t.flat = t.leaves.flatMap fun l => l.entries.map fun e => (e.1.str, e.2) := by
  intro h
  induction h with
  | zero =>
    intro t
    obtain ⟨l, rfl⟩ := t.exists_leaf
    rw [Tree.flat_leaf, Tree.leaves_leaf, flatMap_singleton]
    induction l.entries with
    | nil => rfl
    | cons e E ih => rw [map_cons, map_cons, entriesOf_entry, ih]
  | succ h ih =>
    intro t
    obtain ⟨o, ⟨c, rest⟩, rfl⟩ := t.exists_inner
    rw [Tree.flat_inner, Spine.flat, entriesOf_append, ih c, Tree.leaves_inner, Spine.collect, Spine.kids, flatMap_cons, flatMap_append]
    congr 1
    induction rest with
    | nil => rfl
    | cons p rest ihr =>
      rw [flatMap_cons, cons_append, entriesOf_sep, entriesOf_append, ihr, ih p.2, map_cons, flatMap_cons, flatMap_append]

theorem leaves_pos {order : ℕ} (ho : 3 ≤ order) : ∀ {h : ℕ} (t : Tree h), t.Sound order → 0 < t.count →
    ∀ l ∈ t.leaves, 0 < l.entries.length := by
  intro h
  induction h with
  | zero =>
    intro t _ hc l hl
    obtain ⟨l', rfl⟩ := t.exists_leaf
    rw [Tree.leaves_leaf, mem_singleton] at hl
    rwa [hl]
  | succ h ih =>
    intro t hs _ l hl
    obtain ⟨o, m, rfl⟩ := t.exists_inner
    obtain ⟨c, hc, hl⟩ := mem_flatMap.1 (show l ∈ m.kids.flatMap Tree.leaves from hl)
    have hfull := ((Tree.sound_inner _ _ _).1 hs).2 c hc
    exact ih c hfull.2 (lt_of_lt_of_le (Tree.minCount_pos ho h) hfull.1) l hl

variable {l : Leaf} {A B : List (SizedKey × Offset)} {e : SizedKey × Offset}

theorem Leaf.children_entry (order : ℕ) (h : l.entries = A ++ e :: B) : (l.node order).children[A.length]? = some e.2 := by
  unfold Leaf.node packNode pad
  simp [h]

theorem Leaf.children_next (order : ℕ) (l : Leaf) : (l.node order).children[l.entries.length]? = some l.next := by
  unfold Leaf.node packNode pad
  simp

theorem Leaf.node_keyCount (order : ℕ) (l : Leaf) : (l.node order).keyCount = l.entries.length := by
  simp [Leaf.node]

def leafOffsets (ls : List Leaf) : List Offset := ls.flatMap fun l => l.entries.map Prod.snd

theorem leafOffsets_leaves {h : ℕ} (t : Tree h) : leafOffsets t.leaves = (entriesOf t.flat).map Prod.snd := by
  rw [entriesOf_leaves, leafOffsets, map_flatMap]
  simp only [List.map_map]
  rfl

variable {σ : Type} {S : NodeStore σ} {F : Prop} {KeyOk : KeySlot → Prop} {Abs : σ → World → Prop}
  {tree : BTree} {s : σ} {w : World} {E : List (CStr × Offset)} {D : List Offset}

theorem next_in_leaf {e' : SizedKey × Offset}
    (h : l.entries = A ++ e :: e' :: B) : btreeGetNextOffset S tree s (l.node tree.order) (A.length + 1) =
      some (e'.2, l.node tree.order, A.length + 2) := by
  have hchild := Leaf.children_entry tree.order (l := l) (A := A ++ [e]) (B := B) (e := e') (by simpa using h)
  rw [length_append, length_singleton] at hchild
  unfold btreeGetNextOffset
  rw [Leaf.node_keyCount, if_neg (by simp [h]), hchild]
  rfl

theorem next_at_end (h : l.next = 0) : btreeGetNextOffset S tree s (l.node tree.order) l.entries.length =
    some (noOffset, l.node tree.order, l.entries.length) := by
  unfold btreeGetNextOffset
  rw [Leaf.node_keyCount, if_pos rfl, Leaf.children_next, h]
  rfl

theorem next_leaf (hS : S.Lawful F KeyOk Abs) (ha : Abs s w) {l' : Leaf} (hnext : l.next = l'.off)
    (hl' : dbHeaderBlockSize ≤ l'.off ∧ w l'.off = some (.btreeNode (l'.node tree.order))) (h : l'.entries = e :: B) :
    Meets F (btreeGetNextOffset S tree s (l.node tree.order) l.entries.length) (· = (e.2, l'.node tree.order, 1)) := by
  have hchild := Leaf.children_entry tree.order (l := l') (A := []) (B := B) (e := e) h
  unfold btreeGetNextOffset
  rw [Leaf.node_keyCount, if_pos rfl, Leaf.children_next, hnext]
  refine Meets.bind_eq rfl ?_
  rw [if_neg (ne_zero_of_valid hl'.1), if_neg (not_lt.2 hl'.1)]
  refine Meets.bind (hS.readNode ha hl'.2) ?_
  rintro _ rfl
  exact Meets.bind_eq hchild (Meets.pure rfl)

theorem traverseLoop_spec (hS : S.Lawful F KeyOk Abs) (ha : Abs s w) : ∀ (fuel : ℕ) (ls : List Leaf) (l : Leaf)
    (A B : List (SizedKey × Offset)) (e : SizedKey × Offset), l.entries = A ++ e :: B → l.next = headOff ls 0 →
      Linked ls 0 → (∀ l' ∈ ls, dbHeaderBlockSize ≤ l'.off ∧ w l'.off = some (.btreeNode (l'.node tree.order))) →
      (∀ l' ∈ ls, 0 < l'.entries.length) → (∀ v ∈ e.2 :: (B.map Prod.snd ++ leafOffsets ls), v ≠ noOffset) →
      (B.map Prod.snd ++ leafOffsets ls).length + 1 < fuel → Meets F (traverseLoop S tree s fuel e.2 (l.node tree.order) (A.length + 1))
        (· = e.2 :: (B.map Prod.snd ++ leafOffsets ls)) := by
  intro fuel
  induction fuel with
  | zero => exact fun _ _ _ _ _ _ _ _ _ _ _ hf => absurd hf (Nat.not_lt_zero _)
  | succ fuel ih =>
    intro ls l A B e hE hnext hlink hin hpos hne hf
    unfold traverseLoop
    rw [if_neg (hne e.2 mem_cons_self)]
    cases B with
    | cons e' B =>
      -- the next entry is in the same leaf
      refine Meets.bind_eq (next_in_leaf hE) ?_
      have hrec := ih ls l (A ++ [e]) B e' (by simp [hE]) hnext hlink hin hpos
        (fun v hv => hne v (mem_cons_of_mem _ hv)) (by simp at hf ⊢; omega)
      rw [length_append, length_singleton] at hrec
      refine Meets.bind hrec ?_
      rintro _ rfl
      exact Meets.pure rfl
    | nil =>
      have hlast : A.length + 1 = l.entries.length := by simp [hE]
      rw [hlast]
      cases ls with
      | nil =>
        -- this was the last one
        refine Meets.bind_eq (next_at_end hnext) ?_
        obtain ⟨fuel, rfl⟩ : ∃ n, fuel = n + 1 := ⟨fuel - 1, by simp at hf; omega⟩
        refine Meets.bind_eq (a := []) ?_ (Meets.pure rfl)
        unfold traverseLoop
        rw [if_pos rfl]
      | cons l' ls =>
        -- the next one is the first of the next leaf
        obtain ⟨e', B, hE'⟩ := exists_cons_of_length_pos (hpos l' mem_cons_self)
        have hoffs : leafOffsets (l' :: ls) = e'.2 :: (B.map Prod.snd ++ leafOffsets ls) := by
          simp [leafOffsets, hE']
        rw [map_nil, nil_append, hoffs] at hne hf ⊢
        refine Meets.bind (next_leaf hS ha hnext (hin l' mem_cons_self) hE') ?_
        rintro _ rfl
        refine Meets.bind (ih ls l' [] B e' hE' hlink.1 hlink.2 (fun x hx => hin x (mem_cons_of_mem _ hx))
          (fun x hx => hpos x (mem_cons_of_mem _ hx)) (fun v hv => hne v (mem_cons_of_mem _ hv))
          (by simp at hf ⊢; omega)) ?_
        rintro _ rfl
        exact Meets.pure rfl

/-- Whether a traversal starts at a leaf of the tree, if it starts at all. -/
def traverseSafe {σ : Type} (S : NodeStore σ) (tree : BTree) (s : σ) : Option Bool := do
  let header ← S.readHeader s tree.block
  return header.root ≠ 0 || header.leftLeaf < dbHeaderBlockSize

/-- **A traversal** calls `process` once for every entry, in the order of the keys. -/
theorem btreeTraverse_spec (hS : S.Lawful F KeyOk Abs) (ho : 3 ≤ tree.order) (ha : Abs s w) (hT : TreeAt KeyOk w tree E D)
    (hsafe : traverseSafe S tree s = some true) (hne : ∀ e ∈ E, e.2 ≠ noOffset) {fuel : ℕ} (hf : E.length < fuel) :
    Meets F (btreeTraverse S tree fuel s) (· = E.map Prod.snd) := by
  cases hT with
  | empty leftLeaf header =>
    obtain ⟨_, rfl, hsafe⟩ := (hS.readHeader ha header).bind_inv hsafe
    have hleft : leftLeaf < dbHeaderBlockSize := by simpa using Option.some.inj hsafe
    refine Meets.bind (hS.readHeader ha header) ?_
    rintro _ rfl
    rw [if_pos hleft]
    exact Meets.pure rfl
  | @tree h t valid nodes header =>
    have hin : ∀ l ∈ t.leaves, dbHeaderBlockSize ≤ l.off ∧ w l.off = some (.btreeNode (l.node tree.order)) :=
      fun l hl => ⟨(nodes _ (t.leaf_nodes l hl)).1, (nodes _ (t.leaf_nodes l hl)).2.1⟩
    have hpos := leaves_pos ho t valid.sound valid.pos
    have hlink := valid.linked
    have hoffs := leafOffsets_leaves t
    have hd := t.depth_lt ho valid.sound valid.pos
    have hne' : ∀ v ∈ leafOffsets t.leaves, v ≠ noOffset := by
      intro v hv
      rw [hoffs] at hv
      obtain ⟨e, he, rfl⟩ := List.mem_map.1 hv
      exact hne e he
    have hlen : (leafOffsets t.leaves).length < fuel := by rwa [hoffs, length_map]
    refine Meets.bind (hS.readHeader ha header) ?_
    rintro _ rfl
    rw [← hoffs]
    cases hls : t.leaves with
    | nil =>
      have hlen' := congrArg List.length hoffs
      rw [hls, length_map] at hlen'
      exact absurd hlen' (by simp [leafOffsets]; omega)
    | cons l ls =>
      rw [hls] at hin hpos hlink hne' hlen
      obtain ⟨e, B, hE⟩ := exists_cons_of_length_pos (hpos l mem_cons_self)
      have hl := hin l mem_cons_self
      have hcons : leafOffsets (l :: ls) = e.2 :: (B.map Prod.snd ++ leafOffsets ls) := by simp [leafOffsets, hE]
      rw [hcons] at hne' hlen ⊢
      rw [headOff_cons, if_neg (not_lt.2 hl.1)]
      refine Meets.bind (hS.readNode ha hl.2) ?_
      rintro _ rfl
      refine Meets.bind_eq (Leaf.children_entry tree.order (A := []) hE) ?_
      exact traverseLoop_spec hS ha fuel ls l [] B e hE hlink.1 hlink.2 (fun x hx => hin x (mem_cons_of_mem _ hx))
        (fun x hx => hpos x (mem_cons_of_mem _ hx)) hne' (by simpa using hlen)

/-- A traversal that starts at a stale leaf calls `process` or does not return. -/
theorem btreeTraverse_stale {header : BTreeHeader} {node : BTreeNode} (hh : S.readHeader s tree.block = some header)
    (hleft : dbHeaderBlockSize ≤ header.leftLeaf) (hnode : S.readNode s tree.order header.leftLeaf = some node)
    (hchild : node.children[0]? ≠ some noOffset) (fuel : ℕ) : btreeTraverse S tree fuel s ≠ some [] := by
  intro htr
  unfold btreeTraverse at htr
  rw [hh, bind_eq_bind, bind_some, if_neg (not_lt.2 hleft), hnode, bind_eq_bind, bind_some] at htr
  obtain ⟨offset, hoffset, htr⟩ := bind_eq_some_iff.1 htr
  cases fuel with
  | zero => cases htr
  | succ fuel =>
    unfold traverseLoop at htr
    rw [if_neg (fun e => hchild (by rw [hoffset, e]))] at htr
    obtain ⟨p, -, htr⟩ := bind_eq_some_iff.1 htr
    obtain ⟨l, -, htr⟩ := bind_eq_some_iff.1 htr
    cases htr

end KVStores.Gdb
