import KVStores.Gdb.Neighbours

/-!
# A rebalancing step

`rebalance_spec`: when a child has become one key too small, **the end of `__delete` makes
all children full again** (`Restored`), by a borrowing from the right, a borrowing from the
left or a merge with the left neighbour. The two cases in which the code frees keys that are
still in use are left out: `keys[i]` of a child at position `i` when it borrows from the
right, and the merge of a first child.
-/

namespace KVStores.Gdb

open List

def BTree.minKeys (tree : BTree) (leaf : Bool) : ℕ := if leaf then tree.minLeaf else tree.minInt

variable {σ : Type} {S : NodeStore σ} {F : Prop} {KeyOk : KeySlot → Prop} {Abs : σ → World → Prop}
  {tree : BTree} {s : σ} {w : World} {h : ℕ}

theorem minKeys_node (t : Tree h) : tree.minKeys (t.node tree.order).leaf = Tree.minCount tree.order h := by
  cases h
  · rfl
  · rfl

theorem Tree.node_keyCount (t : Tree h) : (t.node tree.order).keyCount = t.count := by
  cases h with
  | zero =>
    obtain ⟨l, rfl⟩ := t.exists_leaf
    simp [Leaf.node]
  | succ h =>
    obtain ⟨o, m, rfl⟩ := t.exists_inner
    simp [Tree.node_inner]

section Neighbours

variable {o : Offset} {L : List (Tree h × SizedKey)} {u : Tree h} {R : List (SizedKey × Tree h)} {k : SizedKey}

theorem childAt_plug_right {b : Tree h} :
    ((Tree.inner o (Spine.plug L (Spine.single u) ((k, b) :: R))).node tree.order).childAt (L.length + 1) = b.off := by
  rw [Tree.node_inner, childAt_pack _ _ _ _ (by simp)]
  simp

theorem childAt_plug_left {a : Tree h} :
    ((Tree.inner o (Spine.plug (L ++ [(a, k)]) (Spine.single u) R)).node tree.order).childAt L.length = a.off := by
  rw [Tree.node_inner, childAt_pack _ _ _ _ (by simp)]
  simp

theorem keyCount_plug : ((Tree.inner o (Spine.plug L (Spine.single u) R)).node tree.order).keyCount = L.length + R.length := by
  rw [Tree.node_keyCount]; simp

theorem NodesIn.kids (hn : NodesIn KeyOk w ((Tree.inner o (Spine.plug L (Spine.single u) R)).nodes tree.order)) :
    NodesIn KeyOk w ((Spine.plug L (Spine.single u) R).collect (Tree.nodes tree.order)) := hn.inner.2.2.2

def spareRight (order : ℕ) (R : List (SizedKey × Tree h)) : Bool :=
  match R with
  | [] => false
  | p :: _ => Tree.minCount order h < p.2.count

def spareLeft (order : ℕ) (L : List (Tree h × SizedKey)) : Bool :=
  match L.getLast? with
  | none => false
  | some p => Tree.minCount order h < p.1.count

variable {order : ℕ}

@[simp] theorem spareRight_cons (k : SizedKey) (b : Tree h) :
    spareRight order ((k, b) :: R) = decide (Tree.minCount order h < b.count) := rfl

@[simp] theorem spareLeft_concat (a : Tree h) (k : SizedKey) :
    spareLeft order (L ++ [(a, k)]) = decide (Tree.minCount order h < a.count) := by
  simp [spareLeft]

end Neighbours

section Rebalance

variable {o : Offset} {L : List (Tree h × SizedKey)} {R : List (SizedKey × Tree h)} {a b a' b' : Tree h} {k k' : SizedKey}
  {w₁ : World}
variable (hn : NodesIn KeyOk w ((Tree.inner o (Spine.plug L (Spine.pair a k b) R)).nodes tree.order))
  (hnd : (Tree.inner o (Spine.plug L (Spine.pair a k b) R)).offs.Nodup)

include hn hnd in
theorem pair_of_plug
    : NodesIn KeyOk w ((Spine.pair a k b).collect (Tree.nodes tree.order)) ∧ ((Spine.pair a k b).collect Tree.offs).Nodup := by
  rw [Tree.nodes_inner, nodesIn_cons, Spine.collect_plug, nodesIn_append, nodesIn_append] at hn
  rw [Tree.nodup_inner, Spine.collect_plug] at hnd
  exact ⟨hn.2.2.1, (nodup_append'.1 (nodup_append'.1 hnd.2).2.1).1⟩

include hnd in
theorem offs_ne_of_plug : a.off ≠ b.off ∧ o ≠ a.off ∧ o ≠ b.off := by
  rw [Tree.nodup_inner, Spine.collect_plug, Spine.collect_pair] at hnd
  obtain ⟨ho, hnd⟩ := hnd
  refine ⟨fun e => ?_, fun e => ho ?_, fun e => ho ?_⟩
  · have := (nodup_append'.1 (nodup_append'.1 hnd).2.1).1
    exact (nodup_append'.1 this).2.2 a.off_mem_offs (e ▸ b.off_mem_offs)
  · simp [e, a.off_mem_offs]
  · simp [e, b.off_mem_offs]

include hn hnd in
theorem Exchange.inner (e : Exchange tree.order KeyOk w a k b a' k' b')
    (wa : w₁ a.off = some (.btreeNode (a'.node tree.order))) (wb : w₁ b.off = some (.btreeNode (b'.node tree.order)))
    (hsame : ∀ p, p ≠ a.off → p ≠ b.off → w₁ p = w p) : Graft tree.order KeyOk w
      (w₁.put o (.btreeNode ((Tree.inner o (Spine.plug L (Spine.pair a' k' b') R)).node tree.order)))
      (Spine.single (Tree.inner o (Spine.plug L (Spine.pair a k b) R)))
      (Spine.single (Tree.inner o (Spine.plug L (Spine.pair a' k' b') R))) := by
  have hkeys := hn.keys_inner
  rw [Tree.nodes_inner, nodesIn_cons] at hn
  rw [Tree.nodup_inner] at hnd
  refine ((e.graft w₁ wa wb hsame).plug hn.2 hnd.2).inner hn.1.1 (by rw [hn.1.2.1]; simp) hnd.1 ?_
  intro x hx
  simp only [Spine.keys_plug, Spine.keys_pair, mem_append, mem_singleton] at hx hkeys
  rcases hx with hx | rfl | hx
  · exact hkeys x (Or.inl hx)
  · exact e.keyOk
  · exact hkeys x (Or.inr (Or.inr hx))

include hn hnd in
theorem Absorb.inner (e : Absorb tree.order KeyOk w a k b a')
    (wa : w₁ a.off = some (.btreeNode (a'.node tree.order))) (wb : w₁ b.off = none)
    (hsame : ∀ p, p ≠ a.off → p ≠ b.off → w₁ p = w p) : Graft tree.order KeyOk w
      (w₁.put o (.btreeNode ((Tree.inner o (Spine.plug L (Spine.single a') R)).node tree.order)))
      (Spine.single (Tree.inner o (Spine.plug L (Spine.pair a k b) R)))
      (Spine.single (Tree.inner o (Spine.plug L (Spine.single a') R))) := by
  have hkeys := hn.keys_inner
  rw [Tree.nodes_inner, nodesIn_cons] at hn
  rw [Tree.nodup_inner] at hnd
  refine ((e.graft w₁ wa wb hsame).plug hn.2 hnd.2).inner hn.1.1 (by rw [hn.1.2.1]; simp) hnd.1 ?_
  intro x hx
  simp only [Spine.keys_plug, Spine.keys_single, nil_append, mem_append] at hx hkeys
  rcases hx with hx | hx
  · exact hkeys x (Or.inl hx)
  · exact hkeys x (Or.inr (Or.inr hx))

theorem node_set_sep (h1 : a'.off = a.off) (h2 : b'.off = b.off) :
    packNode tree.order false ((Spine.plug L (Spine.pair a k b) R).keys.set L.length k')
        ((Spine.plug L (Spine.pair a k b) R).kids.map Tree.off) =
      (Tree.inner o (Spine.plug L (Spine.pair a' k' b') R)).node tree.order := by
  rw [Tree.node_inner]
  congr 1
  · simp
  · simp [h1, h2]

theorem node_remove (hroom : L.length + (1 + R.length) ≤ tree.order - 1) (h1 : a'.off = a.off) :
    removeKey2 (((Tree.inner o (Spine.plug L (Spine.pair a k b) R)).node tree.order).setChild (L.length + 1) a.off) L.length =
      (Tree.inner o (Spine.plug L (Spine.single a') R)).node tree.order := by
  have hset := @packNode_setChild tree.order false (Spine.plug L (Spine.pair a k b) R).keys
    ((Spine.plug L (Spine.pair a k b) R).kids.map Tree.off) a.off (L.length + 1) (by simp)
  have hrem := @removeKey2_pack tree.order false (L.map Prod.snd) (R.map Prod.fst) (L.map (Tree.off ∘ Prod.fst))
    (a.off :: R.map (Tree.off ∘ Prod.snd)) k a.off (by simp; omega) (by simp) (by simp)
  rw [Tree.node_inner, hset]
  have hlist : ((Spine.plug L (Spine.pair a k b) R).kids.map Tree.off).set (L.length + 1) a.off =
      L.map (Tree.off ∘ Prod.fst) ++ a.off :: a.off :: R.map (Tree.off ∘ Prod.snd) := by
    simp [set_append_right]
  simpa [Tree.node_inner, h1] using hrem

variable (hS : S.Lawful F KeyOk Abs) (ha : Abs s w)
include hS ha

variable {x y : Offset} {nx ny : BTreeNode}

theorem writeSiblings_spec {o : Offset} {no : BTreeNode} (hx : w x = some (.btreeNode nx))
    (hy : w y = some (.btreeNode ny)) (ho : w o = some (.btreeNode no)) (hxy : x ≠ y) (hox : o ≠ x) (hoy : o ≠ y)
    {sib : Siblings} (h1 : NodeOk KeyOk sib.rootNode) (h2 : NodeOk KeyOk sib.prevNode) (h3 : NodeOk KeyOk sib.node) :
    Meets F (writeSiblings S tree s x o y sib) fun s' =>
      Abs s' (((w.put y (.btreeNode sib.node)).put x (.btreeNode sib.rootNode)).put o (.btreeNode sib.prevNode)) := by
  refine Meets.bind (hS.writeNode ha hy h3) ?_
  intro s1 ha1
  refine Meets.bind (hS.writeNode ha1 (show _ = some (Block.btreeNode nx) by rw [World.put_of_ne _ _ hxy, hx]) h1) ?_
  intro s2 ha2
  exact hS.writeNode ha2 (show _ = some (Block.btreeNode no) by rw [World.put_of_ne _ _ hox, World.put_of_ne _ _ hoy, ho]) h2

omit hS ha

def Tree.Full (order : ℕ) (t : Tree h) : Prop := Tree.minCount order h ≤ t.count ∧ t.Sound order

variable (hL : ∀ p ∈ L, p.1.Full tree.order) (hR : ∀ p ∈ R, p.2.Full tree.order)

/-- The outcome of a rebalancing step below the node `o`: all children are full again, and
there is one less if two were merged. -/
structure Restored (order : ℕ) (KeyOk : KeySlot → Prop) (w w' : World) (o : Offset) (m m' : Spine (Tree h))
    (merged : Bool) : Prop where
  graft : Graft order KeyOk w w' (Spine.single (Tree.inner o m)) (Spine.single (Tree.inner o m'))
  items : Reorders (m.flat Tree.flat) (m'.flat Tree.flat)
  full : ∀ t ∈ m'.kids, t.Full order
  length : m'.rest.length + merged.toNat = m.rest.length

theorem Restored.nodeOk {m m' : Spine (Tree h)} {w' : World} {merged : Bool}
    (r : Restored tree.order KeyOk w w' o m m' merged) : NodeOk KeyOk ((Tree.inner o m').node tree.order) :=
  (r.graft.nodesIn (o, (Tree.inner o m').node tree.order) (by simp)).2.2

include hn hnd hL hR in
theorem Exchange.restored (e : Exchange tree.order KeyOk w a k b a' k' b')
    (hfa : Tree.minCount tree.order h ≤ a'.count) (hfb : Tree.minCount tree.order h ≤ b'.count)
    (wa : w₁ a.off = some (.btreeNode (a'.node tree.order))) (wb : w₁ b.off = some (.btreeNode (b'.node tree.order)))
    (hsame : ∀ p, p ≠ a.off → p ≠ b.off → w₁ p = w p) : Restored tree.order KeyOk w
      (w₁.put o (.btreeNode ((Tree.inner o (Spine.plug L (Spine.pair a' k' b') R)).node tree.order))) o
      (Spine.plug L (Spine.pair a k b) R) (Spine.plug L (Spine.pair a' k' b') R) false where
  graft := e.inner hn hnd wa wb hsame
  items := by
    rw [Spine.flat_plug, Spine.flat_plug]
    exact e.items.context _ _
  full t ht := by
    simp only [Spine.kids_plug, Spine.kids_pair, mem_append, List.mem_map, mem_cons, not_mem_nil, or_false] at ht
    rcases ht with ⟨p, hp, rfl⟩ | (rfl | rfl) | ⟨p, hp, rfl⟩
    · exact hL p hp
    · exact ⟨hfa, e.sound_left⟩
    · exact ⟨hfb, e.sound_right⟩
    · exact hR p hp
  length := by simp

include hn hnd hL hR in
theorem Absorb.restored (e : Absorb tree.order KeyOk w a k b a')
    (hfa : Tree.minCount tree.order h ≤ a'.count)
    (wa : w₁ a.off = some (.btreeNode (a'.node tree.order))) (wb : w₁ b.off = none)
    (hsame : ∀ p, p ≠ a.off → p ≠ b.off → w₁ p = w p) : Restored tree.order KeyOk w
      (w₁.put o (.btreeNode ((Tree.inner o (Spine.plug L (Spine.single a') R)).node tree.order))) o
      (Spine.plug L (Spine.pair a k b) R) (Spine.plug L (Spine.single a') R) true where
  graft := e.inner hn hnd wa wb hsame
  items := by
    rw [Spine.flat_plug, Spine.flat_plug, Spine.flat_single]
    exact e.items.context _ _
  full t ht := by
    simp only [Spine.kids_plug, Spine.kids_single, mem_append, List.mem_map, mem_singleton] at ht
    rcases ht with ⟨p, hp, rfl⟩ | rfl | ⟨p, hp, rfl⟩
    · exact hL p hp
    · exact ⟨hfa, e.sound⟩
    · exact hR p hp
  length := by simp; omega

include hn in
theorem sep_of_plug : ∃ hd : L.length < (Spine.plug L (Spine.pair a k b) R).keys.length,
      (Spine.plug L (Spine.pair a k b) R).keys[L.length] = k ∧ KeyOk k.slot :=
  ⟨by simp, by simp, hn.keys_inner k (by simp)⟩

include hn in
theorem blocks_of_plug : w a.off = some (.btreeNode (a.node tree.order)) ∧ w b.off = some (.btreeNode (b.node tree.order)) ∧
      w o = some (.btreeNode ((Tree.inner o (Spine.plug L (Spine.pair a k b) R)).node tree.order)) := by
  obtain ⟨-, hwo, -, hkids⟩ := hn.inner
  exact ⟨(hkids.kid (t := a) (by simp) _ (a.off_mem_nodes _)).2.1, (hkids.kid (t := b) (by simp) _ (b.off_mem_nodes _)).2.1, hwo⟩

theorem put_two (hxy : x ≠ y) (bx bY : Block) : ((w.put y bY).put x bx) x = some bx ∧ ((w.put y bY).put x bx) y = some bY ∧
      ∀ p, p ≠ x → p ≠ y → ((w.put y bY).put x bx) p = w p :=
  ⟨World.put_self _ _ _, by rw [World.put_of_ne _ _ hxy.symm, World.put_self],
    fun p h1 h2 => by rw [World.put_of_ne _ _ h1, World.put_of_ne _ _ h2]⟩

include hS ha

include hn hnd in
theorem borrowFrom_right (ho : 3 ≤ tree.order)
    (hsa : a.Sound tree.order) (hsb : b.Sound tree.order) (hmin : a.count < Tree.minCount tree.order h)
    (hspare : Tree.minCount tree.order h < b.count) (hfree : a.count < L.length) :
    ∃ a' k' b', Exchange tree.order KeyOk w a k b a' k' b' ∧ a'.count = a.count + 1 ∧ b'.count + 1 = b.count ∧
      Meets F (borrowFrom S tree s ((Tree.inner o (Spine.plug L (Spine.pair a k b) R)).node tree.order) (L.length + 1)
        (L.length < ((Tree.inner o (Spine.plug L (Spine.pair a k b) R)).node tree.order).keyCount)
        (borrowRight tree.minLeaf tree.minInt (a.node tree.order)
          ((Tree.inner o (Spine.plug L (Spine.pair a k b) R)).node tree.order) · L.length))
        (· = some (b.off, ⟨a'.node tree.order,
          (Tree.inner o (Spine.plug L (Spine.pair a' k' b') R)).node tree.order, b'.node tree.order⟩)) := by
  obtain ⟨hnp, hndp⟩ := pair_of_plug hn hnd
  obtain ⟨-, hwb, -⟩ := blocks_of_plug hn
  obtain ⟨hdiv, hk, hkOk⟩ := sep_of_plug hn
  obtain ⟨a', k', b', hmove, hex, hca, hcb⟩ := @borrowRight_tree _ _ _ _ _ _ _ _
    ((Spine.plug L (Spine.pair a k b) R).kids.map Tree.off) _
    ho hdiv hk hkOk hmin hfree hspare hsa hsb hnp hndp
  have hchild : ((Tree.inner o (Spine.plug L (Spine.pair a k b) R)).node tree.order).childAt (L.length + 1) = b.off := by
    rw [← Spine.plug_cons_right]; exact childAt_plug_right
  refine ⟨a', k', b', hex, hca, hcb, ?_⟩
  unfold borrowFrom
  rw [hchild, if_pos (by rw [Tree.node_keyCount]; simp)]
  refine Meets.bind (hS.readNode ha hwb) ?_
  rintro _ rfl
  refine Meets.bind_eq hmove ?_
  rw [node_set_sep hex.off_left hex.off_right]
  exact Meets.pure rfl

include hn hnd in
theorem borrowFrom_left (ho : 3 ≤ tree.order)
    (hsa : a.Sound tree.order) (hsb : b.Sound tree.order) (hmin : b.count < Tree.minCount tree.order h)
    (hspare : Tree.minCount tree.order h < a.count) :
    ∃ a' k' b', Exchange tree.order KeyOk w a k b a' k' b' ∧ b'.count = b.count + 1 ∧ a'.count + 1 = a.count ∧
      Meets F (borrowFrom S tree s ((Tree.inner o (Spine.plug L (Spine.pair a k b) R)).node tree.order)
        (L.length + 1 - 1) (0 < L.length + 1)
        (borrowLeft tree.minLeaf tree.minInt (b.node tree.order)
          ((Tree.inner o (Spine.plug L (Spine.pair a k b) R)).node tree.order) · (L.length + 1)))
        (· = some (a.off, ⟨b'.node tree.order,
          (Tree.inner o (Spine.plug L (Spine.pair a' k' b') R)).node tree.order, a'.node tree.order⟩)) := by
  obtain ⟨hnp, hndp⟩ := pair_of_plug hn hnd
  obtain ⟨hwa, -, -⟩ := blocks_of_plug hn
  obtain ⟨hdiv, hk, hkOk⟩ := sep_of_plug hn
  obtain ⟨a', k', b', hmove, hex, hcb, hca⟩ := @borrowLeft_tree _ _ _ _ _ _ _ _
    ((Spine.plug L (Spine.pair a k b) R).kids.map Tree.off) (L.length + 1) ho hdiv hk hkOk hmin hspare hsa hsb hnp hndp
  have hchild : ((Tree.inner o (Spine.plug L (Spine.pair a k b) R)).node tree.order).childAt L.length = a.off := by
    rw [← Spine.plug_concat_left]; exact childAt_plug_left
  refine ⟨a', k', b', hex, hcb, hca, ?_⟩
  unfold borrowFrom
  rw [Nat.add_sub_cancel, hchild, if_pos (by simp)]
  refine Meets.bind (hS.readNode ha hwa) ?_
  rintro _ rfl
  refine Meets.bind_eq hmove ?_
  rw [Nat.add_sub_cancel, node_set_sep hex.off_left hex.off_right]
  exact Meets.pure rfl

variable {u : Tree h}

theorem borrowFrom_right_none (hn : NodesIn KeyOk w ((Tree.inner o (Spine.plug L (Spine.single u) R)).nodes tree.order))
    (hspare : spareRight tree.order R = false) (rootNode : BTreeNode) :
    Meets F (borrowFrom S tree s ((Tree.inner o (Spine.plug L (Spine.single u) R)).node tree.order) (L.length + 1)
      (L.length < ((Tree.inner o (Spine.plug L (Spine.single u) R)).node tree.order).keyCount)
      (borrowRight tree.minLeaf tree.minInt rootNode
        ((Tree.inner o (Spine.plug L (Spine.single u) R)).node tree.order) · L.length)) (· = none) := by
  unfold borrowFrom
  rw [keyCount_plug]
  cases R with
  | nil => simp
  | cons p R =>
    obtain ⟨k, b⟩ := p
    rw [childAt_plug_right, if_pos (by simp)]
    refine Meets.bind (hS.readRoot ha (hn.kids.kid (t := b) (by simp))) ?_
    rintro _ rfl
    refine Meets.bind_eq (borrowRight_none ?_) (Meets.pure rfl)
    rw [spareRight_cons, decide_eq_false_iff_not, not_lt] at hspare
    have := @minKeys_node tree _ b
    rw [BTree.minKeys] at this
    rwa [this, Tree.node_keyCount]

theorem borrowFrom_left_none (hn : NodesIn KeyOk w ((Tree.inner o (Spine.plug L (Spine.single u) R)).nodes tree.order))
    (hspare : spareLeft tree.order L = false) (rootNode : BTreeNode) :
    Meets F (borrowFrom S tree s ((Tree.inner o (Spine.plug L (Spine.single u) R)).node tree.order) (L.length - 1)
      (0 < L.length) (borrowLeft tree.minLeaf tree.minInt rootNode
        ((Tree.inner o (Spine.plug L (Spine.single u) R)).node tree.order) · L.length)) (· = none) := by
  unfold borrowFrom
  rcases eq_nil_or_concat L with rfl | ⟨L, ⟨a, k⟩, rfl⟩
  · simp
  · rw [concat_eq_append] at hn hspare ⊢
    rw [length_append, length_singleton, Nat.add_sub_cancel, childAt_plug_left, if_pos (by simp)]
    refine Meets.bind (hS.readRoot ha (hn.kids.kid (t := a) (by simp))) ?_
    rintro _ rfl
    refine Meets.bind_eq (borrowLeft_none ?_) (Meets.pure rfl)
    rw [spareLeft_concat, decide_eq_false_iff_not, not_lt] at hspare
    have := @minKeys_node tree _ a
    rw [BTree.minKeys] at this
    rwa [this, Tree.node_keyCount]

include hn hnd hL hR in
theorem Exchange.write (e : Exchange tree.order KeyOk w a k b a' k' b')
    (hfa : Tree.minCount tree.order h ≤ a'.count) (hfb : Tree.minCount tree.order h ≤ b'.count)
    (hside : (x = a.off ∧ nx = a'.node tree.order ∧ y = b.off ∧ ny = b'.node tree.order) ∨
      (x = b.off ∧ nx = b'.node tree.order ∧ y = a.off ∧ ny = a'.node tree.order)) : Meets F (writeSiblings S tree s x o y
        ⟨nx, (Tree.inner o (Spine.plug L (Spine.pair a' k' b') R)).node tree.order, ny⟩) fun s' =>
      ∃ w', Abs s' w' ∧ Restored tree.order KeyOk w w' o (Spine.plug L (Spine.pair a k b) R)
        (Spine.plug L (Spine.pair a' k' b') R) false := by
  obtain ⟨hab, hoa, hob⟩ := offs_ne_of_plug hnd
  obtain ⟨hwa, hwb, hwo⟩ := blocks_of_plug hn
  rcases hside with ⟨rfl, rfl, rfl, rfl⟩ | ⟨rfl, rfl, rfl, rfl⟩
  · obtain ⟨pa, pb, psame⟩ := put_two (w := w) hab (.btreeNode (a'.node tree.order)) (.btreeNode (b'.node tree.order))
    have hres := e.restored hn hnd hL hR hfa hfb pa pb psame
    have hg := nodesIn_pair (e.graft _ pa pb psame).nodesIn
    refine (writeSiblings_spec hS ha hwa hwb hwo hab hoa hob ?_ ?_ ?_).mono fun s' ha' => ⟨_, ha', hres⟩
    · exact (hg.1 _ (a'.off_mem_nodes _)).2.2
    · exact hres.nodeOk
    · exact (hg.2 _ (b'.off_mem_nodes _)).2.2
  · obtain ⟨pb, pa, psame⟩ := put_two (w := w) hab.symm (.btreeNode (b'.node tree.order)) (.btreeNode (a'.node tree.order))
    have psame' := fun p h1 h2 => psame p h2 h1
    have hres := e.restored hn hnd hL hR hfa hfb pa pb psame'
    have hg := nodesIn_pair (e.graft _ pa pb psame').nodesIn
    refine (writeSiblings_spec hS ha hwb hwa hwo hab.symm hob hoa ?_ ?_ ?_).mono fun s' ha' => ⟨_, ha', hres⟩
    · exact (hg.2 _ (b'.off_mem_nodes _)).2.2
    · exact hres.nodeOk
    · exact (hg.1 _ (a'.off_mem_nodes _)).2.2

include hn hnd hL hR in
theorem mergeNode_left (ho : 3 ≤ tree.order)
    (hroom : L.length + (1 + R.length) ≤ tree.order - 1)
    (hfa : a.Full tree.order) (hsb : b.Sound tree.order) (hmin : b.count < Tree.minCount tree.order h)
    (hspare : a.count ≤ Tree.minCount tree.order h) : Meets F (mergeNode S tree s b.off o (b.node tree.order)
        ((Tree.inner o (Spine.plug L (Spine.pair a k b) R)).node tree.order) (L.length + 1)) fun s' =>
      ∃ w' m', Abs s' w' ∧ Restored tree.order KeyOk w w' o (Spine.plug L (Spine.pair a k b) R) m' true := by
  obtain ⟨hnp, hndp⟩ := pair_of_plug hn hnd
  obtain ⟨hab, hoa, hob⟩ := offs_ne_of_plug hnd
  obtain ⟨hwa, hwb, hwo⟩ := blocks_of_plug hn
  obtain ⟨hdiv, hk, hkOk⟩ := sep_of_plug hn
  obtain ⟨a', hmove, habs, hca⟩ := @mergeLeft_tree _ _ _ _ _ _ _ _
    ((Spine.plug L (Spine.pair a k b) R).kids.map Tree.off) (L.length + 1) ho hdiv hk hkOk hmin hspare hfa.2 hsb hnp hndp
  have hchild : ((Tree.inner o (Spine.plug L (Spine.pair a k b) R)).node tree.order).childAt L.length = a.off := by
    rw [← Spine.plug_concat_left]; exact childAt_plug_left
  -- the world once the merged node is written and the right one erased
  have pa : ((w.put a.off (.btreeNode (a'.node tree.order))).remove b.off) a.off = some (.btreeNode (a'.node tree.order)) := by
    rw [World.remove_of_ne _ hab, World.put_self]
  have psame : ∀ p, p ≠ a.off → p ≠ b.off → ((w.put a.off (.btreeNode (a'.node tree.order))).remove b.off) p = w p :=
    fun p h1 h2 => by rw [World.remove_of_ne _ h2, World.put_of_ne _ _ h1]
  have hg := (habs.graft _ pa (World.remove_self _ _) psame).nodesIn
  rw [Spine.collect_single] at hg
  have hres := habs.restored hn hnd hL hR (hfa.1.trans hca) pa (World.remove_self _ _) psame
  unfold mergeNode
  rw [if_pos (by simp), Nat.add_sub_cancel, hchild]
  refine Meets.bind (hS.readNode ha hwa) ?_
  rintro _ rfl
  refine Meets.bind_eq hmove ?_
  refine Meets.bind (hS.writeNode ha hwa (hg _ (a'.off_mem_nodes _)).2.2) ?_
  intro s1 ha1
  refine Meets.bind (hS.eraseNode ha1 (show _ = some (Block.btreeNode (b.node tree.order)) by
    rw [World.put_of_ne _ _ hab.symm, hwb])) ?_
  intro s2 ha2
  rw [node_remove hroom habs.off_left]
  refine (hS.writeNode ha2 (show _ = some (Block.btreeNode ((Tree.inner o (Spine.plug L (Spine.pair a k b) R)).node tree.order)) by
    rw [psame o hoa hob, hwo]) hres.nodeOk).mono ?_
  exact fun s' ha' => ⟨_, _, ha', hres⟩

/-- **A rebalancing step** that the plan allows leaves all children full. -/
theorem rebalance_spec (ho : 3 ≤ tree.order) (hn : NodesIn KeyOk w ((Tree.inner o (Spine.plug L (Spine.single u) R)).nodes tree.order))
    (hnd : (Tree.inner o (Spine.plug L (Spine.single u) R)).offs.Nodup) (hroom : L.length + R.length ≤ tree.order - 1)
    (hL : ∀ p ∈ L, p.1.Full tree.order) (hR : ∀ p ∈ R, p.2.Full tree.order)
    (hsu : u.Sound tree.order) (hmin : u.count + 1 = Tree.minCount tree.order h)
    (hright : spareRight tree.order R = true → u.count < L.length)
    (hmerge : spareRight tree.order R = false → spareLeft tree.order L = false → 0 < L.length) :
    Meets F (rebalance S tree s u.off (u.node tree.order) o L.length) fun r => ∃ w' m', Abs r.2 w' ∧
      Restored tree.order KeyOk w w' o (Spine.plug L (Spine.single u) R) m' r.1 ∧
      r.1 = (!spareRight tree.order R && !spareLeft tree.order L) := by
  have hwo := (hn _ ((Tree.inner o (Spine.plug L (Spine.single u) R)).off_mem_nodes _)).2.1
  refine Meets.bind (hS.readNode ha hwo) ?_
  rintro _ rfl
  cases hsr : spareRight tree.order R with
  | true =>
    cases R with
    | nil => simp [spareRight] at hsr
    | cons p R =>
      obtain ⟨k, b⟩ := p
      rw [spareRight_cons, decide_eq_true_iff] at hsr
      rw [Spine.plug_cons_right] at hn hnd hwo ⊢
      obtain ⟨a', k', b', hex, hca, hcb, hfrom⟩ := borrowFrom_right hn hnd hS ha ho hsu (hR (k, b) (by simp)).2
        (by omega) hsr (hright (by simpa using hsr))
      refine Meets.bind hfrom ?_
      rintro _ rfl
      refine Meets.bind (hex.write hn hnd hS ha hL (fun p hp => hR p (mem_cons_of_mem _ hp)) (by omega) (by omega)
        (Or.inl ⟨rfl, rfl, rfl, rfl⟩)) ?_
      rintro s' ⟨w', ha', hres⟩
      exact Meets.pure ⟨w', _, ha', hres, by simp⟩
  | false =>
    refine Meets.bind (borrowFrom_right_none hS ha hn hsr _) ?_
    rintro _ rfl
    cases hsl : spareLeft tree.order L with
    | true =>
      rcases eq_nil_or_concat L with rfl | ⟨L, ⟨a, k⟩, rfl⟩
      · simp [spareLeft] at hsl
      · rw [concat_eq_append] at hn hnd hwo hroom hL hsl ⊢
        rw [spareLeft_concat, decide_eq_true_iff] at hsl
        rw [Spine.plug_concat_left] at hn hnd hwo ⊢
        rw [length_append, length_singleton]
        obtain ⟨a', k', b', hex, hcb, hca, hfrom⟩ := borrowFrom_left hn hnd hS ha ho (hL (a, k) (by simp)).2 hsu
          (by omega) hsl
        refine Meets.bind hfrom ?_
        rintro _ rfl
        refine Meets.bind (hex.write hn hnd hS ha (fun p hp => hL p (mem_append_left _ hp)) hR (by omega) (by omega)
          (Or.inr ⟨rfl, rfl, rfl, rfl⟩)) ?_
        rintro s' ⟨w', ha', hres⟩
        exact Meets.pure ⟨w', _, ha', hres, by simp⟩
    | false =>
      refine Meets.bind (borrowFrom_left_none hS ha hn hsl _) ?_
      rintro _ rfl
      rcases eq_nil_or_concat L with rfl | ⟨L, ⟨a, k⟩, rfl⟩
      · exact absurd (hmerge hsr hsl) (by simp)
      · rw [concat_eq_append] at hn hnd hwo hroom hL hsl ⊢
        rw [spareLeft_concat, decide_eq_false_iff_not, not_lt] at hsl
        rw [Spine.plug_concat_left] at hn hnd hwo ⊢
        rw [length_append, length_singleton] at hroom ⊢
        refine Meets.bind (mergeNode_left hn hnd hS ha (fun p hp => hL p (mem_append_left _ hp)) hR ho (by omega)
          (hL (a, k) (by simp)) hsu (by omega) hsl) ?_
        rintro s' ⟨w', m', ha', hres⟩
        exact Meets.pure ⟨w', m', ha', hres, by simp⟩

end Rebalance

end KVStores.Gdb
