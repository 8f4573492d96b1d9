import KVStores.Gdb.Whole

/-!
# The B+tree in the map

* `IsBPlusTree s tree`: the map holds a B+tree whose chain visits its leaves from left to
  right. `TreeAt.isBPlusTree`: **the invariants of the proofs give it**.
-/

namespace KVStores.Gdb

open List

/-- The conditions on the nodes of a B+tree: keys ascend, a key under a child is at most
the separator behind it and above the separator before it, and no node is too full or,
the root apart, too empty. -/
@[grind =] def Tree.BPlus (order : ℕ) : Bool → {h : ℕ} → Tree h → Prop
  | root, 0, t =>
    Ascending ((Leaf.entries t).map Prod.fst) ∧ (Leaf.entries t).length ≤ order - 1 ∧
      (root = false → order / 2 ≤ (Leaf.entries t).length)
  | root, h + 1, t =>
    Ascending (Inner.kids t).keys ∧ (Inner.kids t).rest.length ≤ order - 1 ∧
      (root = false → (order + 1) / 2 - 1 ≤ (Inner.kids t).rest.length) ∧
      (∀ (L : List (Tree h × SizedKey)) (c : Tree h) (R : List (SizedKey × Tree h)),
        Inner.kids t = Spine.plug L (Spine.single c) R → ∀ e ∈ entriesOf c.flat,
          (∀ p ∈ L, p.2.str < e.1) ∧ (∀ p ∈ R, e.1 ≤ p.1.str)) ∧
      ∀ c ∈ (Inner.kids t).kids, BPlus order false c

namespace Tree

variable {order : ℕ} {root : Bool}

theorem bplus_leaf (l : Leaf) : (leaf l).BPlus order root ↔ Ascending (l.entries.map Prod.fst) ∧
    l.entries.length ≤ order - 1 ∧ (root = false → order / 2 ≤ l.entries.length) := Iff.rfl

variable {h : ℕ}

theorem bplus_inner (o : Offset) (m : Spine (Tree h)) : (inner o m).BPlus order root ↔
    Ascending m.keys ∧ m.rest.length ≤ order - 1 ∧ (root = false → (order + 1) / 2 - 1 ≤ m.rest.length) ∧
      (∀ L c R, m = Spine.plug L (Spine.single c) R → ∀ e ∈ entriesOf c.flat, (∀ p ∈ L, p.2.str < e.1) ∧ (∀ p ∈ R, e.1 ≤ p.1.str)) ∧
      ∀ c ∈ m.kids, c.BPlus order false := Iff.rfl

theorem between_separators {L : List (Tree h × SizedKey)} {c : Tree h} {R : List (SizedKey × Tree h)}
    (hord : Ordered ((Spine.plug L (Spine.single c) R).flat flat)) {k : CStr} {v : Offset}
    (hk : Item.entry k v ∈ c.flat) : (∀ p ∈ L, p.2.str < k) ∧ (∀ p ∈ R, k ≤ p.1.str) := by
  rw [Spine.flat_plug, Spine.flat_single] at hord
  obtain ⟨-, hcR, hL⟩ := ordered_append.1 hord
  refine ⟨fun p hp => ?_, fun p hp => ?_⟩
  · have hsep : Item.sep p.2.str ∈ Spine.leftFlat flat L :=
      mem_flatMap.2 ⟨p, hp, mem_append_right _ (mem_singleton_self _)⟩
    exact Item.sep_lt.1 (hL _ hsep _ (mem_append_left _ hk))
  · have hsep : Item.sep p.1.str ∈ Spine.rightFlat flat R := mem_flatMap.2 ⟨p, hp, mem_cons_self⟩
    exact Item.entry_lt_sep.1 ((ordered_append.1 hcR).2.2 _ hk _ hsep)

theorem bplus_of_ordered : ∀ {h : ℕ} (t : Tree h) (root : Bool), Ordered t.flat → t.Sound order →
    (root = false → minCount order h ≤ t.count) → t.BPlus order root := by
  intro h
  induction h with
  | zero =>
    intro t root hord hs hmin
    obtain ⟨l, rfl⟩ := t.exists_leaf
    exact (bplus_leaf l).2 ⟨Leaf.ascending hord, hs, hmin⟩
  | succ h ih =>
    intro t root hord hs hmin
    obtain ⟨o, m, rfl⟩ := t.exists_inner
    obtain ⟨hlen, hkids⟩ := (sound_inner _ _ _).1 hs
    refine (bplus_inner o m).2 ⟨Spine.ascending_keys (m := m) hord, hlen, hmin, ?_, fun c hc => ?_⟩
    · rintro L c R rfl ⟨k, v⟩ he
      exact between_separators hord (mem_entriesOf.1 he)
    · exact ih c false (ordered_kid hord hc) (hkids c hc).2 fun _ => (hkids c hc).1

end Tree

/-- The leaves met by following `children[keyCount]` from an offset on, as long as it is a
leaf's. -/
@[grind =] def leafChain (s : MemStore) : ℕ → Offset → List Offset
  | 0, _ => []
  | fuel + 1, offset =>
    match s.node? offset with
    | some n => if n.leaf then offset :: leafChain s fuel (n.childAt n.keyCount) else []
    | none => []

/-- **The map holds a B+tree**: an empty one, or one of some depth whose leaf chain visits
exactly its leaves, from left to right. -/
def IsBPlusTree (s : MemStore) (tree : BTree) : Prop :=
  ∃ header, s.header? tree.block = some header ∧
    (header.root = 0 ∧ header.size = 0 ∨
      ∃ (h : ℕ) (t : Tree h), header.root = t.off ∧
        (∀ p ∈ t.nodes tree.order, s.node? p.1 = some p.2) ∧ t.offs.Nodup ∧ t.BPlus tree.order true ∧
        (∀ last ∈ t.leaves.getLast?, last.next = 0) ∧
        leafChain s t.leaves.length header.leftLeaf = t.leaves.map Leaf.off)

variable {order : ℕ}

theorem Tree.leaf_nodes : ∀ {h : ℕ} (t : Tree h), ∀ l ∈ t.leaves, (l.off, l.node order) ∈ t.nodes order := by
  intro h
  induction h with
  | zero =>
    intro t l hl
    obtain ⟨l', rfl⟩ := t.exists_leaf
    rw [leaves_leaf, mem_singleton] at hl
    subst hl
    simp
  | succ h ih =>
    intro t l hl
    obtain ⟨o, m, rfl⟩ := t.exists_inner
    obtain ⟨c, hc, hl⟩ := mem_flatMap.1 (show l ∈ m.kids.flatMap leaves from hl)
    exact mem_cons_of_mem _ (mem_flatMap.2 ⟨c, hc, ih c l hl⟩)

theorem Leaf.childAt_keyCount (order : ℕ) (l : Leaf) : (l.node order).childAt (l.node order).keyCount = l.next := by
  rw [Leaf.node, packNode_keyCount, childAt_pack _ _ _ _ (by simp)]
  simp

theorem leafChain_linked {s : MemStore} : ∀ (ls : List Leaf) (next : Offset), Linked ls next →
    (∀ l ∈ ls, s.node? l.off = some (l.node order)) → leafChain s ls.length (headOff ls next) = ls.map Leaf.off := by
  intro ls
  induction ls with
  | nil => intro next _ _; rfl
  | cons l ls ih =>
    intro next hl hn
    obtain ⟨h1, h2⟩ := (linked_cons l ls next).1 hl
    rw [length_cons, headOff_cons, leafChain, hn l mem_cons_self]
    simp only [Leaf.childAt_keyCount, h1]
    rw [if_pos (by rfl), ih next h2 fun l' hl' => hn l' (mem_cons_of_mem _ hl'), map_cons]

theorem linked_getLast {ls : List Leaf} {next : Offset} (h : Linked ls next) : ∀ l ∈ ls.getLast?, l.next = next := by
  intro l hl
  obtain ⟨ls', rfl⟩ := List.getLast?_eq_some_iff.1 hl
  simpa using (linked_append.1 h).2

variable {s : MemStore} {w : World} {tree : BTree} {o : Offset}

theorem MemAbs.node_eq (h : MemAbs s w) {n : BTreeNode} (ho : w o = some (.btreeNode n)) : s.node? o = some n := by
  rw [MemStore.node?, (h.content_eq ho).2]

theorem MemAbs.header_eq (h : MemAbs s w) {hd : BTreeHeader} (ho : w o = some (.btreeHeader hd)) : s.header? o = some hd := by
  rw [MemStore.header?, (h.content_eq ho).2]

/-- **The invariants give the B+tree.** -/
theorem TreeAt.isBPlusTree {KeyOk : KeySlot → Prop} {E : List (CStr × Offset)} {D : List Offset}
    (hT : TreeAt KeyOk w tree E D) (ha : MemAbs s w) : IsBPlusTree s tree := by
  cases hT with
  | empty leftLeaf header => exact ⟨_, ha.header_eq header, Or.inl ⟨rfl, rfl⟩⟩
  | tree t valid nodes header =>
    have hn : ∀ p ∈ t.nodes tree.order, s.node? p.1 = some p.2 := fun p hp => ha.node_eq (nodes p hp).2.1
    refine ⟨_, ha.header_eq header, Or.inr ⟨_, t, rfl, hn, valid.nodup,
      Tree.bplus_of_ordered t true valid.ordered valid.sound nofun, linked_getLast valid.linked, ?_⟩⟩
    exact leafChain_linked t.leaves 0 valid.linked fun l hl => hn _ (t.leaf_nodes l hl)

end KVStores.Gdb
