import KVStores.Gdb.Rebalance
import KVStores.Gdb.Whole

/-!
# Deletion

* `deleteKey_absent`: **nothing changes** when the key is not there.
-/

namespace KVStores.Gdb

open List Option Function

/-- One level of the plan: a child holds `count` keys, sits at position `i`, and its right
and left neighbours may have keys to spare. A child that falls below `min` takes a key
from the right, which frees `keys[i]` of the child, or from the left, or is merged with
its left neighbour; a first child is merged with its right one. -/
def deletePlanStep (min count i : ℕ) (right left : Bool) (below : Bool × Bool) : Bool × Bool :=
  if below.1 = false ∨ min < count then (false, below.2)
  else if right then (false, below.2 && decide (count ≤ i))
  else if left then (false, below.2)
  else (true, below.2 && decide (0 < i))

section Plan

variable {σ : Type} (S : NodeStore σ) (tree : BTree)

/-- Whether the child at position `i`, if there is one, has more keys than it must. -/
def hasSpare (s : σ) (node : BTreeNode) (i : ℕ) (has : Bool) : Option Bool :=
  if has then do
    let child ← S.readNode s tree.order (node.childAt i)
    return tree.minKeys child.leaf < child.keyCount
  else return false

/-- Whether the node at `offset` loses a key when `key` is deleted below it, and whether no
rebalancing step frees a key that is still in use. -/
@[grind =] def deletePlan (key : CStr) : ℕ → σ → Offset → Option (Bool × Bool)
  | 0, _, _ => none
  | fuel + 1, s, offset => do
    let node ← S.readNode s tree.order offset
    let i ← searchIndex key node.keys node.keyCount
    if node.leaf then return (← matchesAt key node.keys node.keyCount i, true)
    else
      let below ← deletePlan key fuel s (node.childAt i)
      let child ← S.readNode s tree.order (node.childAt i)
      let right ← hasSpare S tree s node (i + 1) (i < node.keyCount)
      let left ← hasSpare S tree s node (i - 1) (0 < i)
      return deletePlanStep (tree.minKeys child.leaf) child.keyCount i right left below

/-- **When `btreeDelete` does what it should**: there is a root, and the plan is safe. -/
def deleteSafe (s : σ) (key : CStr) : Option Bool := do
  let header ← S.readHeader s tree.block
  if header.root = 0 then return false
  else return (← deletePlan S tree key header.depth s header.root).2

end Plan

variable {σ : Type} {S : NodeStore σ} {F : Prop} {KeyOk : KeySlot → Prop} {Abs : σ → World → Prop}
  {tree : BTree} {s : σ} {w : World} {h : ℕ}

section Spare

variable {o : Offset} {L : List (Tree h × SizedKey)} {u : Tree h} {R : List (SizedKey × Tree h)}
variable (hS : S.Lawful F KeyOk Abs) (ha : Abs s w)
  (hn : NodesIn KeyOk w ((Tree.inner o (Spine.plug L (Spine.single u) R)).nodes tree.order))
include hS ha hn

theorem hasSpare_right : Meets F (hasSpare S tree s ((Tree.inner o (Spine.plug L (Spine.single u) R)).node tree.order)
    (L.length + 1) (L.length < ((Tree.inner o (Spine.plug L (Spine.single u) R)).node tree.order).keyCount))
    (· = spareRight tree.order R) := by
  unfold hasSpare
  rw [keyCount_plug]
  cases R with
  | nil => simp [spareRight]
  | cons p R =>
    obtain ⟨k, b⟩ := p
    rw [childAt_plug_right, if_pos (by simp)]
    refine Meets.bind (hS.readRoot ha (hn.kids.kid (t := b) (by simp))) ?_
    rintro _ rfl
    rw [minKeys_node, Tree.node_keyCount]
    exact Meets.pure rfl

theorem hasSpare_left : Meets F (hasSpare S tree s ((Tree.inner o (Spine.plug L (Spine.single u) R)).node tree.order)
    (L.length - 1) (0 < L.length)) (· = spareLeft tree.order L) := by
  unfold hasSpare
  rcases eq_nil_or_concat L with rfl | ⟨L, ⟨a, k⟩, rfl⟩
  · simp [spareLeft]
  · rw [concat_eq_append] at hn ⊢
    rw [length_append, length_singleton, Nat.add_sub_cancel, childAt_plug_left, if_pos (by simp)]
    refine Meets.bind (hS.readRoot ha (hn.kids.kid (t := a) (by simp))) ?_
    rintro _ rfl
    rw [minKeys_node, Tree.node_keyCount, spareLeft_concat]
    exact Meets.pure rfl

end Spare

section Recursion

variable (S tree)

/-- What `__delete` does before it looks at the size of its node. -/
def deleteBelow (treeRoot : Offset) (key : CStr) (fuel : ℕ) (s : σ) (rootOffset : Offset) (merged : Bool) :
    Option (DeleteResult × σ) := do
  let rootNode ← S.readNode s tree.order rootOffset
  if rootNode.leaf then
    match ← removeKey rootNode key with
    | some (filePos, node) =>
      let s ← S.writeNode s tree.order rootOffset node
      return (⟨true, filePos, merged⟩, s)
    | none => return (⟨false, 0, merged⟩, s)
  else
    let i ← searchIndex key rootNode.keys rootNode.keyCount
    deleteKey S tree treeRoot key fuel s (rootNode.childAt i) (some rootOffset) i merged

/-- What `__delete` does once the entry is gone. -/
def deleteFinish (treeRoot : Offset) (rootOffset : Offset) (prevOffset : Option Offset) (index : ℕ)
    (r : DeleteResult) (s : σ) : Option (DeleteResult × σ) :=
  if r.success = false then some (r, s)
  else do
    let rootNode ← S.readNode s tree.order rootOffset
    if rootOffset = treeRoot ∨ tree.minKeys rootNode.leaf ≤ rootNode.keyCount then return (r, s)
    else
      let (merged, s) ← rebalance S tree s rootOffset rootNode (← prevOffset) index
      return ({ r with merged }, s)

theorem deleteKey_eq (treeRoot : Offset) (key : CStr) (fuel : ℕ) (s : σ) (rootOffset : Offset)
    (prevOffset : Option Offset) (index : ℕ) (merged : Bool) :
    deleteKey S tree treeRoot key (fuel + 1) s rootOffset prevOffset index merged =
      deleteBelow S tree treeRoot key fuel s rootOffset merged >>= fun p =>
        deleteFinish S tree treeRoot rootOffset prevOffset index p.1 p.2 := by
  simp only [deleteKey, deleteBelow, bind_eq_bind, bind_assoc]
  refine congrArg _ (funext fun rootNode => ?_)
  by_cases hl : rootNode.leaf = true
  · rw [if_pos hl, if_pos hl]
    rcases removeKey rootNode key with _ | _ | ⟨filePos, node⟩
    · rfl
    · rfl
    · simp only [bind_some, bind_assoc]
      rfl
  · rw [if_neg hl, if_neg hl]
    simp only [bind_assoc]
    rfl

variable {S tree} {key : CStr} {treeRoot : Offset} (hS : S.Lawful F KeyOk Abs)
include hS

theorem deleteKey_absent (ha : Abs s w) (merged : Bool) : ∀ {h : ℕ} (t : Tree h) (fuel : ℕ) (prevOffset : Option Offset) (index : ℕ),
    h < fuel → NodesIn KeyOk w (t.nodes tree.order) → Ordered t.flat → (∀ v, Item.entry key v ∉ t.flat) →
      Meets F (deleteKey S tree treeRoot key fuel s t.off prevOffset index merged) (· = (⟨false, 0, merged⟩, s)) := by
  intro h
  induction h with
  | zero =>
    intro t fuel prevOffset index hf hn ho habs
    obtain ⟨fuel, rfl⟩ : ∃ n, fuel = n + 1 := ⟨fuel - 1, by omega⟩
    obtain ⟨l, rfl⟩ := t.exists_leaf
    have hkey : key ∉ (l.entries.map Prod.fst).map SizedKey.str := by
      intro hmem
      simp only [List.map_map, List.mem_map, comp_apply] at hmem
      obtain ⟨e, he, hek⟩ := hmem
      exact habs e.2 (Leaf.mem_flat.2 ⟨e.1, he, hek⟩)
    have hrem := @removeKey_pack_absent tree.order true _ (l.entries.map Prod.snd ++ [l.next]) _
      (Leaf.ascending ho) hkey
    rw [deleteKey_eq]
    refine Meets.bind (P := (· = (⟨false, 0, merged⟩, s))) ?_ ?_
    · refine Meets.bind (hS.readRoot ha hn) ?_
      rintro _ rfl
      exact Meets.bind_eq hrem (Meets.pure rfl)
    · rintro _ rfl
      exact Meets.pure rfl
  | succ h ih =>
    intro t fuel prevOffset index hf hn ho habs
    obtain ⟨fuel, rfl⟩ : ∃ n, fuel = n + 1 := ⟨fuel - 1, by omega⟩
    obtain ⟨o, m, rfl⟩ := t.exists_inner
    obtain ⟨L, u, R, rfl, hL, hl, hr⟩ := Spine.exists_route (m := m) ho key
    have hi := searchIndex_pack key tree.order false (Spine.plug L (Spine.single u) R).keys
      ((Spine.plug L (Spine.single u) R).kids.map Tree.off)
    rw [deleteKey_eq]
    refine Meets.bind (P := (· = (⟨false, 0, merged⟩, s))) ?_ ?_
    · unfold deleteBelow
      refine Meets.bind (hS.readRoot ha hn) ?_
      rintro _ rfl
      refine Meets.bind_eq hi ?_
      rw [childAt_route hL]
      exact ih u fuel _ _ (by omega) (hn.kids.kid (by simp)) (Tree.ordered_kid ho (by simp))
        fun v hv => habs v ((mem_flat_route hl hr).2 hv)
    · rintro _ rfl
      exact Meets.pure rfl

omit hS

variable {l : Leaf} {fuel : ℕ} {r : Bool × Bool}

theorem deletePlan_leaf (hS : S.Lawful F KeyOk Abs) (ha : Abs s w)
    (hn : NodesIn KeyOk w ((Tree.leaf l).nodes tree.order)) (ho : Ordered (Tree.leaf l).flat)
    (hplan : deletePlan S tree key (fuel + 1) s l.off = some r) : r = (decide (key ∈ (l.entries.map Prod.fst).map SizedKey.str), true) := by
  have h1 := searchIndex_pack key tree.order true (l.entries.map Prod.fst) (l.entries.map Prod.snd ++ [l.next])
  have h2 := matchesAt_pack key (Leaf.ascending ho) tree.order true (l.entries.map Prod.snd ++ [l.next])
  obtain ⟨_, rfl, hplan⟩ := (hS.readRoot ha hn).bind_inv hplan
  rw [Tree.node_leaf, Leaf.node, packNode_keyCount, h1, bind_eq_bind, bind_some, packNode_leaf, if_pos rfl, h2] at hplan
  exact (Option.some.inj hplan).symm

variable {o : Offset} {L : List (Tree h × SizedKey)} {u : Tree h} {R : List (SizedKey × Tree h)}

theorem deletePlan_inner (hS : S.Lawful F KeyOk Abs) (ha : Abs s w)
    (hn : NodesIn KeyOk w ((Tree.inner o (Spine.plug L (Spine.single u) R)).nodes tree.order))
    (hL : L.length = keyPos key (Spine.plug L (Spine.single u) R).keys) (hplan : deletePlan S tree key (fuel + 1) s o = some r) :
    ∃ below, deletePlan S tree key fuel s u.off = some below ∧
      deletePlanStep (Tree.minCount tree.order h) u.count L.length (spareRight tree.order R) (spareLeft tree.order L) below = r := by
  have hi := searchIndex_pack key tree.order false (Spine.plug L (Spine.single u) R).keys
    ((Spine.plug L (Spine.single u) R).kids.map Tree.off)
  rw [← hL] at hi
  have hi' : searchIndex key ((Tree.inner o (Spine.plug L (Spine.single u) R)).node tree.order).keys
      ((Tree.inner o (Spine.plug L (Spine.single u) R)).node tree.order).keyCount = some L.length := hi
  obtain ⟨_, rfl, hplan⟩ := (hS.readRoot ha hn).bind_inv hplan
  rw [hi', bind_eq_bind, bind_some, if_neg (by simp [Tree.node_inner]), childAt_route rfl] at hplan
  obtain ⟨below, hbelow, hplan⟩ := bind_eq_some_iff.1 hplan
  obtain ⟨_, rfl, hplan⟩ := (hS.readRoot ha (hn.kids.kid (t := u) (by simp))).bind_inv hplan
  obtain ⟨_, rfl, hplan⟩ := (hasSpare_right hS ha hn).bind_inv hplan
  obtain ⟨_, rfl, hplan⟩ := (hasSpare_left hS ha hn).bind_inv hplan
  rw [minKeys_node, Tree.node_keyCount] at hplan
  exact ⟨below, hbelow, Option.some.inj hplan⟩

theorem deletePlanStep_safe {min count i : ℕ} {right left shrinks : Bool} {below : Bool × Bool}
    (hstep : deletePlanStep min count i right left below = (shrinks, true)) : below.2 = true ∧
      ((shrinks = false ∧ (below.1 = false ∨ min < count)) ∨
        (below.1 = true ∧ count ≤ min ∧ shrinks = (!right && !left) ∧ (right = true → count ≤ i) ∧
          (right = false → left = false → 0 < i))) := by
  obtain ⟨sh, ok⟩ := below
  unfold deletePlanStep at hstep
  split at hstep
  · cases hstep
    exact ⟨rfl, Or.inl ⟨rfl, ‹_›⟩⟩
  · rename_i hno
    cases right <;> cases left <;> simp_all

/-- The subtree `t` has become `t'`, without the entry. -/
structure Deleted (order : ℕ) (KeyOk : KeySlot → Prop) (w w' : World) (key : CStr) (v : Offset) {h : ℕ} (t t' : Tree h) :
    Prop where
  graft : Graft order KeyOk w w' (Spine.single t) (Spine.single t')
  off : t'.off = t.off
  items : ∃ A B, t.flat = A ++ .entry key v :: B ∧ Reorders (A ++ B) t'.flat
  sound : t'.Sound order

variable {v : Offset}

theorem delete_leaf (hS : S.Lawful F KeyOk Abs) (ha : Abs s w)
    (hn : NodesIn KeyOk w ((Tree.leaf l).nodes tree.order)) (ho : Ordered (Tree.leaf l).flat)
    (hs : (Tree.leaf l).Sound tree.order) (hmem : Item.entry key v ∈ (Tree.leaf l).flat) (fuel : ℕ) (merged : Bool) :
    Meets F (deleteBelow S tree treeRoot key fuel s l.off merged) fun r => r.1 = ⟨true, v, merged⟩ ∧
      ∃ w' l', Abs r.2 w' ∧ Deleted tree.order KeyOk w w' key v (Tree.leaf l) (Tree.leaf l') ∧
        l'.entries.length + 1 = l.entries.length := by
  obtain ⟨k, hkv, rfl⟩ := Leaf.mem_flat.1 hmem
  obtain ⟨E, E', hE⟩ := append_of_mem hkv
  obtain ⟨hvalid, hwl, -⟩ : dbHeaderBlockSize ≤ l.off ∧ w l.off = some (.btreeNode (l.node tree.order)) ∧ _ :=
    hn _ ((Tree.leaf l).off_mem_nodes _)
  have hlen : E.length + E'.length + 1 ≤ tree.order - 1 := by
    rw [Tree.sound_leaf, hE, length_append, length_cons] at hs; omega
  have hkeys := hn.keys_leaf
  have hasc := Leaf.ascending ho
  rw [hE, map_append, map_cons] at hkeys hasc
  have hrem := @removeKey_pack_present tree.order (E.map Prod.fst) (E'.map Prod.fst) (E.map Prod.snd)
    (E'.map Prod.snd ++ [l.next]) k v hasc (by simpa using hlen)
    (by simp) (by simp)
  have hnode : l.node tree.order = packNode tree.order true (E.map Prod.fst ++ k :: E'.map Prod.fst)
      (E.map Prod.snd ++ v :: (E'.map Prod.snd ++ [l.next])) := by
    simp [Leaf.node, hE]
  have hnode' : (⟨l.off, E ++ E', l.next⟩ : Leaf).node tree.order =
      packNode tree.order true (E.map Prod.fst ++ E'.map Prod.fst) (E.map Prod.snd ++ (E'.map Prod.snd ++ [l.next])) := by
    simp [Leaf.node]
  have hkeys' : ∀ x ∈ (E ++ E').map Prod.fst, KeyOk x.slot := by
    intro x hx
    rw [map_append, mem_append] at hx
    exact hkeys x (hx.elim (mem_append_left _) fun hx => mem_append_right _ (mem_cons_of_mem _ hx))
  refine Meets.bind (hS.readNode ha hwl) ?_
  rintro _ rfl
  rw [hnode, packNode_leaf, if_pos rfl]
  refine Meets.bind_eq hrem ?_
  rw [← hnode']
  refine Meets.bind (hS.writeNode ha hwl (nodeOk_pack.2 hkeys')) ?_
  intro s' ha'
  refine Meets.pure ⟨rfl, _, ⟨l.off, E ++ E', l.next⟩, ha', ⟨graft_leaf rfl rfl hvalid hkeys', rfl, ?_, ?_⟩, ?_⟩
  · exact ⟨E.map fun e => .entry e.1.str e.2, E'.map fun e => .entry e.1.str e.2, by simp [hE], Reorders.of_eq (by simp)⟩
  · rw [Tree.sound_leaf, length_append]; omega
  · rw [hE, length_append, length_append, length_cons]; omega

variable {w₁ : World} {u' : Tree h}

theorem Deleted.above (hdel : Deleted tree.order KeyOk w w₁ key v u u')
    (hn : NodesIn KeyOk w ((Tree.inner o (Spine.plug L (Spine.single u) R)).nodes tree.order))
    (hnd : (Tree.inner o (Spine.plug L (Spine.single u) R)).offs.Nodup) :
    Graft tree.order KeyOk w w₁ (Spine.single (Tree.inner o (Spine.plug L (Spine.single u) R)))
        (Spine.single (Tree.inner o (Spine.plug L (Spine.single u') R))) ∧
      ∃ A B, (Spine.plug L (Spine.single u) R).flat Tree.flat = A ++ .entry key v :: B ∧
        Reorders (A ++ B) ((Spine.plug L (Spine.single u') R).flat Tree.flat) := by
  have hkeys := hn.keys_inner
  obtain ⟨hoM, hndM⟩ := Tree.nodup_inner.1 hnd
  obtain ⟨⟨hvalid, hwo, -⟩, hnk⟩ := nodesIn_cons.1 hn
  constructor
  · refine (hdel.graft.plug hnk hndM).inner_same hvalid hwo hoM ?_ ?_
    · simpa using hkeys
    · simp [Tree.node_inner, hdel.off]
  · obtain ⟨A, B, hAB, hre⟩ := hdel.items
    refine ⟨Spine.leftFlat Tree.flat L ++ A, B ++ Spine.rightFlat Tree.flat R, by simp [hAB], ?_⟩
    have := hre.context (Spine.leftFlat Tree.flat L) (Spine.rightFlat Tree.flat R)
    simpa using this

/-- **The end of `__delete`** in a child that has lost the entry. -/
theorem deleteFinish_spec (hS : S.Lawful F KeyOk Abs) (horder : 3 ≤ tree.order) {s₁ : σ} (ha₁ : Abs s₁ w₁)
    (hdel : Deleted tree.order KeyOk w w₁ key v u u')
    (hn : NodesIn KeyOk w ((Tree.inner o (Spine.plug L (Spine.single u) R)).nodes tree.order))
    (hnd : (Tree.inner o (Spine.plug L (Spine.single u) R)).offs.Nodup)
    (hs : (Tree.inner o (Spine.plug L (Spine.single u) R)).Sound tree.order) (hroot : u.off ≠ treeRoot)
    {r : DeleteResult} (hsucc : r.success = true) {below : Bool} (hcount : u'.count + below.toNat = u.count) {shrinks : Bool}
    (hstep : deletePlanStep (Tree.minCount tree.order h) u.count L.length (spareRight tree.order R) (spareLeft tree.order L)
      (below, true) = (shrinks, true)) :
    Meets F (deleteFinish S tree treeRoot u.off (some o) L.length r s₁) fun q => q.1.success = true ∧ q.1.filePos = r.filePos ∧
      (shrinks = true → q.1.merged = true) ∧ ∃ w' t', Abs q.2 w' ∧
        Deleted tree.order KeyOk w w' key v (Tree.inner o (Spine.plug L (Spine.single u) R)) t' ∧
          t'.count + shrinks.toNat = L.length + R.length := by
  obtain ⟨hg, A, B, hAB, hre⟩ := hdel.above hn hnd
  obtain ⟨hroom, hkids⟩ := (Tree.sound_inner _ _ _).1 hs
  have hL : ∀ p ∈ L, p.1.Full tree.order := fun p hp => hkids _ (by
    rw [Spine.kids_plug]; exact mem_append_left _ (List.mem_map_of_mem hp))
  have hR : ∀ p ∈ R, p.2.Full tree.order := fun p hp => hkids _ (by
    rw [Spine.kids_plug]; exact mem_append_right _ (mem_append_right _ (List.mem_map_of_mem hp)))
  have hu : u.Full tree.order := hkids u (by simp)
  have hn1 := hg.nodesIn
  have hnd1 := hg.nodup
  rw [Spine.collect_single] at hn1 hnd1
  rw [Spine.rest_length_plug, Spine.single_rest, length_nil, Nat.zero_add] at hroom
  unfold deleteFinish
  rw [if_neg (by simp [hsucc]), ← hdel.off]
  refine Meets.bind (hS.readRoot ha₁ (hn1.kids.kid (t := u') (by simp))) ?_
  rintro _ rfl
  rw [minKeys_node, Tree.node_keyCount]
  rcases (deletePlanStep_safe hstep).2 with ⟨rfl, hfull⟩ | ⟨hbelow, hle, hshrinks, hright, hmerge⟩
  · -- the child has enough keys left
    have hmin : Tree.minCount tree.order h ≤ u'.count := by
      rcases hfull with hfull | hfull
      · dsimp only at hfull
        rw [hfull] at hcount
        exact le_trans hu.1 (le_of_eq hcount.symm)
      · have := Bool.toNat_le below; omega
    rw [if_pos (Or.inr hmin)]
    refine Meets.pure ⟨hsucc, rfl, nofun, w₁, _, ha₁, ⟨hg, rfl, ⟨A, B, hAB, hre⟩, ?_⟩, by simp⟩
    refine (Tree.sound_inner _ _ _).2 ⟨by simpa using hroom, fun t ht => ?_⟩
    simp only [Spine.kids_plug, Spine.kids_single, mem_append, List.mem_map, mem_singleton] at ht
    rcases ht with ⟨p, hp, rfl⟩ | rfl | ⟨p, hp, rfl⟩
    · exact hL p hp
    · exact ⟨hmin, hdel.sound⟩
    · exact hR p hp
  · -- it has one too few
    subst hbelow
    rw [Bool.toNat_true] at hcount
    have hmin : u'.count + 1 = Tree.minCount tree.order h := le_antisymm (hcount.trans_le hle) (hcount ▸ hu.1)
    rw [if_neg (by rw [hdel.off]; exact not_or.2 ⟨hroot, by omega⟩)]
    refine Meets.bind_eq rfl ?_
    refine Meets.bind (rebalance_spec hS ha₁ horder hn1 hnd1 hroom hL hR hdel.sound hmin (fun h => by have := hright h; omega)
      hmerge) ?_
    rintro ⟨merged, s'⟩ ⟨w', m', ha', hres, hmerged⟩
    dsimp only at hmerged ha' hres
    rw [← hshrinks] at hmerged
    subst hmerged
    refine Meets.pure ⟨hsucc, rfl, id, w', Tree.inner o m', ha', ⟨hg.trans hres.graft, rfl, ⟨A, B, hAB, hre.trans hres.items⟩, ?_⟩, ?_⟩
    · have := hres.length
      refine (Tree.sound_inner _ _ _).2 ⟨?_, hres.full⟩
      simp only [Spine.rest_length_plug, Spine.single_rest, length_nil] at this
      omega
    · have := hres.length
      simp only [Spine.rest_length_plug, Spine.single_rest, length_nil] at this
      rw [Tree.count_inner]
      omega

/-- **The entry goes from a tree.** The root of the tree may be left with one key less, as
planned; all other nodes are full again. -/
theorem deleteBelow_spec (hS : S.Lawful F KeyOk Abs) (horder : 3 ≤ tree.order) (merged : Bool) (ha : Abs s w) :
    ∀ {h : ℕ} (t : Tree h) (fuel : ℕ) (shrinks : Bool), h ≤ fuel → NodesIn KeyOk w (t.nodes tree.order) → t.offs.Nodup →
      Ordered t.flat → t.Sound tree.order → 0 < t.count → Item.entry key v ∈ t.flat →
      (treeRoot = t.off ∨ treeRoot ∉ t.offs) → deletePlan S tree key (fuel + 1) s t.off = some (shrinks, true) →
      Meets F (deleteBelow S tree treeRoot key fuel s t.off merged) fun r => r.1.success = true ∧ r.1.filePos = v ∧
        (0 < h → shrinks = true → r.1.merged = true) ∧ ∃ w' t', Abs r.2 w' ∧
          Deleted tree.order KeyOk w w' key v t t' ∧ t'.count + shrinks.toNat = t.count := by
  intro h
  induction h with
  | zero =>
    intro t fuel shrinks _ hn _ ho hs _ hmem _ hplan
    have hshrinks := congrArg Prod.fst (deletePlan_leaf hS ha hn ho hplan)
    obtain ⟨k, hkv, hk⟩ := Leaf.mem_flat.1 hmem
    rw [decide_eq_true (List.mem_map.2 ⟨k, List.mem_map_of_mem hkv, hk⟩)] at hshrinks
    subst hshrinks
    refine (delete_leaf hS ha hn ho hs hmem fuel merged).mono ?_
    rintro ⟨r, s'⟩ ⟨rfl, w', l', ha', hdel, hlen⟩
    exact ⟨rfl, rfl, fun h0 => absurd h0 (lt_irrefl 0), w', Tree.leaf l', ha', hdel, hlen⟩
  | succ h ih =>
    intro t fuel shrinks hf hn hnd ho hs _ hmem htr hplan
    obtain ⟨fuel, rfl⟩ : ∃ n, fuel = n + 1 := ⟨fuel - 1, by omega⟩
    obtain ⟨o, m, rfl⟩ := t.exists_inner
    obtain ⟨L, u, R, rfl, hL, hl, hr⟩ := Spine.exists_route (m := m) ho key
    obtain ⟨⟨below, ok⟩, hbelow, hstep⟩ := deletePlan_inner hS ha hn hL hplan
    obtain ⟨rfl, hcases⟩ := deletePlanStep_safe hstep
    have hi := searchIndex_pack key tree.order false (Spine.plug L (Spine.single u) R).keys
      ((Spine.plug L (Spine.single u) R).kids.map Tree.off)
    obtain ⟨hroom, hkids⟩ := (Tree.sound_inner _ _ _).1 hs
    obtain ⟨hoM, hndM⟩ := Tree.nodup_inner.1 hnd
    have hu : u.Full tree.order := hkids u (by simp)
    have hpos := Tree.minCount_pos horder h
    have huM : ∀ p ∈ u.offs, p ∈ (Spine.plug L (Spine.single u) R).collect Tree.offs :=
      fun p hp => mem_flatMap.2 ⟨u, by simp, hp⟩
    have hrootu : treeRoot ∉ u.offs := by
      intro hm
      rcases htr with rfl | hno
      · exact hoM (huM _ hm)
      · exact hno (mem_cons_of_mem _ (huM _ hm))
    have hmemu := (mem_flat_route hl hr).1 hmem
    refine Meets.bind (hS.readRoot ha hn) ?_
    rintro _ rfl
    refine Meets.bind_eq hi ?_
    rw [childAt_route hL, ← hL, deleteKey_eq]
    refine Meets.bind (ih u fuel below (by omega) (hn.kids.kid (by simp)) (Tree.nodup_kid hndM (by simp)) (Tree.ordered_kid ho (by simp)) hu.2
      (lt_of_lt_of_le hpos hu.1) hmemu (Or.inr hrootu) hbelow) ?_
    rintro ⟨r, s1⟩ ⟨hsucc, rfl, -, w1, u', ha1, hdel, hcount⟩
    have hne : u.off ≠ treeRoot := fun e => hrootu (e ▸ u.off_mem_offs)
    refine (deleteFinish_spec hS horder ha1 hdel hn hnd hs hne hsucc hcount hstep).mono ?_
    rintro ⟨q, s'⟩ ⟨h1, h2, h3, w', t', ha', hdel', hcount'⟩
    exact ⟨h1, h2, fun _ => h3, w', t', ha', hdel', by simpa using hcount'⟩

end Recursion

section Whole

variable {key : CStr} {E : List (CStr × Offset)} {D : List Offset} (hS : S.Lawful F KeyOk Abs)

theorem searchIndex_node (t : Tree h) (key : CStr) :
    ∃ i, searchIndex key (t.node tree.order).keys (t.node tree.order).keyCount = some i := by
  cases h with
  | zero => exact ⟨_, searchIndex_pack key tree.order true _ _⟩
  | succ h => exact ⟨_, searchIndex_pack key tree.order false _ _⟩

variable {v : Offset} {t : Tree h}

theorem Deleted.valid {w' : World} {t' : Tree h} (hdel : Deleted tree.order KeyOk w w' key v t t')
    (valid : t.Valid tree.order) : Ordered t'.flat ∧ Linked t'.leaves 0 ∧ headOff t'.leaves 0 = headOff t.leaves 0 ∧
      t'.offs.Nodup ∧ ∃ A B, entriesOf t.flat = A ++ (key, v) :: B ∧ entriesOf t'.flat = A ++ B := by
  obtain ⟨A, B, hAB, hre⟩ := hdel.items
  have hhead := hdel.graft.head 0
  have hlink := hdel.graft.linked 0
  have hnd := hdel.graft.nodup
  simp only [Spine.collect_single] at hhead hlink hnd
  refine ⟨?_, hlink valid.linked, hhead, hnd, entriesOf A, entriesOf B, by rw [hAB]; simp, by rw [hre.entries]; simp⟩
  have hord := valid.ordered
  rw [hAB] at hord
  have := hre.ordered [] [] (by simpa using hord.sublist (List.Sublist.append_left (sublist_cons_self _ _) A))
  simpa using this

theorem root_of_deleteSafe (ha : Abs s w) (hS : S.Lawful F KeyOk Abs) {hd : BTreeHeader} (hh : w tree.block = some (.btreeHeader hd))
    (hsafe : deleteSafe S tree s key = some true) :
    hd.root ≠ 0 ∧ ∃ shrinks, deletePlan S tree key hd.depth s hd.root = some (shrinks, true) := by
  obtain ⟨_, hread, hsafe⟩ := (hS.readHeader ha hh).bind_inv hsafe
  rw [hread] at hsafe
  by_cases hroot : hd.root = 0
  · rw [if_pos hroot] at hsafe
    cases hsafe
  · rw [if_neg hroot] at hsafe
    obtain ⟨⟨shrinks, ok⟩, hplan, hok⟩ := bind_eq_some_iff.1 hsafe
    cases hok
    exact ⟨hroot, shrinks, hplan⟩

include hS

/-- **Deleting a key the tree does not hold** returns 0 and changes nothing. -/
theorem deleteEntry_absent (ho : 3 ≤ tree.order) (ha : Abs s w) (hT : TreeAt KeyOk w tree E D)
    (hsafe : deleteSafe S tree s key = some true) (habs : key ∉ E.map Prod.fst) : Meets F (deleteEntry S tree s key) (· = (0, s)) := by
  cases hT with
  | empty leftLeaf header => exact absurd rfl (root_of_deleteSafe ha hS header hsafe).1
  | @tree h t valid nodes header =>
    have hd := t.depth_lt ho valid.sound valid.pos
    obtain ⟨i, hi⟩ := @searchIndex_node tree _ t key
    refine Meets.bind (hS.readHeader ha header) ?_
    rintro _ rfl
    refine Meets.bind (hS.readRoot ha nodes) ?_
    rintro _ rfl
    refine Meets.bind_eq hi ?_
    refine Meets.bind (deleteKey_absent hS ha false t _ none i (by simp only [BTreeHeader.depth]; omega) nodes valid.ordered
      fun v hv => habs (mem_keys_entriesOf.2 ⟨v, hv⟩)) ?_
    rintro _ rfl
    exact Meets.pure rfl

theorem deleteRoot_spec (ho : 3 ≤ tree.order) (ha : Abs s w) (valid : t.Valid tree.order)
    (nodes : NodesIn KeyOk w (t.nodes tree.order)) {fuel : ℕ} (hf : h ≤ fuel) {shrinks : Bool}
    (hplan : deletePlan S tree key (fuel + 1) s t.off = some (shrinks, true)) (hmem : Item.entry key v ∈ t.flat) (i : ℕ) :
    Meets F (deleteKey S tree t.off key (fuel + 1) s t.off none i false) fun r => r.1.success = true ∧ r.1.filePos = v ∧
      ∃ w' t', Abs r.2 w' ∧ Deleted tree.order KeyOk w w' key v t t' ∧ (0 < h → t'.count = 0 → r.1.merged = true) := by
  rw [deleteKey_eq]
  refine Meets.bind (deleteBelow_spec hS ho false ha t fuel shrinks hf nodes valid.nodup valid.ordered valid.sound valid.pos
    hmem (Or.inl rfl) hplan) ?_
  rintro ⟨r, s1⟩ ⟨hsucc, hv, hmerged, w1, t', ha1, hdel, hcount⟩
  have hn1 := hdel.graft.nodesIn
  rw [Spine.collect_single] at hn1
  dsimp only at hsucc hv hmerged ha1
  unfold deleteFinish
  rw [if_neg (by simp [hsucc])]
  refine Meets.bind (hS.readNode ha1 (show w1 t.off = some (.btreeNode (t'.node tree.order)) from
    hdel.off ▸ (hn1 _ (t'.off_mem_nodes _)).2.1)) ?_
  rintro _ rfl
  rw [if_pos (Or.inl rfl)]
  refine Meets.pure ⟨hsucc, hv, w1, t', ha1, hdel, fun h0 hc => hmerged h0 ?_⟩
  have := valid.pos
  cases shrinks with
  | true => rfl
  | false => rw [Bool.toNat_false] at hcount; omega

/-- The root once the entry is gone: an empty leaf is given up, and so is an internal node
whose last two children have been merged. -/
theorem deleteRoot_collapse (ho : 3 ≤ tree.order) (ha : Abs s w) (t : Tree h) (hord : Ordered t.flat) (hs : t.Sound tree.order)
    (hlink : Linked t.leaves 0) (hnd : t.offs.Nodup) (nodes : NodesIn KeyOk w (t.nodes tree.order))
    (header : w tree.block = some (.btreeHeader ⟨tree.order, (entriesOf t.flat).length, t.off, headOff t.leaves 0⟩))
    (v : Offset) {merged : Bool} (hmerged : 0 < h → t.count = 0 → merged = true) :
    Meets F (if (t.node tree.order).leaf ∧ t.count = 0 then do
        let s ← S.setRoot s tree.block 0
        let s ← S.eraseNode s t.off
        return (v, s)
      else if merged ∧ t.count = 0 then do
        let newRoot := (t.node tree.order).childAt 0
        let s ← S.setRoot s tree.block newRoot
        let tempNode ← S.readNode s tree.order newRoot
        let s ← S.writeNode s tree.order newRoot tempNode
        let s ← S.eraseNode s t.off
        return (v, s)
      else return (v, s)) fun r => r.1 = v ∧ ∃ w' D', Abs r.2 w' ∧ TreeAt KeyOk w' tree (entriesOf t.flat) D' ∧
        Frame w w' (tree.block :: t.offs) (tree.block :: D') := by
  have hblock := nodes.header_notMem header
  have hput (b : Block) : NodesIn KeyOk (w.put tree.block b) (t.nodes tree.order) :=
    nodes.congr fun p hp => by
      rw [Tree.map_fst_nodes] at hp
      exact World.put_of_ne _ _ fun e => hblock (e ▸ hp)
  by_cases hcount : t.count = 0
  · cases h with
    | zero =>
      obtain ⟨l, rfl⟩ := t.exists_leaf
      obtain ⟨lo, le, ln⟩ := l
      obtain rfl : le = [] := eq_nil_of_length_eq_zero hcount
      refine Meets.bind (hS.setRoot ha header 0) ?_
      intro s1 ha1
      refine Meets.bind (hS.eraseNode ha1 ((hput _) _ (Tree.off_mem_nodes _ _)).2.1) ?_
      intro s2 ha2
      have hne : tree.block ≠ lo := by simpa using hblock
      refine Meets.pure ⟨rfl, _, [], ha2, TreeAt.empty lo ?_, ?_⟩
      · rw [Tree.off_leaf, World.remove_of_ne _ hne, World.put_self]
        rfl
      · refine Frame.congr (D := [lo, tree.block]) ((Frame.put_mem ?_).trans Frame.remove_cons) ?_ fun _ => Iff.rfl
        · simp
        · simp [or_comm]
    | succ h =>
      obtain ⟨o, ⟨c, rest⟩, rfl⟩ := t.exists_inner
      obtain rfl : rest = [] := eq_nil_of_length_eq_zero hcount
      obtain ⟨-, hkids⟩ := (Tree.sound_inner _ _ _).1 hs
      obtain ⟨hoM, hndM⟩ := Tree.nodup_inner.1 hnd
      have hc := hkids c (by simp [Spine.kids])
      have hcol {α : Type} (f : Tree h → List α) : (⟨c, []⟩ : Spine (Tree h)).collect f = f c := Spine.collect_single c f
      have hflat : (Tree.inner o ⟨c, []⟩).flat = c.flat := Spine.flat_single c Tree.flat
      have hchild : ((Tree.inner o ⟨c, []⟩).node tree.order).childAt 0 = c.off := by
        rw [Tree.node_inner, childAt_pack _ _ _ _ (by simp)]
        simp [Spine.kids]
      rw [Tree.leaves_inner, hcol] at hlink header
      rw [hflat] at hord header ⊢
      rw [hcol] at hoM hndM
      have hne : tree.block ≠ o := fun e => hblock (e ▸ Tree.off_mem_offs _)
      have hnc (b : Block) : NodesIn KeyOk (w.put tree.block b) (c.nodes tree.order) := by
        have := hput b
        rw [Tree.nodes_inner, nodesIn_cons, hcol] at this
        exact this.2
      rw [if_neg (fun h => absurd h.1 (by simp [Tree.node_inner])), if_pos ⟨hmerged (Nat.succ_pos h) hcount, hcount⟩, hchild]
      refine Meets.bind (hS.setRoot ha header c.off) ?_
      intro s1 ha1
      refine Meets.bind (hS.readRoot ha1 (hnc _)) ?_
      rintro _ rfl
      have hcw := hnc (.btreeHeader ⟨tree.order, (entriesOf c.flat).length, c.off, headOff c.leaves 0⟩) _ (c.off_mem_nodes _)
      refine Meets.bind (hS.writeNode ha1 hcw.2.1 hcw.2.2) ?_
      intro s2 ha2
      -- the new root is written back as it was read
      rw [World.put_same hcw.2.1] at ha2
      refine Meets.bind (hS.eraseNode ha2 ((hput _) _ (Tree.off_mem_nodes _ _)).2.1) ?_
      intro s3 ha3
      refine Meets.pure ⟨rfl, _, c.offs, ha3, TreeAt.tree c ⟨hord, hc.2, lt_of_lt_of_le (Tree.minCount_pos ho h) hc.1,
        hlink, hndM⟩ ?_ ?_, ?_⟩
      · refine (hnc _).congr fun p hp => World.remove_of_ne _ fun e => hoM ?_
        rw [Tree.map_fst_nodes] at hp
        rw [Tree.off_inner] at e
        exact e ▸ hp
      · rw [Tree.off_inner, World.remove_of_ne _ hne, World.put_self]
      · refine Frame.congr (D := o :: tree.block :: c.offs) ((Frame.put_mem ?_).trans Frame.remove_cons) ?_ fun _ => Iff.rfl
        · simp
        · intro p
          rw [Tree.offs_inner, hcol]
          simp only [mem_cons]
          tauto
  · rw [if_neg (fun h => hcount h.2), if_neg (fun h => hcount h.2)]
    exact Meets.pure ⟨rfl, w, t.offs, ha, TreeAt.tree t ⟨hord, hs, Nat.pos_of_ne_zero hcount, hlink, hnd⟩ nodes header, Frame.refl⟩

/-- **Deleting a key the tree holds** returns its offset and takes the entry out. -/
theorem deleteEntry_present (ho : 3 ≤ tree.order) (ha : Abs s w) (hT : TreeAt KeyOk w tree E D)
    (hsafe : deleteSafe S tree s key = some true) (hmem : (key, v) ∈ E) :
    Meets F (deleteEntry S tree s key) fun r => r.1 = v ∧ ∃ w' D' A B, E = A ++ (key, v) :: B ∧ Abs r.2 w' ∧
      TreeAt KeyOk w' tree (A ++ B) D' ∧ Frame w w' (tree.block :: D) (tree.block :: D') := by
  cases hT with
  | empty leftLeaf header => exact absurd rfl (root_of_deleteSafe ha hS header hsafe).1
  | @tree h t valid nodes header =>
    have hd := t.depth_lt ho valid.sound valid.pos
    have hblock := nodes.header_notMem header
    obtain ⟨i, hi⟩ := @searchIndex_node tree _ t key
    obtain ⟨-, shrinks, hplan⟩ := root_of_deleteSafe ha hS header hsafe
    refine Meets.bind (hS.readHeader ha header) ?_
    rintro _ rfl
    refine Meets.bind (hS.readRoot ha nodes) ?_
    rintro _ rfl
    refine Meets.bind_eq hi ?_
    refine Meets.bind (deleteRoot_spec hS ho ha valid nodes (le_of_lt hd) hplan (mem_entriesOf.1 hmem) i) ?_
    rintro ⟨r, s1⟩ ⟨hsucc, rfl, w1, t', ha1, hdel, hmerged⟩
    obtain ⟨hord, hlink, hhead, hnd, A, B, hAB, hAB'⟩ := hdel.valid valid
    dsimp only at hsucc hAB hmerged ha1 ⊢
    have hf := hdel.graft.frame
    have hn1 := hdel.graft.nodesIn
    simp only [Spine.collect_single] at hf hn1
    obtain ⟨hblock1, hheader1⟩ := hf.live_same (o := tree.block) (by rw [header]; simp) hblock
    rw [header] at hheader1
    have hlen : (entriesOf t.flat).length - 1 = (entriesOf t'.flat).length := by rw [hAB, hAB']; simp
    have hnodes (b : Block) : NodesIn KeyOk (w1.put tree.block b) (t'.nodes tree.order) :=
      hn1.congr fun p hp => by
        rw [Tree.map_fst_nodes] at hp
        exact World.put_of_ne _ _ fun e => hblock1 (e ▸ hp)
    have hframe (b : Block) : Frame w (w1.put tree.block b) (tree.block :: t.offs) (tree.block :: t'.offs) :=
      (hf.cons _).trans (Frame.put_mem mem_cons_self)
    rw [if_neg (by simp [hsucc])]
    refine Meets.bind (hS.setTreeSize ha1 hheader1 _) ?_
    intro s2 ha2
    rw [hlen, ← hhead, ← hdel.off] at ha2
    rw [← hdel.off]
    refine Meets.bind (hS.readRoot ha2 (hnodes _)) ?_
    rintro _ rfl
    rw [Tree.node_keyCount]
    refine (deleteRoot_collapse hS ho ha2 t' hord hdel.sound hlink hnd (hnodes _) (World.put_self _ _ _) r.filePos hmerged).mono ?_
    rintro q ⟨hq, w', D', ha', hT', hf'⟩
    rw [hAB'] at hT'
    exact ⟨hq, w', D', A, B, hAB, ha', hT', (hframe _).trans hf'⟩

end Whole

end KVStores.Gdb
