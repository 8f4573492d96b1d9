import KVStores.Gdb.Insert

/-!
# A whole tree in a store

* `TreeAt w tree E D`: the world holds the tree with entries `E` on the node blocks `D`.
-/

namespace KVStores.Gdb

open List Function

variable {σ : Type} {S : NodeStore σ} {F : Prop} {KeyOk : KeySlot → Prop} {Abs : σ → World → Prop}
  {tree : BTree} {s : σ} {w : World}

/-- **The invariants of a tree** that is not empty. -/
structure Tree.Valid (order : ℕ) {h : ℕ} (t : Tree h) : Prop where
  ordered : Ordered t.flat
  sound : t.Sound order
  pos : 0 < t.count
  linked : Linked t.leaves 0
  nodup : t.offs.Nodup

/-- The world holds the tree with these entries on these node blocks. An emptied tree may
keep any `leftLeaf`. -/
inductive TreeAt (KeyOk : KeySlot → Prop) (w : World) (tree : BTree) : List (CStr × Offset) → List Offset → Prop
  | empty (leftLeaf : Offset) (header : w tree.block = some (.btreeHeader ⟨tree.order, 0, 0, leftLeaf⟩)) :
      TreeAt KeyOk w tree [] []
  | tree {h : ℕ} (t : Tree h) (valid : t.Valid tree.order) (nodes : NodesIn KeyOk w (t.nodes tree.order))
      (header : w tree.block =
        some (.btreeHeader ⟨tree.order, (entriesOf t.flat).length, t.off, headOff t.leaves 0⟩)) :
      TreeAt KeyOk w tree (entriesOf t.flat) t.offs

variable {order : ℕ}

theorem Tree.minCount_pos (ho : 3 ≤ order) (h : ℕ) : 0 < minCount order h := by
  unfold minCount; split <;> omega

/-- **A tree has more entries than levels**, so the recursions have enough fuel. -/
theorem Tree.depth_lt (ho : 3 ≤ order) : ∀ {h : ℕ} (t : Tree h), t.Sound order → 0 < t.count → h < (entriesOf t.flat).length := by
  intro h
  induction h with
  | zero =>
    intro t _ hc
    obtain ⟨l, rfl⟩ := t.exists_leaf
    obtain ⟨e, E, hE⟩ := exists_cons_of_length_pos (l := l.entries) hc
    simp [hE]
  | succ h ih =>
    intro t hs hc
    obtain ⟨o, ⟨t0, rest⟩, rfl⟩ := t.exists_inner
    obtain ⟨⟨k, t1⟩, rest, rfl⟩ := exists_cons_of_length_pos (l := rest) hc
    obtain ⟨-, hkids⟩ := (Tree.sound_inner _ _ _).1 hs
    have hmin := minCount_pos ho h
    have h0 := hkids t0 (by simp [Spine.kids])
    have h1 := hkids t1 (by simp [Spine.kids])
    have i0 := ih t0 h0.2 (by omega)
    have i1 := ih t1 h1.2 (by omega)
    rw [Tree.flat_inner, Spine.flat]
    simp only [flatMap_cons, cons_append, entriesOf_append, entriesOf_sep, length_append]
    omega

variable {key : CStr}

theorem mem_keys_entriesOf {l : List Item} : key ∈ (entriesOf l).map Prod.fst ↔ ∃ v, Item.entry key v ∈ l := by
  simp only [List.mem_map, Prod.exists, mem_entriesOf]
  constructor
  · rintro ⟨k, v, h, rfl⟩; exact ⟨v, h⟩
  · rintro ⟨v, h⟩; exact ⟨key, v, h, rfl⟩

variable {h : ℕ} {t : Tree h}

theorem Tree.Valid.ascending (hv : t.Valid order) : ((entriesOf t.flat).map Prod.fst).Pairwise (· < ·) := by
  rw [pairwise_map, entriesOf, pairwise_filterMap]
  refine hv.ordered.imp fun {i j} hij a ha b hb => ?_
  cases i <;> cases j <;> simp at ha hb
  subst ha hb
  exact hij

variable {E : List (CStr × Offset)} {D : List Offset}

theorem btreeSearch_spec (hS : S.Lawful F KeyOk Abs) (ho : 3 ≤ tree.order) (ha : Abs s w) (hT : TreeAt KeyOk w tree E D) (key : CStr) :
    Meets F (btreeSearch S tree s key) fun r => (∀ v, (key, v) ∈ E → r = v) ∧ (key ∉ E.map Prod.fst → r = 0) := by
  cases hT with
  | empty leftLeaf header =>
    refine Meets.bind (hS.readHeader ha header) ?_
    rintro _ rfl
    exact Meets.pure ⟨by simp, fun _ => rfl⟩
  | @tree h t valid nodes header =>
    have hd := t.depth_lt ho valid.sound valid.pos
    refine Meets.bind (hS.readHeader ha header) ?_
    rintro _ rfl
    rw [if_neg (by dsimp only; omega)]
    refine Meets.bind (search_spec hS key ha t _ (by simp only [BTreeHeader.depth]; omega) nodes valid.ordered) ?_
    rintro r ⟨hsome, hnone⟩
    refine Meets.pure ⟨fun v hv => ?_, fun hk => ?_⟩
    · have hmem := mem_entriesOf.1 hv
      obtain _ | u := r
      · exact absurd hmem (hnone rfl v)
      · have hu := mem_entriesOf.2 (hsome u rfl)
        have hnd : ((entriesOf t.flat).map Prod.fst).Nodup := valid.ascending.imp ne_of_lt
        exact congrArg Prod.snd (inj_on_of_nodup_map hnd hu hv rfl)
    · obtain _ | u := r
      · rfl
      · exact absurd (mem_keys_entriesOf.2 ⟨u, hsome u rfl⟩) hk

theorem btreeGetSize_spec (hS : S.Lawful F KeyOk Abs) (ha : Abs s w) (hT : TreeAt KeyOk w tree E D) :
    Meets F (btreeGetSize S tree s) (· = E.length) := by
  cases hT with
  | empty leftLeaf header =>
    refine Meets.bind (hS.readHeader ha header) ?_
    rintro _ rfl
    exact Meets.pure rfl
  | tree t valid nodes header =>
    refine Meets.bind (hS.readHeader ha header) ?_
    rintro _ rfl
    exact Meets.pure rfl

theorem newRoot_leaf (ho : 3 ≤ tree.order) (key : CStr) (v : Offset) (o : Offset) :
    newRoot tree 0 key v = (⟨o, [(SizedKey.dup key, v)], 0⟩ : Leaf).node tree.order := by
  obtain ⟨n, hn⟩ : ∃ n, tree.order = n + 3 := ⟨tree.order - 3, by omega⟩
  rw [newRoot, if_pos rfl, Leaf.node]
  refine BTreeNode.ext (by rfl) rfl ?_ ?_
  · simp [btreeCreateNodeBlock, BTreeNode.setKey, BTreeNode.setCount, BTreeNode.setChild, packNode, pad, hn, replicate_succ]
  · simp [btreeCreateNodeBlock, BTreeNode.setKey, BTreeNode.setCount, BTreeNode.setChild, packNode, pad, hn, replicate_succ]

theorem newRoot_inner (ho : 3 ≤ tree.order) (key : CStr) {root v : Offset} (hroot : root ≠ 0) :
    newRoot tree root key v = packNode tree.order false [SizedKey.dup key] [root, v] := by
  obtain ⟨n, hn⟩ : ∃ n, tree.order = n + 3 := ⟨tree.order - 3, by omega⟩
  rw [newRoot, if_neg hroot]
  refine BTreeNode.ext (by simp [btreeCreateNodeBlock, BTreeNode.setKey, BTreeNode.setCount, BTreeNode.setChild, hroot])
    rfl ?_ ?_
  · simp [btreeCreateNodeBlock, BTreeNode.setKey, BTreeNode.setCount, BTreeNode.setChild, packNode, pad, hn, replicate_succ]
  · simp [btreeCreateNodeBlock, BTreeNode.setKey, BTreeNode.setCount, BTreeNode.setChild, packNode, pad, hn, replicate_succ]

theorem NodesIn.header_notMem {hd : BTreeHeader} (hn : NodesIn KeyOk w (t.nodes tree.order))
    (hh : w tree.block = some (.btreeHeader hd)) : tree.block ∉ t.offs := by
  intro hm
  rw [← Tree.map_fst_nodes tree.order] at hm
  obtain ⟨p, hp, he⟩ := List.mem_map.1 hm
  have := (hn p hp).2.1
  rw [he, hh] at this
  cases this

theorem World.put_same {w : World} {o : Offset} {b : Block} (h : w o = some b) : w.put o b = w := by
  rw [World.put, ← h, update_eq_self]

/-- **Inserting a key the tree does not hold** puts it between the smaller and the larger
keys. -/
theorem insertEntry_absent (hS : S.Lawful F KeyOk Abs) (ho : 3 ≤ tree.order) (ha : Abs s w) (hT : TreeAt KeyOk w tree E D)
    (hkey : KeyOk (dupKey key)) (habs : key ∉ E.map Prod.fst) (v : Offset) (rd : Bool) :
    Meets F (insertEntry S tree s key v rd) fun r => r.1 = .success ∧ ∃ w' D' A B, E = A ++ B ∧ Abs r.2 w' ∧
      TreeAt KeyOk w' tree (A ++ (key, v) :: B) D' ∧ Frame w w' (tree.block :: D) (tree.block :: D') := by
  cases hT with
  | empty leftLeaf header =>
    refine Meets.bind (hS.readHeader ha header) ?_
    rintro _ rfl
    refine Meets.bind_eq (a := (⟨true, false, key, v⟩, s)) (by simp) ?_
    dsimp only
    refine Meets.bind (hS.setTreeSize ha header _) fun s1 ha1 => ?_
    rw [if_pos (by simp), newRoot_leaf ho key v 0]
    refine Meets.bind (hS.newNode ha1 ?_) ?_
    · exact nodeOk_pack.2 (by simpa using hkey)
    rintro ⟨o, s2⟩ ⟨ho16, hnew, ha2⟩
    have hne : tree.block ≠ o := fun e => by rw [← e] at hnew; simp at hnew
    refine Meets.bind (hS.setLeftLeaf ha2 (by rw [World.put_of_ne _ _ hne]; exact World.put_self _ _ _) o) ?_
    intro s3 ha3
    refine Meets.bind (hS.setRoot ha3 (World.put_self _ _ _) o) fun s4 ha4 => Meets.pure ⟨rfl, ?_⟩
    let l : Leaf := ⟨o, [(SizedKey.dup key, v)], 0⟩
    refine ⟨_, [o], [], [], rfl, ha4, TreeAt.tree (Tree.leaf l)
      ⟨by simp [Ordered, l], by simp [l]; omega, by simp [l], by simp [l], by simp [l]⟩ ?_ (World.put_self _ _ _), ?_⟩
    · rw [Tree.nodes_leaf, nodesIn_cons]
      refine ⟨⟨ho16, ?_, nodeOk_pack.2 (by simpa [l] using hkey)⟩, nodesIn_nil⟩
      rw [World.put_of_ne _ _ hne.symm, World.put_of_ne _ _ hne.symm]
      exact World.put_self _ _ _
    refine (((Frame.put_mem mem_cons_self).trans (Frame.put_cons hnew)).trans
      ((Frame.put_mem (by simp)).trans (Frame.put_mem (by simp)))).congr (fun _ => Iff.rfl) fun p => ?_
    simp [or_comm]
  | @tree h t valid nodes header =>
    have hd := t.depth_lt ho valid.sound valid.pos
    have hoff16 := (nodes _ (t.off_mem_nodes tree.order)).1
    have hroot : t.off ≠ 0 := ne_zero_of_valid hoff16
    have hblock := nodes.header_notMem header
    have habs' : ∀ v, Item.entry key v ∉ t.flat := fun u hu => habs (mem_keys_entriesOf.2 ⟨u, hu⟩)
    refine Meets.bind (hS.readHeader ha header) ?_
    rintro _ rfl
    dsimp only
    rw [if_pos hroot]
    refine Meets.bind (insertKey_absent hS ho hkey v rd t _ s w (by simp only [BTreeHeader.depth]; omega) ha nodes
      valid.nodup valid.ordered valid.sound habs') ?_
    rintro ⟨r, s1⟩ ⟨w1, m, ha1, hm⟩
    have hsucc : r.success = true := hm.success
    have hheader1 : w1 tree.block = _ := (hm.graft.frame.live_same (o := tree.block) (by rw [header]; simp)
      (by simpa using hblock)).2.trans header
    have hblock1 : tree.block ∉ m.collect Tree.offs := (hm.graft.frame.live_same (o := tree.block)
      (by rw [header]; simp) (by simpa using hblock)).1
    obtain ⟨A, B, hAB, hAB'⟩ := hm.flat.entries
    have hord : Ordered (m.flat Tree.flat) := by
      simpa using hm.flat.ordered [] [] (by simpa using valid.ordered) (by simp) (by simp)
    have hlink := hm.graft.linked 0 (by simpa using valid.linked)
    have hhead := hm.graft.head 0
    have hsize : (entriesOf t.flat).length + 1 = (A ++ (key, v) :: B).length := by rw [hAB]; simp; omega
    rw [Spine.collect_single] at hhead
    rw [if_neg (by simp [hsucc])]
    refine Meets.bind (hS.setTreeSize ha1 hheader1 _) fun s2 ha2 => ?_
    have hframe (b : Block) : Frame w (w1.put tree.block b) (tree.block :: t.offs)
        (tree.block :: m.collect Tree.offs) := by
      have := (hm.graft.frame.cons tree.block).trans (Frame.put_mem (b := b) mem_cons_self)
      simpa using this
    have hnodes (b : Block) : NodesIn KeyOk (w1.put tree.block b) (m.collect (Tree.nodes tree.order)) :=
      hm.graft.nodesIn.congr fun p hp => by
        rw [Spine.map_fst_collect_nodes] at hp
        exact World.put_of_ne _ _ fun e => hblock1 (e ▸ hp)
    rcases hm.shape with ⟨hsing, hsplit, hcount⟩ | ⟨k, u, hpair, hres, hk, hc1, hc2⟩
    · have hsplit : r.split = false := hsplit
      obtain ⟨t1, rfl⟩ : ∃ t1, m = Spine.single t1 := ⟨_, hsing⟩
      rw [if_neg (by simp [hsplit, hroot])]
      refine Meets.pure ⟨rfl, _, t1.offs, A, B, hAB, ha2, ?_, by simpa using hframe _⟩
      have hoff : t1.off = t.off := hm.off
      simp only [Spine.collect_single, Spine.flat_single] at hhead hnodes hord hlink hAB'
      rw [← hAB']
      refine TreeAt.tree t1 ⟨hord, hm.sound _ (by simp), lt_of_lt_of_le valid.pos hcount, hlink,
        by simpa using hm.graft.nodup⟩ (hnodes _) ?_
      rw [World.put_self, hAB', ← hsize, hoff, hhead]
    · obtain ⟨t1, rfl⟩ : ∃ t1, m = Spine.pair t1 k u := ⟨_, hpair⟩
      subst hres
      have hoff : t1.off = t.off := hm.off
      rw [if_pos (by simp), newRoot_inner ho _ hroot]
      refine Meets.bind (hS.newNode ha2 (nodeOk_pack.2 (by simpa using hk))) ?_
      rintro ⟨o, s3⟩ ⟨ho16, hnew, ha3⟩
      have hne : tree.block ≠ o := fun e => by rw [← e] at hnew; simp at hnew
      rw [if_neg hroot]
      refine Meets.bind_eq rfl ?_
      refine Meets.bind (hS.setRoot ha3 (by rw [World.put_of_ne _ _ hne]; exact World.put_self _ _ _) o) ?_
      intro s4 ha4
      let t' : Tree (h + 1) := Tree.inner o (Spine.pair t1 (SizedKey.dup k.str) u)
      have hofresh : o ∉ (Spine.pair t1 (SizedKey.dup k.str) u).collect Tree.offs := fun hmem => by
        refine (hnodes _).live ?_ hnew
        rwa [Spine.map_fst_collect_nodes]
      have hflat : t'.flat = (Spine.pair t1 k u).flat Tree.flat := by
        rw [Tree.flat_inner, Spine.flat_pair, Spine.flat_pair]; rfl
      have hent : entriesOf t'.flat = A ++ (key, v) :: B := by rw [hflat, hAB']
      refine Meets.pure ⟨rfl, _, t'.offs, A, B, hAB, ha4, ?_, ?_⟩
      · rw [← hent]
        refine TreeAt.tree t' ⟨by rw [hflat]; exact hord, ?_, by simp [t'], ?_, ?_⟩ ?_ ?_
        · rw [Tree.sound_inner]
          refine ⟨by simp; omega, fun x hx => ?_⟩
          have hx' := hm.sound x hx
          rw [Spine.kids_pair, mem_cons, mem_singleton] at hx
          rcases hx with rfl | rfl
          · exact ⟨hc1, hx'⟩
          · exact ⟨hc2, hx'⟩
        · simpa [t'] using hlink
        · exact Tree.nodup_inner.2 ⟨hofresh, by simpa using hm.graft.nodup⟩
        · rw [Tree.nodes_inner, nodesIn_cons]
          refine ⟨⟨ho16, ?_, nodeOk_pack.2 fun k' hk' => ?_⟩, ?_⟩
          · rw [World.put_of_ne _ _ hne.symm]
            rw [Tree.node_inner]; simp [hoff]
          · rw [show k' = SizedKey.dup k.str from mem_singleton.1 hk']
            exact hk
          · have hn1 : NodesIn KeyOk w1 ((Spine.pair t1 (SizedKey.dup k.str) u).collect (Tree.nodes tree.order)) :=
              hm.graft.nodesIn
            refine hn1.congr fun p hp => ?_
            rw [Spine.map_fst_collect_nodes] at hp
            have hpb : p ≠ tree.block := fun e => hblock1 (e ▸ hp)
            have hpo : p ≠ o := fun e => hofresh (e ▸ hp)
            rw [World.put_of_ne _ _ hpb, World.put_of_ne _ _ hpo, World.put_of_ne _ _ hpb]
        · rw [World.put_self, hent, ← hsize]
          have : headOff t'.leaves 0 = headOff t.leaves 0 := by
            rw [← hhead]; rfl
          rw [this]; rfl
      · refine (((hframe _).trans (Frame.put_cons hnew)).trans (Frame.put_mem (by simp))).congr (fun _ => Iff.rfl)
          fun p => ?_
        have : p ∈ t'.offs ↔ p = o ∨ p ∈ (Spine.pair t1 k u).collect Tree.offs := by
          rw [show t'.offs = o :: (Spine.pair t1 k u).collect Tree.offs from rfl, mem_cons]
        simp only [mem_cons, this]
        tauto

theorem ordered_replace {A B : List Item} {u v : Offset} (h : Ordered (A ++ .entry key u :: B)) : Ordered (A ++ .entry key v :: B) := by
  obtain ⟨h1, h2, h3⟩ := ordered_append.1 h
  obtain ⟨h4, h5⟩ := pairwise_cons.1 h2
  refine ordered_append.2 ⟨h1, pairwise_cons.2 ⟨fun i hi => ?_, h5⟩, fun i hi j hj => ?_⟩
  · have := h4 i hi
    cases i <;> exact this
  · rcases mem_cons.1 hj with rfl | hj
    · exact Item.lt_entry.2 (Item.lt_entry.1 (h3 i hi _ mem_cons_self))
    · exact h3 i hi j (mem_cons_of_mem _ hj)

/-- **Inserting a key the tree holds**: nothing changes without `replaceDup`, the entry's
offset with it. -/
theorem insertEntry_present (hS : S.Lawful F KeyOk Abs) (ho : 3 ≤ tree.order) (ha : Abs s w) (hT : TreeAt KeyOk w tree E D)
    (hmem : key ∈ E.map Prod.fst) (v : Offset) (rd : Bool) :
    Meets F (insertEntry S tree s key v rd) fun r => (rd = false → r = (.duplicate, s)) ∧
      (rd = true → r.1 = .success ∧ ∃ w' D' A B u, E = A ++ (key, u) :: B ∧ Abs r.2 w' ∧
        TreeAt KeyOk w' tree (A ++ (key, v) :: B) D' ∧ Frame w w' (tree.block :: D) (tree.block :: D')) := by
  cases hT with
  | empty leftLeaf header => simp at hmem
  | @tree h t valid nodes header =>
    have hd := t.depth_lt ho valid.sound valid.pos
    have hroot : t.off ≠ 0 := ne_zero_of_valid (nodes _ (t.off_mem_nodes tree.order)).1
    have hblock := nodes.header_notMem header
    obtain ⟨u, hu⟩ := mem_keys_entriesOf.1 hmem
    refine Meets.bind (hS.readHeader ha header) ?_
    rintro _ rfl
    rw [if_pos hroot]
    refine Meets.bind (insertKey_present hS v rd t _ s w (by simp only [BTreeHeader.depth]; omega) ha nodes
      valid.nodup valid.ordered valid.sound u hu) ?_
    rintro ⟨r, s1⟩ ⟨hsucc, hno, hrepl⟩
    dsimp only at hsucc hno hrepl ⊢
    rw [if_pos hsucc]
    refine Meets.pure ⟨fun hrd => by rw [hno hrd, hrd]; rfl, fun hrd => ⟨by rw [hrd]; rfl, ?_⟩⟩
    obtain ⟨w1, t', ha1, hp⟩ := hrepl hrd
    obtain ⟨A, B, u', h1, h2⟩ := hp.flat
    have hf := hp.graft.frame
    simp only [Spine.collect_single] at hf
    have hlive := hf.live_same (o := tree.block) (by rw [header]; simp) hblock
    have hhead := hp.graft.head 0
    have hlink := hp.graft.linked 0
    have hin := hp.graft.nodesIn
    have hnd := hp.graft.nodup
    simp only [Spine.collect_single] at hhead hlink hin hnd
    have hord := valid.ordered
    rw [h1] at hord
    refine ⟨w1, t'.offs, entriesOf A, entriesOf B, u', by rw [h1]; simp, ha1, ?_, hf.cons _⟩
    have hent : entriesOf t'.flat = entriesOf A ++ (key, v) :: entriesOf B := by rw [h2]; simp
    rw [← hent]
    refine TreeAt.tree t' ⟨by rw [h2]; exact ordered_replace hord, hp.sound, by rw [hp.count]; exact valid.pos,
      hlink valid.linked, hnd⟩ hin ?_
    have hlen : (entriesOf t'.flat).length = (entriesOf t.flat).length := by rw [h1, h2]; simp
    rw [hlive.2, header, hlen, hp.off, hhead]

end KVStores.Gdb
