import KVStores.Gdb.Tree

/-!
# Replacing a part of a tree

`Graft w w' m m'`: in the step from `w` to `w'` the subtrees `m`, neighbours in some
node, have been replaced by `m'`. The blocks of `m'` are there, the blocks of `m` that
are no longer used are gone, and the leaf chain still runs through.
-/

namespace KVStores.Gdb

open List Function

variable {order : ℕ} {KeyOk : KeySlot → Prop} {w w' w'' : World} {h : ℕ}

theorem Tree.map_fst_flatMap_nodes (l : List (Tree h)) : (l.flatMap (Tree.nodes order)).map Prod.fst = l.flatMap Tree.offs := by
  induction l with
  | nil => rfl
  | cons t l ih => simp [ih, Tree.map_fst_nodes]

theorem Spine.map_fst_collect_nodes (m : Spine (Tree h)) : (m.collect (Tree.nodes order)).map Prod.fst = m.collect Tree.offs :=
  Tree.map_fst_flatMap_nodes m.kids

/-- The subtrees `m` have been replaced by `m'`. -/
structure Graft (order : ℕ) (KeyOk : KeySlot → Prop) (w w' : World) {h : ℕ} (m m' : Spine (Tree h)) : Prop where
  nodesIn : NodesIn KeyOk w' (m'.collect (Tree.nodes order))
  nodup : (m'.collect Tree.offs).Nodup
  frame : Frame w w' (m.collect Tree.offs) (m'.collect Tree.offs)
  head : ∀ next, headOff (m'.collect Tree.leaves) next = headOff (m.collect Tree.leaves) next
  linked : ∀ next, Linked (m.collect Tree.leaves) next → Linked (m'.collect Tree.leaves) next

variable {m m' : Spine (Tree h)}

variable {m'' : Spine (Tree h)}

theorem Graft.trans {m'' : Spine (Tree h)} (g : Graft order KeyOk w w' m m')
    (g' : Graft order KeyOk w' w'' m' m'') : Graft order KeyOk w w'' m m'' :=
  ⟨g'.nodesIn, g'.nodup, g.frame.trans g'.frame, fun next => (g'.head next).trans (g.head next),
    fun next hl => g'.linked next (g.linked next hl)⟩

theorem Graft.of_kids (g : Graft order KeyOk w w' m m') (hk : m''.kids = m'.kids) : Graft order KeyOk w w' m m'' := by
  have hc {α : Type} (f : Tree h → List α) : m''.collect f = m'.collect f := by rw [Spine.collect, hk]; rfl
  exact ⟨by rw [hc]; exact g.nodesIn, by rw [hc]; exact g.nodup, by rw [hc]; exact g.frame,
    fun next => by rw [hc]; exact g.head next, fun next hl => by rw [hc]; exact g.linked next hl⟩

theorem Graft.plug (g : Graft order KeyOk w w' m m') {L : List (Tree h × SizedKey)} {R : List (SizedKey × Tree h)}
    (hn : NodesIn KeyOk w ((Spine.plug L m R).collect (Tree.nodes order)))
    (hd : ((Spine.plug L m R).collect Tree.offs).Nodup) : Graft order KeyOk w w' (Spine.plug L m R) (Spine.plug L m' R) := by
  simp only [Spine.collect_plug, nodesIn_append] at hn hd
  obtain ⟨hnL, -, hnR⟩ := hn
  obtain ⟨hdL, hdmR, hLmR⟩ := nodup_append'.1 hd
  obtain ⟨-, hdR, hmR⟩ := nodup_append'.1 hdmR
  have hL : ∀ o ∈ ((L.map Prod.fst).flatMap (Tree.nodes order)).map Prod.fst, o ∉ m.collect Tree.offs := by
    rw [Tree.map_fst_flatMap_nodes]
    exact fun o ho hm => hLmR ho (mem_append_left _ hm)
  have hR : ∀ o ∈ ((R.map Prod.snd).flatMap (Tree.nodes order)).map Prod.fst, o ∉ m.collect Tree.offs := by
    rw [Tree.map_fst_flatMap_nodes]
    exact fun o ho hm => hmR hm ho
  have hL' := g.frame.disjoint hnL hL
  have hR' := g.frame.disjoint hnR hR
  rw [Tree.map_fst_flatMap_nodes] at hL' hR'
  refine ⟨?_, ?_, ?_, ?_, ?_⟩
  · simp only [Spine.collect_plug, nodesIn_append]
    exact ⟨g.frame.nodesIn hnL hL, g.nodesIn, g.frame.nodesIn hnR hR⟩
  · rw [Spine.collect_plug]
    refine nodup_append'.2 ⟨hdL, nodup_append'.2 ⟨g.nodup, hdR, ?_⟩, ?_⟩
    · exact fun o hm ho => hR' o ho hm
    · intro o ho hm
      rcases mem_append.1 hm with hm | hm
      · exact hL' o ho hm
      · exact hLmR ho (mem_append_right _ hm)
  · rw [Spine.collect_plug, Spine.collect_plug]
    exact g.frame.extend _ _
  · intro next
    simp only [Spine.collect_plug, headOff_append, g.head]
  · intro next hl
    simp only [Spine.collect_plug, linked_append, headOff_append, g.head] at hl ⊢
    exact ⟨hl.1, g.linked _ hl.2.1, hl.2.2⟩

section Inner

variable {o : Offset} {M M' : Spine (Tree h)}

theorem Graft.inner (g : Graft order KeyOk w w' M M')
    (ho : dbHeaderBlockSize ≤ o) (hlive : w o ≠ none) (hoM : o ∉ M.collect Tree.offs)
    (hk : ∀ k ∈ M'.keys, KeyOk k.slot) : Graft order KeyOk w (w'.put o (.btreeNode ((Tree.inner o M').node order)))
      (Spine.single (Tree.inner o M)) (Spine.single (Tree.inner o M')) := by
  have hoM' := (g.frame.live_same hlive hoM).1
  refine ⟨?_, ?_, ?_, ?_, ?_⟩
  · simp only [Spine.collect_single, Tree.nodes_inner, nodesIn_cons]
    refine ⟨⟨ho, World.put_self _ _ _, nodeOk_pack.2 hk⟩, g.nodesIn.congr fun p hp => ?_⟩
    rw [Spine.map_fst_collect_nodes] at hp
    exact World.put_of_ne _ _ fun e => hoM' (e ▸ hp)
  · simpa using ⟨hoM', g.nodup⟩
  · simp only [Spine.collect_single, Tree.offs_inner]
    exact (g.frame.cons o).trans (Frame.put_mem mem_cons_self)
  · simpa using g.head
  · simpa using g.linked

theorem Graft.inner_same (g : Graft order KeyOk w w' M M')
    (ho : dbHeaderBlockSize ≤ o) (hlive : w o = some (.btreeNode ((Tree.inner o M).node order)))
    (hoM : o ∉ M.collect Tree.offs) (hk : ∀ k ∈ M'.keys, KeyOk k.slot)
    (hsame : (Tree.inner o M').node order = (Tree.inner o M).node order) :
    Graft order KeyOk w w' (Spine.single (Tree.inner o M)) (Spine.single (Tree.inner o M')) := by
  have hw' := (g.frame.live_same (by rw [hlive]; simp) hoM).2
  have hput : w'.put o (.btreeNode ((Tree.inner o M').node order)) = w' := by
    rw [World.put, hsame, ← hlive, ← hw', update_eq_self]
  have := g.inner ho (by rw [hlive]; simp) hoM hk
  rwa [hput] at this

theorem Graft.split {A B : Spine (Tree h)} {k : SizedKey} {o2 : Offset}
    (g : Graft order KeyOk w w' M M') (hM' : M'.kids = A.kids ++ B.kids)
    (ho : dbHeaderBlockSize ≤ o) (hlive : w o ≠ none) (hoM : o ∉ M.collect Tree.offs)
    (ho2 : dbHeaderBlockSize ≤ o2) (hnew : w' o2 = none)
    (hkA : ∀ k ∈ A.keys, KeyOk k.slot) (hkB : ∀ k ∈ B.keys, KeyOk k.slot) :
    Graft order KeyOk w ((w'.put o2 (.btreeNode ((Tree.inner o2 B).node order))).put o
        (.btreeNode ((Tree.inner o A).node order)))
      (Spine.single (Tree.inner o M)) (Spine.pair (Tree.inner o A) k (Tree.inner o2 B)) := by
  obtain ⟨hoM', hwo⟩ := g.frame.live_same hlive hoM
  have hoo : o ≠ o2 := fun e => hlive (by rw [← hwo, e, hnew])
  have hcol {α : Type} (f : Tree h → List α) : M'.collect f = A.collect f ++ B.collect f := by
    simp [Spine.collect, hM']
  have ho2M' : o2 ∉ M'.collect Tree.offs := fun hm =>
    g.nodesIn.live (by rwa [Spine.map_fst_collect_nodes]) hnew
  have hoff := ho2M'
  have hoff' := hoM'
  have hnd := g.nodup
  have hin := g.nodesIn
  rw [hcol, mem_append, not_or] at hoff hoff'
  rw [hcol] at hnd hin
  obtain ⟨hndA, hndB, hndAB⟩ := nodup_append'.1 hnd
  obtain ⟨hinA, hinB⟩ := nodesIn_append.1 hin
  have hsame : ∀ p, p ≠ o → p ≠ o2 → ((w'.put o2 (.btreeNode ((Tree.inner o2 B).node order))).put o
      (.btreeNode ((Tree.inner o A).node order))) p = w' p := fun p h1 h2 => by
    rw [World.put_of_ne _ _ h1, World.put_of_ne _ _ h2]
  refine ⟨?_, ?_, ?_, ?_, ?_⟩
  · simp only [Spine.collect_pair, Tree.nodes_inner, cons_append, nodesIn_cons, nodesIn_append]
    refine ⟨⟨ho, World.put_self _ _ _, nodeOk_pack.2 hkA⟩, hinA.congr fun p hp => ?_,
      ⟨ho2, ?_, nodeOk_pack.2 hkB⟩, hinB.congr fun p hp => ?_⟩
    · rw [Spine.map_fst_collect_nodes] at hp
      exact hsame p (fun e => hoff'.1 (e ▸ hp)) (fun e => hoff.1 (e ▸ hp))
    · rw [World.put_of_ne _ _ hoo.symm, World.put_self]
    · rw [Spine.map_fst_collect_nodes] at hp
      exact hsame p (fun e => hoff'.2 (e ▸ hp)) (fun e => hoff.2 (e ▸ hp))
  · simp only [Spine.collect_pair, Tree.offs_inner]
    refine nodup_append'.2 ⟨nodup_cons.2 ⟨hoff'.1, hndA⟩, nodup_cons.2 ⟨hoff.2, hndB⟩, ?_⟩
    intro p hp hq
    rcases mem_cons.1 hp with rfl | hp <;> rcases mem_cons.1 hq with rfl | hq
    · exact hoo rfl
    · exact hoff'.2 hq
    · exact hoff.1 hp
    · exact hndAB hp hq
  · refine (((g.frame.cons o).trans (Frame.put_cons hnew)).trans (Frame.put_mem (by simp))).congr (by simp) fun p => ?_
    rw [hcol]
    simp only [Spine.collect_pair, Tree.offs_inner, mem_append, mem_cons]
    tauto
  · intro next
    have := g.head next
    rw [hcol] at this
    simpa using this
  · intro next hl
    have := g.linked next (by simpa using hl)
    rw [hcol] at this
    simpa using this

end Inner

section Leaf

variable {l l' : Leaf}

theorem graft_leaf (hoff : l'.off = l.off) (hnext : l'.next = l.next) (ho : dbHeaderBlockSize ≤ l.off)
    (hk : ∀ k ∈ l'.entries.map Prod.fst, KeyOk k.slot) : Graft order KeyOk w (w.put l.off (.btreeNode (l'.node order)))
      (Spine.single (Tree.leaf l)) (Spine.single (Tree.leaf l')) := by
  refine ⟨?_, by simp, ?_, ?_, ?_⟩
  · simp only [Spine.collect_single, Tree.nodes_leaf, nodesIn_cons, hoff]
    exact ⟨⟨ho, World.put_self _ _ _, nodeOk_pack.2 hk⟩, nodesIn_nil⟩
  · simpa [hoff] using Frame.put_mem mem_cons_self
  · simp [hoff]
  · simp [hnext]

theorem graft_leaf_split (l1 l2 : Leaf) {k : SizedKey} (h1 : l1.off = l.off) (h12 : l1.next = l2.off)
    (h2 : l2.next = l.next) (ho : dbHeaderBlockSize ≤ l.off) (hlive : w l.off ≠ none)
    (ho2 : dbHeaderBlockSize ≤ l2.off) (hnew : w l2.off = none)
    (hk1 : ∀ k ∈ l1.entries.map Prod.fst, KeyOk k.slot) (hk2 : ∀ k ∈ l2.entries.map Prod.fst, KeyOk k.slot) :
    Graft order KeyOk w ((w.put l2.off (.btreeNode (l2.node order))).put l.off (.btreeNode (l1.node order)))
      (Spine.single (Tree.leaf l)) (Spine.pair (Tree.leaf l1) k (Tree.leaf l2)) := by
  have hoo : l.off ≠ l2.off := fun e => hlive (by rw [e, hnew])
  refine ⟨?_, ?_, ?_, ?_, ?_⟩
  · simp only [Spine.collect_pair, Tree.nodes_leaf, cons_append, nil_append, nodesIn_cons, h1]
    refine ⟨⟨ho, World.put_self _ _ _, nodeOk_pack.2 hk1⟩, ⟨ho2, ?_, nodeOk_pack.2 hk2⟩, nodesIn_nil⟩
    rw [World.put_of_ne _ _ hoo.symm, World.put_self]
  · simp [h1, hoo]
  · refine ((Frame.put_cons (D := [l.off]) hnew).trans (Frame.put_mem (by simp))).congr (by simp) fun p => ?_
    simp [h1, or_comm]
  · simp [h1]
  · simp [h12, h2]

end Leaf

end KVStores.Gdb
