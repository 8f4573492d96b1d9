import KVStores.Gdb.Btree
import KVStores.Gdb.Graft

/-!
# Finding the way down

* `search_spec`: **`__search` finds the entry of the key** if the tree has one.
-/

namespace KVStores.Gdb

open List Function

variable {l l' : List Item}

theorem ordered_append : Ordered (l ++ l') ↔ Ordered l ∧ Ordered l' ∧ ∀ i ∈ l, ∀ j ∈ l', i.lt j :=
  pairwise_append

theorem Ordered.sublist (h : Ordered l') (hs : l.Sublist l') : Ordered l := List.Pairwise.sublist hs h

namespace Spine

variable {τ : Type} {f : τ → List Item} {m : Spine τ}

theorem seps_sublist (f : τ → List Item) (m : Spine τ) : (m.keys.map fun k => Item.sep k.str).Sublist (m.flat f) := by
  obtain ⟨t, rest⟩ := m
  refine List.Sublist.trans ?_ (sublist_append_right _ _)
  simp only [keys, List.map_map]
  induction rest with
  | nil => exact List.Sublist.slnil
  | cons p rest ih =>
    exact (ih.trans (sublist_append_right _ _)).cons_cons _

theorem ascending_keys (h : Ordered (m.flat f)) : Ascending m.keys := by
  have := h.sublist (seps_sublist f m)
  rw [Ordered, pairwise_map] at this
  exact this

theorem ordered_kid (h : Ordered (m.flat f)) {t : τ} (ht : t ∈ m.kids) : Ordered (f t) := by
  refine h.sublist ?_
  obtain ⟨u, rest⟩ := m
  rcases mem_cons.1 ht with rfl | ht
  · exact sublist_append_left _ _
  · obtain ⟨p, hp, rfl⟩ := List.mem_map.1 ht
    refine List.Sublist.trans ?_ (sublist_append_right _ _)
    obtain ⟨R, R', rfl⟩ := append_of_mem hp
    rw [flatMap_append, flatMap_cons]
    exact ((sublist_cons_self _ _).trans (sublist_append_left _ _)).trans
      (sublist_append_right _ _)

variable {L : List (τ × SizedKey)} {R : List (SizedKey × τ)}

theorem forall_kids_plug {P : τ → Prop} {m' : Spine τ} (h : ∀ t ∈ (plug L m R).kids, P t)
    (h' : ∀ t ∈ m'.kids, P t) : ∀ t ∈ (plug L m' R).kids, P t := by
  intro t ht
  rw [kids_plug] at ht h
  rcases mem_append.1 ht with ht | ht
  · exact h t (mem_append_left _ ht)
  · exact (mem_append.1 ht).elim (h' t) fun ht => h t (mem_append_right _ (mem_append_right _ ht))

variable {key : CStr} {i : Item}

theorem key_lt_of_mem_leftFlat (ho : Ordered (leftFlat f L)) (hL : ∀ p ∈ L, p.2.str < key) (hi : i ∈ leftFlat f L) : i.key < key := by
  obtain ⟨p, hp, hi⟩ := mem_flatMap.1 hi
  rcases mem_append.1 hi with hi | hi
  · obtain ⟨A, B, hAB⟩ := append_of_mem hp
    have : Ordered (f p.1 ++ [Item.sep p.2.str]) := by
      refine ho.sublist ?_
      simp only [hAB, leftFlat, flatMap_append, flatMap_cons]
      exact (sublist_append_left _ _).trans (sublist_append_right _ _)
    have hlt := (ordered_append.1 this).2.2 i hi _ (mem_singleton_self _)
    exact lt_of_le_of_lt (Item.key_le_of_lt hlt) (hL p hp)
  · rw [mem_singleton.1 hi]
    exact hL p hp

/-- Everything right of a child comes after the entry of a key that the separators there
are not below. -/
theorem lt_of_mem_rightFlat {v : Offset} (ho : Ordered (rightFlat f R))
    (hR : ∀ p ∈ R, key ≤ p.1.str) (hi : i ∈ rightFlat f R) : (Item.entry key v).lt i := by
  obtain ⟨p, hp, hi⟩ := mem_flatMap.1 hi
  rcases mem_cons.1 hi with rfl | hi
  · exact hR p hp
  · obtain ⟨A, B, hAB⟩ := append_of_mem hp
    have : Ordered (Item.sep p.1.str :: f p.2) := by
      refine ho.sublist ?_
      simp only [hAB, rightFlat, flatMap_append, flatMap_cons]
      exact (sublist_append_left _ _).trans (sublist_append_right _ _)
    have hlt := (pairwise_cons.1 this).1 i hi
    exact Item.lt_of_key_lt (lt_of_le_of_lt (hR p hp) (Item.sep_lt.1 hlt))

/-- **The way down**: the child at the position of the key. -/
theorem exists_route (h : Ordered (m.flat f)) (key : CStr) : ∃ L t R, m = plug L (single t) R ∧ L.length = keyPos key m.keys ∧
      (∀ i ∈ leftFlat f L, i.key < key) ∧ (∀ v, ∀ i ∈ rightFlat f R, (Item.entry key v).lt i) := by
  obtain ⟨L, t, R, hL, rfl⟩ := exists_plug m (keyPos key m.keys) (by
    have := keyPos_le key m.keys
    rwa [keys_length] at this)
  have hasc := ascending_keys h
  rw [flat_plug] at h
  obtain ⟨hoL, hoR, -⟩ := ordered_append.1 h
  have hoR := (ordered_append.1 hoR).2.1
  rw [keys_plug] at hL hasc
  have htake : (L.map Prod.snd ++ ((single t).keys ++ R.map Prod.fst)).take L.length = L.map Prod.snd :=
    take_left' (by simp)
  have hdrop : (L.map Prod.snd ++ ((single t).keys ++ R.map Prod.fst)).drop L.length = R.map Prod.fst := by
    rw [drop_left' (by simp)]; rfl
  refine ⟨L, t, R, rfl, by rw [keys_plug]; exact hL, fun i hi => ?_, fun v i hi => ?_⟩
  · refine key_lt_of_mem_leftFlat hoL (fun p hp => ?_) hi
    have hmem : p.2 ∈ (L.map Prod.snd ++ ((single t).keys ++ R.map Prod.fst)).take L.length := by
      rw [htake]; exact List.mem_map_of_mem hp
    rw [hL] at hmem
    exact lt_of_mem_take_keyPos hmem
  · refine lt_of_mem_rightFlat hoR (fun p hp => ?_) hi
    refine le_of_mem_drop_keyPos hasc ?_
    rw [← hL, hdrop]
    exact List.mem_map_of_mem hp

end Spine

variable {h : ℕ} {o : Offset} {m : Spine (Tree h)} {t : Tree h}

theorem Tree.ordered_kid (ho : Ordered (Tree.inner o m).flat) (ht : t ∈ m.kids) : Ordered t.flat :=
  Spine.ordered_kid (m := m) ho ht

variable {order : ℕ} {KeyOk : KeySlot → Prop} {w : World}

theorem NodesIn.inner (hn : NodesIn KeyOk w ((Tree.inner o m).nodes order)) :
    dbHeaderBlockSize ≤ o ∧ w o = some (.btreeNode ((Tree.inner o m).node order)) ∧
      (∀ k ∈ m.keys, KeyOk k.slot) ∧ NodesIn KeyOk w (m.collect (Tree.nodes order)) := by
  rw [Tree.nodes_inner, nodesIn_cons] at hn
  exact ⟨hn.1.1, hn.1.2.1, nodeOk_pack.1 hn.1.2.2, hn.2⟩

theorem NodesIn.kid (hn : NodesIn KeyOk w (m.collect (Tree.nodes order))) (ht : t ∈ m.kids) : NodesIn KeyOk w (t.nodes order) :=
  fun p hp => hn p (mem_flatMap.2 ⟨t, ht, hp⟩)

theorem Tree.nodup_kid (hd : (m.collect Tree.offs).Nodup) (ht : t ∈ m.kids) : t.offs.Nodup :=
  (nodup_flatMap.1 hd).1 t ht

variable {key : CStr} {L : List (Tree h × SizedKey)} {R : List (SizedKey × Tree h)}

theorem mem_flat_route (hl : ∀ i ∈ Spine.leftFlat Tree.flat L, i.key < key)
    (hr : ∀ v, ∀ i ∈ Spine.rightFlat Tree.flat R, (Item.entry key v).lt i) {u : Offset} :
    Item.entry key u ∈ (Tree.inner o (Spine.plug L (Spine.single t) R)).flat ↔ Item.entry key u ∈ t.flat := by
  rw [Tree.flat_inner, Spine.flat_plug, Spine.flat_single, mem_append, mem_append]
  constructor
  · rintro (hm | hm | hm)
    · exact absurd (hl _ hm) (lt_irrefl _)
    · exact hm
    · exact absurd (Item.entry_lt_entry.1 (hr u _ hm)) (lt_irrefl _)
  · exact fun hm => Or.inr (Or.inl hm)

theorem childAt_route {i : ℕ} (hi : L.length = i) : ((Tree.inner o (Spine.plug L (Spine.single t) R)).node order).childAt i = t.off := by
  subst hi
  rw [Tree.node_inner, childAt_pack _ _ _ _ (by simp)]
  simp

variable {l : Leaf}

theorem Leaf.exists_cut (h : Ordered (Tree.leaf l).flat) (key : CStr) : ∃ E E',
    l.entries = E ++ E' ∧ E.length = keyPos key (l.entries.map Prod.fst) ∧ (∀ e ∈ E, e.1.str < key) ∧ (∀ e ∈ E', key ≤ e.1.str) := by
  have hasc : Ascending (l.entries.map Prod.fst) := by
    rw [Tree.flat_leaf, Ordered, pairwise_map] at h
    exact pairwise_map.2 h
  have hle := keyPos_le key (l.entries.map Prod.fst)
  refine ⟨l.entries.take (keyPos key (l.entries.map Prod.fst)), l.entries.drop _,
    (take_append_drop _ _).symm, by simpa using hle, fun e he => ?_, fun e he => ?_⟩
  · have hmem := List.mem_map_of_mem (f := Prod.fst) he
    rw [map_take] at hmem
    exact lt_of_mem_take_keyPos hmem
  · refine le_of_mem_drop_keyPos hasc ?_
    rw [← map_drop]
    exact List.mem_map_of_mem he

theorem Leaf.ascending (h : Ordered (Tree.leaf l).flat) : Ascending (l.entries.map Prod.fst) := by
  rw [Tree.flat_leaf, Ordered, pairwise_map] at h
  exact pairwise_map.2 h

variable {v : Offset}

theorem Leaf.mem_flat : Item.entry key v ∈ (Tree.leaf l).flat ↔ ∃ k, (k, v) ∈ l.entries ∧ k.str = key := by
  simp [Tree.flat_leaf]

variable {E E' : List (SizedKey × Offset)}

theorem Leaf.cut_present (h : Ordered (Tree.leaf l).flat)
    (hE : l.entries = E ++ E') (hlt : ∀ e ∈ E, e.1.str < key) (hle : ∀ e ∈ E', key ≤ e.1.str)
    (hmem : key ∈ (l.entries.map Prod.fst).map SizedKey.str) : ∃ k v E'', E' = (k, v) :: E'' ∧ k.str = key := by
  simp only [hE, List.map_map, List.mem_map, mem_append, comp_apply] at hmem
  obtain ⟨e, he | he, hek⟩ := hmem
  · exact absurd (hlt e he) (by rw [hek]; exact lt_irrefl _)
  · obtain _ | ⟨⟨k, v⟩, E''⟩ := E'
    · cases he
    · refine ⟨k, v, E'', rfl, le_antisymm ?_ (hle _ mem_cons_self)⟩
      rcases mem_cons.1 he with rfl | he
      · exact hek.le
      · have hasc := Leaf.ascending h
        rw [hE, map_append, map_cons] at hasc
        have := (pairwise_cons.1 (pairwise_append.1 hasc).2.1).1 e.1 (List.mem_map_of_mem he)
        rw [← hek]; exact this.le

theorem Leaf.childAt {k : SizedKey} (order : ℕ) (hE : l.entries = E ++ (k, v) :: E') : (l.node order).childAt E.length = v := by
  rw [Leaf.node, hE, childAt_pack _ _ _ _ (by simp)]
  simp

variable {σ : Type} {S : NodeStore σ} {F : Prop} {KeyOk : KeySlot → Prop} {Abs : σ → World → Prop}
  {tree : BTree} {s : σ} {w : World}

theorem NodeStore.Lawful.readRoot (hS : S.Lawful F KeyOk Abs) (ha : Abs s w) (hn : NodesIn KeyOk w (t.nodes tree.order)) :
    Meets F (S.readNode s tree.order t.off) (· = t.node tree.order) :=
  hS.readNode ha (hn _ (t.off_mem_nodes tree.order)).2.1

theorem search_spec (hS : S.Lawful F KeyOk Abs) (key : CStr) (ha : Abs s w) :
    ∀ {h : ℕ} (t : Tree h) (fuel : ℕ), h < fuel → NodesIn KeyOk w (t.nodes tree.order) → Ordered t.flat →
      Meets F (search S tree key fuel s t.off) fun r =>
        (∀ v, r = some v → Item.entry key v ∈ t.flat) ∧ (r = none → ∀ v, Item.entry key v ∉ t.flat) := by
  intro h
  induction h with
  | zero =>
    intro t fuel hf hn ho
    obtain ⟨fuel, rfl⟩ : ∃ n, fuel = n + 1 := ⟨fuel - 1, by omega⟩
    obtain ⟨l, rfl⟩ := t.exists_leaf
    refine Meets.bind (hS.readRoot ha hn) ?_
    rintro _ rfl
    obtain ⟨E, E', hE, hEl, hlt, hle⟩ := Leaf.exists_cut ho key
    have h1 := searchIndex_pack key tree.order true (l.entries.map Prod.fst) (l.entries.map Prod.snd ++ [l.next])
    have h2 := matchesAt_pack key (Leaf.ascending ho) tree.order true (l.entries.map Prod.snd ++ [l.next])
    refine Meets.bind_eq h1 ?_
    refine Meets.bind_eq h2 ?_
    by_cases hmem : key ∈ (l.entries.map Prod.fst).map SizedKey.str
    · obtain ⟨k, v, E'', rfl, rfl⟩ := Leaf.cut_present ho hE hlt hle hmem
      rw [if_pos (by simpa using hmem)]
      refine ⟨fun u hu => ?_, nofun⟩
      rw [Tree.node_leaf, ← hEl, Leaf.childAt _ hE] at hu
      cases hu
      exact Leaf.mem_flat.2 ⟨k, by simp [hE], rfl⟩
    · rw [if_neg (by simpa using hmem)]
      refine ⟨nofun, fun _ v hv => hmem ?_⟩
      obtain ⟨k, hk, rfl⟩ := Leaf.mem_flat.1 hv
      exact List.mem_map_of_mem (List.mem_map_of_mem hk)
  | succ h ih =>
    intro t fuel hf hn ho
    obtain ⟨fuel, rfl⟩ : ∃ n, fuel = n + 1 := ⟨fuel - 1, by omega⟩
    obtain ⟨o, m, rfl⟩ := t.exists_inner
    refine Meets.bind (hS.readRoot ha hn) ?_
    rintro _ rfl
    obtain ⟨L, t, R, rfl, hL, hl, hr⟩ := Spine.exists_route (m := m) ho key
    have h1 := searchIndex_pack key tree.order false (Spine.plug L (Spine.single t) R).keys
      ((Spine.plug L (Spine.single t) R).kids.map Tree.off)
    refine Meets.bind_eq h1 ?_
    rw [childAt_route hL]
    have hkid : NodesIn KeyOk w (t.nodes tree.order) := by
      simp only [Tree.nodes_inner, nodesIn_cons, Spine.collect_plug, nodesIn_append, Spine.collect_single] at hn
      exact hn.2.2.1
    refine (ih t fuel (by omega) hkid (Tree.ordered_kid ho (by simp))).mono ?_
    rintro r ⟨hsome, hnone⟩
    exact ⟨fun v hv => (mem_flat_route hl hr).2 (hsome v hv), fun hv v hmem => hnone hv v ((mem_flat_route hl hr).1 hmem)⟩

end KVStores.Gdb
