import KVStores.Gdb.NodeSpec

/-!
# What the deletion operations do to packed nodes
-/

namespace KVStores.Gdb

open List Option

variable {order : ℕ} {leaf : Bool}

theorem packNode_keys_append (order : ℕ) (leaf : Bool) (A B : List SizedKey) (cs : List Offset) :
    (packNode order leaf (A ++ B) cs).keys = A.map SizedKey.slot ++
      (B.map SizedKey.slot ++ List.replicate (order - 1 - (A.length + B.length)) .null) := by
  simp [packNode, pad]

theorem packNode_children_append (order : ℕ) (leaf : Bool) (ks : List SizedKey) (A B : List Offset) :
    (packNode order leaf ks (A ++ B)).children = A ++ (B ++ List.replicate (order - (A.length + B.length)) 0) := by
  simp [packNode, pad]

section Updates

variable (n : BTreeNode) (i c : ℕ) (o : Offset) (k : KeySlot)

@[simp] theorem setCount_setChild : (n.setCount c).setChild i o = (n.setChild i o).setCount c := rfl
@[simp] theorem setCount_setKey : (n.setCount c).setKey i k = (n.setKey i k).setCount c := rfl
@[simp] theorem setCount_freeAt : (n.setCount c).freeAt i = (n.freeAt i).setCount c := rfl
@[simp] theorem setCount_dupAt : (n.setCount c).dupAt i = n.dupAt i := rfl
@[simp] theorem setCount_childAt : (n.setCount c).childAt i = n.childAt i := rfl
@[simp] theorem setCount_setCount (d : ℕ) : (n.setCount c).setCount d = n.setCount d := rfl
@[simp] theorem setCount_keyCount : (n.setCount c).keyCount = c := rfl
@[simp] theorem setCount_leaf : (n.setCount c).leaf = n.leaf := rfl
@[simp] theorem setKey_keyCount : (n.setKey i k).keyCount = n.keyCount := rfl
@[simp] theorem setKey_leaf : (n.setKey i k).leaf = n.leaf := rfl
@[simp] theorem setChild_keyCount : (n.setChild i o).keyCount = n.keyCount := rfl

end Updates

theorem packNode_setCount (ks : List SizedKey) (cs : List Offset) {c : ℕ} (h : c = ks.length) :
    (packNode order leaf ks cs).setCount c = packNode order leaf ks cs := by subst h; rfl

theorem removeKey2_pack (order : ℕ) (leaf : Bool) {A B : List SizedKey} {A' B' : List Offset} (x : SizedKey) (x' : Offset)
    (hroom : A.length + B.length + 1 ≤ order - 1) (hA : A'.length = A.length)
    (hB : B'.length = B.length + 1) : removeKey2 (packNode order leaf (A ++ x :: B) (A' ++ x' :: B')) A.length =
      packNode order leaf (A ++ B) (A' ++ B') := by
  obtain ⟨B', z, rfl, hB'⟩ := exists_concat hB
  have hn : (packNode order leaf (A ++ x :: B) (A' ++ x' :: (B' ++ [z]))).keyCount - 1 - A.length = B.length := by
    simp
  obtain ⟨y, hy⟩ := shiftDown_erase KeySlot.null (B.map SizedKey.slot) (A.map SizedKey.slot)
    (List.replicate (order - 1 - (A.length + (x :: B).length)) .null) x.slot
  obtain ⟨y', hy'⟩ := shiftDown_erase 0 B' A'
    (z :: List.replicate (order - (A'.length + (x' :: (B' ++ [z])).length)) 0) x'
  have hkeys := packNode_keys_append order leaf A (x :: B) (A' ++ x' :: (B' ++ [z]))
  have hch := packNode_children_append order leaf (A ++ x :: B) A' (x' :: (B' ++ [z]))
  simp only [length_map, hB', hA] at hy hy'
  simp only [map_cons, cons_append, append_assoc, nil_append] at hkeys hch
  rw [hA] at hch
  simp only [removeKey2, hn, hkeys, hch, hy, hy']
  have hz : (A' ++ (B' ++ y' :: z :: List.replicate (order - (A.length + (x' :: (B' ++ [z])).length)) 0)).getD
      (A.length + B.length + 1) 0 = z := by
    have : ((A' ++ B' ++ [y']) ++ z :: List.replicate (order - (A.length + (x' :: (B' ++ [z])).length)) 0).getD
        (A.length + B.length + 1) 0 = z := getD_append_cons' (by simp [hA, hB']; omega)
    simpa using this
  rw [hz, ← append_assoc A', set_append_cons' (by simp [hA, hB']),
    show A' ++ B' ++ z :: z :: List.replicate (order - (A.length + (x' :: (B' ++ [z])).length)) 0 =
      (A' ++ (B' ++ [z])) ++ z :: List.replicate (order - (A.length + (x' :: (B' ++ [z])).length)) 0 by simp,
    set_append_cons' (by simp [hA, hB']; omega), ← append_assoc (A.map _),
    set_append_cons' (by simp), ← replicate_succ, ← replicate_succ, ← map_append]
  refine BTreeNode.ext rfl (by simp) ?_ ?_
  · exact append_replicate (by simp; omega)
  · exact append_replicate (by simp; omega)

variable {ks : List SizedKey} {cs : List Offset}

theorem removeKey_pack_absent {ks : List SizedKey} {cs : List Offset} {key : CStr} (hs : Ascending ks)
    (hkey : key ∉ ks.map SizedKey.str) : removeKey (packNode order leaf ks cs) key = some none := by
  have h1 := searchIndex_pack key order leaf ks cs
  have h2 := matchesAt_pack key hs order leaf cs
  simp only [removeKey, packNode_keyCount, h1, h2, bind_eq_bind, bind_some, hkey, decide_false, Bool.false_eq_true, if_false]
  rfl

theorem removeKey_pack_present {A B : List SizedKey} {A' B' : List Offset} {x : SizedKey} {x' : Offset}
    (hs : Ascending (A ++ x :: B)) (hroom : A.length + B.length + 1 ≤ order - 1)
    (hA : A'.length = A.length) (hB : B'.length = B.length + 1) : removeKey (packNode order true (A ++ x :: B) (A' ++ x' :: B')) x.str =
      some (some (x', packNode order true (A ++ B) (A' ++ B'))) := by
  have h1 := searchIndex_pack x.str order true (A ++ x :: B) (A' ++ x' :: B')
  have h2 := matchesAt_pack x.str hs order true (A' ++ x' :: B')
  have hpos : keyPos x.str (A ++ x :: B) = A.length := by
    have hlt : ∀ k ∈ A, k.str < x.str := fun k hk => (pairwise_append.1 hs).2.2 k hk x (by simp)
    unfold keyPos
    rw [takeWhile_append_of_pos (by simpa using hlt)]
    simp
  have hmem : x.str ∈ (A ++ x :: B).map SizedKey.str := by simp
  have hch : (packNode order true (A ++ x :: B) (A' ++ x' :: B')).childAt A.length = x' := by
    rw [childAt_pack _ _ _ _ (by simp; omega)]; simp [← hA]
  rw [hpos] at h1 h2
  simp only [removeKey, packNode_keyCount, h1, h2, bind_eq_bind, bind_some, hmem, decide_true,
    if_true, packNode_leaf, hch, removeKey2_pack _ _ _ _ hroom hA hB]
  rfl

variable {i : ℕ}

theorem dupAt_pack (order : ℕ) (leaf : Bool) (cs : List Offset) (hi : i < ks.length) :
    (packNode order leaf ks cs).dupAt i = some ks[i].slot := by
  rw [BTreeNode.dupAt, keyAt_pack _ _ _ _ hi]; rfl

theorem packNode_setKey_end (order : ℕ) (leaf : Bool) (ks : List SizedKey) (cs : List Offset) (k : SizedKey)
    (h : ks.length < order - 1) : (packNode order leaf ks cs).setKey ks.length k.slot =
      (packNode order leaf (ks ++ [k]) cs).setCount ks.length := by
  simp only [BTreeNode.setKey, BTreeNode.setCount, packNode, pad_room (l := ks.map SizedKey.slot) (n := order - 1) (by simpa using h)]
  simp [pad]

theorem packNode_setKey (order : ℕ) (leaf : Bool) (ks : List SizedKey) (cs : List Offset) (k : SizedKey) (h : i < ks.length) :
    (packNode order leaf ks cs).setKey i k.slot = packNode order leaf (ks.set i k) cs := by
  simp only [BTreeNode.setKey, packNode, pad, length_set]
  rw [set_append_left _ _ (by simpa using h), ← map_set]
  simp

theorem packNode_freeAt (order : ℕ) (leaf : Bool) (ks : List SizedKey) (cs : List Offset) (h : ks.length ≤ i) :
    (packNode order leaf ks cs).freeAt i = packNode order leaf ks cs := by
  have hget : (packNode order leaf ks cs).keyAt i = .null := by
    simp only [BTreeNode.keyAt, packNode, pad, getD_eq_getElem?_getD]
    rw [List.getElem?_append_right (by simpa using h)]
    cases hg : (List.replicate (order - 1 - (ks.map SizedKey.slot).length) KeySlot.null)[i - (ks.map SizedKey.slot).length]? with
    | none => rfl
    | some s =>
      have := mem_of_getElem? hg
      rw [mem_replicate] at this
      simp [this.2]
  have hset : (packNode order leaf ks cs).keys.set i .null = (packNode order leaf ks cs).keys := by
    simp only [packNode, pad]
    rw [set_append_right _ _ (by simpa using h)]
    congr 1
    rw [set_replicate_self]
  rw [BTreeNode.freeAt, hget]
  exact BTreeNode.ext rfl rfl hset rfl

variable {minLeaf minInt div : ℕ}

/-- `__borrowRight` between leaves, when the slot it frees is behind the keys in use: the
right leaf's first entry moves over and its key becomes the separator. -/
theorem borrowRight_leaf {minLeaf minInt : ℕ} {ks ks2 P : List SizedKey} {vs cs2 cs : List Offset}
    {k0 : SizedKey} {nxt v0 : Offset} {div : ℕ} (hks : ks.length + 1 < order) (hvs : vs.length = ks.length)
    (hcs2 : cs2.length = ks2.length + 1) (hroom : ks2.length + 1 ≤ order - 1) (hmin : minLeaf < ks2.length + 1)
    (hdiv : div < P.length) (hfree : ks.length < div) :
    borrowRight minLeaf minInt (packNode order true ks (vs ++ [nxt])) (packNode order false P cs)
        (packNode order true (k0 :: ks2) (v0 :: cs2)) div =
      some (some ⟨packNode order true (ks ++ [k0]) (vs ++ [v0, nxt]), packNode order false (P.set div k0) cs,
        packNode order true ks2 cs2⟩) := by
  have hrem := removeKey2_pack order true (A := []) k0 v0 (by simpa using hroom) (show [].length = 0 from rfl) hcs2
  simp only [nil_append, length_nil] at hrem
  have hdup : (packNode order true (k0 :: ks2) (v0 :: cs2)).dupAt 0 = some k0.slot := dupAt_pack _ _ _ (by simp)
  have hv0 : (packNode order true (k0 :: ks2) (v0 :: cs2)).childAt 0 = v0 := childAt_pack _ _ _ _ (by simp)
  have hnxt : (packNode order true ks (vs ++ [nxt])).childAt ks.length = nxt := by
    rw [childAt_pack _ _ _ _ (by simp [hvs])]; simp [← hvs]
  have e1 : (packNode order true ks (vs ++ [nxt])).setChild (ks.length + 1) nxt = packNode order true ks (vs ++ [nxt, nxt]) := by
    have := packNode_setChild_end order true ks (show (vs ++ [nxt]).length < order by simp; omega) nxt
    simpa [hvs] using this
  have e2 := packNode_setKey_end order true ks (vs ++ [nxt, nxt]) k0 (by omega)
  have e3 : (packNode order true (ks ++ [k0]) (vs ++ [nxt, nxt])).setChild ks.length v0 =
      packNode order true (ks ++ [k0]) (vs ++ [v0, nxt]) := by
    rw [packNode_setChild _ _ _ (by simp; omega), ← hvs, set_append_cons]
  have e4 := packNode_freeAt order true (ks ++ [k0]) (vs ++ [v0, nxt]) (i := div)
    (by simp; omega)
  have e5 : (packNode order true (ks ++ [k0]) (vs ++ [v0, nxt])).dupAt ks.length = some k0.slot := by
    rw [dupAt_pack _ _ _ (by simp)]; simp
  have e6 := packNode_setKey order false P cs k0 hdiv
  simp only [borrowRight, packNode_keyCount, packNode_leaf, length_cons, hnxt, hdup, hv0, e1, e2,
    setCount_setChild, e3, setCount_freeAt, e4, setCount_dupAt, e5, e6, hrem, setCount_setCount, bind_eq_bind, bind_some]
  rw [if_pos ⟨trivial, hmin⟩, packNode_setCount _ _ (by simp)]
  rfl

/-- `__borrowRight` between internal nodes, when the slot it frees is behind the keys in
use: the separator moves down and the right node's first key takes its place. -/
theorem borrowRight_internal {minLeaf minInt : ℕ} {ks ks2 P : List SizedKey} {cs0 cs2 cs : List Offset}
    {k0 : SizedKey} {c0 : Offset} {div : ℕ} (hks : ks.length + 1 < order) (hcs0 : cs0.length = ks.length + 1)
    (hcs2 : cs2.length = ks2.length + 1) (hroom : ks2.length + 1 ≤ order - 1) (hmin : minInt < ks2.length + 1)
    (hdiv : div < P.length) (hfree : ks.length < div) : borrowRight minLeaf minInt (packNode order false ks cs0) (packNode order false P cs)
        (packNode order false (k0 :: ks2) (c0 :: cs2)) div =
      some (some ⟨packNode order false (ks ++ [P[div]]) (cs0 ++ [c0]), packNode order false (P.set div k0) cs,
        packNode order false ks2 cs2⟩) := by
  have hrem := removeKey2_pack order false (A := []) k0 c0 (by simpa using hroom) (show [].length = 0 from rfl) hcs2
  simp only [nil_append, length_nil] at hrem
  have hdup : (packNode order false (k0 :: ks2) (c0 :: cs2)).dupAt 0 = some k0.slot := dupAt_pack _ _ _ (by simp)
  have hc0 : (packNode order false (k0 :: ks2) (c0 :: cs2)).childAt 0 = c0 := childAt_pack _ _ _ _ (by simp)
  have hsep := dupAt_pack order false cs hdiv
  have e2 := packNode_setKey_end order false ks cs0 P[div] (by omega)
  have e4 := packNode_freeAt order false (ks ++ [P[div]]) cs0 (i := div) (by simp; omega)
  have e6 := packNode_setKey order false P cs k0 hdiv
  have e7 := packNode_setChild_end order false (ks ++ [P[div]]) (show cs0.length < order by omega) c0
  rw [hcs0] at e7
  simp only [borrowRight, packNode_keyCount, packNode_leaf, length_cons, Bool.false_eq_true, false_and,
    if_false, hsep, hdup, hc0, e2, setCount_setChild, setCount_freeAt, e4, e6, e7, hrem, setCount_setCount, bind_eq_bind, bind_some]
  rw [if_pos ⟨not_false, hmin⟩, packNode_setCount _ _ (by simp)]
  rfl

variable {rootNode prevNode node : BTreeNode}

theorem borrowRight_none (h : node.keyCount ≤ if node.leaf then minLeaf else minInt) :
    borrowRight minLeaf minInt rootNode prevNode node div = some none := by
  unfold borrowRight
  cases hl : node.leaf <;> simp only [hl, if_true, if_false, Bool.false_eq_true] at h <;> simp [Nat.not_lt.2 h]

theorem borrowLeft_none (h : node.keyCount ≤ if node.leaf then minLeaf else minInt) :
    borrowLeft minLeaf minInt rootNode prevNode node div = some none := by
  unfold borrowLeft
  cases hl : node.leaf <;> simp only [hl, if_true, if_false, Bool.false_eq_true] at h <;> simp [Nat.not_lt.2 h]

/-- The loops that make room leave the first key slot and the first child free to be
reassigned. -/
theorem makeRoom_set (leaf : Bool) (hks : ks.length + 1 < order) (hcs : cs.length = ks.length + 1) (k : SizedKey) (c : Offset) :
    ((packNode order leaf ks cs).makeRoom.setKey 0 k.slot).setChild 0 c = (packNode order leaf (k :: ks) (c :: cs)).setCount ks.length := by
  obtain ⟨c0, ct, rfl⟩ := exists_cons_of_length_eq_add_one hcs
  obtain ⟨y, hy⟩ := pushUp_cons KeySlot.null (ks.map SizedKey.slot) []
    (List.replicate (order - 1 - (ks.length + 1)) .null) .null
  obtain ⟨y', hy'⟩ := pushUp_cons 0 ct [c0] (List.replicate (order - (ct.length + 2)) 0) 0
  have hct : ct.length = ks.length := by simpa using hcs
  have hkeys : (packNode order leaf ks (c0 :: ct)).keys =
      [] ++ (ks.map SizedKey.slot ++ KeySlot.null :: List.replicate (order - 1 - (ks.length + 1)) .null) := by
    simp only [packNode]
    rw [pad_room (by simp; omega), nil_append, length_map]
  have hch : (packNode order leaf ks (c0 :: ct)).children = [c0] ++ (ct ++ 0 :: List.replicate (order - (ct.length + 2)) 0) := by
    simp only [packNode]
    rw [pad_room (by simp; omega)]; simp
  rw [length_map, length_nil] at hy
  rw [length_singleton, hct] at hy'
  rw [BTreeNode.makeRoom, hkeys, hch, packNode_keyCount, hy, hct, hy']
  refine BTreeNode.ext rfl rfl ?_ ?_
  · simp [BTreeNode.setKey, BTreeNode.setChild, BTreeNode.setCount, packNode, pad]
  · simp [BTreeNode.setKey, BTreeNode.setChild, BTreeNode.setCount, packNode, pad, hct]

theorem packNode_dropKey (order : ℕ) (leaf : Bool) (ks : List SizedKey) (cs : List Offset) (k : SizedKey)
    (h : ks.length + 1 ≤ order - 1) : (packNode order leaf (ks ++ [k]) cs).setKey ks.length .null =
      (packNode order leaf ks cs).setCount (ks.length + 1) := by
  refine BTreeNode.ext rfl (by simp [BTreeNode.setKey, BTreeNode.setCount, packNode]) ?_ rfl
  simp only [BTreeNode.setKey, BTreeNode.setCount, packNode, map_append, map_cons, map_nil]
  rw [pad, append_assoc, singleton_append, set_append_cons' (by simp), ← replicate_succ]
  exact append_replicate (by simp; omega)

theorem packNode_dropChild (order : ℕ) (leaf : Bool) (ks : List SizedKey) (cs : List Offset) (c : Offset) (h : cs.length + 1 ≤ order) :
    (packNode order leaf ks (cs ++ [c])).setChild cs.length 0 = packNode order leaf ks cs := by
  refine BTreeNode.ext rfl rfl rfl ?_
  simp only [BTreeNode.setChild, packNode]
  rw [pad, append_assoc, singleton_append, set_append_cons, ← replicate_succ]
  exact append_replicate (by simp; omega)

/-- `__borrowLeft` between leaves: the left leaf's last entry moves over; the key before
it becomes the separator. -/
theorem borrowLeft_leaf {minLeaf minInt : ℕ} {ks ks2 P : List SizedKey} {cs1 vs2 cs : List Offset}
    {ka kb : SizedKey} {nxt vb : Offset} {div : ℕ} (hks : ks.length + 1 < order)
    (hcs1 : cs1.length = ks.length + 1) (hvs2 : vs2.length = ks2.length + 1)
    (hroom : ks2.length + 2 ≤ order - 1) (hmin : minLeaf < ks2.length + 2) (hdiv : div - 1 < P.length) :
    borrowLeft minLeaf minInt (packNode order true ks cs1) (packNode order false P cs)
        (packNode order true (ks2 ++ [ka, kb]) (vs2 ++ [vb, nxt])) div =
      some (some ⟨packNode order true (kb :: ks) (vb :: cs1), packNode order false (P.set (div - 1) ka) cs,
        packNode order true (ks2 ++ [ka]) (vs2 ++ [nxt])⟩) := by
  have hm : (packNode order true (ks2 ++ [ka, kb]) (vs2 ++ [vb, nxt])).keyCount = ks2.length + 2 := by simp
  have hkb : (packNode order true (ks2 ++ [ka, kb]) (vs2 ++ [vb, nxt])).dupAt (ks2.length + 1) = some kb.slot := by
    rw [dupAt_pack _ _ _ (by simp)]; simp
  have hka : (packNode order true (ks2 ++ [ka, kb]) (vs2 ++ [vb, nxt])).dupAt ks2.length = some ka.slot := by
    rw [dupAt_pack _ _ _ (by simp)]; simp
  have hvb : (packNode order true (ks2 ++ [ka, kb]) (vs2 ++ [vb, nxt])).childAt (ks2.length + 1) = vb := by
    rw [childAt_pack _ _ _ _ (by simp [hvs2])]; simp [← hvs2]
  have hnxt : (packNode order true (ks2 ++ [ka, kb]) (vs2 ++ [vb, nxt])).childAt (ks2.length + 2) = nxt := by
    rw [childAt_pack _ _ _ _ (by simp [hvs2])]; simp [show ks2.length + 2 = vs2.length + 1 by omega]
  have hroom1 := makeRoom_set true hks hcs1 kb vb
  have e6 := packNode_setKey order false P cs ka hdiv
  have e1 : (packNode order true (ks2 ++ [ka, kb]) (vs2 ++ [vb, nxt])).setChild (ks2.length + 1) nxt =
      packNode order true (ks2 ++ [ka, kb]) ((vs2 ++ [nxt]) ++ [nxt]) := by
    rw [packNode_setChild _ _ _ (by simp [hvs2]), ← hvs2, set_append_cons]; simp
  have e2 : (packNode order true (ks2 ++ [ka, kb]) ((vs2 ++ [nxt]) ++ [nxt])).setChild (ks2.length + 2) 0 =
      packNode order true (ks2 ++ [ka, kb]) (vs2 ++ [nxt]) := by
    have := packNode_dropChild order true (ks2 ++ [ka, kb]) (vs2 ++ [nxt]) nxt
      (by simp; omega)
    simpa [hvs2] using this
  have e3 : (packNode order true (ks2 ++ [ka, kb]) (vs2 ++ [nxt])).setKey (ks2.length + 1) .null =
      (packNode order true (ks2 ++ [ka]) (vs2 ++ [nxt])).setCount (ks2.length + 2) := by
    have := packNode_dropKey order true (ks2 ++ [ka]) (vs2 ++ [nxt]) kb
      (by simp; omega)
    simpa using this
  have hrk : (packNode order true ks cs1).makeRoom.keyCount = ks.length := rfl
  simp only [borrowLeft, hm, packNode_leaf, Nat.add_sub_cancel, show ks2.length + 2 - 1 = ks2.length + 1 by omega,
    hkb, hka, hvb, hnxt, hroom1, e6, e1, e2, e3, setCount_setCount, bind_eq_bind, bind_some, setKey_keyCount, setChild_keyCount, hrk]
  rw [if_pos ⟨trivial, hmin⟩, packNode_setCount _ _ (by simp), packNode_setCount _ _ (by simp)]
  rfl

/-- `__borrowLeft` between internal nodes: the separator moves down and the left node's
last key takes its place. -/
theorem borrowLeft_internal {minLeaf minInt : ℕ} {ks ks2 P : List SizedKey} {cs1 cs2 cs : List Offset}
    {kb : SizedKey} {cb : Offset} {div : ℕ} (hks : ks.length + 1 < order)
    (hcs1 : cs1.length = ks.length + 1) (hcs2 : cs2.length = ks2.length + 1)
    (hroom : ks2.length + 1 ≤ order - 1) (hmin : minInt < ks2.length + 1) (hdiv : div - 1 < P.length) :
    borrowLeft minLeaf minInt (packNode order false ks cs1) (packNode order false P cs)
        (packNode order false (ks2 ++ [kb]) (cs2 ++ [cb])) div = some (some ⟨packNode order false (P[div - 1] :: ks) (cb :: cs1),
        packNode order false (P.set (div - 1) kb) cs, packNode order false ks2 cs2⟩) := by
  have hm : (packNode order false (ks2 ++ [kb]) (cs2 ++ [cb])).keyCount = ks2.length + 1 := by simp
  have hkb : (packNode order false (ks2 ++ [kb]) (cs2 ++ [cb])).dupAt ks2.length = some kb.slot := by
    rw [dupAt_pack _ _ _ (by simp)]; simp
  have hcb : (packNode order false (ks2 ++ [kb]) (cs2 ++ [cb])).childAt (ks2.length + 1) = cb := by
    rw [childAt_pack _ _ _ _ (by simp [hcs2])]; simp [← hcs2]
  have hsep := dupAt_pack order false cs hdiv
  have hroom1 := makeRoom_set false hks hcs1 P[div - 1] cb
  have e6 := packNode_setKey order false P cs kb hdiv
  have e2 : (packNode order false (ks2 ++ [kb]) (cs2 ++ [cb])).setChild (ks2.length + 1) 0 = packNode order false (ks2 ++ [kb]) cs2 := by
    rw [← hcs2]; exact packNode_dropChild _ _ _ _ cb (by omega)
  have e3 := packNode_dropKey order false (ks2) (cs2) kb hroom
  have hrk : (packNode order false ks cs1).makeRoom.keyCount = ks.length := rfl
  simp only [borrowLeft, hm, packNode_leaf, Nat.add_sub_cancel, Bool.false_eq_true, false_and, if_false,
    hsep, hkb, hcb, hroom1, e6, e2, e3, setCount_setCount, bind_eq_bind, bind_some, setKey_keyCount, setChild_keyCount, hrk]
  rw [if_pos ⟨not_false, hmin⟩, packNode_setCount _ _ (by simp), packNode_setCount _ _ (by simp)]
  rfl

theorem mergeLoopLeft_append (order : ℕ) (leaf : Bool) (B2 : List SizedKey) : ∀ (B2' : List Offset) (A B1 : List SizedKey)
    (A' B1' : List Offset) (c : Offset) (Z : List Offset),
    A.length + B2.length ≤ order - 1 → A'.length = A.length → B1'.length = B1.length → B2'.length = B2.length →
    Z.length = order - A.length → mergeLoopLeft B2.length A.length B1.length
        ⟨leaf, A.length, pad (order - 1) .null (A.map SizedKey.slot), A' ++ Z⟩
        (packNode order leaf (B1 ++ B2) (B1' ++ (B2' ++ [c]))) =
      some ⟨leaf, A.length + B2.length, pad (order - 1) .null ((A ++ B2).map SizedKey.slot), A' ++ B2' ++ Z.drop B2.length⟩ := by
  induction B2 with
  | nil =>
    intro B2' A B1 A' B1' c Z _ _ _ h _
    rw [length_nil, length_eq_zero_iff] at h
    subst h; simp [mergeLoopLeft]
  | cons k B2 ih =>
    intro B2' A B1 A' B1' c Z hroom hA' hB1' hB2' hZ
    obtain ⟨v, B2', rfl⟩ := exists_cons_of_length_eq_add_one hB2'
    obtain ⟨z, Z, rfl⟩ := exists_cons_of_length_eq_add_one (n := order - A.length - 1) (l := Z)
      (by simp at hroom; omega)
    have hk : (packNode order leaf (B1 ++ k :: B2) (B1' ++ (v :: B2' ++ [c]))).dupAt B1.length = some k.slot := by
      rw [dupAt_pack _ _ _ (by simp)]; simp
    have hv : (packNode order leaf (B1 ++ k :: B2) (B1' ++ (v :: B2' ++ [c]))).childAt B1.length = v := by
      rw [childAt_pack _ _ _ _ (by simp [hB1'])]; simp [← hB1']
    have hkeys : (pad (order - 1) KeySlot.null (A.map SizedKey.slot)).set A.length k.slot =
        pad (order - 1) .null ((A ++ [k]).map SizedKey.slot) := by
      rw [pad_room (by simp at hroom ⊢; omega), set_append_cons' (by simp)]; simp [pad]
    have hnext := ih B2' (A ++ [k]) (B1 ++ [k]) (A' ++ [v]) (B1' ++ [v]) c Z (by simp at hroom ⊢; omega)
      (by simp [hA']) (by simp [hB1']) (by simpa using hB2') (by simp at hZ ⊢; omega)
    simp only [length_append, length_singleton, append_assoc, singleton_append] at hnext
    rw [length_cons, mergeLoopLeft, hk, hv]
    simp only [bind_eq_bind, bind_some, BTreeNode.setKey, BTreeNode.setChild, BTreeNode.setCount,
      hkeys, set_append_cons' hA'.symm, cons_append]
    rw [hnext]
    simp [Nat.add_assoc, Nat.add_comm 1]

theorem mergeLoopLeft_last (order : ℕ) (leaf : Bool) {c z : Offset} {Z : List Offset}
    (hcs : cs.length = ks.length) (hZ : Z = List.replicate (order - (cs.length + 1)) 0) :
    (⟨leaf, ks.length, pad (order - 1) .null (ks.map SizedKey.slot), cs ++ z :: Z⟩ : BTreeNode).setChild
        ks.length c = packNode order leaf ks (cs ++ [c]) := by
  subst hZ
  refine BTreeNode.ext rfl rfl rfl ?_
  simp only [BTreeNode.setChild, packNode]
  rw [set_append_cons' hcs.symm]; simp [pad]

theorem mergeLeft_leaf {k1 k2 P : List SizedKey} {v1 v2 cs : List Offset} {nxt nxt2 : Offset} {div : ℕ}
    (hv1 : v1.length = k1.length) (hv2 : v2.length = k2.length) (hroom : k1.length + k2.length ≤ order - 1)
    (ho : 1 ≤ order) : mergeLeft (packNode order true k2 (v2 ++ [nxt2])) (packNode order false P cs)
        (packNode order true k1 (v1 ++ [nxt])) div = some (packNode order true (k1 ++ k2) (v1 ++ (v2 ++ [nxt2]))) := by
  have hnode : packNode order true k1 (v1 ++ [nxt]) = ⟨true, k1.length, pad (order - 1) .null (k1.map SizedKey.slot),
      v1 ++ (nxt :: List.replicate (order - (k1.length + 1)) 0)⟩ := by
    refine BTreeNode.ext rfl rfl rfl ?_; simp [packNode, pad, hv1]
  have hloop := mergeLoopLeft_append order true k2 v2 k1 [] v1 [] nxt2
    (nxt :: List.replicate (order - (k1.length + 1)) 0) hroom hv1 rfl hv2 (by simp; omega)
  have hlast : (packNode order true k2 (v2 ++ [nxt2])).childAt k2.length = nxt2 := by
    rw [childAt_pack _ _ _ _ (by simp [hv2])]; simp [← hv2]
  have hdrop : ∃ z, (nxt :: List.replicate (order - (k1.length + 1)) 0).drop k2.length =
      z :: List.replicate (order - ((v1 ++ v2).length + 1)) 0 := by
    rcases Nat.eq_zero_or_pos k2.length with h | h
    · exact ⟨nxt, by simp [h, hv1, hv2]⟩
    · refine ⟨0, ?_⟩
      obtain ⟨m, hm⟩ : ∃ m, k2.length = m + 1 := ⟨k2.length - 1, by omega⟩
      rw [hm, drop_succ_cons, drop_replicate, ← replicate_succ]
      congr 1; simp only [length_append, hv1, hv2]; omega
  obtain ⟨z, hz⟩ := hdrop
  rw [hz] at hloop
  simp only [length_nil, nil_append] at hloop
  simp only [mergeLeft, packNode_leaf, packNode_keyCount, not_true_eq_false, if_false, hlast, hnode, hloop, bind_eq_bind, bind_some]
  have := mergeLoopLeft_last order true (c := nxt2) (z := z)
    (show (v1 ++ v2).length = (k1 ++ k2).length by simp [hv1, hv2]) rfl
  rw [length_append] at this
  rw [this, append_assoc]
  rfl

theorem mergeLeft_internal {k1 k2 P : List SizedKey} {c1 c2 cs : List Offset} {div : ℕ}
    (hc1 : c1.length = k1.length + 1) (hc2 : c2.length = k2.length + 1)
    (hroom : k1.length + 1 + k2.length ≤ order - 1) (hdiv : div - 1 < P.length) :
    mergeLeft (packNode order false k2 c2) (packNode order false P cs) (packNode order false k1 c1) div =
      some (packNode order false (k1 ++ P[div - 1] :: k2) (c1 ++ c2)) := by
  obtain ⟨v2, c, rfl, hv2⟩ := exists_concat hc2
  have hsep := dupAt_pack order false cs hdiv
  have e2 := packNode_setKey_end order false k1 c1 P[div - 1] (by omega)
  have hnode : (packNode order false (k1 ++ [P[div - 1]]) c1).setCount (k1.length + 1) =
      ⟨false, (k1 ++ [P[div - 1]]).length, pad (order - 1) .null ((k1 ++ [P[div - 1]]).map SizedKey.slot),
        c1 ++ List.replicate (order - (k1.length + 1)) 0⟩ := by
    refine BTreeNode.ext rfl (by simp [BTreeNode.setCount]) rfl ?_; simp [BTreeNode.setCount, packNode, pad, hc1]
  have hloop := mergeLoopLeft_append order false k2 v2 (k1 ++ [P[div - 1]]) [] c1 [] c
    (List.replicate (order - (k1.length + 1)) 0) (by simp; omega) (by simp [hc1]) rfl hv2 (by simp)
  have hlast : (packNode order false k2 (v2 ++ [c])).childAt k2.length = c := by
    rw [childAt_pack _ _ _ _ (by simp [hv2])]; simp [← hv2]
  have hdrop : (List.replicate (order - (k1.length + 1)) 0).drop k2.length = 0 :: List.replicate (order - ((c1 ++ v2).length + 1)) 0 := by
    rw [drop_replicate, ← replicate_succ]
    congr 1; simp only [length_append, hc1, hv2]; omega
  rw [hdrop, ← hnode] at hloop
  simp only [length_nil, nil_append, length_append, length_singleton] at hloop
  simp only [mergeLeft, packNode_leaf, packNode_keyCount, Bool.false_eq_true, not_false_eq_true, if_true, hsep,
    hlast, e2, setCount_setCount, hloop, bind_eq_bind, bind_some]
  have := mergeLoopLeft_last order false (c := c) (z := 0)
    (show (c1 ++ v2).length = (k1 ++ [P[div - 1]] ++ k2).length by simp [hc1, hv2]; omega) rfl
  rw [show (k1 ++ [P[div - 1]] ++ k2).length = k1.length + 1 + k2.length by simp; omega] at this
  simp only [append_assoc, singleton_append, length_append] at this ⊢
  rw [this]
  rfl

end KVStores.Gdb
