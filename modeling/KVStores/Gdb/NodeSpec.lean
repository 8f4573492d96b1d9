import KVStores.Gdb.Node
import Mathlib.Data.List.Induction
import Mathlib.Tactic.Ring

/-!
# What the node operations do

A node in use is *packed*: its keys and children are two lists, the rest of its
arrays is empty (`packNode`). On packed nodes every operation of `Node` is a list
operation: a search is a position in the key list (`keyPos`), an insertion and a
removal put one element in or take one out, a split cuts the lists and a merge
appends them. The array loops are treated once each (`shiftUp_insert`,
`shiftDown_erase`, `pushUp_cons`, `mergeLoopLeft_append`).
-/

namespace KVStores.Gdb

open List Option Function

/-- A key in use with the size stored beside it. -/
structure SizedKey where
  str : CStr
  size : ℕ
deriving DecidableEq

def SizedKey.slot (k : SizedKey) : KeySlot := ⟨some k.str, k.size⟩

/-- A key whose size went through a `char` temporary. -/
def SizedKey.viaTemp (k : SizedKey) : SizedKey := { k with size := charSize k.size }

def SizedKey.dup (key : CStr) : SizedKey := ⟨key, (key.strlen + 1) % 65536⟩

@[simp] theorem SizedKey.slot_key (k : SizedKey) : k.slot.key = some k.str := rfl
@[simp] theorem SizedKey.slot_viaTemp (k : SizedKey) : k.slot.viaTemp = k.viaTemp.slot := rfl
@[simp] theorem SizedKey.viaTemp_str (k : SizedKey) : k.viaTemp.str = k.str := rfl
@[simp] theorem SizedKey.dup_str (key : CStr) : (SizedKey.dup key).str = key := rfl
@[simp] theorem dupKey_eq (key : CStr) : dupKey key = (SizedKey.dup key).slot := rfl

/-- A list in an array of `n` entries. -/
def pad {α : Type} (n : ℕ) (null : α) (l : List α) : List α :=
  l ++ List.replicate (n - l.length) null

def packNode (order : ℕ) (leaf : Bool) (ks : List SizedKey) (cs : List Offset) : BTreeNode where
  leaf := leaf
  keyCount := ks.length
  keys := pad (order - 1) .null (ks.map SizedKey.slot)
  children := pad order 0 cs

@[simp] theorem packNode_keyCount (order : ℕ) (leaf : Bool) (ks : List SizedKey) (cs : List Offset) :
    (packNode order leaf ks cs).keyCount = ks.length := rfl

@[simp] theorem packNode_leaf (order : ℕ) (leaf : Bool) (ks : List SizedKey) (cs : List Offset) :
    (packNode order leaf ks cs).leaf = leaf := rfl

section Pad

variable {α : Type} {null : α} {n : ℕ} {l : List α}

theorem pad_room (h : l.length < n) : pad n null l = l ++ null :: List.replicate (n - (l.length + 1)) null := by
  unfold pad
  rw [show n - l.length = (n - (l.length + 1)) + 1 by omega, replicate_succ]

theorem pad_full (h : n ≤ l.length) : pad n null l = l := by
  unfold pad
  rw [show n - l.length = 0 by omega]; simp

variable {post : List α} {x d : α}

theorem getD_append_cons : (pre ++ x :: post).getD pre.length d = x := by
  simp

theorem getD_append_cons' {i : ℕ} (h : i = pre.length) : (pre ++ x :: post).getD i d = x := by subst h; exact getD_append_cons

variable {y : α}

theorem set_append_cons : (pre ++ x :: post).set pre.length y = pre ++ y :: post := by simp

theorem set_append_cons' {i : ℕ} (h : i = pre.length) : (pre ++ x :: post).set i y = pre ++ y :: post := by subst h; exact set_append_cons

end Pad

section Loops

variable {α : Type} (null : α)

theorem shiftUp_insert (load : α → α) (L : List α) : ∀ (pre post : List α) (t x : α),
    shiftUp load null (L.length + 1) pre.length t (pre ++ (L ++ x :: post)) = (pre ++ (t :: (L.map load ++ post)), load x) := by
  induction L with
  | nil => intro pre post t x; simp [shiftUp]
  | cons y ys ih =>
    intro pre post t x
    rw [length_cons, shiftUp, cons_append, getD_append_cons, set_append_cons]
    have := ih (pre ++ [t]) post (load y) x
    simp only [length_append, length_cons, length_nil, Nat.zero_add, append_assoc, cons_append, nil_append] at this
    rw [this]; simp

theorem shiftDown_erase (L : List α) : ∀ (pre post : List α) (x : α),
    ∃ y, shiftDown null L.length pre.length (pre ++ x :: (L ++ post)) = pre ++ (L ++ y :: post) := by
  induction L with
  | nil => intro pre post x; exact ⟨x, rfl⟩
  | cons z zs ih =>
    intro pre post x
    rw [length_cons, shiftDown]
    have hz : (pre ++ x :: (z :: zs ++ post)).getD (pre.length + 1) null = z := by
      simp
    obtain ⟨y, hy⟩ := ih (pre ++ [z]) post z
    refine ⟨y, ?_⟩
    simpa using hy

theorem pushUp_cons : ∀ (L pre post : List α) (x : α),
    ∃ y, pushUp null pre.length L.length (pre ++ (L ++ x :: post)) = pre ++ y :: (L ++ post) := by
  intro L
  induction L using List.reverseRecOn with
  | nil => intro pre post x; exact ⟨x, rfl⟩
  | append_singleton ys z ih =>
    intro pre post x
    rw [length_append, length_singleton, pushUp]
    have hz : (pre ++ (ys ++ [z] ++ x :: post)).getD (pre.length + ys.length) null = z := by simp
    have hs : (pre ++ (ys ++ [z] ++ x :: post)).set (pre.length + (ys.length + 1)) z = pre ++ (ys ++ z :: (z :: post)) := by simp
    rw [hz, hs]
    obtain ⟨y, hy⟩ := ih pre (z :: post) z
    exact ⟨y, by rw [hy]; simp⟩

theorem scanKeys_append (skip : CStr → Bool) (ks : List SizedKey) : ∀ (pre post : List KeySlot),
    scanKeys skip (pre ++ (ks.map SizedKey.slot ++ post)) ks.length pre.length =
      some (pre.length + (ks.takeWhile fun k => skip k.str).length) := by
  induction ks with
  | nil => intro pre post; rfl
  | cons k ks ih =>
    intro pre post
    rw [length_cons, scanKeys, map_cons, cons_append, getD_append_cons]
    simp only [SizedKey.slot_key]
    cases hk : skip k.str with
    | false => simp [hk]
    | true =>
      have := ih (pre ++ [k.slot]) post
      simp only [length_append, length_singleton, append_assoc, cons_append, nil_append] at this
      simp only [if_true, this, takeWhile_cons, hk, length_cons]
      congr 1; ring

end Loops

/-- The position of the first key not below `key`. -/
def keyPos (key : CStr) (ks : List SizedKey) : ℕ := (ks.takeWhile fun k => k.str < key).length

theorem insertIndex_pack (key : CStr) (order : ℕ) (leaf : Bool) (ks : List SizedKey) (cs : List Offset) :
    insertIndex key (packNode order leaf ks cs).keys ks.length = some (keyPos key ks) := by
  have := scanKeys_append (fun k => 0 < strcmp key k) ks []
    (List.replicate (order - 1 - (ks.map SizedKey.slot).length) .null)
  simpa [insertIndex, packNode, pad, keyPos, strcmp_pos] using this

theorem searchIndex_pack (key : CStr) (order : ℕ) (leaf : Bool) (ks : List SizedKey) (cs : List Offset) :
    searchIndex key (packNode order leaf ks cs).keys ks.length = some (keyPos key ks) := by
  have := scanKeys_append (fun k => strcmp k key < 0) ks []
    (List.replicate (order - 1 - (ks.map SizedKey.slot).length) .null)
  simpa [searchIndex, packNode, pad, keyPos, strcmp_neg] using this

theorem keyPos_le (key : CStr) (ks : List SizedKey) : keyPos key ks ≤ ks.length := by
  unfold keyPos; exact (takeWhile_sublist _).length_le

variable {i : ℕ}

theorem keyAt_pack (order : ℕ) (leaf : Bool) (ks : List SizedKey) (cs : List Offset)
    (hi : i < ks.length) : (packNode order leaf ks cs).keyAt i = ks[i].slot := by
  simp only [BTreeNode.keyAt, packNode, pad, getD_eq_getElem?_getD]
  rw [List.getElem?_append_left (by simpa using hi)]
  simp [hi]

theorem childAt_pack (order : ℕ) (leaf : Bool) (ks : List SizedKey) (cs : List Offset)
    (hi : i < cs.length) : (packNode order leaf ks cs).childAt i = cs[i] := by
  simp only [BTreeNode.childAt, packNode, pad, getD_eq_getElem?_getD]
  rw [List.getElem?_append_left hi]
  simp [hi]

def Ascending (ks : List SizedKey) : Prop := ks.Pairwise fun a b => a.str < b.str

variable {key : CStr} {ks : List SizedKey} {k : SizedKey}

theorem lt_of_mem_take_keyPos (h : k ∈ ks.take (keyPos key ks)) : k.str < key := by
  have : ks.take (keyPos key ks) = ks.takeWhile fun k => k.str < key :=
    (prefix_iff_eq_take.1 <| takeWhile_prefix _).symm
  rw [this] at h
  simpa using mem_takeWhile_imp h

theorem le_of_mem_drop_keyPos (hs : Ascending ks) (h : k ∈ ks.drop (keyPos key ks)) : key ≤ k.str := by
  have hd : ks.drop (keyPos key ks) = ks.dropWhile fun k => k.str < key := by
    have := takeWhile_append_dropWhile (p := fun k : SizedKey => decide (k.str < key)) (l := ks)
    calc ks.drop (keyPos key ks) = (ks.takeWhile _ ++ ks.dropWhile _).drop (keyPos key ks) := by rw [this]
      _ = _ := drop_left' rfl
  have hsd : Ascending (ks.dropWhile fun k => k.str < key) := hs.sublist (dropWhile_sublist _)
  rw [hd] at h
  cases hdw : ks.dropWhile fun k => k.str < key with
  | nil => rw [hdw] at h; simp at h
  | cons x xs =>
    rw [hdw] at h hsd
    have hx : ¬ x.str < key := by
      have := head_dropWhile_not (fun k : SizedKey => decide (k.str < key)) (l := ks)
        (by rw [hdw]; simp)
      simpa [hdw] using this
    rcases mem_cons.1 h with rfl | h
    · exact not_lt.1 hx
    · exact le_trans (not_lt.1 hx) (rel_of_pairwise_cons hsd h).le

theorem mem_iff_at_keyPos (hs : Ascending ks) :
    key ∈ ks.map SizedKey.str ↔ ∃ h : keyPos key ks < ks.length, ks[keyPos key ks].str = key := by
  constructor
  · intro h
    obtain ⟨k, hk, rfl⟩ := List.mem_map.1 h
    rw [← take_append_drop (keyPos k.str ks) ks, mem_append] at hk
    rcases hk with hk | hk
    · exact absurd (lt_of_mem_take_keyPos hk) (lt_irrefl _)
    · have hlt : keyPos k.str ks < ks.length := by
        by_contra hge
        rw [drop_eq_nil_of_le (by omega)] at hk; simp at hk
      have hcons := drop_eq_getElem_cons hlt
      refine ⟨hlt, le_antisymm ?_ ?_⟩
      · have hsd : Ascending (ks.drop (keyPos k.str ks)) := hs.sublist (drop_sublist _ _)
        rw [hcons] at hk hsd
        rcases mem_cons.1 hk with e | hk
        · exact (congrArg SizedKey.str e).ge
        · exact (rel_of_pairwise_cons hsd hk).le
      · exact le_of_mem_drop_keyPos hs (hcons ▸ mem_cons_self)
  · rintro ⟨h, hk⟩
    exact List.mem_map.2 ⟨_, getElem_mem h, hk⟩

theorem matchesAt_pack (key : CStr) (hs : Ascending ks) (order : ℕ) (leaf : Bool) (cs : List Offset) :
    matchesAt key (packNode order leaf ks cs).keys ks.length (keyPos key ks) = some (decide (key ∈ ks.map SizedKey.str)) := by
  unfold matchesAt
  split
  · rename_i h
    have hk := keyAt_pack order leaf ks cs h
    rw [BTreeNode.keyAt] at hk
    rw [hk]
    have hm : key ∈ ks.map SizedKey.str ↔ _ := mem_iff_at_keyPos hs
    simp only [h, exists_true_left] at hm
    simp only [SizedKey.slot_key, map_some, strcmp_zero, hm]
    congr 1; exact decide_eq_decide.2 eq_comm
  · rename_i h
    have : ¬ key ∈ ks.map SizedKey.str := fun hm => h ((mem_iff_at_keyPos hs).1 hm).1
    simp [this]

/-- `keys` with `key` put in at its place; the keys behind it went through a temporary. -/
def insertKeys (key : CStr) (ks : List SizedKey) : List SizedKey :=
  ks.take (keyPos key ks) ++ SizedKey.dup key :: (ks.drop (keyPos key ks)).map SizedKey.viaTemp

@[simp] theorem insertKeys_length (key : CStr) (ks : List SizedKey) : (insertKeys key ks).length = ks.length + 1 := by
  have := keyPos_le key ks
  unfold insertKeys; simp; omega

theorem insertKeys_slots (key : CStr) (ks : List SizedKey) :
    (insertKeys key ks).map SizedKey.slot = (ks.map SizedKey.slot).take (keyPos key ks) ++
      (SizedKey.dup key).slot :: ((ks.map SizedKey.slot).drop (keyPos key ks)).map KeySlot.viaTemp := by
  simp [insertKeys, ← map_take, ← map_drop, comp_def]

def childPos (leaf : Bool) (key : CStr) (ks : List SizedKey) : ℕ :=
  if leaf then keyPos key ks else keyPos key ks + 1

theorem childPos_le (leaf : Bool) (key : CStr) (ks : List SizedKey) : childPos leaf key ks ≤ ks.length + 1 := by
  have := keyPos_le key ks
  unfold childPos; split <;> omega

variable {n : ℕ} {α : Type}

/-- The shifting loop entered with a fresh entry puts it in at position `i`. -/
theorem shiftUp_pad (null : α) (load : α → α) {l : List α} (t : α) (hn : l.length < n) (hi : i ≤ l.length) :
    (shiftUp load null (l.length + 1 - i) i t (pad n null l)).1 = pad n null (l.take i ++ t :: (l.drop i).map load) := by
  have h := shiftUp_insert null load (l.drop i) (l.take i)
    (List.replicate (n - (l.length + 1)) null) t null
  have hl : (l.take i).length = i := by simp [hi]
  rw [hl, length_drop, ← append_assoc, take_append_drop] at h
  rw [pad_room hn, show l.length + 1 - i = l.length - i + 1 by omega, h, pad]
  simp only [append_assoc, cons_append, length_append, length_cons, length_map, hl, length_drop]
  rw [show n - (i + (l.length - i + 1)) = n - (l.length + 1) by omega]

variable {order : ℕ} {leaf : Bool} {cs : List Offset}

theorem addKey_pack_new (hs : Ascending ks) (hroom : ks.length < order - 1) (hcs : cs.length = ks.length + 1)
    (hkey : key ∉ ks.map SizedKey.str) (filePos : Offset) (replaceDup : Bool) : addKey (packNode order leaf ks cs) key filePos replaceDup =
      some (true, some (packNode order leaf (insertKeys key ks)
        (cs.take (childPos leaf key ks) ++ filePos :: cs.drop (childPos leaf key ks)))) := by
  have hp := keyPos_le key ks
  have hj := childPos_le leaf key ks
  have h1 := insertIndex_pack key order leaf ks cs
  have h2 := matchesAt_pack key hs order leaf cs
  have hk : (packNode order leaf ks cs).keyCount = ks.length := rfl
  have hkeys := shiftUp_pad KeySlot.null KeySlot.viaTemp (n := order - 1)
    (i := keyPos key ks) (l := ks.map SizedKey.slot) (SizedKey.dup key).slot (by simpa using hroom)
    (by simpa using hp)
  have hch := shiftUp_pad 0 id (n := order) (i := childPos leaf key ks) (l := cs)
    filePos (by omega) (by omega)
  rw [length_map, show ks.length + 1 - keyPos key ks = ks.length + 1 - (keyPos key ks + 1) + 1 by omega, shiftUp] at hkeys
  rw [hcs, show ks.length + 1 + 1 - childPos leaf key ks = ks.length + 1 - childPos leaf key ks + 1 by omega, shiftUp] at hch
  have hlt : keyPos key ks < ks.length + 1 := by omega
  simp only [addKey, hk, h1, h2, bind_eq_bind, bind_some, hkey, decide_false, hlt, if_true, Bool.false_eq_true, if_false]
  refine congrArg some (Prod.ext rfl (congrArg some ?_))
  rw [List.map_id] at hch
  rw [← insertKeys_slots] at hkeys
  exact BTreeNode.ext rfl (insertKeys_length key ks).symm hkeys hch

theorem addKey_pack_dup (hs : Ascending ks) (hkey : key ∈ ks.map SizedKey.str) (hcs : ks.length ≤ cs.length)
    (filePos : Offset) (replaceDup : Bool) : addKey (packNode order leaf ks cs) key filePos replaceDup =
      some (false, if replaceDup && leaf then some (packNode order leaf ks (cs.set (keyPos key ks) filePos)) else none) := by
  have h1 := insertIndex_pack key order leaf ks cs
  have h2 := matchesAt_pack key hs order leaf cs
  have hk : (packNode order leaf ks cs).keyCount = ks.length := rfl
  have hl : (packNode order leaf ks cs).leaf = leaf := rfl
  have hp := ((mem_iff_at_keyPos hs).1 hkey).1
  have hset : (packNode order leaf ks cs).children.set (keyPos key ks) filePos =
      (packNode order leaf ks (cs.set (keyPos key ks) filePos)).children := by
    simp only [packNode, pad, length_set]
    exact set_append_left _ _ (by omega)
  simp only [addKey, hk, h1, h2, bind_eq_bind, bind_some, hkey, decide_true, if_true, hl, hset]
  cases replaceDup && leaf <;> rfl

/-- The keys of a full node with one key too many. A key that lands behind all others
goes through a temporary itself. -/
def overflowKeys (key : CStr) (ks : List SizedKey) : List SizedKey :=
  if keyPos key ks < ks.length then insertKeys key ks else ks ++ [(SizedKey.dup key).viaTemp]

def overflowChildren (leaf : Bool) (key : CStr) (ks : List SizedKey) (cs : List Offset)
    (filePos : Offset) : List Offset :=
  cs.take (childPos leaf key ks) ++ filePos :: cs.drop (childPos leaf key ks)

@[simp] theorem overflowKeys_length (key : CStr) (ks : List SizedKey) : (overflowKeys key ks).length = ks.length + 1 := by
  unfold overflowKeys; split <;> simp

theorem shiftUp_full (null : α) (load : α → α) {l : List α} (t x : α) (hi : i ≤ l.length) :
    shiftUp load null (l.length + 1 - i) i t (l ++ [x]) = (l.take i ++ t :: (l.drop i).map load, load x) := by
  have h := shiftUp_insert null load (l.drop i) (l.take i) [] t x
  have hl : (l.take i).length = i := by simp [hi]
  rw [hl, length_drop, ← append_assoc, take_append_drop] at h
  rw [show l.length + 1 - i = l.length - i + 1 by omega, h]; simp

theorem exists_concat {l : List α} (h : l.length = n + 1) : ∃ l' x, l = l' ++ [x] ∧ l'.length = n := by
  have hne : l ≠ [] := by intro e; simp [e] at h
  refine ⟨l.dropLast, l.getLast hne, (dropLast_append_getLast hne).symm, by simp [h]⟩

variable {kl : SizedKey} {cl : Offset}

theorem splitInsert_pack (hfull : ks.length = order - 1) (ho : 2 ≤ order) (hcs : cs.length = order) (filePos : Offset)
    {K : List SizedKey} {C : List Offset}
    (hK : overflowKeys key ks = K ++ [kl]) (hC : overflowChildren leaf key ks cs filePos = C ++ [cl]) :
    splitInsert order (packNode order leaf ks cs) key filePos (keyPos key ks) = ⟨K.map SizedKey.slot, C, kl.slot, cl⟩ := by
  have hp := keyPos_le key ks
  have hkeys : (packNode order leaf ks cs).keys = ks.map SizedKey.slot := pad_full (by simp [hfull])
  have hch : (packNode order leaf ks cs).children = cs := pad_full (by omega)
  have hl : (packNode order leaf ks cs).leaf = leaf := rfl
  obtain ⟨ks', kx, hks, hks'⟩ := exists_concat (l := ks) (n := order - 2) (by omega)
  obtain ⟨cs', cx, hcx, hcs'⟩ := exists_concat (l := cs) (n := order - 1) (by omega)
  set q := keyPos key ks with hq
  set j := childPos leaf key ks with hj
  have hjq : j = if leaf then q else q + 1 := rfl
  have hkey : (packNode order leaf ks cs).keyAt q = (ks.map SizedKey.slot).getD q .null := by
    rw [BTreeNode.keyAt, hkeys]
  have hchild : ∀ i, (packNode order leaf ks cs).childAt i = cs.getD i 0 := by
    intro i; rw [BTreeNode.childAt, hch]
  by_cases hlt : q < order - 1
  · -- the new key pushes the last one out
    have hj' : j ≤ order - 1 := by rw [hjq]; split <;> omega
    have h1 := shiftUp_full KeySlot.null KeySlot.viaTemp (i := q)
      (l := ks'.map SizedKey.slot) (SizedKey.dup key).slot kx.slot (by simp; omega)
    have h2 := shiftUp_full 0 id (i := j) (l := cs') filePos cx (by omega)
    rw [length_map, show ks'.length + 1 - q = order - 1 - (q + 1) + 1 by omega, shiftUp] at h1
    rw [show cs'.length + 1 - j = order - 1 - j + 1 by omega, shiftUp] at h2
    have hK' : K = ks'.take q ++ SizedKey.dup key :: (ks'.drop q).map SizedKey.viaTemp ∧ [kl] = [kx.viaTemp] := by
      refine append_inj' (hK.symm.trans ?_) rfl
      rw [overflowKeys, ← hq, if_pos (by omega), insertKeys, ← hq, hks,
        take_append_of_le_length (by omega), drop_append_of_le_length (by omega)]
      simp
    have hC' : C = cs'.take j ++ filePos :: cs'.drop j ∧ [cl] = [cx] := by
      refine append_inj' (hC.symm.trans ?_) rfl
      rw [overflowChildren, ← hj, hcx, take_append_of_le_length (by omega), drop_append_of_le_length (by omega)]
      simp
    obtain ⟨rfl, hkl⟩ := hK'
    obtain ⟨rfl, hcl⟩ := hC'
    have hs : ks.map SizedKey.slot = ks'.map SizedKey.slot ++ [kx.slot] := by rw [hks]; simp
    rw [← hs] at h1
    rw [← hcx] at h2
    simp only [splitInsert, hlt, if_true, hkey, hchild, hkeys, hch, hl, ← hjq, dupKey_eq]
    simp only [id_eq, List.map_id] at h2
    rw [h1, h2, singleton_inj.1 hkl, singleton_inj.1 hcl]
    simp [← map_take, ← map_drop, comp_def]
  · -- the new key is the last one
    have hqe : q = order - 1 := by omega
    have hK' : K = ks ∧ [kl] = [(SizedKey.dup key).viaTemp] := by
      refine append_inj' (hK.symm.trans ?_) rfl
      rw [overflowKeys, if_neg (by omega)]
    obtain ⟨rfl, hkl⟩ := hK'
    rw [singleton_inj.1 hkl]
    simp only [splitInsert, hlt, if_false, hchild, hkeys, hch, hl, dupKey_eq, SizedKey.slot_viaTemp]
    cases leaf with
    | true =>
      have hC' : C = cs' ++ [filePos] ∧ [cl] = [cx] := by
        refine append_inj' (hC.symm.trans ?_) rfl
        rw [overflowChildren, ← hj, hjq, if_pos rfl, hqe, ← hcs', hcx, take_left, drop_left]
        simp
      obtain ⟨rfl, hcl⟩ := hC'
      rw [singleton_inj.1 hcl, ← hcs', hcx]
      simp
    | false =>
      have hC' : C = cs ∧ [cl] = [filePos] := by
        refine append_inj' (hC.symm.trans ?_) rfl
        rw [overflowChildren, ← hj, hjq, if_neg (by simp), take_of_length_le (by omega), drop_eq_nil_of_le (by omega)]
      obtain ⟨rfl, hcl⟩ := hC'
      rw [singleton_inj.1 hcl]
      simp

theorem moveEntries_append : ∀ (M : List KeySlot) (M' : List Offset) (A R T R2 : List KeySlot)
    (A' R' T' R2' : List Offset) (Z : List KeySlot) (Z' : List Offset) (l1 l2 : Bool) (n1 n2 : ℕ),
    M'.length = M.length → Z.length = M.length → Z'.length = M.length → A'.length = A.length → T'.length = T.length →
    moveEntries M.length A.length T.length ⟨l1, n1, A ++ (M ++ R), A' ++ (M' ++ R')⟩
        ⟨l2, n2, T ++ (Z ++ R2), T' ++ (Z' ++ R2')⟩ =
      (⟨l1, n1, A ++ (List.replicate M.length .null ++ R), A' ++ (List.replicate M.length 0 ++ R')⟩,
        ⟨l2, n2, T ++ (M ++ R2), T' ++ (M' ++ R2')⟩) := by
  intro M
  induction M with
  | nil =>
    intro M' A R T R2 A' R' T' R2' Z Z' l1 l2 n1 n2 h1 h2 h3 _ _
    rw [length_nil, length_eq_zero_iff] at h1 h2 h3
    subst h1 h2 h3; rfl
  | cons m M ih =>
    intro M' A R T R2 A' R' T' R2' Z Z' l1 l2 n1 n2 h1 h2 h3 h4 h5
    obtain ⟨m', M', rfl⟩ := exists_cons_of_length_eq_add_one h1
    obtain ⟨z, Z, rfl⟩ := exists_cons_of_length_eq_add_one h2
    obtain ⟨z', Z', rfl⟩ := exists_cons_of_length_eq_add_one h3
    have hstep := ih M' (A ++ [.null]) R (T ++ [m]) R2 (A' ++ [0]) R' (T' ++ [m']) R2' Z Z' l1 l2 n1 n2
      (by simpa using h1) (by simpa using h2) (by simpa using h3) (by simp [h4]) (by simp [h5])
    simp only [length_append, length_singleton, append_assoc, singleton_append] at hstep
    simp only [length_cons, moveEntries, moveEntry, BTreeNode.keyAt, BTreeNode.childAt, cons_append,
      getD_append_cons, set_append_cons, getD_append_cons' h4.symm, set_append_cons' h4.symm, set_append_cons' h5.symm, replicate_succ]
    rw [hstep]

theorem splitPoint_lt (ho : 3 ≤ order) (leaf : Bool) : splitPoint order leaf < order - 1 := by
  unfold splitPoint; split <;> omega

theorem append_replicate {null : α} {m : ℕ} {l : List α} (h : l.length + m = n) : l ++ List.replicate m null = pad n null l := by
  rw [pad]; congr 2; omega

/-- The cut: with `x` the key at the split point, the left node keeps what is before it
(and `x` itself in a leaf), the right node gets what is behind it, and `x` is promoted. -/
theorem splitDivide_pack {A M : List SizedKey} {x : SizedKey} {A' M' : List Offset} {c : Offset} (hA : A.length = splitPoint order leaf)
    (hA' : A'.length = splitPoint order leaf + 1) (hM : A.length + 1 + M.length = order - 1) (hM' : M'.length = M.length) :
    splitDivide order leaf ⟨(A ++ x :: M).map SizedKey.slot, A' ++ (M' ++ [c]), kl.slot, cl⟩ =
      some (x.str, packNode order leaf (if leaf then A ++ [x] else A) A', packNode order leaf (M ++ [kl]) (M' ++ [c, cl])) := by
  have hkey : (((A ++ x :: M).map SizedKey.slot).getD (splitPoint order leaf) .null).key = some x.str := by
    rw [map_append, map_cons, getD_append_cons' (by simp [hA])]; rfl
  have hmove := moveEntries_append (M.map SizedKey.slot) M' ((A ++ [x]).map SizedKey.slot) [] []
    (.null :: List.replicate (order - 1 - (M.length + 1)) .null) A' [c] []
    (0 :: 0 :: List.replicate (order - (M.length + 2)) 0) (List.replicate M.length .null)
    (List.replicate M.length 0) leaf leaf (order - 1) (order - 1 - splitPoint order leaf)
    (by simpa using hM') (by simp) (by simp) (by simp [hA, hA']) rfl
  have hk0 : List.replicate M.length KeySlot.null ++
      (.null :: List.replicate (order - 1 - (M.length + 1)) .null) = List.replicate (order - 1) .null := by
    rw [← replicate_succ, ← replicate_add]; congr 1; omega
  have hc0 : List.replicate M.length 0 ++ (0 :: 0 :: List.replicate (order - (M.length + 2)) 0) = List.replicate order 0 := by
    rw [← replicate_succ, ← replicate_succ, ← replicate_add]; congr 1; omega
  simp only [nil_append, hk0, hc0, length_map, length_append, length_singleton,
    length_nil, append_nil, map_append, map_cons, map_nil, append_assoc, singleton_append, hA] at hmove
  have hcount : order - 1 - splitPoint order leaf - 1 = M.length := by omega
  have hlast : (A' ++ (List.replicate M.length 0 ++ [c])).getD (splitPoint order leaf + 1 + M.length) 0 = c := by
    rw [← append_assoc]; exact getD_append_cons' (by simp [hA'])
  have hleft : (A' ++ (List.replicate M.length 0 ++ [c])).set (splitPoint order leaf + 1 + M.length) 0 = pad order 0 A' := by
    rw [← append_assoc, set_append_cons' (by simp [hA']), append_assoc, ← replicate_succ']
    exact append_replicate (by omega)
  have hright : ((M' ++ (0 :: 0 :: List.replicate (order - (M.length + 2)) 0)).set M.length c).set
      (M.length + 1) cl = pad order 0 (M' ++ [c, cl]) := by
    simp [pad, hM']
  have hrkeys : (M.map SizedKey.slot ++ (KeySlot.null :: List.replicate (order - 1 - (M.length + 1)) .null)).set
      M.length kl.slot = pad (order - 1) .null ((M ++ [kl]).map SizedKey.slot) := by
    rw [set_append_cons' (by simp)]; simp [pad]
  have hcnt : order - 1 - splitPoint order leaf = (M ++ [kl]).length := by simp; omega
  rw [map_append, map_cons] at hkey
  simp only [splitDivide, map_append, map_cons, hkey, bind_eq_bind, bind_some,
    btreeCreateNodeBlock, hcount, hmove, BTreeNode.childAt, hlast, hleft, hright, hrkeys]
  rw [hcnt]
  cases leaf with
  | true =>
    have hlkeys : A.map SizedKey.slot ++ x.slot :: List.replicate M.length KeySlot.null =
        pad (order - 1) .null ((A ++ [x]).map SizedKey.slot) := by
      simp [pad, show order - 1 - (A.length + 1) = M.length by omega]
    have hlcnt : splitPoint order true + 1 = (A ++ [x]).length := by simp [hA]
    rw [if_pos rfl, if_pos rfl, hlkeys, hlcnt]; simp [packNode]
  | false =>
    have hlkeys : (A.map SizedKey.slot ++ x.slot :: List.replicate M.length KeySlot.null).set
        (splitPoint order false) .null = pad (order - 1) .null (A.map SizedKey.slot) := by
      rw [set_append_cons' (by simp [hA]), ← replicate_succ]
      exact append_replicate (by simp; omega)
    rw [if_neg (by simp), if_neg (by simp), hlkeys, ← hA]; simp [packNode]

theorem packNode_setChild_end (order : ℕ) (leaf : Bool) (ks : List SizedKey) (h : cs.length < order) (o : Offset) :
    (packNode order leaf ks cs).setChild cs.length o = packNode order leaf ks (cs ++ [o]) := by
  simp only [BTreeNode.setChild, packNode, pad_room h, set_append_cons]
  simp [pad]

theorem packNode_setChild {order : ℕ} {leaf : Bool} (ks : List SizedKey) (cs : List Offset) (o : Offset) {i : ℕ} (h : i < cs.length) :
    (packNode order leaf ks cs).setChild i o = packNode order leaf ks (cs.set i o) := by
  simp only [BTreeNode.setChild, packNode, pad, length_set]
  rw [set_append_left _ _ h]

end KVStores.Gdb
