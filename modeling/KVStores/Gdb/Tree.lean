import KVStores.Gdb.NodeSpec
import KVStores.Gdb.Store

/-!
# B+trees as values

What the node blocks of a tree amount to: a `Tree h` has all its leaves at depth `h`. The
children of an internal node form a `Spine`, with a separator between any two neighbours.

* `Tree.flat` reads a tree from left to right: entries and separators in one sequence.
  All order conditions of a B+tree say that this sequence ascends (`Ordered`), where a
  separator comes right after the entry with its key. Splitting, merging and borrowing
  between internal nodes leave the sequence as it is.
-/

namespace KVStores.Gdb

open List

inductive Item
  | entry (key : CStr) (filePos : Offset)
  | sep (key : CStr)

namespace Item

def key : Item → CStr
  | entry k _ => k
  | sep k => k

/-- The order of a tree's items: by key, an entry before the separator with its key. -/
def lt : Item → Item → Prop
  | entry a _, sep b => a ≤ b
  | a, b => a.key < b.key

def toEntry : Item → Option (CStr × Offset)
  | entry k v => some (k, v)
  | sep _ => none

@[simp] theorem key_entry (k : CStr) (v : Offset) : (entry k v).key = k := rfl
@[simp] theorem key_sep (k : CStr) : (sep k).key = k := rfl
@[simp] theorem toEntry_entry (k : CStr) (v : Offset) : (entry k v).toEntry = some (k, v) := rfl
@[simp] theorem toEntry_sep (k : CStr) : (sep k).toEntry = none := rfl

variable {a b : CStr} {v : Offset} {i : Item}

@[simp] theorem entry_lt_entry {u : Offset} : (entry a v).lt (entry b u) ↔ a < b := Iff.rfl
@[simp] theorem entry_lt_sep : (entry a v).lt (sep b) ↔ a ≤ b := Iff.rfl
@[simp] theorem sep_lt : (sep a).lt i ↔ a < i.key := by cases i <;> rfl

variable {j : Item}

theorem key_le_of_lt (h : i.lt j) : i.key ≤ j.key := by
  cases i <;> cases j <;> first | exact h | exact le_of_lt h

theorem lt_of_key_lt (h : i.key < j.key) : i.lt j := by
  cases i <;> cases j <;> first | exact h | exact le_of_lt h

theorem lt_entry {k : CStr} : i.lt (entry k v) ↔ i.key < k := by
  cases i <;> rfl

end Item

def Ordered (l : List Item) : Prop := l.Pairwise Item.lt

def entriesOf (l : List Item) : List (CStr × Offset) := l.filterMap Item.toEntry

@[simp] theorem entriesOf_append (l l' : List Item) : entriesOf (l ++ l') = entriesOf l ++ entriesOf l' :=
  filterMap_append

@[simp] theorem entriesOf_nil : entriesOf [] = [] := rfl
@[simp] theorem entriesOf_entry (k : CStr) (v : Offset) (l : List Item) : entriesOf (.entry k v :: l) = (k, v) :: entriesOf l := rfl
@[simp] theorem entriesOf_sep (k : CStr) (l : List Item) : entriesOf (.sep k :: l) = entriesOf l := rfl

theorem mem_entriesOf {l : List Item} {k : CStr} {v : Offset} : (k, v) ∈ entriesOf l ↔ Item.entry k v ∈ l := by
  simp only [entriesOf, mem_filterMap]
  constructor
  · rintro ⟨i, hi, h⟩
    cases i <;> simp_all
  · exact fun h => ⟨_, h, rfl⟩

variable {i : ℕ}

theorem exists_at {α : Type} {l : List α} (h : i < l.length) : ∃ X x Y, l = X ++ x :: Y ∧ X.length = i :=
  ⟨l.take i, l[i], l.drop (i + 1), by simp, by simp; omega⟩

structure Spine (τ : Type) where
  first : τ
  rest : List (SizedKey × τ)

namespace Spine

variable {τ α : Type}

def single (t : τ) : Spine τ := ⟨t, []⟩

def pair (t : τ) (k : SizedKey) (u : τ) : Spine τ := ⟨t, [(k, u)]⟩

def kids (m : Spine τ) : List τ := m.first :: m.rest.map Prod.snd

def keys (m : Spine τ) : List SizedKey := m.rest.map Prod.fst

/-- `m` between what is left of it and what is right of it. -/
@[grind =] def plug : List (τ × SizedKey) → Spine τ → List (SizedKey × τ) → Spine τ
  | [], m, R => ⟨m.first, m.rest ++ R⟩
  | (t, k) :: L, m, R => ⟨t, (k, (plug L m R).first) :: (plug L m R).rest⟩

def flat (f : τ → List Item) (m : Spine τ) : List Item :=
  f m.first ++ m.rest.flatMap fun p => .sep p.1.str :: f p.2

def leftFlat (f : τ → List Item) (L : List (τ × SizedKey)) : List Item :=
  L.flatMap fun p => f p.1 ++ [.sep p.2.str]

def rightFlat (f : τ → List Item) (R : List (SizedKey × τ)) : List Item :=
  R.flatMap fun p => .sep p.1.str :: f p.2

/-- What `f` gives for all children. -/
def collect (f : τ → List α) (m : Spine τ) : List α := m.kids.flatMap f

variable (L : List (τ × SizedKey)) (m : Spine τ) (R : List (SizedKey × τ)) (t : τ)

@[simp] theorem kids_single : (single t).kids = [t] := rfl
@[simp] theorem keys_single : (single t).keys = [] := rfl
@[simp] theorem flat_single (f : τ → List Item) : (single t).flat f = f t := by simp [flat, single]
@[simp] theorem collect_single (f : τ → List α) : (single t).collect f = f t := by simp [collect]
@[simp] theorem single_first : (single t).first = t := rfl
@[simp] theorem single_rest : (single t).rest = [] := rfl

variable (k : SizedKey) (u : τ)

@[simp] theorem kids_pair : (pair t k u).kids = [t, u] := rfl
@[simp] theorem keys_pair : (pair t k u).keys = [k] := rfl
@[simp] theorem flat_pair (f : τ → List Item) : (pair t k u).flat f = f t ++ .sep k.str :: f u := by
  simp [flat, pair]
@[simp] theorem collect_pair (f : τ → List α) : (pair t k u).collect f = f t ++ f u := by simp [collect]
@[simp] theorem pair_first : (pair t k u).first = t := rfl
@[simp] theorem pair_rest : (pair t k u).rest = [(k, u)] := rfl

@[simp] theorem kids_length : m.kids.length = m.rest.length + 1 := by simp [kids]
@[simp] theorem keys_length : m.keys.length = m.rest.length := by simp [keys]

@[simp] theorem kids_plug : (plug L m R).kids = L.map Prod.fst ++ (m.kids ++ R.map Prod.snd) := by
  induction L with
  | nil => simp [plug, kids]
  | cons p L ih =>
    rw [map_cons, cons_append, ← ih]
    simp [plug, kids]

@[simp] theorem keys_plug : (plug L m R).keys = L.map Prod.snd ++ (m.keys ++ R.map Prod.fst) := by
  induction L with
  | nil => simp [plug, keys]
  | cons p L ih =>
    rw [map_cons, cons_append, ← ih]
    simp [plug, keys]

@[simp] theorem flat_plug (f : τ → List Item) : (plug L m R).flat f = leftFlat f L ++ (m.flat f ++ rightFlat f R) := by
  induction L with
  | nil => simp [plug, flat, leftFlat, rightFlat]
  | cons p L ih =>
    have h : (plug (p :: L) m R).flat f = f p.1 ++ .sep p.2.str :: (plug L m R).flat f := by
      simp [plug, flat]
    rw [h, ih]; simp [leftFlat]

@[simp] theorem collect_plug (f : τ → List α) :
    (plug L m R).collect f = (L.map Prod.fst).flatMap f ++ (m.collect f ++ (R.map Prod.snd).flatMap f) := by
  simp [collect]

@[simp] theorem rest_length_plug : (plug L m R).rest.length = L.length + (m.rest.length + R.length) := by
  rw [← keys_length, keys_plug]; simp

theorem exists_plug : ∀ (m : Spine τ) (i : ℕ), i ≤ m.rest.length → ∃ L t R, L.length = i ∧ m = plug L (single t) R := by
  intro m i
  induction i generalizing m with
  | zero => exact fun _ => ⟨[], m.first, m.rest, rfl, rfl⟩
  | succ i ih =>
    intro hi
    obtain ⟨f, rest⟩ := m
    obtain _ | ⟨⟨k, t⟩, rest⟩ := rest
    · simp at hi
    · obtain ⟨L, u, R, hL, hm⟩ := ih ⟨t, rest⟩ (by simpa using hi)
      refine ⟨(f, k) :: L, u, R, by simp [hL], ?_⟩
      rw [plug, ← hm]

theorem exists_cut (m : Spine τ) (hi : i < m.rest.length) : ∃ (A : Spine τ) (x : SizedKey) (B : Spine τ),
    m.kids = A.kids ++ B.kids ∧ m.keys = A.keys ++ x :: B.keys ∧
      (∀ f, m.flat f = A.flat f ++ .sep x.str :: B.flat f) ∧ A.rest.length = i ∧ A.first = m.first := by
  obtain ⟨t, rest⟩ := m
  obtain ⟨A, ⟨x, u⟩, B, rfl, hA⟩ := exists_at hi
  exact ⟨⟨t, A⟩, x, ⟨u, B⟩, by simp [kids], by simp [keys], fun f => by simp [flat], hA, rfl⟩

end Spine

structure Leaf where
  off : Offset
  entries : List (SizedKey × Offset)
  next : Offset

def Leaf.node (order : ℕ) (l : Leaf) : BTreeNode :=
  packNode order true (l.entries.map Prod.fst) (l.entries.map Prod.snd ++ [l.next])

structure Inner (τ : Type) where
  off : Offset
  kids : Spine τ

/-- A tree all of whose leaves are at depth `h`. -/
@[grind =] def Tree : ℕ → Type
  | 0 => Leaf
  | h + 1 => Inner (Tree h)

namespace Tree

def leaf (l : Leaf) : Tree 0 := l

def inner {h : ℕ} (off : Offset) (m : Spine (Tree h)) : Tree (h + 1) := Inner.mk off m

theorem exists_leaf (t : Tree 0) : ∃ l, leaf l = t := ⟨t, rfl⟩

variable {h : ℕ}

theorem exists_inner (t : Tree (h + 1)) : ∃ off m, inner off m = t :=
  ⟨Inner.off t, Inner.kids t, rfl⟩

def off : {h : ℕ} → Tree h → Offset
  | 0, t => Leaf.off t
  | _ + 1, t => Inner.off t

def flat : {h : ℕ} → Tree h → List Item
  | 0, t => (Leaf.entries t).map fun e => .entry e.1.str e.2
  | _ + 1, t => (Inner.kids t).flat fun t => flat t

@[grind =] def leaves : {h : ℕ} → Tree h → List Leaf
  | 0, t => [t]
  | _ + 1, t => (Inner.kids t).collect fun t => leaves t

def count : {h : ℕ} → Tree h → ℕ
  | 0, t => (Leaf.entries t).length
  | _ + 1, t => (Inner.kids t).rest.length

def node (order : ℕ) : {h : ℕ} → Tree h → BTreeNode
  | 0, t => Leaf.node order t
  | _ + 1, t => packNode order false (Inner.kids t).keys ((Inner.kids t).kids.map off)

@[grind =] def nodes (order : ℕ) : {h : ℕ} → Tree h → List (Offset × BTreeNode)
  | 0, t => [(Leaf.off t, Leaf.node order t)]
  | _ + 1, t => (Inner.off t, t.node order) :: (Inner.kids t).collect fun t => nodes order t

@[grind =] def offs : {h : ℕ} → Tree h → List Offset
  | 0, t => [Leaf.off t]
  | _ + 1, t => Inner.off t :: (Inner.kids t).collect fun t => offs t

/-- `tree->minLeaf` or `tree->minInt`. -/
def minCount (order h : ℕ) : ℕ := if h = 0 then order / 2 else (order + 1) / 2 - 1

/-- No node holds too many keys, and no node but perhaps the root too few. -/
@[grind =] def Sound (order : ℕ) : {h : ℕ} → Tree h → Prop
  | 0, t => (Leaf.entries t).length ≤ order - 1
  | h + 1, t => (Inner.kids t).rest.length ≤ order - 1 ∧
      ∀ u ∈ (Inner.kids t).kids, minCount order h ≤ u.count ∧ Sound order u

@[simp] theorem off_leaf (l : Leaf) : (leaf l).off = l.off := rfl
@[simp] theorem off_inner (o : Offset) (m : Spine (Tree h)) : (inner o m).off = o := rfl
@[simp] theorem count_leaf (l : Leaf) : (leaf l).count = l.entries.length := rfl
@[simp] theorem count_inner (o : Offset) (m : Spine (Tree h)) : (inner o m).count = m.rest.length := rfl
@[simp] theorem flat_leaf (l : Leaf) : (leaf l).flat = l.entries.map fun e => .entry e.1.str e.2 := rfl
@[simp] theorem flat_inner (o : Offset) (m : Spine (Tree h)) : (inner o m).flat = m.flat flat := rfl
@[simp] theorem leaves_leaf (l : Leaf) : (leaf l).leaves = [l] := rfl
@[simp] theorem leaves_inner (o : Offset) (m : Spine (Tree h)) : (inner o m).leaves = m.collect leaves := rfl
@[simp] theorem offs_leaf (l : Leaf) : (leaf l).offs = [l.off] := rfl
@[simp] theorem offs_inner (o : Offset) (m : Spine (Tree h)) : (inner o m).offs = o :: m.collect offs := rfl

theorem nodup_inner {o : Offset} {m : Spine (Tree h)} : (inner o m).offs.Nodup ↔ o ∉ m.collect offs ∧ (m.collect offs).Nodup := by
  rw [offs_inner, nodup_cons]

variable (order : ℕ)

@[simp] theorem nodes_leaf (l : Leaf) : (leaf l).nodes order = [(l.off, l.node order)] := rfl
@[simp] theorem node_leaf (l : Leaf) : (leaf l).node order = l.node order := rfl
theorem node_inner (o : Offset) (m : Spine (Tree h)) : (inner o m).node order = packNode order false m.keys (m.kids.map off) := rfl
@[simp] theorem nodes_inner (o : Offset) (m : Spine (Tree h)) :
    (inner o m).nodes order = (o, (inner o m).node order) :: m.collect (nodes order) := rfl
@[simp] theorem sound_leaf (l : Leaf) : (leaf l).Sound order ↔ l.entries.length ≤ order - 1 := Iff.rfl
@[simp] theorem sound_inner (o : Offset) (m : Spine (Tree h)) : (inner o m).Sound order ↔
    m.rest.length ≤ order - 1 ∧ ∀ t ∈ m.kids, minCount order h ≤ t.count ∧ t.Sound order := Iff.rfl

theorem map_fst_nodes : ∀ {h : ℕ} (t : Tree h), (t.nodes order).map Prod.fst = t.offs := by
  intro h
  induction h with
  | zero => intro t; rfl
  | succ h ih =>
    intro t
    obtain ⟨o, m, rfl⟩ := t.exists_inner
    simp only [nodes_inner, offs_inner, map_cons, Spine.collect, map_flatMap]
    congr 2
    funext t
    exact ih t

theorem off_mem_nodes (t : Tree h) : (t.off, t.node order) ∈ t.nodes order := by
  cases h
  · exact mem_cons_self
  · exact mem_cons_self

theorem off_mem_offs (t : Tree h) : t.off ∈ t.offs := by
  cases h
  · exact mem_cons_self
  · exact mem_cons_self

end Tree

def headOff (ls : List Leaf) (next : Offset) : Offset := (ls.head?.map Leaf.off).getD next

/-- Every leaf points to the one after it, the last one to `next`. -/
@[grind =] def Linked : List Leaf → Offset → Prop
  | [], _ => True
  | l :: ls, next => l.next = headOff ls next ∧ Linked ls next

@[simp] theorem headOff_nil (next : Offset) : headOff [] next = next := rfl
@[simp] theorem headOff_cons (l : Leaf) (ls : List Leaf) (next : Offset) : headOff (l :: ls) next = l.off := rfl

theorem headOff_append (ls ls' : List Leaf) (next : Offset) : headOff (ls ++ ls') next = headOff ls (headOff ls' next) := by
  cases ls <;> simp

@[simp] theorem linked_nil (next : Offset) : Linked [] next := trivial
@[simp] theorem linked_cons (l : Leaf) (ls : List Leaf) (next : Offset) :
    Linked (l :: ls) next ↔ l.next = headOff ls next ∧ Linked ls next := Iff.rfl

theorem linked_append {ls ls' : List Leaf} {next : Offset} : Linked (ls ++ ls') next ↔ Linked ls (headOff ls' next) ∧ Linked ls' next := by
  induction ls with
  | nil => simp
  | cons l ls ih => simp [ih, headOff_append, and_assoc]

variable {KeyOk : KeySlot → Prop}

theorem nodeOk_pack {order : ℕ} {leaf : Bool} {ks : List SizedKey} {cs : List Offset} :
    NodeOk KeyOk (packNode order leaf ks cs) ↔ ∀ k ∈ ks, KeyOk k.slot := by
  constructor
  · intro h k hk
    exact h k.slot (mem_append_left _ (List.mem_map_of_mem hk)) (by simp)
  · intro h k hk hne
    rcases mem_append.1 hk with hk | hk
    · obtain ⟨k', hk', rfl⟩ := List.mem_map.1 hk
      exact h k' hk'
    · rw [mem_replicate] at hk
      rw [hk.2] at hne
      exact absurd rfl hne

/-- The world holds these nodes, at valid offsets and with keys the store takes. -/
def NodesIn (KeyOk : KeySlot → Prop) (w : World) (l : List (Offset × BTreeNode)) : Prop :=
  ∀ p ∈ l, dbHeaderBlockSize ≤ p.1 ∧ w p.1 = some (.btreeNode p.2) ∧ NodeOk KeyOk p.2

section NodesIn

variable {KeyOk : KeySlot → Prop} {w : World} {l l' : List (Offset × BTreeNode)}

@[simp] theorem nodesIn_append : NodesIn KeyOk w (l ++ l') ↔ NodesIn KeyOk w l ∧ NodesIn KeyOk w l' :=
  forall_mem_append

@[simp] theorem nodesIn_cons {p : Offset × BTreeNode} : NodesIn KeyOk w (p :: l) ↔
    (dbHeaderBlockSize ≤ p.1 ∧ w p.1 = some (.btreeNode p.2) ∧ NodeOk KeyOk p.2) ∧ NodesIn KeyOk w l :=
  forall_mem_cons

@[simp] theorem nodesIn_nil : NodesIn KeyOk w [] := by simp [NodesIn]

theorem NodesIn.congr {w' : World} (h : NodesIn KeyOk w l) (hw : ∀ o ∈ l.map Prod.fst, w' o = w o) : NodesIn KeyOk w' l := by
  intro p hp
  obtain ⟨h1, h2, h3⟩ := h p hp
  exact ⟨h1, by rw [hw _ (List.mem_map_of_mem hp), h2], h3⟩

variable {o : Offset}

theorem NodesIn.live (h : NodesIn KeyOk w l) (ho : o ∈ l.map Prod.fst) : w o ≠ none := by
  obtain ⟨p, hp, rfl⟩ := List.mem_map.1 ho
  rw [(h p hp).2.1]; simp

theorem NodesIn.valid (h : NodesIn KeyOk w l) (ho : o ∈ l.map Prod.fst) : dbHeaderBlockSize ≤ o := by
  obtain ⟨p, hp, rfl⟩ := List.mem_map.1 ho
  exact (h p hp).1

end NodesIn

/-- From `w` to `w'` the blocks `D` have been given up for the blocks `D'`; no other
block has changed. -/
structure Frame (w w' : World) (D D' : List Offset) : Prop where
  same : ∀ o, o ∉ D → o ∉ D' → w' o = w o
  gone : ∀ o ∈ D, o ∉ D' → w' o = none
  fresh : ∀ o ∈ D', o ∉ D → w o = none

namespace Frame

variable {w w' w'' : World} {D D' D'' X Y : List Offset}

theorem refl : Frame w w D D := ⟨fun _ _ _ => rfl, fun _ h h' => absurd h h', fun _ h h' => absurd h h'⟩

theorem trans (h : Frame w w' D D') (h' : Frame w' w'' D' D'') : Frame w w'' D D'' where
  same o h1 h2 := by
    by_cases hm : o ∈ D'
    · rw [h'.gone o hm h2, h.fresh o hm h1]
    · rw [h'.same o hm h2, h.same o h1 hm]
  gone o h1 h2 := by
    by_cases hm : o ∈ D'
    · exact h'.gone o hm h2
    · rw [h'.same o hm h2, h.gone o h1 hm]
  fresh o h1 h2 := by
    by_cases hm : o ∈ D'
    · exact h.fresh o hm h2
    · rw [← h.same o h2 hm, h'.fresh o h1 hm]

theorem extend (h : Frame w w' D D') (X Y : List Offset) : Frame w w' (X ++ (D ++ Y)) (X ++ (D' ++ Y)) where
  same o h1 h2 := by
    simp only [mem_append, not_or] at h1 h2
    exact h.same o h1.2.1 h2.2.1
  gone o h1 h2 := by
    simp only [mem_append, not_or] at h1 h2
    exact h.gone o (by tauto) h2.2.1
  fresh o h1 h2 := by
    simp only [mem_append, not_or] at h1 h2
    exact h.fresh o (by tauto) h2.2.1

theorem cons (h : Frame w w' D D') (o : Offset) : Frame w w' (o :: D) (o :: D') := by
  simpa using h.extend [o] []

theorem congr (h : Frame w w' D D') (hX : ∀ o, o ∈ X ↔ o ∈ D) (hY : ∀ o, o ∈ Y ↔ o ∈ D') : Frame w w' X Y where
  same o h1 h2 := h.same o (by rwa [← hX]) (by rwa [← hY])
  gone o h1 h2 := h.gone o (by rwa [← hX]) (by rwa [← hY])
  fresh o h1 h2 := h.fresh o (by rwa [← hY]) (by rwa [← hX])

variable {b : Block}

theorem put_mem {o : Offset} (h : o ∈ D) : Frame w (w.put o b) D D :=
  ⟨fun _ hp _ => World.put_of_ne _ _ fun e => hp (e ▸ h), fun _ h h' => absurd h h', fun _ h h' => absurd h h'⟩

theorem put_cons {o : Offset} (h : w o = none) : Frame w (w.put o b) D (o :: D) where
  same p _ hp := World.put_of_ne _ _ fun e => hp (e ▸ mem_cons_self)
  gone _ hp hp' := absurd (mem_cons_of_mem _ hp) hp'
  fresh _ hp hp' := by
    rcases mem_cons.1 hp with rfl | hp
    · exact h
    · exact absurd hp hp'

theorem remove_cons {o : Offset} : Frame w (w.remove o) (o :: D) D where
  same p hp _ := World.remove_of_ne _ fun e => hp (e ▸ mem_cons_self)
  gone _ hp hp' := by
    rcases mem_cons.1 hp with rfl | hp
    · simp
    · exact absurd hp hp'
  fresh _ hp hp' := absurd (mem_cons_of_mem _ hp) hp'

theorem live_same (h : Frame w w' D D') {o : Offset} (ho : w o ≠ none) (hD : o ∉ D) : o ∉ D' ∧ w' o = w o :=
  ⟨fun hm => ho (h.fresh o hm hD), h.same o hD fun hm => ho (h.fresh o hm hD)⟩

variable {l : List (Offset × BTreeNode)}

theorem nodesIn (h : Frame w w' D D') (hl : NodesIn KeyOk w l) (hd : ∀ o ∈ l.map Prod.fst, o ∉ D) : NodesIn KeyOk w' l :=
  hl.congr fun o ho => (h.live_same (hl.live ho) (hd o ho)).2

theorem disjoint (h : Frame w w' D D') (hl : NodesIn KeyOk w l) (hd : ∀ o ∈ l.map Prod.fst, o ∉ D) : ∀ o ∈ l.map Prod.fst, o ∉ D' :=
  fun o ho => (h.live_same (hl.live ho) (hd o ho)).1

end Frame

end KVStores.Gdb
