import KVStores.Lib.Meets
import KVStores.Gdb.Node
import Mathlib.Order.MinMax
import Mathlib.Data.List.Nodup

/-!
# Block stores

The B+tree code is written over a `NodeStore`: the operations of `btree_node.c` and
`btree_header.c` on node and header blocks. `Lawful` says what a store must guarantee,
in terms of the blocks that are live (`World`): an operation changes the block it is
about and no other, a new block gets an offset where nothing is live.

`MemStore` is the store that keeps the blocks in a map from offsets to contents; its
allocator is arbitrary. `memStore_lawful`: it is lawful, and none of its operations on
live blocks fails.
-/

namespace KVStores.Gdb

/-- `DB_HEADER_BLOCK_SIZE`: no block lies below it. -/
def dbHeaderBlockSize : Offset := 16

theorem ne_zero_of_valid {o : Offset} (h : dbHeaderBlockSize ≤ o) : o ≠ 0 :=
  Nat.pos_iff_ne_zero.1 (lt_of_lt_of_le (by decide) h)

/-- The fields of a `BTree` that its header block stores. -/
structure BTreeHeader where
  order : ℕ
  size : ℕ
  root : Offset
  leftLeaf : Offset
deriving DecidableEq

def btreeCreateHeader : BTreeHeader := ⟨5, 0, 0, 0⟩

/-- A live block. Blocks that are not part of a B+tree are kept as their payload. -/
inductive Block
  | btreeHeader (header : BTreeHeader)
  | btreeNode (node : BTreeNode)
  | other (type : ℕ) (listNext : Offset) (payload : List UInt8)
deriving DecidableEq

/-- The live blocks by their offsets. -/
abbrev World := Offset → Option Block

/-- The block operations the B+tree code uses. `none` is a call that does not return, or
whose result is a NULL pointer that the caller reads through. -/
structure NodeStore (σ : Type) where
  /-- `btreeReadNode`; the order of the tree tells how the arrays are laid out. -/
  readNode : σ → ℕ → Offset → Option BTreeNode
  /-- `btreeWriteNode` on a node that has an offset. -/
  writeNode : σ → ℕ → Offset → BTreeNode → Option σ
  /-- `btreeNewNode`, and `btreeWriteNode` once the node is filled in. -/
  newNode : σ → ℕ → BTreeNode → Option (Offset × σ)
  /-- `btreeEraseNode`. -/
  eraseNode : σ → Offset → Option σ
  /-- `btreeReadHeader`, `btreeGetRootNode`, `btreeGetLeftLeaf`, `btreeGetTreeSize`. -/
  readHeader : σ → Offset → Option BTreeHeader
  /-- `gdbNewBlock` and `gdbWriteBlock` on a header. -/
  newHeader : σ → BTreeHeader → Option (Offset × σ)
  /-- `btreeSetRootNode`. -/
  setRoot : σ → Offset → Offset → Option σ
  /-- `btreeSetLeftLeaf`. -/
  setLeftLeaf : σ → Offset → Offset → Option σ
  /-- `btreeSetTreeSize`. -/
  setTreeSize : σ → Offset → ℕ → Option σ

def World.put (w : World) (offset : Offset) (b : Block) : World := Function.update w offset (some b)

def World.remove (w : World) (offset : Offset) : World := Function.update w offset none

section World

variable (w : World) (o p : Offset) (b : Block)

@[simp] theorem World.put_self : w.put o b o = some b := by simp [World.put]
@[simp] theorem World.remove_self : w.remove o o = none := by simp [World.remove]

variable {o p}

@[simp] theorem World.put_of_ne (h : p ≠ o) : w.put o b p = w p := by simp [World.put, h]
@[simp] theorem World.remove_of_ne (h : p ≠ o) : w.remove o p = w p := by simp [World.remove, h]

end World

def NodeOk (KeyOk : KeySlot → Prop) (n : BTreeNode) : Prop := ∀ k ∈ n.keys, k.key ≠ none → KeyOk k

/-- What the B+tree code relies on. `Abs s w` says that the live blocks of `s` are those of
`w`, `KeyOk` which keys nodes may hold, and `F` whether a call may fail to return on a live
block (when the store is full). -/
structure NodeStore.Lawful {σ : Type} (S : NodeStore σ) (F : Prop) (KeyOk : KeySlot → Prop)
    (Abs : σ → World → Prop) : Prop where
  keyOk_viaTemp : ∀ {k}, KeyOk k → KeyOk k.viaTemp
  keyOk_dup : ∀ {k str}, KeyOk k → k.key = some str → KeyOk (dupKey str)
  readNode : ∀ {s w order o n}, Abs s w → w o = some (.btreeNode n) →
    Meets F (S.readNode s order o) (· = n)
  writeNode : ∀ {s w order o n n'}, Abs s w → w o = some (.btreeNode n') →
    NodeOk KeyOk n →
    Meets F (S.writeNode s order o n) fun s' => Abs s' (w.put o (.btreeNode n))
  newNode : ∀ {s w order n}, Abs s w → NodeOk KeyOk n →
    Meets F (S.newNode s order n) fun r =>
      dbHeaderBlockSize ≤ r.1 ∧ w r.1 = none ∧ Abs r.2 (w.put r.1 (.btreeNode n))
  eraseNode : ∀ {s w o n}, Abs s w → w o = some (.btreeNode n) →
    Meets F (S.eraseNode s o) fun s' => Abs s' (w.remove o)
  readHeader : ∀ {s w o h}, Abs s w → w o = some (.btreeHeader h) →
    Meets F (S.readHeader s o) (· = h)
  newHeader : ∀ {s w}, Abs s w → Meets F (S.newHeader s btreeCreateHeader) fun r =>
      dbHeaderBlockSize ≤ r.1 ∧ w r.1 = none ∧ Abs r.2 (w.put r.1 (.btreeHeader btreeCreateHeader))
  setRoot : ∀ {s w o h}, Abs s w → w o = some (.btreeHeader h) → ∀ root,
    Meets F (S.setRoot s o root) fun s' => Abs s' (w.put o (.btreeHeader { h with root }))
  setLeftLeaf : ∀ {s w o h}, Abs s w → w o = some (.btreeHeader h) → ∀ leftLeaf,
    Meets F (S.setLeftLeaf s o leftLeaf) fun s' => Abs s' (w.put o (.btreeHeader { h with leftLeaf }))
  setTreeSize : ∀ {s w o h}, Abs s w → w o = some (.btreeHeader h) → ∀ size,
    Meets F (S.setTreeSize s o size) fun s' => Abs s' (w.put o (.btreeHeader { h with size }))

/-- Blocks kept in a map, with the offsets that are in use. Freeing a block only gives its
offset back: what it held can still be read until the offset is handed out again. `clock`
counts the allocations. -/
structure MemStore where
  content : World
  live : List Offset
  nodup : live.Nodup
  clock : ℕ

structure Allocator where
  pick : ℕ → List Offset → Offset
  fresh : ∀ clock live, pick clock live ∉ live
  valid : ∀ clock live, dbHeaderBlockSize ≤ pick clock live

def Allocator.extend : Allocator where
  pick _ live := live.foldr (fun o m => max (o + 128) m) dbHeaderBlockSize
  fresh _ live := by
    have h : ∀ o ∈ live, o < live.foldr (fun o m => max (o + 128) m) dbHeaderBlockSize := by
      induction live with
      | nil => simp
      | cons a as ih =>
        intro o ho
        rcases List.mem_cons.1 ho with rfl | ho
        · exact lt_max_of_lt_left (Nat.lt_add_of_pos_right (by decide))
        · exact lt_max_of_lt_right (ih o ho)
    exact fun hm => lt_irrefl _ (h _ hm)
  valid _ live := by
    induction live with
    | nil => exact le_rfl
    | cons a as ih => exact le_max_of_le_right ih

namespace MemStore

variable (A : Allocator)

def empty : MemStore := ⟨fun _ => none, [], List.nodup_nil, 0⟩

def world (s : MemStore) : World := fun o => if o ∈ s.live then s.content o else none

def write (s : MemStore) (o : Offset) (b : Block) : MemStore := { s with content := s.content.put o b }

def new (s : MemStore) (b : Block) : Offset × MemStore :=
  let o := A.pick s.clock s.live
  (o, ⟨s.content.put o b, o :: s.live, List.nodup_cons.2 ⟨A.fresh _ _, s.nodup⟩, s.clock + 1⟩)

def erase (s : MemStore) (o : Offset) : MemStore := { s with live := s.live.erase o, nodup := s.nodup.erase o }

def node? (s : MemStore) (o : Offset) : Option BTreeNode :=
  match s.content o with
  | some (.btreeNode n) => some n
  | _ => none

def header? (s : MemStore) (o : Offset) : Option BTreeHeader :=
  match s.content o with
  | some (.btreeHeader h) => some h
  | _ => none

def setHeader (s : MemStore) (o : Offset) (f : BTreeHeader → BTreeHeader) : Option MemStore :=
  (s.header? o).map fun h => s.write o (.btreeHeader (f h))

end MemStore

def memStore (A : Allocator) : NodeStore MemStore where
  readNode s _ o := s.node? o
  writeNode s _ o n := some (s.write o (.btreeNode n))
  newNode s _ n := some (s.new A (.btreeNode n))
  eraseNode s o := some (s.erase o)
  readHeader s o := s.header? o
  newHeader s h := some (s.new A (.btreeHeader h))
  setRoot s o root := s.setHeader o fun h => { h with root }
  setLeftLeaf s o leftLeaf := s.setHeader o fun h => { h with leftLeaf }
  setTreeSize s o size := s.setHeader o fun h => { h with size }

def MemAbs (s : MemStore) (w : World) : Prop := s.world = w

namespace MemAbs

variable {s : MemStore} {w : World} {o : Offset} {b b' : Block}

theorem content_eq (h : MemAbs s w) (ho : w o = some b) : o ∈ s.live ∧ s.content o = some b := by
  rw [← show s.world = w from h] at ho
  simp only [MemStore.world] at ho
  split at ho
  · exact ⟨‹_›, ho⟩
  · cases ho

theorem write (h : MemAbs s w) (ho : w o = some b') : MemAbs (s.write o b) (w.put o b) := by
  obtain ⟨hl, -⟩ := h.content_eq ho
  obtain rfl := h
  funext p
  by_cases hp : p = o
  · subst hp; simp [MemStore.world, MemStore.write, hl]
  · simp [MemStore.world, MemStore.write, hp]

theorem new (A : Allocator) (h : MemAbs s w) : dbHeaderBlockSize ≤ (s.new A b).1 ∧ w (s.new A b).1 = none ∧
      MemAbs (s.new A b).2 (w.put (s.new A b).1 b) := by
  obtain rfl := h
  refine ⟨A.valid _ _, if_neg (A.fresh s.clock s.live), ?_⟩
  · funext p
    by_cases hp : p = A.pick s.clock s.live
    · subst hp; simp [MemStore.world, MemStore.new]
    · simp [MemStore.world, MemStore.new, hp]

theorem erase (h : MemAbs s w) : MemAbs (s.erase o) (w.remove o) := by
  obtain rfl := h
  funext p
  by_cases hp : p = o
  · subst hp; simp [MemStore.world, MemStore.erase, s.nodup.mem_erase_iff]
  · simp [MemStore.world, MemStore.erase, s.nodup.mem_erase_iff, hp]

theorem setHeader {hd : BTreeHeader} (h : MemAbs s w) (ho : w o = some (.btreeHeader hd))
    (f : BTreeHeader → BTreeHeader) : Meets False (s.setHeader o f) fun s' => MemAbs s' (w.put o (.btreeHeader (f hd))) := by
  obtain ⟨-, hc⟩ := h.content_eq ho
  simp only [MemStore.setHeader, MemStore.header?, hc, Option.map_some, meets_some]
  exact h.write ho

end MemAbs

/-- **The map is a lawful store**, and its operations on live blocks never fail. -/
theorem memStore_lawful (A : Allocator) : (memStore A).Lawful False (fun _ => True) MemAbs where
  keyOk_viaTemp h := h
  keyOk_dup h _ := h
  readNode h ho := by simp [memStore, MemStore.node?, (h.content_eq ho).2]
  writeNode h ho _ := h.write ho
  newNode h _ := h.new A
  eraseNode h _ := h.erase
  readHeader h ho := by simp [memStore, MemStore.header?, (h.content_eq ho).2]
  newHeader h := h.new A
  setRoot h ho _ := h.setHeader ho _
  setLeftLeaf h ho _ := h.setHeader ho _
  setTreeSize h ho _ := h.setHeader ho _

end KVStores.Gdb
