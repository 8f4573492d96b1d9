import KVStores.Gdb.Strings

/-!
# B+tree nodes and the in-memory node operations

The arrays of a node and what `__addKey`, `__splitNode`, `__removeKey`,
`__removeKey2`, `__borrowRight`, `__borrowLeft` and `__mergeNode` do to them
(`btree_insert.c`, `btree_delete.c`). Reading and writing node blocks is left to
the callers; every function here maps nodes to nodes.

A key slot holds a key or none: none stands for a NULL pointer and for a pointer
that has been passed to `free` and not reassigned. Comparing or duplicating the key
of such a slot does not return (`none`).
-/

namespace KVStores.Gdb

/-- `offset_t`. -/
abbrev Offset := ℕ

/-- One entry of the parallel arrays `keys` and `keySizes`. -/
structure KeySlot where
  key : Option CStr
  keySize : ℕ
deriving DecidableEq

def KeySlot.null : KeySlot := ⟨none, 0⟩

/-- What a size becomes on its way through a `char` temporary (`tempSize1`,
`tempSize2`) back into an `unsigned short`. -/
def charSize (size : ℕ) : ℕ :=
  if size % 256 < 128 then size % 256 else size % 256 + 65280

/-- A slot moved through the temporaries `temp1` and `tempSize1`. -/
def KeySlot.viaTemp (s : KeySlot) : KeySlot := { s with keySize := charSize s.keySize }

/-- `strdup(key)` with `strlen(key) + 1` as its size. -/
def dupKey (key : CStr) : KeySlot := ⟨some key, (key.strlen + 1) % 65536⟩

/-- A node as read from its block; `leaf` is the block's `BTREE_FLAG_LEAF`. `keys`
has `order - 1` slots and `children` has `order`; in a leaf `children[keyCount]` is
the next leaf. -/
@[ext] structure BTreeNode where
  leaf : Bool
  keyCount : ℕ
  keys : List KeySlot
  children : List Offset
deriving DecidableEq

/-- The slot `keys[i]`, `keySizes[i]`. -/
def BTreeNode.keyAt (n : BTreeNode) (i : ℕ) : KeySlot := n.keys.getD i .null

/-- `children[i]`. -/
def BTreeNode.childAt (n : BTreeNode) (i : ℕ) : Offset := n.children.getD i 0

/-- `btreeCreateNodeBlock`: all arrays zeroed. -/
def btreeCreateNodeBlock (order : ℕ) (leaf : Bool) : BTreeNode where
  leaf := leaf
  keyCount := 0
  keys := List.replicate (order - 1) .null
  children := List.replicate order 0

/-- `for (; i < i + n && skip(keys[i]); i++)`: the first of the `n` slots from `i` on
whose key is not skipped. -/
@[grind =] def scanKeys (skip : CStr → Bool) (keys : List KeySlot) : ℕ → ℕ → Option ℕ
  | 0, i => some i
  | n + 1, i =>
    match (keys.getD i .null).key with
    | none => none
    | some k => if skip k then scanKeys skip keys n (i + 1) else some i

/-- The loop of the insertion code: `strcmp(*key, keys[i]) > 0`. -/
def insertIndex (key : CStr) (keys : List KeySlot) (n : ℕ) : Option ℕ :=
  scanKeys (fun k => 0 < strcmp key k) keys n 0

/-- The loop of the search and deletion code: `strcmp(keys[i], key) < 0`. -/
def searchIndex (key : CStr) (keys : List KeySlot) (n : ℕ) : Option ℕ :=
  scanKeys (fun k => strcmp k key < 0) keys n 0

/-- `i < n && strcmp(key, keys[i]) == 0`. -/
def matchesAt (key : CStr) (keys : List KeySlot) (n i : ℕ) : Option Bool :=
  if i < n then (keys.getD i .null).key.map fun k => decide (strcmp key k = 0) else some false

/-- `for (; n > 0; i++, n--) { temp2 = a[i]; a[i] = temp1; temp1 = temp2; }`: moves `n`
entries one place up; `load` is what reading an entry into the temporary does to it. -/
@[grind =] def shiftUp {α : Type} (load : α → α) (null : α) : ℕ → ℕ → α → List α → List α × α
  | 0, _, temp, a => (a, temp)
  | n + 1, i, temp, a => shiftUp load null n (i + 1) (load (a.getD i null)) (a.set i temp)

/-- `for (; n > 0; i++, n--) a[i] = a[i + 1];`. -/
@[grind =] def shiftDown {α : Type} (null : α) : ℕ → ℕ → List α → List α
  | 0, _, a => a
  | n + 1, i, a => shiftDown null n (i + 1) (a.set i (a.getD (i + 1) null))

/-- `for (i = n; i > 0; i--) a[d + i] = a[d + i - 1];`. -/
@[grind =] def pushUp {α : Type} (null : α) (d : ℕ) : ℕ → List α → List α
  | 0, a => a
  | i + 1, a => pushUp null d i (a.set (d + (i + 1)) (a.getD (d + i) null))

/-- `__addKey` on a node with room. Returns its result and the node it writes, if it
writes one. -/
def addKey (node : BTreeNode) (key : CStr) (filePos : Offset) (replaceDup : Bool) :
    Option (Bool × Option BTreeNode) := do
  let i ← insertIndex key node.keys node.keyCount
  if ← matchesAt key node.keys node.keyCount i then
    if replaceDup && node.leaf then
      return (false, some { node with children := node.children.set i filePos })
    else
      return (false, none)
  else
    let keyCount := node.keyCount + 1
    if i < keyCount then
      let temp1 := (node.keyAt i).viaTemp
      let keys := (shiftUp KeySlot.viaTemp .null (keyCount - (i + 1)) (i + 1) temp1
        (node.keys.set i (dupKey key))).1
      let j := if node.leaf then i else i + 1
      let offset1 := node.childAt j
      let children := (shiftUp id 0 (keyCount - j) (j + 1) offset1 (node.children.set j filePos)).1
      return (true, some { node with keyCount, keys, children })
    else
      let keys := node.keys.set i (dupKey key)
      let children :=
        if node.leaf then (node.children.set (i + 1) (node.childAt i)).set i filePos
        else node.children.set (i + 1) filePos
      return (true, some { node with keyCount, keys, children })

/-- A full node with one entry too many: the arrays, and the entry that fell off. -/
structure Overflow where
  keys : List KeySlot
  children : List Offset
  temp1 : KeySlot
  offset1 : Offset

/-- First half of `__splitNode`: the new entry is put at position `i`. -/
def splitInsert (order : ℕ) (node : BTreeNode) (key : CStr) (filePos : Offset) (i : ℕ) : Overflow :=
  if i < order - 1 then
    let (keys, temp1) := shiftUp KeySlot.viaTemp .null (order - 1 - (i + 1)) (i + 1)
      (node.keyAt i).viaTemp (node.keys.set i (dupKey key))
    let j := if node.leaf then i else i + 1
    let (children, offset1) := shiftUp id 0 (order - 1 - j) (j + 1) (node.childAt j)
      (node.children.set j filePos)
    { keys, children, temp1, offset1 }
  else if node.leaf then
    { keys := node.keys, children := node.children.set (order - 1) filePos,
      temp1 := (dupKey key).viaTemp, offset1 := node.childAt (order - 1) }
  else
    { keys := node.keys, children := node.children,
      temp1 := (dupKey key).viaTemp, offset1 := filePos }

def moveEntry (rootNode tempNode : BTreeNode) (i j : ℕ) : BTreeNode × BTreeNode :=
  ({ rootNode with keys := rootNode.keys.set i .null, children := rootNode.children.set i 0 },
    { tempNode with
      keys := tempNode.keys.set j (rootNode.keyAt i)
      children := tempNode.children.set j (rootNode.childAt i) })

/-- `for (j = 0; j < tempNode->keyCount - 1; j++, i++)`. -/
@[grind =] def moveEntries : ℕ → ℕ → ℕ → BTreeNode → BTreeNode → BTreeNode × BTreeNode
  | 0, _, _, rootNode, tempNode => (rootNode, tempNode)
  | n + 1, i, j, rootNode, tempNode =>
    let (rootNode, tempNode) := moveEntry rootNode tempNode i j
    moveEntries n (i + 1) (j + 1) rootNode tempNode

/-- Where `__splitNode` cuts. -/
def splitPoint (order : ℕ) (leaf : Bool) : ℕ :=
  if leaf then (order + 1) / 2 - 1 else order / 2

/-- Second half of `__splitNode`: the promoted key, the new right node and what stays
of the old one (before a leaf is linked to its new neighbour). -/
def splitDivide (order : ℕ) (leaf : Bool) (o : Overflow) : Option (CStr × BTreeNode × BTreeNode) := do
  let div := splitPoint order leaf
  let key ← (o.keys.getD div .null).key
  let count := order - 1 - div
  let rootNode : BTreeNode := ⟨leaf, order - 1, o.keys, o.children⟩
  let tempNode := { btreeCreateNodeBlock order leaf with keyCount := count }
  let (rootNode, tempNode) := moveEntries (count - 1) (div + 1) 0 rootNode tempNode
  let i := div + 1 + (count - 1)
  let j := count - 1
  let tempNode := { tempNode with
    keys := tempNode.keys.set j o.temp1
    children := (tempNode.children.set j (rootNode.childAt i)).set (j + 1) o.offset1 }
  let rootNode := { rootNode with children := rootNode.children.set i 0 }
  if leaf then
    return (key, { rootNode with keyCount := div + 1 }, tempNode)
  else
    return (key, { rootNode with keyCount := div, keys := rootNode.keys.set div .null }, tempNode)

def removeKey2 (node : BTreeNode) (index : ℕ) : BTreeNode :=
  let n := node.keyCount - 1 - index
  let i := index + n
  let children := shiftDown 0 n index node.children
  { node with
    keyCount := node.keyCount - 1
    keys := (shiftDown .null n index node.keys).set i .null
    children := (children.set i (children.getD (i + 1) 0)).set (i + 1) 0 }

/-- `__removeKey` on a leaf: the offset stored under `key` and the leaf without it.
The shifting is that of `__removeKey2`. -/
def removeKey (node : BTreeNode) (key : CStr) : Option (Option (Offset × BTreeNode)) := do
  let i ← searchIndex key node.keys node.keyCount
  if ← matchesAt key node.keys node.keyCount i then
    if node.leaf then return some (node.childAt i, removeKey2 node i) else return none
  else
    return none

/-- `strdup(keys[i])` with its size. -/
def BTreeNode.dupAt (n : BTreeNode) (i : ℕ) : Option KeySlot :=
  (n.keyAt i).key.map fun k => ⟨some k, (n.keyAt i).keySize⟩

/-- `free(keys[i])` where the slot is not reassigned. -/
def BTreeNode.freeAt (n : BTreeNode) (i : ℕ) : BTreeNode :=
  { n with keys := n.keys.set i ⟨none, (n.keyAt i).keySize⟩ }

/-- `keys[i] = ...; keySizes[i] = ...`. -/
def BTreeNode.setKey (n : BTreeNode) (i : ℕ) (k : KeySlot) : BTreeNode :=
  { n with keys := n.keys.set i k }

/-- `children[i] = ...`. -/
def BTreeNode.setChild (n : BTreeNode) (i : ℕ) (o : Offset) : BTreeNode :=
  { n with children := n.children.set i o }

/-- `keyCount = ...`. -/
def BTreeNode.setCount (n : BTreeNode) (count : ℕ) : BTreeNode := { n with keyCount := count }

structure Siblings where
  rootNode : BTreeNode
  prevNode : BTreeNode
  node : BTreeNode

/-- `__borrowRight` once the right sibling `node` is read. The `free` before the
parent's separator is reassigned is applied to `rootNode->keys[div]`. -/
def borrowRight (minLeaf minInt : ℕ) (rootNode prevNode node : BTreeNode) (div : ℕ) :
    Option (Option Siblings) := do
  let n := rootNode.keyCount
  if node.leaf ∧ minLeaf < node.keyCount then
    let rootNode := rootNode.setChild (n + 1) (rootNode.childAt n)
    let rootNode := (rootNode.setKey n (← node.dupAt 0)).setChild n (node.childAt 0)
    let rootNode := rootNode.freeAt div
    let prevNode := prevNode.setKey div (← rootNode.dupAt n)
    return some ⟨rootNode.setCount (n + 1), prevNode, removeKey2 node 0⟩
  else if ¬node.leaf ∧ minInt < node.keyCount then
    let rootNode := rootNode.setKey n (← prevNode.dupAt div)
    let rootNode := rootNode.freeAt div
    let prevNode := prevNode.setKey div (← node.dupAt 0)
    let rootNode := rootNode.setChild (n + 1) (node.childAt 0)
    return some ⟨rootNode.setCount (n + 1), prevNode, removeKey2 node 0⟩
  else
    return none

/-- The two loops of `__borrowLeft` that make room at the front of `rootNode`. -/
def BTreeNode.makeRoom (n : BTreeNode) : BTreeNode :=
  { n with
    keys := pushUp .null 0 n.keyCount n.keys
    children :=
      let children := pushUp 0 1 n.keyCount n.children
      children.set 1 (children.getD 0 0) }

/-- `__borrowLeft` once the left sibling `node` is read. -/
def borrowLeft (minLeaf minInt : ℕ) (rootNode prevNode node : BTreeNode) (div : ℕ) :
    Option (Option Siblings) := do
  let m := node.keyCount
  if node.leaf ∧ minLeaf < m then
    let rootNode := rootNode.makeRoom
    let rootNode := (rootNode.setKey 0 (← node.dupAt (m - 1))).setChild 0 (node.childAt (m - 1))
    let prevNode := prevNode.setKey (div - 1) (← node.dupAt (m - 2))
    let node := (node.setChild (m - 1) (node.childAt m)).setChild m 0
    let node := node.setKey (m - 1) .null
    return some ⟨rootNode.setCount (rootNode.keyCount + 1), prevNode, node.setCount (m - 1)⟩
  else if ¬node.leaf ∧ minInt < m then
    let rootNode := rootNode.makeRoom
    let rootNode := (rootNode.setKey 0 (← prevNode.dupAt (div - 1))).setChild 0 (node.childAt m)
    let prevNode := prevNode.setKey (div - 1) (← node.dupAt (m - 1))
    let node := (node.setChild m 0).setKey (m - 1) .null
    return some ⟨rootNode.setCount (rootNode.keyCount + 1), prevNode, node.setCount (m - 1)⟩
  else
    return none

/-- The loop of the left merge: `node` takes the entries of `rootNode` from `j` on. -/
@[grind =] def mergeLoopLeft : ℕ → ℕ → ℕ → BTreeNode → BTreeNode → Option BTreeNode
  | 0, _, _, node, _ => some node
  | n + 1, i, j, node, rootNode => do
    let node := (node.setKey i (← rootNode.dupAt j)).setChild i (rootNode.childAt j)
    mergeLoopLeft n (i + 1) (j + 1) (node.setCount (node.keyCount + 1)) rootNode

/-- `__mergeNode` with the left sibling `node`: the merged node. -/
def mergeLeft (rootNode prevNode node : BTreeNode) (div : ℕ) : Option BTreeNode := do
  let i := node.keyCount
  if ¬rootNode.leaf then
    let node := node.setKey i (← prevNode.dupAt (div - 1))
    let node ← mergeLoopLeft rootNode.keyCount (i + 1) 0 (node.setCount (i + 1)) rootNode
    return node.setChild (i + 1 + rootNode.keyCount) (rootNode.childAt rootNode.keyCount)
  else
    let node ← mergeLoopLeft rootNode.keyCount i 0 node rootNode
    return node.setChild (i + rootNode.keyCount) (rootNode.childAt rootNode.keyCount)

/-- The loop of the right merge: `rootNode` takes the entries of `node`. Each step
frees `node->keys[i]`, not `rootNode->keys[i]`, before it copies `node->keys[j]`. -/
@[grind =] def mergeLoopRight : ℕ → ℕ → ℕ → BTreeNode → BTreeNode → Option BTreeNode
  | 0, _, _, rootNode, _ => some rootNode
  | n + 1, i, j, rootNode, node => do
    let node := node.freeAt i
    let rootNode := (rootNode.setKey i (← node.dupAt j)).setChild i (node.childAt j)
    mergeLoopRight n (i + 1) (j + 1) (rootNode.setCount (rootNode.keyCount + 1)) node

/-- `__mergeNode` with the right sibling `node`: the merged node. -/
def mergeRight (rootNode prevNode node : BTreeNode) (div : ℕ) : Option BTreeNode := do
  let i := rootNode.keyCount
  if ¬rootNode.leaf then
    let node := node.freeAt i
    let rootNode := rootNode.setKey i (← prevNode.dupAt div)
    let rootNode ← mergeLoopRight node.keyCount (i + 1) 0 (rootNode.setCount (i + 1)) node
    return rootNode.setChild (i + 1 + node.keyCount) (node.childAt node.keyCount)
  else
    let rootNode ← mergeLoopRight node.keyCount i 0 rootNode node
    return rootNode.setChild (i + node.keyCount) (node.childAt node.keyCount)

end KVStores.Gdb
