import KVStores.Gdb.Store

/-!
# The B+tree operations

`btreeCreate`, `btreeSearch`, `btreeInsert`, `btreeDelete` and `btreeTraverse`
(`btree.c`, `btree_search.c`, `btree_insert.c`, `btree_delete.c`,
`btree_traverse.c`) over any `NodeStore`.

The recursions go down the tree; their fuel is one more than the number of entries the
header counts, more than the depth of any tree whose nodes all hold a key. The open
handles of a node share one block of the cache, so a handle that another part of the
code may have changed is read again from the store.
-/

namespace KVStores.Gdb

/-- An open tree: the offset of its header block and the order read from it. -/
structure BTree where
  block : Offset
  order : ℕ

namespace BTree

def minLeaf (tree : BTree) : ℕ := tree.order / 2

def minInt (tree : BTree) : ℕ := (tree.order + 1) / 2 - 1

end BTree

inductive PmAccessMode
  | error
  | readOnly
  | readWrite
  | test
deriving DecidableEq

def PmAccessMode.writes (mode : PmAccessMode) : Prop := mode ≠ .readOnly ∧ mode ≠ .test

inductive GdbStatus
  | success
  | duplicate
  | error
deriving DecidableEq

variable {σ : Type} (S : NodeStore σ)

/-- `btreeCreate`; the order it is passed is not used. -/
def btreeCreate (s : σ) : Option (BTree × σ) := do
  let (block, s) ← S.newHeader s btreeCreateHeader
  return (⟨block, btreeCreateHeader.order⟩, s)

variable (tree : BTree)

def btreeGetSize (s : σ) : Option ℕ := do return (← S.readHeader s tree.block).size

def BTreeHeader.depth (header : BTreeHeader) : ℕ := header.size + 1

/-- `__search`: the offset stored under the key, if it is found. -/
@[grind =] def search (key : CStr) : ℕ → σ → Offset → Option (Option Offset)
  | 0, _, _ => none
  | fuel + 1, s, rootOffset => do
    let rootNode ← S.readNode s tree.order rootOffset
    let i ← searchIndex key rootNode.keys rootNode.keyCount
    if rootNode.leaf then
      if ← matchesAt key rootNode.keys rootNode.keyCount i then return some (rootNode.childAt i)
      else return none
    else search key fuel s (rootNode.childAt i)

def btreeSearch (s : σ) (key : CStr) : Option Offset := do
  let header ← S.readHeader s tree.block
  if header.size = 0 then return 0
  else return (← search S tree key header.depth s header.root).getD 0

/-- What `__insertKey`, `__addKey` and `__splitNode` return and leave in `*split`, `*key`
and `*filePos`. -/
structure InsertResult where
  success : Bool
  split : Bool
  key : CStr
  filePos : Offset

def splitNode (s : σ) (offset : Offset) (rootNode : BTreeNode) (key : CStr) (filePos : Offset)
    (replaceDup : Bool) : Option (InsertResult × σ) := do
  let i ← insertIndex key rootNode.keys (tree.order - 1)
  if ← matchesAt key rootNode.keys (tree.order - 1) i then
    if replaceDup && rootNode.leaf then
      let s ← S.writeNode s tree.order offset (rootNode.setChild i filePos)
      return (⟨false, false, key, filePos⟩, s)
    else
      return (⟨false, false, key, filePos⟩, s)
  else
    let (promoted, left, right) ←
      splitDivide tree.order rootNode.leaf (splitInsert tree.order rootNode key filePos i)
    let (newPos, s) ← S.newNode s tree.order right
    let left := if rootNode.leaf then left.setChild left.keyCount newPos else left
    let s ← S.writeNode s tree.order offset left
    return (⟨true, true, promoted, newPos⟩, s)

/-- `__addKey` if the node has room for the entry, else `__splitNode`. -/
def addOrSplit (s : σ) (offset : Offset) (rootNode : BTreeNode) (key : CStr) (filePos : Offset)
    (replaceDup : Bool) : Option (InsertResult × σ) :=
  if rootNode.keyCount < tree.order - 1 then do
    let (success, written) ← addKey rootNode key filePos replaceDup
    match written with
    | some node => do
      let s ← S.writeNode s tree.order offset node
      return (⟨success, false, key, filePos⟩, s)
    | none => return (⟨success, false, key, filePos⟩, s)
  else splitNode S tree s offset rootNode key filePos replaceDup

@[grind =] def insertKey (replaceDup : Bool) : ℕ → σ → Offset → CStr → Offset → Option (InsertResult × σ)
  | 0, _, _, _, _ => none
  | fuel + 1, s, rootOffset, key, filePos => do
    if rootOffset < dbHeaderBlockSize then none
    let rootNode ← S.readNode s tree.order rootOffset
    if rootNode.leaf then addOrSplit S tree s rootOffset rootNode key filePos replaceDup
    else
      let i ← insertIndex key rootNode.keys rootNode.keyCount
      let (r, s) ← insertKey replaceDup fuel s (rootNode.childAt i) key filePos
      if r.success && r.split then
        let (r', s) ← addOrSplit S tree s rootOffset rootNode r.key r.filePos replaceDup
        return ({ r' with success := r.success }, s)
      else
        return (r, s)

/-- The new root that `btreeInsert` makes for an empty tree or above a split root. -/
def newRoot (root : Offset) (key : CStr) (filePos : Offset) : BTreeNode :=
  let node := btreeCreateNodeBlock tree.order (root = 0)
  let node := (node.setKey 0 (dupKey key)).setCount 1
  if root = 0 then node.setChild 0 filePos else (node.setChild 0 root).setChild 1 filePos

/-- `btreeInsert`, on a writable database, after the arguments and the mode are checked. -/
def insertEntry (s : σ) (key : CStr) (filePos : Offset) (replaceDup : Bool) :
    Option (GdbStatus × σ) := do
  let header ← S.readHeader s tree.block
  let (r, s) ←
    if header.root ≠ 0 then insertKey S tree replaceDup header.depth s header.root key filePos
    else some (⟨true, false, key, filePos⟩, s)
  if r.success = false then
    return (if replaceDup then .success else .duplicate, s)
  else
    let s ← S.setTreeSize s tree.block (header.size + 1)
    if header.root = 0 ∨ r.split = true then
      let (offset, s) ← S.newNode s tree.order (newRoot tree header.root r.key r.filePos)
      let s ← if header.root = 0 then S.setLeftLeaf s tree.block offset else some s
      let s ← S.setRoot s tree.block offset
      return (.success, s)
    else
      return (.success, s)

def btreeInsert (mode : PmAccessMode) (s : σ) (key : CStr) (filePos : Offset) (replaceDup : Bool) :
    Option (GdbStatus × σ) :=
  if filePos = 0 ∨ mode = .readOnly then some (.error, s)
  else if mode = .test then do
    if !replaceDup && (← btreeSearch S tree s key) != 0 then return (.duplicate, s)
    else return (.success, s)
  else insertEntry S tree s key filePos replaceDup

/-- `__mergeNode` on the block `rootOffset`. -/
def mergeNode (s : σ) (rootOffset prevOffset : Offset) (rootNode prevNode : BTreeNode) (div : ℕ) :
    Option σ :=
  if 0 < div then do
    let nodeOffset := prevNode.childAt (div - 1)
    let node ← S.readNode s tree.order nodeOffset
    let node ← mergeLeft rootNode prevNode node div
    let s ← S.writeNode s tree.order nodeOffset node
    let s ← S.eraseNode s rootOffset
    S.writeNode s tree.order prevOffset (removeKey2 (prevNode.setChild div nodeOffset) (div - 1))
  else do
    let nodeOffset := prevNode.childAt (div + 1)
    let node ← S.readNode s tree.order nodeOffset
    let rootNode ← mergeRight rootNode prevNode node div
    let s ← S.eraseNode s nodeOffset
    let s ← S.writeNode s tree.order prevOffset (removeKey2 (prevNode.setChild (div + 1) rootOffset) div)
    S.writeNode s tree.order rootOffset rootNode

def writeSiblings (s : σ) (rootOffset prevOffset nodeOffset : Offset) (b : Siblings) : Option σ := do
  let s ← S.writeNode s tree.order nodeOffset b.node
  let s ← S.writeNode s tree.order rootOffset b.rootNode
  S.writeNode s tree.order prevOffset b.prevNode

/-- The sibling at position `i` of `prevNode` and what `borrow` makes of it; no sibling is
read unless `has` holds. -/
def borrowFrom (s : σ) (prevNode : BTreeNode) (i : ℕ) (has : Bool)
    (borrow : BTreeNode → Option (Option Siblings)) : Option (Option (Offset × Siblings)) :=
  if has then do
    let node ← S.readNode s tree.order (prevNode.childAt i)
    return (← borrow node).map fun b => (prevNode.childAt i, b)
  else some none

/-- The end of `__delete`: an underfull node borrows from a sibling or is merged with one.
Returns `*merged`. -/
def rebalance (s : σ) (rootOffset : Offset) (rootNode : BTreeNode) (prevOffset : Offset) (index : ℕ) :
    Option (Bool × σ) := do
  let prevNode ← S.readNode s tree.order prevOffset
  match ← borrowFrom S tree s prevNode (index + 1) (index < prevNode.keyCount)
      (borrowRight tree.minLeaf tree.minInt rootNode prevNode · index) with
  | some (nodeOffset, b) => return (false, ← writeSiblings S tree s rootOffset prevOffset nodeOffset b)
  | none =>
    match ← borrowFrom S tree s prevNode (index - 1) (0 < index)
        (borrowLeft tree.minLeaf tree.minInt rootNode prevNode · index) with
    | some (nodeOffset, b) => return (false, ← writeSiblings S tree s rootOffset prevOffset nodeOffset b)
    | none => return (true, ← mergeNode S tree s rootOffset prevOffset rootNode prevNode index)

/-- What `__delete` returns and leaves in `*filePos` and `*merged`. -/
structure DeleteResult where
  success : Bool
  filePos : Offset
  merged : Bool

/-- `__delete`; `treeRoot` is `tree->root`, and the root has no `prevNode`. -/
@[grind =] def deleteKey (treeRoot : Offset) (key : CStr) :
    ℕ → σ → Offset → Option Offset → ℕ → Bool → Option (DeleteResult × σ)
  | 0, _, _, _, _, _ => none
  | fuel + 1, s, rootOffset, prevOffset, index, merged => do
    let rootNode ← S.readNode s tree.order rootOffset
    let (r, s) ←
      if rootNode.leaf then
        match ← removeKey rootNode key with
        | some (filePos, node) =>
          let s ← S.writeNode s tree.order rootOffset node
          pure (⟨true, filePos, merged⟩, s)
        | none => pure (⟨false, 0, merged⟩, s)
      else
        let i ← searchIndex key rootNode.keys rootNode.keyCount
        deleteKey treeRoot key fuel s (rootNode.childAt i) (some rootOffset) i merged
    if r.success = false then return (r, s)
    else
      let rootNode ← S.readNode s tree.order rootOffset
      if rootOffset = treeRoot ∨
          (if rootNode.leaf then tree.minLeaf else tree.minInt) ≤ rootNode.keyCount then
        return (r, s)
      else
        let (merged, s) ← rebalance S tree s rootOffset rootNode (← prevOffset) index
        return ({ r with merged }, s)

/-- `btreeDelete`, on a writable database. -/
def deleteEntry (s : σ) (key : CStr) : Option (Offset × σ) := do
  let header ← S.readHeader s tree.block
  let rootNode ← S.readNode s tree.order header.root
  let i ← searchIndex key rootNode.keys rootNode.keyCount
  let (r, s) ← deleteKey S tree header.root key header.depth s header.root none i false
  if r.success = false then return (0, s)
  else
    let s ← S.setTreeSize s tree.block (header.size - 1)
    let rootNode ← S.readNode s tree.order header.root
    if rootNode.leaf ∧ rootNode.keyCount = 0 then
      let s ← S.setRoot s tree.block 0
      let s ← S.eraseNode s header.root
      return (r.filePos, s)
    else if r.merged ∧ rootNode.keyCount = 0 then
      let newRoot := rootNode.childAt 0
      let s ← S.setRoot s tree.block newRoot
      let tempNode ← S.readNode s tree.order newRoot
      let s ← S.writeNode s tree.order newRoot tempNode
      let s ← S.eraseNode s header.root
      return (r.filePos, s)
    else
      return (r.filePos, s)

def btreeDelete (mode : PmAccessMode) (s : σ) (key : CStr) : Option (Offset × σ) :=
  if mode = .readOnly then some (0, s)
  else if mode = .test then do return (← btreeSearch S tree s key, s)
  else deleteEntry S tree s key

/-- `(offset_t)-1`. -/
def noOffset : Offset := 4294967295

/-- `btreeGetNextOffset` with an open node: the offset, and the node and position after it. -/
def btreeGetNextOffset (s : σ) (node : BTreeNode) (pos : ℕ) : Option (Offset × BTreeNode × ℕ) := do
  if pos = node.keyCount then
    let nextNodeOffset ← node.children[pos]?
    if nextNodeOffset = 0 then return (noOffset, node, pos)
    if nextNodeOffset < dbHeaderBlockSize then none
    let node ← S.readNode s tree.order nextNodeOffset
    return (← node.children[0]?, node, 1)
  else
    return (← node.children[pos]?, node, pos + 1)

/-- The loop of `btreeTraverse`: the offsets `process` is called with. -/
@[grind =] def traverseLoop (s : σ) : ℕ → Offset → BTreeNode → ℕ → Option (List Offset)
  | 0, _, _, _ => none
  | fuel + 1, offset, node, pos =>
    if offset = noOffset then some []
    else do
      let (next, node, pos) ← btreeGetNextOffset S tree s node pos
      return offset :: (← traverseLoop s fuel next node pos)

def btreeTraverse (fuel : ℕ) (s : σ) : Option (List Offset) := do
  let header ← S.readHeader s tree.block
  if header.leftLeaf < dbHeaderBlockSize then return []
  else
    let node ← S.readNode s tree.order header.leftLeaf
    traverseLoop S tree s fuel (← node.children[0]?) node 1

end KVStores.Gdb
