import KVStores.Redis.Zzl

/-!
# Lists in two encodings

The functions of Redis for lists (`t_list.c`): in a ziplist, which is taken as the list of its entries, or in a linked list of objects. A pointer
to an entry or a node is its place; behind the last entry of a ziplist there is its end.

A failed assertion, and a null pointer that is used, is a fault (`none`).
-/

namespace KVStores.Redis.ListType

inductive ListObj
  | ziplist (zl : List ZipEntry)
  | linkedlist (l : List Robj)
deriving DecidableEq

/-- `list_max_ziplist_entries` and `list_max_ziplist_value`. -/
structure Config where
  listMaxZiplistEntries : ℕ
  listMaxZiplistValue : ℕ

/-- `REDIS_HEAD` and `REDIS_TAIL`. -/
inductive Where
  | head
  | tail
deriving DecidableEq

def entryObject : ZipEntry → Robj
  | .str s => .raw s
  | .int v => .int v

def listTypeLength : ListObj → ℕ
  | .ziplist zl => zl.length
  | .linkedlist l => l.length

def listIndex {α : Type} (l : List α) (index : ℤ) : Option ℕ :=
  if index < 0 then if -index - 1 < l.length then some (l.length - 1 - (-index - 1).toNat) else none
  else if index < l.length then some index.toNat else none

/-- `ziplistIndex`, whose `index` is an `int`. -/
def ziplistIndex (zl : List ZipEntry) (index : ℤ) : Option ℕ := listIndex zl (index.bmod (2 ^ 32))

/-- `listTypeConvert` to a linked list. -/
def listTypeConvert (zl : List ZipEntry) : ListObj := .linkedlist (zl.map entryObject)

def listTypeTryConversion (cfg : Config) : ListObj → Robj → ListObj
  | .ziplist zl, .raw s => if cfg.listMaxZiplistValue < s.length then listTypeConvert zl else .ziplist zl
  | subject, _ => subject

def convertLong (tooMany : ℕ → Bool) : ListObj → ListObj
  | .ziplist zl => if tooMany zl.length = true then listTypeConvert zl else .ziplist zl
  | .linkedlist l => .linkedlist l

def pushEnd {α : Type} (l : List α) (x : α) : Where → List α
  | .head => x :: l
  | .tail => l ++ [x]

def listTypePush (cfg : Config) (subject : ListObj) (value : Robj) (w : Where) : ListObj :=
  match convertLong (fun n => decide (cfg.listMaxZiplistEntries ≤ n)) (listTypeTryConversion cfg subject value) with
  | .ziplist zl => .ziplist (pushEnd zl (zipEntry (getDecodedObject value)) w)
  | .linkedlist l => .linkedlist (pushEnd l value w)

def step {α : Type} (l : List α) (p : ℕ) : Where → Option ℕ
  | .tail => if p + 1 < l.length then some (p + 1) else none
  | .head => if p = 0 then none else some (p - 1)

def listTypeInitIterator (subject : ListObj) (index : ℤ) : Option ℕ :=
  match subject with
  | .ziplist zl => ziplistIndex zl index
  | .linkedlist l => listIndex l index

/-- `listTypeNext`: the entry, and where the iterator is then. -/
def listTypeNext (subject : ListObj) (direction : Where) (li : Option ℕ) : Option (ℕ × Option ℕ) :=
  li.map fun p =>
    match subject with
    | .ziplist zl => (p, step zl p direction)
    | .linkedlist l => (p, step l p direction)

end KVStores.Redis.ListType
