import KVStores.Redis.ListType

/-!
# Hashes in two encodings

The functions of Redis for hashes (`t_hash.c`). A hash is a ziplist, a field and its value in turn, as long as it is small, and a dict from
then on. A ziplist is the list of its entries, and a pointer to an entry its place; a dict is the list of its entries in some order.

A failed assertion, and a panic, is a fault (`none`).
-/

namespace KVStores.Redis.HashType

open ListType (entryObject ziplistIndex)

/-- `hashDictType`, which compares strings. -/
abbrev Dict := List (Robj × Robj)

/-- `dictFind`: the value. -/
def dictFind (d : Dict) (key : Robj) : Option Robj := (d.find? fun e => dictEncObjKeyCompare key e.1).map Prod.snd

/-- `dictAdd`, if the key is new. -/
def dictAdd (d : Dict) (key val : Robj) : Option Dict := if (dictFind d key).isSome = true then none else some ((key, val) :: d)

/-- `dictSetVal` of the entry that `dictFind` gives. -/
@[grind =] def dictSetVal (val key : Robj) : Dict → Dict
  | [] => []
  | e :: d => if dictEncObjKeyCompare key e.1 = true then (e.1, val) :: d else e :: dictSetVal val key d

/-- `dictReplace`: the dict, and whether the key is new. -/
def dictReplace (d : Dict) (key val : Robj) : Dict × Bool := (dictAdd d key val).elim (dictSetVal val key d, false) fun d => (d, true)

/-- `dictDelete`, if the key is there. -/
def dictDelete (d : Dict) (key : Robj) : Option Dict :=
  if (dictFind d key).isSome = true then some (d.eraseP fun e => dictEncObjKeyCompare key e.1) else none

/-- What `ziplistFind` knows of the string it looks for (`vencoding`, `vll`): nothing yet, that it is no number, or the number. -/
inductive Vencoding
  | unknown
  | none
  | int (vll : Long)
deriving DecidableEq

/-- `zipTryEncoding`, unless it has been tried. -/
def Vencoding.try (vstr : List UInt8) : Vencoding → Vencoding
  | .unknown => (zipTryEncoding vstr).elim .none .int
  | v => v

/-- The loop of `ziplistFind` at the place `p`, over the entries from there on. -/
@[grind =] def ziplistFindLoop (vstr : List UInt8) (skip : ℕ) : ℕ → ℕ → Vencoding → List ZipEntry → Option ℕ
  | _, _, _, [] => none
  | p, 0, venc, .str s :: rest => if s = vstr then some p else ziplistFindLoop vstr skip (p + 1) skip venc rest
  | p, 0, venc, .int ll :: rest =>
    if venc.try vstr = .int ll then some p else ziplistFindLoop vstr skip (p + 1) skip (venc.try vstr) rest
  | p, skipcnt + 1, venc, _ :: rest => ziplistFindLoop vstr skip (p + 1) skipcnt venc rest

/-- `ziplistFind` from the head of a ziplist, if it has one. -/
def findField (zl : List ZipEntry) (field : List UInt8) : Option ℕ :=
  (ziplistIndex zl 0).bind fun fptr => ziplistFindLoop field 1 fptr 0 .unknown (zl.drop fptr)

/-- `hash_max_ziplist_entries` and `hash_max_ziplist_value`. -/
structure Server where
  hashMaxZiplistEntries : ℕ
  hashMaxZiplistValue : ℕ

/-- `REDIS_ENCODING_ZIPLIST` and `REDIS_ENCODING_HT`. -/
inductive Encoding
  | ziplist
  | ht
deriving DecidableEq

inductive HashObj
  | ziplist (zl : List ZipEntry)
  | ht (d : Dict)
deriving DecidableEq

def createHashObject : HashObj := .ziplist []

def hashTypeGetFromZiplist (zl : List ZipEntry) (field : Robj) : Option (Option ZipEntry) :=
  match findField zl (getDecodedObject field) with
  | none => some none
  | some fptr => (ziplistNext zl fptr).bind fun vptr => zl[vptr]?.map some

def hashTypeGetObject (o : HashObj) (field : Robj) : Option (Option Robj) :=
  match o with
  | .ziplist zl => (hashTypeGetFromZiplist zl field).map fun v => v.map entryObject
  | .ht d => some (dictFind d field)

def hashTypeExists (o : HashObj) (field : Robj) : Option Bool :=
  match o with
  | .ziplist zl => (hashTypeGetFromZiplist zl field).map Option.isSome
  | .ht d => some (dictFind d field).isSome

def hashTypeLength : HashObj → ℕ
  | .ziplist zl => zl.length / 2
  | .ht d => d.length

/-- `fptr` and `vptr` of a `hashTypeIterator`. -/
structure Iterator where
  fptr : Option ℕ
  vptr : Option ℕ

/-- `hashTypeNext` on a ziplist; `some none` at the end. -/
def hashTypeNext (zl : List ZipEntry) (hi : Iterator) : Option (Option Iterator) :=
  let step (fptr : Option ℕ) : Option (Option Iterator) :=
    match fptr with
    | none => some none
    | some fptr => (ziplistNext zl fptr).map fun vptr => some ⟨some fptr, some vptr⟩
  match hi.fptr, hi.vptr with
  | none, none => step (ziplistIndex zl 0)
  | some _, some vptr => step (ziplistNext zl vptr)
  | _, _ => none

/-- `hashTypeCurrentObject`, of the field and of the value. -/
def hashTypeCurrent (zl : List ZipEntry) (hi : Iterator) : Option (Robj × Robj) :=
  hi.fptr.bind fun fptr => hi.vptr.bind fun vptr => zl[fptr]?.bind fun f => zl[vptr]?.map fun v => (entryObject f, entryObject v)

@[grind =] def iterateLoop (zl : List ZipEntry) : ℕ → Iterator → Option (List (Robj × Robj))
  | 0, _ => none
  | fuel + 1, hi =>
    (hashTypeNext zl hi).bind fun next =>
      match next with
      | none => some []
      | some hi => (hashTypeCurrent zl hi).bind fun e => (iterateLoop zl fuel hi).map (e :: ·)

def hashTypeIterate : HashObj → Option (List (Robj × Robj))
  | .ziplist zl => iterateLoop zl (zl.length + 1) ⟨none, none⟩
  | .ht d => some d

/-- The loop of `hashTypeConvertZiplist`: each pair is encoded and added, and that its field is new is asserted. -/
@[grind =] def addAll : List (Robj × Robj) → Dict → Option Dict
  | [], d => some d
  | e :: l, d => (dictAdd d (tryObjectEncoding false e.1) (tryObjectEncoding false e.2)).bind (addAll l)

/-- `hashTypeConvert`. From a dict nothing is converted: it panics. -/
def hashTypeConvert (o : HashObj) (enc : Encoding) : Option HashObj :=
  match o, enc with
  | .ziplist zl, .ziplist => some (.ziplist zl)
  | .ziplist zl, .ht => (hashTypeIterate (.ziplist zl)).bind fun l => (addAll l []).map .ht
  | .ht _, _ => none

def tooLong (server : Server) : Robj → Bool
  | .raw s => decide (server.hashMaxZiplistValue < s.length)
  | .int _ => false

def hashTypeTryConversion (server : Server) (o : HashObj) (argv : List Robj) : Option HashObj :=
  match o with
  | .ht d => some (.ht d)
  | .ziplist zl => if argv.any (tooLong server) = true then hashTypeConvert (.ziplist zl) .ht else some (.ziplist zl)

/-- What `hashTypeSet` does to a ziplist: the ziplist, and whether it is an update. -/
def setInZiplist (zl : List ZipEntry) (field value : List UInt8) : Option (List ZipEntry × Bool) :=
  match findField zl field with
  | some fptr => (ziplistNext zl fptr).map fun vptr => ((zl.eraseIdx vptr).insertIdx vptr (zipEntry value), true)
  | none => some (zl ++ [zipEntry field] ++ [zipEntry value], false)

/-- `hashTypeSet`: the hash, and 0 on insert and 1 on update. -/
def hashTypeSet (server : Server) (o : HashObj) (field value : Robj) : Option (HashObj × ℕ) :=
  match o with
  | .ziplist zl =>
    (setInZiplist zl (getDecodedObject field) (getDecodedObject value)).bind fun r =>
      if server.hashMaxZiplistEntries < hashTypeLength (.ziplist r.1) then (hashTypeConvert (.ziplist r.1) .ht).map fun o => (o, r.2.toNat)
      else some (.ziplist r.1, r.2.toNat)
  | .ht d => some (.ht (dictReplace d field value).1, if (dictReplace d field value).2 = true then 0 else 1)

/-- `hashTypeDelete`: the hash, and 1 on deleted and 0 on not found. -/
def hashTypeDelete (o : HashObj) (field : Robj) : HashObj × ℕ :=
  match o with
  | .ziplist zl =>
    match findField zl (getDecodedObject field) with
    | some fptr => (.ziplist ((zl.eraseIdx fptr).eraseIdx fptr), 1)
    | none => (.ziplist zl, 0)
  | .ht d => (dictDelete d field).elim (.ht d, 0) fun d => (.ht d, 1)

/-- A call. Its caller has a hash converted only when it is a ziplist. -/
inductive Call
  | set (field value : Robj)
  | delete (field : Robj)
  | getObject (field : Robj)
  | exists (field : Robj)
  | length
  | iterate
  | tryConversion (argv : List Robj)
  | convert (enc : Encoding)

inductive Returned
  | int (n : ℕ)
  | value (v : Option (List UInt8))
  | pairs (l : List (List UInt8 × List UInt8))
  | void

def decodePair (e : Robj × Robj) : List UInt8 × List UInt8 := (getDecodedObject e.1, getDecodedObject e.2)

@[grind =] def Call.exec (server : Server) (o : HashObj) : Call → Option (HashObj × Returned)
  | .set field value => (hashTypeSet server o field value).map fun r => (r.1, .int r.2)
  | .delete field => some ((hashTypeDelete o field).1, .int (hashTypeDelete o field).2)
  | .getObject field => (hashTypeGetObject o field).map fun v => (o, .value (v.map getDecodedObject))
  | .exists field => (hashTypeExists o field).map fun b => (o, .int b.toNat)
  | .length => some (o, .int (hashTypeLength o))
  | .iterate => (hashTypeIterate o).map fun l => (o, .pairs (l.map decodePair))
  | .tryConversion argv => (hashTypeTryConversion server o argv).map fun o => (o, .void)
  | .convert enc =>
    match o with
    | .ziplist zl => (hashTypeConvert (.ziplist zl) enc).map fun o => (o, .void)
    | .ht d => some (.ht d, .void)

@[grind =] def runCalls : List (Server × Call) → HashObj → Option (HashObj × List Returned)
  | [], o => some (o, [])
  | (server, call) :: calls, o => (call.exec server o).bind fun r => (runCalls calls r.1).map fun q => (q.1, r.2 :: q.2)

end KVStores.Redis.HashType
