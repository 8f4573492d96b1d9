import KVStores.Lib.Memory
import KVStores.Redis.StringCommands

/-!
# Strings with their encoding, and replies

The commands of t_string.c and bitops.c that compute with offsets, lengths and numbers, on the object that their key holds, with their replies.

A command that reads outside a string, or asks for memory that there is not, has no outcome (`none`).
-/

namespace KVStores.Redis.StringType

inductive Obj
  | string (o : Robj)
  | other
deriving DecidableEq

inductive Reply
  | ok
  | error (text : String)
  | wrongtypeerr
  | integer (n : ℤ)
  | bulk (s : List UInt8)
deriving DecidableEq

def czero : Reply := .integer 0

def cone : Reply := .integer 1

def emptybulk : Reply := .bulk []

structure Outcome where
  reply : Reply
  value : Option Obj
deriving DecidableEq

/-- What `getLongLongFromObjectOrReply` replies without a message of its own. -/
def notInteger : Reply := .error "value is not an integer or out of range"

def stringObjectLen (o : Robj) : ℕ := (getDecodedObject o).length

/-- `checkStringLength`: whether it returns `REDIS_OK`; `size` is a `long long`, and is given as a `size_t`. -/
def checkStringLength (size : ℕ) : Bool := decide ((size : ℤ).bmod (2 ^ 64) ≤ stringMax)

/-- What `checkStringLength` replies. -/
def tooLong : Reply := .error "string exceeds maximum allowed size (512MB)"

/-- `sdsgrowzero`: there is no block of 2^63 bytes. -/
def sdsgrowzero (s : List UInt8) (len : ℕ) : Option (List UInt8) :=
  if len ≤ s.length then some s
  else if len < 2 ^ 63 then some (s ++ List.replicate (len - s.length) 0)
  else none

/-- The first and the last place of the range, as `getrangeCommand` computes them; `(unsigned) end` has 32 bits. -/
def getrangeBounds (strlen : ℕ) (start stop : ℤ) : ℤ × ℤ :=
  let start := if start < 0 then (strlen + start).bmod (2 ^ 64) else start
  let stop := if stop < 0 then (strlen + stop).bmod (2 ^ 64) else stop
  let start := if start < 0 then 0 else start
  let stop := if stop < 0 then 0 else stop
  (start, if (strlen : ℤ) ≤ stop % 2 ^ 32 then strlen - 1 else stop)

/-- `addReplyBulkCBuffer` of `len` bytes from `p` on. -/
def addReplyBulkCBuffer (s : List UInt8) (p len : ℕ) : Option Reply := (Memory.read s p len).map .bulk

def getrangeCommand (startArg endArg : Sds) (o : Option Obj) : Option Reply :=
  match getLongLongFromObject startArg.1, getLongLongFromObject endArg.1 with
  | some start, some stop =>
    match o with
    | none => some emptybulk
    | some .other => some .wrongtypeerr
    | some (.string o) =>
      let str := getDecodedObject o
      let range := getrangeBounds str.length start stop
      if range.2 < range.1 then some emptybulk else addReplyBulkCBuffer str range.1.toNat (range.2 - range.1 + 1).toNat
  | _, _ => some notInteger

/-- The string grows, and `value` is copied to it. -/
def setrangeCopy (v : List UInt8) (offset : ℕ) (value : List UInt8) : Option Outcome :=
  (sdsgrowzero v ((offset + value.length) % 2 ^ 64)).bind fun v =>
    (Memory.write v offset value).map fun v => ⟨.integer v.length, some (.string (.raw v))⟩

def setrangeCommand (offsetArg value : Sds) (o : Option Obj) : Option Outcome :=
  match getLongLongFromObject offsetArg.1 with
  | none => some ⟨notInteger, o⟩
  | some offset =>
    if offset < 0 then some ⟨.error "offset is out of range", o⟩
    else
      match o with
      | none =>
        if value.1 = [] then some ⟨czero, none⟩
        else if checkStringLength ((offset.toNat + value.1.length) % 2 ^ 64) = false then some ⟨tooLong, none⟩
        else setrangeCopy [] offset.toNat value.1
      | some .other => some ⟨.wrongtypeerr, some .other⟩
      | some (.string o) =>
        if value.1 = [] then some ⟨.integer (stringObjectLen o), some (.string o)⟩
        else if checkStringLength ((offset.toNat + value.1.length) % 2 ^ 64) = false then some ⟨tooLong, some (.string o)⟩
        else setrangeCopy (getDecodedObject o) offset.toNat value.1

def appendCommand (append : Sds) (o : Option Obj) : Outcome :=
  match o with
  | none => ⟨.integer (stringObjectLen (tryObjectEncoding false (.raw append.1))), some (.string (tryObjectEncoding false (.raw append.1)))⟩
  | some .other => ⟨.wrongtypeerr, some .other⟩
  | some (.string o) =>
    if checkStringLength (stringObjectLen o + append.1.length) = false then ⟨tooLong, some (.string o)⟩
    else
      let v := getDecodedObject o ++ append.1
      ⟨.integer v.length, some (.string (.raw v))⟩

/-- What `getBitOffsetFromArgument` replies. -/
def badBitOffset : Reply := .error "bit offset is not an integer or out of range"

def getBitOffsetFromArgument (o : Sds) : Option ℕ :=
  (getLongLongFromObject o.1).bind fun loffset => if loffset < 0 ∨ 512 * 1024 * 1024 ≤ loffset / 8 then none else some loffset.toNat

/-- What `setbitCommand` replies to a bit that is none. -/
def badBit : Reply := .error "bit is not an integer or out of range"

/-- A bit of a byte is cleared, and set if `on` is. -/
def putBit (byteval : UInt8) (bit : ℕ) (on : ℤ) : UInt8 :=
  let mask : UInt8 := 1 <<< UInt8.ofNat bit
  byteval &&& ~~~mask ||| if on = 1 then mask else 0

/-- The string grows, and the bit is written to it; the reply is the old bit. -/
def setbitByte (v : List UInt8) (bitoffset : ℕ) (on : ℤ) : Option Outcome :=
  let byte := bitoffset / 8
  let bit := 7 - bitoffset % 8
  (sdsgrowzero v (byte + 1)).bind fun v =>
    v[byte]?.map fun byteval =>
      ⟨if byteval &&& 1 <<< UInt8.ofNat bit = 0 then czero else cone, some (.string (.raw (v.set byte (putBit byteval bit on))))⟩

def setbitCommand (offsetArg onArg : Sds) (o : Option Obj) : Option Outcome :=
  match getBitOffsetFromArgument offsetArg with
  | none => some ⟨badBitOffset, o⟩
  | some bitoffset =>
    match getLongLongFromObject onArg.1 with
    | none => some ⟨badBit, o⟩
    | some on =>
      if ¬ (on = 0 ∨ on = 1) then some ⟨badBit, o⟩
      else
        match o with
        | none => setbitByte [] bitoffset on
        | some .other => some ⟨.wrongtypeerr, some .other⟩
        | some (.string o) => setbitByte (getDecodedObject o) bitoffset on

/-- `getLongLongFromObject` of a string object. -/
def objectNumber : Robj → Option ℤ
  | .raw s => getLongLongFromObject s
  | .int v => some v.1

def createStringObjectFromLongLong (value : ℤ) : Robj :=
  if h : -2 ^ 63 ≤ value ∧ value < 2 ^ 63 then .int ⟨value, h⟩ else .raw (ll2string value)

/-- A number is added to another one, as `incrDecrCommand` does it. -/
def incrDecrAdd (incr oldvalue : ℤ) (o : Option Obj) : Outcome :=
  if wouldOverflow oldvalue incr = true then ⟨.error "increment or decrement would overflow", o⟩
  else ⟨.integer ((oldvalue + incr).bmod (2 ^ 64)), some (.string (createStringObjectFromLongLong ((oldvalue + incr).bmod (2 ^ 64))))⟩

def incrDecrCommand (incr : ℤ) (o : Option Obj) : Outcome :=
  match o with
  | none => incrDecrAdd incr 0 none
  | some .other => ⟨.wrongtypeerr, some .other⟩
  | some (.string v) =>
    match objectNumber v with
    | none => ⟨notInteger, some (.string v)⟩
    | some oldvalue => incrDecrAdd incr oldvalue (some (.string v))

def incrCommand (o : Option Obj) : Outcome := incrDecrCommand 1 o

def decrCommand (o : Option Obj) : Outcome := incrDecrCommand (-1) o

def incrbyCommand (incrArg : Sds) (o : Option Obj) : Outcome :=
  match getLongLongFromObject incrArg.1 with
  | none => ⟨notInteger, o⟩
  | some incr => incrDecrCommand incr o

/-- `decrbyCommand`; `-incr` is a `long long`. -/
def decrbyCommand (incrArg : Sds) (o : Option Obj) : Outcome :=
  match getLongLongFromObject incrArg.1 with
  | none => ⟨notInteger, o⟩
  | some incr => incrDecrCommand ((-incr).bmod (2 ^ 64)) o

end KVStores.Redis.StringType
