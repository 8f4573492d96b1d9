import KVStores.Lib.Packed

/-!
# Sets of integers

intset.c: the integers in ascending order, each in as many bytes as the largest one needs.

What reaches outside the memory of the set is a fault (`none`). A `fill` is what new memory holds.
-/

namespace KVStores.Redis

open Packed (signedBytes ofSignedBytes)

/-- `intset`: the fields, and the memory behind them. -/
structure Intset where
  encoding : ℕ
  length : ℕ
  contents : List UInt8
deriving DecidableEq

def intsetEncInt16 : ℕ := 2

def intsetEncInt32 : ℕ := 4

def intsetEncInt64 : ℕ := 8

def intsetValueEncoding (v : ℤ) : ℕ :=
  if v < -2 ^ 31 ∨ 2 ^ 31 - 1 < v then intsetEncInt64 else if v < -2 ^ 15 ∨ 2 ^ 15 - 1 < v then intsetEncInt32 else intsetEncInt16

def cellWidth (enc : ℕ) : ℕ := if enc = intsetEncInt64 then 8 else if enc = intsetEncInt32 then 4 else 2

def intsetGetEncoded (is : Intset) (pos enc : ℕ) : Option ℤ :=
  (Memory.read is.contents (pos * cellWidth enc) (cellWidth enc)).map (ofSignedBytes (cellWidth enc))

/-- `_intsetGet`. -/
def intsetGetCell (is : Intset) (pos : ℕ) : Option ℤ := intsetGetEncoded is pos is.encoding

def intsetSet (is : Intset) (pos : ℕ) (value : ℤ) : Option Intset :=
  (Memory.write is.contents (pos * cellWidth is.encoding) (signedBytes (cellWidth is.encoding) value)).map fun m => { is with contents := m }

def intsetNew : Intset := ⟨intsetEncInt16, 0, []⟩

/-- `intsetResize`; the size is an `uint32_t`. -/
def intsetResize (fill : ℕ → UInt8) (is : Intset) (len : ℕ) : Intset :=
  { is with contents := Memory.realloc fill is.contents (len * is.encoding % 2 ^ 32) }

/-- The loop of `intsetSearch`: `min`, `mid` and `cur` at its end. -/
@[grind =] def searchLoop (is : Intset) (value : ℤ) : ℕ → ℤ → ℤ → ℤ → ℤ → Option (ℤ × ℤ × ℤ)
  | 0, _, _, _, _ => none
  | fuel + 1, min, max, mid, cur =>
    if max < min then some (min, mid, cur)
    else
      let mid := (min + max) / 2
      (intsetGetCell is mid.toNat).bind fun cur =>
        if cur < value then searchLoop is value fuel (mid + 1) max mid cur
        else if value < cur then searchLoop is value fuel min (mid - 1) mid cur
        else some (min, mid, cur)

/-- `intsetSearch`: whether the value is there, and its position, or the one where it can be inserted. -/
def intsetSearch (is : Intset) (value : ℤ) : Option (Bool × ℕ) :=
  if is.length = 0 then some (false, 0)
  else
    (intsetGetCell is (is.length - 1)).bind fun last =>
      if last < value then some (false, is.length)
      else
        (intsetGetCell is 0).bind fun first =>
          if value < first then some (false, 0)
          else
            (searchLoop is value (is.length + 1) 0 (is.length - 1) (-1) (-1)).map fun r =>
              if value = r.2.2 then (true, r.2.1.toNat) else (false, r.1.toNat)

@[grind =] def upgradeLoop (prepend curenc : ℕ) : ℕ → Intset → Option Intset
  | 0, is => some is
  | length + 1, is => (intsetGetEncoded is length curenc).bind fun v => (intsetSet is (length + prepend) v).bind (upgradeLoop prepend curenc length)

def intsetUpgradeAndAdd (fill : ℕ → UInt8) (is : Intset) (value : ℤ) : Option Intset :=
  let curenc := is.encoding
  let newenc := intsetValueEncoding value
  let prepend := if value < 0 then 1 else 0
  let is := intsetResize fill { is with encoding := newenc } ((is.length + 1) % 2 ^ 32)
  (upgradeLoop prepend curenc is.length is).bind fun is =>
    (if prepend = 1 then intsetSet is 0 value else intsetSet is is.length value).map fun is => { is with length := (is.length + 1) % 2 ^ 32 }

/-- `intsetMoveTail`; the number of bytes is an `uint32_t`. -/
def intsetMoveTail (is : Intset) (src dst : ℕ) : Option Intset :=
  let bytes := (is.length - src) * cellWidth is.encoding % 2 ^ 32
  (Memory.move is.contents (dst * cellWidth is.encoding) (src * cellWidth is.encoding) bytes).map fun m => { is with contents := m }

/-- `intsetAdd`: the set, and whether the value is new. -/
def intsetAdd (fill : ℕ → UInt8) (is : Intset) (value : ℤ) : Option (Intset × Bool) :=
  if is.encoding < intsetValueEncoding value then (intsetUpgradeAndAdd fill is value).map fun is => (is, true)
  else
    (intsetSearch is value).bind fun r =>
      if r.1 = true then some (is, false)
      else
        let is := intsetResize fill is ((is.length + 1) % 2 ^ 32)
        (if r.2 < is.length then intsetMoveTail is r.2 (r.2 + 1) else some is).bind fun is =>
          (intsetSet is r.2 value).map fun is => ({ is with length := (is.length + 1) % 2 ^ 32 }, true)

/-- `intsetRemove`: the set, and whether the value was there. -/
def intsetRemove (fill : ℕ → UInt8) (is : Intset) (value : ℤ) : Option (Intset × Bool) :=
  if intsetValueEncoding value ≤ is.encoding then
    (intsetSearch is value).bind fun r =>
      if r.1 = true then
        let len := is.length
        (if r.2 < len - 1 then intsetMoveTail is (r.2 + 1) r.2 else some is).map fun is =>
          ({ intsetResize fill is (len - 1) with length := len - 1 }, true)
      else some (is, false)
  else some (is, false)

def intsetFind (is : Intset) (value : ℤ) : Option Bool :=
  if intsetValueEncoding value ≤ is.encoding then (intsetSearch is value).map Prod.fst else some false

def intsetLen (is : Intset) : ℕ := is.length

end KVStores.Redis
