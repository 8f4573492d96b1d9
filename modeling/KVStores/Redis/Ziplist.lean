import KVStores.Redis.Zzl
import KVStores.Lib.Memory
import KVStores.Lib.Coding
import KVStores.Lib.ByteFile

/-!
# Ziplists as blocks of memory

The ziplists of Redis (`ziplist.c`), byte by byte: a header of ten bytes with the size of the block,
the offset of the last entry and the number of entries; the entries; a byte 255. An entry is the
length of the entry before it, in one byte or in five, and its own encoding, length and contents. A
pointer is an offset from the start of the block.

`fill` gives the bytes of a block that `zrealloc` has not copied.
-/

namespace KVStores.Redis.Ziplist

/-- What ends a call early: a byte outside the block, a block of 2³² bytes or more, a loop that does
not end. -/
inductive ZipFault
  | outOfBounds
  | tooLarge
  | stuck
deriving DecidableEq

def inBounds {α : Type} : Option α → Except ZipFault α
  | none => .error .outOfBounds
  | some a => .ok a

/-- The byte at `p`. -/
def byteAt (zl : List UInt8) (p : ℕ) : Except ZipFault UInt8 := inBounds zl[p]?

/-- `n` bytes from `p` on. -/
def bytesAt (zl : List UInt8) (p n : ℕ) : Except ZipFault (List UInt8) := inBounds (Memory.read zl p n)

/-- Some bytes are stored at `p`. -/
def store (zl : List UInt8) (p : ℕ) (bs : List UInt8) : Except ZipFault (List UInt8) := inBounds (Memory.write zl p bs)

def memmove (zl : List UInt8) (dst src n : ℕ) : Except ZipFault (List UInt8) := inBounds (Memory.move zl dst src n)

def zipEnd : UInt8 := 255

def zipBiglen : ℕ := 254

def ziplistHeaderSize : ℕ := 10

/-- An `unsigned int`. -/
def u32 (v : ℤ) : ℕ := (v % 2 ^ 32).toNat

def ziplistBytes (zl : List UInt8) : ℕ := ofLittleEndian (zl.take 4)

def ziplistTailOffset (zl : List UInt8) : ℕ := ofLittleEndian ((zl.drop 4).take 4)

def ziplistLength (zl : List UInt8) : ℕ := ofLittleEndian ((zl.drop 8).take 2)

def setBytes (zl : List UInt8) (v : ℕ) : List UInt8 := littleEndian 4 v ++ zl.drop 4

def setTailOffset (zl : List UInt8) (v : ℤ) : List UInt8 := zl.take 4 ++ littleEndian 4 (u32 v) ++ zl.drop 8

/-- `ZIPLIST_INCR_LENGTH`: the largest number stays. -/
def incrLength (zl : List UInt8) (incr : ℤ) : List UInt8 :=
  if ziplistLength zl < 65535 then zl.take 8 ++ littleEndian 2 ((ziplistLength zl + incr) % 2 ^ 16).toNat ++ zl.drop 10 else zl

def zipIntSize (encoding : ℕ) : ℕ :=
  if encoding = 0xfe then 1 else if encoding = 0xc0 then 2 else if encoding = 0xf0 then 3 else if encoding = 0xd0 then 4
  else if encoding = 0xe0 then 8 else 0

/-- `zipEncodeLength`; with no place to store it, its length. -/
def zipEncodeLength (encoding rawlen : ℕ) : List UInt8 :=
  if encoding < 0xc0 then
    if rawlen ≤ 0x3f then [UInt8.ofNat rawlen]
    else if rawlen ≤ 0x3fff then [UInt8.ofNat (64 + rawlen / 256 % 64), UInt8.ofNat rawlen]
    else 128 :: bigEndian 4 rawlen
  else [UInt8.ofNat encoding]

/-- `ZIP_DECODE_LENGTH`: the encoding, the bytes of the length, the length. -/
def zipDecodeLength (zl : List UInt8) (p : ℕ) : Except ZipFault (ℕ × ℕ × ℕ) :=
  (byteAt zl p).bind fun b =>
  if b.toNat < 0xc0 then
    let encoding := b.toNat / 64 * 64
    if encoding = 0 then .ok (encoding, 1, b.toNat % 64)
    else if encoding = 64 then (byteAt zl (p + 1)).bind fun c => .ok (encoding, 2, b.toNat % 64 * 256 + c.toNat)
    else (bytesAt zl (p + 1) 4).bind fun bs => .ok (encoding, 5, ofBigEndian bs)
  else .ok (b.toNat, 1, zipIntSize b.toNat)

/-- `zipPrevEncodeLength`; with no place to store it, its length. -/
def zipPrevEncodeLength (len : ℕ) : List UInt8 := if len < zipBiglen then [UInt8.ofNat len] else 254 :: littleEndian 4 len

def zipPrevEncodeLengthForceLarge (len : ℕ) : List UInt8 := 254 :: littleEndian 4 len

def zipDecodePrevlensize (zl : List UInt8) (p : ℕ) : Except ZipFault ℕ :=
  (byteAt zl p).bind fun b => .ok (if b.toNat < zipBiglen then 1 else 5)

/-- `ZIP_DECODE_PREVLEN`: the bytes of the length of the entry before, and the length. -/
def zipDecodePrevlen (zl : List UInt8) (p : ℕ) : Except ZipFault (ℕ × ℕ) :=
  (byteAt zl p).bind fun b =>
  if b.toNat < zipBiglen then .ok (1, b.toNat) else (bytesAt zl (p + 1) 4).bind fun bs => .ok (5, ofLittleEndian bs)

def zipPrevLenByteDiff (zl : List UInt8) (p len : ℕ) : Except ZipFault ℤ :=
  (zipDecodePrevlensize zl p).bind fun prevlensize => .ok ((zipPrevEncodeLength len).length - prevlensize)

def zipRawEntryLength (zl : List UInt8) (p : ℕ) : Except ZipFault ℕ :=
  (zipDecodePrevlensize zl p).bind fun prevlensize =>
  (zipDecodeLength zl (p + prevlensize)).bind fun e => .ok (prevlensize + e.2.1 + e.2.2)

/-- The encoding that `zipTryEncoding` gives an integer. -/
def zipIntEncoding (value : ℤ) : ℕ :=
  if 0 ≤ value ∧ value ≤ 12 then 0xf1 + value.toNat
  else if -2 ^ 7 ≤ value ∧ value < 2 ^ 7 then 0xfe
  else if -2 ^ 15 ≤ value ∧ value < 2 ^ 15 then 0xc0
  else if -2 ^ 23 ≤ value ∧ value < 2 ^ 23 then 0xf0
  else if -2 ^ 31 ≤ value ∧ value < 2 ^ 31 then 0xd0
  else 0xe0

def zipSaveInteger (value : ℤ) (encoding : ℕ) : List UInt8 :=
  if encoding = 0xfe then littleEndian 1 (value % 2 ^ 8).toNat
  else if encoding = 0xc0 then littleEndian 2 (value % 2 ^ 16).toNat
  else if encoding = 0xf0 then (littleEndian 4 (value * 2 ^ 8 % 2 ^ 32).toNat).drop 1
  else if encoding = 0xd0 then littleEndian 4 (value % 2 ^ 32).toNat
  else if encoding = 0xe0 then littleEndian 8 (value % 2 ^ 64).toNat
  else []

/-- A number of `bits` bits that has a sign. -/
def signed (bits n : ℕ) : ℤ := if n < 2 ^ (bits - 1) then n else n - 2 ^ bits

/-- `zipLoadInteger`, from the bytes of the integer. -/
def zipLoadInteger (bs : List UInt8) (encoding : ℕ) : ℤ :=
  if encoding = 0xfe then signed 8 (ofLittleEndian bs)
  else if encoding = 0xc0 then signed 16 (ofLittleEndian bs)
  else if encoding = 0xd0 then signed 32 (ofLittleEndian bs)
  else if encoding = 0xf0 then signed 32 (ofLittleEndian (0 :: bs)) / 2 ^ 8
  else if encoding = 0xe0 then signed 64 (ofLittleEndian bs)
  else (encoding % 16 : ℕ) - 1

structure Zlentry where
  prevrawlensize : ℕ
  prevrawlen : ℕ
  lensize : ℕ
  len : ℕ
  encoding : ℕ

def Zlentry.headersize (e : Zlentry) : ℕ := e.prevrawlensize + e.lensize

def zipEntry (zl : List UInt8) (p : ℕ) : Except ZipFault Zlentry :=
  (zipDecodePrevlen zl p).bind fun prev =>
  (zipDecodeLength zl (p + prev.1)).bind fun e => .ok ⟨prev.1, prev.2, e.2.1, e.2.2, e.1⟩

def ziplistNew : List UInt8 := littleEndian 4 (ziplistHeaderSize + 1) ++ littleEndian 4 ziplistHeaderSize ++ littleEndian 2 0 ++ [zipEnd]

def ziplistResize (fill : ℕ → UInt8) (zl : List UInt8) (len : ℕ) : Except ZipFault (List UInt8) :=
  if len < 2 ^ 32 then store (setBytes (Memory.realloc fill zl len) len) (len - 1) [zipEnd] else .error .tooLarge

/-- Room for a longer `prevlen` at `np`: the branch of `__ziplistCascadeUpdate` that grows an entry. -/
def cascadeGrow (fill : ℕ → UInt8) (curlen : ℕ) (zl : List UInt8) (np rawlen : ℕ) (next : Zlentry) : Except ZipFault (List UInt8) :=
  let rawlensize := (zipPrevEncodeLength rawlen).length
  let extra := rawlensize - next.prevrawlensize
  (ziplistResize fill zl (curlen + extra)).bind fun zl =>
  let zl := if ziplistTailOffset zl ≠ np then setTailOffset zl (ziplistTailOffset zl + extra) else zl
  (memmove zl (np + rawlensize) (np + next.prevrawlensize) (curlen - np - next.prevrawlensize - 1)).bind fun zl =>
  store zl np (zipPrevEncodeLength rawlen)

/-- `__ziplistCascadeUpdate`. -/
@[grind =] def cascadeUpdate (fill : ℕ → UInt8) : ℕ → ℕ → List UInt8 → ℕ → Except ZipFault (List UInt8)
  | 0, _, _, _ => .error .stuck
  | fuel + 1, curlen, zl, p =>
    (byteAt zl p).bind fun b =>
    if b = zipEnd then .ok zl else
    (zipEntry zl p).bind fun cur =>
    let rawlen := cur.headersize + cur.len
    let rawlensize := (zipPrevEncodeLength rawlen).length
    (byteAt zl (p + rawlen)).bind fun b =>
    -- there is no next entry
    if b = zipEnd then .ok zl else
    (zipEntry zl (p + rawlen)).bind fun next =>
    if next.prevrawlen = rawlen then .ok zl
    else if next.prevrawlensize < rawlensize then
      (cascadeGrow fill curlen zl (p + rawlen) rawlen next).bind fun zl =>
      cascadeUpdate fill fuel (curlen + (rawlensize - next.prevrawlensize)) zl (p + rawlen)
    -- a shorter `prevlen` keeps its bytes
    else if rawlensize < next.prevrawlensize then store zl (p + rawlen) (zipPrevEncodeLengthForceLarge rawlen)
    else store zl (p + rawlen) (zipPrevEncodeLength rawlen)

/-- `__ziplistCascadeUpdate` at the end of a change. -/
def cascade (fill : ℕ → UInt8) (zl : List UInt8) (p : ℕ) : Except ZipFault (List UInt8) :=
  cascadeUpdate fill zl.length (ziplistBytes zl) zl p

/-- The loop of `__ziplistDelete` over the entries to delete. -/
@[grind =] def deleteLoop (zl : List UInt8) : ℕ → ℕ → ℕ → Except ZipFault (ℕ × ℕ)
  | 0, p, deleted => .ok (p, deleted)
  | num + 1, p, deleted =>
    (byteAt zl p).bind fun b =>
    if b = zipEnd then .ok (p, deleted) else
    (zipRawEntryLength zl p).bind fun len => deleteLoop zl num (p + len) (deleted + 1)

/-- The tail offset takes a change of the first entry of the tail, at `p`, into account when there is more than this one. -/
def tailDiff (zl : List UInt8) (p : ℕ) (nextdiff : ℤ) : Except ZipFault (List UInt8) :=
  (zipEntry zl p).bind fun tail =>
  (byteAt zl (p + tail.headersize + tail.len)).bind fun b =>
  .ok (if b ≠ zipEnd then setTailOffset zl (ziplistTailOffset zl + nextdiff) else zl)

/-- The middle of `__ziplistDelete`: the tail at `p` is moved to the front, to `first`. -/
def deleteMove (zl : List UInt8) (first p prevrawlen : ℕ) : Except ZipFault (List UInt8 × ℤ) :=
  (byteAt zl p).bind fun b =>
  if b ≠ zipEnd then
    (zipPrevLenByteDiff zl p prevrawlen).bind fun nextdiff =>
    let q := ((p : ℤ) - nextdiff).toNat
    (store zl q (zipPrevEncodeLength prevrawlen)).bind fun zl =>
    let zl := setTailOffset zl (ziplistTailOffset zl - (p - first : ℕ))
    (tailDiff zl q nextdiff).bind fun zl =>
    (memmove zl first q (ziplistBytes zl - q - 1)).bind fun zl => .ok (zl, nextdiff)
  else .ok (setTailOffset zl (first - prevrawlen), 0)

/-- The end of `__ziplistDelete`. -/
def deleteResize (fill : ℕ → UInt8) (first totlen deleted : ℕ) (m : List UInt8 × ℤ) : Except ZipFault (List UInt8) :=
  (ziplistResize fill m.1 (ziplistBytes m.1 - totlen + m.2).toNat).bind fun zl =>
  let zl := incrLength zl (-deleted)
  if m.2 ≠ 0 then cascade fill zl first else .ok zl

/-- `__ziplistDelete`. -/
def ziplistDeleteEntries (fill : ℕ → UInt8) (zl : List UInt8) (first num : ℕ) : Except ZipFault (List UInt8) :=
  (zipEntry zl first).bind fun e =>
  (deleteLoop zl num first 0).bind fun r =>
  let totlen := r.1 - first
  if 0 < totlen then (deleteMove zl first r.1 e.prevrawlen).bind (deleteResize fill first totlen r.2) else .ok zl

def zipContents (s : List UInt8) : ℕ × List UInt8 :=
  match zipTryEncoding s with
  | some value => (zipIntEncoding value, zipSaveInteger value (zipIntEncoding value))
  | none => (0, s)

/-- The length of the entry before a new one at `p`. -/
def insertPrevlen (zl : List UInt8) (p : ℕ) : Except ZipFault ℕ :=
  (byteAt zl p).bind fun b =>
  if b ≠ zipEnd then (zipEntry zl p).bind fun entry => .ok entry.prevrawlen
  else (byteAt zl (ziplistTailOffset zl)).bind fun b => if b ≠ zipEnd then zipRawEntryLength zl (ziplistTailOffset zl) else .ok 0

/-- The middle of `__ziplistInsert`: the tail makes room for `reqlen` bytes. -/
def insertMove (fill : ℕ → UInt8) (zl : List UInt8) (p curlen reqlen : ℕ) (nextdiff : ℤ) : Except ZipFault (List UInt8) :=
  (ziplistResize fill zl (curlen + reqlen + nextdiff).toNat).bind fun zl =>
  (byteAt zl p).bind fun b =>
  if b ≠ zipEnd then
    (memmove zl (p + reqlen) ((p : ℤ) - nextdiff).toNat ((curlen : ℤ) - p - 1 + nextdiff).toNat).bind fun zl =>
    (store zl (p + reqlen) (zipPrevEncodeLength reqlen)).bind fun zl =>
    tailDiff (setTailOffset zl (ziplistTailOffset zl + reqlen)) (p + reqlen) nextdiff
  else .ok (setTailOffset zl p)

def ziplistInsert (fill : ℕ → UInt8) (zl : List UInt8) (p : ℕ) (s : List UInt8) : Except ZipFault (List UInt8) :=
  (insertPrevlen zl p).bind fun prevlen =>
  let contents := zipContents s
  let reqlen := contents.2.length + (zipPrevEncodeLength prevlen).length + (zipEncodeLength contents.1 s.length).length
  (byteAt zl p).bind fun b =>
  (if b ≠ zipEnd then zipPrevLenByteDiff zl p reqlen else .ok 0).bind fun nextdiff =>
  (insertMove fill zl p (ziplistBytes zl) reqlen nextdiff).bind fun zl =>
  (if nextdiff ≠ 0 then cascade fill zl (p + reqlen) else .ok zl).bind fun zl =>
  (store zl p (zipPrevEncodeLength prevlen)).bind fun zl =>
  let q := p + (zipPrevEncodeLength prevlen).length
  (store zl q (zipEncodeLength contents.1 s.length)).bind fun zl =>
  (store zl (q + (zipEncodeLength contents.1 s.length).length) contents.2).bind fun zl =>
  .ok (incrLength zl 1)

def ziplistPush (fill : ℕ → UInt8) (zl : List UInt8) (s : List UInt8) (head : Bool) : Except ZipFault (List UInt8) :=
  ziplistInsert fill zl (if head then ziplistHeaderSize else ziplistBytes zl - 1) s

/-- The loop of `ziplistIndex` from the head: the entry, and what is left of the index. -/
@[grind =] def indexForward (zl : List UInt8) : ℕ → ℕ → Except ZipFault (ℕ × ℕ)
  | p, 0 => .ok (p, 0)
  | p, index + 1 =>
    (byteAt zl p).bind fun b =>
    if b = zipEnd then .ok (p, index + 1) else (zipRawEntryLength zl p).bind fun len => indexForward zl (p + len) index

/-- The loop of `ziplistIndex` from the tail. -/
@[grind =] def indexBackward (zl : List UInt8) : ℕ → ℕ → Except ZipFault (ℕ × ℕ)
  | p, 0 => (zipEntry zl p).bind fun _ => .ok (p, 0)
  | p, index + 1 =>
    (zipEntry zl p).bind fun entry =>
    if 0 < entry.prevrawlen then indexBackward zl (p - entry.prevrawlen) index else .ok (p, index + 1)

def ziplistIndex (zl : List UInt8) (index : ℤ) : Except ZipFault (Option ℕ) :=
  (if index < 0 then
    (byteAt zl (ziplistTailOffset zl)).bind fun b =>
    if b = zipEnd then .ok (ziplistTailOffset zl, (-index - 1).toNat) else indexBackward zl (ziplistTailOffset zl) (-index - 1).toNat
  else indexForward zl ziplistHeaderSize index.toNat).bind fun r =>
  (byteAt zl r.1).bind fun b => .ok (if b = zipEnd ∨ 0 < r.2 then none else some r.1)

def ziplistNext (zl : List UInt8) (p : ℕ) : Except ZipFault (Option ℕ) :=
  (byteAt zl p).bind fun b =>
  if b = zipEnd then .ok none else
  (zipRawEntryLength zl p).bind fun len =>
  (byteAt zl (p + len)).bind fun b => .ok (if b = zipEnd then none else some (p + len))

def ziplistPrev (zl : List UInt8) (p : ℕ) : Except ZipFault (Option ℕ) :=
  (byteAt zl p).bind fun b =>
  if b = zipEnd then (byteAt zl (ziplistTailOffset zl)).bind fun b => .ok (if b = zipEnd then none else some (ziplistTailOffset zl))
  else if p = ziplistHeaderSize then .ok none
  else (zipEntry zl p).bind fun entry => if 0 < entry.prevrawlen then .ok (some (p - entry.prevrawlen)) else .error .outOfBounds

def ziplistGet (zl : List UInt8) (p : ℕ) : Except ZipFault (Option (List UInt8)) :=
  (byteAt zl p).bind fun b =>
  if b = zipEnd then .ok none else
  (zipEntry zl p).bind fun entry =>
  if entry.encoding < 0xc0 then (bytesAt zl (p + entry.headersize) entry.len).bind fun bs => .ok (some bs)
  else (bytesAt zl (p + entry.headersize) (zipIntSize entry.encoding)).bind fun bs => .ok (some (ll2string (zipLoadInteger bs entry.encoding)))

def ziplistDelete (fill : ℕ → UInt8) (zl : List UInt8) (p : ℕ) : Except ZipFault (List UInt8) := ziplistDeleteEntries fill zl p 1

def ziplistDeleteRange (fill : ℕ → UInt8) (zl : List UInt8) (index : ℤ) (num : ℕ) : Except ZipFault (List UInt8) :=
  (ziplistIndex zl index).bind fun p => p.elim (.ok zl) fun p => ziplistDeleteEntries fill zl p num

end KVStores.Redis.Ziplist
