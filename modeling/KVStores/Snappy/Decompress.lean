import KVStores.Lib.Coding
import KVStores.Lib.Pieces

/-!
# Decompression in Snappy

`SnappyDecompressor` with its three writers (`snappy.cc`), and the functions that are called with a byte array.

The bytes between `ip_` and `ip_limit_` are a list. A place in an array is its index, and what is read or written outside an
array is a fault. A result is `none` after a fault, or when a loop has not ended within the rounds that it is given.
-/

namespace KVStores.Snappy

/-- A `Source`: the fragments that are left. -/
abbrev Source := List Bytes

def peek : Source → Bytes
  | [] => []
  | f :: _ => f

@[grind =] def skip : ℕ → Source → Source
  | _, [] => []
  | n, f :: fs => if n < f.length then f.drop n :: fs else skip (n - f.length) fs

/-- The loop of `ReadUncompressedLength`. The bytes do not overlap in the result, a `uint32`. -/
@[grind =] def readLengthLoop : ℕ → ℕ → ℕ → Source → Option (ℕ × Source)
  | 0, _, _, _ => none
  | fuel + 1, shift, result, reader =>
    if 32 ≤ shift then none
    else
      match peek reader with
      | [] => none
      | c :: _ =>
        let result := (result + c.toNat % 128 * 2 ^ shift) % 2 ^ 32
        if c < 128 then some (result, skip 1 reader) else readLengthLoop fuel (shift + 7) result (skip 1 reader)

/-- `ReadUncompressedLength`: the length, and what is left of the source. -/
def readUncompressedLength (reader : Source) : Option (ℕ × Source) := readLengthLoop 6 0 0 reader

/-- `Varint::Parse32WithLimit`, with the shift and the bound of each of its lines. -/
@[grind =] def parse32Loop : List (ℕ × ℕ) → ℕ → Bytes → Option ℕ
  | [], _, _ => none
  | _ :: _, _, [] => none
  | (shift, bound) :: lines, result, b :: ptr =>
    let result := (result + b.toNat % 128 * 2 ^ shift) % 2 ^ 32
    if b.toNat < bound then some result else parse32Loop lines result ptr

def parse32WithLimit (p : Bytes) : Option ℕ := parse32Loop [(0, 128), (7, 128), (14, 128), (21, 128), (28, 16)] 0 p

/-- `GetUncompressedLength` of an array. -/
def getUncompressedLength (compressed : Bytes) : Option ℕ := parse32WithLimit compressed

def kMaximumTagLength : ℕ := 5

/-- `char_table`: eight bits for the length, three for a part of the offset, three for the number of bytes behind the tag. -/
def charTable : List ℕ := [
  0x0001, 0x0804, 0x1001, 0x2001, 0x0002, 0x0805, 0x1002, 0x2002, 0x0003, 0x0806, 0x1003, 0x2003, 0x0004, 0x0807, 0x1004, 0x2004,
  0x0005, 0x0808, 0x1005, 0x2005, 0x0006, 0x0809, 0x1006, 0x2006, 0x0007, 0x080a, 0x1007, 0x2007, 0x0008, 0x080b, 0x1008, 0x2008,
  0x0009, 0x0904, 0x1009, 0x2009, 0x000a, 0x0905, 0x100a, 0x200a, 0x000b, 0x0906, 0x100b, 0x200b, 0x000c, 0x0907, 0x100c, 0x200c,
  0x000d, 0x0908, 0x100d, 0x200d, 0x000e, 0x0909, 0x100e, 0x200e, 0x000f, 0x090a, 0x100f, 0x200f, 0x0010, 0x090b, 0x1010, 0x2010,
  0x0011, 0x0a04, 0x1011, 0x2011, 0x0012, 0x0a05, 0x1012, 0x2012, 0x0013, 0x0a06, 0x1013, 0x2013, 0x0014, 0x0a07, 0x1014, 0x2014,
  0x0015, 0x0a08, 0x1015, 0x2015, 0x0016, 0x0a09, 0x1016, 0x2016, 0x0017, 0x0a0a, 0x1017, 0x2017, 0x0018, 0x0a0b, 0x1018, 0x2018,
  0x0019, 0x0b04, 0x1019, 0x2019, 0x001a, 0x0b05, 0x101a, 0x201a, 0x001b, 0x0b06, 0x101b, 0x201b, 0x001c, 0x0b07, 0x101c, 0x201c,
  0x001d, 0x0b08, 0x101d, 0x201d, 0x001e, 0x0b09, 0x101e, 0x201e, 0x001f, 0x0b0a, 0x101f, 0x201f, 0x0020, 0x0b0b, 0x1020, 0x2020,
  0x0021, 0x0c04, 0x1021, 0x2021, 0x0022, 0x0c05, 0x1022, 0x2022, 0x0023, 0x0c06, 0x1023, 0x2023, 0x0024, 0x0c07, 0x1024, 0x2024,
  0x0025, 0x0c08, 0x1025, 0x2025, 0x0026, 0x0c09, 0x1026, 0x2026, 0x0027, 0x0c0a, 0x1027, 0x2027, 0x0028, 0x0c0b, 0x1028, 0x2028,
  0x0029, 0x0d04, 0x1029, 0x2029, 0x002a, 0x0d05, 0x102a, 0x202a, 0x002b, 0x0d06, 0x102b, 0x202b, 0x002c, 0x0d07, 0x102c, 0x202c,
  0x002d, 0x0d08, 0x102d, 0x202d, 0x002e, 0x0d09, 0x102e, 0x202e, 0x002f, 0x0d0a, 0x102f, 0x202f, 0x0030, 0x0d0b, 0x1030, 0x2030,
  0x0031, 0x0e04, 0x1031, 0x2031, 0x0032, 0x0e05, 0x1032, 0x2032, 0x0033, 0x0e06, 0x1033, 0x2033, 0x0034, 0x0e07, 0x1034, 0x2034,
  0x0035, 0x0e08, 0x1035, 0x2035, 0x0036, 0x0e09, 0x1036, 0x2036, 0x0037, 0x0e0a, 0x1037, 0x2037, 0x0038, 0x0e0b, 0x1038, 0x2038,
  0x0039, 0x0f04, 0x1039, 0x2039, 0x003a, 0x0f05, 0x103a, 0x203a, 0x003b, 0x0f06, 0x103b, 0x203b, 0x003c, 0x0f07, 0x103c, 0x203c,
  0x0801, 0x0f08, 0x103d, 0x203d, 0x1001, 0x0f09, 0x103e, 0x203e, 0x1801, 0x0f0a, 0x103f, 0x203f, 0x2001, 0x0f0b, 0x1040, 0x2040]

def entry (c : UInt8) : ℕ := charTable.getD c.toNat 0

def extraBytes (c : UInt8) : ℕ := entry c / 2 ^ 11

def copyOffset (c : UInt8) : ℕ := entry c / 2 ^ 8 % 8 * 2 ^ 8

def tagLength (c : UInt8) : ℕ := entry c % 2 ^ 8

/-- `SnappyDecompressor`, with the bytes between `ip_` and `ip_limit_`. `peeked_` is a `uint32`. -/
structure Decompressor where
  reader : Source
  buf : Bytes
  peeked : ℕ
  eof : Bool

/-- All peeked bytes are used up, and new ones are peeked. -/
def Decompressor.fetch (d : Decompressor) : Decompressor :=
  let reader := skip d.peeked d.reader
  { d with reader := reader, buf := peek reader, peeked := (peek reader).length % 2 ^ 32 }

/-- The loop of `RefillTag` that fills `scratch_`: whether there are enough bytes, the source, and the bytes. A round that gets no
byte is repeated for ever. -/
@[grind =] def stitch (needed : ℕ) : ℕ → Source → Bytes → Option (Bool × Source × Bytes)
  | 0, _, _ => none
  | fuel + 1, reader, scratch =>
    if needed ≤ scratch.length then some (true, reader, scratch)
    else if peek reader = [] then some (false, reader, scratch)
    else
      let toAdd := min (needed - scratch.length) ((peek reader).length % 2 ^ 32)
      stitch needed fuel (skip toAdd reader) (scratch ++ (peek reader).take toAdd)

/-- The second part of `RefillTag`, at a tag. -/
def Decompressor.refillAt (d : Decompressor) (c : UInt8) : Option (Bool × Decompressor) :=
  let needed := extraBytes c + 1
  let nbuf := d.buf.length % 2 ^ 32
  if nbuf < needed then
    (stitch needed 6 (skip d.peeked d.reader) (d.buf.take nbuf)).map fun p => (p.1, ⟨p.2.1, p.2.2, 0, d.eof⟩)
  else if nbuf < kMaximumTagLength then some (true, ⟨skip d.peeked d.reader, d.buf.take nbuf, 0, d.eof⟩)
  else some (true, d)

def Decompressor.refillTag (d : Decompressor) : Option (Bool × Decompressor) :=
  let d := if d.buf = [] then d.fetch else d
  match d.buf with
  | [] => some (false, { d with eof := true })
  | c :: _ => d.refillAt c

def Decompressor.maybeRefill (d : Decompressor) : Option (Bool × Decompressor) :=
  if d.buf.length < kMaximumTagLength then d.refillTag else some (true, d)

/-- A `Writer`, with its result and what it is then. -/
structure Writer (σ : Type) where
  setExpectedLength : ℕ → σ → σ
  checkLength : σ → Bool
  append : Bytes → σ → Option (Bool × σ)
  tryFastAppend : Bytes → ℕ → σ → Option (Bool × σ)
  appendFromSelf : ℕ → ℕ → σ → Option (Bool × σ)

section
variable {σ : Type} (W : Writer σ)

@[grind =] def literalLoop : ℕ → Decompressor → ℕ → σ → Option (Bool × Decompressor × σ)
  | 0, _, _, _ => none
  | fuel + 1, d, n, w =>
    if d.buf.length < n then
      (W.append d.buf w).bind fun p =>
        if p.1 = false then some (false, d, p.2)
        else if d.fetch.buf = [] then some (false, d.fetch, p.2)
        else literalLoop fuel d.fetch (n - d.buf.length) p.2
    else
      (W.append (d.buf.take n) w).map fun p => (p.1, { d with buf := d.buf.drop n }, p.2)

/-- What comes behind the tag of a literal, when `TryFastAppend` has declined. The length is a `uint32` if it comes behind the tag. -/
def literal (d : Decompressor) (n : ℕ) (w : σ) : Option (Bool × Decompressor × σ) :=
  if 61 ≤ n then
    let n' := (ofLittleEndian (d.buf.take (n - 60)) + 1) % 2 ^ 32
    literalLoop W (n' + 2) { d with buf := d.buf.drop (n - 60) } n' w
  else literalLoop W (n + 2) d n w

/-- A round of `DecompressAllTags` without `MAYBE_REFILL`: whether the function goes on, and whether `MAYBE_REFILL` is done. -/
def tag (d : Decompressor) (w : σ) : Option (Bool × Bool × Decompressor × σ) :=
  match d.buf with
  | [] => none
  | c :: ip =>
    if c.toNat % 4 = 0 then
      let n := c.toNat / 4 + 1
      (W.tryFastAppend ip n w).bind fun p =>
        if p.1 = true then some (true, false, { d with buf := ip.drop n }, p.2)
        else (literal W { d with buf := ip } n p.2).map fun q => (q.1, true, q.2)
    else
      let trailer := ofLittleEndian (ip.take (extraBytes c))
      (W.appendFromSelf ((copyOffset c + trailer) % 2 ^ 32) (tagLength c) w).map fun p =>
        (p.1, true, { d with buf := ip.drop (extraBytes c) }, p.2)

@[grind =] def tagLoop : ℕ → Decompressor → σ → Option (Decompressor × σ)
  | 0, _, _ => none
  | fuel + 1, d, w =>
    (tag W d w).bind fun p =>
      if p.1 = false then some p.2.2
      else if p.2.1 = false then tagLoop fuel p.2.2.1 p.2.2.2
      else p.2.2.1.maybeRefill.bind fun q => if q.1 = false then some (q.2, p.2.2.2) else tagLoop fuel q.2 p.2.2.2

def decompressAllTags (fuel : ℕ) (d : Decompressor) (w : σ) : Option (Decompressor × σ) :=
  d.maybeRefill.bind fun q => if q.1 = false then some (q.2, w) else tagLoop W fuel q.2 w

def internalUncompress (fuel : ℕ) (r : Source) (w : σ) : Option (Bool × σ) :=
  match readUncompressedLength r with
  | none => some (false, w)
  | some (uncompressedLen, reader) =>
    (decompressAllTags W fuel ⟨reader, [], 0, false⟩ (W.setExpectedLength uncompressedLen w)).map fun p => (p.1.eof && W.checkLength p.2, p.2)

end

/-- `SnappyDecompressionValidator`. -/
structure Validator where
  expected : ℕ
  produced : ℕ

/-- `offset - 1u` as a `size_t`. -/
def offsetMinusOne (offset : ℕ) : ℕ := (offset + 2 ^ 64 - 1) % 2 ^ 64

def validator : Writer Validator where
  setExpectedLength len w := { w with expected := len }
  checkLength w := decide (w.expected = w.produced)
  append ip w := some (decide (w.produced + ip.length ≤ w.expected), { w with produced := w.produced + ip.length })
  tryFastAppend _ _ w := some (false, w)
  appendFromSelf offset len w :=
    if w.produced ≤ offsetMinusOne offset then some (false, w)
    else some (decide (w.produced + len ≤ w.expected), { w with produced := w.produced + len })

def isValidCompressedBuffer (fuel : ℕ) (compressed : Bytes) : Option Bool :=
  (internalUncompress validator fuel [compressed] ⟨0, 0⟩).map Prod.fst

def unalignedCopy64 (src dst : ℕ) (m : Bytes) : Option Bytes := Memory.move m dst src 8

def copyBytes : ℕ → ℕ → ℕ → Bytes → Option Bytes
  | 0, _, _, m => some m
  | len + 1, src, op, m => (Memory.move m op src 1).bind (copyBytes len (src + 1) (op + 1))

/-- `IncrementalCopy`. The length is tested behind the first byte. -/
def incrementalCopy (src op len : ℕ) (m : Bytes) : Option Bytes := copyBytes (max 1 len) src op m

/-- The first loop of `IncrementalCopyFastPath`: `op` and `len` at its end, and the array. -/
@[grind =] def expandPattern : ℕ → ℕ → ℕ → ℤ → Bytes → Option (ℕ × ℤ × Bytes)
  | 0, _, _, _, _ => none
  | fuel + 1, src, op, len, m =>
    if op - src < 8 then (unalignedCopy64 src op m).bind (expandPattern fuel src (op + (op - src)) (len - (op - src : ℕ)))
    else some (op, len, m)

/-- The second loop of `IncrementalCopyFastPath`. -/
@[grind =] def copyWords : ℕ → ℕ → ℕ → ℤ → Bytes → Option Bytes
  | 0, _, _, _, _ => none
  | fuel + 1, src, op, len, m => if 0 < len then (unalignedCopy64 src op m).bind (copyWords fuel (src + 8) (op + 8) (len - 8)) else some m

/-- `IncrementalCopyFastPath`. The first loop at least doubles `op - src` in a round. -/
def incrementalCopyFastPath (src op len : ℕ) (m : Bytes) : Option Bytes :=
  (expandPattern 9 src op len m).bind fun p => copyWords (len + 1) src p.1 p.2.1 p.2.2

def kMaxIncrementCopyOverflow : ℕ := 10

/-- `SnappyArrayWriter`, with the array at `base_`. -/
structure ArrayWriter where
  mem : Bytes
  op : ℕ
  opLimit : ℕ

/-- How `AppendFromSelf` copies. -/
def ArrayWriter.copy (w : ArrayWriter) (offset len : ℕ) : Option (Bool × Bytes) :=
  let spaceLeft := w.opLimit - w.op
  if len ≤ 16 ∧ 8 ≤ offset ∧ 16 ≤ spaceLeft then
    ((unalignedCopy64 (w.op - offset) w.op w.mem).bind (unalignedCopy64 (w.op - offset + 8) (w.op + 8))).map (true, ·)
  else if len + kMaxIncrementCopyOverflow ≤ spaceLeft then (incrementalCopyFastPath (w.op - offset) w.op len w.mem).map (true, ·)
  else if spaceLeft < len then some (false, w.mem)
  else (incrementalCopy (w.op - offset) w.op len w.mem).map (true, ·)

def arrayWriter : Writer ArrayWriter where
  setExpectedLength len w := { w with opLimit := w.op + len }
  checkLength w := decide (w.op = w.opLimit)
  append ip w :=
    if w.opLimit - w.op < ip.length then some (false, w)
    else (Memory.write w.mem w.op ip).map fun m => (true, { w with mem := m, op := w.op + ip.length })
  tryFastAppend ip len w :=
    if len ≤ 16 ∧ 16 + kMaximumTagLength ≤ ip.length ∧ 16 ≤ w.opLimit - w.op then
      ((Memory.write w.mem w.op (ip.take 8)).bind fun m => Memory.write m (w.op + 8) ((ip.drop 8).take 8)).map fun m =>
        (true, { w with mem := m, op := w.op + len })
    else some (false, w)
  appendFromSelf offset len w :=
    if w.op ≤ offsetMinusOne offset then some (false, w)
    else (w.copy offset len).map fun p => (p.1, { w with mem := p.2, op := if p.1 = true then w.op + len else w.op })

/-- `RawUncompress` into an array: the result, and the array. -/
def rawUncompress (fuel : ℕ) (compressed uncompressed : Bytes) : Option (Bool × Bytes) :=
  (internalUncompress arrayWriter fuel [compressed] ⟨uncompressed, 0, 0⟩).map fun p => (p.1, p.2.mem)

/-- `STLStringResizeUninitialized`. -/
def resize (s : Bytes) (n : ℕ) : Bytes := s.take n ++ List.replicate (n - s.length) 0

/-- `Uncompress` to a string: the result, and the string. -/
def uncompress (maxSize fuel : ℕ) (compressed s : Bytes) : Option (Bool × Bytes) :=
  match getUncompressedLength compressed with
  | none => some (false, s)
  | some ulength => if maxSize < ulength then some (false, s) else rawUncompress fuel compressed (resize s ulength)

/-- `SnappyIOVecWriter`, with the buffers of `output_iov_`. -/
structure IOVecWriter where
  iov : List Bytes
  currIovIndex : ℕ
  currIovWritten : ℕ
  totalWritten : ℕ
  outputLimit : ℕ

namespace IOVecWriter

def iovLen (w : IOVecWriter) (i : ℕ) : Option ℕ := w.iov[i]?.map List.length

def put (w : IOVecWriter) (bs : Bytes) : Option IOVecWriter :=
  (Pieces.write w.iov w.currIovIndex w.currIovWritten bs).map fun iov =>
    { w with iov := iov, currIovWritten := w.currIovWritten + bs.length, totalWritten := w.totalWritten + bs.length }

def nextIov (w : IOVecWriter) : Option IOVecWriter :=
  if w.iov.length ≤ w.currIovIndex + 1 then none else some { w with currIovIndex := w.currIovIndex + 1, currIovWritten := 0 }

@[grind =] def appendLoop : ℕ → Bytes → IOVecWriter → Option (Bool × IOVecWriter)
  | 0, _, _ => none
  | fuel + 1, ip, w =>
    if ip = [] then some (true, w)
    else
      (w.iovLen w.currIovIndex).bind fun n =>
        -- a full buffer is left
        match (if n ≤ w.currIovWritten then w.nextIov else some w) with
        | none => some (false, w)
        | some w =>
          (w.iovLen w.currIovIndex).bind fun n =>
            let toWrite := min ip.length (n - w.currIovWritten)
            (w.put (ip.take toWrite)).bind (appendLoop fuel (ip.drop toWrite))

/-- `Append`. Each round writes a byte or goes to the next buffer. -/
def append (ip : Bytes) (w : IOVecWriter) : Option (Bool × IOVecWriter) :=
  if w.outputLimit < w.totalWritten + ip.length then some (false, w) else appendLoop (ip.length + w.iov.length + 1) ip w

@[grind =] def locate (w : IOVecWriter) : ℕ → ℕ → ℕ → Option (ℕ × ℕ)
  | i, fromIovOffset, offset =>
    if offset = 0 then some (i, fromIovOffset)
    else if offset ≤ fromIovOffset then some (i, fromIovOffset - offset)
    else
      match i with
      | 0 => none
      | i + 1 => (w.iovLen i).bind fun n => locate w i n (offset - fromIovOffset)

/-- `IncrementalCopy` from a place of a buffer to the one where the writer is. -/
def copyBytes : ℕ → ℕ → ℕ → IOVecWriter → Option IOVecWriter
  | 0, _, _, w => some w
  | len + 1, i, fromIovOffset, w =>
    (Pieces.read w.iov i fromIovOffset 1).bind fun bs => (w.put bs).bind (copyBytes len i (fromIovOffset + 1))

/-- The loop of `AppendFromSelf` that copies. What the inner `Append` returns is not looked at. -/
@[grind =] def copyLoop : ℕ → ℕ → ℕ → ℕ → IOVecWriter → Option (Bool × IOVecWriter)
  | 0, _, _, _, _ => none
  | fuel + 1, i, fromIovOffset, len, w =>
    if len = 0 then some (true, w)
    else if i ≠ w.currIovIndex then
      (w.iovLen i).bind fun n =>
        let toCopy := min (n - fromIovOffset) len
        (Pieces.read w.iov i fromIovOffset toCopy).bind fun bs =>
          (w.append bs).bind fun p =>
            if 0 < len - toCopy then copyLoop fuel (i + 1) 0 (len - toCopy) p.2 else copyLoop fuel i fromIovOffset (len - toCopy) p.2
    else
      (w.iovLen w.currIovIndex).bind fun n =>
        let toCopy := min (n - w.currIovWritten) len
        if toCopy = 0 then
          match w.nextIov with
          | none => some (false, w)
          | some w => copyLoop fuel i fromIovOffset len w
        else (copyBytes toCopy i fromIovOffset w).bind (copyLoop fuel i (fromIovOffset + toCopy) (len - toCopy))

def appendFromSelf (offset len : ℕ) (w : IOVecWriter) : Option (Bool × IOVecWriter) :=
  if w.totalWritten < offset ∨ offset = 0 then some (false, w)
  else if w.outputLimit - w.totalWritten < len then some (false, w)
  else
    (w.locate w.currIovIndex w.currIovWritten offset).bind fun p =>
      copyLoop (len + 2 * w.iov.length + 2) p.1 p.2 len w

end IOVecWriter

def iovecWriter : Writer IOVecWriter where
  setExpectedLength len w := { w with outputLimit := len }
  checkLength w := decide (w.totalWritten = w.outputLimit)
  append := IOVecWriter.append
  tryFastAppend ip len w :=
    if len ≤ 16 ∧ 16 + kMaximumTagLength ≤ ip.length ∧ 16 ≤ w.outputLimit - w.totalWritten then
      (w.iovLen w.currIovIndex).bind fun n =>
        if 16 ≤ n - w.currIovWritten then
          ((Pieces.write w.iov w.currIovIndex w.currIovWritten (ip.take 8)).bind fun iov =>
            Pieces.write iov w.currIovIndex (w.currIovWritten + 8) ((ip.drop 8).take 8)).map fun iov =>
              (true, { w with iov := iov, currIovWritten := w.currIovWritten + len, totalWritten := w.totalWritten + len })
        else some (false, w)
    else some (false, w)
  appendFromSelf := IOVecWriter.appendFromSelf

/-- `RawUncompressToIOVec`: the result, and the buffers. `output_limit_` is the greatest `size_t` at first. -/
def rawUncompressToIOVec (fuel : ℕ) (compressed : Bytes) (iov : List Bytes) : Option (Bool × List Bytes) :=
  (internalUncompress iovecWriter fuel [compressed] ⟨iov, 0, 0, 0, 2 ^ 64 - 1⟩).map fun p => (p.1, p.2.iov)

end KVStores.Snappy
