import Mathlib.Data.Nat.Log
import KVStores.Snappy.Decompress

/-!
# Compression in Snappy

`CompressFragment` and `Compress` (`snappy.cc`), on a machine with 64 bits and the low byte first. The input of a fragment and
the buffer for its output are arrays, a pointer into one of them is its index, and what is read or written outside them is a
fault.
-/

namespace KVStores.Snappy

/-- The buffer for the output, and `op`. -/
structure Output where
  dest : Bytes
  op : ℕ

/-- Bytes are written at `op`. -/
def Output.put (o : Output) (bs : Bytes) : Option Output := (Memory.write o.dest o.op bs).map fun m => ⟨m, o.op + bs.length⟩

/-- The loop of `EmitLiteral` for a length that does not fit in the tag. An `int` has no more bytes. -/
@[grind =] def lengthBytes : ℕ → ℕ → Bytes
  | 0, _ => []
  | fuel + 1, n => if 0 < n then UInt8.ofNat (n % 2 ^ 8) :: lengthBytes fuel (n / 2 ^ 8) else []

/-- `EmitLiteral` of `len` bytes of the input from `literal` on. The fast path copies sixteen bytes, whatever the length. -/
def emitLiteral (input : Bytes) (o : Output) (literal len : ℕ) (allowFastPath : Bool) : Option Output :=
  let n := len - 1
  if n < 60 then
    (o.put [UInt8.ofNat (n * 4)]).bind fun o =>
      if allowFastPath = true ∧ len ≤ 16 then
        (Memory.read input literal 8).bind fun a => (Memory.write o.dest o.op a).bind fun m =>
          (Memory.read input (literal + 8) 8).bind fun b => (Memory.write m (o.op + 8) b).map fun m => ⟨m, o.op + len⟩
      else (Memory.read input literal len).bind o.put
  else
    let bytes := lengthBytes 8 n
    (o.put (UInt8.ofNat ((59 + bytes.length) * 4) :: bytes)).bind fun o => (Memory.read input literal len).bind o.put

def emitCopyLessThan64 (o : Output) (offset len : ℕ) : Option Output :=
  if len < 12 ∧ offset < 2048 then o.put [UInt8.ofNat (1 + (len - 4) * 4 + offset / 2 ^ 8 * 32), UInt8.ofNat (offset % 2 ^ 8)]
  else o.put (UInt8.ofNat (2 + (len - 1) * 4) :: littleEndian 2 offset)

/-- The loop of `EmitCopy`: the output, and the length that is left. -/
@[grind =] def emitCopyLoop (offset : ℕ) : ℕ → Output → ℕ → Option (Output × ℕ)
  | 0, _, _ => none
  | fuel + 1, o, len => if 68 ≤ len then (emitCopyLessThan64 o offset 64).bind fun o => emitCopyLoop offset fuel o (len - 64) else some (o, len)

def emitCopy (o : Output) (offset len : ℕ) : Option Output :=
  (emitCopyLoop offset (len + 1) o len).bind fun p =>
    if 64 < p.2 then (emitCopyLessThan64 p.1 offset 60).bind fun o => emitCopyLessThan64 o offset (p.2 - 60)
    else emitCopyLessThan64 p.1 offset p.2

/-- `UNALIGNED_LOAD32`. -/
def load32 (input : Bytes) (p : ℕ) : Option ℕ := (Memory.read input p 4).map ofLittleEndian

/-- `UNALIGNED_LOAD64`. -/
def load64 (input : Bytes) (p : ℕ) : Option ℕ := (Memory.read input p 8).map ofLittleEndian

def hashBytes (bytes shift : ℕ) : ℕ := bytes * 0x1e35a7bd % 2 ^ 32 / 2 ^ shift

def getUint32AtOffset (v offset : ℕ) : ℕ := v / 2 ^ (8 * offset) % 2 ^ 32

/-- `Bits::FindLSBSetNonZero64`, within as many bits as are given. -/
@[grind =] def findLSBSet : ℕ → ℕ → ℕ
  | 0, _ => 0
  | bits + 1, n => if n % 2 = 1 then 0 else findLSBSet bits (n / 2) + 1

/-- The second loop of `FindMatchLength`. -/
@[grind =] def matchBytes (input : Bytes) (s1 limit : ℕ) : ℕ → ℕ → ℕ → Option ℕ
  | 0, _, _ => none
  | fuel + 1, s2, matched =>
    if s2 < limit then
      input[s2]?.bind fun a => input[s1 + matched]?.bind fun b => if b = a then matchBytes input s1 limit fuel (s2 + 1) (matched + 1) else some matched
    else some matched

/-- The first loop of `FindMatchLength`, and what follows it. -/
@[grind =] def matchWords (input : Bytes) (s1 limit : ℕ) : ℕ → ℕ → ℕ → Option ℕ
  | 0, _, _ => none
  | fuel + 1, s2, matched =>
    if s2 + 8 ≤ limit then
      (load64 input s2).bind fun a => (load64 input (s1 + matched)).bind fun b =>
        if a = b then matchWords input s1 limit fuel (s2 + 8) (matched + 8) else some (matched + findLSBSet 64 (a ^^^ b) / 8)
    else matchBytes input s1 limit (limit - s2 + 1) s2 matched

def findMatchLength (input : Bytes) (s1 s2 limit : ℕ) : Option ℕ := matchWords input s1 limit (limit - s2 + 1) s2 0

/-- How the search for a match ends: near the end of the input, or with a match. -/
inductive Scan
  | remainder
  | found (ip candidate : ℕ) (table : List ℕ)

@[grind =] def scanLoop (input : Bytes) (ipLimit shift : ℕ) : ℕ → ℕ → ℕ → ℕ → List ℕ → Option Scan
  | 0, _, _, _, _ => none
  | fuel + 1, ip, hash, skip, table =>
    let nextIp := ip + skip / 2 ^ 5
    if ipLimit < nextIp then some .remainder
    else
      (load32 input nextIp).bind fun nextBytes => table[hash]?.bind fun candidate =>
        (load32 input ip).bind fun a => (load32 input candidate).bind fun b =>
          let table := table.set hash (ip % 2 ^ 16)
          if a ≠ b then scanLoop input ipLimit shift fuel nextIp (hashBytes nextBytes shift) (skip + 1) table
          else some (.found ip candidate table)

/-- How the loop of step 3 ends: near the end of the input, with `next_emit` and the output, or with a new round of the main loop. -/
inductive CopyStop
  | remainder (nextEmit : ℕ) (o : Output)
  | round (ip nextHash nextEmit : ℕ) (table : List ℕ) (o : Output)

@[grind =] def copyLoop (input : Bytes) (ipLimit shift : ℕ) : ℕ → ℕ → ℕ → List ℕ → Output → Option CopyStop
  | 0, _, _, _, _ => none
  | fuel + 1, base, candidate, table, o =>
    (findMatchLength input (candidate + 4) (base + 4) input.length).bind fun more =>
      let ip := base + (4 + more)
      (emitCopy o (base - candidate) (4 + more)).bind fun o =>
        if ipLimit ≤ ip then some (.remainder ip o)
        else
          (load64 input (ip - 1)).bind fun inputBytes =>
            let table := table.set (hashBytes (getUint32AtOffset inputBytes 0) shift) ((ip - 1) % 2 ^ 16)
            let curHash := hashBytes (getUint32AtOffset inputBytes 1) shift
            table[curHash]?.bind fun candidate => (load32 input candidate).bind fun candidateBytes =>
              let table := table.set curHash (ip % 2 ^ 16)
              if getUint32AtOffset inputBytes 1 = candidateBytes then copyLoop input ipLimit shift fuel ip candidate table o
              else some (.round (ip + 1) (hashBytes (getUint32AtOffset inputBytes 2) shift) ip table o)

/-- The main loop: `next_emit` and the output at `emit_remainder`. -/
@[grind =] def mainLoop (input : Bytes) (ipLimit shift : ℕ) : ℕ → ℕ → ℕ → ℕ → List ℕ → Output → Option (ℕ × Output)
  | 0, _, _, _, _, _ => none
  | fuel + 1, ip, nextHash, nextEmit, table, o =>
    (scanLoop input ipLimit shift (input.length + 1) ip nextHash 32 table).bind fun
      | .remainder => some (nextEmit, o)
      | .found ip candidate table =>
        (emitLiteral input o nextEmit (ip - nextEmit) true).bind fun o =>
          (copyLoop input ipLimit shift (input.length + 1) ip candidate table o).bind fun
            | .remainder nextEmit o => some (nextEmit, o)
            | .round ip nextHash nextEmit table o => mainLoop input ipLimit shift fuel ip nextHash nextEmit table o

def kInputMarginBytes : ℕ := 15

def compressFragment (input : Bytes) (o : Output) (table : List ℕ) (tableSize : ℕ) : Option Output :=
  let shift := 32 - Nat.log2 tableSize
  (if kInputMarginBytes ≤ input.length then
    (load32 input 1).bind fun bytes =>
      mainLoop input (input.length - kInputMarginBytes) shift (input.length + 1) 1 (hashBytes bytes shift) 0 table o
  else some (0, o)).bind fun p => if p.1 < input.length then emitLiteral input p.2 p.1 (input.length - p.1) false else some p.2

def maxCompressedLength (sourceLen : ℕ) : ℕ := 32 + sourceLen + sourceLen / 6

def kBlockSize : ℕ := 2 ^ 16

def kMaxHashTableSize : ℕ := 2 ^ 14

/-- The loop of `GetHashTable`. -/
@[grind =] def hashTableSize (inputSize : ℕ) : ℕ → ℕ → ℕ
  | 0, htsize => htsize
  | fuel + 1, htsize => if htsize < kMaxHashTableSize ∧ htsize < inputSize then hashTableSize inputSize fuel (htsize * 2) else htsize

/-- `GetHashTable`: the size, and the table. -/
def getHashTable (inputSize : ℕ) : ℕ × List ℕ :=
  let htsize := hashTableSize inputSize 14 256
  (htsize, List.replicate htsize 0)

def encode32 (v : ℕ) : Bytes :=
  if v < 2 ^ 7 then [UInt8.ofNat v]
  else if v < 2 ^ 14 then [moreByte v, UInt8.ofNat (v / 2 ^ 7)]
  else if v < 2 ^ 21 then [moreByte v, moreByte (v / 2 ^ 7), UInt8.ofNat (v / 2 ^ 14)]
  else if v < 2 ^ 28 then [moreByte v, moreByte (v / 2 ^ 7), moreByte (v / 2 ^ 14), UInt8.ofNat (v / 2 ^ 21)]
  else [moreByte v, moreByte (v / 2 ^ 7), moreByte (v / 2 ^ 14), moreByte (v / 2 ^ 21), UInt8.ofNat (v / 2 ^ 28)]

/-- A `Sink`, with the buffers of `GetAppendBuffer`: one of its own with room for as many bytes as are asked for, or the scratch buffer. -/
structure Sink where
  getAppendBuffer : Bytes → ℕ → Option Bytes
  enough : ∀ appended length b, getAppendBuffer appended length = some b → length ≤ b.length

/-- The loop that fills `scratch`. -/
@[grind =] def fillScratch (numToRead : ℕ) : ℕ → Source → Bytes → Option (Bytes × Source)
  | 0, _, _ => none
  | fuel + 1, reader, scratch =>
    if scratch.length < numToRead then
      let n := min (peek reader).length (numToRead - scratch.length)
      fillScratch numToRead fuel (skip n reader) (scratch ++ (peek reader).take n)
    else some (scratch, reader)

def nextBlock (numToRead : ℕ) (reader : Source) : Option (Bytes × Source) :=
  if numToRead ≤ (peek reader).length then some ((peek reader).take numToRead, skip numToRead reader)
  else fillScratch numToRead (numToRead + 1) (skip (peek reader).length reader) (peek reader)

/-- The loop of `Compress`, with what `new` finds in the memory for `scratch_output`, this buffer if there is one already, and what is appended
to the sink so far. -/
@[grind =] def blockLoop (writer : Sink) (fresh : ℕ → UInt8) : ℕ → Source → ℕ → Option Bytes → Bytes → Option Bytes
  | 0, _, _, _, _ => none
  | fuel + 1, reader, n, scratchOutput, appended =>
    if 0 < n then
      let numToRead := min n kBlockSize
      (nextBlock numToRead reader).bind fun p =>
        let table := getHashTable numToRead
        let maxOutput := maxCompressedLength numToRead
        let scratch := scratchOutput.getD ((List.range maxOutput).map fresh)
        match writer.getAppendBuffer appended maxOutput with
        | none =>
          (compressFragment p.1 ⟨scratch, 0⟩ table.2 table.1).bind fun o =>
            blockLoop writer fresh fuel p.2 (n - numToRead) (some o.dest) (appended ++ o.dest.take o.op)
        | some dest =>
          (compressFragment p.1 ⟨dest, 0⟩ table.2 table.1).bind fun o =>
            blockLoop writer fresh fuel p.2 (n - numToRead) (some scratch) (appended ++ o.dest.take o.op)
    else some appended

/-- `Compress`: what is appended to the sink. -/
def compress (reader : Source) (writer : Sink) (fresh : ℕ → UInt8) : Option Bytes :=
  let n := reader.flatten.length
  blockLoop writer fresh (n + 1) reader n none (encode32 (n % 2 ^ 32))

end KVStores.Snappy
