import KVStores.LevelDb.LogWriter

/-!
# Log files: the reader

`log_reader.cc`. The reader takes the file block by block. Behind a fragment that it cannot
use it goes on at the next block, and what it drops it reports.
-/

namespace KVStores.LevelDb.Log

def kEof : ℕ := 5

def kBadRecord : ℕ := 6

/-- `log::Reader`. What `file_` has still to give is `rest`; what the reporter was told is in
`reports`. -/
structure Reader where
  rest : Bytes
  checksum : Bool
  buffer : Bytes
  eof : Bool
  lastRecordOffset : ℕ
  endOfBufferOffset : ℕ
  initialOffset : ℕ
  reports : List (ℕ × String)

namespace Reader

def new (file : Bytes) (checksum : Bool) (initialOffset : ℕ) : Reader :=
  { rest := file, checksum, buffer := [], eof := false, lastRecordOffset := 0, endOfBufferOffset := 0, initialOffset,
    reports := [] }

/-- `Reader::ReportCorruption`. The offsets are of 64 bits. -/
def reportCorruption (r : Reader) (bytes : ℕ) (reason : String) : Reader :=
  if (r.initialOffset : ℤ) ≤ ((r.endOfBufferOffset : ℤ) - r.buffer.length - bytes) % 2 ^ 64 then
    { r with reports := r.reports ++ [(bytes, reason)] }
  else r

def skipToInitialBlock (r : Reader) : Reader :=
  let offsetInBlock := r.initialOffset % kBlockSize
  let blockStartLocation := r.initialOffset - offsetInBlock
  let blockStartLocation := if kBlockSize - 6 < offsetInBlock then blockStartLocation + kBlockSize else blockStartLocation
  { r with endOfBufferOffset := blockStartLocation, rest := r.rest.drop blockStartLocation }

def readBlock (r : Reader) : Reader :=
  let buffer := r.rest.take kBlockSize
  { r with
    buffer
    rest := r.rest.drop kBlockSize
    endOfBufferOffset := r.endOfBufferOffset + buffer.length
    eof := decide (buffer.length < kBlockSize) }

def atEnd (r : Reader) : ℕ × Bytes × Reader :=
  if r.buffer.length = 0 then (kEof, [], r)
  else
    let dropSize := r.buffer.length
    (kEof, [], reportCorruption { r with buffer := [] } dropSize "truncated record at end of file")

/-- A `char` as an `unsigned int`. -/
def extendSign (b : UInt8) : ℕ := if b.toNat < 128 then b.toNat else b.toNat + 2 ^ 32 - 256

def parseHeader (crc : Crc32c) (r : Reader) : ℕ × Bytes × Reader :=
  let header := r.buffer
  let length := ofLittleEndian ((header.drop 4).take 2)
  let type := extendSign ((header.drop 6).headD 0)
  if r.buffer.length < kHeaderSize + length then
    let dropSize := r.buffer.length
    (kBadRecord, [], reportCorruption { r with buffer := [] } dropSize "bad record length")
  else if type = 0 ∧ length = 0 then (kBadRecord, [], { r with buffer := [] })
  else if r.checksum ∧ crc.value ((header.drop 6).take (1 + length)) ≠ unmask (UInt32.ofNat (ofLittleEndian (header.take 4))) then
    let dropSize := r.buffer.length
    (kBadRecord, [], reportCorruption { r with buffer := [] } dropSize "checksum mismatch")
  else
    let r := { r with buffer := r.buffer.drop (kHeaderSize + length) }
    if ((r.endOfBufferOffset : ℤ) - r.buffer.length - kHeaderSize - length) % 2 ^ 64 < r.initialOffset then (kBadRecord, [], r)
    else (type, (header.drop kHeaderSize).take length, r)

/-- `Reader::ReadPhysicalRecord`. A block that is too short for a header is the last one, so
that the loop of the source goes round once at most. -/
def readPhysicalRecord (crc : Crc32c) (r : Reader) : ℕ × Bytes × Reader :=
  if r.buffer.length < kHeaderSize then
    if r.eof = false then
      let r := r.readBlock
      if r.buffer.length < kHeaderSize then r.atEnd else r.parseHeader crc
    else r.atEnd
  else r.parseHeader crc

/-- The loop of `Reader::ReadRecord`. Each round takes bytes out of the file or of the buffer. -/
@[grind =] def readRecordLoop (crc : Crc32c) : ℕ → Reader → Bool → Bytes → ℕ → Option Bytes × Reader
  | 0, r, _, _, _ => (none, r)
  | fuel + 1, r, inFragmentedRecord, scratch, prospectiveRecordOffset =>
    let physicalRecordOffset := r.endOfBufferOffset - r.buffer.length
    let (recordType, fragment, r) := r.readPhysicalRecord crc
    if recordType = 1 then
      let r :=
        if inFragmentedRecord ∧ scratch ≠ [] then r.reportCorruption scratch.length "partial record without end(1)" else r
      (some fragment, { r with lastRecordOffset := physicalRecordOffset })
    else if recordType = 2 then
      let r :=
        if inFragmentedRecord ∧ scratch ≠ [] then r.reportCorruption scratch.length "partial record without end(2)" else r
      readRecordLoop crc fuel r true fragment physicalRecordOffset
    else if recordType = 3 then
      if inFragmentedRecord = false then
        readRecordLoop crc fuel (r.reportCorruption fragment.length "missing start of fragmented record(1)") false scratch
          prospectiveRecordOffset
      else readRecordLoop crc fuel r true (scratch ++ fragment) prospectiveRecordOffset
    else if recordType = 4 then
      if inFragmentedRecord = false then
        readRecordLoop crc fuel (r.reportCorruption fragment.length "missing start of fragmented record(2)") false scratch
          prospectiveRecordOffset
      else (some (scratch ++ fragment), { r with lastRecordOffset := prospectiveRecordOffset })
    else if recordType = kEof then
      (none, if inFragmentedRecord then r.reportCorruption scratch.length "partial record without end(3)" else r)
    else if recordType = kBadRecord then
      if inFragmentedRecord then
        readRecordLoop crc fuel (r.reportCorruption scratch.length "error in middle of record") false [] prospectiveRecordOffset
      else readRecordLoop crc fuel r false scratch prospectiveRecordOffset
    else
      let size := fragment.length + if inFragmentedRecord then scratch.length else 0
      readRecordLoop crc fuel (r.reportCorruption size s!"unknown record type {recordType}") false [] prospectiveRecordOffset

def remaining (r : Reader) : ℕ := r.buffer.length + r.rest.length

def readRecord (crc : Crc32c) (r : Reader) : Option Bytes × Reader :=
  let r := if r.lastRecordOffset < r.initialOffset then r.skipToInitialBlock else r
  readRecordLoop crc (r.remaining + 1) r false [] 0

end Reader

end KVStores.LevelDb.Log
