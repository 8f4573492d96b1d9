import KVStores.Lib.Coding
import Mathlib.Data.Nat.Bitwise

/-!
# Log files: the writer

A log file is cut into blocks of 32768 bytes, and a record into fragments, each behind a
header of 7 bytes and inside one block (`log_format.h`, `log_writer.cc`). What is left of a
block when no header fits is filled with zeros.
-/

namespace KVStores.LevelDb

inductive Status
  | ok
  | notFound
  | corruption (reason : String)
  | invalidArgument (reason : String)
  | ioError
deriving DecidableEq

namespace Log

def kBlockSize : ℕ := 32768

/-- `kHeaderSize`: checksum, length and type. -/
def kHeaderSize : ℕ := 7

/-- `RecordType`, those that a writer uses. -/
inductive RecordType
  | full
  | first
  | middle
  | last
deriving DecidableEq

@[grind =] def RecordType.toNat : RecordType → ℕ
  | full => 1
  | first => 2
  | middle => 3
  | last => 4

/-- `crc32c::Extend`: the checksum of `a` is extended to that of `a ++ b`. -/
structure Crc32c where
  extend : UInt32 → Bytes → UInt32
  extend_append (c : UInt32) (a b : Bytes) : extend (extend c a) b = extend c (a ++ b)

def Crc32c.value (crc : Crc32c) (data : Bytes) : UInt32 := crc.extend 0 data

/-- A byte more, bit by bit, as the tables of `crc32c.cc` are made. -/
def crcByte (l : UInt32) (b : UInt8) : UInt32 :=
  (List.range 8).foldl (fun l _ => if l &&& 1 = 1 then (l >>> 1) ^^^ 0x82f63b78 else l >>> 1) (l ^^^ b.toUInt32)

/-- The checksum of `crc32c.cc`. -/
def crc32c : Crc32c where
  extend c data := data.foldl crcByte (c ^^^ 0xffffffff) ^^^ 0xffffffff
  extend_append c a b := by rw [UInt32.xor_assoc, UInt32.xor_self, UInt32.xor_zero, List.foldl_append]

def kMaskDelta : UInt32 := 0xa282ead8

def mask (crc : UInt32) : UInt32 := ((crc >>> 15) ||| (crc <<< 17)) + kMaskDelta

def unmask (masked : UInt32) : UInt32 :=
  let rot := masked - kMaskDelta
  (rot >>> 17) ||| (rot <<< 15)

theorem unmask_mask (crc : UInt32) : unmask (mask crc) = crc := by
  unfold unmask mask
  apply UInt32.toBitVec_inj.1
  apply BitVec.eq_of_getLsbD_eq
  intro i hi
  by_cases h : i < 15
  · have hout : crc.toBitVec.getLsbD (15 + (17 + i)) = false := BitVec.getLsbD_of_ge _ _ (by omega)
    have hin : 17 + i < 32 := by omega
    simp [h, hout, hin, BitVec.getLsbD_eq_getElem hi]
  · have hout : crc.toBitVec.getLsbD (15 + (17 + i)) = false := BitVec.getLsbD_of_ge _ _ (by omega)
    have hin : ¬17 + i < 32 := by omega
    have hlow : i - 15 < 17 := by omega
    have hback : 15 + (i - 15) = i := by omega
    simp [h, hi, hout, hin, hlow, hback]

/-- A file that is written at its end. Each `Append` and each `Flush` takes the next of the
outcomes: nothing when it succeeds, or how many bytes get through before it fails. Without an
outcome it succeeds. -/
structure WritableFile where
  contents : Bytes
  outcomes : List (Option ℕ)

def WritableFile.append (f : WritableFile) (data : Bytes) : Status × WritableFile :=
  match f.outcomes with
  | [] => (.ok, ⟨f.contents ++ data, []⟩)
  | none :: outcomes => (.ok, ⟨f.contents ++ data, outcomes⟩)
  | some n :: outcomes => (.ioError, ⟨f.contents ++ data.take n, outcomes⟩)

def WritableFile.flush (f : WritableFile) : Status × WritableFile := f.append []

structure Writer where
  dest : WritableFile
  blockOffset : ℕ

def headerBytes (crc : Crc32c) (t : RecordType) (data : Bytes) : Bytes :=
  littleEndian 4 (mask (crc.extend (crc.value [UInt8.ofNat t.toNat]) data)).toNat ++ littleEndian 2 data.length ++
    [UInt8.ofNat t.toNat]

def Writer.emitPhysicalRecord (crc : Crc32c) (w : Writer) (t : RecordType) (data : Bytes) : Status × Writer :=
  let r :=
    match w.dest.append (headerBytes crc t data) with
    | (.ok, dest) =>
      match dest.append data with
      | (.ok, dest) => dest.flush
      | r => r
    | r => r
  (r.1, ⟨r.2, w.blockOffset + kHeaderSize + data.length⟩)

/-- The writer goes on to the next block when no header fits into this one. Nobody looks at
what comes of the zeros. -/
def Writer.switchBlock (w : Writer) : Writer :=
  let leftover := kBlockSize - w.blockOffset
  if leftover < kHeaderSize then
    ⟨if 0 < leftover then (w.dest.append (List.replicate leftover 0)).2 else w.dest, 0⟩
  else w

def fragmentType (begin_ end_ : Bool) : RecordType :=
  if begin_ && end_ then .full else if begin_ then .first else if end_ then .last else .middle

/-- The loop of `Writer::AddRecord`. After the first round each one writes a byte or more, so
that as many as there are bytes, and two, are enough. -/
@[grind =] def Writer.addRecordLoop (crc : Crc32c) : ℕ → Writer → Bool → Bytes → Status × Writer
  | 0, w, _, _ => (.ok, w)
  | fuel + 1, w, begin_, left =>
    let w := w.switchBlock
    let avail := kBlockSize - w.blockOffset - kHeaderSize
    let fragmentLength := if left.length < avail then left.length else avail
    let end_ := decide (left.length = fragmentLength)
    let r := w.emitPhysicalRecord crc (fragmentType begin_ end_) (left.take fragmentLength)
    if r.1 = .ok ∧ 0 < (left.drop fragmentLength).length then addRecordLoop crc fuel r.2 false (left.drop fragmentLength)
    else r

def Writer.addRecord (crc : Crc32c) (w : Writer) (record : Bytes) : Status × Writer :=
  w.addRecordLoop crc (record.length + 2) true record

end Log

end KVStores.LevelDb
