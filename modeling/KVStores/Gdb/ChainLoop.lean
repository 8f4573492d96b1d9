import KVStores.Gdb.Blocks

/-!
# Chains in any file

The loop of `gdbReadBlock` follows the pointers that it finds, while the room for what it reads comes from the size in the header
(`db_blocks.c`).
-/

namespace KVStores.Gdb

open List Option

/-- The locals of the loop, and where the next read is. -/
structure ChainState where
  filePos : ℕ
  prevOffset : Offset
  nextOffset : Offset
  pos : ℕ

/-- What becomes of the loop: it is left, or `abort` is called, or bytes are stored behind the buffer, or it goes on. -/
inductive ChainResult
  | ends
  | aborts
  | overruns
  | goesOn
deriving DecidableEq

/-- The next offset as the code reads it from a position: the bytes that the file does not have are left as they were. -/
def readPointer (f : ByteFile) (filePos : ℕ) (nextOffset : Offset) : Offset :=
  let link := f.read filePos 4
  ofBigEndian (link ++ (bigEndian 4 nextOffset).reverse.drop link.length)

/-- The loop of `gdbReadBlock`, for so many pieces. The difference of `dataSize` and `pos` has 32 bits and no sign. -/
@[grind =] def chainLoop (f : ByteFile) (multiple dataSize : ℕ) : ℕ → ChainState → ChainResult
  | 0, s => if s.nextOffset = 0 then .ends else .goesOn
  | pieces + 1, s =>
    if s.nextOffset = 0 then .ends
    else
      let filePos := if s.prevOffset + multiple ≠ s.nextOffset then s.nextOffset else s.filePos
      let nextOffset := readPointer f filePos s.nextOffset
      let filePos := filePos + (f.read filePos 4).length
      let data := f.read filePos (min ((dataSize + 4294967296 - s.pos) % 4294967296) (multiple - 4))
      if s.nextOffset = nextOffset then .aborts
      else if data ≠ [] ∧ dataSize < s.pos + data.length then .overruns
      else chainLoop f multiple dataSize pieces
        ⟨filePos + data.length, s.nextOffset, nextOffset, (s.pos + (multiple - 4)) % 4294967296⟩

def readChain (f : ByteFile) (offset : Offset) (block : GdbBlockHeader) (pieces : ℕ) : ChainResult :=
  let first := block.type.multiple - gdbBlockHeaderSize
  chainLoop f block.type.multiple block.dataSize pieces
    ⟨offset + gdbBlockHeaderSize + min block.dataSize first, offset, block.next, first⟩

/-- **The condition**: so many pieces on, the pointers in the file end, or come to a piece that points to itself. -/
@[grind =] def PointersEnd (f : ByteFile) : ℕ → Offset → Prop
  | 0, o => o = 0
  | pieces + 1, o => o = 0 ∨ o = readPointer f o o ∨ PointersEnd f pieces (readPointer f o o)

variable {f : ByteFile} {multiple dataSize : ℕ}

def SamePlace (f : ByteFile) (p q : ℕ) : Prop := p = q ∨ f.size ≤ p ∧ f.size ≤ q

theorem SamePlace.read {p q : ℕ} (h : SamePlace f p q) (n : ℕ) : f.read p n = f.read q n := by
  rcases h with rfl | ⟨hp, hq⟩
  · rfl
  · rw [ByteFile.read, ByteFile.read, Nat.sub_eq_zero_of_le hp, Nat.sub_eq_zero_of_le hq, Nat.min_zero]
    rfl

theorem SamePlace.add {p q : ℕ} (h : SamePlace f p q) (n : ℕ) : SamePlace f (p + (f.read p n).length) (q + n) := by
  rw [ByteFile.read_length]
  unfold SamePlace at h ⊢
  omega

/-- **The loop does right exactly when the pointers end**, as long as each piece but the last is full. -/
theorem chainLoop_iff (hm : 4 ≤ multiple) (hsize : dataSize < 2147483648) {pieces : ℕ} {s : ChainState}
    (hplace : 0 < pieces → SamePlace f s.filePos (s.prevOffset + multiple))
    (hroom : ∀ j < pieces, s.pos + j * (multiple - 4) < dataSize) :
    chainLoop f multiple dataSize pieces s ∈ [ChainResult.ends, .aborts] ↔ PointersEnd f pieces s.nextOffset := by
  induction pieces generalizing s with
  | zero =>
    rw [chainLoop, PointersEnd]
    split_ifs with h <;> simp [h]
  | succ pieces ih =>
    rw [chainLoop, PointersEnd]
    by_cases hzero : s.nextOffset = 0
    · rw [if_pos hzero]
      exact iff_of_true mem_cons_self (Or.inl hzero)
    have hat : SamePlace f (if s.prevOffset + multiple ≠ s.nextOffset then s.nextOffset else s.filePos) s.nextOffset := by
      split_ifs with h
      · exact Or.inl rfl
      · exact not_not.mp h ▸ hplace (Nat.succ_pos _)
    rw [if_neg hzero, or_iff_right hzero]
    generalize hq : (if s.prevOffset + multiple ≠ s.nextOffset then s.nextOffset else s.filePos) = q at hat
    have hpointer : readPointer f q s.nextOffset = readPointer f s.nextOffset s.nextOffset := by
      rw [readPointer, hat.read]
      rfl
    dsimp only
    rw [hpointer]
    by_cases hself : s.nextOffset = readPointer f s.nextOffset s.nextOffset
    · rw [if_pos hself]
      exact iff_of_true (mem_cons_of_mem _ mem_cons_self) (Or.inl hself)
    rw [if_neg hself, or_iff_right hself]
    have hpos := hroom 0 (Nat.succ_pos _)
    have hdiff : (dataSize + 4294967296 - s.pos) % 4294967296 = dataSize - s.pos := by omega
    rw [hdiff]
    have hlen : (f.read (q + (f.read q 4).length) (min (dataSize - s.pos) (multiple - 4))).length = _ := f.read_length
    rw [if_neg (by omega)]
    -- the next piece is behind a full one
    have hfull : 0 < pieces → min (dataSize - s.pos) (multiple - 4) = multiple - 4 ∧ s.pos + (multiple - 4) < dataSize := fun hp => by
      have := hroom 1 (by omega)
      omega
    refine ih (fun hp => ?_) fun j hj => ?_
    · rw [(hfull hp).1]
      have hnext := (hat.add 4).add (multiple - 4)
      rwa [Nat.add_assoc s.nextOffset, Nat.add_sub_cancel' hm] at hnext
    · have hnext := hroom (j + 1) (by omega)
      rw [add_mul] at hnext
      dsimp only
      omega

def longChain : ByteFile where
  byte p := if p < 4096 then 0 else [1, 0, 0, 0, 1, 0, 0, 0, 0, 32, 0].getD (p - 4096) 0
  size := 9000

end KVStores.Gdb
