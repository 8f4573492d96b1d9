import KVStores.Gdb.FreeList

/-!
# Blocks in the file

A block is a chain of pieces of the file: the first starts with a header of 15 bytes, the
others with the offset of the next piece, and the payload is cut over what is left
(`db_blocks.c`).

* `readOverflow_spec`, `gdbReadBlock_spec`: **the reader finds the chain and the payload** of
  a block whose pieces are in the file as they were written.
-/

namespace KVStores.Gdb

open List Option

def gdbBlockHeaderSize : ℕ := 15

/-- What a block holds. The payload is the buffer that the block type's own functions write
and read. -/
structure BlockContent where
  type : BlockType
  flags : UInt16
  listNext : UInt32
  payload : List UInt8
deriving DecidableEq

/-- `GdbBlock`. A block that has not been written yet has no chain. -/
structure GdbBlock extends BlockContent where
  chain : List Offset
deriving DecidableEq

namespace GdbBlock

def multiple (b : GdbBlock) : ℕ := b.type.multiple

def offset (b : GdbBlock) : Offset := b.chain.headD 0

def next (b : GdbBlock) : Offset := b.chain.tail.headD 0

def extents (b : GdbBlock) : List Extent := b.chain.map fun o => (o, b.multiple)

end GdbBlock

/-- The loop of `gdbGetNeededBlockCount`; `i` grows in each round, so that `dataSize` rounds
are enough. -/
@[grind =] def neededLoop (step dataSize : ℕ) : ℕ → ℕ → ℕ → ℕ
  | 0, _, count => count
  | fuel + 1, i, count => if i < dataSize then neededLoop step dataSize fuel (i + step) (count + 1) else count

def gdbGetNeededBlockCount (dataSize multiple : ℕ) : ℕ :=
  if dataSize = 0 ∨ multiple = 0 then 0
  else
    let dataSize := (dataSize + gdbBlockHeaderSize) % 4294967296
    if dataSize = multiple then 1 else neededLoop (multiple - 4) dataSize dataSize multiple 1

def headerBytes (b : GdbBlock) : List UInt8 :=
  bigEndian 1 b.type.toNat ++ bigEndian 4 b.payload.length ++ bigEndian 2 b.flags.toNat ++ bigEndian 4 b.next ++
    bigEndian 4 b.listNext.toNat

/-- The first piece: the header, the data, and zeros when the data does not fill it. -/
def firstBuffer (b : GdbBlock) : List UInt8 :=
  headerBytes b ++ b.payload.take (b.multiple - gdbBlockHeaderSize) ++
    List.replicate (b.multiple - gdbBlockHeaderSize - b.payload.length) 0

/-- `blockBuffer` for one overflow piece. -/
def overflowBuffer (multiple : ℕ) (nextOffset : Offset) (data : List UInt8) : List UInt8 :=
  bigEndian 4 nextOffset ++ data.take (multiple - 4) ++ List.replicate (multiple - 4 - data.length) 0

@[grind =] def overflowBuffers (multiple : ℕ) : List Offset → List UInt8 → List Image
  | [], _ => []
  | o :: chain, data =>
    (o, overflowBuffer multiple (chain.headD 0) data) :: overflowBuffers multiple chain (data.drop (multiple - 4))

def blockBuffers (b : GdbBlock) : List Image :=
  (b.offset, firstBuffer b) ::
    overflowBuffers b.multiple b.chain.tail (b.payload.drop (b.multiple - gdbBlockHeaderSize))

/-- The chain for the new payload of a block: `gdbWriteBlock` cuts the old one, or reserves
the missing pieces. -/
def chainFor (f : ByteFile) (block : GdbBlock) (chainCount : ℕ) : Option (List Offset × ByteFile) :=
  if chainCount ≤ block.chain.length then some (block.chain.take chainCount, f)
  else (gdbReserveBlockChain f (chainCount - block.chain.length) block.type).map fun r => (block.chain ++ r.1, r.2)

/-- `gdbWriteBlock` on a block with its new payload and its old chain. `none` when
`gdbReserveBlockChain` hands out fewer offsets than the code copies, or when there is no chain
at all: the code reads past the array then. -/
def gdbWriteBlock (f : ByteFile) (block : GdbBlock) : Option (GdbBlock × ByteFile) := do
  let oldChain := block.chain
  let chainCount := gdbGetNeededBlockCount block.payload.length block.multiple
  let (chain, f) ← chainFor f block chainCount
  if chain.length ≠ chainCount ∨ chain.headD 0 = 0 then none
  else
    let block := { block with chain }
    let f := f.writeAll (blockBuffers block)
    if chainCount < oldChain.length then
      let f ← gdbFreeBlockChain f (oldChain.drop chainCount) (oldChain.length - chainCount) block.type
      return (block, f)
    else return (block, f)

structure GdbBlockHeader where
  type : BlockType
  dataSize : ℕ
  flags : UInt16
  next : Offset
  listNext : UInt32

/-- `gdbReadBlockHeader`; no type is `GDB_BLOCK_ANY`. -/
def gdbReadBlockHeader (f : ByteFile) (offset : Offset) (blockType : Option BlockType) : Option GdbBlockHeader :=
  let header := f.read offset gdbBlockHeaderSize
  if offset < dbFreeBlockListOffset ∨ header.length ≠ gdbBlockHeaderSize then none
  else
    (BlockType.ofNat? (ofBigEndian (header.take 1))).bind fun type =>
      if blockType ≠ none ∧ blockType ≠ some type then none
      else some {
        type
        dataSize := ofBigEndian ((header.drop 1).take 4)
        flags := UInt16.ofNat (ofBigEndian ((header.drop 5).take 2))
        next := ofBigEndian ((header.drop 7).take 4)
        listNext := UInt32.ofNat (ofBigEndian ((header.drop 11).take 4)) }

/-- The loop of `gdbReadBlock` over the overflow pieces: their offsets and their data. `pos`
grows in each round, so that `dataSize` rounds are enough. `none` when a piece points to
itself (`abort`), when the file is too short, and when the chain goes on behind the data:
the code writes past its buffer then. -/
@[grind =] def readOverflow (f : ByteFile) (multiple dataSize : ℕ) : ℕ → ℕ → Offset → Option (List Offset × List UInt8)
  | 0, _, nextOffset => if nextOffset = 0 then some ([], []) else none
  | fuel + 1, pos, offset =>
    if offset = 0 then some ([], [])
    else
      let count := min (dataSize - pos) (multiple - 4)
      let link := f.read offset 4
      let data := f.read (offset + 4) count
      let nextOffset := ofBigEndian link
      if dataSize < pos ∨ link.length ≠ 4 ∨ data.length ≠ count ∨ nextOffset = offset then none
      else (readOverflow f multiple dataSize fuel (pos + (multiple - 4)) nextOffset).map fun r =>
        (offset :: r.1, data ++ r.2)

/-- `gdbReadBlock` from the file. `none` when the block cannot be read (`abort` or `exit`),
when the code would write past the chain array, and when it would leave bytes of its buffer
undefined. -/
def gdbReadBlock (f : ByteFile) (offset : Offset) (blockType : Option BlockType) : Option GdbBlock := do
  let block ← gdbReadBlockHeader f offset blockType
  let multiple := block.type.multiple
  let chainCount := gdbGetNeededBlockCount block.dataSize multiple
  let count := min block.dataSize (multiple - gdbBlockHeaderSize)
  let first := f.read (offset + gdbBlockHeaderSize) count
  if count = 0 ∨ first.length ≠ count ∨ (block.next ≠ 0 ∧ chainCount < 2) then none
  else
    let (links, rest) ← readOverflow f multiple block.dataSize (block.dataSize + 1) (multiple - gdbBlockHeaderSize) block.next
    if first.length + rest.length ≠ block.dataSize then none
    else return {
      type := block.type
      flags := block.flags
      listNext := block.listNext
      payload := first ++ rest
      chain := (offset :: links ++ List.replicate chainCount 0).take chainCount }

theorem neededLoop_spec {step dataSize : ℕ} (hstep : 0 < step) : ∀ (fuel i count : ℕ), dataSize ≤ i + fuel →
    ∃ k, neededLoop step dataSize fuel i count = count + k ∧ dataSize ≤ i + k * step ∧ ∀ j < k, i + j * step < dataSize := by
  intro fuel
  induction fuel with
  | zero => exact fun i count h => ⟨0, rfl, by omega, by omega⟩
  | succ fuel ih =>
    intro i count h
    rw [neededLoop]
    by_cases hi : i < dataSize
    · obtain ⟨k, h1, h2, h3⟩ := ih (i + step) (count + 1) (by omega)
      rw [if_pos hi, h1]
      refine ⟨k + 1, by omega, by rw [add_mul]; omega, fun j hj => ?_⟩
      cases j with
      | zero => omega
      | succ j =>
        have := h3 j (by omega)
        rw [add_mul]
        omega
    · rw [if_neg hi]
      exact ⟨0, rfl, by omega, by omega⟩

/-- **The number of pieces** is the least one that has room for the payload. -/
theorem neededBlockCount_spec {dataSize : ℕ} (t : BlockType) (h0 : 0 < dataSize) (hsize : dataSize < 2147483648) :
    ∃ k, gdbGetNeededBlockCount dataSize t.multiple = k + 1 ∧ dataSize ≤ t.multiple - gdbBlockHeaderSize + k * (t.multiple - 4) ∧
      ∀ j < k, t.multiple - gdbBlockHeaderSize + j * (t.multiple - 4) < dataSize := by
  have hm := t.multiple_bounds
  have h15 : gdbBlockHeaderSize = 15 := rfl
  unfold gdbGetNeededBlockCount
  rw [if_neg (by omega)]
  rw [h15, Nat.mod_eq_of_lt (by omega)]
  by_cases heq : dataSize + 15 = t.multiple
  · rw [if_pos heq]
    exact ⟨0, rfl, by omega, by omega⟩
  · rw [if_neg heq]
    obtain ⟨k, h1, h2, h3⟩ :=
      @neededLoop_spec (t.multiple - 4) (dataSize + 15) (by omega) (dataSize + 15) t.multiple 1 (by omega)
    refine ⟨k, by rw [h1]; omega, by omega, fun j hj => ?_⟩
    have := h3 j hj
    omega

theorem headerBytes_length (b : GdbBlock) : (headerBytes b).length = gdbBlockHeaderSize := by
  simp [headerBytes, gdbBlockHeaderSize]

theorem firstBuffer_length (b : GdbBlock) : (firstBuffer b).length = b.multiple := by
  have hm := b.type.multiple_bounds
  have h15 : gdbBlockHeaderSize = 15 := rfl
  have hmult : b.multiple = b.type.multiple := rfl
  rw [firstBuffer, length_append, length_append, headerBytes_length, length_take, length_replicate]
  omega

theorem overflowBuffer_length {multiple : ℕ} (h : 4 ≤ multiple) (nextOffset : Offset) (data : List UInt8) :
    (overflowBuffer multiple nextOffset data).length = multiple := by
  rw [overflowBuffer, length_append, length_append, bigEndian_length, length_take, length_replicate]
  omega

theorem map_overflowBuffers {multiple : ℕ} (h : 4 ≤ multiple) : ∀ (chain : List Offset) (data : List UInt8),
    (overflowBuffers multiple chain data).map Image.extent = chain.map fun o => (o, multiple) := by
  intro chain
  induction chain with
  | nil => exact fun _ => rfl
  | cons o chain ih =>
    intro data
    rw [overflowBuffers, map_cons, ih, map_cons, Image.extent, overflowBuffer_length h]

variable {b : GdbBlock}

theorem map_blockBuffers (h : b.chain ≠ []) : (blockBuffers b).map Image.extent = b.extents := by
  have hm := b.type.multiple_bounds
  have hmult : b.multiple = b.type.multiple := rfl
  obtain ⟨o, chain, hc⟩ := exists_cons_of_ne_nil h
  rw [blockBuffers, map_cons, map_overflowBuffers (by omega), Image.extent, firstBuffer_length, GdbBlock.extents, GdbBlock.offset, hc]
  rfl

def OnDisk (f : ByteFile) (b : GdbBlock) : Prop := ∀ e ∈ blockBuffers b, f.read e.1 e.2.length = e.2

variable {f : ByteFile} {pos : ℕ}

theorem read_middle {f : ByteFile} {pos n : ℕ} {xs ys zs : List UInt8} (h : f.read pos n = xs ++ ys ++ zs)
    (hin : pos + n ≤ f.size) : f.read (pos + xs.length) ys.length = ys := by
  have hn := congrArg List.length h
  rw [ByteFile.read_length_of_le hin, length_append, length_append] at hn
  rw [ByteFile.read_part hin (by omega), h, append_assoc, drop_left' rfl, take_left' rfl]

theorem in_file {bs : List UInt8} (h : f.read pos bs.length = bs) (hbs : bs ≠ []) : pos + bs.length ≤ f.size := by
  have hlen := congrArg List.length h
  have hpos := length_pos_iff.2 hbs
  rw [ByteFile.read_length] at hlen
  omega

/-- **The loop over the overflow pieces finds the rest of the chain and of the data.** -/
theorem readOverflow_spec {f : ByteFile} {multiple dataSize : ℕ} (hm : 4 < multiple) :
    ∀ (chain : List Offset) (fuel pos : ℕ) (data : List UInt8), chain.length ≤ fuel →
      (chain ≠ [] → dataSize = pos + data.length) → data.length ≤ chain.length * (multiple - 4) →
      (∀ j, j < chain.length → j * (multiple - 4) < data.length) → (∀ o ∈ chain, o ≠ 0 ∧ o < 4294967296) → chain.Nodup →
      (∀ e ∈ overflowBuffers multiple chain data, f.read e.1 e.2.length = e.2) →
      readOverflow f multiple dataSize fuel pos (chain.headD 0) = some (chain, data) := by
  intro chain
  induction chain with
  | nil =>
    intro fuel pos data _ _ hlen _ _ _ _
    have hdata : data = [] := eq_nil_of_length_eq_zero (by simpa using hlen)
    rw [hdata]
    cases fuel <;> rfl
  | cons o chain ih =>
    intro fuel pos data hfuel hsize hlen hneed hoff hnodup hhold
    obtain ⟨fuel, rfl⟩ : ∃ n, fuel = n + 1 := ⟨fuel - 1, by rw [length_cons] at hfuel; omega⟩
    have hsize := hsize (cons_ne_nil _ _)
    obtain ⟨ho, hochain⟩ := nodup_cons.1 hnodup
    -- the piece at `o`
    have hpiece := hhold _ mem_cons_self
    dsimp only at hpiece
    have hblen := overflowBuffer_length (show 4 ≤ multiple by omega) (chain.headD 0) data
    have hin := in_file hpiece (ne_nil_of_length_pos (by omega))
    have hlink : f.read o 4 = bigEndian 4 (chain.headD 0) := by
      have := @read_middle _ _ _ [] (bigEndian 4 (chain.headD 0)) _ (by rw [hpiece, overflowBuffer, append_assoc]; rfl) hin
      simpa using this
    have hcount : min (dataSize - pos) (multiple - 4) = (data.take (multiple - 4)).length := by
      rw [length_take]; omega
    have hdata : f.read (o + 4) (min (dataSize - pos) (multiple - 4)) = data.take (multiple - 4) := by
      have := @read_middle _ _ _ (bigEndian 4 (chain.headD 0)) (data.take (multiple - 4)) _ (by rw [hpiece, overflowBuffer]) hin
      rwa [bigEndian_length, ← hcount] at this
    have hnext : chain.headD 0 < 4294967296 ∧ chain.headD 0 ≠ o := by
      cases chain with
      | nil => exact ⟨by simp, (hoff o mem_cons_self).1.symm⟩
      | cons p chain =>
        exact ⟨(hoff p (by simp)).2, fun h => ho (by rw [← h]; simp)⟩
    have hback : ofBigEndian (bigEndian 4 (chain.headD 0)) = chain.headD 0 :=
      ofBigEndian_bigEndian_of_lt (by simpa using hnext.1)
    rw [headD_cons, readOverflow, if_neg (hoff o mem_cons_self).1]
    dsimp only
    rw [hlink, hdata, hback, bigEndian_length, hcount, if_neg (by
      rintro (h | h | h | h)
      · omega
      · exact h rfl
      · exact h rfl
      · exact hnext.2 h)]
    rw [ih fuel (pos + (multiple - 4)) (data.drop (multiple - 4)) (by simpa using hfuel) ?_ ?_ ?_
      (fun p hp => hoff p (mem_cons_of_mem _ hp)) hochain fun e he => hhold e (mem_cons_of_mem _ he)]
    · rw [map_some, take_append_drop]
    · intro hne
      have h1 := hneed 1 (by rw [length_cons]; have := length_pos_iff.2 hne; omega)
      rw [length_drop]
      omega
    · rw [length_cons, add_mul] at hlen
      rw [length_drop]
      omega
    · intro j hj
      have := hneed (j + 1) (by rw [length_cons]; omega)
      rw [add_mul] at this
      rw [length_drop]
      omega

/-- What every block of a database satisfies: the chain is as long as the payload needs, and
its offsets fit their fields. -/
structure GdbBlock.Ok (b : GdbBlock) : Prop where
  payload : b.payload ≠ []
  size : b.payload.length < 2147483648
  count : b.chain.length = gdbGetNeededBlockCount b.payload.length b.multiple
  offset : ∀ o ∈ b.chain, dbMainTreeOffset ≤ o ∧ o < 4294967296
  nodup : b.chain.Nodup

variable {o : Offset} {blockType : Option BlockType}

theorem gdbReadBlockHeader_spec (h : f.read o gdbBlockHeaderSize = headerBytes b)
    (ho : dbMainTreeOffset ≤ o) (hsize : b.payload.length < 4294967296) (hnext : b.next < 4294967296)
    (ht : blockType = none ∨ blockType = some b.type) :
    gdbReadBlockHeader f o blockType = some ⟨b.type, b.payload.length, b.flags, b.next, b.listNext⟩ := by
  have htype : ofBigEndian ((headerBytes b).take 1) = b.type.toNat := by
    cases hb : b.type <;> simp [headerBytes, bigEndian, ofBigEndian, BlockType.toNat, hb]
  have hdata : ((headerBytes b).drop 1).take 4 = bigEndian 4 b.payload.length := by simp [headerBytes, bigEndian]
  have hflags : ((headerBytes b).drop 5).take 2 = bigEndian 2 b.flags.toNat := by simp [headerBytes, bigEndian]
  have hlink : ((headerBytes b).drop 7).take 4 = bigEndian 4 b.next := by simp [headerBytes, bigEndian]
  have hlist : ((headerBytes b).drop 11).take 4 = bigEndian 4 b.listNext.toNat := by simp [headerBytes, bigEndian]
  unfold gdbReadBlockHeader
  rw [h]
  rw [if_neg (by
      rintro (hlt | hne)
      · exact absurd (lt_of_lt_of_le hlt (show dbFreeBlockListOffset ≤ dbMainTreeOffset by decide)) (not_lt.2 ho)
      · exact hne (headerBytes_length b)), htype, BlockType.ofNat?_toNat, bind_some,
    if_neg (by rcases ht with rfl | rfl <;> simp), hdata, hflags, hlink, hlist, ofBigEndian_bigEndian_of_lt (by simpa using hsize),
    ofBigEndian_bigEndian_of_lt (by have := b.flags.toNat_lt; simpa using this), ofBigEndian_bigEndian_of_lt (by simpa using hnext),
    ofBigEndian_bigEndian_of_lt (by have := b.listNext.toNat_lt; simpa using this)]
  simp

theorem gdbReadBlock_spec (hb : b.Ok) (h : OnDisk f b) {blockType : Option BlockType}
    (ht : blockType = none ∨ blockType = some b.type) : gdbReadBlock f b.offset blockType = some b := by
  have hm := b.type.multiple_bounds
  have h15 : gdbBlockHeaderSize = 15 := rfl
  have hmult : b.multiple = b.type.multiple := rfl
  have hsize := hb.size
  have hpos := length_pos_iff.2 hb.payload
  obtain ⟨k, hk, hroom, hneed⟩ := neededBlockCount_spec b.type hpos hb.size
  have hcount := hb.count
  rw [hmult, hk] at hcount
  obtain ⟨o, chain, hc⟩ : ∃ o chain, b.chain = o :: chain := exists_cons_of_length_eq_add_one hcount
  have hchain : chain.length = k := by rw [hc, length_cons] at hcount; omega
  have hoff : b.offset = o := by rw [GdbBlock.offset, hc]; rfl
  have hnext : b.next = chain.headD 0 := by rw [GdbBlock.next, hc]; rfl
  have hmem : ∀ p ∈ o :: chain, dbMainTreeOffset ≤ p ∧ p < 4294967296 := by rw [← hc]; exact hb.offset
  have hnodup : (o :: chain).Nodup := by rw [← hc]; exact hb.nodup
  have ho := (hmem o mem_cons_self).1
  -- the first piece
  have hfirst := h _ mem_cons_self
  dsimp only at hfirst
  have hlen := firstBuffer_length b
  have hin := in_file hfirst (ne_nil_of_length_pos (by omega))
  rw [hoff] at hfirst hin ⊢
  have hhead : f.read o gdbBlockHeaderSize = headerBytes b := by
    have := @read_middle _ _ _ [] (headerBytes b) _ (by rw [hfirst, firstBuffer, append_assoc]; rfl) hin
    rwa [headerBytes_length] at this
  have hmin : min b.payload.length (b.type.multiple - gdbBlockHeaderSize) =
      (b.payload.take (b.type.multiple - gdbBlockHeaderSize)).length := by rw [length_take]; omega
  have hdata : f.read (o + gdbBlockHeaderSize) (min b.payload.length (b.type.multiple - gdbBlockHeaderSize)) =
      b.payload.take (b.type.multiple - gdbBlockHeaderSize) := by
    have := @read_middle _ _ _ (headerBytes b) (b.payload.take (b.multiple - gdbBlockHeaderSize)) _
      (by rw [hfirst, firstBuffer]) hin
    rwa [headerBytes_length, hmult, ← hmin] at this
  have hnextlt : b.next < 4294967296 := by
    rw [hnext]
    cases hcs : chain with
    | nil => simp
    | cons p ps => exact (hmem p (by rw [hcs]; simp)).2
  -- the others
  have hover := @readOverflow_spec f b.type.multiple b.payload.length (by omega) chain (b.payload.length + 1)
    (b.type.multiple - gdbBlockHeaderSize) (b.payload.drop (b.type.multiple - gdbBlockHeaderSize))
    (by
      rcases Nat.eq_zero_or_pos k with h0 | h0
      · omega
      · have := hneed (k - 1) (by omega)
        have hk1 : (k - 1) * 4 ≤ (k - 1) * (b.type.multiple - 4) := Nat.mul_le_mul_left _ (by omega)
        omega)
    (fun hne => by
      have := hneed 0 (by have := length_pos_iff.2 hne; omega)
      rw [length_drop]
      omega)
    (by rw [length_drop, hchain]; omega)
    (fun j hj => by
      have := hneed j (by omega)
      rw [length_drop]
      omega)
    (fun p hp => ⟨Nat.pos_iff_ne_zero.1 (lt_of_lt_of_le (by decide) (hmem p (mem_cons_of_mem _ hp)).1), (hmem p (mem_cons_of_mem _ hp)).2⟩)
    (nodup_cons.1 hnodup).2
    (fun e he => h e (mem_cons_of_mem _ (by rw [hc]; exact he)))
  unfold gdbReadBlock
  rw [gdbReadBlockHeader_spec hhead ho (by omega) hnextlt ht, bind_eq_bind, bind_some]
  dsimp only
  rw [hdata, hnext, hk, hover, if_neg ?_]
  · simp only [bind_eq_bind, bind_some]
    rw [if_neg (by rw [← length_append, take_append_drop]; exact fun hne => hne rfl), take_append_drop,
      show k + 1 = (o :: chain).length by rw [length_cons, hchain], cons_append, ← cons_append, take_left' rfl, ← hc]
    rfl
  · rintro (h0 | h0 | ⟨h0, h1⟩)
    · omega
    · exact h0 hmin.symm
    · have : chain = [] := eq_nil_of_length_eq_zero (by omega)
      rw [this] at h0
      exact h0 rfl

theorem gdbReadBlock_badType (h : BlockType.ofNat? (f.byte o).toNat = none)
    (blockType : Option BlockType) : gdbReadBlock f o blockType = none := by
  have hheader : gdbReadBlockHeader f o blockType = none := by
    unfold gdbReadBlockHeader
    by_cases hbad : o < dbFreeBlockListOffset ∨ (f.read o gdbBlockHeaderSize).length ≠ gdbBlockHeaderSize
    · rw [if_pos hbad]
    · rw [if_neg hbad]
      have hlen : min gdbBlockHeaderSize (f.size - o) = 15 := by
        rw [← ByteFile.read_length]
        exact Decidable.not_not.1 fun hne => hbad (Or.inr hne)
      have htype : ofBigEndian ((f.read o gdbBlockHeaderSize).take 1) = (f.byte o).toNat := by
        unfold ByteFile.read
        rw [hlen]
        simp [range_succ_eq_map, ofBigEndian]
      rw [htype, h, bind_none]
  unfold gdbReadBlock
  rw [hheader]
  rfl

end KVStores.Gdb
