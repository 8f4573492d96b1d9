import KVStores.Lib.Extents
import KVStores.Gdb.Store
import Mathlib.Data.List.Sort

/-!
# The free block list

A database file keeps its free blocks in a list behind the database header
(`db_blocklist.c`); `gdbReserveBlockChain` takes blocks from it or makes the file longer,
`gdbFreeBlockChain` puts blocks back (`db_blocks.c`).

* `gdbReserveBlockChain_spec`: **the blocks handed out are free blocks of the size asked
  for, or new ones**; nothing else leaves the list.
-/

namespace KVStores.Gdb

open List Option

def dbFreeBlockListOffset : ℕ := dbHeaderBlockSize

def dbFreeBlockListSize : ℕ := 2048

def dbMainTreeOffset : ℕ := dbFreeBlockListOffset + dbFreeBlockListSize

/-- The block types (`db_blocks.h`). -/
inductive BlockType
  | data
  | btreeHeader
  | btreeNode
  | hashTable
  | offsetList
deriving DecidableEq

@[grind =] def BlockType.toNat : BlockType → ℕ
  | data => 1
  | btreeHeader => 2
  | btreeNode => 3
  | hashTable => 4
  | offsetList => 5

@[grind =] def BlockType.ofNat? : ℕ → Option BlockType
  | 1 => some data
  | 2 => some btreeHeader
  | 3 => some btreeNode
  | 4 => some hashTable
  | 5 => some offsetList
  | _ => none

@[grind =] def BlockType.multiple : BlockType → ℕ
  | data => 64
  | btreeHeader => 32
  | btreeNode => 128
  | hashTable => 64
  | offsetList => 32

@[simp] theorem BlockType.ofNat?_toNat (t : BlockType) : BlockType.ofNat? t.toNat = some t := by cases t <;> rfl

theorem BlockType.multiple_bounds (t : BlockType) : 32 ≤ t.multiple ∧ t.multiple ≤ 128 := by cases t <;> decide

structure GdbFreeBlock where
  size : ℕ
  offset : Offset
deriving DecidableEq

def GdbFreeBlock.extent (b : GdbFreeBlock) : Extent := (b.offset, b.size)

@[grind =] def parseFreeBlocks : ℕ → List UInt8 → List GdbFreeBlock
  | 0, _ => []
  | count + 1, buffer =>
    ⟨ofBigEndian (buffer.take 2), ofBigEndian ((buffer.drop 2).take 4)⟩ :: parseFreeBlocks count (buffer.drop 6)

/-- `gdbGetFreeBlockList`; `abort` when the list is truncated. -/
def gdbGetFreeBlockList (f : ByteFile) : Option (List GdbFreeBlock) :=
  let header := f.read dbFreeBlockListOffset 4
  let count := if header.length = 4 then ofBigEndian header else 0
  if count = 0 then some []
  else
    let buffer := f.read (dbFreeBlockListOffset + 4) (count * 6)
    if buffer.length = count * 6 then some (parseFreeBlocks count buffer) else none

def freeBlockBytes (blocks : List GdbFreeBlock) : List UInt8 :=
  blocks.flatMap fun b => bigEndian 2 b.size ++ bigEndian 4 b.offset

def gdbWriteFreeBlockList (f : ByteFile) (blocks : List GdbFreeBlock) : ByteFile :=
  f.write dbFreeBlockListOffset (bigEndian 4 blocks.length ++ freeBlockBytes blocks)

/-- `gdbPad` at the end of the file. -/
def gdbPad (f : ByteFile) (count : ℕ) : ByteFile := f.write f.size (List.replicate count 0)

/-- The loop of `gdbReserveBlockChain` over the free blocks: the first `count` blocks of the
right size, and all others. -/
@[grind =] def takeFreeBlocks (blockSize : ℕ) : ℕ → List GdbFreeBlock → List Offset × List GdbFreeBlock
  | _, [] => ([], [])
  | 0, freeBlocks => ([], freeBlocks)
  | count + 1, b :: freeBlocks =>
    if b.size = blockSize then
      let (chain, rest) := takeFreeBlocks blockSize count freeBlocks
      (b.offset :: chain, rest)
    else
      let (chain, rest) := takeFreeBlocks blockSize (count + 1) freeBlocks
      (chain, b :: rest)

/-- The offsets of `count` new blocks at the end of the file. -/
def newOffsets (f : ByteFile) (blockSize count : ℕ) : List Offset :=
  (List.range count).map fun i => f.size + i * blockSize

/-- `gdbReserveBlockChain`; the count is an `unsigned short`. A NULL chain is an empty list. -/
def gdbReserveBlockChain (f : ByteFile) (count : ℕ) (type : BlockType) : Option (List Offset × ByteFile) := do
  let count := count % 65536
  let blockSize := type.multiple
  if count = 0 then return ([], f)
  let freeBlocks ← gdbGetFreeBlockList f
  if freeBlocks = [] then
    return (newOffsets f blockSize count, gdbPad f (count * blockSize))
  else
    let (chain, newFreeBlocks) := takeFreeBlocks blockSize count freeBlocks
    if chain.length ≠ count then
      let f := if chain = [] then f else gdbWriteFreeBlockList f newFreeBlocks
      let missing := count - chain.length
      return ((chain ++ newOffsets f blockSize missing).insertionSort (· ≤ ·), gdbPad f (missing * blockSize))
    else
      return (chain.insertionSort (· ≤ ·), gdbWriteFreeBlockList f newFreeBlocks)

def blockCompare (a b : GdbFreeBlock) : Prop := a.size < b.size ∨ a.size = b.size ∧ a.offset ≤ b.offset

instance : DecidableRel blockCompare := fun a b => by unfold blockCompare; infer_instance

/-- `gdbFreeBlockChain`; the count is an `unsigned short`. -/
def gdbFreeBlockChain (f : ByteFile) (chain : List Offset) (count : ℕ) (type : BlockType) : Option ByteFile := do
  let count := count % 65536
  if count = 0 then return f
  let freeBlocks ← gdbGetFreeBlockList f
  let freed := (chain.take count).map fun o => ⟨type.multiple, o⟩
  if freeBlocks = [] then return gdbWriteFreeBlockList f freed
  else return gdbWriteFreeBlockList f ((freeBlocks ++ freed).insertionSort blockCompare)

def GdbFreeBlock.Fits (b : GdbFreeBlock) : Prop := b.size < 65536 ∧ b.offset < 4294967296

theorem freeBlockBytes_length (blocks : List GdbFreeBlock) : (freeBlockBytes blocks).length = blocks.length * 6 := by
  induction blocks with
  | nil => rfl
  | cons b blocks ih =>
    have hcons : freeBlockBytes (b :: blocks) = bigEndian 2 b.size ++ bigEndian 4 b.offset ++ freeBlockBytes blocks := rfl
    rw [hcons, length_append, length_append, ih, bigEndian_length, bigEndian_length, length_cons]
    omega

theorem parseFreeBlocks_bytes : ∀ {blocks : List GdbFreeBlock}, (∀ b ∈ blocks, b.Fits) →
    parseFreeBlocks blocks.length (freeBlockBytes blocks) = blocks := by
  intro blocks
  induction blocks with
  | nil => exact fun _ => rfl
  | cons b blocks ih =>
    intro hfits
    obtain ⟨hsize, hoffset⟩ := hfits b mem_cons_self
    have hcons : freeBlockBytes (b :: blocks) = bigEndian 2 b.size ++ (bigEndian 4 b.offset ++ freeBlockBytes blocks) := by
      simp [freeBlockBytes]
    have h2 := bigEndian_length 2 b.size
    have h4 := bigEndian_length 4 b.offset
    have hdrop : (freeBlockBytes (b :: blocks)).drop 6 = freeBlockBytes blocks := by
      exact drop_left' (by rw [length_append, h2, h4])
    rw [length_cons, parseFreeBlocks, hdrop, ih fun c hc => hfits c (mem_cons_of_mem _ hc), hcons,
      take_left' h2, drop_left' h2, take_left' h4, ofBigEndian_bigEndian_of_lt (by simpa using hsize),
      ofBigEndian_bigEndian_of_lt (by simpa using hoffset)]

theorem parseFreeBlocks_length (n : ℕ) (buffer : List UInt8) : (parseFreeBlocks n buffer).length = n := by
  induction n generalizing buffer with
  | zero => rfl
  | succ n ih => rw [parseFreeBlocks, length_cons, ih]

def freeListEnd (blocks : List GdbFreeBlock) : ℕ := dbFreeBlockListOffset + 4 + blocks.length * 6

theorem writeFreeBlockList_length (blocks : List GdbFreeBlock) :
    (bigEndian 4 blocks.length ++ freeBlockBytes blocks).length = 4 + blocks.length * 6 := by
  rw [length_append, bigEndian_length, freeBlockBytes_length]

variable {blocks : List GdbFreeBlock}

theorem gdbGetFreeBlockList_write (f : ByteFile) (hlen : blocks.length < 4294967296)
    (hfits : ∀ b ∈ blocks, b.Fits) : gdbGetFreeBlockList (gdbWriteFreeBlockList f blocks) = some blocks := by
  have hread := @ByteFile.read_write_same f dbFreeBlockListOffset (bigEndian 4 blocks.length ++ freeBlockBytes blocks)
  have hend : dbFreeBlockListOffset + 4 + blocks.length * 6 ≤ (gdbWriteFreeBlockList f blocks).size := by
    have := @ByteFile.le_size_write f dbFreeBlockListOffset (bigEndian 4 blocks.length ++ freeBlockBytes blocks) (by simp [bigEndian])
    rwa [writeFreeBlockList_length, ← Nat.add_assoc] at this
  rw [writeFreeBlockList_length] at hread
  change (gdbWriteFreeBlockList f blocks).read _ _ = _ at hread
  rw [ByteFile.read_add hend] at hread
  obtain ⟨h1, h2⟩ := append_inj hread (by rw [ByteFile.read_length_of_le (by omega), bigEndian_length])
  have hcount : ofBigEndian (bigEndian 4 blocks.length) = blocks.length := ofBigEndian_bigEndian_of_lt (by simpa using hlen)
  unfold gdbGetFreeBlockList
  rw [show (gdbWriteFreeBlockList f blocks).read dbFreeBlockListOffset 4 = bigEndian 4 blocks.length from h1]
  simp only [bigEndian_length, if_true, hcount]
  by_cases h0 : blocks.length = 0
  · rw [if_pos h0, eq_nil_of_length_eq_zero h0]
  · rw [if_neg h0, show (gdbWriteFreeBlockList f blocks).read (dbFreeBlockListOffset + 4) (blocks.length * 6) =
      freeBlockBytes blocks from h2, if_pos (freeBlockBytes_length _), parseFreeBlocks_bytes hfits]

theorem gdbGetFreeBlockList_congr {f g : ByteFile} (h : gdbGetFreeBlockList f = some blocks)
    (hf : freeListEnd blocks ≤ f.size) (hg : freeListEnd blocks ≤ g.size)
    (hbyte : ∀ p, dbFreeBlockListOffset ≤ p → p < freeListEnd blocks → g.byte p = f.byte p) : gdbGetFreeBlockList g = some blocks := by
  unfold freeListEnd at hf hg hbyte
  have hhead : g.read dbFreeBlockListOffset 4 = f.read dbFreeBlockListOffset 4 :=
    ByteFile.read_congr (by omega) (by omega) fun p h1 h2 => hbyte p h1 (by omega)
  unfold gdbGetFreeBlockList at h ⊢
  rw [hhead]
  dsimp only at h ⊢
  generalize (if (f.read dbFreeBlockListOffset 4).length = 4 then ofBigEndian (f.read dbFreeBlockListOffset 4) else 0) = count at h ⊢
  by_cases h0 : count = 0
  · rwa [if_pos h0] at h ⊢
  · rw [if_neg h0] at h ⊢
    by_cases hbuf : (f.read (dbFreeBlockListOffset + 4) (count * 6)).length = count * 6
    · rw [if_pos hbuf] at h
      have hlen : blocks.length = count := by rw [← Option.some.inj h, parseFreeBlocks_length]
      have hbody : g.read (dbFreeBlockListOffset + 4) (count * 6) = f.read (dbFreeBlockListOffset + 4) (count * 6) :=
        ByteFile.read_congr (by omega) (by omega) fun p h1 h2 => hbyte p (by omega) (by omega)
      rw [hbody, if_pos hbuf]
      exact h
    · rw [if_neg hbuf] at h
      cases h

structure ListOk (f : ByteFile) (free : List GdbFreeBlock) : Prop where
  list : gdbGetFreeBlockList f = some free
  room : free.length ≤ 340
  size : dbMainTreeOffset ≤ f.size
  fits : ∀ b ∈ free, b.Fits

theorem freeListEnd_le {free : List GdbFreeBlock} (h : free.length ≤ 340) : freeListEnd free ≤ dbMainTreeOffset := by
  have h16 : dbFreeBlockListOffset = 16 := rfl
  have h2064 : dbMainTreeOffset = 2064 := rfl
  unfold freeListEnd; omega

/-- An entry behind the 340th stands over the type of the main tree's header block. -/
theorem byte_mainTree (f : ByteFile) {init : List GdbFreeBlock} (hlen : init.length = 340) (b : GdbFreeBlock) :
    (gdbWriteFreeBlockList f (init ++ [b])).byte dbMainTreeOffset = UInt8.ofNat (b.offset / 256) := by
  have hbytes : bigEndian 4 (init ++ [b]).length ++ freeBlockBytes (init ++ [b]) =
      (bigEndian 4 341 ++ freeBlockBytes init) ++ (bigEndian 2 b.size ++ bigEndian 4 b.offset) := by
    rw [length_append, hlen, freeBlockBytes, flatMap_append, ← freeBlockBytes, append_assoc]
    simp
  have hinit : (bigEndian 4 341 ++ freeBlockBytes init).length = 2044 := by
    rw [length_append, freeBlockBytes_length, hlen, bigEndian_length]
  have hall : (bigEndian 4 (init ++ [b]).length ++ freeBlockBytes (init ++ [b])).length = 2050 := by
    rw [writeFreeBlockList_length, length_append, hlen, length_singleton]
  simp only [gdbWriteFreeBlockList, ByteFile.write, hall]
  rw [if_pos (by decide), hbytes, show dbMainTreeOffset - dbFreeBlockListOffset = 2048 from rfl,
    getD_eq_getElem?_getD, List.getElem?_append_right (by rw [hinit]; omega), hinit]
  simp [bigEndian]

theorem write_size (f : ByteFile) {free : List GdbFreeBlock} (h : free.length ≤ 340) (hf : dbMainTreeOffset ≤ f.size) :
    (gdbWriteFreeBlockList f free).size = f.size := by
  have hend := freeListEnd_le h
  refine ByteFile.size_write ?_
  rw [writeFreeBlockList_length, ← Nat.add_assoc]
  exact le_trans hend hf

variable {p : ℕ}

theorem byte_write_after (f : ByteFile) {pos : ℕ} {bs : List UInt8} (h : pos + bs.length ≤ p) (hp : p < f.size) :
    (f.write pos bs).byte p = f.byte p := by
  simp only [ByteFile.write]
  rw [if_neg (by omega), if_neg (by omega)]

theorem byte_writeFreeBlockList (f : ByteFile) {free : List GdbFreeBlock} (h : free.length ≤ 340)
    (hp : dbMainTreeOffset ≤ p) (hsize : p < f.size) : (gdbWriteFreeBlockList f free).byte p = f.byte p := by
  have hend := freeListEnd_le h
  unfold freeListEnd at hend
  refine byte_write_after f ?_ hsize
  rw [writeFreeBlockList_length]
  omega

theorem ListOk.write (f : ByteFile) {free : List GdbFreeBlock} (h : free.length ≤ 340) (hf : dbMainTreeOffset ≤ f.size)
    (hfits : ∀ b ∈ free, b.Fits) : ListOk (gdbWriteFreeBlockList f free) free where
  list := gdbGetFreeBlockList_write f (by omega) hfits
  room := h
  size := by rwa [write_size f h hf]
  fits := hfits

theorem gdbPad_size (f : ByteFile) (count : ℕ) : (gdbPad f count).size = f.size + count := by
  unfold gdbPad
  by_cases h : count = 0
  · subst h; rfl
  · rw [ByteFile.size_write_end (by simpa using h) (by omega), length_replicate]

theorem gdbPad_byte (f : ByteFile) (count : ℕ) (hp : p < f.size) : (gdbPad f count).byte p = f.byte p := by
  simp only [gdbPad, ByteFile.write]
  rw [if_neg (by omega), if_neg (by omega)]

theorem ListOk.pad {f : ByteFile} {free : List GdbFreeBlock} (h : ListOk f free) (count : ℕ) : ListOk (gdbPad f count) free where
  list := by
    have hend := freeListEnd_le h.room
    have hsize := h.size
    have hpad := gdbPad_size f count
    exact gdbGetFreeBlockList_congr h.list (by omega) (by omega) fun p _ hp => gdbPad_byte f count (by omega)
  room := h.room
  size := by rw [gdbPad_size]; exact le_trans h.size (Nat.le_add_right _ _)
  fits := h.fits

def freeOfSize (free : List GdbFreeBlock) (blockSize : ℕ) : ℕ := free.countP fun b => b.size = blockSize

theorem takeFreeBlocks_spec (blockSize : ℕ) : ∀ (free : List GdbFreeBlock) (count : ℕ),
    (takeFreeBlocks blockSize count free).1.length = min count (freeOfSize free blockSize) ∧
      (takeFreeBlocks blockSize count free).2.Sublist free ∧ ((takeFreeBlocks blockSize count free).1.map (fun o => (o, blockSize)) ++
        (takeFreeBlocks blockSize count free).2.map GdbFreeBlock.extent).Perm (free.map GdbFreeBlock.extent) := by
  intro free
  induction free with
  | nil =>
    intro count
    cases count <;> exact ⟨by simp [takeFreeBlocks, freeOfSize], List.Sublist.refl _, List.Perm.refl _⟩
  | cons b free ih =>
    intro count
    cases count with
    | zero => exact ⟨by simp [takeFreeBlocks], List.Sublist.refl _, List.Perm.refl _⟩
    | succ count =>
      by_cases hb : b.size = blockSize
      · obtain ⟨h1, h2, h3⟩ := ih count
        rw [takeFreeBlocks, if_pos hb]
        refine ⟨?_, h2.cons _, ?_⟩
        · have hcount : freeOfSize (b :: free) blockSize = freeOfSize free blockSize + 1 :=
            countP_cons_of_pos (by simpa using hb)
          rw [length_cons, h1, hcount]
          omega
        · have hext : b.extent = (b.offset, blockSize) := by rw [GdbFreeBlock.extent, hb]
          rw [map_cons, map_cons, hext]
          exact h3.cons _
      · obtain ⟨h1, h2, h3⟩ := ih (count + 1)
        rw [takeFreeBlocks, if_neg hb]
        refine ⟨?_, h2.cons_cons _, ?_⟩
        · have hcount : freeOfSize (b :: free) blockSize = freeOfSize free blockSize :=
            countP_cons_of_neg (by simpa using hb)
          rw [h1, hcount]
        · exact perm_middle.trans (h3.cons _)

/-- The outcome of a reservation of `count` blocks, `fresh` of which are new. -/
structure Reserved (f f' : ByteFile) (free free' : List GdbFreeBlock) (chain : List Offset) (blockSize count fresh : ℕ) :
    Prop where
  ok : ListOk f' free'
  length : chain.length = count
  size : f'.size = f.size + fresh * blockSize
  perm : (chain.map (fun o => (o, blockSize)) ++ free'.map GdbFreeBlock.extent).Perm
    (free.map GdbFreeBlock.extent ++ steps f.size blockSize fresh)
  same : ∀ p, dbMainTreeOffset ≤ p → p < f.size → f'.byte p = f.byte p
  sublist : free'.Sublist free

theorem map_newOffsets (f : ByteFile) (blockSize count : ℕ) :
    (newOffsets f blockSize count).map (fun o => ((o, blockSize) : Extent)) = steps f.size blockSize count := by
  rw [newOffsets, List.map_map]
  rfl

theorem newOffsets_length (f : ByteFile) (blockSize count : ℕ) : (newOffsets f blockSize count).length = count := by
  simp [newOffsets]

variable {count : ℕ}

theorem gdbReserveBlockChain_spec {f : ByteFile} {free : List GdbFreeBlock} (h : ListOk f free) (type : BlockType)
    (h0 : count ≠ 0) (hcount : count < 65536) : ∃ chain f' free', gdbReserveBlockChain f count type = some (chain, f') ∧
      Reserved f f' free free' chain type.multiple count (count - freeOfSize free type.multiple) := by
  unfold gdbReserveBlockChain
  simp only [Nat.mod_eq_of_lt hcount, if_neg h0, h.list, bind_eq_bind, bind_some]
  by_cases hfree : free = []
  · subst hfree
    refine ⟨_, _, [], rfl, h.pad _, newOffsets_length _ _ _, gdbPad_size _ _, ?_, fun p _ hp => gdbPad_byte _ _ hp, List.Sublist.refl _⟩
    rw [map_newOffsets]
    simp [freeOfSize]
  · rw [if_neg hfree]
    obtain ⟨hlen, hsub, hperm⟩ := takeFreeBlocks_spec type.multiple free count
    generalize takeFreeBlocks type.multiple count free = r at hlen hsub hperm ⊢
    obtain ⟨chain, rest⟩ := r
    dsimp only at hlen hsub hperm ⊢
    have hok := ListOk.write f (le_trans hsub.length_le h.room) h.size fun b hb => h.fits b (hsub.subset hb)
    have hwsize := write_size f (le_trans hsub.length_le h.room) h.size
    have hsame := fun p (h1 : dbMainTreeOffset ≤ p) (h2 : p < f.size) =>
      byte_writeFreeBlockList f (le_trans hsub.length_le h.room) h1 h2
    by_cases hfill : chain.length = count
    · -- the list has enough of them
      rw [if_neg (fun hne => hne hfill), show count - freeOfSize free type.multiple = 0 by omega]
      refine ⟨_, _, rest, rfl, hok, ?_, by rw [hwsize]; omega, ?_, hsame, hsub⟩
      · rw [length_insertionSort, hfill]
      · rw [steps_zero, append_nil]
        exact (((perm_insertionSort _ _).map _).append_right _).trans hperm
    · rw [if_pos hfill, show count - freeOfSize free type.multiple = count - chain.length by omega]
      -- the list is written when it has changed
      have hmid : ∃ g, (if chain = [] then f else gdbWriteFreeBlockList f rest) = g ∧ ListOk g rest ∧ g.size = f.size ∧
          ∀ p, dbMainTreeOffset ≤ p → p < f.size → g.byte p = f.byte p := by
        by_cases hc : chain = []
        · subst hc
          have hrest : rest = free := hsub.eq_of_length (by
            have := hperm.length_eq
            simpa using this)
          rw [if_pos rfl, hrest]
          exact ⟨f, rfl, h, rfl, fun _ _ _ => rfl⟩
        · rw [if_neg hc]
          exact ⟨_, rfl, hok, hwsize, hsame⟩
      obtain ⟨g, hg, hgok, hgsize, hgsame⟩ := hmid
      rw [hg]
      refine ⟨_, _, rest, rfl, hgok.pad _, ?_, by rw [gdbPad_size, hgsize], ?_, fun p h1 h2 => ?_, hsub⟩
      · rw [length_insertionSort, length_append, newOffsets_length]
        omega
      · refine (((perm_insertionSort _ _).map _).append_right _).trans ?_
        rw [map_append, map_newOffsets, hgsize, append_assoc]
        refine (List.Perm.append_left _ perm_append_comm).trans ?_
        rw [← append_assoc]
        exact hperm.append_right _
      · rw [gdbPad_byte _ _ (by omega), hgsame p h1 h2]

theorem gdbFreeBlockChain_nil {f : ByteFile} (h : gdbGetFreeBlockList f = some []) (chain : List Offset)
    (h0 : count ≠ 0) (hcount : count < 65536) (type : BlockType) : gdbFreeBlockChain f chain count type =
      some (gdbWriteFreeBlockList f ((chain.take count).map fun o => ⟨type.multiple, o⟩)) := by
  unfold gdbFreeBlockChain
  simp only [Nat.mod_eq_of_lt hcount, if_neg h0, h, bind_eq_bind, bind_some, if_true]
  rfl

/-- **Freeing a chain**: its first `count` blocks join the list. -/
theorem gdbFreeBlockChain_spec {f : ByteFile} {free : List GdbFreeBlock} (h : ListOk f free) (chain : List Offset) (count : ℕ)
    (type : BlockType) (hoffset : ∀ o ∈ chain, o < 4294967296) (hroom : free.length + (chain.take (count % 65536)).length ≤ 340) :
    ∃ f' free', gdbFreeBlockChain f chain count type = some f' ∧ ListOk f' free' ∧ f'.size = f.size ∧ (free'.map GdbFreeBlock.extent).Perm
        (free.map GdbFreeBlock.extent ++ (chain.take (count % 65536)).map fun o => (o, type.multiple)) ∧
      ∀ p, dbMainTreeOffset ≤ p → p < f.size → f'.byte p = f.byte p := by
  have hmult := type.multiple_bounds
  have hfits : ∀ b ∈ (chain.take (count % 65536)).map fun o => (⟨type.multiple, o⟩ : GdbFreeBlock), b.Fits := by
    intro b hb
    obtain ⟨o, ho, rfl⟩ := List.mem_map.1 hb
    exact ⟨by dsimp only; omega, hoffset o (mem_of_mem_take ho)⟩
  unfold gdbFreeBlockChain
  simp only [h.list, bind_eq_bind, bind_some]
  by_cases h0 : count % 65536 = 0
  · rw [if_pos h0, h0]
    exact ⟨f, free, rfl, h, rfl, by simp, fun _ _ _ => rfl⟩
  · rw [if_neg h0]
    have hlist : ∃ new, (if free = [] then (pure (gdbWriteFreeBlockList f
          ((chain.take (count % 65536)).map fun o => (⟨type.multiple, o⟩ : GdbFreeBlock))) : Option ByteFile)
        else pure (gdbWriteFreeBlockList f ((free ++ (chain.take (count % 65536)).map fun o =>
          (⟨type.multiple, o⟩ : GdbFreeBlock)).insertionSort blockCompare))) = some (gdbWriteFreeBlockList f new) ∧
        new.Perm (free ++ (chain.take (count % 65536)).map fun o => (⟨type.multiple, o⟩ : GdbFreeBlock)) := by
      by_cases hfree : free = []
      · rw [if_pos hfree, hfree]
        exact ⟨_, rfl, List.Perm.refl _⟩
      · rw [if_neg hfree]
        exact ⟨_, rfl, perm_insertionSort _ _⟩
    obtain ⟨new, hnew, hperm⟩ := hlist
    have hlen : new.length ≤ 340 := by
      rw [hperm.length_eq, length_append, length_map]; exact hroom
    have hfits' : ∀ b ∈ new, b.Fits := by
      intro b hb
      rcases mem_append.1 (hperm.mem_iff.1 hb) with hb | hb
      · exact h.fits b hb
      · exact hfits b hb
    refine ⟨_, new, hnew, ListOk.write f hlen h.size hfits', write_size f hlen h.size, ?_,
      fun p h1 h2 => byte_writeFreeBlockList f hlen h1 h2⟩
    have := hperm.map GdbFreeBlock.extent
    rw [map_append, List.map_map] at this
    exact this

end KVStores.Gdb
