import KVStores.Gdb.BlockWrite

/-!
# New databases

`gdbCreate` (`db.c`): the database header, room for the free list, and the header block of
the main tree. `gdbCreate_database`: the file is a database whose one live block is that header.
-/

namespace KVStores.Gdb

open List Option

inductive GdbType
  | indexFile
  | dataFile
deriving DecidableEq

def GdbType.toByte : GdbType → UInt8
  | indexFile => 0
  | dataFile => 1

/-- `gdbWriteHeader`: `DB_MAGIC`, the version, the type, and padding. -/
def gdbWriteHeader (f : ByteFile) (type : GdbType) : ByteFile :=
  f.write 0 ([1, 71, 68, 66, 68, 66, 70, 2] ++ [0, 2] ++ [type.toByte] ++ [0, 0, 0, 0, 0])

def btreeWriteHeader (tree : BTreeHeader) : List UInt8 :=
  bigEndian 1 tree.order ++ bigEndian 4 tree.size ++ bigEndian 4 tree.root ++ bigEndian 4 tree.leftLeaf

/-- The file that `fopen` with mode `w+` leaves. -/
def emptyFile : ByteFile := ⟨fun _ => 0, 0⟩

def newHeaderBlock : GdbBlock := ⟨⟨.btreeHeader, 0, 0, btreeWriteHeader btreeCreateHeader⟩, []⟩

def formattedFile (type : GdbType) : ByteFile :=
  (gdbWriteHeader emptyFile type).write dbFreeBlockListOffset (List.replicate dbFreeBlockListSize 0)

/-- `gdbCreate`, with the `btreeCreate` of the main tree. -/
def gdbCreate (type : GdbType) : Option (GdbBlock × ByteFile) := gdbWriteBlock (formattedFile type) newHeaderBlock

def mainHeaderBlock : GdbBlock := { newHeaderBlock with chain := [dbMainTreeOffset] }

theorem formattedFile_size (type : GdbType) : (formattedFile type).size = dbMainTreeOffset := by
  have hheader : (gdbWriteHeader emptyFile type).size = 16 := by cases type <;> decide
  have hlen : (List.replicate dbFreeBlockListSize (0 : UInt8)).length = dbFreeBlockListSize := length_replicate
  unfold formattedFile
  rw [ByteFile.size_write_end (ne_nil_of_length_pos (by rw [hlen]; decide)) (by rw [hlen, hheader]; decide), hlen]
  rfl

theorem formattedFile_list (type : GdbType) : ListOk (formattedFile type) [] where
  list := by
    have hlen : (List.replicate dbFreeBlockListSize (0 : UInt8)).length = dbFreeBlockListSize := length_replicate
    have hroom : (formattedFile type).read dbFreeBlockListOffset dbFreeBlockListSize = List.replicate dbFreeBlockListSize 0 := by
      have h := @ByteFile.read_write_same (gdbWriteHeader emptyFile type) dbFreeBlockListOffset (List.replicate dbFreeBlockListSize 0)
      rwa [hlen] at h
    have hin : dbFreeBlockListOffset + dbFreeBlockListSize ≤ (formattedFile type).size := le_of_eq (formattedFile_size type).symm
    have h : (formattedFile type).read dbFreeBlockListOffset 4 = List.replicate 4 0 := by
      rw [← Nat.add_zero dbFreeBlockListOffset, ByteFile.read_part hin (show 0 + 4 ≤ dbFreeBlockListSize by decide), hroom,
        drop_zero, take_replicate]
      rfl
    unfold gdbGetFreeBlockList
    rw [h]
    rw [if_pos (by decide)]
  room := by decide
  size := le_of_eq (formattedFile_size type).symm
  fits b hb := absurd hb (by simp)

theorem gdbWriteBlock_new {f : ByteFile} (h : ListOk f []) (content : BlockContent)
    {count : ℕ} (hcount : gdbGetNeededBlockCount content.payload.length content.type.multiple = count) (h0 : count ≠ 0)
    (hlt : count < 65536) : ∃ f', gdbWriteBlock f { content with chain := [] } =
      some ({ content with chain := newOffsets f content.type.multiple count }, f') := by
  have hsize := h.size
  have hhead : (newOffsets f content.type.multiple count).headD 0 ≠ 0 := by
    obtain ⟨n, rfl⟩ := Nat.exists_eq_succ_of_ne_zero h0
    have h1 : (newOffsets f content.type.multiple (n + 1)).headD 0 = f.size + 0 * content.type.multiple := by
      rw [newOffsets, range_succ_eq_map]; rfl
    have h2 : (0 : ℕ) < dbMainTreeOffset := by decide
    rw [h1]
    exact Nat.pos_iff_ne_zero.1 (by omega)
  have hfor : chainFor f { content with chain := [] } count =
      some (newOffsets f content.type.multiple count, gdbPad f (count * content.type.multiple)) := by
    unfold chainFor gdbReserveBlockChain
    simp only [length_nil, Nat.sub_zero, Nat.mod_eq_of_lt hlt, if_neg h0, h.list, bind_eq_bind, bind_some]
    rw [if_neg (by omega)]
    rfl
  unfold gdbWriteBlock
  simp only [GdbBlock.multiple, hcount, hfor, bind_eq_bind, bind_some]
  rw [if_neg (by rw [newOffsets_length]; exact fun h => h.elim (fun h => h rfl) hhead), if_neg (by rw [length_nil]; omega)]
  exact ⟨_, rfl⟩

def createdFile (type : GdbType) : ByteFile := ((gdbCreate type).map Prod.snd).getD emptyFile

/-- **A new database**: nothing is free, and the header of the main tree is the one block. -/
theorem gdbCreate_database (type : GdbType) :
    gdbCreate type = some (mainHeaderBlock, createdFile type) ∧ (createdFile type).size = dbMainTreeOffset + 32 ∧
      Database (createdFile type) [] [mainHeaderBlock] := by
  have hlist := formattedFile_list type
  have hsafe : writeSafe (formattedFile type) newHeaderBlock.type 0 newHeaderBlock.payload := by
    unfold writeSafe
    rw [hlist.list, formattedFile_size]
    decide
  have hapart : Apart (newHeaderBlock.extents ++ List.flatMap GdbBlock.extents [] ++ List.map GdbFreeBlock.extent [])
      dbMainTreeOffset (formattedFile type).size := ⟨List.Pairwise.nil, by simp [GdbBlock.extents, newHeaderBlock]⟩
  obtain ⟨b, f, free, lost, fresh, heq, hout, hdb⟩ := Database.write hlist hapart (by simp) (by simp) (by decide) hsafe
  obtain ⟨f', hnew⟩ := gdbWriteBlock_new hlist newHeaderBlock.toBlockContent (show _ = 1 by decide) (by decide) (by decide)
  have hb : (mainHeaderBlock, f') = (b, f) := by
    refine Option.some.inj (Eq.trans ?_ heq)
    rw [show gdbWriteBlock (formattedFile type) newHeaderBlock = _ from hnew, newOffsets, formattedFile_size]
    rfl
  obtain ⟨rfl, rfl⟩ := Prod.mk.inj hb
  have hf : createdFile type = f' := by
    unfold createdFile gdbCreate
    rw [heq]
    rfl
  have hfree : free = [] := sublist_nil.1 (hout.sublist (Nat.zero_le _))
  subst hfree
  have hfresh : fresh = 1 := by
    have hlen := hout.perm.length_eq
    rw [hout.lost_nil (by decide)] at hlen
    simpa [GdbBlock.extents, mainHeaderBlock, newHeaderBlock] using hlen.symm
  rw [hf]
  refine ⟨heq, ?_, hdb⟩
  rw [hout.size, hfresh, formattedFile_size]
  rfl

end KVStores.Gdb
