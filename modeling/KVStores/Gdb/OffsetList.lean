import KVStores.Lib.ByteFile
import KVStores.Lib.Memory
import Mathlib.Data.List.GetD

/-!
# Offset lists

A list of offsets in an array that is doubled when it is full; its count and the size of its array have sixteen bits
(`offsetlist.c`).
-/

namespace KVStores.Gdb

open List Option

/-- `gdbGet8`, `gdbGet16` and `gdbGet32`. -/
def gdbGet (n : ℕ) (buffer : List UInt8) : Option (ℕ × List UInt8) :=
  if n ≤ buffer.length then some (ofBigEndian (buffer.take n), buffer.drop n) else none

@[grind =] def readTimes {α : Type} (read : List UInt8 → Option (α × List UInt8)) : ℕ → List UInt8 → Option (List α × List UInt8)
  | 0, buffer => some ([], buffer)
  | n + 1, buffer => (read buffer).bind fun r => (readTimes read n r.2).map fun q => (r.1 :: q.1, q.2)

section

variable {α : Type} {read : List UInt8 → Option (α × List UInt8)} {bytes : α → List UInt8} {l : List α} {buffer : List UInt8} {n : ℕ}

theorem gdbGet_bigEndian {k : ℕ} (h : n < 256 ^ k) (rest : List UInt8) : gdbGet k (bigEndian k n ++ rest) = some (n, rest) := by
  have hlen := bigEndian_length k n
  rw [gdbGet, if_pos (by rw [length_append, hlen]; omega), take_left' hlen, drop_left' hlen, ofBigEndian_bigEndian_of_lt h]

theorem gdbGet_lt {rest : List UInt8} {k : ℕ} (h : gdbGet k buffer = some (n, rest)) : n < 256 ^ k := by
  rw [gdbGet] at h
  split_ifs at h with hk
  cases h
  have hlt := ofBigEndian_lt (buffer.take k)
  rwa [length_take_of_le hk] at hlt

theorem readTimes_flatMap (h : ∀ a ∈ l, ∀ rest, read (bytes a ++ rest) = some (a, rest)) (rest : List UInt8) :
    readTimes read l.length (l.flatMap bytes ++ rest) = some (l, rest) := by
  induction l with
  | nil => rfl
  | cons a l ih =>
    rw [length_cons, readTimes, flatMap_cons, append_assoc, h a mem_cons_self, Option.bind_some, ih fun b hb => h b (mem_cons_of_mem _ hb)]
    rfl

theorem readTimes_forall {P : α → Prop} (h : ∀ buffer r, read buffer = some r → P r.1) {r : List α × List UInt8}
    (hr : readTimes read n buffer = some r) : r.1.length = n ∧ ∀ a ∈ r.1, P a := by
  induction n generalizing buffer r with
  | zero =>
    cases hr
    exact ⟨rfl, fun a ha => by cases ha⟩
  | succ n ih =>
    obtain ⟨q, hq, hrest⟩ := Option.bind_eq_some_iff.mp hr
    obtain ⟨p, hp, rfl⟩ := Option.map_eq_some_iff.mp hrest
    obtain ⟨hlen, hall⟩ := ih hp
    exact ⟨congrArg (· + 1) hlen, forall_mem_cons.mpr ⟨h _ _ hq, hall⟩⟩

end

/-- `GdbOffsetList`, with the cells of its array. -/
structure GdbOffsetList where
  arraySize : UInt16
  count : UInt16
  offsets : List UInt32

/-- `olCreateBlock`. New memory may hold anything. -/
def olCreateBlock (memory : ℕ → UInt32) : GdbOffsetList := ⟨10, 0, (range 10).map memory⟩

/-- The array with room for one more: `olAddOffset` doubles a full one. -/
def olExpand (l : GdbOffsetList) : Option GdbOffsetList :=
  if l.count = l.arraySize then
    (Memory.read l.offsets 0 l.count.toNat).map fun old =>
      ⟨UInt16.ofNat (l.arraySize.toNat * 2), l.count, old ++ List.replicate (l.arraySize.toNat * 2 - old.length) 0⟩
  else some l

def olAddOffset (l : GdbOffsetList) (offset : UInt32) : Option GdbOffsetList :=
  if offset = 0 then some l
  else do
    let l ← olExpand l
    let offsets ← Memory.write l.offsets l.count.toNat [offset]
    return ⟨l.arraySize, l.count + 1, offsets⟩

def olGetOffset (l : GdbOffsetList) (index : UInt16) : UInt32 := if l.count ≤ index then 0 else l.offsets.getD index.toNat 0

def olGetCount (l : GdbOffsetList) : UInt16 := l.count

def olWriteBlock (l : GdbOffsetList) : Option (List UInt8) :=
  (Memory.read l.offsets 0 l.count.toNat).map fun offsets =>
    bigEndian 2 l.count.toNat ++ offsets.flatMap fun o => bigEndian 4 o.toNat

/-- A list as `olReadBlock` makes it, in an array of at least ten cells. -/
def olNewList (memory : ℕ → UInt32) (count : ℕ) (offsets : List UInt32) : GdbOffsetList :=
  ⟨UInt16.ofNat (max 10 count), UInt16.ofNat count, offsets ++ (range (max 10 count - count)).map memory⟩

def olReadBlock (memory : ℕ → UInt32) (buffer : List UInt8) : Option GdbOffsetList := do
  let (count, buffer) ← gdbGet 2 buffer
  let (offsets, _) ← readTimes (fun b => (gdbGet 4 b).map fun r => (UInt32.ofNat r.1, r.2)) count buffer
  return olNewList memory count offsets

def offsetsOf (l : GdbOffsetList) : List UInt32 := (range (olGetCount l).toNat).map fun i => olGetOffset l (UInt16.ofNat i)

variable {l : GdbOffsetList} {os : List UInt32} {memory : ℕ → UInt32}

/-- The array starts with the offsets. It has as many cells as `arraySize` says, or more than the count will reach. -/
structure OffsetListOk (l : GdbOffsetList) (os : List UInt32) : Prop where
  count : l.count.toNat = os.length
  cells : ∃ rest, l.offsets = os ++ rest
  room : l.offsets.length = l.arraySize.toNat ∧ 0 < l.arraySize.toNat ∨ 65536 ≤ l.offsets.length ∧ 0 < os.length

namespace OffsetListOk

theorem offsetsOf (h : OffsetListOk l os) : offsetsOf l = os := by
  obtain ⟨rest, hcells⟩ := h.cells
  have hlen := h.count
  refine List.ext_getElem (by simp [Gdb.offsetsOf, olGetCount, hlen]) fun i hi hos => ?_
  have hlt : i < 65536 := by
    have := l.count.toNat_lt
    omega
  have hi16 : (UInt16.ofNat i).toNat = i := UInt16.toNat_ofNat_of_lt' hlt
  have hnot : ¬ l.count ≤ UInt16.ofNat i := by
    rw [UInt16.le_iff_toNat_le, hi16, hlen]
    omega
  simp only [Gdb.offsetsOf]
  rw [getElem_map, getElem_range, olGetOffset, if_neg hnot, hi16, hcells, getD_append _ _ _ _ hos, getD_eq_getElem _ _ hos]

theorem read (h : OffsetListOk l os) : Memory.read l.offsets 0 l.count.toNat = some os := by
  obtain ⟨rest, hcells⟩ := h.cells
  rw [hcells]
  exact Memory.read_at (a := []) rfl h.count

theorem expand (h : OffsetListOk l os) (hlt : os.length < 65535) : ∃ l' x rest, olExpand l = some l' ∧ l'.count = l.count ∧
    l'.offsets = os ++ x :: rest ∧ (l'.offsets.length = l'.arraySize.toNat ∧ 0 < l'.arraySize.toNat ∨ 65536 ≤ l'.offsets.length) := by
  obtain ⟨rest, hcells⟩ := h.cells
  have hroom := h.room
  have hcount := h.count
  unfold olExpand
  split_ifs with hfull
  · rw [← hfull, hcount] at hroom ⊢
    -- there are offsets, so that the doubled array is longer
    obtain ⟨n, hn⟩ : ∃ n, os.length * 2 - os.length = n + 1 := Nat.exists_eq_succ_of_ne_zero (by omega)
    refine ⟨⟨UInt16.ofNat (os.length * 2), l.count, os ++ 0 :: List.replicate n 0⟩, 0, List.replicate n 0, ?_, rfl, rfl, ?_⟩
    · rw [← hcount, h.read, hcount, Option.map_some, hn]
      rfl
    by_cases hbig : os.length * 2 < 65536
    · refine Or.inl ?_
      rw [UInt16.toNat_ofNat_of_lt' hbig, length_append, length_cons, length_replicate]
      omega
    · refine Or.inr ?_
      rw [length_append, length_cons, length_replicate]
      omega
  · have hne : l.count.toNat ≠ l.arraySize.toNat := fun heq => hfull (UInt16.toNat_inj.mp heq)
    cases rest with
    | nil =>
      rw [hcells, append_nil] at hroom
      omega
    | cons x rest => exact ⟨l, x, rest, rfl, rfl, hcells, hroom.imp_right And.left⟩

/-- **One offset more**, while the count does not overflow. -/
theorem add (h : OffsetListOk l os) (hlt : os.length < 65535) {o : UInt32} (ho : o ≠ 0) :
    ∃ l', olAddOffset l o = some l' ∧ OffsetListOk l' (os ++ [o]) := by
  obtain ⟨l', x, rest, hl, hcount, hcells, hroom⟩ := h.expand hlt
  have hwrite : Memory.write l'.offsets l'.count.toNat [o] = some (os ++ [o] ++ rest) := by
    rw [hcells, show os ++ x :: rest = os ++ [x] ++ rest by simp]
    exact Memory.write_at (hcount ▸ h.count) rfl
  refine ⟨⟨l'.arraySize, l'.count + 1, os ++ [o] ++ rest⟩, ?_, ?_, ⟨rest, rfl⟩, ?_⟩
  · rw [olAddOffset, if_neg ho, hl, Option.bind_eq_bind, Option.bind_some, hwrite]
    rfl
  · rw [length_append, hcount]
    rw [UInt16.toNat_add, h.count]
    exact Nat.mod_eq_of_lt (show os.length + 1 < 65536 by omega)
  · have hlen : (os ++ [o] ++ rest).length = l'.offsets.length := by
      rw [hcells]
      simp
    rw [hlen]
    exact hroom.imp_right fun hbig => ⟨hbig, by simp⟩

theorem addAll {new : List UInt32} (h : OffsetListOk l os) (hlt : os.length + new.length < 65536) (hne : ∀ o ∈ new, o ≠ 0) :
    ∃ l', new.foldlM olAddOffset l = some l' ∧ OffsetListOk l' (os ++ new) := by
  induction new generalizing l os with
  | nil => exact ⟨l, rfl, (append_nil os).symm ▸ h⟩
  | cons o new ih =>
    rw [length_cons] at hlt
    obtain ⟨l₁, hadd, h₁⟩ := h.add (by omega) (hne o mem_cons_self)
    obtain ⟨l₂, hall, h₂⟩ := ih h₁ (by rw [length_append]; change _ + 1 + _ < _; omega) fun o ho => hne o (mem_cons_of_mem _ ho)
    exact ⟨l₂, by rw [foldlM_cons, hadd]; exact hall, by simpa using h₂⟩

theorem create (memory : ℕ → UInt32) : OffsetListOk (olCreateBlock memory) [] :=
  ⟨rfl, ⟨_, rfl⟩, Or.inl ⟨rfl, Nat.succ_pos 9⟩⟩

theorem newList (memory : ℕ → UInt32) {count : ℕ} (hlen : os.length = count) (hlt : count < 65536) :
    OffsetListOk (olNewList memory count os) os := by
  refine ⟨(UInt16.toNat_ofNat_of_lt' hlt).trans hlen.symm, ⟨_, rfl⟩, Or.inl ?_⟩
  have hsize : (UInt16.ofNat (max 10 count)).toNat = max 10 count := UInt16.toNat_ofNat_of_lt' (max_lt (by decide) hlt)
  rw [olNewList, hsize, length_append, length_map, length_range]
  omega

/-- **What was written is read.** -/
theorem read_write (h : OffsetListOk l os) (memory : ℕ → UInt32) :
    ∃ l', (olWriteBlock l).bind (olReadBlock memory) = some l' ∧ OffsetListOk l' os := by
  have hcount := h.count
  have hlt : os.length < 256 ^ 2 := hcount ▸ l.count.toNat_lt
  have hread : readTimes (fun b => (gdbGet 4 b).map fun r => (UInt32.ofNat r.1, r.2)) os.length
      (os.flatMap (fun o => bigEndian 4 o.toNat) ++ []) = some (os, []) :=
    readTimes_flatMap (fun o _ rest => by rw [gdbGet_bigEndian o.toNat_lt]; simp) []
  rw [append_nil] at hread
  refine ⟨olNewList memory os.length os, ?_, newList memory rfl hlt⟩
  rw [olWriteBlock, h.read, Option.map_some, Option.bind_some, hcount, olReadBlock, gdbGet_bigEndian hlt, Option.bind_eq_bind,
    Option.bind_some]
  dsimp only
  rw [hread]
  rfl

end OffsetListOk

/-- What `olCreate` and `olOpen` give. -/
def OpenedList (l : GdbOffsetList) : Prop := ∃ memory, l = olCreateBlock memory ∨ ∃ buffer, olReadBlock memory buffer = some l

theorem OpenedList.ok (h : OpenedList l) : ∃ os, OffsetListOk l os := by
  obtain ⟨memory, rfl | ⟨buffer, h⟩⟩ := h
  · exact ⟨[], OffsetListOk.create memory⟩
  · obtain ⟨⟨count, b₁⟩, hcount, h⟩ := Option.bind_eq_some_iff.mp h
    obtain ⟨⟨os, b₂⟩, hos, h⟩ := Option.bind_eq_some_iff.mp h
    cases h
    exact ⟨os, OffsetListOk.newList memory (readTimes_forall (P := fun _ => True) (fun _ _ _ => trivial) hos).1 (gdbGet_lt hcount)⟩

/-- **The offsets are read as they were added**, behind those that were there, exactly when the count does not overflow. -/
theorem olAddOffsets_iff (h : OpenedList l) (hne : ∀ o ∈ os, o ≠ 0) (memory : ℕ → UInt32) :
    (((os.foldlM olAddOffset l).bind olWriteBlock).bind (olReadBlock memory)).map offsetsOf = some (offsetsOf l ++ os) ↔
      (olGetCount l).toNat + os.length < 65536 := by
  obtain ⟨old, hold⟩ := h.ok
  rw [olGetCount, hold.count, hold.offsetsOf]
  constructor
  · intro hread
    obtain ⟨l', -, hl'⟩ := Option.map_eq_some_iff.mp hread
    have hlen := congrArg List.length hl'
    rw [Gdb.offsetsOf, length_map, length_range, length_append] at hlen
    exact hlen ▸ (olGetCount l').toNat_lt
  · intro hlt
    obtain ⟨l₁, hadd, h₁⟩ := hold.addAll hlt hne
    obtain ⟨l₂, hread, h₂⟩ := h₁.read_write memory
    rw [hadd, Option.bind_some, hread, Option.map_some, h₂.offsetsOf]

theorem olAddOffsets_eleven : (((((range 11).map fun i => UInt32.ofNat (i + 1)).foldlM olAddOffset (olCreateBlock fun _ => 7)).bind
    olWriteBlock).bind (olReadBlock fun _ => 7)).map offsetsOf = some ([] ++ (range 11).map fun i => UInt32.ofNat (i + 1)) :=
  have hne : ((range 11).map fun i => UInt32.ofNat (i + 1)).all (· ≠ 0) = true := rfl
  (olAddOffsets_iff ⟨_, Or.inl rfl⟩ (fun o ho => of_decide_eq_true (List.all_eq_true.mp hne o ho)) _).mpr (by decide)

theorem olAddOffsets_overflow : ¬ (((((List.replicate 65536 1).foldlM olAddOffset (olCreateBlock fun _ => 7)).bind
    olWriteBlock).bind (olReadBlock fun _ => 7)).map offsetsOf = some (List.replicate 65536 1)) := by
  intro hread
  obtain ⟨l', -, hl'⟩ := Option.map_eq_some_iff.mp hread
  have hlen := congrArg List.length hl'
  rw [offsetsOf, length_map, length_range, length_replicate] at hlen
  have hlt := (olGetCount l').toNat_lt
  omega

end KVStores.Gdb
