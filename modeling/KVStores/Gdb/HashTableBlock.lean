import KVStores.Gdb.HashTable
import KVStores.Gdb.OffsetList

/-!
# Hash tables in blocks

* `htReadBlock_iff`: **a table is read as it was written**, in as many bytes as were announced, exactly when it takes less than
  65536 bytes and no chain is longer than 255.
-/

namespace KVStores.Gdb

open List Option GdbHashTable

def sizeBytes (v : HtValue) : List UInt8 := if typeSizes v.type = none then bigEndian 2 v.data.length else []

def bucketBytes (b : GdbBucket) : List UInt8 :=
  bigEndian 2 b.1.toNat ++ bigEndian 1 b.2.type.toNat ++ sizeBytes b.2 ++ b.2.data

def slotBytes (s : Slot) : List UInt8 := bigEndian 1 s.count.toNat ++ s.chain.flatMap bucketBytes

/-- `__getDataSize`, whose `size` has sixteen bits. -/
def getDataSize (t : GdbHashTable) : ℕ :=
  (t.slots.length + t.itemCount.toNat * 3 +
    (t.entries.map fun b => (if typeSizes b.2.type = none then 2 else 0) + b.2.data.length).sum) % 65536

def getTableSize (t : GdbHashTable) : ℕ := (3 + getDataSize t) % 65536

/-- `htWriteBlock`: the size that it announces, and the bytes that it puts into a buffer of this size. -/
def htWriteBlock (t : GdbHashTable) : ℕ × List UInt8 :=
  (getTableSize t, bigEndian 1 t.slots.length ++ bigEndian 2 t.itemCount.toNat ++ t.slots.flatMap slotBytes)

def readSize (type : HtType) (buffer : List UInt8) : Option (ℕ × List UInt8) :=
  if typeSizes type = none then gdbGet 2 buffer else some ((typeSizes type).getD 0, buffer)

def readBucket (buffer : List UInt8) : Option (GdbBucket × List UInt8) := do
  let (key, buffer) ← gdbGet 2 buffer
  let (type, buffer) ← gdbGet 1 buffer
  let type ← HtType.ofNat? type
  let (size, buffer) ← readSize type buffer
  if size ≤ buffer.length then return ((UInt16.ofNat key, ⟨type, buffer.take size⟩), buffer.drop size) else none

def readSlot (buffer : List UInt8) : Option (Slot × List UInt8) := do
  let (count, buffer) ← gdbGet 1 buffer
  let (chain, buffer) ← readTimes readBucket count buffer
  return (⟨UInt8.ofNat count, chain⟩, buffer)

def htReadBlock (buffer : List UInt8) : Option GdbHashTable := do
  let (bucketCount, buffer) ← gdbGet 1 buffer
  let (itemCount, buffer) ← gdbGet 2 buffer
  let (slots, _) ← readTimes readSlot bucketCount buffer
  return ⟨UInt16.ofNat itemCount, slots⟩

variable {buffer : List UInt8} {t : GdbHashTable} {m : Finmap fun _ : UInt16 => HtValue}

theorem readSize_bytes {v : HtValue} (h : v.Sized) (rest : List UInt8) :
    readSize v.type (sizeBytes v ++ rest) = some (v.data.length, rest) := by
  rw [readSize, sizeBytes]
  cases hs : typeSizes v.type with
  | none => exact gdbGet_bigEndian (k := 2) h.1 _
  | some n =>
    rw [h.2 n hs]
    rfl

theorem readBucket_bytes {b : GdbBucket} (h : b.2.Sized) (rest : List UInt8) : readBucket (bucketBytes b ++ rest) = some (b, rest) := by
  have htype : b.2.type.toNat < 256 ^ 1 ∧ HtType.ofNat? b.2.type.toNat = some b.2.type := by cases b.2.type <;> decide
  simp only [readBucket, bucketBytes, append_assoc, gdbGet_bigEndian (k := 2) b.1.toNat_lt, gdbGet_bigEndian htype.1, htype.2,
    readSize_bytes h, Option.bind_eq_bind, Option.bind_some, length_append, Nat.le_add_right, if_true, take_left, drop_left,
    UInt16.ofNat_toNat]
  rfl

theorem readSlot_bytes {s : Slot} (hs : ∀ b ∈ s.chain, b.2.Sized) (hcount : s.count.toNat = s.chain.length) (rest : List UInt8) :
    readSlot (slotBytes s ++ rest) = some (s, rest) := by
  have hchain := readTimes_flatMap (fun b hb => readBucket_bytes (hs b hb)) rest
  rw [← hcount] at hchain
  simp only [readSlot, slotBytes, append_assoc, gdbGet_bigEndian (k := 1) s.count.toNat_lt, hchain, Option.bind_eq_bind,
    Option.bind_some, UInt8.ofNat_toNat]
  rfl

theorem readSlot_short {r : Slot × List UInt8} (h : readSlot buffer = some r) : r.1.chain.length ≤ 255 := by
  obtain ⟨⟨count, b₁⟩, hcount, h⟩ := Option.bind_eq_some_iff.mp h
  obtain ⟨⟨chain, b₂⟩, hchain, h⟩ := Option.bind_eq_some_iff.mp h
  cases h
  rw [(readTimes_forall (P := fun _ => True) (fun _ _ _ => trivial) hchain).1]
  exact Nat.le_of_lt_succ (gdbGet_lt hcount)

def neededSize (t : GdbHashTable) : ℕ :=
  3 + t.slots.length + (t.entries.map fun b => 3 + ((if typeSizes b.2.type = none then 2 else 0) + b.2.data.length)).sum

theorem length_bytes (t : GdbHashTable) : (htWriteBlock t).2.length = neededSize t := by
  have hbucket : ∀ b : GdbBucket, (bucketBytes b).length = 3 + ((if typeSizes b.2.type = none then 2 else 0) + b.2.data.length) := by
    intro b
    rw [bucketBytes, sizeBytes]
    split_ifs <;> simp <;> omega
  rw [htWriteBlock, neededSize, entries]
  induction t.slots with
  | nil => rfl
  | cons s slots ih =>
    simp only [flatMap_cons, length_append, slotBytes, bigEndian_length, length_flatMap, hbucket, map_append, sum_append, length_cons] at ih ⊢
    omega

theorem getTableSize_eq (h : HashOk t m) : getTableSize t = neededSize t % 65536 := by
  have hsum : ∀ l : List GdbBucket, (l.map fun b => 3 + ((if typeSizes b.2.type = none then 2 else 0) + b.2.data.length)).sum =
      l.length * 3 + (l.map fun b => (if typeSizes b.2.type = none then 2 else 0) + b.2.data.length).sum := by
    intro l
    induction l with
    | nil => rfl
    | cons b l ih =>
      rw [map_cons, map_cons, sum_cons, sum_cons, ih, length_cons]
      omega
  have hitems : t.itemCount.toNat = t.entries.length % 65536 := by
    rw [h.itemCount]
    exact UInt16.toNat_ofNat'
  rw [getTableSize, getDataSize, neededSize, hsum, hitems]
  omega

theorem htWriteBlock_long {value : CStr} (hlen : value.strlen = 65535) : ∃ t,
    HtCall.run htCreate [.addString 1 value] = some ([false], t) ∧ (htWriteBlock t).1 < (htWriteBlock t).2.length := by
  have hne : value.bytes ≠ [] := fun h => by cases (congrArg List.length h).symm.trans hlen
  have hsafe : HtCall.SafeRun htCreate [.addString 1 value] := ⟨Or.inl (Nat.succ_pos 254), fun _ _ => trivial⟩
  obtain ⟨t, hrun, -, h⟩ := hsafe.spec HashOk.htCreate (by decide) fun c hc => by
    rw [eq_of_mem_singleton hc]
    exact ⟨by decide, hlen.le⟩
  have hmem : ((1 : UInt16), HtValue.mk .string value.bytes) ∈ t.entries := by
    rw [h.lists.pair]
    simp [HtCall.runSpec, HtCall.spec, HtCall.value, HtCall.key, hne]
  have hsum := le_sum_of_mem (mem_map_of_mem
    (f := fun b : GdbBucket => 3 + ((if typeSizes b.2.type = none then 2 else 0) + b.2.data.length)) hmem)
  have hdata : value.bytes.length = 65535 := hlen
  refine ⟨t, hrun, ?_⟩
  rw [length_bytes, show (htWriteBlock t).1 = getTableSize t from rfl, getTableSize_eq h, neededSize, h.slots]
  rw [hdata] at hsum
  omega

def hexToDec (x : UInt8) : UInt8 := if 48 ≤ x ∧ x ≤ 57 then x - 48 else if 97 ≤ x ∧ x ≤ 102 then x - 97 + 10 else 0

/-- The loop of `__compressMd5`. -/
@[grind =] def packNibbles : List UInt8 → List UInt8
  | a :: b :: md5 => ((hexToDec a <<< 4 &&& 0xf0) ||| (hexToDec b &&& 0x0f)) :: packNibbles md5
  | _ => []

def compressMd5 (md5 : CStr) : CStr := cstr (packNibbles (md5.bytes.take 32))

/-- The loop of `__decompressMd5`, which reads the array that it writes. -/
def unpackNibbles (newMd5 : ℕ → UInt8) (n : ℕ) : ℕ → UInt8 :=
  (List.range n).foldl (fun a i =>
    let a := Function.update a (2 * i) (a i >>> 4 &&& 0x0f)
    Function.update a (2 * i + 1) (a (2 * i) &&& 0x0f)) newMd5

/-- `__decompressMd5`, with what is in its array before. -/
def decompressMd5 (newMd5 : ℕ → UInt8) (_md5 : CStr) : CStr := cstr ((List.range 32).map (unpackNibbles newMd5 16))

def gdbtagChecksum : UInt16 := 122

/-- What `__addPackageFiles` does with a checksum. -/
def addChecksum (t : GdbHashTable) (md5 : CStr) : Option GdbHashTable := t.htAddString gdbtagChecksum (compressMd5 md5)

/-- The checksum that `dbGetFiles` sets. -/
def getChecksum (newMd5 : ℕ → UInt8) (t : GdbHashTable) : Option CStr :=
  (t.htGetString gdbtagChecksum).map fun str => if str.strlen = 16 then decompressMd5 newMd5 str else str

def IsMd5 (md5 : CStr) : Prop := md5.strlen = 32 ∧ ∀ c ∈ md5.bytes, 48 ≤ c ∧ c ≤ 57 ∨ 97 ≤ c ∧ c ≤ 102

theorem packNibbles_length (md5 : List UInt8) : 2 * (packNibbles md5).length ≤ md5.length := by
  fun_induction packNibbles md5 with
  | case1 a b md5 ih =>
    simp only [length_cons]
    omega
  | case2 => simp

theorem unpackNibbles_lt (newMd5 : ℕ → UInt8) (n : ℕ) : ∀ j < 2 * n, unpackNibbles newMd5 n j < 16 := by
  have hnibble : ∀ c : UInt8, c &&& 0x0f < 16 := fun c => by
    exact Nat.lt_of_le_of_lt Nat.and_le_right (by decide)
  induction n with
  | zero => exact fun j hj => absurd hj (Nat.not_lt_zero j)
  | succ n ih =>
    intro j hj
    rw [unpackNibbles, range_succ, foldl_append]
    change Function.update (Function.update (unpackNibbles newMd5 n) _ _) _ _ j < 16
    rcases eq_or_ne j (2 * n + 1) with rfl | h1
    · rw [Function.update_self]
      exact hnibble _
    · rw [Function.update_of_ne h1]
      rcases eq_or_ne j (2 * n) with rfl | h2
      · rw [Function.update_self]
        exact hnibble _
      · rw [Function.update_of_ne h2]
        exact ih j (by omega)

theorem cstr_strlen_le (buffer : List UInt8) : (cstr buffer).strlen ≤ buffer.length := (takeWhile_sublist _).length_le

/-- **No checksum is read as it was stored** in a table that had none. -/
theorem checksum_lost {cs : List HtCall} {bs : List Bool} (h : HtCall.run htCreate cs = some (bs, t))
    (hnew : t.htGetData gdbtagChecksum = none) {md5 : CStr} (hmd5 : IsMd5 md5) (newMd5 : ℕ → UInt8) :
    (addChecksum t md5).bind (getChecksum newMd5) ≠ some md5 := by
  obtain ⟨m, hok⟩ := HtCall.run_ok HashOk.htCreate h
  have hshort : (compressMd5 md5).strlen ≤ 16 := by
    have hpack := packNibbles_length (md5.bytes.take 32)
    have hcut := cstr_strlen_le (packNibbles (md5.bytes.take 32))
    have htake := length_take_le 32 md5.bytes
    rw [compressMd5]
    omega
  have hdecompress : ∀ str, decompressMd5 newMd5 str ≠ md5 := fun str heq => by
    obtain ⟨c, hc⟩ := exists_mem_of_length_pos (lt_of_lt_of_eq (Nat.succ_pos 31) hmd5.1.symm)
    have hcell := hc
    rw [← heq] at hcell
    obtain ⟨j, hj, rfl⟩ := List.mem_map.mp ((takeWhile_sublist _).subset hcell)
    have hlt := unpackNibbles_lt newMd5 16 j (mem_range.mp hj)
    have hge := hmd5.2 _ hc
    simp only [UInt8.le_iff_toNat_le, UInt8.lt_iff_toNat_lt] at hlt hge
    change _ < 16 at hlt
    change 48 ≤ _ ∧ _ ∨ 97 ≤ _ ∧ _ at hge
    omega
  intro heq
  obtain ⟨t', hadd, hget⟩ := Option.bind_eq_some_iff.mp heq
  obtain ⟨str, hstr, hresult⟩ := Option.map_eq_some_iff.mp hget
  have hstr16 : str.strlen ≤ 16 := by
    rw [addChecksum, htAddString] at hadd
    rw [htGetString] at hstr
    rcases htAdd_cases t gdbtagChecksum ((compressMd5 md5).bytes ++ [0]) 1 (UInt16.ofNat (compressMd5 md5).strlen) with
      ⟨hn, -⟩ | ⟨hsame, -⟩ | ⟨s, v, hput, hs, hvalue, hsized⟩
    · rw [hn] at hadd
      cases hadd
    · rw [hsame] at hadd
      cases hadd
      rw [hnew] at hstr
      cases hstr
    · rw [hput] at hadd
      cases hadd
      rw [htValue_string (by omega)] at hvalue
      split_ifs at hvalue
      cases hvalue
      rw [(hok.put hs hsized).htGetData (by decide), Finmap.lookup_insert] at hstr
      dsimp only at hstr
      split_ifs at hstr
      cases hstr
      exact (cstr_strlen_le _).trans hshort
  split_ifs at hresult
  · exact hdecompress _ hresult
  · rw [hresult, hmd5.1] at hstr16
    omega

theorem zero_notMem_ones : (0 : UInt8) ∉ List.replicate 32 49 := by decide

def ones : CStr := ⟨List.replicate 32 49, zero_notMem_ones⟩

theorem checksum_lost_ones : (addChecksum htCreate ones).bind (getChecksum fun _ => 0) ≠ some ones :=
  checksum_lost (show HtCall.run htCreate [] = some ([], htCreate) from rfl) rfl ⟨rfl, fun c hc => by rw [eq_of_mem_replicate hc]; decide⟩ _

/-- Nothing is left of them. -/
theorem ones_read : ((addChecksum htCreate ones).bind (getChecksum fun _ => 0)).map CStr.bytes = some [] ∧ ones.bytes ≠ [] := by
  decide

end KVStores.Gdb
