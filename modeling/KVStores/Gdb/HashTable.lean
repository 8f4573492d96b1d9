import KVStores.Gdb.Strings
import KVStores.Lib.ByteFile
import KVStores.Lib.Listed
import KVStores.Lib.Memory
import Mathlib.Algebra.Order.BigOperators.Group.List

/-!
# Hash tables

A hash table keeps its buckets in eleven chains, with the length of each chain in one byte (`hashtable.c`).
-/

namespace KVStores.Gdb

open List Option

/-- The data types of the entries; `GDB_HT_RAW` to `GDB_HT_OFFSET`. -/
inductive HtType
  | raw
  | string
  | boolean
  | long
  | offset
deriving DecidableEq

@[grind =] def HtType.toNat : HtType → ℕ
  | raw => 0
  | string => 1
  | boolean => 2
  | long => 3
  | offset => 4

@[grind =] def HtType.ofNat? : ℕ → Option HtType
  | 0 => some raw
  | 1 => some string
  | 2 => some boolean
  | 3 => some long
  | 4 => some offset
  | _ => none

/-- `typeSizes`, where `none` is -1. -/
@[grind =] def typeSizes : HtType → Option ℕ
  | .raw => none
  | .string => none
  | .boolean => some 1
  | .long => some 4
  | .offset => some 4

/-- The type and the data of an entry; its size is the length of the data. -/
structure HtValue where
  type : HtType
  data : List UInt8
deriving DecidableEq

/-- `GdbBucket`: a key with its value. -/
abbrev GdbBucket := UInt16 × HtValue

/-- One of the `buckets`, with its number in `counts`. -/
structure Slot where
  count : UInt8
  chain : List GdbBucket
deriving DecidableEq

/-- `GdbHashTable`; `bucketCount` is the number of the slots. -/
structure GdbHashTable where
  itemCount : UInt16
  slots : List Slot
deriving DecidableEq

namespace GdbHashTable

/-- `htCreateBlock`. -/
def htCreate : GdbHashTable := ⟨0, List.replicate 11 ⟨0, []⟩⟩

def hash (t : GdbHashTable) (key : UInt16) : ℕ := key.toNat % t.slots.length

/-- The loops over a chain: what is before the first bucket of the key, its value, and what is behind. -/
@[grind =] def findBucket (key : UInt16) : List GdbBucket → Option (List GdbBucket × HtValue × List GdbBucket)
  | [] => none
  | b :: chain => if b.1 = key then some ([], b.2, chain) else (findBucket key chain).map fun r => (b :: r.1, r.2)

def Slot.add (s : Slot) (key : UInt16) (v : HtValue) : Slot :=
  match findBucket key s.chain with
  | some (before, _, after) => { s with chain := before ++ (key, v) :: after }
  | none => ⟨s.count + 1, (key, v) :: s.chain⟩

def put (t : GdbHashTable) (s : Slot) (key : UInt16) (v : HtValue) : GdbHashTable where
  itemCount := if (findBucket key s.chain).isSome then t.itemCount else t.itemCount + 1
  slots := t.slots.set (t.hash key) (Slot.add s key v)

/-- `htAdd`, on the bytes that `data` points to. `none` when it reads behind them. -/
def htAdd (t : GdbHashTable) (key : UInt16) (data : List UInt8) (type : UInt8) (size : UInt16) : Option GdbHashTable :=
  match HtType.ofNat? type.toNat with
  | none => some t
  | some type =>
    if key = 0 ∨ size = 0 then some t
    else do
      let data ← Memory.read data 0 ((typeSizes type).getD size.toNat)
      let s ← t.slots[t.hash key]?
      return t.put s key ⟨type, data⟩

/-- `htRemove`. `none` for the first bucket of a chain: `prevBucket` is still null then. -/
def htRemove (t : GdbHashTable) (key : UInt16) : Option (Bool × GdbHashTable) :=
  if key = 0 then some (false, t)
  else do
    let s ← t.slots[t.hash key]?
    match findBucket key s.chain with
    | none => return (false, t)
    | some ([], _, _) => none
    | some (before, _, after) =>
      return (true, { itemCount := t.itemCount - 1, slots := t.slots.set (t.hash key) ⟨s.count - 1, before ++ after⟩ })

def htGetData (t : GdbHashTable) (key : UInt16) : Option HtValue :=
  if key = 0 then none
  else do
    let s ← t.slots[t.hash key]?
    let (_, v, _) ← findBucket key s.chain
    return v

/-- `htAddString`. The test for an empty string looks at the pointer, but `htAdd` adds no empty data. -/
def htAddString (t : GdbHashTable) (key : UInt16) (value : CStr) : Option GdbHashTable :=
  htAdd t key (value.bytes ++ [0]) 1 (UInt16.ofNat value.strlen)

def htAddLong (t : GdbHashTable) (key : UInt16) (value : UInt32) : Option GdbHashTable :=
  htAdd t key (bigEndian 4 value.toNat) 3 4

def htAddOffset (t : GdbHashTable) (key : UInt16) (value : UInt32) : Option GdbHashTable :=
  if value = 0 then some t else htAdd t key (bigEndian 4 value.toNat) 4 4

/-- `gdbAddDataEntry`: it gives the size as the type, and the type as the size. -/
def gdbAddDataEntry (t : GdbHashTable) (key : UInt16) (data : List UInt8) (size : UInt32) : Option GdbHashTable :=
  if key = 0 ∨ size = 0 then some t else htAdd t key data (UInt8.ofNat size.toNat) 0

def htGetString (t : GdbHashTable) (key : UInt16) : Option CStr :=
  match t.htGetData key with
  | some ⟨.string, data⟩ => if data = [] then none else some (cstr data)
  | _ => none

def entries (t : GdbHashTable) : List GdbBucket := t.slots.flatMap Slot.chain

def chainOf (t : GdbHashTable) (key : UInt16) : List GdbBucket := ((t.slots[t.hash key]?).map Slot.chain).getD []

end GdbHashTable

open GdbHashTable

/-- The value of an addition: the type, and as many bytes as it takes. -/
def htValue (data : List UInt8) (type : UInt8) (size : UInt16) : Option HtValue :=
  if size = 0 then none else (HtType.ofNat? type.toNat).map fun type => ⟨type, data.take ((typeSizes type).getD size.toNat)⟩

def Readable (data : List UInt8) (type : UInt8) (size : UInt16) : Prop :=
  ∀ ty, HtType.ofNat? type.toNat = some ty → (typeSizes ty).getD size.toNat ≤ data.length

inductive HtCall
  | add (key : UInt16) (data : List UInt8) (type : UInt8) (size : UInt16)
  | addString (key : UInt16) (value : CStr)
  | addLong (key : UInt16) (value : UInt32)
  | addOffset (key : UInt16) (value : UInt32)
  | addDataEntry (key : UInt16) (data : List UInt8) (size : UInt32)
  | remove (key : UInt16)

namespace HtCall

@[grind =] def key : HtCall → UInt16
  | add key _ _ _ => key
  | addString key _ => key
  | addLong key _ => key
  | addOffset key _ => key
  | addDataEntry key _ _ => key
  | remove key => key

/-- The call, with the result of `htRemove`. -/
@[grind =] def exec (t : GdbHashTable) : HtCall → Option (Bool × GdbHashTable)
  | add key data type size => (t.htAdd key data type size).map (false, ·)
  | addString key value => (t.htAddString key value).map (false, ·)
  | addLong key value => (t.htAddLong key value).map (false, ·)
  | addOffset key value => (t.htAddOffset key value).map (false, ·)
  | addDataEntry key data size => (t.gdbAddDataEntry key data size).map (false, ·)
  | remove key => t.htRemove key

@[grind =] def value : HtCall → Option HtValue
  | add _ data type size => htValue data type size
  | addString _ value => if value.bytes = [] then none else some ⟨.string, value.bytes⟩
  | addLong _ value => some ⟨.long, bigEndian 4 value.toNat⟩
  | addOffset _ value => if value = 0 then none else some ⟨.offset, bigEndian 4 value.toNat⟩
  | addDataEntry _ data size => if size = 0 then none else some ⟨.raw, data.take size.toNat⟩
  | remove _ => none

@[grind =] def spec (m : Finmap fun _ : UInt16 => HtValue) : HtCall → Bool × Finmap fun _ : UInt16 => HtValue
  | remove key => ((m.lookup key).isSome, m.erase key)
  | c => (false, (c.value.map fun v => m.insert c.key v).getD m)

/-- The calls that are made: a key that is not zero, and data of at most 65535 bytes that are there. -/
@[grind =] def Valid : HtCall → Prop
  | add key data type size => key ≠ 0 ∧ Readable data type size
  | addString key value => key ≠ 0 ∧ value.strlen ≤ 65535
  | addDataEntry key data size => key ≠ 0 ∧ size.toNat ≤ 65535 ∧ size.toNat ≤ data.length
  | c => c.key ≠ 0

/-- **The condition** on a call: no `gdbAddDataEntry`; a removal finds another key first in its chain; an addition of a new key
finds at most 254 keys in its chain. -/
@[grind =] def Safe (t : GdbHashTable) : HtCall → Prop
  | addDataEntry _ _ _ => False
  | remove key => (t.chainOf key).head?.map Prod.fst ≠ some key
  | c => (t.chainOf c.key).length < 255 ∨ c.key ∈ (t.chainOf c.key).map Prod.fst

@[grind =] def run (t : GdbHashTable) : List HtCall → Option (List Bool × GdbHashTable)
  | [] => some ([], t)
  | c :: cs => (c.exec t).bind fun r => (run r.2 cs).map fun q => (r.1 :: q.1, q.2)

@[grind =] def runSpec (m : Finmap fun _ : UInt16 => HtValue) : List HtCall → List Bool × Finmap fun _ : UInt16 => HtValue
  | [] => ([], m)
  | c :: cs => ((c.spec m).1 :: (runSpec (c.spec m).2 cs).1, (runSpec (c.spec m).2 cs).2)

@[grind =] def SafeRun (t : GdbHashTable) : List HtCall → Prop
  | [] => True
  | c :: cs => c.Safe t ∧ ∀ r, c.exec t = some r → SafeRun r.2 cs

end HtCall

variable {t t' : GdbHashTable} {m : Finmap fun _ : UInt16 => HtValue} {key : UInt16} {v w : HtValue} {s : Slot}
  {chain before after : List GdbBucket} {data : List UInt8} {type : UInt8} {size : UInt16}

theorem findBucket_eq_none : findBucket key chain = none ↔ key ∉ chain.map Prod.fst := by
  induction chain with
  | nil => simp [findBucket]
  | cons b chain ih =>
    rw [findBucket, List.map_cons, mem_cons, not_or, ← ih]
    split_ifs with hb
    · simp [hb]
    · rw [Option.map_eq_none_iff]
      exact (and_iff_right fun h => hb h.symm).symm

theorem findBucket_some (h : findBucket key chain = some (before, v, after)) : chain = before ++ (key, v) :: after := by
  induction chain generalizing before with
  | nil => cases h
  | cons b chain ih =>
    rw [findBucket] at h
    split_ifs at h with hb
    · cases h
      rw [← hb]
      rfl
    · obtain ⟨⟨bs, w, as⟩, hr, hrest⟩ := Option.map_eq_some_iff.mp h
      cases hrest
      rw [ih hr]
      rfl

/-- A size fits its two bytes, and the size of a type of fixed size is that one. -/
def HtValue.Sized (v : HtValue) : Prop := v.data.length < 65536 ∧ ∀ n, typeSizes v.type = some n → v.data.length = n

/-- The chains hold the pairs of a map, each in the slot of its key; the counters count, in their eight and sixteen bits. -/
structure HashOk (t : GdbHashTable) (m : Finmap fun _ : UInt16 => HtValue) : Prop where
  slots : t.slots.length = 11
  lists : Lists t.entries m
  placed : ∀ i s, t.slots[i]? = some s → ∀ b ∈ s.chain, t.hash b.1 = i
  count : ∀ s ∈ t.slots, s.count = UInt8.ofNat s.chain.length
  itemCount : t.itemCount = UInt16.ofNat t.entries.length
  sized : ∀ b ∈ t.entries, b.2.Sized

theorem entries_cut {i : ℕ} (h : t.slots[i]? = some s) : ∃ la lb, t.entries = la ++ s.chain ++ lb ∧
    ∀ s' n, entries ⟨n, t.slots.set i s'⟩ = la ++ s'.chain ++ lb := by
  obtain ⟨hi, hs⟩ := List.getElem?_eq_some_iff.mp h
  refine ⟨(t.slots.take i).flatMap Slot.chain, (t.slots.drop (i + 1)).flatMap Slot.chain, ?_, fun s' n => ?_⟩
  · conv_lhs => rw [entries, ← take_append_drop i t.slots, drop_eq_getElem_cons hi, hs]
    rw [flatMap_append, flatMap_cons, append_assoc]
  · rw [entries, set_eq_take_append_cons_drop, if_pos hi, flatMap_append, flatMap_cons, append_assoc]

namespace HashOk

theorem htCreate : HashOk htCreate ∅ where
  slots := rfl
  lists := Lists.nil
  placed i s h b hb := by
    have hs := eq_of_mem_replicate (mem_of_getElem? h)
    rw [hs] at hb
    cases hb
  count s h := by
    rw [eq_of_mem_replicate h]
    rfl
  itemCount := rfl
  sized b hb := by cases hb

theorem slot (h : HashOk t m) (key : UInt16) : ∃ s, t.slots[t.hash key]? = some s := by
  refine ⟨_, getElem?_eq_getElem (?_ : t.hash key < t.slots.length)⟩
  rw [GdbHashTable.hash, h.slots]
  exact Nat.mod_lt _ (by decide)

theorem absent (h : HashOk t m) (hs : t.slots[t.hash key]? = some s) (hk : key ∉ s.chain.map Prod.fst) : key ∉ t.entries.map Prod.fst := by
  intro hmem
  obtain ⟨b, hb, rfl⟩ := List.mem_map.mp hmem
  obtain ⟨s', hs', hb'⟩ := mem_flatMap.mp hb
  obtain ⟨i, hi⟩ := mem_iff_getElem?.mp hs'
  rw [h.placed i s' hi b hb', hi] at hs
  cases hs
  exact hk (mem_map_of_mem hb')

theorem set (h : HashOk t m) (hs : t.slots[t.hash key]? = some s) {s' : Slot} {n : UInt16} {m' : Finmap fun _ : UInt16 => HtValue}
    (hlists : Lists (entries ⟨n, t.slots.set (t.hash key) s'⟩) m') (hcount : s'.count = UInt8.ofNat s'.chain.length)
    (hitems : n = UInt16.ofNat (entries ⟨n, t.slots.set (t.hash key) s'⟩).length)
    (hnew : ∀ b ∈ s'.chain, b ∈ s.chain ∨ b.1 = key ∧ b.2.Sized) : HashOk ⟨n, t.slots.set (t.hash key) s'⟩ m' where
  slots := by rw [length_set, h.slots]
  lists := hlists
  placed i r hr b hb := by
    have hhash : ∀ k, GdbHashTable.hash ⟨n, t.slots.set (t.hash key) s'⟩ k = t.hash k := fun k => by
      rw [GdbHashTable.hash, length_set]
      rfl
    rw [hhash]
    by_cases hi : t.hash key = i
    · rw [hi, getElem?_set_self (hi ▸ (List.getElem?_eq_some_iff.mp hs).1)] at hr
      cases hr
      rcases hnew b hb with hold | ⟨rfl, -⟩
      · exact h.placed i s (hi ▸ hs) b hold
      · exact hi
    · rw [getElem?_set_ne hi] at hr
      exact h.placed i r hr b hb
  count r hr := by
    rcases mem_or_eq_of_mem_set hr with hold | rfl
    · exact h.count r hold
    · exact hcount
  itemCount := hitems
  sized b hb := by
    obtain ⟨la, lb, hent, hset⟩ := entries_cut hs
    have hold : b ∈ la ++ s.chain ++ lb → b.2.Sized := fun hmem => h.sized b (hent ▸ hmem)
    rw [hset, mem_append, mem_append] at hb
    rcases hb with (hb | hb) | hb
    · exact hold (mem_append_left _ (mem_append_left _ hb))
    · rcases hnew b hb with hb | ⟨-, hb⟩
      · exact hold (mem_append_left _ (mem_append_right _ hb))
      · exact hb
    · exact hold (mem_append_right _ hb)

theorem put (h : HashOk t m) (hs : t.slots[t.hash key]? = some s) (hv : v.Sized) : HashOk (t.put s key v) (m.insert key v) := by
  obtain ⟨la, lb, hent, hset⟩ := entries_cut hs
  have hcount := h.count s (mem_of_getElem? hs)
  have hlists := h.lists
  rw [hent] at hlists
  cases hf : findBucket key s.chain with
  | some r =>
    obtain ⟨before, w, after⟩ := r
    have hchain := findBucket_some hf
    have hadd : Slot.add s key v = ⟨s.count, before ++ (key, v) :: after⟩ := by rw [Slot.add, hf]
    rw [GdbHashTable.put, hf, hadd, Option.isSome_some, if_pos rfl]
    refine h.set hs ?_ ?_ ?_ fun b hb => ?_
    · rw [hset]
      rw [hchain] at hlists
      have hcut : Lists ((la ++ before) ++ (key, w) :: (after ++ lb)) m := by simpa using hlists
      have hnew := hcut.insert_old v
      simpa using hnew
    · rw [hcount, hchain, length_append, length_append]
      rfl
    · rw [h.itemCount, hset, hent, hchain]
      simp only [length_append, length_cons]
    · rw [hchain]
      rcases mem_append.mp hb with hb | hb
      · exact Or.inl (mem_append_left _ hb)
      · rcases mem_cons.mp hb with rfl | hb
        · exact Or.inr ⟨rfl, hv⟩
        · exact Or.inl (mem_append_right _ (mem_cons_of_mem _ hb))
  | none =>
    have hadd : Slot.add s key v = ⟨s.count + 1, (key, v) :: s.chain⟩ := by rw [Slot.add, hf]
    rw [GdbHashTable.put, hf, hadd, Option.isSome_none, if_neg Bool.false_ne_true]
    have habsent := h.absent hs (findBucket_eq_none.mp hf)
    rw [hent] at habsent
    refine h.set hs ?_ ?_ ?_ fun b hb => ?_
    · rw [hset]
      refine (hlists.insert_new habsent v).perm ?_
      simpa using (@perm_middle _ (key, v) la (s.chain ++ lb)).symm
    · rw [hcount, length_cons]
      simp
    · rw [h.itemCount, hset, hent]
      simp only [length_append, length_cons]
      rw [show la.length + (s.chain.length + 1) + lb.length = la.length + s.chain.length + lb.length + 1 by omega]
      simp
    · rcases mem_cons.mp hb with rfl | hb
      · exact Or.inr ⟨rfl, hv⟩
      · exact Or.inl hb

/-- **A removal** of a key with another one before it in its chain. -/
theorem cut (h : HashOk t m) (hs : t.slots[t.hash key]? = some s) (hf : findBucket key s.chain = some (before, w, after)) :
    HashOk ⟨t.itemCount - 1, t.slots.set (t.hash key) ⟨s.count - 1, before ++ after⟩⟩ (m.erase key) := by
  obtain ⟨la, lb, hent, hset⟩ := entries_cut hs
  have hchain := findBucket_some hf
  have hlists := h.lists
  rw [hent, hchain] at hlists
  refine h.set hs ?_ ?_ ?_ fun b hb => Or.inl ?_
  · rw [hset]
    have hcut : Lists ((la ++ before) ++ (key, w) :: (after ++ lb)) m := by simpa using hlists
    have herase := hcut.erase
    simpa using herase
  · rw [h.count s (mem_of_getElem? hs), hchain, length_append, length_append, length_cons, ← Nat.add_assoc]
    simp
  · rw [h.itemCount, hset, hent, hchain]
    simp only [length_append, length_cons]
    rw [show la.length + (before.length + (after.length + 1)) + lb.length = la.length + (before.length + after.length) + lb.length + 1 by
      omega]
    simp
  · rw [hchain]
    exact (sublist_cons_self _ _).append_left before |>.subset hb

theorem htGetData (h : HashOk t m) (hk : key ≠ 0) : t.htGetData key = m.lookup key := by
  obtain ⟨s, hs⟩ := h.slot key
  rw [GdbHashTable.htGetData, if_neg hk, hs]
  cases hf : findBucket key s.chain with
  | some r =>
    obtain ⟨before, w, after⟩ := r
    obtain ⟨la, lb, hent, -⟩ := entries_cut hs
    have hlists := h.lists
    rw [hent, findBucket_some hf] at hlists
    have hcut : Lists ((la ++ before) ++ (key, w) :: (after ++ lb)) m := by simpa using hlists
    have hlookup := hcut.lookup_middle
    simp [hf, hlookup]
  | none =>
    have hnone := h.lists.lookup_eq_none.mpr (h.absent hs (findBucket_eq_none.mp hf))
    simp [hf, hnone]

end HashOk

theorem htAdd_cases (t : GdbHashTable) (key : UInt16) (data : List UInt8) (type : UInt8) (size : UInt16) :
    (t.htAdd key data type size = none ∧ (Readable data type size → t.slots[t.hash key]? = none)) ∨
      (t.htAdd key data type size = some t ∧ (key = 0 ∨ htValue data type size = none)) ∨
      ∃ s v, t.htAdd key data type size = some (t.put s key v) ∧ t.slots[t.hash key]? = some s ∧
        htValue data type size = some v ∧ v.Sized := by
  unfold htAdd htValue
  cases htype : HtType.ofNat? type.toNat with
  | none => exact Or.inr (Or.inl ⟨rfl, Or.inr (ite_eq_left_iff.mpr fun _ => rfl)⟩)
  | some ty =>
    dsimp only
    by_cases hguard : key = 0 ∨ size = 0
    · exact Or.inr (Or.inl ⟨if_pos hguard, hguard.imp_right fun h => if_pos h⟩)
    rw [if_neg hguard, if_neg fun h => hguard (Or.inr h)]
    by_cases hread : (typeSizes ty).getD size.toNat ≤ data.length
    · have hmem : Memory.read data 0 ((typeSizes ty).getD size.toNat) = some (data.take ((typeSizes ty).getD size.toNat)) := by
        rw [Memory.read, if_pos (by omega), drop_zero]
      rw [hmem]
      cases hs : t.slots[t.hash key]? with
      | none => exact Or.inl ⟨rfl, fun _ => rfl⟩
      | some s =>
        refine Or.inr (Or.inr ⟨s, _, rfl, rfl, rfl, ?_, fun n hn => ?_⟩)
        · have hsize := size.toNat_lt
          have hle : (typeSizes ty).getD size.toNat < 65536 := by cases ty <;> simp [typeSizes] <;> omega
          exact lt_of_le_of_lt (length_take_le _ _) hle
        · rw [hn, getD_some] at hread ⊢
          exact length_take_of_le hread
    · have hmem : Memory.read data 0 ((typeSizes ty).getD size.toNat) = none := by
        rw [Memory.read, if_neg (by omega)]
      exact Or.inl ⟨by rw [hmem]; rfl, fun h => absurd (h ty htype) hread⟩

variable {value : CStr}

theorem strlen_toNat (h : value.strlen ≤ 65535) : (UInt16.ofNat value.strlen).toNat = value.strlen :=
  UInt16.toNat_ofNat_of_lt' (Nat.lt_succ_of_le h)

theorem htValue_string (h : value.strlen ≤ 65535) : htValue (value.bytes ++ [0]) 1 (UInt16.ofNat value.strlen) =
    if value.bytes = [] then none else some ⟨.string, value.bytes⟩ := by
  by_cases hb : value.bytes = []
  · rw [if_pos hb, CStr.strlen, hb]
    rfl
  · have hne : UInt16.ofNat value.strlen ≠ 0 := fun h0 => hb (length_eq_zero_iff.mp ((strlen_toNat h).symm.trans (congrArg _ h0)))
    rw [if_neg hb, htValue, if_neg hne, strlen_toNat h, CStr.strlen]
    exact congrArg (fun l => some (HtValue.mk .string l)) take_left

theorem readable_string (h : value.strlen ≤ 65535) : Readable (value.bytes ++ [0]) 1 (UInt16.ofNat value.strlen) := by
  intro ty hty
  cases hty
  change (UInt16.ofNat value.strlen).toNat ≤ _
  rw [strlen_toNat h, CStr.strlen, length_append]
  omega

theorem readable_four (n : ℕ) : Readable (bigEndian 4 n) 3 4 ∧ Readable (bigEndian 4 n) 4 4 := by
  constructor <;> intro ty hty <;> cases hty <;> exact Nat.le_refl 4

namespace HashOk

theorem htAdd (h : HashOk t m) (hk : key ≠ 0) (hread : Readable data type size)
    (hshort : (t.chainOf key).length < 255 ∨ key ∈ (t.chainOf key).map Prod.fst) (hall : ∀ s ∈ t.slots, s.chain.length ≤ 255) :
    ∃ t', t.htAdd key data type size = some t' ∧ (∀ s ∈ t'.slots, s.chain.length ≤ 255) ∧
      HashOk t' (((htValue data type size).map fun v => m.insert key v).getD m) := by
  obtain ⟨s, hs⟩ := h.slot key
  rw [GdbHashTable.chainOf, hs, Option.map_some, getD_some] at hshort
  rcases htAdd_cases t key data type size with ⟨-, hn⟩ | ⟨hr, hn⟩ | ⟨s', v, hr, hs', hv, hsized⟩
  · rw [hn hread] at hs
    cases hs
  · rw [hn.resolve_left hk]
    exact ⟨t, hr, hall, h⟩
  · rw [hs] at hs'
    cases hs'
    rw [hv]
    refine ⟨_, hr, fun r hmem => ?_, h.put hs hsized⟩
    rcases mem_or_eq_of_mem_set hmem with hold | rfl
    · exact hall r hold
    · have hlen := hall s (mem_of_getElem? hs)
      cases hf : findBucket key s.chain with
      | some q =>
        rw [findBucket_some hf] at hlen
        simpa [Slot.add, hf] using hlen
      | none =>
        have hlt := hshort.resolve_right (findBucket_eq_none.mp hf)
        simp only [Slot.add, hf, length_cons]
        omega

theorem remove (h : HashOk t m) (hk : key ≠ 0) (hsafe : (t.chainOf key).head?.map Prod.fst ≠ some key)
    (hall : ∀ s ∈ t.slots, s.chain.length ≤ 255) : ∃ t', t.htRemove key = some ((m.lookup key).isSome, t') ∧
      (∀ s ∈ t'.slots, s.chain.length ≤ 255) ∧ HashOk t' (m.erase key) := by
  obtain ⟨s, hs⟩ := h.slot key
  rw [← h.htGetData hk, GdbHashTable.htGetData, htRemove, if_neg hk, if_neg hk, hs]
  rw [GdbHashTable.chainOf, hs, Option.map_some, getD_some] at hsafe
  cases hf : findBucket key s.chain with
  | none =>
    have hnot : key ∉ m := (not_congr h.lists.mem_iff).mp (h.absent hs (findBucket_eq_none.mp hf))
    have hsame : m.erase key = m := Finmap.ext_lookup fun a => by
      by_cases ha : a = key
      · rw [ha, Finmap.lookup_erase, Finmap.lookup_eq_none.mpr hnot]
      · exact Finmap.lookup_erase_ne ha
    exact ⟨t, by simp [hf], hall, by rw [hsame]; exact h⟩
  | some r =>
    obtain ⟨before, w, after⟩ := r
    have hchain := findBucket_some hf
    cases before with
    | nil => exact absurd (by simp [hchain]) hsafe
    | cons b before =>
      refine ⟨_, by simp [hf], fun r hmem => ?_, h.cut hs hf⟩
      rcases mem_or_eq_of_mem_set hmem with hold | rfl
      · exact hall r hold
      · have hlen := hall s (mem_of_getElem? hs)
        rw [hchain, length_append, length_cons (a := (key, w))] at hlen
        rw [length_append]
        omega

variable {c : HtCall}

theorem exec (h : HashOk t m) {r : Bool × GdbHashTable} (hc : c.exec t = some r) : ∃ m', HashOk r.2 m' := by
  have hadd : ∀ {key data type size}, (t.htAdd key data type size).map (false, ·) = some r → ∃ m', HashOk r.2 m' := fun hr => by
    obtain ⟨t', ht, rfl⟩ := Option.map_eq_some_iff.mp hr
    rcases htAdd_cases t _ _ _ _ with ⟨hn, -⟩ | ⟨hsame, -⟩ | ⟨s, v, hput, hs, -, hv⟩
    · rw [hn] at ht
      cases ht
    · rw [hsame] at ht
      cases ht
      exact ⟨m, h⟩
    · rw [hput] at ht
      cases ht
      exact ⟨_, h.put hs hv⟩
  have hskip : (some t).map (false, ·) = some r → ∃ m', HashOk r.2 m' := fun hr => by
    cases hr
    exact ⟨m, h⟩
  cases c with
  | addOffset key value =>
    rw [HtCall.exec, htAddOffset] at hc
    split_ifs at hc
    · exact hskip hc
    · exact hadd hc
  | addDataEntry key data size =>
    rw [HtCall.exec, gdbAddDataEntry] at hc
    split_ifs at hc
    · exact hskip hc
    · exact hadd hc
  | remove key =>
    rw [HtCall.exec, htRemove] at hc
    split_ifs at hc
    · cases hc
      exact ⟨m, h⟩
    · obtain ⟨s, hs⟩ := h.slot key
      rw [hs, Option.bind_eq_bind, Option.bind_some] at hc
      split at hc
      · cases hc
        exact ⟨m, h⟩
      · cases hc
      · rename_i hf
        cases hc
        exact ⟨_, h.cut hs hf⟩
  | _ => exact hadd hc

/-- **One call** that meets the condition. -/
theorem step (h : HashOk t m) (hall : ∀ s ∈ t.slots, s.chain.length ≤ 255) (hv : c.Valid) (hs : c.Safe t) :
    ∃ t', c.exec t = some ((c.spec m).1, t') ∧ (∀ s ∈ t'.slots, s.chain.length ≤ 255) ∧ HashOk t' (c.spec m).2 := by
  -- a wrapper of `htAdd` with these arguments
  have hadd : ∀ {key data type size}, key ≠ 0 → Readable data type size →
      ((t.chainOf key).length < 255 ∨ key ∈ (t.chainOf key).map Prod.fst) → ∃ t', (t.htAdd key data type size).map (false, ·) =
        some (false, t') ∧ (∀ s ∈ t'.slots, s.chain.length ≤ 255) ∧
          HashOk t' (((htValue data type size).map fun v => m.insert key v).getD m) := fun hk hr hc => by
    obtain ⟨t', ht, hrest⟩ := h.htAdd hk hr hc hall
    exact ⟨t', by rw [ht]; rfl, hrest⟩
  cases c with
  | add key data type size => exact hadd hv.1 hv.2 hs
  | addString key value =>
    have hadded := hadd hv.1 (readable_string hv.2) hs
    rw [htValue_string hv.2] at hadded
    exact hadded
  | addLong key value => exact @hadd key (bigEndian 4 value.toNat) 3 4 hv (readable_four _).1 hs
  | addOffset key value =>
    by_cases hzero : value = 0
    · exact ⟨t, by simp [HtCall.exec, htAddOffset, HtCall.spec, hzero], hall, by simpa [HtCall.spec, HtCall.value, hzero] using h⟩
    · simp only [HtCall.exec, htAddOffset, HtCall.spec, HtCall.value, if_neg hzero]
      exact hadd hv (readable_four _).2 hs
  | addDataEntry key data size => exact False.elim hs
  | remove key => exact h.remove hv hs hall

end HashOk

namespace HtCall

variable {cs : List HtCall}

theorem run_ok {bs : List Bool} (h : HashOk t m) (hr : run t cs = some (bs, t')) : ∃ m', HashOk t' m' := by
  induction cs generalizing t m bs with
  | nil =>
    cases hr
    exact ⟨m, h⟩
  | cons c cs ih =>
    obtain ⟨r, hexec, hr⟩ := Option.bind_eq_some_iff.mp hr
    obtain ⟨q, hrun, hq⟩ := Option.map_eq_some_iff.mp hr
    cases hq
    obtain ⟨m', h'⟩ := h.exec hexec
    exact ih h' hrun

theorem SafeRun.spec (h : HashOk t m) (hall : ∀ s ∈ t.slots, s.chain.length ≤ 255) (hv : ∀ c ∈ cs, c.Valid)
    (hs : SafeRun t cs) : ∃ t', run t cs = some ((runSpec m cs).1, t') ∧ (∀ s ∈ t'.slots, s.chain.length ≤ 255) ∧
      HashOk t' (runSpec m cs).2 := by
  induction cs generalizing t m with
  | nil => exact ⟨t, rfl, hall, h⟩
  | cons c cs ih =>
    obtain ⟨t₁, hexec, hall₁, h₁⟩ := h.step hall (hv c mem_cons_self) hs.1
    obtain ⟨t₂, hrun, hrest⟩ := ih h₁ hall₁ (fun c hc => hv c (mem_cons_of_mem _ hc)) (hs.2 _ hexec)
    exact ⟨t₂, by rw [run, hexec, Option.bind_some, hrun]; rfl, hrest⟩

/-- **The table is a finite map**, with both counters right, after every run whose calls meet the condition. -/
theorem run_map {cs : List HtCall} (hv : ∀ c ∈ cs, c.Valid) (hs : SafeRun htCreate cs) : ∃ t,
    run htCreate cs = some ((runSpec ∅ cs).1, t) ∧ (∀ k, k ≠ 0 → t.htGetData k = (runSpec ∅ cs).2.lookup k) ∧
      t.itemCount.toNat = (runSpec ∅ cs).2.keys.card ∧ ∀ s ∈ t.slots, s.count.toNat = s.chain.length := by
  obtain ⟨t, hrun, hall, h⟩ := SafeRun.spec HashOk.htCreate (fun s hs => by rw [eq_of_mem_replicate hs]; exact Nat.zero_le _) hv hs
  refine ⟨t, hrun, fun k hk => h.htGetData hk, ?_, fun s hmem => ?_⟩
  · have hlen : t.entries.length ≤ 11 * 255 := by
      rw [entries, length_flatMap, ← h.slots, ← length_map (f := fun s : Slot => s.chain.length)]
      exact sum_le_card_nsmul _ _ fun n hn => by
        obtain ⟨s, hmem, rfl⟩ := List.mem_map.mp hn
        exact hall s hmem
    rw [h.itemCount, ← h.lists.length_eq, UInt16.toNat_ofNat_of_lt' (Nat.lt_of_le_of_lt hlen (by decide))]
  · rw [h.count s hmem, UInt8.toNat_ofNat_of_lt' (Nat.lt_succ_of_le (hall s hmem))]

theorem run_map_chain : ∃ t, run htCreate [addLong 1 5, addString 12 (cstr [97]), remove 1] = some ([false, false, true], t) ∧
    t.itemCount.toNat = 1 := by
  have hsafe : SafeRun htCreate [addLong 1 5, addString 12 (cstr [97]), remove 1] := by
    refine ⟨Or.inl (by decide), fun r hr => ?_⟩
    cases hr
    refine ⟨Or.inl (by decide), fun r hr => ?_⟩
    cases hr
    exact ⟨(by decide : some (12 : UInt16) ≠ some 1), fun _ _ => trivial⟩
  obtain ⟨t, hrun, -, hcount, -⟩ := run_map (by simp [Valid, HtCall.key, CStr.strlen, cstr]) hsafe
  exact ⟨t, hrun, hcount⟩

/-- The only key of a chain cannot be removed, and `gdbAddDataEntry` adds nothing. -/
theorem run_wrong : run htCreate [addLong 1 5, remove 1] = none ∧
    (run htCreate [addDataEntry 1 [97] 1]).map (fun r => r.2.htGetData 1) = some none := by decide

end HtCall

end KVStores.Gdb
