import Mathlib.Algebra.Order.BigOperators.Group.Finset
import Mathlib.Data.List.TakeWhile
import Mathlib.Data.UInt

/-!
# The cache of tables and blocks

A shard of the cache (`cache.cc`): entries in chains of a hash table and in a list by the time of their last use, counted by the
references to them.

* `LruSpec`: what the cache is for: the entries in the order of their last use, and the handles that callers have.
-/

namespace KVStores.LevelDb

open List Option Function

variable {K V : Type} [DecidableEq K]

/-- The fields of an `LRUHandle` that do not change. -/
structure CacheItem (K V : Type) where
  key : K
  hash : UInt32
  value : V
  charge : UInt64
deriving DecidableEq

/-- `LRUHandle` without its pointers. -/
structure LRUHandle (K V : Type) where
  item : CacheItem K V
  refs : UInt32
deriving DecidableEq

/-- `HandleTable`. The chains are lists of addresses. -/
structure HandleTable where
  length : UInt32
  elems : UInt32
  list : List (List ℕ)
deriving DecidableEq

namespace HandleTable

def new : HandleTable := ⟨4, 0, List.replicate 4 []⟩

def slot (length hash : UInt32) : ℕ := (hash &&& (length - 1)).toNat

/-- The chain in front of the pointer that `FindPointer` returns, and behind it. -/
def findPointer (t : HandleTable) (found : ℕ → Bool) (hash : UInt32) : List ℕ × List ℕ :=
  let chain := t.list.getD (slot t.length hash) []
  (chain.takeWhile fun a => !found a, chain.dropWhile fun a => !found a)

def lookup (t : HandleTable) (found : ℕ → Bool) (hash : UInt32) : Option ℕ := (t.findPointer found hash).2.head?

/-- The first loop of `Resize`. Once the length is 0 it does not end. -/
@[grind =] def growLoop : ℕ → UInt32 → UInt32 → Option UInt32
  | 0, _, _ => none
  | fuel + 1, newLength, elems => if newLength < elems then growLoop fuel (newLength * 2) elems else some newLength

def rehash (hashOf : ℕ → UInt32) (newLength : UInt32) (list : List (List ℕ)) (a : ℕ) : List (List ℕ) :=
  list.modify (slot newLength (hashOf a)) (a :: ·)

def resize (t : HandleTable) (hashOf : ℕ → UInt32) : Option HandleTable :=
  (growLoop 33 4 t.elems).map fun newLength =>
    ⟨newLength, t.elems, t.list.flatten.foldl (rehash hashOf newLength) (List.replicate newLength.toNat [])⟩

/-- `HandleTable::Insert`: the entry that was there, and the table. -/
def insert (t : HandleTable) (found : ℕ → Bool) (hashOf : ℕ → UInt32) (a : ℕ) : Option (Option ℕ × HandleTable) :=
  let p := t.findPointer found (hashOf a)
  let t := { t with list := t.list.set (slot t.length (hashOf a)) (p.1 ++ a :: p.2.tail) }
  match p.2.head? with
  | some old => some (some old, t)
  | none =>
    let t := { t with elems := t.elems + 1 }
    if t.length < t.elems then (t.resize hashOf).map fun t => (none, t) else some (none, t)

def remove (t : HandleTable) (found : ℕ → Bool) (hash : UInt32) : Option ℕ × HandleTable :=
  let p := t.findPointer found hash
  match p.2.head? with
  | some a => (some a, { t with list := t.list.set (slot t.length hash) (p.1 ++ p.2.tail), elems := t.elems - 1 })
  | none => (none, t)

end HandleTable

/-- `LRUCache`. `lru` goes from `lru_.next`, the oldest entry, to `lru_.prev`. The entries that were allocated stay in `heap`;
`deleted` are those whose deleter was called, with their key and value. -/
structure LRUCache (K V : Type) where
  capacity : UInt64
  usage : UInt64
  lru : List ℕ
  table : HandleTable
  heap : List (LRUHandle K V)
  deleted : List ℕ
deriving DecidableEq

def named (items : List (CacheItem K V)) (key : K) (hash : UInt32) (a : ℕ) : Bool :=
  items[a]?.any fun it => decide (it.hash = hash) && decide (it.key = key)

def hashOf (items : List (CacheItem K V)) (a : ℕ) : UInt32 := (items[a]?.map CacheItem.hash).getD 0

namespace LRUCache

def new (capacity : UInt64) : LRUCache K V := ⟨capacity, 0, [], .new, [], []⟩

def items (s : LRUCache K V) : List (CacheItem K V) := s.heap.map LRUHandle.item

def setRefs (s : LRUCache K V) (a : ℕ) (refs : UInt32) : LRUCache K V := { s with heap := s.heap.modify a fun h => { h with refs } }

def unref (s : LRUCache K V) (a : ℕ) : LRUCache K V :=
  match s.heap[a]? with
  | none => s
  | some h =>
    let s := s.setRefs a (h.refs - 1)
    if h.refs - 1 = 0 then { s with usage := s.usage - h.item.charge, deleted := s.deleted ++ [a] } else s

def lruRemove (s : LRUCache K V) (a : ℕ) : LRUCache K V := { s with lru := s.lru.erase a }

def lruAppend (s : LRUCache K V) (a : ℕ) : LRUCache K V := { s with lru := s.lru ++ [a] }

def lookup (s : LRUCache K V) (key : K) (hash : UInt32) : LRUCache K V × Option ℕ :=
  match s.table.lookup (named s.items key hash) hash with
  | none => (s, none)
  | some a =>
    match s.heap[a]? with
    | none => (s, none)
    | some h => (((s.setRefs a (h.refs + 1)).lruRemove a).lruAppend a, some a)

def release (s : LRUCache K V) (a : ℕ) : LRUCache K V := s.unref a

/-- The loop of `LRUCache::Insert`. Each round takes an entry from the list. -/
@[grind =] def evictLoop : ℕ → LRUCache K V → LRUCache K V
  | 0, s => s
  | fuel + 1, s =>
    if s.capacity < s.usage then
      match s.lru with
      | [] => s
      | old :: _ =>
        match s.items[old]? with
        | none => s
        | some it =>
          let s := s.lruRemove old
          let s := { s with table := (s.table.remove (named s.items it.key it.hash) it.hash).2 }
          evictLoop fuel (s.unref old)
    else s

def dropOld (s : LRUCache K V) : Option ℕ → LRUCache K V
  | some old => (s.lruRemove old).unref old
  | none => s

/-- `LRUCache::Insert`; nothing when it does not end. -/
def insert (s : LRUCache K V) (it : CacheItem K V) : Option (LRUCache K V × ℕ) :=
  let a := s.heap.length
  let s := { s with heap := s.heap ++ [LRUHandle.mk it 2] }
  let s := s.lruAppend a
  let s := { s with usage := s.usage + it.charge }
  match s.table.insert (named s.items it.key it.hash) (hashOf s.items) a with
  | none => none
  | some (old, table) =>
    let s := { s with table }.dropOld old
    some (evictLoop s.lru.length s, a)

def erase (s : LRUCache K V) (key : K) (hash : UInt32) : LRUCache K V :=
  let r := s.table.remove (named s.items key hash) hash
  { s with table := r.2 }.dropOld r.1

end LRUCache

inductive CacheCall (K V : Type)
  | insert (it : CacheItem K V)
  | lookup (key : K) (hash : UInt32)
  | release (a : ℕ)
  | erase (key : K) (hash : UInt32)

def LRUCache.step (s : LRUCache K V) : CacheCall K V → Option (LRUCache K V × Option ℕ)
  | .insert it => (s.insert it).map fun r => (r.1, some r.2)
  | .lookup key hash => some (s.lookup key hash)
  | .release a => some (s.release a, none)
  | .erase key hash => some (s.erase key hash, none)

@[grind =] def LRUCache.run (s : LRUCache K V) : List (CacheCall K V) → Option (LRUCache K V × List (Option ℕ))
  | [] => some (s, [])
  | c :: calls => do
    let (s, out) ← s.step c
    let (s, outs) ← s.run calls
    return (s, out :: outs)

/-! ## What the cache is for -/

/-- The entries that were inserted, by their numbers, those that can be looked up, the one that was used last at the end, and the
handles that callers have. -/
structure LruSpec (K V : Type) where
  items : List (CacheItem K V)
  cached : List ℕ
  held : List ℕ

def chargeOf (items : List (CacheItem K V)) (a : ℕ) : ℕ := (items[a]?.map fun it => it.charge.toNat).getD 0

open Finset in
def chargeSum (items : List (CacheItem K V)) (cached held : List ℕ) : ℕ :=
  ∑ a ∈ Finset.range items.length, if a ∈ cached ∨ a ∈ held then chargeOf items a else 0

namespace LruSpec

def new : LruSpec K V := ⟨[], [], []⟩

@[grind =] def evict (capacity : ℕ) (items : List (CacheItem K V)) (held : List ℕ) : List ℕ → List ℕ
  | [] => []
  | a :: cached => if capacity < chargeSum items (a :: cached) held then evict capacity items held cached else a :: cached

def without (s : LruSpec K V) (key : K) (hash : UInt32) : List ℕ := s.cached.filter fun a => !named s.items key hash a

def step (capacity : ℕ) (s : LruSpec K V) : CacheCall K V → LruSpec K V × Option ℕ
  | .insert it =>
    let a := s.items.length
    (⟨s.items ++ [it], evict capacity (s.items ++ [it]) (a :: s.held) (s.without it.key it.hash ++ [a]), a :: s.held⟩, some a)
  | .lookup key hash =>
    match s.cached.find? (named s.items key hash) with
    | none => (s, none)
    | some a => ({ s with cached := s.cached.erase a ++ [a], held := a :: s.held }, some a)
  | .release a => ({ s with held := s.held.erase a }, none)
  | .erase key hash => ({ s with cached := s.without key hash }, none)

@[grind =] def run (capacity : ℕ) (s : LruSpec K V) : List (CacheCall K V) → LruSpec K V × List (Option ℕ)
  | [] => (s, [])
  | c :: calls => ((run capacity (s.step capacity c).1 calls).1, (s.step capacity c).2 :: (run capacity (s.step capacity c).1 calls).2)

end LruSpec

/-! ## The table -/

theorem flatten_set {list : List (List ℕ)} {i : ℕ} {chain : List ℕ} (h : list[i]? = some chain) :
    ∃ rest, list.flatten.Perm (chain ++ rest) ∧ ∀ d, (list.set i d).flatten.Perm (d ++ rest) := by
  obtain ⟨hi, rfl⟩ := List.getElem?_eq_some_iff.1 h
  have hall : ∀ d, (list.set i d).flatten.Perm (d ++ ((list.take i).flatten ++ (list.drop (i + 1)).flatten)) := by
    intro d
    rw [set_eq_take_append_cons_drop, if_pos hi, flatten_append, flatten_cons, ← append_assoc, ← append_assoc]
    exact List.Perm.append_right _ perm_append_comm
  refine ⟨_, ?_, hall⟩
  have hself := hall list[i]
  rwa [set_getElem_self] at hself

namespace HandleTable

structure Ok (t : HandleTable) (hashOf : ℕ → UInt32) (cached : List ℕ) : Prop where
  length : t.list.length = t.length.toNat
  pos : 0 < t.length.toNat
  slots : ∀ (i : ℕ) (chain : List ℕ), t.list[i]? = some chain → ∀ a ∈ chain, slot t.length (hashOf a) = i
  perm : t.list.flatten.Perm cached
  elems : t.elems.toNat = cached.length

variable {t : HandleTable} {hashOf : ℕ → UInt32} {cached : List ℕ} {found : ℕ → Bool} {hash : UInt32} {a : ℕ}

theorem new_ok (hashOf : ℕ → UInt32) : new.Ok hashOf [] := by
  refine ⟨rfl, by decide, fun i chain h a ha => ?_, .nil, rfl⟩
  have := eq_of_mem_replicate (mem_of_getElem? h)
  rw [this] at ha
  exact absurd ha not_mem_nil

theorem Ok.of_perm (ht : t.Ok hashOf cached) {cached' : List ℕ} (h : cached.Perm cached') : t.Ok hashOf cached' :=
  ⟨ht.length, ht.pos, ht.slots, ht.perm.trans h, ht.elems.trans h.length_eq⟩

theorem Ok.congr (ht : t.Ok hashOf cached) {hashOf' : ℕ → UInt32} (h : ∀ a ∈ cached, hashOf' a = hashOf a) : t.Ok hashOf' cached := by
  refine ⟨ht.length, ht.pos, fun i chain hc a ha => ?_, ht.perm, ht.elems⟩
  rw [h a (ht.perm.mem_iff.1 (mem_flatten.2 ⟨chain, mem_of_getElem? hc, ha⟩))]
  exact ht.slots i chain hc a ha

theorem slot_lt {length : UInt32} (h : 0 < length.toNat) (hash : UInt32) : slot length hash < length.toNat := by
  have hone : (1 : UInt32) ≤ length := UInt32.le_iff_toNat_le.2 h
  have hsub : (length - 1).toNat = length.toNat - 1 := UInt32.toNat_sub_of_le _ _ hone
  unfold slot
  rw [UInt32.toNat_and, hsub]
  exact lt_of_le_of_lt Nat.and_le_right (by omega)

theorem Ok.chain (ht : t.Ok hashOf cached) (hash : UInt32) : ∃ chain, t.list[slot t.length hash]? = some chain :=
  ⟨_, List.getElem?_eq_getElem (ht.length ▸ slot_lt ht.pos hash)⟩

theorem findPointer_spec (ht : t.Ok hashOf cached) (hfound : ∀ a ∈ cached, found a = true → hashOf a = hash) {chain : List ℕ}
    (hc : t.list[slot t.length hash]? = some chain) : (t.findPointer found hash = (chain, []) ∧ ∀ a ∈ cached, found a = false) ∨
    ∃ pre a post, chain = pre ++ a :: post ∧ t.findPointer found hash = (pre, a :: post) ∧ found a = true ∧ a ∈ cached := by
  have hget : t.list.getD (slot t.length hash) [] = chain := by rw [getD_eq_getElem?_getD, hc, getD_some]
  have hmem : ∀ a ∈ chain, a ∈ cached := fun a ha => ht.perm.mem_iff.1 (mem_flatten.2 ⟨chain, mem_of_getElem? hc, ha⟩)
  have hsplit := takeWhile_append_dropWhile (p := fun a => !found a) (l := chain)
  unfold findPointer
  dsimp only
  rw [hget]
  cases hd : chain.dropWhile fun a => !found a with
  | nil =>
    left
    rw [hd, append_nil] at hsplit
    refine ⟨by rw [hsplit], fun a ha => ?_⟩
    -- an entry of that name would be in the chain
    by_contra hne
    have hf : found a = true := by simpa using hne
    obtain ⟨chain', hchain', hin⟩ := mem_flatten.1 (ht.perm.mem_iff.2 ha)
    obtain ⟨i, hi, rfl⟩ := getElem_of_mem hchain'
    have hslot := ht.slots i _ (List.getElem?_eq_getElem hi) a hin
    rw [hfound a ha hf] at hslot
    rw [hslot, List.getElem?_eq_getElem hi] at hc
    rw [Option.some.inj hc] at hin
    have := dropWhile_eq_nil_iff.1 hd a hin
    rw [hf] at this
    cases this
  | cons a post =>
    right
    rw [hd] at hsplit
    have hf : found a = true := by
      have hnot := List.head?_dropWhile_not (fun a => !found a) chain
      rw [hd] at hnot
      simpa using hnot
    refine ⟨_, a, post, hsplit.symm, rfl, hf, hmem a ?_⟩
    rw [← hsplit]
    exact mem_append_right _ mem_cons_self

variable {elems : UInt32}

theorem Ok.set (ht : t.Ok hashOf cached) {i : ℕ} {chain d cached' : List ℕ} {elems : UInt32} (hc : t.list[i]? = some chain)
    (hd : ∀ a ∈ d, slot t.length (hashOf a) = i) (hperm : ∀ rest, (chain ++ rest).Perm cached → (d ++ rest).Perm cached')
    (he : elems.toNat = cached'.length) : Ok ⟨t.length, elems, t.list.set i d⟩ hashOf cached' := by
  obtain ⟨rest, h1, h2⟩ := flatten_set hc
  refine ⟨by rw [length_set]; exact ht.length, ht.pos, fun j chain' hj a ha => ?_, (h2 d).trans (hperm rest (h1.symm.trans ht.perm)), he⟩
  rw [List.getElem?_set] at hj
  by_cases hij : i = j
  · rw [if_pos hij, if_pos (List.getElem?_eq_some_iff.1 hc).1] at hj
    obtain rfl := Option.some.inj hj
    rw [hd a ha, hij]
  · rw [if_neg hij] at hj
    exact ht.slots j chain' hj a ha

theorem growLoop_spec (he : elems.toNat ≤ 2 ^ 31) : ∀ (fuel k : ℕ) (n : UInt32), n.toNat = 2 ^ k → k ≤ 31 → 31 < fuel + k →
    ∃ m, growLoop fuel n elems = some m ∧ 0 < m.toNat := by
  intro fuel
  induction fuel with
  | zero => intro k n _ hk hfuel; omega
  | succ fuel ih =>
    intro k n hn hk hfuel
    rw [growLoop]
    by_cases hlt : n < elems
    · rw [if_pos hlt]
      rw [UInt32.lt_iff_toNat_lt, hn] at hlt
      have hk' : k < 31 := by
        by_contra hge
        obtain rfl : k = 31 := by omega
        omega
      have hpow : 2 ^ (k + 1) < 2 ^ 32 := Nat.pow_lt_pow_right (by decide) (by omega)
      refine ih (k + 1) (n * 2) ?_ hk' (by omega)
      rw [UInt32.toNat_mul, hn]
      exact Nat.mod_eq_of_lt hpow
    · rw [if_neg hlt]
      exact ⟨n, rfl, by rw [hn]; exact Nat.two_pow_pos k⟩

theorem rehash_spec {length : UInt32} (hpos : 0 < length.toNat) : ∀ (as : List ℕ) (list : List (List ℕ)), list.length = length.toNat →
    (∀ (i : ℕ) (chain : List ℕ), list[i]? = some chain → ∀ a ∈ chain, slot length (hashOf a) = i) →
    (as.foldl (rehash hashOf length) list).length = length.toNat ∧
    (∀ (i : ℕ) (chain : List ℕ), (as.foldl (rehash hashOf length) list)[i]? = some chain → ∀ a ∈ chain, slot length (hashOf a) = i) ∧
    (as.foldl (rehash hashOf length) list).flatten.Perm (as ++ list.flatten)
  | [], list, hlen, hslots => ⟨hlen, hslots, .refl _⟩
  | a :: as, list, hlen, hslots => by
    have hi : slot length (hashOf a) < list.length := hlen ▸ slot_lt hpos _
    have hget := List.getElem?_eq_getElem hi
    have heq : rehash hashOf length list a = list.set (slot length (hashOf a)) (a :: list[slot length (hashOf a)]) := by
      unfold rehash
      rw [modify_eq_set, hget, getD_some]
    obtain ⟨rest, h1, h2⟩ := flatten_set hget
    obtain ⟨h3, h4, h5⟩ := rehash_spec hpos as (rehash hashOf length list a) (by rw [heq, length_set]; exact hlen)
      fun j chain hj b hb => by
        rw [heq, List.getElem?_set] at hj
        by_cases hij : slot length (hashOf a) = j
        · rw [if_pos hij, if_pos hi] at hj
          obtain rfl := Option.some.inj hj
          rcases mem_cons.1 hb with rfl | hb
          · exact hij
          · rw [← hij]
            exact hslots _ _ hget b hb
        · rw [if_neg hij] at hj
          exact hslots j chain hj b hb
    refine ⟨h3, h4, h5.trans ?_⟩
    rw [heq]
    calc as ++ (list.set (slot length (hashOf a)) (a :: list[slot length (hashOf a)])).flatten
        _ |>.Perm (as ++ (a :: list[slot length (hashOf a)] ++ rest)) := (h2 _).append_left _
        _ |>.Perm (a :: (as ++ (list[slot length (hashOf a)] ++ rest))) := perm_middle
        _ |>.Perm (a :: (as ++ list.flatten)) := (h1.symm.append_left _).cons _

theorem resize_spec (ht : t.Ok hashOf cached) (he : cached.length ≤ 2 ^ 31) : ∃ t', t.resize hashOf = some t' ∧ t'.Ok hashOf cached := by
  obtain ⟨m, hm, hpos⟩ := growLoop_spec (ht.elems ▸ he) 33 2 4 rfl (by decide) (by decide)
  obtain ⟨h1, h2, h3⟩ := @rehash_spec hashOf m hpos t.list.flatten (List.replicate m.toNat []) length_replicate
    fun i chain hc a ha => by
      rw [eq_of_mem_replicate (mem_of_getElem? hc)] at ha
      exact absurd ha not_mem_nil
  unfold resize
  rw [hm]
  refine ⟨_, rfl, h1, hpos, h2, ?_, ht.elems⟩
  refine h3.trans ?_
  rw [flatten_replicate_nil, append_nil]
  exact ht.perm

theorem lookup_spec (ht : t.Ok hashOf cached) (found : ℕ → Bool) (hash : UInt32)
    (hfound : ∀ a ∈ cached, found a = true → hashOf a = hash) :
    (t.lookup found hash = none ∧ ∀ a ∈ cached, found a = false) ∨ ∃ a ∈ cached, t.lookup found hash = some a ∧ found a = true := by
  obtain ⟨chain, hc⟩ := ht.chain hash
  unfold lookup
  rcases findPointer_spec ht hfound hc with ⟨heq, hnone⟩ | ⟨pre, a, post, -, heq, hf, ha⟩
  · rw [heq]
    exact Or.inl ⟨rfl, hnone⟩
  · rw [heq]
    exact Or.inr ⟨a, ha, rfl, hf⟩

theorem insert_spec (ht : t.Ok hashOf cached) (found : ℕ → Bool) (hfound : ∀ b ∈ cached, found b = true → hashOf b = hashOf a)
    (hlen : (∀ b ∈ cached, found b = false) → cached.length < 2 ^ 31) : ∃ old t', t.insert found hashOf a = some (old, t') ∧
      ((old = none ∧ (∀ b ∈ cached, found b = false) ∧ t'.Ok hashOf (cached ++ [a])) ∨
        ∃ o ∈ cached, old = some o ∧ found o = true ∧ t'.Ok hashOf (cached.erase o ++ [a])) := by
  obtain ⟨chain, hc⟩ := ht.chain (hashOf a)
  have hslots := ht.slots _ _ hc
  unfold insert
  rcases findPointer_spec ht hfound hc with ⟨heq, hnone⟩ | ⟨pre, o, post, rfl, heq, hf, ho⟩
  · replace hlen := hlen hnone
    rw [heq]
    dsimp only [List.head?_nil, tail_nil]
    have hel : (t.elems + 1).toNat = (cached ++ [a]).length := by
      rw [UInt32.toNat_add, ht.elems, length_append, length_singleton, show (1 : UInt32).toNat = 1 from rfl]
      exact Nat.mod_eq_of_lt (by omega)
    have hok : Ok ⟨t.length, t.elems + 1, t.list.set (slot t.length (hashOf a)) (chain ++ [a])⟩ hashOf (cached ++ [a]) := ht.set hc (fun b hb => by
      rcases mem_append.1 hb with hb | hb
      · exact hslots b hb
      · rw [mem_singleton.1 hb]) (fun rest hrest => by
        rw [append_assoc]
        exact (perm_append_comm.append_left chain).trans (by rw [← append_assoc]; exact hrest.append_right _)) hel
    by_cases hgrow : t.length < t.elems + 1
    · rw [if_pos hgrow]
      obtain ⟨t', ht', hok'⟩ := resize_spec hok (by rw [length_append, length_singleton]; omega)
      rw [ht']
      exact ⟨none, t', rfl, Or.inl ⟨rfl, hnone, hok'⟩⟩
    · rw [if_neg hgrow]
      exact ⟨none, _, rfl, Or.inl ⟨rfl, hnone, hok⟩⟩
  · rw [heq]
    refine ⟨some o, _, rfl, Or.inr ⟨o, ho, rfl, hf, ?_⟩⟩
    refine ht.set hc (fun b hb => ?_) (fun rest hrest => ?_) ?_
    · rcases mem_append.1 hb with hb | hb
      · exact hslots b (mem_append_left _ hb)
      · rcases mem_cons.1 hb with rfl | hb
        · rfl
        · exact hslots b (mem_append_right _ (mem_cons_of_mem _ hb))
    · have herase := hrest.erase o
      rw [append_assoc, cons_append] at herase
      have hpre : (pre ++ o :: (post ++ rest)).erase o |>.Perm (pre ++ (post ++ rest)) :=
        (perm_middle.erase o).trans (by rw [erase_cons_head])
      rw [append_assoc, cons_append]
      exact perm_middle.trans (((hpre.symm.trans herase).cons a).trans (perm_append_singleton a _).symm)
    · rw [ht.elems, length_append, length_singleton, length_erase_of_mem ho]
      have := length_pos_of_mem ho
      omega

theorem remove_spec (ht : t.Ok hashOf cached) (found : ℕ → Bool) (hash : UInt32)
    (hfound : ∀ b ∈ cached, found b = true → hashOf b = hash) : (t.remove found hash = (none, t) ∧ ∀ b ∈ cached, found b = false) ∨
    ∃ o ∈ cached, (t.remove found hash).1 = some o ∧ found o = true ∧ (t.remove found hash).2.Ok hashOf (cached.erase o) := by
  obtain ⟨chain, hc⟩ := ht.chain hash
  have hslots := ht.slots _ _ hc
  unfold remove
  rcases findPointer_spec ht hfound hc with ⟨heq, hnone⟩ | ⟨pre, o, post, rfl, heq, hf, ho⟩
  · rw [heq]
    exact Or.inl ⟨rfl, hnone⟩
  · rw [heq]
    refine Or.inr ⟨o, ho, rfl, hf, ht.set hc (fun b hb => ?_) (fun rest hrest => ?_) ?_⟩
    · rcases mem_append.1 hb with hb | hb
      · exact hslots b (mem_append_left _ hb)
      · exact hslots b (mem_append_right _ (mem_cons_of_mem _ hb))
    · have herase := hrest.erase o
      rw [append_assoc, cons_append] at herase
      dsimp only [tail_cons]
      rw [append_assoc]
      exact ((perm_middle.erase o).trans (by rw [erase_cons_head])).symm.trans herase
    · have hpos := length_pos_of_mem ho
      rw [UInt32.toNat_sub_of_le _ _ (UInt32.le_iff_toNat_le.2 (by rw [ht.elems]; exact hpos)), ht.elems, length_erase_of_mem ho]
      rfl

end HandleTable

/-! ## References and charges -/

variable {s : LRUCache K V} {items : List (CacheItem K V)} {cached held : List ℕ} {count : ℕ → ℕ} {key : K} {hash : UInt32} {a n : ℕ}

theorem named_iff : named items key hash a = true ↔ ∃ it, items[a]? = some it ∧ it.hash = hash ∧ it.key = key := by
  unfold named
  cases items[a]? <;> simp

omit [DecidableEq K] in
theorem hashOf_of {it : CacheItem K V} (h : items[a]? = some it) : hashOf items a = it.hash := by
  unfold hashOf
  rw [h]
  rfl

def liveSum (items : List (CacheItem K V)) (count : ℕ → ℕ) : ℕ :=
  ∑ a ∈ Finset.range items.length, if count a = 0 then 0 else chargeOf items a

omit [DecidableEq K] in
theorem liveSum_update (ha : a < items.length) : ∃ rest, ∀ n, liveSum items (Function.update count a n) =
    (if n = 0 then 0 else chargeOf items a) + rest := by
  refine ⟨∑ b ∈ (Finset.range items.length).erase a, if count b = 0 then 0 else chargeOf items b, fun n => ?_⟩
  unfold liveSum
  rw [← Finset.add_sum_erase _ _ (Finset.mem_range.2 ha), update_self]
  congr 1
  refine Finset.sum_congr rfl fun b hb => ?_
  rw [update_of_ne (Finset.ne_of_mem_erase hb)]

omit [DecidableEq K] in
theorem chargeSum_eq (h : ∀ a, count a = cached.count a + held.count a) : chargeSum items cached held = liveSum items count := by
  refine Finset.sum_congr rfl fun a _ => ?_
  have hzero : count a = 0 ↔ ¬(a ∈ cached ∨ a ∈ held) := by
    rw [h, Nat.add_eq_zero_iff, count_eq_zero, count_eq_zero, not_or]
  by_cases hc : count a = 0
  · rw [if_pos hc, if_neg (hzero.1 hc)]
  · rw [if_neg hc, if_pos (not_not.1 fun hn => hc (hzero.2 hn))]

/-- Each entry has as many references as `count` says. -/
structure Counts (s : LRUCache K V) (items : List (CacheItem K V)) (count : ℕ → ℕ) : Prop where
  content : s.items = items
  refs : ∀ (a : ℕ) (h : LRUHandle K V), s.heap[a]? = some h → h.refs.toNat = count a
  bound : ∀ a, items.length ≤ a → count a = 0
  usage : s.usage = UInt64.ofNat (liveSum items count)
  nodup : s.deleted.Nodup
  deleted : ∀ a, a ∈ s.deleted ↔ a < items.length ∧ count a = 0

omit [DecidableEq K] in
theorem Counts.heap_length (h : Counts s items count) : s.heap.length = items.length := by
  rw [← h.content]
  exact (length_map _).symm

omit [DecidableEq K] in
theorem Counts.entry (h : Counts s items count) (ha : count a ≠ 0) : ∃ e, s.heap[a]? = some e ∧ items[a]? = some e.item := by
  have hlt : a < items.length := not_le.1 fun hle => ha (h.bound a hle)
  obtain ⟨e, he⟩ : ∃ e, s.heap[a]? = some e := ⟨_, List.getElem?_eq_getElem (h.heap_length ▸ hlt : a < s.heap.length)⟩
  refine ⟨e, he, ?_⟩
  have hmap : s.items[a]? = some e.item := by
    unfold LRUCache.items
    rw [List.getElem?_map, he, map_some]
  rwa [h.content] at hmap

omit [DecidableEq K] in
@[simp] theorem LRUCache.items_setRefs (s : LRUCache K V) (a : ℕ) (refs : UInt32) : (s.setRefs a refs).items = s.items := by
  unfold LRUCache.items LRUCache.setRefs
  apply ext_getElem?
  intro b
  rw [List.getElem?_map, List.getElem?_map, List.getElem?_modify]
  cases s.heap[b]? with
  | none => rfl
  | some h =>
    dsimp only [Option.map_eq_map, map_some]
    split <;> rfl

omit [DecidableEq K] in
theorem Counts.setRefs_refs (h : Counts s items count) {refs : UInt32} (hn : refs.toNat = n) :
    ∀ (b : ℕ) (e : LRUHandle K V), (s.setRefs a refs).heap[b]? = some e → e.refs.toNat = Function.update count a n b := by
  intro b e he
  unfold LRUCache.setRefs at he
  rw [List.getElem?_modify] at he
  obtain ⟨e', he', rfl⟩ := map_eq_some_iff.1 he
  by_cases hab : a = b
  · subst hab
    rw [if_pos rfl, update_self]
    exact hn
  · rw [if_neg hab, update_of_ne (Ne.symm hab)]
    exact h.refs b e' he'

omit [DecidableEq K] in
/-- **`Unref`**: the last reference takes the entry's charge and calls its deleter. -/
theorem Counts.unref (h : Counts s items count) (ha : count a = n + 1) : Counts (s.unref a) items (Function.update count a n) := by
  obtain ⟨e, he, hitem⟩ := h.entry (a := a) (by rw [ha]; exact Nat.succ_ne_zero n)
  have hlt : a < items.length := not_le.1 fun hle => by
    rw [h.bound a hle] at ha
    cases ha
  have hrefs := h.refs a e he
  have hsub : (e.refs - 1).toNat = n := by
    rw [UInt32.toNat_sub_of_le _ _ (UInt32.le_iff_toNat_le.2 (by rw [hrefs, ha]; exact Nat.le_add_left 1 n)), hrefs, ha]
    rfl
  have hzero : e.refs - 1 = 0 ↔ n = 0 := by
    rw [← UInt32.toNat_inj, hsub]
    rfl
  have hbound : ∀ b, items.length ≤ b → Function.update count a n b = 0 := by
    intro b hb
    rw [update_of_ne (by omega)]
    exact h.bound b hb
  obtain ⟨rest, hrest⟩ := @liveSum_update _ _ items count a hlt
  have hbefore : s.usage = UInt64.ofNat (chargeOf items a + rest) := by
    have := hrest (count a)
    rw [update_eq_self, ha, if_neg (Nat.succ_ne_zero n)] at this
    rw [h.usage, this]
  have hcharge : chargeOf items a = e.item.charge.toNat := by
    unfold chargeOf
    rw [hitem]
    rfl
  unfold LRUCache.unref
  rw [he]
  dsimp only
  by_cases hn : n = 0
  · rw [if_pos (hzero.2 hn)]
    refine ⟨(s.items_setRefs a _).trans h.content, h.setRefs_refs hsub, hbound, ?_, ?_, fun b => ?_⟩
    · -- the sum without the charge of the entry
      rw [hrest, if_pos hn, Nat.zero_add]
      change s.usage - e.item.charge = UInt64.ofNat rest
      rw [hbefore, hcharge, UInt64.ofNat_add, UInt64.ofNat_toNat, UInt64.add_comm, UInt64.add_sub_cancel]
    · have hnot : a ∉ s.deleted := fun hin => by
        rw [((h.deleted a).1 hin).2] at ha
        cases ha
      exact nodup_append.2 ⟨h.nodup, nodup_singleton a, fun b hb c hc hbc => hnot (by rwa [← mem_singleton.1 hc, ← hbc])⟩
    · change b ∈ s.deleted ++ [a] ↔ _
      rw [mem_append, h.deleted, mem_singleton]
      by_cases hab : b = a
      · subst hab
        rw [update_self]
        exact ⟨fun _ => ⟨hlt, hn⟩, fun _ => Or.inr rfl⟩
      · rw [update_of_ne hab]
        exact ⟨fun hb => hb.resolve_right hab, Or.inl⟩
  · rw [if_neg fun hc => hn (hzero.1 hc)]
    refine ⟨(s.items_setRefs a _).trans h.content, h.setRefs_refs hsub, hbound, ?_, h.nodup, fun b => ?_⟩
    · rw [hrest, if_neg hn]
      exact hbefore
    · change b ∈ s.deleted ↔ _
      rw [h.deleted]
      by_cases hab : b = a
      · subst hab
        rw [update_self, ha]
        exact ⟨fun hb => absurd hb.2 (Nat.succ_ne_zero n), fun hb => absurd hb.2 hn⟩
      · rw [update_of_ne hab]

omit [DecidableEq K] in
theorem Counts.ref (h : Counts s items count) {e : LRUHandle K V} (he : s.heap[a]? = some e) (hne : count a ≠ 0)
    (hlt : count a + 1 < 2 ^ 32) : Counts (s.setRefs a (e.refs + 1)) items (Function.update count a (count a + 1)) := by
  have hrefs := h.refs a e he
  have hadd : (e.refs + 1).toNat = count a + 1 := by
    rw [UInt32.toNat_add, hrefs, show (1 : UInt32).toNat = 1 from rfl]
    exact Nat.mod_eq_of_lt hlt
  have ha : a < items.length := not_le.1 fun hle => hne (h.bound a hle)
  obtain ⟨rest, hrest⟩ := @liveSum_update _ _ items count a ha
  have hself := hrest (count a)
  rw [update_eq_self, if_neg hne] at hself
  refine ⟨(s.items_setRefs a _).trans h.content, h.setRefs_refs hadd, fun b hb => ?_, ?_, h.nodup, fun b => ?_⟩
  · rw [update_of_ne (by omega)]
    exact h.bound b hb
  · rw [hrest, if_neg (Nat.succ_ne_zero _), ← hself]
    exact h.usage
  · change b ∈ s.deleted ↔ _
    rw [h.deleted]
    by_cases hab : b = a
    · subst hab
      rw [update_self]
      exact ⟨fun hb => absurd hb.2 hne, fun hb => absurd hb.2 (Nat.succ_ne_zero _)⟩
    · rw [update_of_ne hab]

omit [DecidableEq K] in
theorem chargeOf_append {it : CacheItem K V} (ha : a < items.length) : chargeOf (items ++ [it]) a = chargeOf items a := by
  unfold chargeOf
  rw [List.getElem?_append_left ha]

omit [DecidableEq K] in
theorem Counts.alloc (h : Counts s items count) {it : CacheItem K V} {lru : List ℕ} :
    Counts { s with heap := s.heap ++ [⟨it, 2⟩], lru := lru, usage := s.usage + it.charge } (items ++ [it])
      (Function.update count items.length 2) := by
  have hlen := h.heap_length
  refine ⟨?_, fun b e he => ?_, fun b hb => ?_, ?_, h.nodup, fun b => ?_⟩
  · rw [← h.content]
    unfold LRUCache.items
    rw [map_append]
    rfl
  · rw [List.getElem?_append] at he
    by_cases hb : b < s.heap.length
    · rw [if_pos hb] at he
      rw [update_of_ne (by omega)]
      exact h.refs b e he
    · rw [if_neg hb] at he
      have hzero : b - s.heap.length = 0 := by
        by_contra hpos
        rw [List.getElem?_eq_none (by rw [length_singleton]; omega)] at he
        cases he
      rw [hzero] at he
      obtain rfl := Option.some.inj he
      rw [show b = items.length by omega, update_self]
      rfl
  · rw [length_append, length_singleton] at hb
    rw [update_of_ne (by omega)]
    exact h.bound b (by omega)
  · have hsum : liveSum (items ++ [it]) (Function.update count items.length 2) = liveSum items count + it.charge.toNat := by
      unfold liveSum
      rw [length_append, length_singleton, Finset.sum_range_succ, update_self, if_neg (by decide)]
      congr 1
      · refine Finset.sum_congr rfl fun b hb => ?_
        have hb := Finset.mem_range.1 hb
        rw [update_of_ne (by omega), chargeOf_append hb]
      · unfold chargeOf
        rw [List.getElem?_concat_length]
        rfl
    rw [hsum, UInt64.ofNat_add, ← h.usage, UInt64.ofNat_toNat]
  · rw [h.deleted, length_append, length_singleton]
    by_cases hb : b = items.length
    · rw [hb, update_self]
      simp
    · rw [update_of_ne hb]
      constructor
      · exact fun hd => ⟨by omega, hd.2⟩
      · exact fun hd => ⟨by omega, hd.2⟩

/-! ## One call -/

structure Mid (s : LRUCache K V) (items : List (CacheItem K V)) (cached held : List ℕ) : Prop where
  counts : Counts s items fun a => cached.count a + held.count a
  lru : s.lru = cached
  table : s.table.Ok (hashOf items) cached
  nodup : cached.Nodup
  newest : ∀ a ∈ cached, ∀ (b : ℕ) (it it' : CacheItem K V), items[a]? = some it → items[b]? = some it' → it'.key = it.key →
    it'.hash = it.hash → b ≤ a

/-- The cache does what `LruSpec` says. -/
structure Refines (capacity : UInt64) (s : LRUCache K V) (sp : LruSpec K V) : Prop where
  limit : s.capacity = capacity
  mid : Mid s sp.items sp.cached sp.held
  sum : chargeSum sp.items sp.cached sp.held < 2 ^ 64
  room : chargeSum sp.items sp.cached sp.held ≤ capacity.toNat ∨ sp.cached = []

theorem found_hash (h : named items key hash a = true) : hashOf items a = hash := by
  obtain ⟨it, hit, hh, -⟩ := named_iff.1 h
  rw [hashOf_of hit, hh]

theorem Mid.only (h : Mid s items cached held) {b : ℕ} (ha : a ∈ cached) (hb : b ∈ cached) (hna : named items key hash a = true)
    (hnb : named items key hash b = true) : a = b := by
  obtain ⟨it, hit, hh, hk⟩ := named_iff.1 hna
  obtain ⟨it', hit', hh', hk'⟩ := named_iff.1 hnb
  have h1 := h.newest a ha b it it' hit hit' (by rw [hk, hk']) (by rw [hh, hh'])
  have h2 := h.newest b hb a it' it hit' hit (by rw [hk, hk']) (by rw [hh, hh'])
  exact le_antisymm h2 h1

variable {o : ℕ}

theorem Mid.without (h : Mid s items cached held) (ho : o ∈ cached) (hn : named items key hash o = true) :
    (cached.filter fun a => !named items key hash a) = cached.erase o := by
  rw [h.nodup.erase_eq_filter]
  refine filter_congr fun a ha => ?_
  by_cases hao : a = o
  · rw [hao, hn]
    simp
  · have hna : named items key hash a = false := by
      by_contra hne
      exact hao (h.only ha ho (by simpa using hne) hn)
    rw [hna]
    simpa using hao

theorem without_none (hn : ∀ a ∈ cached, named items key hash a = false) : (cached.filter fun a => !named items key hash a) = cached :=
  filter_eq_self.2 fun a ha => by rw [hn a ha]; rfl

omit [DecidableEq K] in
theorem Mid.bound (h : Mid s items cached held) (ha : a ∈ cached) : a < items.length := by
  by_contra hge
  have := h.counts.bound a (not_lt.1 hge)
  have hpos := count_pos_iff.2 ha
  omega

omit [DecidableEq K] in
@[simp] theorem LRUCache.unref_lru (s : LRUCache K V) (a : ℕ) :
    (s.unref a).lru = s.lru ∧ (s.unref a).table = s.table ∧ (s.unref a).capacity = s.capacity := by
  unfold LRUCache.unref
  cases s.heap[a]? with
  | none => exact ⟨rfl, rfl, rfl⟩
  | some h =>
    dsimp only
    split <;> exact ⟨rfl, rfl, rfl⟩

variable {t : HandleTable}

omit [DecidableEq K] in
theorem Counts.dropOld {lru : List ℕ} (h : Counts s items fun a => lru.count a + held.count a) (hnd : lru.Nodup) (ho : o ∈ lru) :
    Counts ((({ s with table := t } : LRUCache K V).lruRemove o).unref o) items fun a => (lru.erase o).count a + held.count a := by
  have hone : lru.count o = 1 := count_eq_one_of_mem hnd ho
  have hs : Counts (({ s with table := t } : LRUCache K V).lruRemove o) items fun a => lru.count a + held.count a :=
    ⟨h.content, h.refs, h.bound, h.usage, h.nodup, h.deleted⟩
  have hun := hs.unref (a := o) (n := held.count o) (by rw [hone, Nat.add_comm])
  have heq : Function.update (fun a => lru.count a + held.count a) o (held.count o) = fun a => (lru.erase o).count a + held.count a := by
    funext b
    by_cases hb : b = o
    · rw [hb, update_self, count_erase_self, hone, Nat.sub_self, Nat.zero_add]
    · rw [update_of_ne hb, count_erase_of_ne hb]
  rwa [heq] at hun

omit [DecidableEq K] in
theorem Mid.drop (h : Mid s items cached held) (ho : o ∈ cached) (ht : t.Ok (hashOf items) (cached.erase o)) :
    Mid ((({ s with table := t } : LRUCache K V).lruRemove o).unref o) items (cached.erase o) held := by
  refine ⟨h.counts.dropOld h.nodup ho, ?_, ?_, h.nodup.erase o, fun a ha => h.newest a (mem_of_mem_erase ha)⟩
  · rw [(LRUCache.unref_lru _ _).1, ← h.lru]
    rfl
  · rw [(LRUCache.unref_lru _ _).2.1]
    exact ht

omit [DecidableEq K] in
theorem Mid.usage_toNat (h : Mid s items cached held) (hsum : chargeSum items cached held < 2 ^ 64) :
    s.usage.toNat = chargeSum items cached held := by
  rw [h.counts.usage, ← chargeSum_eq fun _ => rfl]
  exact UInt64.toNat_ofNat_of_lt' hsum

omit [DecidableEq K] in
theorem chargeSum_mono {cached' held' : List ℕ} (hc : ∀ a ∈ cached', a ∈ cached) (hh : ∀ a ∈ held', a ∈ held) :
    chargeSum items cached' held' ≤ chargeSum items cached held := by
  refine Finset.sum_le_sum fun a _ => ?_
  by_cases ha : a ∈ cached' ∨ a ∈ held'
  · rw [if_pos ha, if_pos (ha.imp (hc a) (hh a))]
  · rw [if_neg ha]
    exact Nat.zero_le _

theorem evictLoop_spec : ∀ (fuel : ℕ) {cached : List ℕ} {s : LRUCache K V}, cached.length ≤ fuel →
    chargeSum items cached held < 2 ^ 64 → Mid s items cached held →
    Mid (LRUCache.evictLoop fuel s) items (LruSpec.evict s.capacity.toNat items held cached) held ∧
    (LRUCache.evictLoop fuel s).capacity = s.capacity := by
  intro fuel
  induction fuel with
  | zero =>
    intro cached s hlen _ h
    obtain rfl := eq_nil_of_length_eq_zero (Nat.le_zero.1 hlen)
    exact ⟨h, rfl⟩
  | succ fuel ih =>
    intro cached s hlen hsum h
    have husage := h.usage_toNat hsum
    rw [LRUCache.evictLoop]
    cases cached with
    | nil =>
      rw [h.lru]
      split <;> exact ⟨h, rfl⟩
    | cons a cached =>
      rw [LruSpec.evict, ← husage]
      by_cases hlt : s.capacity < s.usage
      · rw [if_pos hlt, if_pos (UInt64.lt_iff_toNat_lt.1 hlt), h.lru]
        dsimp only
        obtain ⟨it, hit⟩ : ∃ it, items[a]? = some it := ⟨_, List.getElem?_eq_getElem (h.bound mem_cons_self)⟩
        have hn : named items it.key it.hash a = true := named_iff.2 ⟨it, hit, rfl, rfl⟩
        rw [h.counts.content, hit]
        rcases HandleTable.remove_spec h.table (named items it.key it.hash) it.hash fun b _ hb => found_hash hb with
          ⟨-, hnone⟩ | ⟨o, ho, -, hno, htable⟩
        · have := hnone a mem_cons_self
          rw [hn] at this
          cases this
        · obtain rfl := h.only ho mem_cons_self hno hn
          have hdrop := h.drop mem_cons_self htable
          rw [erase_cons_head] at hdrop
          have hitems : (s.lruRemove o).items = items := h.counts.content
          rw [hitems]
          obtain ⟨h1, h2⟩ := ih (Nat.le_of_succ_le_succ hlen)
            ((chargeSum_mono (fun _ => mem_cons_of_mem _) fun _ => id).trans_lt hsum) hdrop
          rw [(LRUCache.unref_lru _ _).2.2] at h1 h2
          exact ⟨h1, h2⟩
      · rw [if_neg hlt, if_neg fun hc => hlt (UInt64.lt_iff_toNat_lt.2 hc)]
        exact ⟨h, rfl⟩

omit [DecidableEq K] in
theorem evict_room (capacity : ℕ) (items : List (CacheItem K V)) (held : List ℕ) : ∀ cached : List ℕ,
    chargeSum items (LruSpec.evict capacity items held cached) held ≤ capacity ∨ LruSpec.evict capacity items held cached = []
  | [] => Or.inr rfl
  | a :: cached => by
    rw [LruSpec.evict]
    by_cases hlt : capacity < chargeSum items (a :: cached) held
    · rw [if_pos hlt]
      exact evict_room capacity items held cached
    · rw [if_neg hlt]
      exact Or.inl (not_lt.1 hlt)

omit [DecidableEq K] in
theorem evict_suffix (capacity : ℕ) (items : List (CacheItem K V)) (held : List ℕ) : ∀ cached : List ℕ,
    LruSpec.evict capacity items held cached <:+ cached
  | [] => suffix_refl []
  | a :: cached => by
    rw [LruSpec.evict]
    split
    · exact (evict_suffix capacity items held cached).trans (suffix_cons a cached)
    · exact suffix_refl _

variable {capacity : UInt64} {sp : LruSpec K V}

omit [DecidableEq K] in
theorem Counts.fresh (h : Counts s items fun a => cached.count a + held.count a) : items.length ∉ cached ∧ items.length ∉ held := by
  have := h.bound items.length le_rfl
  exact ⟨count_eq_zero.1 (by omega), count_eq_zero.1 (by omega)⟩

omit [DecidableEq K] in
theorem Counts.update_alloc (h : Counts s items fun a => cached.count a + held.count a) :
    Function.update (fun a => cached.count a + held.count a) items.length 2 =
      fun a => (cached ++ [items.length]).count a + (items.length :: held).count a := by
  obtain ⟨hnc, hnh⟩ := h.fresh
  funext a
  by_cases ha : a = items.length
  · rw [ha, update_self, count_append, count_eq_zero.2 hnc, count_singleton_self, count_cons_self, count_eq_zero.2 hnh]
  · rw [update_of_ne ha, count_append, count_cons_of_ne (Ne.symm ha), count_cons_of_ne (Ne.symm ha), count_nil, Nat.add_zero]

theorem Mid.newest_append (h : Mid s items cached held) {it : CacheItem K V} (ha : a ∈ cached) (hna : named items it.key it.hash a = false)
    (b : ℕ) (it1 it2 : CacheItem K V) (h1 : (items ++ [it])[a]? = some it1) (h2 : (items ++ [it])[b]? = some it2) (hk : it2.key = it1.key)
    (hh : it2.hash = it1.hash) : b ≤ a := by
  rw [List.getElem?_append_left (h.bound ha)] at h1
  by_cases hb : b < items.length
  · rw [List.getElem?_append_left hb] at h2
    exact h.newest a ha b it1 it2 h1 h2 hk hh
  · have hlast := (List.getElem?_eq_some_iff.1 h2).1
    rw [length_append, length_singleton] at hlast
    rw [show b = items.length by omega, List.getElem?_concat_length] at h2
    obtain rfl := Option.some.inj h2
    rw [named_iff.2 ⟨it1, h1, hh.symm, hk.symm⟩] at hna
    cases hna

omit [DecidableEq K] in
theorem newest_new {it : CacheItem K V} (b : ℕ) (it1 it2 : CacheItem K V) (_ : (items ++ [it])[items.length]? = some it1)
    (h2 : (items ++ [it])[b]? = some it2) (_ : it2.key = it1.key) (_ : it2.hash = it1.hash) : b ≤ items.length := by
  have hlast := (List.getElem?_eq_some_iff.1 h2).1
  rw [length_append, length_singleton] at hlast
  omega

/-- **A new entry** takes the place of the one of its name. -/
theorem Mid.insert (h : Mid s items cached held) {it : CacheItem K V}
    (hlen : (cached.filter fun a => !named items it.key it.hash a).length < 2 ^ 31) {s1 : LRUCache K V}
    (hs1 : s1 = { s with heap := s.heap ++ [⟨it, 2⟩], lru := s.lru ++ [s.heap.length], usage := s.usage + it.charge }) :
    ∃ old t, s.table.insert (named (items ++ [it]) it.key it.hash) (hashOf (items ++ [it])) items.length = some (old, t) ∧
      (({ s1 with table := t } : LRUCache K V).dropOld old).capacity = s.capacity ∧
      Mid (({ s1 with table := t } : LRUCache K V).dropOld old) (items ++ [it])
        ((cached.filter fun a => !named items it.key it.hash a) ++ [items.length]) (items.length :: held) := by
  have hold : ∀ a ∈ cached, (items ++ [it])[a]? = items[a]? := fun a ha => List.getElem?_append_left (h.bound ha)
  have halloc := @Counts.alloc _ _ s _ _ h.counts it (s.lru ++ [s.heap.length])
  rw [h.counts.update_alloc, ← hs1] at halloc
  have hlru1 : s1.lru = cached ++ [items.length] := by
    rw [hs1]
    rw [h.lru, h.counts.heap_length]
  have hcap1 : s1.capacity = s.capacity := by rw [hs1]
  have hnodup : (cached ++ [items.length]).Nodup :=
    nodup_append.2 ⟨h.nodup, nodup_singleton _, fun a ha b hb hab => h.counts.fresh.1 (by rwa [← mem_singleton.1 hb, ← hab])⟩
  have htable : s.table.Ok (hashOf (items ++ [it])) cached := h.table.congr fun a ha => by
    unfold hashOf
    rw [hold a ha]
  have hnamed : ∀ a ∈ cached, named (items ++ [it]) it.key it.hash a = named items it.key it.hash a := by
    intro a ha
    unfold named
    rw [hold a ha]
  obtain ⟨old, t, ht, hcases⟩ := HandleTable.insert_spec htable (named (items ++ [it]) it.key it.hash) (a := items.length)
    (fun b _ hb => by rw [found_hash hb, hashOf_of List.getElem?_concat_length]) fun hnone => by
      rwa [without_none fun a ha => by rw [← hnamed a ha]; exact hnone a ha] at hlen
  refine ⟨old, t, ht, ?_⟩
  rcases hcases with ⟨rfl, hnone, htable'⟩ | ⟨o, ho, rfl, hno, htable'⟩
  · have hnone' : ∀ a ∈ cached, named items it.key it.hash a = false := fun a ha => by rw [← hnamed a ha]; exact hnone a ha
    refine ⟨hcap1, ?_⟩
    rw [without_none hnone']
    refine ⟨⟨halloc.content, halloc.refs, halloc.bound, halloc.usage, halloc.nodup, halloc.deleted⟩, hlru1, htable', hnodup, fun a ha => ?_⟩
    rcases mem_append.1 ha with ha | ha
    · exact h.newest_append ha (hnone' a ha)
    · rw [mem_singleton.1 ha]
      exact newest_new
  · have hno' : named items it.key it.hash o = true := by rw [← hnamed o ho]; exact hno
    have herase : (cached ++ [items.length]).erase o = cached.erase o ++ [items.length] := erase_append_left _ ho
    refine ⟨(LRUCache.unref_lru _ _).2.2.trans hcap1, ?_⟩
    rw [h.without ho hno', ← herase]
    refine ⟨halloc.dropOld hnodup (mem_append_left _ ho), ?_, ?_, hnodup.erase o, fun a ha => ?_⟩
    · refine (LRUCache.unref_lru _ _).1.trans ?_
      change s1.lru.erase o = _
      rw [hlru1]
    · refine (LRUCache.unref_lru _ _).2.1.symm ▸ ?_
      rw [herase]
      exact htable'
    · rw [herase] at ha
      rcases mem_append.1 ha with ha | ha
      · refine h.newest_append (mem_of_mem_erase ha) ?_
        by_contra hne
        rw [h.only (mem_of_mem_erase ha) ho (by simpa using hne) hno'] at ha
        exact (List.Nodup.not_mem_erase h.nodup) ha
      · rw [mem_singleton.1 ha]
        exact newest_new

theorem insert_refines (h : Refines capacity s sp) {it : CacheItem K V}
    (hsum : chargeSum (sp.items ++ [it]) (sp.without it.key it.hash ++ [sp.items.length]) (sp.items.length :: sp.held) < 2 ^ 64)
    (hlen : (sp.without it.key it.hash).length < 2 ^ 31) :
    ∃ s', s.insert it = some (s', sp.items.length) ∧ Refines capacity s' (sp.step capacity.toNat (.insert it)).1 := by
  obtain ⟨hcap, hmid, -, -⟩ := h
  obtain ⟨items, cached, held⟩ := sp
  dsimp only at hmid hsum hlen ⊢
  obtain ⟨s1, hs1⟩ : ∃ s1 : LRUCache K V,
      s1 = { s with heap := s.heap ++ [⟨it, 2⟩], lru := s.lru ++ [s.heap.length], usage := s.usage + it.charge } := ⟨_, rfl⟩
  obtain ⟨old, t, ht, hmcap, hmid'⟩ := hmid.insert hlen hs1
  have hitems1 : s1.items = items ++ [it] := by
    rw [hs1]
    unfold LRUCache.items
    rw [map_append, ← hmid.counts.content]
    rfl
  generalize hs' : ({ s1 with table := t } : LRUCache K V).dropOld old = s' at hmcap hmid'
  obtain ⟨hev, hevcap⟩ := evictLoop_spec s'.lru.length (le_of_eq (by rw [hmid'.lru]; rfl)) hsum hmid'
  rw [hmcap, hcap] at hev hevcap
  refine ⟨LRUCache.evictLoop s'.lru.length s', ?_, hevcap, hev, ?_, evict_room _ _ _ _⟩
  · unfold LRUCache.insert LRUCache.lruAppend
    dsimp only
    rw [← hs1, hitems1, hmid.counts.heap_length, ht]
    rw [← hs', hs1, hmid.counts.heap_length]
  · exact (chargeSum_mono (fun a ha => (evict_suffix _ _ _ _).subset ha) fun _ => id).trans_lt hsum

theorem Mid.lookup (h : Mid s items cached held) (key : K) (hash : UInt32) :
    (s.table.lookup (named items key hash) hash = none ∧ cached.find? (named items key hash) = none) ∨
    ∃ a ∈ cached, s.table.lookup (named items key hash) hash = some a ∧ named items key hash a = true ∧
      cached.find? (named items key hash) = some a := by
  rcases HandleTable.lookup_spec h.table (named items key hash) hash fun b _ hb => found_hash hb with
    ⟨hlook, hnone⟩ | ⟨a, ha, hlook, hna⟩
  · exact Or.inl ⟨hlook, List.find?_eq_none.2 fun b hb => by rw [hnone b hb]; exact Bool.false_ne_true⟩
  · refine Or.inr ⟨a, ha, hlook, hna, ?_⟩
    cases hf : cached.find? (named items key hash) with
    | none => exact absurd hna (List.find?_eq_none.1 hf a ha)
    | some b => rw [h.only ha (List.mem_of_find?_eq_some hf) hna (List.find?_some hf)]

theorem lookup_refines (h : Refines capacity s sp) {key : K} {hash : UInt32}
    (hrefs : ∀ a ∈ sp.cached, named sp.items key hash a = true → sp.held.count a + 2 < 2 ^ 32) :
    (s.lookup key hash).2 = (sp.step capacity.toNat (.lookup key hash)).2 ∧
    Refines capacity (s.lookup key hash).1 (sp.step capacity.toNat (.lookup key hash)).1 := by
  have hmid := h.mid
  unfold LRUCache.lookup LruSpec.step
  rw [hmid.counts.content]
  dsimp only
  rcases hmid.lookup key hash with ⟨hlook, hfind⟩ | ⟨a, ha, hlook, hna, hfind⟩
  · rw [hlook, hfind]
    exact ⟨rfl, h⟩
  · have hone : sp.cached.count a = 1 := count_eq_one_of_mem hmid.nodup ha
    have hne : sp.cached.count a + sp.held.count a ≠ 0 := by omega
    obtain ⟨e, he, hitem⟩ := hmid.counts.entry hne
    rw [hlook, hfind]
    dsimp only
    rw [he]
    have hrefs := hrefs a ha hna
    have hcounts := hmid.counts.ref he hne (by omega)
    have hperm : (sp.cached.erase a ++ [a]).Perm sp.cached :=
      (perm_append_singleton a _).trans (perm_cons_erase ha).symm
    have hcount : Function.update (fun b => sp.cached.count b + sp.held.count b) a (sp.cached.count a + sp.held.count a + 1) =
        fun b => (sp.cached.erase a ++ [a]).count b + (a :: sp.held).count b := by
      funext b
      rw [hperm.count_eq]
      by_cases hb : b = a
      · rw [hb, update_self, count_cons_self, Nat.add_assoc]
      · rw [update_of_ne hb, count_cons_of_ne (Ne.symm hb)]
    rw [hcount] at hcounts
    have hsum : chargeSum sp.items (sp.cached.erase a ++ [a]) (a :: sp.held) = chargeSum sp.items sp.cached sp.held := by
      refine Finset.sum_congr rfl fun b _ => ?_
      have hiff : (b ∈ sp.cached.erase a ++ [a] ∨ b ∈ a :: sp.held) ↔ b ∈ sp.cached ∨ b ∈ sp.held := by
        rw [hperm.mem_iff, mem_cons]
        constructor
        · rintro (hb | rfl | hb)
          · exact Or.inl hb
          · exact Or.inl ha
          · exact Or.inr hb
        · exact fun hb => hb.imp id Or.inr
      exact if_congr hiff rfl rfl
    refine ⟨rfl, h.limit, ⟨⟨hcounts.content, hcounts.refs, hcounts.bound, hcounts.usage, hcounts.nodup, hcounts.deleted⟩, ?_,
      hmid.table.of_perm hperm.symm, hperm.nodup_iff.2 hmid.nodup, fun b hb => hmid.newest b (hperm.mem_iff.1 hb)⟩, ?_, ?_⟩
    · change s.lru.erase a ++ [a] = _
      rw [hmid.lru]
    · rw [hsum]
      exact h.sum
    · rw [hsum]
      exact h.room.imp id fun hnil => absurd ha (by rw [hnil]; exact not_mem_nil)

theorem release_refines (h : Refines capacity s sp) {a : ℕ} (ha : a ∈ sp.held) :
    Refines capacity (s.release a) (sp.step capacity.toNat (.release a)).1 := by
  have hmid := h.mid
  have hpos := count_pos_iff.2 ha
  have hun := hmid.counts.unref (a := a) (n := sp.cached.count a + (sp.held.count a - 1)) (by omega)
  have hcount : Function.update (fun b => sp.cached.count b + sp.held.count b) a (sp.cached.count a + (sp.held.count a - 1)) =
      fun b => sp.cached.count b + (sp.held.erase a).count b := by
    funext b
    by_cases hb : b = a
    · rw [hb, update_self, count_erase_self]
    · rw [update_of_ne hb, count_erase_of_ne hb]
  rw [hcount] at hun
  obtain ⟨hlru, htable, hcap⟩ := LRUCache.unref_lru s a
  have hle : chargeSum sp.items sp.cached (sp.held.erase a) ≤ chargeSum sp.items sp.cached sp.held :=
    chargeSum_mono (fun _ => id) fun _ => mem_of_mem_erase
  exact ⟨hcap.trans h.limit, ⟨hun, hlru.trans hmid.lru, htable.symm ▸ hmid.table, hmid.nodup, hmid.newest⟩, hle.trans_lt h.sum,
    h.room.imp hle.trans id⟩

theorem erase_refines (h : Refines capacity s sp) (key : K) (hash : UInt32) :
    Refines capacity (s.erase key hash) (sp.step capacity.toNat (.erase key hash)).1 := by
  have hmid := h.mid
  unfold LRUCache.erase LruSpec.step
  rw [hmid.counts.content]
  dsimp only
  rcases HandleTable.remove_spec hmid.table (named sp.items key hash) hash fun b _ hb => found_hash hb with
    ⟨hrem, hnone⟩ | ⟨o, ho, hrem, hno, htable⟩
  · rw [hrem, LruSpec.without, without_none hnone]
    exact h
  · rw [hrem, LruSpec.without, hmid.without ho hno]
    have hle : chargeSum sp.items (sp.cached.erase o) sp.held ≤ chargeSum sp.items sp.cached sp.held :=
      chargeSum_mono (fun _ => mem_of_mem_erase) fun _ => id
    refine ⟨(LRUCache.unref_lru _ _).2.2.trans h.limit, hmid.drop ho htable, hle.trans_lt h.sum, ?_⟩
    rcases h.room with hroom | hnil
    · exact Or.inl (hle.trans hroom)
    · exact Or.inr (by dsimp only; rw [hnil]; rfl)

/-- What a call may be: handles are released that were returned, the charges of the entries that are not yet deleted stay below
`2 ^ 64`, the table has room for the entry, and so has the number of references. -/
def LruSpec.Within (sp : LruSpec K V) : CacheCall K V → Prop
  | .insert it => chargeSum (sp.items ++ [it]) (sp.without it.key it.hash ++ [sp.items.length]) (sp.items.length :: sp.held) < 2 ^ 64 ∧
      (sp.without it.key it.hash).length < 2 ^ 31
  | .lookup key hash => ∀ a ∈ sp.cached, named sp.items key hash a = true → sp.held.count a + 2 < 2 ^ 32
  | .release a => a ∈ sp.held
  | .erase _ _ => True

@[grind =] def LruSpec.RunWithin (capacity : ℕ) (sp : LruSpec K V) : List (CacheCall K V) → Prop
  | [] => True
  | c :: calls => sp.Within c ∧ (sp.step capacity c).1.RunWithin capacity calls

theorem step_refines (h : Refines capacity s sp) {c : CacheCall K V} (hc : sp.Within c) :
    ∃ s', s.step c = some (s', (sp.step capacity.toNat c).2) ∧ Refines capacity s' (sp.step capacity.toNat c).1 := by
  cases c with
  | insert it =>
    obtain ⟨s', hs', href⟩ := insert_refines h hc.1 hc.2
    refine ⟨s', ?_, href⟩
    unfold LRUCache.step
    dsimp only
    rw [hs']
    rfl
  | lookup key hash =>
    obtain ⟨hout, href⟩ := lookup_refines h hc
    exact ⟨_, congrArg some (Prod.ext rfl hout), href⟩
  | release a => exact ⟨_, rfl, release_refines h hc⟩
  | erase key hash => exact ⟨_, rfl, erase_refines h key hash⟩

theorem run_refines : ∀ (calls : List (CacheCall K V)) {s : LRUCache K V} {sp : LruSpec K V}, Refines capacity s sp →
    sp.RunWithin capacity.toNat calls →
    ∃ s', s.run calls = some (s', (sp.run capacity.toNat calls).2) ∧ Refines capacity s' (sp.run capacity.toNat calls).1
  | [], s, _, h, _ => ⟨s, rfl, h⟩
  | c :: calls, s, sp, h, hc => by
    obtain ⟨s1, hs1, h1⟩ := step_refines h hc.1
    obtain ⟨s2, hs2, h2⟩ := run_refines calls h1 hc.2
    refine ⟨s2, ?_, h2⟩
    rw [LRUCache.run, hs1]
    change (do let (s, outs) ← s1.run calls; return (s, _ :: outs) : Option (LRUCache K V × List (Option ℕ))) = _
    rw [hs2]
    rfl

omit [DecidableEq K] in
theorem new_refines (capacity : UInt64) : Refines capacity (.new capacity : LRUCache K V) .new := by
  refine ⟨rfl, ⟨⟨rfl, fun a e he => ?_, fun _ _ => rfl, rfl, nodup_nil, fun a => ?_⟩, rfl, HandleTable.new_ok _, nodup_nil,
    fun a ha => absurd ha not_mem_nil⟩, Nat.two_pow_pos 64, Or.inr rfl⟩
  · cases he
  · constructor
    · exact fun ha => absurd ha not_mem_nil
    · exact fun ha => absurd ha.1 (Nat.not_lt_zero a)

/-- What the claims of callers rest on: each deleter runs once, when the entry is neither in the table nor held; a search finds the
entry that was inserted last, as long as it is in the table; the entries of the table stand in the order of their last use; and
`usage_` is the charge of the entries that are not deleted. -/
structure Serves (s : LRUCache K V) (sp : LruSpec K V) : Prop where
  once : s.deleted.Nodup
  deleted : ∀ a, a ∈ s.deleted ↔ a < sp.items.length ∧ a ∉ sp.cached ∧ a ∉ sp.held
  table : s.table.list.flatten.Perm sp.cached
  found : ∀ key hash, (s.lookup key hash).2 = sp.cached.find? (named sp.items key hash)
  newest : ∀ key hash a b, (s.lookup key hash).2 = some a → named sp.items key hash b = true → b ≤ a
  order : s.lru = sp.cached
  usage : s.usage.toNat = chargeSum sp.items sp.cached sp.held
  room : s.usage ≤ s.capacity ∨ s.lru = []

theorem Refines.find (h : Refines capacity s sp) (key : K) (hash : UInt32) :
    (s.lookup key hash).2 = sp.cached.find? (named sp.items key hash) := by
  have hmid := h.mid
  unfold LRUCache.lookup
  rw [hmid.counts.content]
  rcases hmid.lookup key hash with ⟨hlook, hfind⟩ | ⟨a, ha, hlook, -, hfind⟩
  · rw [hlook, hfind]
  · obtain ⟨e, he, -⟩ := hmid.counts.entry (a := a) (Nat.ne_of_gt (Nat.add_pos_left (count_pos_iff.2 ha) _))
    rw [hlook, hfind]
    dsimp only
    rw [he]

theorem Refines.serves (h : Refines capacity s sp) : Serves s sp := by
  have hmid := h.mid
  have husage := hmid.usage_toNat h.sum
  refine ⟨hmid.counts.nodup, fun a => ?_, hmid.table.perm, h.find, fun key hash a b ha hb => ?_, hmid.lru, husage, ?_⟩
  · rw [hmid.counts.deleted, Nat.add_eq_zero_iff, count_eq_zero, count_eq_zero]
  · rw [h.find] at ha
    obtain ⟨it, hit, hh, hk⟩ := named_iff.1 (List.find?_some ha)
    obtain ⟨it', hit', hh', hk'⟩ := named_iff.1 hb
    exact hmid.newest a (List.mem_of_find?_eq_some ha) b it it' hit hit' (by rw [hk, hk']) (by rw [hh, hh'])
  · rw [hmid.lru, UInt64.le_iff_toNat_le, husage, h.limit]
    exact h.room

namespace LRUCache

/-- **Runs of the cache**, with handles that are released once. -/
theorem run_serves (capacity : UInt64) (calls : List (CacheCall K V)) (h : LruSpec.new.RunWithin capacity.toNat calls) :
    ∃ s, (new capacity).run calls = some (s, (LruSpec.new.run capacity.toNat calls).2) ∧
      Serves s (LruSpec.new.run capacity.toNat calls).1 := by
  obtain ⟨s, hs, href⟩ := run_refines calls (new_refines capacity) h
  exact ⟨s, hs, href.serves⟩

theorem run_serves_five : ∃ s, (new 10 : LRUCache ℕ ℕ).run
    [.insert ⟨1, 7, 0, 6⟩, .insert ⟨1, 7, 1, 4⟩, .release 0, .lookup 1 7, .erase 1 7] = some (s, [some 0, some 1, none, some 1, none]) ∧
    Serves s ⟨[⟨1, 7, 0, 6⟩, ⟨1, 7, 1, 4⟩], [], [1, 1]⟩ :=
  run_serves 10 [.insert ⟨1, 7, 0, 6⟩, .insert ⟨1, 7, 1, 4⟩, .release 0, .lookup 1 7, .erase 1 7]
    ⟨⟨by decide, by decide⟩, ⟨by decide, by decide⟩, mem_cons_of_mem _ mem_cons_self, by unfold LruSpec.Within; decide, trivial, trivial⟩

/-- Two charges of `2 ^ 63`: `usage_` is 0, and the second entry stays in the list. -/
theorem run_wraps : ((new 10 : LRUCache ℕ ℕ).run [.insert ⟨1, 1, 0, 0x8000000000000000⟩, .insert ⟨2, 2, 0, 0x8000000000000000⟩]).map
      (fun r => (r.1.usage, r.1.lru, r.1.deleted)) = some (0, [1], []) ∧
    chargeSum [(⟨1, 1, 0, 0x8000000000000000⟩ : CacheItem ℕ ℕ), ⟨2, 2, 0, 0x8000000000000000⟩] [1] [1, 0] = 2 ^ 64 :=
  ⟨by decide, by decide⟩

end LRUCache

end KVStores.LevelDb
