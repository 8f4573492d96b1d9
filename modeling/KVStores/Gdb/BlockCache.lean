import KVStores.Gdb.FreeList
import Mathlib.Data.List.Nodup
import Mathlib.Data.List.ReduceOption

/-!
# The cache of open blocks

Open blocks are kept once for each offset, and counted references keep them there (`db_cache.c`, `db_blocks.c`).
-/

namespace KVStores.Gdb

open List Option

/-- The fields of a `GdbBlock` that the cache looks at; `refCount` is a `char`. -/
structure OpenBlock where
  offset : Offset
  type : BlockType
  refCount : Int8
deriving DecidableEq

/-- `openBlocks` and `openBlockCount`. -/
structure BlockCache where
  openBlocks : List (Option OpenBlock)
  openBlockCount : ℕ
deriving DecidableEq

namespace BlockCache

/-- The cache of a new `GDatabase`. -/
def empty : BlockCache := ⟨List.replicate 10 none, 0⟩

/-- The loop over `openBlocks` for an offset: the slot that is found gets another value. -/
@[grind =] def atOffset (offset : Offset) (f : OpenBlock → Option OpenBlock) :
    List (Option OpenBlock) → Option (OpenBlock × List (Option OpenBlock))
  | [] => none
  | some b :: slots =>
    if b.offset = offset then some (b, f b :: slots) else (atOffset offset f slots).map fun r => (r.1, some b :: r.2)
  | none :: slots => (atOffset offset f slots).map fun r => (r.1, none :: r.2)

def countUp (b : OpenBlock) : OpenBlock := { b with refCount := b.refCount + 1 }

/-- `gdbCacheGetBlock`, which counts the reference: the block as it was found. -/
def gdbCacheGetBlock (c : BlockCache) (offset : Offset) : Option (OpenBlock × BlockCache) :=
  (atOffset offset (fun b => some (countUp b)) c.openBlocks).map fun r => (r.1, { c with openBlocks := r.2 })

@[grind =] def place (b : OpenBlock) : List (Option OpenBlock) → List (Option OpenBlock)
  | [] => []
  | none :: slots => some b :: slots
  | s :: slots => s :: place b slots

/-- `gdbCacheAddBlock` for a block that is not in the list. -/
def gdbCacheAddBlock (c : BlockCache) (offset : Offset) (type : BlockType) : BlockCache :=
  match c.gdbCacheGetBlock offset with
  | some (_, c) => c
  | none =>
    let slots := if c.openBlocks.length ≤ c.openBlockCount then c.openBlocks ++ List.replicate c.openBlocks.length none else c.openBlocks
    if none ∈ slots then ⟨place ⟨offset, type, 1⟩ slots, c.openBlockCount + 1⟩ else ⟨slots, c.openBlockCount⟩

def gdbCacheRemoveBlock (c : BlockCache) (offset : Offset) : BlockCache :=
  if c.openBlockCount = 0 then c
  else
    match atOffset offset (fun b => if b.refCount - 1 ≤ 0 then none else some { b with refCount := b.refCount - 1 }) c.openBlocks with
    | none => c
    | some (b, slots) => ⟨slots, if b.refCount - 1 ≤ 0 then c.openBlockCount - 1 else c.openBlockCount⟩

def blocks (c : BlockCache) : List OpenBlock := c.openBlocks.reduceOption

end BlockCache

open BlockCache

/-- The calls. What the header in the file says, and the offset that is reserved for a new block, are given. -/
inductive CacheCall
  | readBlock (offset : Offset) (blockType : Option BlockType) (inFile : Option BlockType)
  | newBlock (offset : Offset) (type : BlockType)
  | blockTypeAt (offset : Offset)
  | destroyBlock (offset : Offset)

namespace CacheCall

/-- `gdbReadBlock`, `gdbNewBlock` with `gdbWriteBlock`, `gdbBlockTypeAt` and `gdbDestroyBlock`, on the cache and the numbers of
outstanding handles. `none` where the code aborts. -/
@[grind =] def exec (c : BlockCache) (handles : Offset → ℕ) : CacheCall → Option (BlockCache × (Offset → ℕ))
  | readBlock offset blockType inFile =>
    if offset < dbFreeBlockListOffset then some (c, handles)
    else match c.gdbCacheGetBlock offset with
      | some (b, c) =>
        if blockType = none ∨ blockType = some b.type then some (c, Function.update handles offset (handles offset + 1))
        else some (c, handles)
      | none => inFile.bind fun type =>
        if blockType = none ∨ blockType = some type then
          some (c.gdbCacheAddBlock offset type, Function.update handles offset (handles offset + 1))
        else none
  | newBlock offset type =>
    if offset = 0 then none else some (c.gdbCacheAddBlock offset type, Function.update handles offset (handles offset + 1))
  | blockTypeAt offset =>
    if offset < dbFreeBlockListOffset then some (c, handles)
    else some (((c.gdbCacheGetBlock offset).map Prod.snd).getD c, handles)
  | destroyBlock offset => some (c.gdbCacheRemoveBlock offset, Function.update handles offset (handles offset - 1))

/-- What callers keep to: a handle is destroyed once, and a new block gets an offset that no open block has. -/
@[grind =] def Legal (handles : Offset → ℕ) : CacheCall → Prop
  | newBlock offset _ => handles offset = 0
  | destroyBlock offset => 0 < handles offset
  | _ => True

/-- **The condition**: an open block is read as what it is, while at most 127 handles to it are out, and nobody asks for its type. -/
@[grind =] def Balanced (c : BlockCache) (handles : Offset → ℕ) : CacheCall → Prop
  | readBlock offset blockType _ => handles offset < 128 ∧
    ∀ b ∈ c.blocks, b.offset = offset → blockType = none ∨ blockType = some b.type
  | blockTypeAt offset => handles offset = 0
  | _ => True

@[grind =] def run (c : BlockCache) (handles : Offset → ℕ) : List CacheCall → Option (BlockCache × (Offset → ℕ))
  | [] => some (c, handles)
  | call :: calls => (call.exec c handles).bind fun r => run r.1 r.2 calls

@[grind =] def BalancedRun (c : BlockCache) (handles : Offset → ℕ) : List CacheCall → Prop
  | [] => True
  | call :: calls => call.Legal handles ∧ call.Balanced c handles ∧
    ∀ r, call.exec c handles = some r → BalancedRun r.1 r.2 calls

end CacheCall

/-- The cache and the handles agree. -/
structure CacheOk (c : BlockCache) (handles : Offset → ℕ) : Prop where
  room : 0 < c.openBlocks.length
  count : c.openBlockCount = c.blocks.length
  nodup : (c.blocks.map OpenBlock.offset).Nodup
  held : ∀ b ∈ c.blocks, b.refCount = Int8.ofNat (handles b.offset)
  few : ∀ o, handles o ≤ 128
  cached : ∀ o, o ∈ c.blocks.map OpenBlock.offset ↔ 0 < handles o

variable {c c' : BlockCache} {handles : Offset → ℕ} {offset : Offset} {type : BlockType} {b : OpenBlock} {f : OpenBlock → Option OpenBlock}
  {slots : List (Option OpenBlock)} {rest : List OpenBlock} {m : ℕ}

theorem atOffset_none (h : atOffset offset f slots = none) : offset ∉ slots.reduceOption.map OpenBlock.offset := by
  induction slots with
  | nil => exact not_mem_nil
  | cons s slots ih =>
    cases s with
    | none => exact ih (Option.map_eq_none_iff.mp h)
    | some b =>
      rw [atOffset] at h
      split_ifs at h with hb
      rw [reduceOption_cons_of_some, map_cons, mem_cons, not_or]
      exact ⟨fun heq => hb heq.symm, ih (Option.map_eq_none_iff.mp h)⟩

variable {r : OpenBlock × List (Option OpenBlock)}

theorem atOffset_some (h : atOffset offset f slots = some r) :
    r.1.offset = offset ∧ r.2.length = slots.length ∧ ∃ rest, slots.reduceOption.Perm (r.1 :: rest) ∧
      r.2.reduceOption.Perm ((f r.1).toList ++ rest) := by
  induction slots generalizing r with
  | nil => cases h
  | cons s slots ih =>
    cases s with
    | none =>
      obtain ⟨q, hq, rfl⟩ := Option.map_eq_some_iff.mp h
      obtain ⟨ho, hlen, hrest⟩ := ih hq
      exact ⟨ho, congrArg (· + 1) hlen, hrest⟩
    | some b =>
      rw [atOffset] at h
      split_ifs at h with hb
      · cases h
        refine ⟨hb, rfl, slots.reduceOption, Perm.refl _, ?_⟩
        cases f b <;> exact Perm.refl _
      · obtain ⟨q, hq, rfl⟩ := Option.map_eq_some_iff.mp h
        obtain ⟨ho, hlen, rest, hold, hnew⟩ := ih hq
        exact ⟨ho, congrArg (· + 1) hlen, b :: rest, (hold.cons b).trans (Perm.swap _ _ _), (hnew.cons b).trans perm_middle.symm⟩

theorem place_perm (h : none ∈ slots) : (place b slots).length = slots.length ∧
    (place b slots).reduceOption.Perm (b :: slots.reduceOption) := by
  induction slots with
  | nil => cases h
  | cons s slots ih =>
    cases s with
    | none => exact ⟨rfl, Perm.refl _⟩
    | some a =>
      obtain ⟨hlen, hperm⟩ := ih (by simpa using h)
      exact ⟨congrArg (· + 1) hlen, (hperm.cons a).trans (Perm.swap b a _)⟩

namespace CacheOk

theorem empty : CacheOk empty fun _ => 0 :=
  ⟨by decide, rfl, by decide, fun b hb => by simp [blocks, BlockCache.empty] at hb, fun o => Nat.zero_le _,
    fun o => by simp [blocks, BlockCache.empty]⟩

theorem update (h : CacheOk c handles) (old : List OpenBlock) (hold : c.blocks.Perm (old ++ rest)) (ho : ∀ b ∈ old, b.offset = offset)
    (hfree : offset ∉ rest.map OpenBlock.offset) (hm : m ≤ 128) (hroom : 0 < c'.openBlocks.length)
    (hcount : c'.openBlockCount = c'.blocks.length)
    (hnew : c'.blocks.Perm ((if m = 0 then [] else [⟨offset, type, Int8.ofNat m⟩]) ++ rest)) :
    CacheOk c' (Function.update handles offset m) := by
  have hne : ∀ b ∈ rest, b.offset ≠ offset := fun b hb heq => hfree (heq ▸ mem_map_of_mem hb)
  have hmem : ∀ b ∈ rest, b ∈ c.blocks := fun b hb => hold.mem_iff.mpr (mem_append_right _ hb)
  have hcached : ∀ o, o ≠ offset → (o ∈ rest.map OpenBlock.offset ↔ 0 < handles o) := fun o hne => by
    rw [← h.cached, (hold.map OpenBlock.offset).mem_iff, map_append, mem_append, or_iff_right]
    intro hmap
    obtain ⟨b, hb, rfl⟩ := mem_map.mp hmap
    exact hne (ho b hb)
  have hnodup : (rest.map OpenBlock.offset).Nodup := by
    have hall := (hold.map OpenBlock.offset).nodup h.nodup
    rw [map_append] at hall
    exact hall.of_append_right
  refine ⟨hroom, hcount, (hnew.map OpenBlock.offset).nodup_iff.mpr ?_, fun b hb => ?_, fun o => ?_, fun o => ?_⟩
  · split_ifs
    · exact hnodup
    · exact nodup_cons.mpr ⟨hfree, hnodup⟩
  · obtain hb | hb := mem_append.mp (hnew.mem_iff.mp hb)
    · split_ifs at hb
      · cases hb
      · rw [mem_singleton.mp hb, Function.update_self]
    · rw [h.held b (hmem b hb), Function.update_of_ne (hne b hb)]
  · by_cases heq : o = offset
    · rwa [heq, Function.update_self]
    · rw [Function.update_of_ne heq]
      exact h.few o
  · rw [(hnew.map OpenBlock.offset).mem_iff, map_append, mem_append]
    by_cases heq : o = offset
    · subst heq
      rw [Function.update_self, or_iff_left hfree]
      split_ifs with h0 <;> simp [h0, Nat.pos_of_ne_zero]
    · rw [Function.update_of_ne heq, or_iff_right, hcached o heq]
      split_ifs <;> simp [heq]

theorem free (h : CacheOk c handles) (h0 : handles offset = 0) : offset ∉ c.blocks.map OpenBlock.offset := fun hmem =>
  ((h.cached offset).mp hmem).ne' h0

theorem miss (h : CacheOk c handles) (h0 : handles offset = 0) : c.gdbCacheGetBlock offset = none := Option.map_eq_none_iff.mpr <| by
  cases hr : atOffset offset (fun b => some (countUp b)) c.openBlocks with
  | none => rfl
  | some r =>
    obtain ⟨ho, -, rest, hold, -⟩ := atOffset_some hr
    exact absurd (mem_map.mpr ⟨r.1, hold.mem_iff.mpr mem_cons_self, ho⟩) (h.free h0)

theorem add (h : CacheOk c handles) (h0 : handles offset = 0) (type : BlockType) :
    CacheOk (c.gdbCacheAddBlock offset type) (Function.update handles offset (handles offset + 1)) := by
  rw [gdbCacheAddBlock, h.miss h0]
  extract_lets slots
  have hslots : slots.reduceOption = c.blocks ∧ none ∈ slots := by
    unfold slots
    split_ifs with hfull
    · exact ⟨by simp [blocks, reduceOption_append], mem_append_right _ (mem_replicate.mpr ⟨h.room.ne', rfl⟩)⟩
    · exact ⟨rfl, reduceOption_length_lt_iff.mp (h.count ▸ not_le.mp hfull)⟩
  obtain ⟨hlen, hperm⟩ := place_perm (b := ⟨offset, type, 1⟩) hslots.2
  rw [hslots.1] at hperm
  rw [if_pos hslots.2, h0]
  refine h.update [] (Perm.refl _) (fun b hb => absurd hb not_mem_nil) (h.free h0) (by decide) ?_ ?_ hperm
  · exact hlen ▸ length_pos_of_mem hslots.2
  · rw [blocks, hperm.length_eq, length_cons, h.count]

theorem recount (h : CacheOk c handles) (hr : atOffset offset f c.openBlocks = some r)
    (hm : m ≤ 128) (hf : f r.1 = if m = 0 then none else some { r.1 with refCount := Int8.ofNat m }) :
    CacheOk ⟨r.2, if m = 0 then c.openBlockCount - 1 else c.openBlockCount⟩ (Function.update handles offset m) := by
  obtain ⟨ho, hlen, rest, hold, hnew⟩ := atOffset_some hr
  have hfree : offset ∉ rest.map OpenBlock.offset := by
    have hnodup := (hold.map OpenBlock.offset).nodup h.nodup
    rw [map_cons, nodup_cons, ho] at hnodup
    exact hnodup.1
  have hnew' : r.2.reduceOption.Perm ((if m = 0 then [] else [⟨offset, r.1.type, Int8.ofNat m⟩]) ++ rest) := by
    rw [← ho]
    convert hnew using 2
    rw [hf]
    split_ifs <;> rfl
  refine h.update [r.1] hold (by simpa using ho) hfree hm (hlen.symm ▸ h.room) ?_ hnew'
  rw [blocks, hnew'.length_eq, h.count, blocks, hold.length_eq]
  split_ifs <;> simp

theorem found (h : CacheOk c handles) (ho : 0 < handles offset) (f : OpenBlock → Option OpenBlock) :
    ∃ r, atOffset offset f c.openBlocks = some r ∧ r.1 ∈ c.blocks ∧ r.1.offset = offset ∧ r.1.refCount = Int8.ofNat (handles offset) := by
  cases hr : atOffset offset f c.openBlocks with
  | none => exact absurd ((h.cached offset).mpr ho) (atOffset_none hr)
  | some r =>
    obtain ⟨heq, -, rest, hold, -⟩ := atOffset_some hr
    have hmem : r.1 ∈ c.blocks := hold.mem_iff.mpr mem_cons_self
    exact ⟨r, rfl, hmem, heq, heq ▸ h.held r.1 hmem⟩

theorem remove (h : CacheOk c handles) (ho : 0 < handles offset) :
    CacheOk (c.gdbCacheRemoveBlock offset) (Function.update handles offset (handles offset - 1)) := by
  obtain ⟨r, hr, hmem, -, href⟩ := h.found ho fun b =>
    if b.refCount - 1 ≤ 0 then none else some { b with refCount := b.refCount - 1 }
  have hm : handles offset - 1 < 128 := by have := h.few offset; omega
  have hsub : r.1.refCount - 1 = Int8.ofNat (handles offset - 1) := by
    rw [href, Int8.ofNat_sub _ _ ho]
    rfl
  have hle : r.1.refCount - 1 ≤ 0 ↔ handles offset - 1 = 0 := by
    rw [hsub, Int8.le_iff_toInt_le, Int8.toInt_ofNat_of_lt hm]
    exact Int.natCast_nonpos_iff
  have hcount : c.openBlockCount ≠ 0 := h.count ▸ (length_pos_of_mem hmem).ne'
  rw [gdbCacheRemoveBlock, if_neg hcount, hr]
  simp only [hle]
  exact h.recount hr hm.le (by simp only [hle, ← hsub])

end CacheOk

namespace CacheCall

variable {call : CacheCall} {calls : List CacheCall} {r : BlockCache × (Offset → ℕ)}

theorem exec_ok (h : CacheOk c handles) (hlegal : call.Legal handles) (hbal : call.Balanced c handles)
    (hr : call.exec c handles = some r) : CacheOk r.1 r.2 := by
  cases call with
  | readBlock offset blockType inFile =>
    rw [exec] at hr
    split_ifs at hr with hvalid
    · cases hr
      exact h
    obtain ho | ho := Nat.eq_zero_or_pos (handles offset)
    · rw [h.miss ho] at hr
      obtain ⟨type, -, hr⟩ := Option.bind_eq_some_iff.mp hr
      split_ifs at hr
      cases hr
      exact h.add ho type
    · obtain ⟨q, hq, hmem, heq, href⟩ := h.found ho fun b => some (countUp b)
      simp only [gdbCacheGetBlock, hq, Option.map_some, if_pos (hbal.2 q.1 hmem heq)] at hr
      cases hr
      have hok := h.recount hq hbal.1 <| by
        rw [if_neg (Nat.succ_ne_zero _), Nat.succ_eq_add_one, Int8.ofNat_add, ← href]
        rfl
      rwa [if_neg (Nat.succ_ne_zero _)] at hok
  | newBlock offset type =>
    rw [exec] at hr
    split_ifs at hr
    cases hr
    exact h.add hlegal type
  | blockTypeAt offset =>
    rw [exec, h.miss hbal, Option.map_none, Option.getD_none, ite_self] at hr
    cases hr
    exact h
  | destroyBlock offset =>
    cases hr
    exact h.remove hlegal

theorem run_ok (h : CacheOk c handles) (hbal : BalancedRun c handles calls) (hr : run c handles calls = some r) : CacheOk r.1 r.2 := by
  induction calls generalizing c handles with
  | nil =>
    cases hr
    exact h
  | cons call calls ih =>
    obtain ⟨q, hq, hr⟩ := Option.bind_eq_some_iff.mp hr
    exact ih (exec_ok h hbal.1 hbal.2.1 hq) (hbal.2.2 q hq) hr

/-- **The cache follows the handles**: at most one block for an offset, a block while a handle is out, the number of occupied slots,
and nothing once all handles are destroyed. -/
theorem run_cached (hbal : BalancedRun BlockCache.empty (fun _ => 0) calls) (hr : run BlockCache.empty (fun _ => 0) calls = some r) :
    (r.1.blocks.map OpenBlock.offset).Nodup ∧ (∀ o, o ∈ r.1.blocks.map OpenBlock.offset ↔ 0 < r.2 o) ∧
      r.1.openBlockCount = (r.1.openBlocks.filter Option.isSome).length ∧ ((∀ o, r.2 o = 0) → r.1.blocks = []) := by
  have h := run_ok CacheOk.empty hbal hr
  refine ⟨h.nodup, h.cached, ?_, fun h0 => ?_⟩
  · rw [h.count, blocks, reduceOption_length_eq]
  · exact eq_nil_iff_forall_not_mem.mpr fun b hb => ((h.cached b.offset).mp (mem_map_of_mem hb)).ne' (h0 b.offset)

/-- Two handles to a block that is in the file. -/
theorem run_cached_twice : ∃ r, run BlockCache.empty (fun _ => 0) [readBlock 5000 none (some .data), readBlock 5000 none none] = some r ∧
    (∀ o, o ∈ r.1.blocks.map OpenBlock.offset ↔ 0 < r.2 o) := by
  have hbal : BalancedRun BlockCache.empty (fun _ => 0) [readBlock 5000 none (some .data), readBlock 5000 none none] := by
    refine ⟨trivial, ⟨by decide, by decide⟩, fun r hr => ?_⟩
    obtain rfl := Option.some.inj hr
    exact ⟨trivial, ⟨by decide, by decide⟩, fun _ _ => trivial⟩
  exact ⟨_, rfl, (run_cached hbal rfl).2.1⟩

/-- A block whose type was asked for stays behind when its handle is destroyed. -/
theorem blockTypeAt_leaks : (run BlockCache.empty (fun _ => 0) [readBlock 5000 none (some .data), blockTypeAt 5000,
    destroyBlock 5000]).map (fun r => (r.1.blocks.map OpenBlock.offset, r.2 5000)) = some ([5000], 0) := by
  decide

end CacheCall

end KVStores.Gdb
