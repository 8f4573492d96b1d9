import KVStores.Gdb.Blocks

/-!
# Writing blocks

`Database f free live`: the file `f` has the free list `free`, and the blocks `live` are in it,
apart from each other and from the free ones.

* `gdbWriteBlock_spec`: **one call of `gdbWriteBlock`**: the block is in the file, its first
  piece stays where it is, no other block is touched, and the pieces of the file are conserved:
  what the block gives up is free, what it takes was free or is new.
-/

namespace KVStores.Gdb

open List Option

theorem ListOk.congr {f g : ByteFile} {free : List GdbFreeBlock} (h : ListOk f free) (hsize : f.size ≤ g.size)
    (hbyte : ∀ p < dbMainTreeOffset, g.byte p = f.byte p) : ListOk g free where
  list := by
    have hend := freeListEnd_le h.room
    have hf := h.size
    exact gdbGetFreeBlockList_congr h.list (by omega) (by omega) fun p _ hp => hbyte p (by omega)
  room := h.room
  size := le_trans h.size hsize
  fits := h.fits

variable {b : GdbBlock}

theorem OnDisk.congr {f g : ByteFile} (h : OnDisk f b) (hc : b.chain ≠ []) (hsize : f.size ≤ g.size)
    (hbyte : ∀ e ∈ b.extents, ∀ p, e.1 ≤ p → p < e.1 + e.2 → g.byte p = f.byte p) : OnDisk g b := by
  intro e he
  have hext : e.extent ∈ b.extents := by
    rw [← map_blockBuffers hc]
    exact List.mem_map_of_mem he
  have hm := b.type.multiple_bounds
  have hlen : 0 < e.2.length := by
    obtain ⟨o, -, ho⟩ := List.mem_map.1 hext
    have : e.2.length = b.multiple := (congrArg Prod.snd ho).symm
    rw [this]
    exact lt_of_lt_of_le (by decide) hm.1
  have hin := in_file (h e he) (length_pos_iff.1 hlen)
  rw [ByteFile.read_congr hin (le_trans hin hsize) fun p h1 h2 => hbyte _ hext p h1 h2]
  exact h e he

/-- Whether the database has room for the call: a block of `old` pieces gets `payload`. -/
def writeSafe (f : ByteFile) (type : BlockType) (old : ℕ) (payload : List UInt8) : Prop :=
  let free := (gdbGetFreeBlockList f).getD []
  let new := gdbGetNeededBlockCount payload.length type.multiple
  payload.length < 2147483648 ∧ new - old < 65536 ∧
    f.size + (new - old - freeOfSize free type.multiple) * type.multiple < 2147483648 ∧
    (new < old → free.length + (old - new) % 65536 ≤ 340)

instance (f : ByteFile) (type : BlockType) (old : ℕ) (payload : List UInt8) : Decidable (writeSafe f type old payload) := by
  unfold writeSafe; infer_instance

/-- The pieces of `chain`. -/
def chainExtents (t : BlockType) (chain : List Offset) : List Extent := chain.map fun o => (o, t.multiple)

theorem chainExtents_append (t : BlockType) (c d : List Offset) :
    chainExtents t (c ++ d) = chainExtents t c ++ chainExtents t d := map_append

theorem GdbBlock.extents_eq (b : GdbBlock) : b.extents = chainExtents b.type b.chain := rfl

variable {count : ℕ}

theorem chainFor_spec {f : ByteFile} {free : List GdbFreeBlock} (h : ListOk f free) (b : GdbBlock)
    (hcount : count - b.chain.length < 65536) :
    ∃ chain f' free', chainFor f b count = some (chain, f') ∧ ListOk f' free' ∧ chain.length = count ∧
      f'.size = f.size + (count - b.chain.length - freeOfSize free b.multiple) * b.multiple ∧
      (chainExtents b.type chain ++ chainExtents b.type (b.chain.drop count) ++ free'.map GdbFreeBlock.extent).Perm
        (b.extents ++ (free.map GdbFreeBlock.extent ++ steps f.size b.multiple (count - b.chain.length - freeOfSize free b.multiple))) ∧
      (∀ p, dbMainTreeOffset ≤ p → p < f.size → f'.byte p = f.byte p) ∧ free'.Sublist free ∧
      (count < b.chain.length → f' = f ∧ free' = free) ∧ (count ≠ 0 → b.chain ≠ [] → chain.headD 0 = b.offset) := by
  unfold chainFor
  by_cases hlt : count ≤ b.chain.length
  · rw [if_pos hlt, show count - b.chain.length - freeOfSize free b.multiple = 0 by omega]
    refine ⟨_, f, free, rfl, h, by rw [length_take]; omega, by omega, ?_, fun _ _ _ => rfl, List.Sublist.refl _,
      fun _ => ⟨rfl, rfl⟩, fun h0 hc => ?_⟩
    · rw [← chainExtents_append, take_append_drop, steps_zero, append_nil, GdbBlock.extents_eq]
    · obtain ⟨o, chain, hc⟩ := exists_cons_of_ne_nil hc
      obtain ⟨n, rfl⟩ := Nat.exists_eq_succ_of_ne_zero h0
      rw [GdbBlock.offset, hc]
      rfl
  · rw [if_neg hlt]
    obtain ⟨new, f', free', heq, hr⟩ := gdbReserveBlockChain_spec h b.type (show count - b.chain.length ≠ 0 by omega) hcount
    rw [heq, map_some]
    refine ⟨_, f', free', rfl, hr.ok, by rw [length_append, hr.length]; omega, hr.size, ?_, hr.same, hr.sublist, by omega, fun _ hc => ?_⟩
    · rw [drop_eq_nil_of_le (by omega), chainExtents_append, show chainExtents b.type [] = [] from rfl, append_nil, append_assoc]
      exact List.Perm.append_left _ hr.perm
    · obtain ⟨o, chain, hc⟩ := exists_cons_of_ne_nil hc
      rw [GdbBlock.offset, hc]
      rfl

/-- What a call of `gdbWriteBlock` does: from the block `b` with its new payload and its old
chain to `b'`. `lost` are pieces that are given up without being freed. -/
structure WriteOutcome (f f' : ByteFile) (free free' : List GdbFreeBlock) (b b' : GdbBlock) (lost : List Extent) (fresh : ℕ) :
    Prop where
  content : b'.toBlockContent = b.toBlockContent
  list : ListOk f' free'
  ok : b'.Ok
  holds : OnDisk f' b'
  offset : b.chain ≠ [] → b'.offset = b.offset
  size : f'.size = f.size + fresh * b.multiple
  small : f'.size < 2147483648
  perm : (b'.extents ++ lost ++ free'.map GdbFreeBlock.extent).Perm
    (b.extents ++ (free.map GdbFreeBlock.extent ++ steps f.size b.multiple fresh))
  same : ∀ p, dbMainTreeOffset ≤ p → p < f.size → (∀ e ∈ b'.extents, p < e.1 ∨ e.1 + e.2 ≤ p) → f'.byte p = f.byte p
  sublist : b.chain.length ≤ b'.chain.length → free'.Sublist free
  lost_nil : b.chain.length - b'.chain.length < 65536 → lost = []

theorem apart_grow {f : ByteFile} {free : List GdbFreeBlock} {fresh : ℕ}
    (h : Apart (b.extents ++ free.map GdbFreeBlock.extent) dbMainTreeOffset f.size) (hsize : dbMainTreeOffset ≤ f.size) :
    Apart (b.extents ++ (free.map GdbFreeBlock.extent ++ steps f.size b.multiple fresh)) dbMainTreeOffset
      (f.size + fresh * b.multiple) := by
  have hm := b.type.multiple_bounds
  rw [← append_assoc]
  exact h.append (apart_steps (lt_of_lt_of_le (by decide) hm.1) fresh) hsize (Nat.le_add_right _ _)

theorem nodup_of_apart {t : BlockType} {chain : List Offset} {lo hi : ℕ} (h : Apart (chainExtents t chain) lo hi) : chain.Nodup := by
  have hm := t.multiple_bounds
  refine (pairwise_map.1 h.disjoint).imp fun {a b} hab heq => ?_
  subst heq
  rcases hab with hab | hab <;> dsimp only at hab <;> omega

theorem write_pieces {f : ByteFile} {free : List GdbFreeBlock} (h : ListOk f free) (hc : b.chain ≠ [])
    (ha : Apart b.extents dbMainTreeOffset f.size) :
    (f.writeAll (blockBuffers b)).size = f.size ∧ ListOk (f.writeAll (blockBuffers b)) free ∧ OnDisk (f.writeAll (blockBuffers b)) b ∧
      ∀ p < f.size, (∀ e ∈ b.extents, p < e.1 ∨ e.1 + e.2 ≤ p) → (f.writeAll (blockBuffers b)).byte p = f.byte p := by
  have hmap := map_blockBuffers hc
  have hext : ∀ e ∈ blockBuffers b, e.extent ∈ b.extents := fun e he => by rw [← hmap]; exact List.mem_map_of_mem he
  have hin : ∀ e ∈ blockBuffers b, e.1 + e.2.length ≤ f.size := fun e he => (ha.within _ (hext e he)).2.1
  have hbyte : ∀ p < f.size, (∀ e ∈ b.extents, p < e.1 ∨ e.1 + e.2 ≤ p) → (f.writeAll (blockBuffers b)).byte p = f.byte p :=
    fun p hp hout => ByteFile.byte_writeAll hp fun e he => hout _ (hext e he)
  have hsize := ByteFile.size_writeAll hin
  refine ⟨hsize, h.congr (le_of_eq hsize.symm) fun p hp => hbyte p (lt_of_lt_of_le hp h.size) fun e he => ?_, ?_, hbyte⟩
  · exact Or.inl (lt_of_lt_of_le hp (ha.within e he).1)
  · exact ByteFile.read_writeAll (by rw [hmap]; exact ha.disjoint) hin

theorem gdbWriteBlock_cut {f : ByteFile}
    (hcount : gdbGetNeededBlockCount b.payload.length b.multiple = count) (hlt : count < b.chain.length)
    (hhead : (b.chain.take count).headD 0 ≠ 0) : gdbWriteBlock f b =
      (gdbFreeBlockChain (f.writeAll (blockBuffers { b with chain := b.chain.take count })) (b.chain.drop count)
        (b.chain.length - count) b.type).map fun f' => ({ b with chain := b.chain.take count }, f') := by
  have hlen : (b.chain.take count).length = count := by rw [length_take]; omega
  unfold gdbWriteBlock chainFor
  simp only [hcount, if_pos (le_of_lt hlt), bind_eq_bind, bind_some]
  rw [if_neg (by rw [hlen]; exact fun h => h.elim (fun h => h rfl) hhead), if_pos hlt, map_eq_bind]
  rfl

theorem gdbWriteBlock_spec {f : ByteFile} {free : List GdbFreeBlock} (h : ListOk f free) (b : GdbBlock) (hpay : b.payload ≠ [])
    (hapart : Apart (b.extents ++ free.map GdbFreeBlock.extent) dbMainTreeOffset f.size)
    (hsafe : writeSafe f b.type b.chain.length b.payload) :
    ∃ b' f' free' lost fresh, gdbWriteBlock f b = some (b', f') ∧ WriteOutcome f f' free free' b b' lost fresh := by
  unfold writeSafe at hsafe
  rw [h.list] at hsafe
  obtain ⟨hlen, hgrow, hsmall, hshrink⟩ := hsafe
  rw [show b.type.multiple = b.multiple from rfl] at hgrow hsmall hshrink
  obtain ⟨k, hk, -, -⟩ := neededBlockCount_spec b.type (length_pos_iff.2 hpay) hlen
  rw [show b.type.multiple = b.multiple from rfl] at hk
  obtain ⟨chain, f₁, free₁, heq, hlist₁, hchain, hsize₁, hperm₁, hsame₁, hsub₁, hcut, hhead⟩ := chainFor_spec h b hgrow
  have ha := (apart_grow hapart h.size).perm hperm₁.symm
  rw [← hsize₁] at ha
  have hne : chain ≠ [] := ne_nil_of_length_pos (by omega)
  have ha₁ : Apart (chainExtents b.type chain) dbMainTreeOffset f₁.size :=
    ha.sublist ((sublist_append_left _ _).trans (sublist_append_left _ _))
  have hsmall₁ : f₁.size < 2147483648 := by rw [hsize₁]; exact hsmall
  have hfits : ∀ {c : List Offset}, (∀ o ∈ c, (o, b.type.multiple) ∈ chainExtents b.type chain ++
      chainExtents b.type (b.chain.drop (gdbGetNeededBlockCount b.payload.length b.multiple)) ++
      free₁.map GdbFreeBlock.extent) → ∀ o ∈ c, dbMainTreeOffset ≤ o ∧ o < 4294967296 := fun hc o ho => by
    have hend : o + b.type.multiple ≤ f₁.size := (ha.within _ (hc o ho)).2.1
    exact ⟨(ha.within _ (hc o ho)).1, lt_of_le_of_lt (le_trans (Nat.le_add_right _ _) hend) (lt_trans hsmall₁ (by decide))⟩
  -- the block is written
  obtain ⟨hsize₂, hlist₂, hholds₂, hbyte₂⟩ := write_pieces (b := { b with chain }) hlist₁ hne ha₁
  have hok : GdbBlock.Ok { b with chain } := {
    payload := hpay
    size := hlen
    count := hchain
    offset := hfits fun o ho => mem_append_left _ (mem_append_left _ (List.mem_map_of_mem ho))
    nodup := nodup_of_apart ha₁ }
  have hsame₂ : ∀ p, dbMainTreeOffset ≤ p → p < f.size → (∀ e ∈ GdbBlock.extents { b with chain }, p < e.1 ∨ e.1 + e.2 ≤ p) →
      (f₁.writeAll (blockBuffers { b with chain })).byte p = f.byte p := fun p h1 h2 h3 => by
    rw [hbyte₂ p (by omega) h3, hsame₁ p h1 h2]
  have hhead0 : ¬(chain.length ≠ gdbGetNeededBlockCount b.payload.length b.multiple ∨ chain.headD 0 = 0) := by
    rintro (hbad | hbad)
    · exact hbad hchain
    · obtain ⟨o, rest, rfl⟩ := exists_cons_of_ne_nil hne
      have := (hok.offset o mem_cons_self).1
      rw [show o = 0 from hbad] at this
      exact absurd this (by decide)
  unfold gdbWriteBlock
  dsimp only
  rw [heq, bind_eq_bind, bind_some]
  rw [if_neg hhead0]
  by_cases hshort : gdbGetNeededBlockCount b.payload.length b.multiple < b.chain.length
  · -- the rest of the chain is freed
    obtain ⟨hf, hfree⟩ := hcut hshort
    have hroom := hshrink hshort
    obtain ⟨f₃, free₃, hfreed, hlist₃, hsize₃, hperm₃, hsame₃⟩ :=
      gdbFreeBlockChain_spec hlist₂ (b.chain.drop (gdbGetNeededBlockCount b.payload.length b.multiple))
        (b.chain.length - gdbGetNeededBlockCount b.payload.length b.multiple) b.type
        (fun o ho => (hfits (fun o ho => mem_append_left _ (mem_append_right _ (List.mem_map_of_mem ho))) o ho).2)
        (by
          rw [length_take, hfree]
          exact le_trans (Nat.add_le_add_left (min_le_left _ _) _) hroom)
    rw [if_pos hshort, hfreed, bind_eq_bind, bind_some]
    refine ⟨_, f₃, free₃, chainExtents b.type ((b.chain.drop (gdbGetNeededBlockCount b.payload.length b.multiple)).drop
      ((b.chain.length - gdbGetNeededBlockCount b.payload.length b.multiple) % 65536)), _, rfl, rfl, hlist₃, hok, ?_,
      hhead (by omega), hsize₃.trans (hsize₂.trans hsize₁), by rw [hsize₃, hsize₂]; exact hsmall₁, ?_, ?_,
      fun hle => absurd hle (by rw [show GdbBlock.chain { b with chain } = chain from rfl, hchain]; omega), ?_⟩
    · refine hholds₂.congr hne (le_of_eq hsize₃.symm) fun e he p h1 h2 => hsame₃ p ?_ ?_
      · exact le_trans (ha₁.within e he).1 h1
      · rw [hsize₂]; exact lt_of_lt_of_le h2 (ha₁.within e he).2.1
    · refine List.Perm.trans ?_ hperm₁
      rw [GdbBlock.extents_eq, append_assoc, append_assoc]
      refine List.Perm.append_left _ ?_
      have hcutd := take_append_drop ((b.chain.length - gdbGetNeededBlockCount b.payload.length b.multiple) % 65536)
        (b.chain.drop (gdbGetNeededBlockCount b.payload.length b.multiple))
      nth_rewrite 2 [← hcutd]
      rw [chainExtents_append]
      refine (List.Perm.append_left _ hperm₃).trans ?_
      rw [← append_assoc]
      exact perm_append_comm.trans (List.Perm.of_eq (append_assoc _ _ _).symm)
    · intro p h1 h2 h3
      rw [hsame₃ p h1 (by omega), hsame₂ p h1 h2 h3]
    · intro hlt
      rw [show GdbBlock.chain { b with chain } = chain from rfl, hchain] at hlt
      rw [Nat.mod_eq_of_lt hlt, drop_drop, drop_eq_nil_of_le (by omega)]
      rfl
  · rw [if_neg hshort]
    refine ⟨_, _, free₁, [], _, rfl, rfl, hlist₂, hok, hholds₂, hhead (by omega), hsize₂.trans hsize₁,
      by rw [hsize₂]; exact hsmall₁, ?_, hsame₂, fun _ => hsub₁, fun _ => rfl⟩
    rw [append_nil]
    refine List.Perm.trans ?_ hperm₁
    rw [drop_eq_nil_of_le (by omega), show chainExtents b.type [] = [] from rfl, append_nil]
    exact List.Perm.refl _

/-- The file has this free list, and these blocks are in it, apart from each other and from
the free ones. -/
structure Database (f : ByteFile) (free : List GdbFreeBlock) (live : List GdbBlock) : Prop where
  list : ListOk f free
  apart : Apart (live.flatMap GdbBlock.extents ++ free.map GdbFreeBlock.extent) dbMainTreeOffset f.size
  ok : ∀ b ∈ live, b.Ok
  holds : ∀ b ∈ live, OnDisk f b

theorem Database.perm {f : ByteFile} {free : List GdbFreeBlock} {live live' : List GdbBlock} (h : Database f free live)
    (hp : live.Perm live') : Database f free live' where
  list := h.list
  apart := h.apart.perm ((hp.flatMap_right _).append_right _)
  ok b hb := h.ok b (hp.mem_iff.2 hb)
  holds b hb := h.holds b (hp.mem_iff.2 hb)

theorem Database.write {f : ByteFile} {free : List GdbFreeBlock} {others : List GdbBlock} (h : ListOk f free)
    (hapart : Apart (b.extents ++ others.flatMap GdbBlock.extents ++ free.map GdbFreeBlock.extent) dbMainTreeOffset f.size)
    (hok : ∀ c ∈ others, c.Ok) (hholds : ∀ c ∈ others, OnDisk f c) (hpay : b.payload ≠ [])
    (hsafe : writeSafe f b.type b.chain.length b.payload) :
    ∃ b' f' free' lost fresh, gdbWriteBlock f b = some (b', f') ∧ WriteOutcome f f' free free' b b' lost fresh ∧
      Database f' free' (b' :: others) := by
  have hm := b.type.multiple_bounds
  obtain ⟨b', f', free', lost, fresh, heq, hw⟩ := gdbWriteBlock_spec h b hpay
    (hapart.sublist (List.Sublist.append_right (sublist_append_left _ _) _)) hsafe
  -- the pieces of the whole file, before and after
  have htotal : Apart (b'.extents ++ (lost ++ (others.flatMap GdbBlock.extents ++ free'.map GdbFreeBlock.extent)))
      dbMainTreeOffset f'.size := by
    have hsteps : Apart (steps f.size b.multiple fresh) f.size (f.size + fresh * b.multiple) :=
      apart_steps (lt_of_lt_of_le (by decide) hm.1) fresh
    have hnew := hapart.append hsteps h.size (Nat.le_add_right _ _)
    rw [← hw.size] at hnew
    refine hnew.perm (List.Perm.trans ?_ ((hw.perm.symm.append_right (others.flatMap GdbBlock.extents)).trans ?_))
    · simp only [append_assoc]
      exact List.Perm.append_left _ (perm_append_comm.trans (List.Perm.of_eq (append_assoc _ _ _)))
    · simp only [append_assoc]
      exact List.Perm.append_left _ (List.Perm.append_left _ perm_append_comm)
  refine ⟨b', f', free', lost, fresh, heq, hw, hw.list, ?_, ?_, ?_⟩
  · rw [flatMap_cons, append_assoc]
    exact htotal.sublist (List.Sublist.append_left (sublist_append_right _ _) _)
  · intro c hc
    rcases mem_cons.1 hc with rfl | hc
    · exact hw.ok
    · exact hok c hc
  · intro c hc
    rcases mem_cons.1 hc with rfl | hc
    · exact hw.holds
    · have hne : c.chain ≠ [] := fun h0 => by
        obtain ⟨k, hk, -, -⟩ := neededBlockCount_spec c.type (length_pos_iff.2 (hok c hc).payload) (hok c hc).size
        have := (hok c hc).count
        rw [h0, show c.multiple = c.type.multiple from rfl, hk] at this
        cases this
      refine (hholds c hc).congr hne (by rw [hw.size]; exact Nat.le_add_right _ _) fun e he p h1 h2 => ?_
      have heo : e ∈ others.flatMap GdbBlock.extents := mem_flatMap.2 ⟨c, hc, he⟩
      have hin := hapart.within e (mem_append_left _ (mem_append_right _ heo))
      refine hw.same p (by omega) (by omega) fun d hd => ?_
      have hdisj := htotal.disjoint_of_append hd (mem_append_right _ (mem_append_left _ heo))
      rcases hdisj with hdisj | hdisj
      · exact Or.inr (by omega)
      · exact Or.inl (by omega)

/-- **A new block** joins the others. -/
theorem Database.create {f : ByteFile} {free : List GdbFreeBlock} {live : List GdbBlock} (h : Database f free live)
    (content : BlockContent) (hpay : content.payload ≠ []) (hsafe : writeSafe f content.type 0 content.payload) :
    ∃ b' f' free' lost fresh, gdbWriteBlock f { content with chain := [] } = some (b', f') ∧
      WriteOutcome f f' free free' { content with chain := [] } b' lost fresh ∧ Database f' free' (b' :: live) :=
  Database.write h.list (by simpa [GdbBlock.extents] using h.apart) h.ok h.holds hpay hsafe

end KVStores.Gdb
