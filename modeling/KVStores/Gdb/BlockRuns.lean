import KVStores.Gdb.Create

/-!
# Runs of block writes

* `gdbWriteBlock_run`: in any sequence of calls for which the database has room, each call
  returns, no block moves, and **every live block is read as it was last written**.
-/

namespace KVStores.Gdb

open List Option Function

abbrev Contents := Offset → Option BlockContent

/-- A call of `gdbWriteBlock`: on a new block, or on a live one that has been read and changed. -/
inductive BlockCall
  | create (content : BlockContent)
  | rewrite (offset : Offset) (flags : UInt16) (listNext : UInt32) (payload : List UInt8)

@[grind =] def BlockCall.payload : BlockCall → List UInt8
  | create content => content.payload
  | rewrite _ _ _ payload => payload

/-- The call on the file, and what is recorded of it. `none` when the code does not return,
when a new block is given the offset of a live one, and when a block moves. A rewrite of a
block that is not live does not take place. -/
def BlockCall.run : BlockCall → ByteFile × Contents → Option (ByteFile × Contents)
  | create content, (f, w) => do
    let (b, f) ← gdbWriteBlock f { content with chain := [] }
    if w b.offset ≠ none then none
    else return (f, Function.update w b.offset (some content))
  | rewrite offset flags listNext payload, (f, w) =>
    match w offset with
    | none => some (f, w)
    | some content => do
      let b ← gdbReadBlock f offset (some content.type)
      let (b, f) ← gdbWriteBlock f { b with flags, listNext, payload }
      if b.offset ≠ offset then none
      else return (f, Function.update w offset (some { content with flags, listNext, payload }))

@[grind =] def runBlockCalls : List BlockCall → ByteFile × Contents → Option (ByteFile × Contents)
  | [], s => some s
  | call :: calls, s => (call.run s).bind (runBlockCalls calls)

def BlockCall.safe : BlockCall → ByteFile × Contents → Prop
  | create content, (f, _) => writeSafe f content.type 0 content.payload
  | rewrite offset _ _ payload, (f, w) =>
    match w offset with
    | none => True
    | some old => writeSafe f old.type (gdbGetNeededBlockCount old.payload.length old.type.multiple) payload

instance (call : BlockCall) (s : ByteFile × Contents) : Decidable (call.safe s) := by
  obtain ⟨f, w⟩ := s
  cases call with
  | create content => exact inferInstanceAs (Decidable (writeSafe f content.type 0 content.payload))
  | rewrite offset _ _ payload =>
    unfold BlockCall.safe
    dsimp only
    exact match w offset with
      | none => inferInstanceAs (Decidable True)
      | some old => inferInstanceAs (Decidable (writeSafe f old.type _ payload))

@[grind =] def runBlockSafe : List BlockCall → ByteFile × Contents → Bool
  | [], _ => true
  | call :: calls, s => decide (call.safe s) && ((call.run s).map (runBlockSafe calls)).getD true

/-- A database file whose live blocks were last written as `w` says. -/
def Valid (f : ByteFile) (w : Contents) : Prop :=
  ∃ free live, Database f free live ∧ ∀ o c, w o = some c ↔ ∃ b ∈ live, b.offset = o ∧ b.toBlockContent = c

/-- Every live block is read from the file as it was last written, and the chains of the live
blocks are disjoint. -/
structure ReadsBack (f : ByteFile) (w : Contents) : Prop where
  read : ∀ o c, w o = some c → ∃ b, gdbReadBlock f o none = some b ∧ b.toBlockContent = c
  disjoint : ∀ o₁ o₂ b₁ b₂, w o₁ ≠ none → w o₂ ≠ none → o₁ ≠ o₂ → gdbReadBlock f o₁ none = some b₁ →
    gdbReadBlock f o₂ none = some b₂ → ∀ e₁ ∈ b₁.extents, ∀ e₂ ∈ b₂.extents, e₁.Disjoint e₂

variable {b : GdbBlock}

theorem GdbBlock.Ok.chain_eq (h : b.Ok) : ∃ rest, b.chain = b.offset :: rest := by
  obtain ⟨k, hk, -, -⟩ := neededBlockCount_spec b.type (length_pos_iff.2 h.payload) h.size
  have hcount := h.count
  rw [show b.multiple = b.type.multiple from rfl, hk] at hcount
  obtain ⟨o, rest, hc⟩ := exists_cons_of_length_eq_add_one hcount
  exact ⟨rest, by rw [GdbBlock.offset, hc]; rfl⟩

theorem GdbBlock.Ok.first_mem (h : b.Ok) : (b.offset, b.multiple) ∈ b.extents := by
  obtain ⟨rest, hrest⟩ := h.chain_eq
  exact List.mem_map.2 ⟨b.offset, by rw [hrest]; exact mem_cons_self, rfl⟩

variable {f : ByteFile}

theorem Database.split {free : List GdbFreeBlock} {live : List GdbBlock} (h : Database f free live)
    (hb : b ∈ live) : ∃ others, live.Perm (b :: others) ∧ ∀ c ∈ others, ∀ e₁ ∈ b.extents, ∀ e₂ ∈ c.extents, e₁.Disjoint e₂ := by
  obtain ⟨l₁, l₂, hl⟩ := append_of_mem hb
  have hperm : live.Perm (b :: (l₁ ++ l₂)) := by rw [hl]; exact perm_middle
  refine ⟨l₁ ++ l₂, hperm, fun c hc e₁ h₁ e₂ h₂ => ?_⟩
  have ha := (h.perm hperm).apart
  rw [flatMap_cons, append_assoc] at ha
  exact ha.disjoint_of_append h₁ (mem_append_left _ (mem_flatMap.2 ⟨c, hc, h₂⟩))

theorem offset_ne {c : GdbBlock} (hb : b.Ok) (hc : c.Ok) (h : ∀ e₁ ∈ b.extents, ∀ e₂ ∈ c.extents, e₁.Disjoint e₂) :
    c.offset ≠ b.offset := by
  intro heq
  have hb' : 32 ≤ b.multiple := b.type.multiple_bounds.1
  have hc' : 32 ≤ c.multiple := c.type.multiple_bounds.1
  have hdisj := h _ hb.first_mem _ hc.first_mem
  rw [heq] at hdisj
  rcases hdisj with hdisj | hdisj <;> dsimp only at hdisj <;> omega

variable {w : Contents}

theorem update_live {others : List GdbBlock}
    (hw : ∀ o, o ≠ b.offset → ∀ c, w o = some c ↔ ∃ d ∈ others, d.offset = o ∧ d.toBlockContent = c)
    (hne : ∀ d ∈ others, d.offset ≠ b.offset) (o : Offset) (c : BlockContent) :
    Function.update w b.offset (some b.toBlockContent) o = some c ↔ ∃ d ∈ b :: others, d.offset = o ∧ d.toBlockContent = c := by
  by_cases ho : o = b.offset
  · subst ho
    rw [update_self, Option.some.injEq]
    constructor
    · exact fun h => ⟨b, mem_cons_self, rfl, h⟩
    · rintro ⟨d, hd, hoff, hc⟩
      rcases mem_cons.1 hd with rfl | hd
      · exact hc
      · exact absurd hoff (hne d hd)
  · rw [update_of_ne ho, hw o ho]
    constructor
    · rintro ⟨d, hd, h⟩
      exact ⟨d, mem_cons_of_mem _ hd, h⟩
    · rintro ⟨d, hd, hoff, hc⟩
      rcases mem_cons.1 hd with rfl | hd
      · exact absurd hoff.symm ho
      · exact ⟨d, hd, hoff, hc⟩

/-- **What a database holds can be read.** -/
theorem Valid.readsBack (h : Valid f w) : ReadsBack f w := by
  obtain ⟨free, live, hdb, hw⟩ := h
  have hread : ∀ b ∈ live, gdbReadBlock f b.offset none = some b := fun b hb =>
    gdbReadBlock_spec (hdb.ok b hb) (hdb.holds b hb) (Or.inl rfl)
  refine ⟨fun o c hc => ?_, fun o₁ o₂ b₁ b₂ h₁ h₂ hne hr₁ hr₂ e₁ he₁ e₂ he₂ => ?_⟩
  · obtain ⟨b, hb, rfl, hcontent⟩ := (hw o c).1 hc
    exact ⟨b, hread b hb, hcontent⟩
  · obtain ⟨c₁, hc₁⟩ := ne_none_iff_exists'.1 h₁
    obtain ⟨c₂, hc₂⟩ := ne_none_iff_exists'.1 h₂
    obtain ⟨d₁, hd₁, rfl, -⟩ := (hw o₁ c₁).1 hc₁
    obtain ⟨d₂, hd₂, rfl, -⟩ := (hw o₂ c₂).1 hc₂
    have hb₁ : d₁ = b₁ := Option.some.inj ((hread d₁ hd₁).symm.trans hr₁)
    have hb₂ : d₂ = b₂ := Option.some.inj ((hread d₂ hd₂).symm.trans hr₂)
    subst hb₁ hb₂
    obtain ⟨others, hperm, hdisj⟩ := hdb.split hd₁
    rcases mem_cons.1 (hperm.mem_iff.1 hd₂) with heq | hmem
    · exact absurd (by rw [heq]) hne
    · exact hdisj d₂ hmem e₁ he₁ e₂ he₂

/-- **One call.** -/
theorem BlockCall.run_valid (h : Valid f w) (call : BlockCall) (hpay : call.payload ≠ [])
    (hsafe : call.safe (f, w)) : ∃ s, call.run (f, w) = some s ∧ Valid s.1 s.2 := by
  obtain ⟨free, live, hdb, hw⟩ := h
  cases call with
  | create content =>
    obtain ⟨b, f', free', lost, fresh, heq, hout, hdb'⟩ := hdb.create content hpay hsafe
    have hcontent : b.toBlockContent = content := hout.content
    have hfresh : ∀ d ∈ live, d.offset ≠ b.offset := by
      intro d hd
      have ha := hdb'.apart
      rw [flatMap_cons, append_assoc] at ha
      exact offset_ne hout.ok (hdb.ok d hd) fun e₁ h₁ e₂ h₂ =>
        ha.disjoint_of_append h₁ (mem_append_left _ (mem_flatMap.2 ⟨d, hd, h₂⟩))
    have hnone : w b.offset = none := by
      cases hc : w b.offset with
      | none => rfl
      | some c =>
        obtain ⟨d, hd, hoff, -⟩ := (hw _ _).1 hc
        exact absurd hoff (hfresh d hd)
    simp only [BlockCall.run, heq, bind_eq_bind, bind_some]
    rw [if_neg (fun hne => hne hnone)]
    refine ⟨_, rfl, free', b :: live, hdb', ?_⟩
    rw [← hcontent]
    exact update_live (fun o _ c => hw o c) hfresh
  | rewrite offset flags listNext payload =>
    cases hc : w offset with
    | none =>
      simp only [BlockCall.run, hc]
      exact ⟨_, rfl, free, live, hdb, hw⟩
    | some content =>
      obtain ⟨b, hb, rfl, rfl⟩ := (hw _ _).1 hc
      obtain ⟨others, hperm, hdisj⟩ := hdb.split hb
      have hmem : ∀ d ∈ others, d ∈ live := fun d hd => hperm.mem_iff.2 (mem_cons_of_mem _ hd)
      have hapart := (hdb.perm hperm).apart
      simp only [BlockCall.safe, hc] at hsafe
      obtain ⟨b', f', free', lost, fresh, heq, hout, hdb'⟩ := Database.write (b := { b with flags, listNext, payload }) hdb.list
        hapart (fun d hd => hdb.ok d (hmem d hd)) (fun d hd => hdb.holds d (hmem d hd)) hpay
        (by rw [show GdbBlock.chain { b with flags, listNext, payload } = b.chain from rfl, (hdb.ok b hb).count]; exact hsafe)
      have hoff : b'.offset = b.offset := hout.offset (by
        obtain ⟨rest, hrest⟩ := (hdb.ok b hb).chain_eq
        rw [show GdbBlock.chain { b with flags, listNext, payload } = b.chain from rfl, hrest]
        exact cons_ne_nil _ _)
      have hne : ∀ d ∈ others, d.offset ≠ b'.offset := fun d hd => by
        rw [hoff]
        exact offset_ne (hdb.ok b hb) (hdb.ok d (hmem d hd)) (hdisj d hd)
      simp only [BlockCall.run, hc, bind_eq_bind, gdbReadBlock_spec (hdb.ok b hb) (hdb.holds b hb) (Or.inr rfl), bind_some, heq]
      rw [if_neg (fun hbad => hbad hoff)]
      refine ⟨_, rfl, free', b' :: others, hdb', ?_⟩
      rw [← hoff, ← show b'.toBlockContent = { b.toBlockContent with flags, listNext, payload } from hout.content]
      refine update_live (fun o ho c => ?_) hne
      rw [hw o c]
      constructor
      · rintro ⟨d, hd, hdo, hdc⟩
        rcases mem_cons.1 (hperm.mem_iff.1 hd) with rfl | hd
        · exact absurd (hdo.symm.trans hoff.symm) ho
        · exact ⟨d, hd, hdo, hdc⟩
      · rintro ⟨d, hd, hdo⟩
        exact ⟨d, hmem d hd, hdo⟩

theorem gdbWriteBlock_run : ∀ (calls : List BlockCall) {f : ByteFile} {w : Contents}, Valid f w →
    (∀ call ∈ calls, call.payload ≠ []) → runBlockSafe calls (f, w) → ∃ s, runBlockCalls calls (f, w) = some s ∧ ReadsBack s.1 s.2 := by
  intro calls
  induction calls with
  | nil => exact fun h _ _ => ⟨_, rfl, h.readsBack⟩
  | cons call calls ih =>
    intro f w h hpay hsafe
    rw [runBlockSafe, Bool.and_eq_true, decide_eq_true_eq] at hsafe
    obtain ⟨s, hrun, hs⟩ := call.run_valid h (hpay call mem_cons_self) hsafe.1
    have hrest := hsafe.2
    rw [hrun, map_some, getD_some] at hrest
    obtain ⟨t, ht, hread⟩ := ih hs (fun c hc => hpay c (mem_cons_of_mem _ hc)) hrest
    exact ⟨t, by rw [runBlockCalls, hrun, bind_some]; exact ht, hread⟩

def mainContents : Contents := Function.update (fun _ => none) mainHeaderBlock.offset (some mainHeaderBlock.toBlockContent)

theorem createdFile_valid (type : GdbType) : Valid (createdFile type) mainContents :=
  ⟨[], [mainHeaderBlock], (gdbCreate_database type).2.2, update_live (by simp) (by simp)⟩

theorem gdbWriteBlock_run_two : ∃ s, runBlockCalls [.create ⟨.data, 3, 0, List.replicate 120 7⟩, .rewrite 2096 4 2064 [1, 2]]
      (createdFile .indexFile, mainContents) = some s ∧ ReadsBack s.1 s.2 :=
  gdbWriteBlock_run _ (createdFile_valid .indexFile) (by decide) (by decide +kernel)

def longData : BlockContent := ⟨.data, 0, 0, List.replicate 20509 7⟩

theorem longData_length : longData.payload.length = 20509 := length_replicate

def longInner : List Offset := (List.range 340).map fun i => 2096 + (i + 1) * 64

def longThenShort : List BlockCall := [.create longData, .rewrite 2096 0 0 [1]]

/-- **Where it fails**: in a new database the list of the freed pieces reaches into the header
block of the main tree, which cannot be read any more. -/
theorem gdbWriteBlock_fails : Valid (createdFile .indexFile) mainContents ∧ (∀ call ∈ longThenShort, call.payload ≠ []) ∧
      ¬∃ s, runBlockCalls longThenShort (createdFile .indexFile, mainContents) = some s ∧ ReadsBack s.1 s.2 := by
  have hne : longData.payload ≠ [] := ne_nil_of_length_pos (by rw [longData_length]; decide)
  refine ⟨createdFile_valid _, ?_, ?_⟩
  · intro call hcall
    simp only [longThenShort, mem_cons, not_mem_nil, or_false] at hcall
    rcases hcall with rfl | rfl
    · exact hne
    · exact cons_ne_nil _ _
  · rintro ⟨s, hrun, hback⟩
    obtain ⟨-, hsize, hdb⟩ := gdbCreate_database .indexFile
    set f := createdFile .indexFile
    have hneed : gdbGetNeededBlockCount longData.payload.length longData.type.multiple = 342 := by
      rw [longData_length]; decide +kernel
    -- the long block
    have hsafe : writeSafe f longData.type 0 longData.payload := by
      unfold writeSafe
      rw [hdb.list.list, hneed, hsize, longData_length]
      decide
    obtain ⟨b, f₁, free, lost, fresh, heq, hout, hdb₁⟩ := hdb.create longData hne hsafe
    have hfree : free = [] := sublist_nil.1 (hout.sublist (Nat.zero_le _))
    subst hfree
    obtain ⟨f', hnew⟩ := gdbWriteBlock_new hdb.list longData hneed (by decide) (by decide)
    obtain ⟨rfl, rfl⟩ := Prod.mk.inj (Option.some.inj (hnew.symm.trans heq))
    have hchain : newOffsets f longData.type.multiple 342 = 2096 :: (longInner ++ [23920]) := by
      rw [newOffsets, hsize, range_succ_eq_map, map_cons, List.map_map, range_succ, map_append]
      rfl
    rw [hchain] at heq hout hdb₁
    have hread : gdbReadBlock f' 2096 (some longData.type) = some ⟨longData, _⟩ :=
      gdbReadBlock_spec hout.ok hout.holds (Or.inr rfl)
    have hfirst : (BlockCall.create longData).run (f, mainContents) = some (f', Function.update mainContents 2096 (some longData)) := by
      simp only [BlockCall.run, heq, bind_eq_bind, bind_some]
      exact (if_neg (show ¬mainContents 2096 ≠ none by decide)).trans rfl
    -- the short one
    obtain ⟨-, hlist₂, -, -⟩ := write_pieces (b := ⟨⟨.data, 0, 0, [1]⟩, [2096]⟩) hdb₁.list (cons_ne_nil _ _)
      (hdb₁.apart.sublist (by
        exact cons_sublist_cons.2 (nil_sublist _)))
    generalize hf₂ : f'.writeAll (blockBuffers ⟨⟨.data, 0, 0, [1]⟩, [2096]⟩) = f₂ at hlist₂
    have hlen : longInner.length = 340 := by rw [longInner, length_map, length_range]
    have hfreed : gdbFreeBlockChain f₂ (longInner ++ [23920]) 341 .data =
        some (gdbWriteFreeBlockList f₂ (longInner.map (fun o => ⟨64, o⟩) ++ [⟨64, 23920⟩])) := by
      rw [gdbFreeBlockChain_nil hlist₂.list _ (by decide) (by decide), take_of_length_le (by rw [length_append, hlen]; decide), map_append]
      rfl
    have hwrite : gdbWriteBlock f' ⟨⟨.data, 0, 0, [1]⟩, 2096 :: (longInner ++ [23920])⟩ = some (⟨⟨.data, 0, 0, [1]⟩, [2096]⟩,
        gdbWriteFreeBlockList f₂ (longInner.map (fun o => ⟨64, o⟩) ++ [⟨64, 23920⟩])) := by
      rw [gdbWriteBlock_cut (show _ = 1 by decide) (by simp) (by simp)]
      dsimp only [take_succ_cons, take_zero]
      rw [hf₂, drop_one, tail_cons, length_cons, length_append, hlen, length_singleton, hfreed]
      rfl
    have hsecond : (BlockCall.rewrite 2096 0 0 [1]).run (f', Function.update mainContents 2096 (some longData)) =
        some (gdbWriteFreeBlockList f₂ (longInner.map (fun o => ⟨64, o⟩) ++ [⟨64, 23920⟩]),
          Function.update (Function.update mainContents 2096 (some longData)) 2096 (some ⟨.data, 0, 0, [1]⟩)) := by
      have hlive : Function.update mainContents 2096 (some longData) 2096 = some longData := update_self _ _ _
      simp only [BlockCall.run, hlive, hread, bind_eq_bind, bind_some]
      rw [show gdbWriteBlock f' ⟨⟨longData.type, 0, 0, [1]⟩, 2096 :: (longInner ++ [23920])⟩ = _ from hwrite]
      rfl
    rw [longThenShort, runBlockCalls, hfirst, bind_some, runBlockCalls, hsecond, bind_some, runBlockCalls, Option.some.injEq] at hrun
    subst hrun
    -- the header block of the main tree has type 93 now
    obtain ⟨b, hb, -⟩ := hback.read dbMainTreeOffset mainHeaderBlock.toBlockContent (by
      dsimp only
      rfl)
    have hbyte := @byte_mainTree f₂ (longInner.map fun o => ⟨64, o⟩) (by rw [length_map, hlen]) ⟨64, 23920⟩
    rw [gdbReadBlock_badType (by rw [hbyte]; decide)] at hb
    cases hb

end KVStores.Gdb
