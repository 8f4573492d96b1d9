import KVStores.Gdb.Shape
import Mathlib.Data.List.Dedup
import Mathlib.Data.List.Perm.Lattice

/-!
# Runs of insertions

A tree made by `btreeCreate` and filled by any calls of `btreeInsert`. The history of
the calls says what it should hold: `storedOffset` the offset a search should find,
`distinctKeys` the keys. `Tracks` relates the history to the entries of the tree; each
call keeps it (`Tracks.insert_absent`, `Tracks.insert_kept`, `Tracks.insert_replaced`).

`btreeInsert_run`: **after any calls the tree is a B+tree, searches find what the
history says, and its size is the number of distinct keys.**
-/

namespace KVStores.Gdb

open List

/-- A call of `btreeInsert`. -/
structure InsertCall where
  key : CStr
  filePos : Offset
  replaceDup : Bool

variable {σ : Type} (S : NodeStore σ) (tree : BTree) (mode : PmAccessMode)

@[grind =] def insertAll : List InsertCall → σ → Option σ
  | [], s => some s
  | c :: calls, s => do
    let (_, s) ← btreeInsert S tree mode s c.key c.filePos c.replaceDup
    insertAll calls s

/-- The offset a search for `key` should find after these calls: that of the last call
that replaces, or else of the first one, or 0 when there has been none. -/
def storedOffset (calls : List InsertCall) (key : CStr) : Offset :=
  let mine := calls.filter fun c => c.key = key
  match (mine.filter fun c => c.replaceDup).getLast? with
  | some c => c.filePos
  | none => (mine.head?.map InsertCall.filePos).getD 0

def distinctKeys (calls : List InsertCall) : List CStr := (calls.map InsertCall.key).dedup

variable {calls : List InsertCall} {c : InsertCall} {key : CStr}

theorem storedOffset_append_ne (h : c.key ≠ key) : storedOffset (calls ++ [c]) key = storedOffset calls key := by
  simp [storedOffset, filter_append, h]

theorem storedOffset_append_replace (h : c.replaceDup = true) : storedOffset (calls ++ [c]) c.key = c.filePos := by
  simp [storedOffset, filter_append, h]

theorem storedOffset_append_new (h : c.key ∉ calls.map InsertCall.key) : storedOffset (calls ++ [c]) c.key = c.filePos := by
  have hnil : calls.filter (fun d => decide (d.key = c.key)) = [] := by
    refine filter_eq_nil_iff.2 fun d hd => ?_
    simpa using fun e : d.key = c.key => h (e ▸ List.mem_map_of_mem hd)
  cases hr : c.replaceDup <;> simp [storedOffset, filter_append, hnil, hr]

theorem storedOffset_append_kept (h : c.key ∈ calls.map InsertCall.key) (hr : c.replaceDup = false) :
    storedOffset (calls ++ [c]) c.key = storedOffset calls c.key := by
  obtain ⟨d, hd, hk⟩ := List.mem_map.1 h
  have hne : calls.filter (fun d => decide (d.key = c.key)) ≠ [] :=
    ne_nil_of_mem (mem_filter.2 ⟨hd, by simpa using hk⟩)
  obtain ⟨e, l, hl⟩ := exists_cons_of_ne_nil hne
  simp [storedOffset, filter_append, hr, hl]

theorem storedOffset_absent (h : key ∉ calls.map InsertCall.key) : storedOffset calls key = 0 := by
  have hnil : calls.filter (fun d => decide (d.key = key)) = [] := by
    refine filter_eq_nil_iff.2 fun d hd => ?_
    simpa using fun e : d.key = key => h (e ▸ List.mem_map_of_mem hd)
  simp [storedOffset, hnil]

structure Tracks (calls : List InsertCall) (E : List (CStr × Offset)) : Prop where
  keys : ∀ k, k ∈ E.map Prod.fst ↔ k ∈ calls.map InsertCall.key
  offset : ∀ k v, (k, v) ∈ E → storedOffset calls k = v

theorem Tracks.nil : Tracks [] [] := ⟨by simp, by simp⟩

theorem Tracks.insert_absent {A B : List (CStr × Offset)} (h : Tracks calls (A ++ B))
    (hk : c.key ∉ (A ++ B).map Prod.fst) : Tracks (calls ++ [c]) (A ++ (c.key, c.filePos) :: B) where
  keys k := by
    have := h.keys k
    simp only [map_append, mem_append, map_cons, mem_cons, map_nil, not_mem_nil, or_false] at this ⊢
    rw [← this]; tauto
  offset k v hkv := by
    have hmem : (k, v) = (c.key, c.filePos) ∨ (k, v) ∈ A ++ B := by
      simp only [mem_append, mem_cons] at hkv ⊢; tauto
    rcases hmem with he | hmem
    · cases he
      exact storedOffset_append_new (by rwa [← h.keys])
    · rw [storedOffset_append_ne fun e => hk (e ▸ List.mem_map_of_mem hmem)]
      exact h.offset k v hmem

variable {E : List (CStr × Offset)}

theorem Tracks.insert_kept (h : Tracks calls E) (hk : c.key ∈ E.map Prod.fst) (hr : c.replaceDup = false) : Tracks (calls ++ [c]) E where
  keys k := by
    have hck := (h.keys c.key).1 hk
    rw [h.keys k, map_append, mem_append]
    exact ⟨Or.inl, fun h' => h'.elim id fun h' => by rwa [mem_singleton.1 h']⟩
  offset k v hkv := by
    by_cases he : c.key = k
    · subst he
      rw [storedOffset_append_kept ((h.keys _).1 hk) hr]; exact h.offset _ v hkv
    · rw [storedOffset_append_ne he]; exact h.offset k v hkv

theorem Tracks.insert_replaced {A B : List (CStr × Offset)} {u : Offset} (h : Tracks calls (A ++ (c.key, u) :: B))
    (hnd : ((A ++ (c.key, u) :: B).map Prod.fst).Nodup) (hr : c.replaceDup = true) :
    Tracks (calls ++ [c]) (A ++ (c.key, c.filePos) :: B) where
  keys k := by
    have hck := (h.keys c.key).1 (by simp)
    have := h.keys k
    simp only [map_append, mem_append, map_cons, mem_cons, map_nil, not_mem_nil, or_false] at this ⊢
    rw [this]
    exact ⟨Or.inl, fun h' => h'.elim id fun h' => h' ▸ hck⟩
  offset k v hkv := by
    by_cases he : c.key = k
    · subst he
      have hmem : ((c.key, v) : CStr × Offset) = (c.key, c.filePos) := by
        have hnd' : ((A ++ (c.key, c.filePos) :: B).map Prod.fst).Nodup := by simpa using hnd
        exact inj_on_of_nodup_map hnd' hkv (by simp) rfl
      rw [storedOffset_append_replace hr]
      exact (congrArg Prod.snd hmem).symm
    · rw [storedOffset_append_ne he]
      refine h.offset k v ?_
      simp only [mem_append, mem_cons] at hkv ⊢
      rcases hkv with hkv | hkv | hkv
      · exact Or.inl hkv
      · exact absurd (congrArg Prod.fst hkv).symm he
      · exact Or.inr (Or.inr hkv)

theorem Tracks.length_eq (h : Tracks calls E) (hnd : (E.map Prod.fst).Nodup) : E.length = (distinctKeys calls).length := by
  have hp : (E.map Prod.fst).Perm (distinctKeys calls) :=
    (perm_ext_iff_of_nodup hnd (nodup_dedup _)).2 fun k => (h.keys k).trans mem_dedup.symm
  rw [← hp.length_eq, length_map]

variable {S tree mode} {F : Prop} {KeyOk : KeySlot → Prop} {Abs : σ → World → Prop} {s : σ} {w : World} {D : List Offset}

theorem TreeAt.nodup_keys (hT : TreeAt KeyOk w tree E D) : (E.map Prod.fst).Nodup := by
  cases hT with
  | empty => simp
  | tree t valid => exact valid.ascending.imp ne_of_lt

theorem btreeInsert_writes (hm : mode.writes) {v : Offset} (hv : v ≠ 0) (s : σ) (rd : Bool) :
    btreeInsert S tree mode s key v rd = insertEntry S tree s key v rd := by
  rw [btreeInsert, if_neg (by rintro (h | h); exacts [hv h, hm.1 h]), if_neg hm.2]

theorem btreeInsert_tracks (hS : S.Lawful F KeyOk Abs) (ho : 3 ≤ tree.order) (hm : mode.writes) (ha : Abs s w)
    (hT : TreeAt KeyOk w tree E D) (htr : Tracks calls E) (hkey : KeyOk (dupKey c.key)) (hc : c.filePos ≠ 0) :
    Meets F (btreeInsert S tree mode s c.key c.filePos c.replaceDup) fun r => (r.1 = .duplicate → r.2 = s) ∧
      ∃ w' E' D', Abs r.2 w' ∧ TreeAt KeyOk w' tree E' D' ∧ Tracks (calls ++ [c]) E' ∧ Frame w w' (tree.block :: D) (tree.block :: D') := by
  rw [btreeInsert_writes hm hc]
  by_cases hk : c.key ∈ E.map Prod.fst
  · refine (insertEntry_present hS ho ha hT hk c.filePos c.replaceDup).mono ?_
    rintro ⟨st, s'⟩ ⟨hkeep, hrepl⟩
    cases hr : c.replaceDup with
    | false =>
      cases hkeep hr
      exact ⟨fun _ => rfl, w, E, D, ha, hT, htr.insert_kept hk hr, Frame.refl⟩
    | true =>
      obtain ⟨hst, w', D', A, B, u, rfl, ha', hT', hf⟩ := hrepl hr
      exact ⟨fun h => absurd (hst.symm.trans h) nofun, w', _, D', ha', hT', htr.insert_replaced hT.nodup_keys hr, hf⟩
  · refine (insertEntry_absent hS ho ha hT hkey hk c.filePos c.replaceDup).mono ?_
    rintro ⟨st, s'⟩ ⟨hst, w', D', A, B, rfl, ha', hT', hf⟩
    exact ⟨fun h => absurd (hst.symm.trans h) nofun, w', _, D', ha', hT', htr.insert_absent hk, hf⟩

theorem insertAll_tracks (hS : S.Lawful F KeyOk Abs) (ho : 3 ≤ tree.order) (hm : mode.writes) :
    ∀ (todo done : List InsertCall) (s : σ) (w : World) (E : List (CStr × Offset)) (D : List Offset), Abs s w →
      TreeAt KeyOk w tree E D → Tracks done E → (∀ c ∈ todo, KeyOk (dupKey c.key)) → (∀ c ∈ todo, c.filePos ≠ 0) →
      Meets F (insertAll S tree mode todo s) fun s' =>
        ∃ w' E' D', Abs s' w' ∧ TreeAt KeyOk w' tree E' D' ∧ Tracks (done ++ todo) E' := by
  intro todo
  induction todo with
  | nil => exact fun done s w E D ha hT htr _ _ => ⟨w, E, D, ha, hT, by simpa using htr⟩
  | cons c todo ih =>
    intro done s w E D ha hT htr hkey hpos
    refine Meets.bind (btreeInsert_tracks hS ho hm ha hT htr (hkey c mem_cons_self) (hpos c mem_cons_self)) ?_
    rintro ⟨st, s1⟩ ⟨-, w1, E1, D1, ha1, hT1, htr1, -⟩
    refine (ih (done ++ [c]) s1 w1 E1 D1 ha1 hT1 htr1 (fun d hd => hkey d (mem_cons_of_mem _ hd))
      fun d hd => hpos d (mem_cons_of_mem _ hd)).mono ?_
    rintro s' ⟨w', E', D', h1, h2, h3⟩
    exact ⟨w', E', D', h1, h2, by simpa using h3⟩

theorem btreeSearch_tracks (hS : S.Lawful F KeyOk Abs) (ho : 3 ≤ tree.order) (ha : Abs s w)
    (hT : TreeAt KeyOk w tree E D) (htr : Tracks calls E) (key : CStr) :
    Meets F (btreeSearch S tree s key) (· = storedOffset calls key) := by
  refine (btreeSearch_spec hS ho ha hT key).mono ?_
  rintro r ⟨hfound, hnot⟩
  by_cases hk : key ∈ E.map Prod.fst
  · obtain ⟨⟨k, v⟩, hmem, rfl⟩ := List.mem_map.1 hk
    rw [hfound v hmem, htr.offset k v hmem]
  · rw [hnot hk, storedOffset_absent (by rwa [← htr.keys])]

theorem btreeCreate_spec (hS : S.Lawful F KeyOk Abs) (ha : Abs s w) :
    Meets F (btreeCreate S s) fun r => r.1.order = 5 ∧ w r.1.block = none ∧ dbHeaderBlockSize ≤ r.1.block ∧
      Abs r.2 (w.put r.1.block (.btreeHeader btreeCreateHeader)) ∧
      TreeAt KeyOk (w.put r.1.block (.btreeHeader btreeCreateHeader)) r.1 [] [] := by
  refine Meets.bind (hS.newHeader ha) ?_
  rintro ⟨o, s'⟩ ⟨h1, h2, h3⟩
  exact Meets.pure ⟨rfl, h2, h1, h3, TreeAt.empty 0 (World.put_self _ _ _)⟩

/-- **Any run of insertions on a fresh tree.** Every call returns; after them the map
holds a B+tree with its leaf chain, every search returns what the history says, the size
is the number of distinct keys, and a further insertion that is answered `GDB_DUPLICATE`
changes nothing. -/
theorem btreeInsert_run (A : Allocator) (mode : PmAccessMode) (hmode : mode.writes) (s₀ : MemStore)
    (calls : List InsertCall) (hpos : ∀ c ∈ calls, c.filePos ≠ 0) : ∃ tree s₁ s, btreeCreate (memStore A) s₀ = some (tree, s₁) ∧
      insertAll (memStore A) tree mode calls s₁ = some s ∧ IsBPlusTree s tree ∧ tree.order = 5 ∧
      (∀ key, btreeSearch (memStore A) tree s key = some (storedOffset calls key)) ∧
      btreeGetSize (memStore A) tree s = some (distinctKeys calls).length ∧
      ∀ key filePos replaceDup s', btreeInsert (memStore A) tree mode s key filePos replaceDup = some (.duplicate, s') → s' = s := by
  have hS := memStore_lawful A
  obtain ⟨⟨tree, s₁⟩, hcreate, horder, -, -, ha, hT⟩ :=
    (btreeCreate_spec hS (s := s₀) (w := s₀.world) rfl).returns
  have ho : 3 ≤ tree.order := by rw [show tree.order = 5 from horder]; omega
  obtain ⟨s, hrun, w, E, D, ha', hT', htr⟩ := (insertAll_tracks hS ho hmode calls [] s₁ _ [] [] ha hT Tracks.nil
    (fun _ _ => trivial) hpos).returns
  rw [nil_append] at htr
  refine ⟨tree, s₁, s, hcreate, hrun, hT'.isBPlusTree ha', horder, fun key => ?_, ?_, ?_⟩
  · obtain ⟨_, hsearch, rfl⟩ := (btreeSearch_tracks hS ho ha' hT' htr key).returns
    exact hsearch
  · obtain ⟨_, hsize, rfl⟩ := (btreeGetSize_spec hS ha' hT').returns
    rw [hsize, htr.length_eq hT'.nodup_keys]
  · intro key filePos replaceDup s' hins
    by_cases hv : filePos = 0
    · rw [btreeInsert, if_pos (Or.inl hv)] at hins
      cases hins
    · exact ((btreeInsert_tracks (c := ⟨key, filePos, replaceDup⟩) hS ho hmode ha' hT' htr trivial hv).of_eq hins).1 rfl

theorem btreeInsert_run_three : ∃ tree s₁ s, btreeCreate (memStore .extend) .empty = some (tree, s₁) ∧
    insertAll (memStore .extend) tree .readWrite
      [⟨cstr [98], 7, false⟩, ⟨cstr [97], 8, false⟩, ⟨cstr [98], 9, true⟩] s₁ = some s ∧
    btreeSearch (memStore .extend) tree s (cstr [98]) = some 9 ∧ btreeGetSize (memStore .extend) tree s = some 2 := by
  obtain ⟨tree, s₁, s, h1, h2, -, -, h3, h4, -⟩ := btreeInsert_run .extend .readWrite ⟨nofun, nofun⟩ .empty
    [⟨cstr [98], 7, false⟩, ⟨cstr [97], 8, false⟩, ⟨cstr [98], 9, true⟩] (by decide)
  exact ⟨tree, s₁, s, h1, h2, h3 _, h4⟩

end KVStores.Gdb
