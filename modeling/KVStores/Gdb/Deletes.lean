import KVStores.Gdb.Delete
import KVStores.Gdb.Inserts

/-!
# Runs of insertions and deletions

`storedAfter` says which offset the calls of a run leave under a key; `Holds` relates it to
the entries of a tree. `runSafe`: every deletion of the run is one the code gets right
(`deleteSafe`).

`btreeDelete_run`: **in a run of safe calls every call returns, the tree stays a B+tree,
searches find what the history says, and a safe deletion takes out its key and no other.**
-/

namespace KVStores.Gdb

open List Option Function

inductive Call
  | insert (key : CStr) (filePos : Offset) (replaceDup : Bool)
  | delete (key : CStr)

section Calls

variable {σ : Type} (S : NodeStore σ) (tree : BTree) (mode : PmAccessMode)

def Call.run : Call → σ → Option σ
  | insert key filePos replaceDup, s => (btreeInsert S tree mode s key filePos replaceDup).map Prod.snd
  | delete key, s => (btreeDelete S tree mode s key).map Prod.snd

@[grind =] def runCalls : List Call → σ → Option σ
  | [], s => some s
  | c :: calls, s => do runCalls calls (← c.run S tree mode s)

def Call.safe : Call → σ → Bool
  | insert .., _ => true
  | delete key, s => deleteSafe S tree s key = some true

@[grind =] def runSafe : List Call → σ → Bool
  | [], _ => true
  | c :: calls, s => c.safe S tree s && (c.run S tree mode s).all (runSafe calls)

end Calls

/-- What one call does to the offsets stored under the keys; 0 means that there is none. -/
@[grind =] def Call.update (m : CStr → Offset) : Call → CStr → Offset
  | insert key filePos replaceDup =>
    if filePos ≠ 0 ∧ (m key = 0 ∨ replaceDup = true) then Function.update m key filePos else m
  | delete key => Function.update m key 0

def storedAfter (calls : List Call) : CStr → Offset := calls.foldl Call.update fun _ => 0

theorem storedAfter_ne {v : Offset} (h0 : v ≠ 0) {calls : List Call} (h : ∀ key rd, Call.insert key v rd ∉ calls) (k : CStr) :
    storedAfter calls k ≠ v := by
  have hfold : ∀ (calls : List Call) (m : CStr → Offset), (∀ k, m k ≠ v) → (∀ key rd, Call.insert key v rd ∉ calls) →
      calls.foldl Call.update m k ≠ v := by
    intro calls
    induction calls with
    | nil => exact fun m hm _ => hm k
    | cons c calls ih =>
      intro m hm hno
      refine ih (c.update m) (fun k' => ?_) fun key rd hmem => hno key rd (mem_cons_of_mem _ hmem)
      have hupdate (key : CStr) (u : Offset) (hu : u ≠ v) : Function.update m key u k' ≠ v := by
        by_cases hk : k' = key
        · rwa [hk, update_self]
        · rw [update_of_ne hk]; exact hm k'
      cases c with
      | delete key => exact hupdate key 0 h0.symm
      | insert key u rd =>
        rw [Call.update]
        split
        · exact hupdate key u fun e => hno key rd (e ▸ mem_cons_self)
        · exact hm k'
  exact hfold calls _ (fun _ => h0.symm) h

def Holds (m : CStr → Offset) (E : List (CStr × Offset)) : Prop := ∀ k v, (k, v) ∈ E ↔ m k = v ∧ v ≠ 0

section Holds

variable {m : CStr → Offset} {A B E : List (CStr × Offset)} {key : CStr} {v u : Offset}

theorem Holds.nil : Holds (fun _ => 0) [] := by
  intro k v
  simp only [not_mem_nil, false_iff, not_and, not_not]
  exact fun h => h.symm

theorem Holds.mem_keys (h : Holds m E) : key ∈ E.map Prod.fst ↔ m key ≠ 0 := by
  constructor
  · intro hk
    obtain ⟨⟨k, v⟩, hmem, rfl⟩ := List.mem_map.1 hk
    obtain ⟨hm, hv⟩ := (h k v).1 hmem
    rwa [hm]
  · intro hk
    exact List.mem_map.2 ⟨(key, m key), (h _ _).2 ⟨rfl, hk⟩, rfl⟩

theorem mem_middle {a b : CStr × Offset} : a ∈ A ++ b :: B ↔ a = b ∨ a ∈ A ++ B := by
  simp only [mem_append, mem_cons]; tauto

theorem Holds.insert (h : Holds m (A ++ B)) (hk : m key = 0) (hv : v ≠ 0) : Holds (Function.update m key v) (A ++ (key, v) :: B) := by
  intro k u
  rw [mem_middle, h k u]
  by_cases he : k = key
  · subst he
    rw [update_self, hk, Prod.mk.injEq]
    constructor
    · rintro (⟨-, rfl⟩ | ⟨rfl, h0⟩)
      · exact ⟨rfl, hv⟩
      · exact absurd rfl h0
    · rintro ⟨rfl, -⟩
      exact Or.inl ⟨rfl, rfl⟩
  · simp [he]

theorem Holds.delete (h : Holds m (A ++ (key, v) :: B)) (hnd : ((A ++ (key, v) :: B).map Prod.fst).Nodup) :
    Holds (Function.update m key 0) (A ++ B) := by
  intro k u
  have hk := h k u
  by_cases he : k = key
  · subst he
    have hno : (k, u) ∉ A ++ B := by
      rw [map_append, map_cons, nodup_middle, nodup_cons, ← map_append] at hnd
      exact fun hm => hnd.1 (List.mem_map.2 ⟨(k, u), hm, rfl⟩)
    rw [update_self]
    constructor
    · exact fun hm => absurd hm hno
    · rintro ⟨rfl, h0⟩
      exact absurd rfl h0
  · rw [update_of_ne he, ← hk]
    simp [he]

theorem Holds.replace (h : Holds m (A ++ (key, u) :: B)) (hnd : ((A ++ (key, u) :: B).map Prod.fst).Nodup) (hv : v ≠ 0) :
    Holds (Function.update m key v) (A ++ (key, v) :: B) := by
  have := @Holds.insert _ _ _ key v (h.delete hnd) (update_self _ _ _) hv
  rwa [update_idem] at this

end Holds

variable {σ : Type} {S : NodeStore σ} {F : Prop} {KeyOk : KeySlot → Prop} {Abs : σ → World → Prop}
  {tree : BTree} {mode : PmAccessMode} {s : σ} {w : World} {m : CStr → Offset} {E : List (CStr × Offset)} {D : List Offset}

theorem btreeDelete_writes (hm : mode.writes) (s : σ) (key : CStr) : btreeDelete S tree mode s key = deleteEntry S tree s key := by
  rw [btreeDelete, if_neg hm.1, if_neg hm.2]

def Stored (KeyOk : KeySlot → Prop) (w : World) (tree : BTree) (m : CStr → Offset) (D : List Offset) : Prop :=
  ∃ E, TreeAt KeyOk w tree E D ∧ Holds m E

theorem btreeSearch_stored (hS : S.Lawful F KeyOk Abs) (ho : 3 ≤ tree.order) (ha : Abs s w)
    (h : Stored KeyOk w tree m D) (key : CStr) : Meets F (btreeSearch S tree s key) (· = m key) := by
  obtain ⟨E, hT, hE⟩ := h
  refine (btreeSearch_spec hS ho ha hT key).mono ?_
  rintro r ⟨hfound, hnot⟩
  by_cases hk : m key = 0
  · rw [hnot (fun hmem => hE.mem_keys.1 hmem hk), hk]
  · exact hfound _ ((hE _ _).2 ⟨rfl, hk⟩)

theorem btreeInsert_stored (hS : S.Lawful F KeyOk Abs) (ho : 3 ≤ tree.order) (hm : mode.writes) (ha : Abs s w)
    (h : Stored KeyOk w tree m D) {key : CStr} (hkey : KeyOk (dupKey key)) (v : Offset) (rd : Bool) :
    Meets F (btreeInsert S tree mode s key v rd) fun r => ∃ w' D', Abs r.2 w' ∧
      Stored KeyOk w' tree (Call.update m (.insert key v rd)) D' ∧ Frame w w' (tree.block :: D) (tree.block :: D') := by
  obtain ⟨E, hT, hE⟩ := h
  by_cases hv : v = 0
  · rw [btreeInsert, if_pos (Or.inl hv), Call.update, if_neg (fun h => h.1 hv)]
    exact ⟨w, D, ha, ⟨E, hT, hE⟩, Frame.refl⟩
  · rw [btreeInsert_writes hm hv]
    by_cases hk : m key = 0
    · have habs : key ∉ E.map Prod.fst := fun hmem => hE.mem_keys.1 hmem hk
      refine (insertEntry_absent hS ho ha hT hkey habs v rd).mono ?_
      rintro ⟨st, s'⟩ ⟨-, w', D', A, B, rfl, ha', hT', hf⟩
      rw [Call.update, if_pos ⟨hv, Or.inl hk⟩]
      exact ⟨w', D', ha', ⟨_, hT', hE.insert hk hv⟩, hf⟩
    · refine (insertEntry_present hS ho ha hT (hE.mem_keys.2 hk) v rd).mono ?_
      rintro ⟨st, s'⟩ ⟨hkeep, hrepl⟩
      cases rd with
      | false =>
        cases hkeep rfl
        rw [Call.update, if_neg (by simp [hk])]
        exact ⟨w, D, ha, ⟨E, hT, hE⟩, Frame.refl⟩
      | true =>
        obtain ⟨-, w', D', A, B, u, rfl, ha', hT', hf⟩ := hrepl rfl
        rw [Call.update, if_pos ⟨hv, Or.inr rfl⟩]
        exact ⟨w', D', ha', ⟨_, hT', hE.replace hT.nodup_keys hv⟩, hf⟩

theorem TreeAt.ascending (hT : TreeAt KeyOk w tree E D) : (E.map Prod.fst).Pairwise (· < ·) := by
  cases hT with
  | empty => exact List.Pairwise.nil
  | tree t valid => exact valid.ascending

/-- **A safe deletion**: it returns what is stored under the key, changes nothing when that
is nothing, and takes one entry out when there is one. -/
theorem btreeDelete_stored (hS : S.Lawful F KeyOk Abs) (ho : 3 ≤ tree.order) (hm : mode.writes) (ha : Abs s w)
    (hT : TreeAt KeyOk w tree E D) (hE : Holds m E) {key : CStr} (hsafe : deleteSafe S tree s key = some true) :
    Meets F (btreeDelete S tree mode s key) fun r => r.1 = m key ∧ (m key = 0 → r.2 = s) ∧
      ∃ w' E' D', Abs r.2 w' ∧ TreeAt KeyOk w' tree E' D' ∧ Holds (Call.update m (.delete key)) E' ∧
        (m key ≠ 0 → E'.length + 1 = E.length) ∧ Frame w w' (tree.block :: D) (tree.block :: D') := by
  rw [btreeDelete_writes hm]
  by_cases hk : m key = 0
  · refine (deleteEntry_absent hS ho ha hT hsafe fun hmem => hE.mem_keys.1 hmem hk).mono ?_
    rintro _ rfl
    have hsame : Call.update m (.delete key) = m := by
      rw [Call.update, ← hk, update_eq_self]
    exact ⟨hk.symm, fun _ => rfl, w, E, D, ha, hT, by rwa [hsame], fun h => absurd hk h, Frame.refl⟩
  · refine (deleteEntry_present hS ho ha hT hsafe ((hE key _).2 ⟨rfl, hk⟩)).mono ?_
    rintro ⟨r, s'⟩ ⟨hr, w', D', A, B, hAB, ha', hT', hf⟩
    have hnd := hT.nodup_keys
    rw [hAB] at hE hnd
    exact ⟨hr, fun h => absurd h hk, w', A ++ B, D', ha', hT', hE.delete hnd, fun _ => by rw [hAB]; simp; omega, hf⟩

theorem Call.run_stored (hS : S.Lawful F KeyOk Abs) (ho : 3 ≤ tree.order) (hm : mode.writes) (ha : Abs s w)
    (h : Stored KeyOk w tree m D) (c : Call) (hkey : ∀ key v rd, c = .insert key v rd → KeyOk (dupKey key))
    (hsafe : c.safe S tree s = true) : Meets F (c.run S tree mode s) fun s' => ∃ w' D', Abs s' w' ∧ Stored KeyOk w' tree (c.update m) D' ∧
      Frame w w' (tree.block :: D) (tree.block :: D') := by
  cases c with
  | insert key v rd =>
    rw [Call.run, meets_map]
    exact btreeInsert_stored hS ho hm ha h (hkey key v rd rfl) v rd
  | delete key =>
    obtain ⟨E, hT, hE⟩ := h
    rw [Call.run, meets_map]
    refine (btreeDelete_stored hS ho hm ha hT hE (of_decide_eq_true hsafe)).mono ?_
    rintro ⟨r, s'⟩ ⟨-, -, w', E', D', ha', hT', hE', -, hf⟩
    exact ⟨w', D', ha', ⟨E', hT', hE'⟩, hf⟩

theorem runCalls_stored (hS : S.Lawful F KeyOk Abs) (ho : 3 ≤ tree.order) (hm : mode.writes) :
    ∀ (calls : List Call) (s : σ) (w : World) (m : CStr → Offset) (D : List Offset), Abs s w → Stored KeyOk w tree m D →
      (∀ key v rd, Call.insert key v rd ∈ calls → KeyOk (dupKey key)) → runSafe S tree mode calls s = true →
      Meets F (runCalls S tree mode calls s) fun s' => ∃ w' D', Abs s' w' ∧ Stored KeyOk w' tree (calls.foldl Call.update m) D' := by
  intro calls
  induction calls with
  | nil => exact fun s w m D ha h _ _ => ⟨w, D, ha, h⟩
  | cons c calls ih =>
    intro s w m D ha h hkey hsafe
    obtain ⟨hsafe, hrest⟩ := Bool.and_eq_true_iff.1 hsafe
    have hc : Meets F (c.run S tree mode s) fun s' => c.run S tree mode s = some s' ∧
        ∃ w' D', Abs s' w' ∧ Stored KeyOk w' tree (c.update m) D' := by
      have := c.run_stored hS ho hm ha h (fun key v rd e => hkey key v rd (e ▸ mem_cons_self)) hsafe
      cases hr : c.run S tree mode s with
      | none => rwa [hr] at this
      | some s' =>
        rw [hr] at this
        obtain ⟨w', D', h1, h2, -⟩ := this
        exact ⟨rfl, w', D', h1, h2⟩
    refine Meets.bind hc ?_
    rintro s1 ⟨hrun, w1, D1, ha1, h1⟩
    exact ih s1 w1 _ D1 ha1 h1 (fun key v rd hmem => hkey key v rd (mem_cons_of_mem _ hmem)) (by rwa [hrun] at hrest)

def fiveKeys : List Call :=
  [.insert (cstr [97]) 11 false, .insert (cstr [98]) 12 false, .insert (cstr [99]) 13 false,
    .insert (cstr [100]) 14 false, .insert (cstr [101]) 15 false]

def freshRun (calls : List Call) : Option (BTree × MemStore) := do
  let (tree, s) ← btreeCreate (memStore .extend) .empty
  return (tree, ← runCalls (memStore .extend) tree .readWrite calls s)

def searchThenDelete (calls : List Call) (key : CStr) : Option (Offset × Option Offset) := do
  let (tree, s) ← freshRun calls
  return (← btreeSearch (memStore .extend) tree s key, (btreeDelete (memStore .extend) tree .readWrite s key).map Prod.fst)

end KVStores.Gdb
