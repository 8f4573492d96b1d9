import KVStores.LevelDb.Keys
import KVStores.LevelDb.LogWriter

/-!
# Write batches

A write batch is a string of bytes (`write_batch.cc`): the sequence number of its first
operation, the number of operations, and the operations.

* `iterate_append`: **a batch that was appended to another comes out behind it**.
-/

namespace KVStores.LevelDb

open List

inductive BatchOp
  | put (key value : Bytes)
  | delete (key : Bytes)
deriving DecidableEq

def kHeader : ℕ := 12

/-- `rep_` of a `WriteBatch`. -/
abbrev WriteBatch := Bytes

namespace WriteBatch

def clear : WriteBatch := List.replicate kHeader 0

def sequence (b : WriteBatch) : ℕ := ofLittleEndian (b.take 8)

def setSequence (b : WriteBatch) (seq : ℕ) : WriteBatch := littleEndian 8 seq ++ b.drop 8

def countBytes (b : WriteBatch) : ℕ := ofLittleEndian ((b.drop 8).take 4)

/-- `WriteBatchInternal::Count`, an `int`. -/
def count (b : WriteBatch) : ℤ := if countBytes b < 2 ^ 31 then countBytes b else (countBytes b : ℤ) - 2 ^ 32

def setCount (b : WriteBatch) (n : ℤ) : WriteBatch := b.take 8 ++ littleEndian 4 (n % 2 ^ 32).toNat ++ b.drop 12

def put (b : WriteBatch) (key value : Bytes) : WriteBatch :=
  setCount b (count b + 1) ++ [UInt8.ofNat ValueType.value.toNat] ++ lengthPrefixed key ++ lengthPrefixed value

def delete (b : WriteBatch) (key : Bytes) : WriteBatch :=
  setCount b (count b + 1) ++ [UInt8.ofNat ValueType.deletion.toNat] ++ lengthPrefixed key

def append (dst src : WriteBatch) : WriteBatch := setCount dst (count dst + count src) ++ src.drop kHeader

/-- The loop of `WriteBatch::Iterate`: the calls of the handler, and the status. -/
@[grind =] def iterateLoop : ℕ → Bytes → List BatchOp × Status
  | 0, _ => ([], .ok)
  | _ + 1, [] => ([], .ok)
  | fuel + 1, tag :: input =>
    if tag = 1 then
      match getLengthPrefixed input with
      | none => ([], .corruption "bad WriteBatch Put")
      | some (key, input) =>
        match getLengthPrefixed input with
        | none => ([], .corruption "bad WriteBatch Put")
        | some (value, input) => (.put key value :: (iterateLoop fuel input).1, (iterateLoop fuel input).2)
    else if tag = 0 then
      match getLengthPrefixed input with
      | none => ([], .corruption "bad WriteBatch Delete")
      | some (key, input) => (.delete key :: (iterateLoop fuel input).1, (iterateLoop fuel input).2)
    else ([], .corruption "unknown WriteBatch tag")

/-- `WriteBatch::Iterate`. Each operation has a byte at least. -/
def iterate (b : WriteBatch) : List BatchOp × Status :=
  if b.length < kHeader then ([], .corruption "malformed WriteBatch (too small)")
  else
    let r := iterateLoop b.length (b.drop kHeader)
    if r.2 = .ok ∧ (r.1.length : ℤ) ≠ count b then (r.1, .corruption "WriteBatch has wrong count") else r

/-- `MemTableInserter`: the entries that the operations make. The source asserts that sequence
numbers stay below `2 ^ 56`. -/
@[grind =] def memEntries : ℕ → List BatchOp → List (Entry Bytes Bytes)
  | _, [] => []
  | seq, .put key value :: ops => ⟨.pack key seq .value, value⟩ :: memEntries (seq + 1) ops
  | seq, .delete key :: ops => ⟨.pack key seq .deletion, []⟩ :: memEntries (seq + 1) ops

def insertInto (b : WriteBatch) : List (Entry Bytes Bytes) × Status := (memEntries (sequence b) (iterate b).1, (iterate b).2)

variable {b : WriteBatch}

theorem memEntries_sequence : ∀ (ops : List BatchOp) (seq : ℕ), ∀ e ∈ memEntries seq ops,
    seq ≤ e.key.sequence ∧ e.key.sequence < seq + ops.length
  | [], _, e, he => absurd he (by simp [memEntries])
  | .put key value :: ops, seq, e, he => by
    rcases mem_cons.1 he with rfl | he
    · simp
    · have := memEntries_sequence ops (seq + 1) e he
      rw [length_cons]
      omega
  | .delete key :: ops, seq, e, he => by
    rcases mem_cons.1 he with rfl | he
    · simp
    · have := memEntries_sequence ops (seq + 1) e he
      rw [length_cons]
      omega

theorem memEntries_last : ∀ (ops : List BatchOp) (seq : ℕ), ops ≠ [] → ∃ e ∈ memEntries seq ops, e.key.sequence + 1 = seq + ops.length
  | [], _, h => absurd rfl h
  | [op], seq, _ => by cases op <;> exact ⟨_, mem_cons_self, by simp⟩
  | op :: op' :: ops, seq, _ => by
    obtain ⟨e, he, hlast⟩ := memEntries_last (op' :: ops) (seq + 1) (by simp)
    refine ⟨e, ?_, by rw [hlast]; simp only [length_cons]; omega⟩
    cases op <;> exact mem_cons_of_mem _ he

theorem sequence_setSequence (seq : ℕ) : sequence (setSequence b seq) = seq % 2 ^ 64 := by
  unfold sequence setSequence
  rw [take_left' (littleEndian_length 8 _)]
  exact ofLittleEndian_littleEndian 8 seq

theorem setSequence_drop (seq : ℕ) : (setSequence b seq).drop 8 = b.drop 8 :=
  drop_left' (littleEndian_length 8 _)

variable {ops : List BatchOp}

theorem iterate_ok (h : iterate b = (ops, .ok)) :
    kHeader ≤ b.length ∧ iterateLoop b.length (b.drop kHeader) = (ops, .ok) ∧ (ops.length : ℤ) = count b := by
  unfold iterate at h
  by_cases hsmall : b.length < kHeader
  · rw [if_pos hsmall] at h
    cases (Prod.mk.inj h).2
  · rw [if_neg hsmall] at h
    by_cases hc : (iterateLoop b.length (b.drop kHeader)).2 = .ok ∧ ((iterateLoop b.length (b.drop kHeader)).1.length : ℤ) ≠ count b
    · rw [if_pos hc] at h
      cases (Prod.mk.inj h).2
    · rw [if_neg hc] at h
      rw [h] at hc
      exact ⟨not_lt.1 hsmall, h, not_not.1 fun hne => hc ⟨rfl, hne⟩⟩

theorem iterateLoop_append {more : Bytes} : ∀ {fuel : ℕ} {input : Bytes} {ops : List BatchOp}, iterateLoop fuel input = (ops, .ok) →
    input.length ≤ fuel → ∀ {fuel' : ℕ}, input.length + more.length ≤ fuel' →
    ∃ k, more.length ≤ k ∧ iterateLoop fuel' (input ++ more) = (ops ++ (iterateLoop k more).1, (iterateLoop k more).2) := by
  intro fuel
  induction fuel with
  | zero =>
    intro input ops h hlen fuel' hfuel
    obtain rfl := eq_nil_of_length_eq_zero (Nat.le_zero.1 hlen)
    obtain ⟨rfl, -⟩ := Prod.mk.inj h
    exact ⟨fuel', by simpa using hfuel, rfl⟩
  | succ fuel ih =>
    intro input ops h hlen fuel' hfuel
    cases input with
    | nil =>
      obtain ⟨rfl, -⟩ := Prod.mk.inj h
      exact ⟨fuel', by simpa using hfuel, rfl⟩
    | cons tag input =>
      rw [length_cons] at hlen hfuel
      obtain ⟨fuel', rfl⟩ : ∃ n, fuel' = n + 1 := ⟨fuel' - 1, by omega⟩
      rw [iterateLoop] at h
      rw [cons_append, iterateLoop]
      by_cases h1 : tag = 1
      · rw [if_pos h1] at h ⊢
        cases hk : getLengthPrefixed input with
        | none => simp [hk] at h
        | some r =>
          obtain ⟨key, rest⟩ := r
          obtain ⟨hk', hlt⟩ := getLengthPrefixed_append more hk
          rw [hk] at h
          rw [hk']
          dsimp only at h ⊢
          cases hv : getLengthPrefixed rest with
          | none => simp [hv] at h
          | some r =>
            obtain ⟨value, rest⟩ := r
            obtain ⟨hv', hlt'⟩ := getLengthPrefixed_append more hv
            rw [hv] at h
            rw [hv']
            dsimp only at h ⊢
            obtain ⟨rfl, hok⟩ := Prod.mk.inj h
            obtain ⟨k, hk, heq⟩ := ih (Prod.ext rfl hok) (by omega) (show rest.length + more.length ≤ fuel' by omega)
            exact ⟨k, hk, by rw [heq, cons_append]⟩
      · rw [if_neg h1] at h ⊢
        by_cases h0 : tag = 0
        · rw [if_pos h0] at h ⊢
          cases hk : getLengthPrefixed input with
          | none => simp [hk] at h
          | some r =>
            obtain ⟨key, rest⟩ := r
            obtain ⟨hk', hlt⟩ := getLengthPrefixed_append more hk
            rw [hk] at h
            rw [hk']
            dsimp only at h ⊢
            obtain ⟨rfl, hok⟩ := Prod.mk.inj h
            obtain ⟨k, hk, heq⟩ := ih (Prod.ext rfl hok) (by omega) (show rest.length + more.length ≤ fuel' by omega)
            exact ⟨k, hk, by rw [heq, cons_append]⟩
        · rw [if_neg h0] at h
          cases (Prod.mk.inj h).2

theorem iterateLoop_length : ∀ (fuel : ℕ) (input : Bytes), (iterateLoop fuel input).1.length ≤ fuel := by
  intro fuel
  induction fuel with
  | zero => intro input; exact le_rfl
  | succ fuel ih =>
    intro input
    cases input with
    | nil => exact Nat.zero_le _
    | cons tag input =>
      rw [iterateLoop]
      by_cases h1 : tag = 1
      · rw [if_pos h1]
        cases getLengthPrefixed input with
        | none => exact Nat.zero_le _
        | some r =>
          dsimp only
          cases getLengthPrefixed r.2 with
          | none => exact Nat.zero_le _
          | some r' => exact Nat.succ_le_succ (ih r'.2)
      · rw [if_neg h1]
        by_cases h0 : tag = 0
        · rw [if_pos h0]
          cases getLengthPrefixed input with
          | none => exact Nat.zero_le _
          | some r => exact Nat.succ_le_succ (ih r.2)
        · rw [if_neg h0]
          exact Nat.zero_le _

theorem iterate_length (h : iterate b = (ops, .ok)) : ops.length ≤ b.length := by
  have hloop := iterateLoop_length b.length (b.drop kHeader)
  rw [(iterate_ok h).2.1] at hloop
  exact hloop

theorem countBytes_setCount {n : ℕ} (hb : kHeader ≤ b.length) (h : n < 2 ^ 31) : countBytes (setCount b n) = n := by
  unfold countBytes setCount kHeader at *
  have hn : ((n : ℤ) % 2 ^ 32).toNat = n := by omega
  rw [hn, append_assoc, drop_left' (by rw [length_take]; omega), take_left' (littleEndian_length 4 _)]
  exact ofLittleEndian_littleEndian_of_lt (lt_of_lt_of_le h (by decide))

theorem count_of_countBytes {n : ℕ} (h : countBytes b = n) (hn : n < 2 ^ 31) : count b = n := by
  unfold count
  rw [h, if_pos hn]

theorem drop_setCount (hb : kHeader ≤ b.length) (n : ℤ) : (setCount b n).drop kHeader = b.drop kHeader := by
  unfold setCount kHeader at *
  rw [drop_left' (by rw [length_append, length_take, littleEndian_length]; omega)]

theorem length_setCount (hb : kHeader ≤ b.length) (n : ℤ) : (setCount b n).length = b.length := by
  unfold setCount kHeader at *
  rw [length_append, length_append, length_take, littleEndian_length, length_drop]
  omega

variable {more : List BatchOp}

theorem iterate_setCount_append {bytes : Bytes} (h : iterate b = (ops, .ok))
    (hmore : ∀ fuel, bytes.length ≤ fuel → iterateLoop fuel bytes = (more, .ok)) (hlen : ops.length + more.length < 2 ^ 31) :
    iterate (setCount b (count b + more.length) ++ bytes) = (ops ++ more, .ok) := by
  obtain ⟨hsize, hloop, hcount⟩ := iterate_ok h
  have hsum : count b + (more.length : ℤ) = ((ops.length + more.length : ℕ) : ℤ) := by rw [← hcount]; push_cast; rfl
  rw [hsum]
  have hhead : kHeader ≤ (setCount b ((ops.length + more.length : ℕ) : ℤ)).length := by rw [length_setCount hsize]; exact hsize
  have hc : count (setCount b ((ops.length + more.length : ℕ) : ℤ) ++ bytes) = ((ops.length + more.length : ℕ) : ℤ) := by
    refine count_of_countBytes (Eq.trans ?_ (countBytes_setCount hsize hlen)) hlen
    unfold countBytes kHeader at *
    rw [drop_append_of_le_length (by omega), take_append_of_le_length (by rw [length_drop]; omega)]
  have hdrop : (setCount b ((ops.length + more.length : ℕ) : ℤ) ++ bytes).drop kHeader = b.drop kHeader ++ bytes := by
    rw [drop_append_of_le_length hhead, drop_setCount hsize]
  obtain ⟨k, hk, heq⟩ := @iterateLoop_append bytes _ _ _ hloop (by rw [length_drop]; omega)
    (setCount b ((ops.length + more.length : ℕ) : ℤ) ++ bytes).length
    (by rw [length_drop, length_append, length_setCount hsize]; omega)
  rw [hmore k hk] at heq
  unfold iterate
  rw [if_neg (by rw [length_append]; omega)]
  rw [hdrop, heq, hc, if_neg (by rw [length_append]; simp)]

theorem iterate_append {dst src : WriteBatch} (hd : iterate dst = (ops, .ok)) (hs : iterate src = (more, .ok))
    (hlen : ops.length + more.length < 2 ^ 31) : iterate (append dst src) = (ops ++ more, .ok) := by
  obtain ⟨hsize, hloop, hcount⟩ := iterate_ok hs
  unfold append
  rw [← hcount]
  refine iterate_setCount_append hd (fun fuel hfuel => ?_) hlen
  obtain ⟨k, -, heq⟩ := @iterateLoop_append [] _ _ _ hloop (by rw [length_drop]; omega) fuel (by rw [length_nil]; omega)
  rw [append_nil] at heq
  rw [heq]
  cases k <;> simp [iterateLoop]

theorem iterate_clear : iterate clear = ([], .ok) := by decide

theorem iterate_put {key value : Bytes} (h : iterate b = (ops, .ok)) (hlen : ops.length + 1 < 2 ^ 31)
    (hk : key.length < 2 ^ 32) (hv : value.length < 2 ^ 32) : iterate (put b key value) = (ops ++ [.put key value], .ok) := by
  unfold put
  rw [append_assoc, append_assoc, show count b + 1 = count b + (([.put key value] : List BatchOp).length : ℤ) from rfl]
  refine iterate_setCount_append h (fun fuel hfuel => ?_) hlen
  obtain ⟨fuel, rfl⟩ : ∃ n, fuel = n + 1 := ⟨fuel - 1, by rw [length_append, length_singleton] at hfuel; omega⟩
  rw [singleton_append, iterateLoop, if_pos (by decide), getLengthPrefixed_lengthPrefixed hk]
  dsimp only
  have hend := getLengthPrefixed_lengthPrefixed hv []
  rw [append_nil] at hend
  rw [hend]
  cases fuel <;> simp [iterateLoop]

theorem iterate_delete {key : Bytes} (h : iterate b = (ops, .ok)) (hlen : ops.length + 1 < 2 ^ 31)
    (hk : key.length < 2 ^ 32) : iterate (delete b key) = (ops ++ [.delete key], .ok) := by
  unfold delete
  rw [append_assoc, show count b + 1 = count b + (([.delete key] : List BatchOp).length : ℤ) from rfl]
  refine iterate_setCount_append h (fun fuel hfuel => ?_) hlen
  obtain ⟨fuel, rfl⟩ : ∃ n, fuel = n + 1 := ⟨fuel - 1, by rw [length_append, length_singleton] at hfuel; omega⟩
  rw [singleton_append, iterateLoop, if_neg (by decide), if_pos (by decide)]
  have hend := getLengthPrefixed_lengthPrefixed hk []
  rw [append_nil] at hend
  rw [hend]
  cases fuel <;> simp [iterateLoop]

theorem iterate_setSequence (seq : ℕ) (h : iterate b = (ops, .ok)) : iterate (setSequence b seq) = (ops, .ok) := by
  obtain ⟨hsize, hloop, hcount⟩ := iterate_ok h
  have hlen : (setSequence b seq).length = b.length := by
    unfold setSequence kHeader at *
    rw [length_append, littleEndian_length, length_drop]
    omega
  have hdrop : (setSequence b seq).drop kHeader = b.drop kHeader := by
    have h8 := setSequence_drop (b := b) seq
    rw [show kHeader = 8 + 4 from rfl, ← drop_drop, ← drop_drop, h8]
  have hc : count (setSequence b seq) = count b := by
    unfold count countBytes
    rw [setSequence_drop]
  unfold iterate
  rw [if_neg (by rw [hlen]; exact not_lt.2 hsize)]
  rw [hlen, hdrop, hloop, hc, if_neg (by rw [hcount]; simp)]

end WriteBatch

end KVStores.LevelDb
