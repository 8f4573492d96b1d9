import KVStores.LevelDb.LogFragments

/-!
# Records in a log file

* `readFrom_layout`: **the reader assembles the fragments of a file**, one after the other, and
  reports nothing as long as they follow each other as a writer's do (`Quiet`).
-/

namespace KVStores.LevelDb.Log

open List

/-- What a fragment makes of a begun record: what is begun then, and a record that is whole. -/
@[grind =] def joinFragment (begun : Option Bytes) (f : Fragment) : Option Bytes × Option Bytes :=
  match f.1 with
  | .full => (none, some f.2)
  | .first => (some f.2, none)
  | .middle => (begun.map (· ++ f.2), none)
  | .last => (none, begun.map (· ++ f.2))

@[grind =] def assemble : Option Bytes → List Fragment → List Bytes
  | _, [] => []
  | begun, f :: fs => (joinFragment begun f).2.toList ++ assemble (joinFragment begun f).1 fs

/-- The record that is begun behind some fragments. -/
@[grind =] def pending : Option Bytes → List Fragment → Option Bytes
  | begun, [] => begun
  | begun, f :: fs => pending (joinFragment begun f).1 fs

def quiet (begun : Option Bytes) (f : Fragment) : Prop :=
  match f.1 with
  | .full | .first => begun.getD [] = []
  | .middle | .last => begun ≠ none

@[grind =] def Quiet : Option Bytes → List Fragment → Prop
  | _, [] => True
  | begun, f :: fs => quiet begun f ∧ Quiet (joinFragment begun f).1 fs

variable {crc : Crc32c} {f : Fragment} {fs gs : List Fragment} {o : ℕ} {begun : Option Bytes}

theorem assemble_append : ∀ (fs : List Fragment) (begun : Option Bytes),
    assemble begun (fs ++ gs) = assemble begun fs ++ assemble (pending begun fs) gs
  | [], _ => rfl
  | f :: fs, begun => by rw [cons_append, assemble, assemble, pending, assemble_append fs, append_assoc]

theorem pending_append : ∀ (fs : List Fragment) (begun : Option Bytes), pending begun (fs ++ gs) = pending (pending begun fs) gs
  | [], _ => rfl
  | f :: fs, begun => by rw [cons_append, pending, pending, pending_append fs]

theorem quiet_append : ∀ (fs : List Fragment) (begun : Option Bytes), Quiet begun (fs ++ gs) ↔ Quiet begun fs ∧ Quiet (pending begun fs) gs
  | [], _ => by simp [Quiet, pending]
  | f :: fs, begun => by rw [cons_append, Quiet, Quiet, pending, quiet_append fs, and_assoc]

theorem Reader.At.moved {r : Reader} {x : Bytes} (h : r.At o x) (n : ℕ) : ({ r with lastRecordOffset := n } : Reader).At o x :=
  ⟨h.text, h.last, h.whole, h.initial⟩

theorem readRecordLoop_frame (begun : Option Bytes) {r : Reader} {y : Bytes} (h : r.At o (trailer o ++ (frame crc f ++ y)))
    (hfit : start o + kHeaderSize + f.2.length ≤ kBlockSize) (n p : ℕ) :
    ∃ r' p', r'.At (start o + kHeaderSize + f.2.length) y ∧ (quiet begun f → r'.reports = r.reports) ∧
      r.readRecordLoop crc (n + 1) begun.isSome (begun.getD []) p = match (joinFragment begun f).2 with
        | some record => (some record, r')
        | none => r'.readRecordLoop crc n (joinFragment begun f).1.isSome ((joinFragment begun f).1.getD []) p' := by
  obtain ⟨r1, hp, hat, hrep⟩ := readPhysicalRecord_frame h hfit
  obtain ⟨t, d⟩ := f
  -- a report is made only when a record was begun
  have hreport : ∀ s : String, ∃ r2, (if begun.isSome = true ∧ begun.getD [] ≠ [] then r1.reportCorruption (begun.getD []).length s
      else r1) = r2 ∧ r2.At (start o + kHeaderSize + d.length) y ∧ (begun.getD [] = [] → r2.reports = r.reports) := by
    intro s
    by_cases hc : begun.isSome = true ∧ begun.getD [] ≠ []
    · exact ⟨_, if_pos hc, hat.report _ _, fun h => absurd h hc.2⟩
    · exact ⟨_, if_neg hc, hat, fun _ => hrep⟩
  cases t with
  | full =>
    obtain ⟨r2, he, hat2, hrep2⟩ := hreport "partial record without end(1)"
    refine ⟨_, 0, hat2.moved (r.endOfBufferOffset - r.buffer.length), hrep2, ?_⟩
    simp only [Reader.readRecordLoop, hp, RecordType.toNat, joinFragment, if_true, he]
  | first =>
    obtain ⟨r2, he, hat2, hrep2⟩ := hreport "partial record without end(2)"
    refine ⟨r2, r.endOfBufferOffset - r.buffer.length, hat2, hrep2, ?_⟩
    simp [Reader.readRecordLoop, hp, RecordType.toNat, joinFragment, he]
  | middle =>
    cases begun with
    | none =>
      refine ⟨_, p, hat.report d.length "missing start of fragmented record(1)", fun h => absurd rfl h, ?_⟩
      simp [Reader.readRecordLoop, hp, RecordType.toNat, joinFragment]
    | some s =>
      refine ⟨r1, p, hat, fun _ => hrep, ?_⟩
      simp [Reader.readRecordLoop, hp, RecordType.toNat, joinFragment]
  | last =>
    cases begun with
    | none =>
      refine ⟨_, p, hat.report d.length "missing start of fragmented record(2)", fun h => absurd rfl h, ?_⟩
      simp [Reader.readRecordLoop, hp, RecordType.toNat, joinFragment]
    | some s =>
      refine ⟨_, p, hat.moved p, fun _ => hrep, ?_⟩
      simp [Reader.readRecordLoop, hp, RecordType.toNat, joinFragment]

/-- The records that a reader finds, each with the reader behind it, and the reader at the end. -/
@[grind =] def readAll (crc : Crc32c) : ℕ → Reader → List (Bytes × Reader) × Reader
  | 0, r => ([], r)
  | fuel + 1, r =>
    match r.readRecord crc with
    | (some record, r) => ((record, r) :: (readAll crc fuel r).1, (readAll crc fuel r).2)
    | (none, r) => ([], r)

def readFrom (crc : Crc32c) (fuel fuel' : ℕ) (begun : Option Bytes) (p : ℕ) (r : Reader) : List (Bytes × Reader) × Reader :=
  match r.readRecordLoop crc fuel' begun.isSome (begun.getD []) p with
  | (some record, r) => ((record, r) :: (readAll crc fuel r).1, (readAll crc fuel r).2)
  | (none, r) => ([], r)

theorem readAll_eq {r : Reader} {x : Bytes} (h : r.At o x) (fuel : ℕ) :
    readAll crc (fuel + 1) r = readFrom crc fuel (x.length + 1) none 0 r := by
  have hskip : ¬r.lastRecordOffset < r.initialOffset := by rw [h.initial]; exact Nat.not_lt_zero _
  unfold readAll readFrom Reader.readRecord
  rw [if_neg hskip]
  dsimp only
  rw [h.remaining]
  rfl

theorem readFrom_layout {tail : Bytes} : ∀ (fs : List Fragment) {begun : Option Bytes} {o : ℕ} {r : Reader} {fuel fuel' p : ℕ},
    r.At o (layout crc o fs ++ tail) → Fits o fs → (layout crc o fs ++ tail).length < fuel' → (layout crc o fs ++ tail).length ≤ fuel →
    ∃ (l : List (Bytes × Reader)) (r' : Reader) (n n' p' : ℕ), r'.At (offsetAfter o fs) tail ∧ tail.length < n' ∧ tail.length ≤ n ∧
      readFrom crc fuel fuel' begun p r =
        (l ++ (readFrom crc n n' (pending begun fs) p' r').1, (readFrom crc n n' (pending begun fs) p' r').2) ∧
      l.map Prod.fst = assemble begun fs ∧ (Quiet begun fs → r'.reports = r.reports ∧ ∀ e ∈ l, e.2.reports = r.reports) := by
  intro fs
  induction fs with
  | nil =>
    intro begun o r fuel fuel' p h _ hn' hn
    exact ⟨[], r, fuel, fuel', p, h, hn', hn, rfl, rfl, fun _ => ⟨rfl, fun e he => absurd he (by simp)⟩⟩
  | cons f fs ih =>
    intro begun o r fuel fuel' p h hfit hn' hn
    obtain ⟨o', ho'⟩ : ∃ o', start o + kHeaderSize + f.2.length = o' := ⟨_, rfl⟩
    obtain ⟨hf, hfs⟩ := hfit
    rw [ho'] at hfs
    have htext : layout crc o (f :: fs) ++ tail = trailer o ++ (frame crc f ++ (layout crc o' fs ++ tail)) := by
      rw [layout, ho', append_assoc, append_assoc]
    rw [htext] at h hn hn'
    have hlen : (trailer o ++ (frame crc f ++ (layout crc o' fs ++ tail))).length =
        (trailer o).length + (kHeaderSize + f.2.length) + (layout crc o' fs ++ tail).length := by
      rw [length_append, length_append, frame_length]
      omega
    have hpos : 0 < kHeaderSize := Nat.succ_pos _
    obtain ⟨k, rfl⟩ : ∃ k, fuel' = k + 1 := ⟨fuel' - 1, by omega⟩
    obtain ⟨r1, p1, hat, hquiet, hloop⟩ := readRecordLoop_frame begun h hf k p
    rw [ho'] at hat
    cases hj : (joinFragment begun f).2 with
    | none =>
      -- the record is not whole yet: the loop goes on
      rw [hj] at hloop
      have hk : (layout crc o' fs ++ tail).length < k := by omega
      have hfuel : (layout crc o' fs ++ tail).length ≤ fuel := by omega
      obtain ⟨l, r', n, n', p', hat', htn', htn, heq, hl, hq⟩ := @ih (joinFragment begun f).1 o' r1 fuel k p1 hat hfs hk hfuel
      refine ⟨l, r', n, n', p', by rwa [offsetAfter, ho'], htn', htn, ?_, ?_, ?_⟩
      · rw [pending, ← heq]
        unfold readFrom
        rw [hloop]
      · rw [assemble, hj, hl]; rfl
      · intro hQ
        obtain ⟨h1, h2⟩ := hq hQ.2
        rw [hquiet hQ.1] at h1 h2
        exact ⟨h1, h2⟩
    | some record =>
      -- a record, and the next one is begun anew
      rw [hj] at hloop
      have hnone : (joinFragment begun f).1 = none := by
        obtain ⟨t, d⟩ := f
        cases t <;> simp_all [joinFragment]
      obtain ⟨k2, rfl⟩ : ∃ k2, fuel = k2 + 1 := ⟨fuel - 1, by omega⟩
      have hk : (layout crc o' fs ++ tail).length ≤ k2 := by omega
      obtain ⟨l, r', n, n', p', hat', htn', htn, heq, hl, hq⟩ := @ih (joinFragment begun f).1 o' r1 k2 _ 0 hat hfs
        (Nat.lt_succ_self _) hk
      refine ⟨(record, r1) :: l, r', n, n', p', by rwa [offsetAfter, ho'], htn', htn, ?_, ?_, ?_⟩
      · rw [pending, cons_append]
        rw [hnone] at heq ⊢
        unfold readFrom
        rw [hloop]
        dsimp only
        rw [readAll_eq hat, heq]
        rfl
      · rw [assemble, hj, map_cons, hl]; rfl
      · intro hQ
        obtain ⟨h1, h2⟩ := hq hQ.2
        rw [hquiet hQ.1] at h1 h2
        refine ⟨h1, fun e he => ?_⟩
        rcases mem_cons.1 he with rfl | he
        · exact hquiet hQ.1
        · exact h2 e he

theorem readFrom_nil (crc : Crc32c) (begun : Option Bytes) {r : Reader} (h : r.At o []) (n n' p : ℕ) : ∃ r', readFrom crc n (n' + 1) begun p r = ([], r') ∧
    (begun = none → r'.reports = r.reports) := by
  obtain ⟨r1, hp, hrep⟩ := readPhysicalRecord_nil crc h
  unfold readFrom
  cases begun with
  | none => exact ⟨r1, by simp [Reader.readRecordLoop, hp, kEof], fun _ => hrep⟩
  | some s => exact ⟨_, by simp [Reader.readRecordLoop, hp, kEof]; rfl, fun h => absurd h (by simp)⟩

theorem readFrom_torn (begun : Option Bytes) {r : Reader} {m : ℕ} (h : r.At o ((trailer o ++ frame crc f).take m))
    (hfit : start o + kHeaderSize + f.2.length ≤ kBlockSize) (hm : m < (trailer o ++ frame crc f).length) (n n' p : ℕ) :
    ∃ r', readFrom crc n (n' + 2) begun p r = ([], r') := by
  obtain ⟨r1, hp | ⟨hp, o', hat⟩⟩ := readPhysicalRecord_torn h hfit hm
  · unfold readFrom
    cases begun with
    | none => exact ⟨r1, by simp [Reader.readRecordLoop, hp, kEof]⟩
    | some s => exact ⟨_, by simp [Reader.readRecordLoop, hp, kEof]; rfl⟩
  · -- the rest of the fragment is dropped, and the file ends behind it
    cases begun with
    | none =>
      obtain ⟨r2, h2, -⟩ := readFrom_nil crc none hat n n' p
      refine ⟨r2, ?_⟩
      rw [← h2]
      unfold readFrom
      rw [Reader.readRecordLoop]
      simp [hp, kEof, kBadRecord]
    | some s =>
      obtain ⟨r2, h2, -⟩ := readFrom_nil crc none (hat.report s.length "error in middle of record") n n' p
      refine ⟨r2, ?_⟩
      rw [← h2]
      unfold readFrom
      rw [Reader.readRecordLoop]
      simp [hp, kEof, kBadRecord]

end KVStores.LevelDb.Log
