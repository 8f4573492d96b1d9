import KVStores.LevelDb.LogAppend

/-!
# A log file that was cut off
-/

namespace KVStores.LevelDb.Log

open List

def Writer.new (dest : WritableFile) : Writer := ⟨dest, 0⟩

def writeLog (crc : Crc32c) (records : List Bytes) : Bytes :=
  (records.foldl (fun w record => (w.addRecord crc record).2) (Writer.new ⟨[], []⟩)).dest.contents

def readLog (crc : Crc32c) (file : Bytes) : List Bytes × List (ℕ × String) :=
  let r := readAll crc (file.length + 1) (Reader.new file true 0)
  (r.1.map Prod.fst, r.2.reports)

/-- Where the last fragment of a record ends: nothing is written behind it by then. -/
def recordEnd (crc : Crc32c) (records : List Bytes) (i : ℕ) : ℕ := (writeLog crc (records.take (i + 1))).length

@[grind =] def allFragments : ℕ → List Bytes → List Fragment
  | _, [] => []
  | o, record :: records => recordFragments o record ++ allFragments (offsetAfter o (recordFragments o record)) records

variable {crc : Crc32c} {o : ℕ}

theorem recordFragments_fits (ho : o ≤ kBlockSize) (record : Bytes) : Fits o (recordFragments o record) := fragments_fits _ true record ho

theorem recordFragments_le (ho : o ≤ kBlockSize) (record : Bytes) : offsetAfter o (recordFragments o record) ≤ kBlockSize :=
  offsetAfter_le _ ho (recordFragments_fits ho record)

theorem allFragments_fits : ∀ (records : List Bytes) {o : ℕ}, o ≤ kBlockSize → Fits o (allFragments o records)
  | [], _, _ => trivial
  | record :: records, _, ho =>
    (fits_append _ _).2 ⟨recordFragments_fits ho record, allFragments_fits records (recordFragments_le ho record)⟩

theorem allFragments_append : ∀ (records later : List Bytes) (o : ℕ),
    allFragments o (records ++ later) = allFragments o records ++ allFragments (offsetAfter o (allFragments o records)) later
  | [], _, _ => rfl
  | record :: records, later, o => by
    rw [cons_append, allFragments, allFragments, offsetAfter_append, allFragments_append records, append_assoc]

/-- **The records come out as they went in.** -/
theorem assemble_allFragments : ∀ (records : List Bytes) {o : ℕ}, o ≤ kBlockSize →
    assemble none (allFragments o records) = records ∧ pending none (allFragments o records) = none ∧ Quiet none (allFragments o records)
  | [], _, _ => ⟨rfl, rfl, trivial⟩
  | record :: records, o, ho => by
    obtain ⟨h1, h2, h3⟩ := assemble_fragments ho record none
    obtain ⟨r1, r2, r3⟩ := assemble_allFragments records (recordFragments_le ho record)
    refine ⟨?_, ?_, ?_⟩
    · rw [allFragments, assemble_append, h1, h2, r1]; rfl
    · rw [allFragments, pending_append, h2, r2]
    · rw [allFragments, quiet_append, h2]
      exact ⟨h3 rfl, r3⟩

theorem foldl_addRecord (crc : Crc32c) : ∀ (records : List Bytes) {w : Writer}, w.blockOffset ≤ kBlockSize → w.dest.outcomes = [] →
    (records.foldl (fun w record => (w.addRecord crc record).2) w).dest.contents =
      w.dest.contents ++ layout crc w.blockOffset (allFragments w.blockOffset records)
  | [], w, _, _ => (append_nil _).symm
  | record :: records, w, ho, hout => by
    have htrail : w.switchBlock.dest.contents = w.dest.contents ++ trailer w.blockOffset := by
      obtain ⟨-, n, -, hc, hclean⟩ := switchBlock_spec w
      rw [hc, (hclean hout).1, take_length]
    have hleft : Left crc w _ (w.addRecord crc record) := addRecord_spec w record ho htrail
    obtain ⟨hok, hout'⟩ := hleft.clean hout
    obtain ⟨hcont, hoff⟩ := hleft.done hok
    have hrest := foldl_addRecord crc records (w := (w.addRecord crc record).2) (by rw [hoff]; exact recordFragments_le ho record) hout'
    rw [foldl_cons, hrest, hcont, hoff, allFragments, layout_append, append_assoc]

theorem writeLog_eq (records : List Bytes) : writeLog crc records = layout crc 0 (allFragments 0 records) := by
  exact (foldl_addRecord crc records (Nat.zero_le _) rfl).trans (nil_append _)

theorem take_layout : ∀ (fs : List Fragment) (o : ℕ) {m : ℕ}, m < (layout crc o fs).length →
    ∃ gs g hs n, fs = gs ++ g :: hs ∧ n < (trailer (offsetAfter o gs) ++ frame crc g).length ∧ m = (layout crc o gs).length + n ∧
      (layout crc o fs).take m = layout crc o gs ++ (trailer (offsetAfter o gs) ++ frame crc g).take n
  | [], _, m, hm => absurd hm (Nat.not_lt_zero m)
  | f :: fs, o, m, hm => by
    rw [layout, ← append_assoc] at hm ⊢
    rw [length_append] at hm
    by_cases hlt : m < (trailer o ++ frame crc f).length
    · exact ⟨[], f, fs, m, rfl, hlt, by simp [layout], by rw [take_append_of_le_length (le_of_lt hlt)]; rfl⟩
    · obtain ⟨gs, g, hs, n, hsplit, hn, hmn, htake⟩ := take_layout fs (start o + kHeaderSize + f.2.length)
        (show m - (trailer o ++ frame crc f).length < _ by omega)
      have hm' : m = (trailer o ++ frame crc f).length + (m - (trailer o ++ frame crc f).length) := by omega
      refine ⟨f :: gs, g, hs, n, by rw [hsplit, cons_append], hn, ?_, ?_⟩
      · rw [layout, ← append_assoc, length_append]
        omega
      · rw [hm', take_length_add_append, htake, layout, offsetAfter]
        simp only [append_assoc]

theorem assemble_part : ∀ (fuel : ℕ) {o : ℕ} {begin_ : Bool} {left : Bytes} {gs hs : List Fragment} {g : Fragment}
    (begun : Option Bytes), fragments fuel o begin_ left = gs ++ g :: hs → assemble begun gs = [] := by
  intro fuel
  induction fuel with
  | zero =>
    intro o begin_ left gs hs g begun h
    exact absurd (congrArg List.length h) (by simp [fragments])
  | succ fuel ih =>
    intro o begin_ left gs hs g begun h
    cases gs with
    | nil => rfl
    | cons f gs =>
      rw [fragments_succ] at h
      obtain ⟨hf, hrest⟩ := List.cons.inj h
      by_cases hne : left.length ≠ fragmentLength o left
      · rw [if_pos hne] at hrest
        rw [decide_eq_false hne] at hf
        rw [assemble, ih _ hrest, append_nil, ← hf]
        cases begin_ <;> rfl
      · rw [if_neg hne] at hrest
        exact absurd (congrArg List.length hrest) (by simp)

theorem assemble_prefix : ∀ (records : List Bytes) {o : ℕ} {gs hs : List Fragment} {g : Fragment}, o ≤ kBlockSize →
    allFragments o records = gs ++ g :: hs → ∃ j, assemble none gs = records.take j ∧
      (∀ i < j, i < records.length → ∃ t, gs = allFragments o (records.take (i + 1)) ++ t) ∧
      (∀ i, j ≤ i → i < records.length → ∃ t, allFragments o (records.take (i + 1)) = gs ++ g :: t) := by
  intro records
  induction records with
  | nil =>
    intro o gs hs g _ h
    exact absurd (congrArg List.length h) (by simp [allFragments])
  | cons record records ih =>
    intro o gs hs g ho h
    have hsplit : (∃ a, gs = recordFragments o record ++ a ∧
        allFragments (offsetAfter o (recordFragments o record)) records = a ++ g :: hs) ∨ ∃ c, recordFragments o record = gs ++ g :: c := by
      rcases append_eq_append_iff.1 h with ⟨a, hgs, hall⟩ | ⟨c, hrec, hall⟩
      · exact Or.inl ⟨a, hgs, hall⟩
      · cases c with
        | nil => exact Or.inl ⟨[], by rw [hrec, append_nil, append_nil], by simpa using hall.symm⟩
        | cons g' c =>
          obtain ⟨rfl, -⟩ := List.cons.inj hall
          exact Or.inr ⟨c, hrec⟩
    rcases hsplit with ⟨a, rfl, hall⟩ | ⟨c, hrec⟩
    · obtain ⟨j, hj, hlt, hge⟩ := ih (recordFragments_le ho record) hall
      obtain ⟨h1, h2, -⟩ := assemble_fragments ho record none
      refine ⟨j + 1, ?_, ?_, ?_⟩
      · rw [assemble_append, h1, h2, hj, take_succ_cons]; rfl
      · intro i hi hi'
        cases i with
        | zero => exact ⟨a, by simp [allFragments]⟩
        | succ i =>
          obtain ⟨t, ht⟩ := hlt i (by omega) (by simpa using hi')
          exact ⟨t, by rw [take_succ_cons, allFragments, append_assoc, ← ht]⟩
      · intro i hi hi'
        cases i with
        | zero => omega
        | succ i =>
          obtain ⟨t, ht⟩ := hge i (by omega) (by simpa using hi')
          exact ⟨t, by rw [take_succ_cons, allFragments, ht, append_assoc]⟩
    · refine ⟨0, assemble_part _ none hrec, fun i hi => absurd hi (Nat.not_lt_zero i), fun i _ _ => ?_⟩
      exact ⟨c ++ allFragments (offsetAfter o (recordFragments o record)) (records.take i), by
        rw [take_succ_cons, allFragments, hrec, append_assoc, cons_append]⟩

theorem readLog_at (file : Bytes) : readLog crc file =
    ((readFrom crc file.length (file.length + 1) none 0 (Reader.new file true 0)).1.map Prod.fst,
      (readFrom crc file.length (file.length + 1) none 0 (Reader.new file true 0)).2.reports) := by
  unfold readLog
  rw [readAll_eq (Reader.at_new file true)]

theorem writeLog_eq_block (records : List Bytes) : writeLog crc records = layout crc kBlockSize (allFragments 0 records) := by
  rw [layout_block, writeLog_eq]

theorem readLog_writeLog (crc : Crc32c) (records : List Bytes) : readLog crc (writeLog crc records) = (records, []) := by
  obtain ⟨h1, h2, h3⟩ := assemble_allFragments records (Nat.zero_le kBlockSize)
  have hat := Reader.at_new (writeLog crc records) true
  have hfile : writeLog crc records = layout crc kBlockSize (allFragments 0 records) ++ [] := by
    rw [append_nil, writeLog_eq_block]
  rw [readLog_at]
  rw [hfile] at hat ⊢
  obtain ⟨l, r', n, n', p', hat', hn', -, heq, hl, hq⟩ := readFrom_layout (allFragments 0 records) (p := 0) hat
    ((fits_block _).2 (allFragments_fits records (Nat.zero_le _))) (Nat.lt_succ_self _) le_rfl
  obtain ⟨n', rfl⟩ : ∃ k, n' = k + 1 := ⟨n' - 1, (Nat.succ_pred_eq_of_pos hn').symm⟩
  obtain ⟨r2, hnil, hrep⟩ := readFrom_nil crc (pending none (allFragments 0 records)) hat' n n' p'
  rw [hnil] at heq
  rw [heq, append_nil, hl, h1, hrep h2, (hq h3).1]
  rfl

theorem readLog_cut (records : List Bytes) {gs hs : List Fragment} {g : Fragment} {n : ℕ}
    (hsplit : allFragments 0 records = gs ++ g :: hs)
    (hn : n < (trailer (offsetAfter kBlockSize gs) ++ frame crc g).length) :
    (readLog crc (layout crc kBlockSize gs ++ (trailer (offsetAfter kBlockSize gs) ++ frame crc g).take n)).1 = assemble none gs := by
  have hfits : Fits kBlockSize (allFragments 0 records) := (fits_block _).2 (allFragments_fits records (Nat.zero_le _))
  rw [hsplit, fits_append, Fits] at hfits
  rw [readLog_at]
  obtain ⟨l, r', k, k', p', hat', hk', -, heq, hl, -⟩ := readFrom_layout gs (p := 0)
    (Reader.at_new (layout crc kBlockSize gs ++ (trailer (offsetAfter kBlockSize gs) ++ frame crc g).take n) true)
    hfits.1 (Nat.lt_succ_self _) le_rfl
  have htail : ∃ r2, readFrom crc k k' (pending none gs) p' r' = ([], r2) := by
    by_cases h0 : n = 0
    · rw [h0, take_zero] at hat' hk'
      obtain ⟨k', rfl⟩ : ∃ j, k' = j + 1 := ⟨k' - 1, (Nat.succ_pred_eq_of_pos hk').symm⟩
      obtain ⟨r2, hnil, -⟩ := readFrom_nil crc (pending none gs) hat' k k' p'
      exact ⟨r2, hnil⟩
    · rw [length_take, Nat.min_eq_left (le_of_lt hn)] at hk'
      obtain ⟨k', rfl⟩ : ∃ j, k' = j + 2 := ⟨k' - 2, by omega⟩
      exact readFrom_torn _ hat' hfits.2.1 hn k k' p'
  obtain ⟨r2, hr2⟩ := htail
  rw [hr2] at heq
  rw [heq, append_nil, hl]

/-- **Of a log file that was cut off, the reader gives back the records whose last fragment is in it**, in order; of a
whole file it gives back all records and reports nothing. -/
theorem readLog_take (crc : Crc32c) (records : List Bytes) : (∀ m, ∃ j, (readLog crc ((writeLog crc records).take m)).1 = records.take j ∧
      ∀ i < records.length, i < j ↔ recordEnd crc records i ≤ m) ∧ readLog crc (writeLog crc records) = (records, []) := by
  refine ⟨fun m => ?_, readLog_writeLog crc records⟩
  by_cases hm : m < (writeLog crc records).length
  · rw [writeLog_eq_block] at hm ⊢
    obtain ⟨gs, g, hs, n, hsplit, hn, hmn, htake⟩ := take_layout (allFragments 0 records) kBlockSize hm
    obtain ⟨j, hj, hlt, hge⟩ := assemble_prefix records (Nat.zero_le kBlockSize) hsplit
    refine ⟨j, by rw [htake, readLog_cut records hsplit hn, hj], fun i hi => ⟨fun hij => ?_, fun hend => ?_⟩⟩
    · obtain ⟨t, ht⟩ := hlt i hij hi
      rw [ht, layout_append, length_append] at hmn
      rw [recordEnd, writeLog_eq_block]
      omega
    · by_contra hij
      obtain ⟨t, ht⟩ := hge i (not_lt.1 hij) hi
      rw [recordEnd, writeLog_eq_block, ht, layout_append, layout, ← append_assoc (trailer _), length_append, length_append] at hend
      omega
  · refine ⟨records.length, ?_, fun i hi => ⟨fun _ => ?_, fun _ => hi⟩⟩
    · rw [take_of_length_le (not_lt.1 hm), readLog_writeLog, take_length]
    · -- the records up to this one are the front of the file
      have hall : allFragments 0 records = allFragments 0 (records.take (i + 1)) ++
          allFragments (offsetAfter 0 (allFragments 0 (records.take (i + 1)))) (records.drop (i + 1)) := by
        have := allFragments_append (records.take (i + 1)) (records.drop (i + 1)) 0
        rwa [take_append_drop] at this
      have hle : recordEnd crc records i ≤ (writeLog crc records).length := by
        rw [recordEnd, writeLog_eq, writeLog_eq records, hall, layout_append, length_append]
        exact Nat.le_add_right _ _
      exact le_trans hle (not_lt.1 hm)

end KVStores.LevelDb.Log
