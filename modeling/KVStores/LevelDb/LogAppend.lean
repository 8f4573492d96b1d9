import KVStores.LevelDb.LogRecords

/-!
# Records as fragments

* `fragments`: the fragments into which the writer cuts a record; `assemble_fragments`: **put
  together they are the record**, and nothing of it is left over.
-/

namespace KVStores.LevelDb.Log

open List

/-- The fragments of a record, from offset `o` of a block on. -/
@[grind =] def fragments : ℕ → ℕ → Bool → Bytes → List Fragment
  | 0, _, _, _ => []
  | fuel + 1, o, begin_, left =>
    let avail := kBlockSize - start o - kHeaderSize
    let fragmentLength := if left.length < avail then left.length else avail
    (fragmentType begin_ (decide (left.length = fragmentLength)), left.take fragmentLength) ::
      if 0 < (left.drop fragmentLength).length then
        fragments fuel (start o + kHeaderSize + fragmentLength) false (left.drop fragmentLength)
      else []

def recordFragments (o : ℕ) (record : Bytes) : List Fragment := fragments (record.length + 2) o true record

variable {crc : Crc32c} {o : ℕ}

/-- How many rounds are left for `left`: one more at the end of a block. -/
def Enough (fuel o : ℕ) (left : Bytes) : Prop :=
  left.length + 2 ≤ fuel ∨ left.length + 1 ≤ fuel ∧ start o + kHeaderSize < kBlockSize

def fragmentLength (o : ℕ) (left : Bytes) : ℕ :=
  if left.length < kBlockSize - start o - kHeaderSize then left.length else kBlockSize - start o - kHeaderSize

theorem fragmentLength_le (ho : o ≤ kBlockSize) (left : Bytes) : start o + kHeaderSize + fragmentLength o left ≤ kBlockSize := by
  have := start_le ho
  unfold fragmentLength
  by_cases h : left.length < kBlockSize - start o - kHeaderSize
  · rw [if_pos h]; omega
  · rw [if_neg h]; omega

theorem fragmentLength_le_length (o : ℕ) (left : Bytes) : fragmentLength o left ≤ left.length := by
  unfold fragmentLength
  by_cases h : left.length < kBlockSize - start o - kHeaderSize
  · rw [if_pos h]
  · rw [if_neg h]; omega

theorem fragmentLength_eq_iff (left : Bytes) : 0 < (left.drop (fragmentLength o left)).length ↔ left.length ≠ fragmentLength o left := by
  have := fragmentLength_le_length o left
  rw [length_drop]
  omega

theorem block_end (ho : o ≤ kBlockSize) {left : Bytes} (h : left.length ≠ fragmentLength o left) :
    start o + kHeaderSize + fragmentLength o left = kBlockSize := by
  have := start_le ho
  unfold fragmentLength at *
  by_cases hlt : left.length < kBlockSize - start o - kHeaderSize
  · rw [if_pos hlt] at h
    exact absurd rfl h
  · rw [if_neg hlt]
    omega

theorem Enough.next {fuel : ℕ} {left : Bytes} (h : Enough (fuel + 1) o left) (ho : o ≤ kBlockSize)
    (hne : left.length ≠ fragmentLength o left) : Enough fuel kBlockSize (left.drop (fragmentLength o left)) := by
  have hend := block_end ho hne
  have hle := fragmentLength_le_length o left
  refine Or.inr ⟨?_, by decide⟩
  rw [length_drop]
  rcases h with h | ⟨h, hlt⟩
  · omega
  · omega

theorem fragments_succ (fuel o : ℕ) (begin_ : Bool) (left : Bytes) : fragments (fuel + 1) o begin_ left =
    (fragmentType begin_ (decide (left.length = fragmentLength o left)), left.take (fragmentLength o left)) ::
      if left.length ≠ fragmentLength o left then
        fragments fuel (start o + kHeaderSize + fragmentLength o left) false (left.drop (fragmentLength o left))
      else [] := by
  show _ :: (if 0 < (left.drop (fragmentLength o left)).length then _ else _) = _
  simp only [fragmentLength_eq_iff]
  rfl

theorem fragments_fits : ∀ (fuel : ℕ) {o : ℕ} (begin_ : Bool) (left : Bytes), o ≤ kBlockSize → Fits o (fragments fuel o begin_ left) := by
  intro fuel
  induction fuel with
  | zero =>
    intro o begin_ left _
    exact trivial
  | succ fuel ih =>
    intro o begin_ left ho
    have hle := fragmentLength_le ho left
    have hlen : (left.take (fragmentLength o left)).length = fragmentLength o left := by
      rw [length_take]
      exact Nat.min_eq_left (fragmentLength_le_length o left)
    rw [fragments_succ, Fits, hlen]
    refine ⟨hle, ?_⟩
    by_cases h : left.length ≠ fragmentLength o left
    · rw [if_pos h]
      exact ih false _ hle
    · rw [if_neg h]
      exact trivial

theorem assemble_rest : ∀ (fuel : ℕ) {o : ℕ} (left s : Bytes), o ≤ kBlockSize → Enough fuel o left →
    assemble (some s) (fragments fuel o false left) = [s ++ left] ∧ pending (some s) (fragments fuel o false left) = none ∧
      Quiet (some s) (fragments fuel o false left) := by
  intro fuel
  induction fuel with
  | zero =>
    intro o left s _ h
    unfold Enough at h
    omega
  | succ fuel ih =>
    intro o left s ho h
    rw [fragments_succ]
    by_cases hne : left.length ≠ fragmentLength o left
    · have hend := block_end ho hne
      have ht : fragmentType false (decide (left.length = fragmentLength o left)) = .middle := by
        rw [decide_eq_false hne]; rfl
      obtain ⟨h1, h2, h3⟩ := ih (left.drop (fragmentLength o left)) (s ++ left.take (fragmentLength o left)) le_rfl (h.next ho hne)
      rw [if_pos hne, ht, hend]
      refine ⟨?_, ?_, by simp [quiet], ?_⟩
      · show [] ++ assemble (some (s ++ left.take (fragmentLength o left))) _ = _
        rw [h1, nil_append, append_assoc, take_append_drop]
      · exact h2
      · exact h3
    · have heq : left.length = fragmentLength o left := not_not.1 hne
      have ht : fragmentType false (decide (left.length = fragmentLength o left)) = .last := by
        rw [decide_eq_true heq]; rfl
      rw [if_neg hne, ht, ← heq, take_length]
      exact ⟨rfl, rfl, by simp [quiet], trivial⟩

/-- **The fragments of a record put together are the record.** -/
theorem assemble_fragments (ho : o ≤ kBlockSize) (record : Bytes) (begun : Option Bytes) :
    assemble begun (recordFragments o record) = [record] ∧ pending begun (recordFragments o record) = none ∧
      (begun.getD [] = [] → Quiet begun (recordFragments o record)) := by
  have henough : Enough (record.length + 1 + 1) o record := Or.inl le_rfl
  unfold recordFragments
  rw [fragments_succ]
  by_cases hne : record.length ≠ fragmentLength o record
  · have hend := block_end ho hne
    have ht : fragmentType true (decide (record.length = fragmentLength o record)) = .first := by
      rw [decide_eq_false hne]; rfl
    obtain ⟨h1, h2, h3⟩ := assemble_rest _ (record.drop (fragmentLength o record)) (record.take (fragmentLength o record)) le_rfl
      (henough.next ho hne)
    rw [if_pos hne, ht, hend]
    refine ⟨?_, ?_, fun hb => ⟨by simpa [quiet] using hb, ?_⟩⟩
    · show [] ++ assemble (some (record.take (fragmentLength o record))) _ = _
      rw [h1, nil_append, take_append_drop]
    · exact h2
    · exact h3
  · have heq : record.length = fragmentLength o record := not_not.1 hne
    have ht : fragmentType true (decide (record.length = fragmentLength o record)) = .full := by
      rw [decide_eq_true heq]; rfl
    rw [if_neg hne, ht, ← heq, take_length]
    exact ⟨rfl, rfl, fun hb => ⟨by simpa [quiet] using hb, trivial⟩⟩

theorem append_spec (f : WritableFile) (data : Bytes) :
    (∃ g, f.append data = (.ok, g) ∧ g.contents = f.contents ++ data ∧ (f.outcomes = [] → g.outcomes = [])) ∨
    (∃ g n, f.append data = (.ioError, g) ∧ f.outcomes ≠ [] ∧ n ≤ data.length ∧ g.contents = f.contents ++ data.take n) := by
  obtain ⟨contents, outcomes⟩ := f
  cases outcomes with
  | nil => exact Or.inl ⟨_, rfl, rfl, fun _ => rfl⟩
  | cons outcome outcomes =>
    cases outcome with
    | none => exact Or.inl ⟨_, rfl, rfl, fun h => absurd h (by simp)⟩
    | some n =>
      refine Or.inr ⟨_, min n data.length, rfl, by simp, Nat.min_le_right _ _, ?_⟩
      rw [take_eq_take_min]

theorem emitPhysicalRecord_spec (crc : Crc32c) (w : Writer) (t : RecordType) (data : Bytes) :
    ∃ s g, w.emitPhysicalRecord crc t data = (s, ⟨g, w.blockOffset + kHeaderSize + data.length⟩) ∧
      (s = .ok ∧ g.contents = w.dest.contents ++ frame crc (t, data) ∧ (w.dest.outcomes = [] → g.outcomes = []) ∨
        s ≠ .ok ∧ w.dest.outcomes ≠ [] ∧ ∃ n ≤ (frame crc (t, data)).length,
          g.contents = w.dest.contents ++ (frame crc (t, data)).take n) := by
  unfold Writer.emitPhysicalRecord
  obtain ⟨f, b⟩ := w
  rcases append_spec f (headerBytes crc t data) with ⟨f1, h1, c1, o1⟩ | ⟨f1, n, h1, o1, hn, c1⟩
  · rw [h1]
    dsimp only
    rcases append_spec f1 data with ⟨f2, h2, c2, o2⟩ | ⟨f2, n, h2, o2, hn, c2⟩
    · have hall : f2.contents = f.contents ++ frame crc (t, data) := by rw [c2, c1, frame, append_assoc]
      rw [h2]
      dsimp only
      unfold WritableFile.flush
      rcases append_spec f2 [] with ⟨f3, h3, c3, o3⟩ | ⟨f3, n, h3, o3, hn, c3⟩
      · rw [h3]
        refine ⟨.ok, f3, rfl, Or.inl ⟨rfl, ?_, fun h => o3 (o2 (o1 h))⟩⟩
        rw [c3, hall, append_nil]
      · rw [h3]
        refine ⟨.ioError, f3, rfl, Or.inr ⟨by decide, fun h => o3 (o2 (o1 h)), _, le_rfl, ?_⟩⟩
        rw [c3, hall, take_nil, append_nil, take_length]
    · rw [h2]
      refine ⟨.ioError, f2, rfl, Or.inr ⟨by decide, fun h => o2 (o1 h), kHeaderSize + n, ?_, ?_⟩⟩
      · rw [frame_length]
        exact Nat.add_le_add_left hn _
      · have hh : (headerBytes crc t data).length = kHeaderSize := headerBytes_length t data
        rw [c2, c1, frame, append_assoc, ← hh, take_length_add_append]
  · rw [h1]
    refine ⟨.ioError, f1, rfl, Or.inr ⟨by decide, o1, n, ?_, ?_⟩⟩
    · rw [headerBytes_length] at hn
      rw [frame_length]
      omega
    · rw [c1, frame, take_append_of_le_length hn]

theorem switchBlock_spec (w : Writer) : w.switchBlock.blockOffset = start w.blockOffset ∧
    ∃ n ≤ (trailer w.blockOffset).length, w.switchBlock.dest.contents = w.dest.contents ++ (trailer w.blockOffset).take n ∧
      (w.dest.outcomes = [] → n = (trailer w.blockOffset).length ∧ w.switchBlock.dest.outcomes = []) := by
  unfold Writer.switchBlock start trailer
  by_cases h : kBlockSize - w.blockOffset < kHeaderSize
  · simp only [if_pos h]
    refine ⟨trivial, ?_⟩
    by_cases h0 : 0 < kBlockSize - w.blockOffset
    · rw [if_pos h0]
      rcases append_spec w.dest (List.replicate (kBlockSize - w.blockOffset) 0) with ⟨f1, h1, c1, o1⟩ | ⟨f1, n, h1, o1, hn, c1⟩
      · rw [h1]
        exact ⟨_, le_rfl, by rw [c1, take_length], fun ho => ⟨rfl, o1 ho⟩⟩
      · rw [h1]
        exact ⟨n, hn, c1, fun ho => absurd ho o1⟩
    · have hz : kBlockSize - w.blockOffset = 0 := by omega
      rw [hz]
      exact ⟨0, le_rfl, by simp, fun ho => ⟨rfl, ho⟩⟩
  · simp only [if_neg h]
    exact ⟨trivial, 0, le_rfl, by simp, fun ho => ⟨rfl, ho⟩⟩

/-- What a call leaves behind, when its zeros get through: all fragments, or some of them and the front of the next one. -/
structure Left (crc : Crc32c) (w : Writer) (fs : List Fragment) (r : Status × Writer) : Prop where
  done : r.1 = .ok → r.2.dest.contents = w.dest.contents ++ layout crc w.blockOffset fs ∧
    r.2.blockOffset = offsetAfter w.blockOffset fs
  failed : r.1 ≠ .ok → ∃ gs g hs n, fs = gs ++ g :: hs ∧ n ≤ (frame crc g).length ∧
    r.2.dest.contents = w.dest.contents ++ (layout crc w.blockOffset gs ++ (trailer (offsetAfter w.blockOffset gs) ++ (frame crc g).take n)) ∧
    r.2.blockOffset = start (offsetAfter w.blockOffset gs) + kHeaderSize + g.2.length
  clean : w.dest.outcomes = [] → r.1 = .ok ∧ r.2.dest.outcomes = []

def nextFragment (o : ℕ) (begin_ : Bool) (left : Bytes) : Fragment :=
  (fragmentType begin_ (decide (left.length = fragmentLength o left)), left.take (fragmentLength o left))

theorem nextFragment_length (o : ℕ) (begin_ : Bool) (left : Bytes) : (nextFragment o begin_ left).2.length = fragmentLength o left := by
  rw [nextFragment, length_take]
  exact Nat.min_eq_left (fragmentLength_le_length o left)

theorem addRecordLoop_succ (fuel : ℕ) (w : Writer) (begin_ : Bool) (left : Bytes) : w.addRecordLoop crc (fuel + 1) begin_ left =
      let f := nextFragment w.blockOffset begin_ left
      let r := w.switchBlock.emitPhysicalRecord crc f.1 f.2
      if r.1 = .ok ∧ left.length ≠ fragmentLength w.blockOffset left then
        r.2.addRecordLoop crc fuel false (left.drop (fragmentLength w.blockOffset left))
      else r := by
  have hs := (switchBlock_spec w).1
  rw [Writer.addRecordLoop]
  rw [hs]
  show (if _ ∧ 0 < (left.drop (fragmentLength w.blockOffset left)).length then _ else _) = _
  simp only [fragmentLength_eq_iff]
  rfl

theorem switchBlock_full (w : Writer) (h : w.blockOffset = kBlockSize) :
    w.switchBlock.dest.contents = w.dest.contents ++ trailer w.blockOffset := by
  obtain ⟨-, n, hn, hc, -⟩ := switchBlock_spec w
  have ht : trailer w.blockOffset = [] := by rw [h]; decide
  rw [hc, ht, take_nil]

theorem addRecordLoop_spec : ∀ (fuel : ℕ) (w : Writer) (begin_ : Bool) (left : Bytes), w.blockOffset ≤ kBlockSize →
    Enough fuel w.blockOffset left → w.switchBlock.dest.contents = w.dest.contents ++ trailer w.blockOffset →
    Left crc w (fragments fuel w.blockOffset begin_ left) (w.addRecordLoop crc fuel begin_ left) := by
  intro fuel
  induction fuel with
  | zero =>
    intro w begin_ left _ h
    unfold Enough at h
    omega
  | succ fuel ih =>
    intro w begin_ left ho henough htrail
    obtain ⟨hs, k, hk, -, hclean⟩ := switchBlock_spec w
    have hlen := nextFragment_length w.blockOffset begin_ left
    obtain ⟨s, g, hemit, hcases⟩ := emitPhysicalRecord_spec crc w.switchBlock (nextFragment w.blockOffset begin_ left).1
      (nextFragment w.blockOffset begin_ left).2
    rw [hs, hlen] at hemit
    rw [htrail] at hcases
    have hfs : fragments (fuel + 1) w.blockOffset begin_ left = nextFragment w.blockOffset begin_ left ::
        if left.length ≠ fragmentLength w.blockOffset left then
          fragments fuel (start w.blockOffset + kHeaderSize + fragmentLength w.blockOffset left) false
            (left.drop (fragmentLength w.blockOffset left))
        else [] := fragments_succ fuel w.blockOffset begin_ left
    rw [addRecordLoop_succ, hfs]
    dsimp only
    rw [hemit]
    generalize nextFragment w.blockOffset begin_ left = f at *
    rcases hcases with ⟨rfl, hg, hgo⟩ | ⟨hne, hgo, n, hn, hg⟩
    · by_cases hmore : left.length ≠ fragmentLength w.blockOffset left
      · -- the fragment is there, and the loop goes on at the end of its block
        have hend := block_end ho hmore
        rw [if_pos hmore, if_pos ⟨rfl, hmore⟩, hend]
        have hrest := ih ⟨g, kBlockSize⟩ false (left.drop (fragmentLength w.blockOffset left)) le_rfl (henough.next ho hmore)
          (switchBlock_full _ rfl)
        refine ⟨fun h => ?_, fun h => ?_, fun h => ?_⟩
        · obtain ⟨h1, h2⟩ := hrest.done h
          refine ⟨?_, ?_⟩
          · rw [h1, hg, layout, hlen, hend]
            simp only [append_assoc]
          · rw [h2, offsetAfter, hlen, hend]
        · obtain ⟨gs, f', hs', m, hsplit, hm, h1, h2⟩ := hrest.failed h
          refine ⟨f :: gs, f', hs', m, by rw [hsplit, cons_append], hm, ?_, ?_⟩
          · rw [h1, hg, layout, offsetAfter, hlen, hend]
            simp only [append_assoc]
          · rw [h2, offsetAfter, hlen, hend]
        · exact hrest.clean (hgo (hclean h).2)
      · rw [if_neg hmore, if_neg (fun h => hmore h.2)]
        refine ⟨fun _ => ⟨?_, ?_⟩, fun h => absurd rfl h, fun h => ⟨rfl, hgo (hclean h).2⟩⟩
        · rw [layout, layout, append_nil, ← append_assoc]
          exact hg
        · rw [offsetAfter, offsetAfter, hlen]
    · -- the fragment is not there as a whole
      have hstop : ¬(s = .ok ∧ left.length ≠ fragmentLength w.blockOffset left) := fun h => hne h.1
      rw [if_neg hstop]
      refine ⟨fun h => absurd h hne, fun _ => ⟨[], f, _, n, rfl, hn, ?_, ?_⟩, fun h => absurd (hclean h).2 hgo⟩
      · rw [layout, offsetAfter, nil_append, ← append_assoc]
        exact hg
      · rw [offsetAfter, hlen]

/-- **What `AddRecord` leaves in the file.** -/
theorem addRecord_spec (w : Writer) (record : Bytes) (ho : w.blockOffset ≤ kBlockSize)
    (htrail : w.switchBlock.dest.contents = w.dest.contents ++ trailer w.blockOffset) :
    Left crc w (recordFragments w.blockOffset record) (w.addRecord crc record) :=
  addRecordLoop_spec _ w true record ho (Or.inl le_rfl) htrail

end KVStores.LevelDb.Log
