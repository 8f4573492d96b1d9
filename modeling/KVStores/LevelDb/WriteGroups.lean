import KVStores.LevelDb.WriteQueue

/-!
# What writers are promised

* `run_served`: **each call gets what its status says**, as long as no group takes in a call
  without a batch (`NullsOutOfReach`).
-/

namespace KVStores.LevelDb

open Option

open WriteBatch

def totalSize (ws : List DbWriter) : ℕ := (ws.map fun w => w.batch.elim 0 List.length).sum

/-- The batches are such as `Put` and `Delete` make them. -/
def SoundBatches (ws : List DbWriter) : Prop := ∀ w ∈ ws, ∀ b, w.batch = some b → iterate b = (w.ops, .ok)

@[simp] theorem totalSize_cons (w : DbWriter) (ws : List DbWriter) : totalSize (w :: ws) = w.batch.elim 0 List.length + totalSize ws := by
  unfold totalSize
  rw [List.map_cons, List.sum_cons]

theorem totalSize_take_le : ∀ (ws : List DbWriter) {i n : ℕ}, i ≤ n → totalSize (ws.take i) ≤ totalSize (ws.take n)
  | [], i, n, _ => by rw [List.take_nil, List.take_nil]
  | _ :: _, 0, _, _ => by rw [List.take_zero]; exact Nat.zero_le _
  | w :: ws, i + 1, n + 1, h => by
    exact Nat.add_le_add_left (totalSize_take_le ws (Nat.le_of_succ_le_succ h)) _

theorem totalSize_none : ∀ {ws : List DbWriter}, ws.any (fun w => w.batch.isSome) = false → totalSize ws = 0
  | [], _ => rfl
  | w :: ws, h => by
    rw [List.any_cons, Bool.or_eq_false_iff] at h
    rw [totalSize_cons, totalSize_none h.2]
    cases hb : w.batch with
    | none => rfl
    | some b => rw [hb] at h; cases h.1

variable {b : WriteBatch}

theorem iterate_length_lt {ops : List BatchOp} (h : iterate b = (ops, .ok)) : ops.length < 2 ^ 31 := by
  obtain ⟨-, -, hc⟩ := iterate_ok h
  have hlt : countBytes b < 2 ^ 32 := by
    have := ofLittleEndian_lt ((b.drop 8).take 4)
    have hlen : ((b.drop 8).take 4).length ≤ 4 := by rw [List.length_take]; omega
    exact lt_of_lt_of_le this (le_trans (Nat.pow_le_pow_right (by decide) hlen) (by decide))
  unfold count at hc
  split at hc <;> omega

namespace WriteQueue

/-- The loop takes a prefix of the writers: no sync write for a leader that does not sync, and no more bytes than the
limit. Their operations come behind the others. -/
theorem buildLoop_spec {first : WriteBatch} {sync : Bool} {limit : ℕ} (hlimit : limit ≤ 2 ^ 20) :
    ∀ (ws : List DbWriter) (size : ℕ) (tmp : Option WriteBatch) (ops : List BatchOp), SoundBatches ws →
    iterate (tmp.getD first) = (ops, .ok) → ops.length ≤ size → (buildLoop first sync limit size tmp ws).2 ≤ ws.length ∧
    iterate ((buildLoop first sync limit size tmp ws).1.getD first) =
      (ops ++ (ws.take (buildLoop first sync limit size tmp ws).2).flatMap DbWriter.ops, .ok) ∧
    (∀ w ∈ ws.take (buildLoop first sync limit size tmp ws).2, w.sync = true → sync = true) ∧
    ((ws.take (buildLoop first sync limit size tmp ws).2).any (fun w => w.batch.isSome) = true →
      size + totalSize (ws.take (buildLoop first sync limit size tmp ws).2) ≤ limit) := by
  intro ws
  induction ws with
  | nil =>
    intro size tmp ops _ hops _
    rw [buildLoop, List.take_nil, List.flatMap_nil, List.append_nil]
    exact ⟨le_rfl, hops, fun w hw => (List.not_mem_nil hw).elim, fun h => by cases h⟩
  | cons w ws ih =>
    intro size tmp ops hsound hops hlen
    have hstop : ∀ h : 0 ≤ (w :: ws).length, 0 ≤ (w :: ws).length ∧
        iterate (tmp.getD first) = (ops ++ ((w :: ws).take 0).flatMap DbWriter.ops, .ok) ∧
        (∀ w' ∈ (w :: ws).take 0, w'.sync = true → sync = true) ∧
        (((w :: ws).take 0).any (fun w => w.batch.isSome) = true → size + totalSize ((w :: ws).take 0) ≤ limit) := fun h =>
      ⟨h, by rw [List.take_zero, List.flatMap_nil, List.append_nil]; exact hops, fun w' hw' => (List.not_mem_nil hw').elim, fun h => by cases h⟩
    have hsound' : SoundBatches ws := fun w' hw' => hsound w' (List.mem_cons_of_mem _ hw')
    rw [buildLoop]
    by_cases hsync : w.sync = true ∧ ¬sync = true
    · rw [if_pos hsync]
      exact hstop (Nat.zero_le _)
    · rw [if_neg hsync]
      have hw : w.sync = true → sync = true := fun h => by_contra fun hne => hsync ⟨h, hne⟩
      cases hb : w.batch with
      | none =>
        obtain ⟨h1, h2, h3, h4⟩ := ih size tmp ops hsound' hops hlen
        have hwops : w.ops = [] := by unfold DbWriter.ops; rw [hb]; rfl
        rw [List.take_succ_cons, List.flatMap_cons, hwops, List.nil_append]
        refine ⟨Nat.succ_le_succ h1, h2, List.forall_mem_cons.2 ⟨hw, h3⟩, fun h => ?_⟩
        rw [totalSize_cons, hb, elim_none, Nat.zero_add]
        rw [List.any_cons, hb] at h
        exact h4 h
      | some b =>
        dsimp only
        by_cases hbig : limit < size + b.length
        · rw [if_pos hbig]
          exact hstop (Nat.zero_le _)
        · rw [if_neg hbig]
          have hwb := hsound w List.mem_cons_self b hb
          have hwlen := iterate_length hwb
          -- the temporary batch begins with that of the leader
          have hdst : iterate (tmp.getD (append clear first)) = (ops, .ok) := by
            cases tmp with
            | none => exact iterate_append iterate_clear hops (by rw [List.length_nil, Nat.zero_add]; exact iterate_length_lt hops)
            | some t => exact hops
          have happ := iterate_append hdst hwb (by omega)
          obtain ⟨h1, h2, h3, h4⟩ := ih (size + b.length) (some (append (tmp.getD (append clear first)) b)) (ops ++ w.ops) hsound' happ
            (by rw [List.length_append]; omega)
          rw [List.take_succ_cons, List.flatMap_cons]
          refine ⟨Nat.succ_le_succ h1, by rw [h2, List.append_assoc], List.forall_mem_cons.2 ⟨hw, h3⟩, fun _ => ?_⟩
          rw [totalSize_cons, hb, elim_some]
          generalize (buildLoop first sync limit (size + b.length) (some (append (tmp.getD (append clear first)) b)) ws).2 = n at h4 ⊢
          cases hany : (ws.take n).any (fun w => w.batch.isSome) with
          | true =>
            have := h4 hany
            omega
          | false =>
            have := totalSize_none hany
            omega

theorem maxSize_le (size : ℕ) : maxSize size ≤ 2 ^ 20 := by
  unfold maxSize
  split <;> omega

/-- A call without a batch in the queue is behind a writer that ends the group: a sync write when the first one is none, or
one whose batch makes the group too big. -/
def NullsOutOfReach : List DbWriter → Prop
  | [] => True
  | first :: behind =>
    match first.batch with
    | none => True
    | some b => ∀ i < behind.length, behind[i]?.bind DbWriter.batch = none →
        (first.sync = false ∧ (behind.take (i + 1)).any DbWriter.sync = true) ∨
        ((behind.take i).any (fun w => w.batch.isSome) = true ∧ maxSize b.length < b.length + totalSize (behind.take i))

instance : (queue : List DbWriter) → Decidable (NullsOutOfReach queue)
  | [] => inferInstanceAs (Decidable True)
  | ⟨none, _⟩ :: _ => inferInstanceAs (Decidable True)
  | ⟨some _, _⟩ :: _ => inferInstanceAs (Decidable (∀ i < _, _ → _))

variable {w : DbWriter} {behind : List DbWriter}

theorem buildBatchGroup_spec (hw : w.batch = some b) (hsound : SoundBatches (w :: behind)) (hnulls : NullsOutOfReach (w :: behind)) :
    (buildBatchGroup b w.sync behind).2 ≤ behind.length ∧
    iterate (buildBatchGroup b w.sync behind).1 = ((w :: behind.take (buildBatchGroup b w.sync behind).2).flatMap DbWriter.ops, .ok) ∧
    (∀ u ∈ behind.take (buildBatchGroup b w.sync behind).2, u.sync = true → w.sync = true) ∧
    ∀ u ∈ behind.take (buildBatchGroup b w.sync behind).2, u.batch ≠ none := by
  have hb := hsound w List.mem_cons_self b hw
  obtain ⟨h1, h2, h3, h4⟩ := @buildLoop_spec b w.sync _ (maxSize_le b.length) behind b.length none w.ops
    (fun u hu => hsound u (List.mem_cons_of_mem _ hu)) hb (iterate_length hb)
  unfold buildBatchGroup
  dsimp only
  generalize buildLoop b w.sync (maxSize b.length) b.length none behind = r at h1 h2 h3 h4
  refine ⟨h1, by rw [h2, List.flatMap_cons], h3, fun u hu hnone => ?_⟩
  obtain ⟨i, hi, rfl⟩ := List.mem_iff_getElem.1 hu
  rw [List.length_take, Nat.lt_min] at hi
  simp only [NullsOutOfReach, hw] at hnulls
  have hget : behind[i]?.bind DbWriter.batch = none := by
    rw [List.getElem?_eq_getElem hi.2, bind_some]
    rwa [List.getElem_take] at hnone
  rcases hnulls i hi.2 hget with ⟨hs, hany⟩ | ⟨hany, hbig⟩
  · obtain ⟨v, hv, hvs⟩ := List.any_eq_true.1 hany
    have hmem : v ∈ behind.take r.2 := (List.take_subset_take_left behind (show i + 1 ≤ r.2 from hi.1)) hv
    rw [h3 v hmem hvs] at hs
    cases hs
  · obtain ⟨v, hv, hvb⟩ := List.any_eq_true.1 hany
    have hmem : v ∈ behind.take r.2 := (List.take_subset_take_left behind (le_of_lt hi.1)) hv
    have hle := h4 (List.any_eq_true.2 ⟨v, hmem, hvb⟩)
    have := totalSize_take_le behind (le_of_lt hi.1)
    omega

/-- What `MakeRoomForWrite` does to the queue: entries may leave `mem_`. -/
structure SameWrites (st st' : WriteQueue) : Prop where
  writers : st'.writers = st.writers
  log : st'.log = st.log
  lastSequence : st'.lastSequence = st.lastSequence
  turns : st'.turns = st.turns
  entries : st'.left ++ st'.mem = st.left ++ st.mem
  left : st.left.length ≤ st'.left.length

theorem SameWrites.refl (st : WriteQueue) : SameWrites st st := ⟨rfl, rfl, rfl, rfl, rfl, le_rfl⟩

/-- **Forced room leaves nothing in `mem_`**, whenever the loop comes to an end. -/
theorem makeRoomForWrite_spec {options : Options} {created : Status} : ∀ (fuel : ℕ) (force allowDelay : Bool) (st : WriteQueue),
    SameWrites st (makeRoomForWrite options fuel force allowDelay created st).2 ∧ ((force = true ∨ st.mem = []) →
      match (makeRoomForWrite options fuel force allowDelay created st).1 with
      | .wait force' _ => force' = true ∨ (makeRoomForWrite options fuel force allowDelay created st).2.mem = []
      | .done s => s = .ok → (makeRoomForWrite options fuel force allowDelay created st).2.mem = []) := by
  intro fuel
  induction fuel with
  | zero => exact fun force allowDelay st => ⟨SameWrites.refl st, id⟩
  | succ fuel ih =>
    intro force allowDelay st
    rw [makeRoomForWrite]
    by_cases h1 : st.bgError ≠ .ok
    · rw [if_pos h1]
      exact ⟨SameWrites.refl st, fun _ hs => absurd hs h1⟩
    rw [if_neg h1]
    by_cases h2 : allowDelay = true ∧ kL0_SlowdownWritesTrigger ≤ st.level0
    · rw [if_pos h2]
      exact ⟨SameWrites.refl st, id⟩
    rw [if_neg h2]
    by_cases h3 : ¬force = true ∧ options.approximateMemoryUsage st.mem ≤ options.writeBufferSize
    · rw [if_pos h3]
      exact ⟨SameWrites.refl st, fun h _ => h.resolve_left h3.1⟩
    rw [if_neg h3]
    by_cases h4 : st.imm.isSome = true
    · rw [if_pos h4]
      exact ⟨SameWrites.refl st, id⟩
    rw [if_neg h4]
    by_cases h5 : kL0_StopWritesTrigger ≤ st.level0
    · rw [if_pos h5]
      exact ⟨SameWrites.refl st, id⟩
    rw [if_neg h5]
    by_cases h6 : created ≠ .ok
    · rw [if_pos h6]
      exact ⟨SameWrites.refl st, fun _ hs => absurd hs h6⟩
    rw [if_neg h6]
    -- the memtable is switched: from here on it is empty
    obtain ⟨h, hroom⟩ := ih false allowDelay st.switchMemTable
    refine ⟨⟨h.writers, h.log, h.lastSequence, h.turns, ?_, ?_⟩, fun _ => hroom (Or.inr rfl)⟩
    · rw [h.entries]
      exact List.append_nil _
    · refine le_trans ?_ h.left
      show st.left.length ≤ (st.left ++ st.mem).length
      rw [List.length_append]
      exact Nat.le_add_right _ _

theorem turnNumbers_append : ∀ (ts : List Turn) (n : ℕ) (t : Turn),
    turnNumbers n (ts ++ [t]) = turnNumbers n ts ++ [(n + numbersTaken ts, t)]
  | [], _, _ => rfl
  | t' :: ts, n, t => by
    rw [List.cons_append, turnNumbers, turnNumbers, turnNumbers_append ts, List.cons_append]
    unfold numbersTaken
    by_cases h : t'.logStatus.isSome = true
    · rw [if_pos h, List.filter_cons, if_pos h, List.flatMap_cons, List.length_append, Nat.add_assoc]
    · rw [if_neg h, List.filter_cons, if_neg h]

theorem numbersTaken_append (ts : List Turn) (t : Turn) :
    numbersTaken (ts ++ [t]) = numbersTaken ts + if t.logStatus.isSome then t.ops.length else 0 := by
  unfold numbersTaken
  rw [List.filter_append, List.flatMap_append, List.length_append]
  congr 1
  by_cases h : t.logStatus.isSome = true
  · rw [if_pos h, List.filter_cons, if_pos h, List.filter_nil, List.flatMap_cons, List.flatMap_nil, List.append_nil]
  · rw [if_neg h, List.filter_cons, if_neg h, List.filter_nil]
    rfl

variable {start : ℕ} {st st' : WriteQueue}

theorem served_turn {t : Turn} (h : Served start st) (hturns : st'.turns = st.turns ++ [t])
    (hlog : st'.log.map (fun record => (sequence record, iterate record)) = st.log.map (fun record => (sequence record, iterate record)) ++
      if t.logStatus = some .ok then [((start + 1 + numbersTaken st.turns) % 2 ^ 64, t.ops, .ok)] else [])
    (hins : st'.left ++ st'.mem = st.left ++ st.mem ++
      if t.status = .ok then memEntries ((start + 1 + numbersTaken st.turns) % 2 ^ 64) t.ops else [])
    (hack : t.status = .ok → (∃ w ∈ t.writers, w.batch ≠ none) → t.logStatus = some .ok)
    (hlast : st'.lastSequence = (start + numbersTaken st.turns + if t.logStatus.isSome then t.ops.length else 0) % 2 ^ 64)
    (hsync : t.logStatus = some .ok → ∀ w ∈ t.writers, w.sync = true → t.syncStatus ≠ none ∧ (t.status = .ok → t.syncStatus = some .ok))
    (hnulls : t.status = .ok → ∀ w ∈ t.writers, w.batch = none → t.writers = [w] ∧ t.inserted ≤ st'.left.length)
    (hleft : st.left.length ≤ st'.left.length) : Served start st' := by
  have hcase : ∀ {P : Turn → Prop}, (∀ t ∈ st.turns, P t) → P t → ∀ t ∈ st'.turns, P t := by
    intro P hall ht t' ht'
    rw [hturns] at ht'
    rcases List.mem_append.1 ht' with ht' | ht'
    · exact hall t' ht'
    · rwa [List.mem_singleton.1 ht']
  refine ⟨?_, ?_, hcase h.acknowledged hack, ?_, hcase h.synced hsync, hcase (fun t' ht' hs w hw hb => ?_) hnulls⟩
  · rw [hlog, h.logged, hturns, turnNumbers_append, List.filter_append, List.map_append]
    congr 1
    by_cases hl : t.logStatus = some .ok
    · rw [if_pos hl, List.filter_cons, if_pos (decide_eq_true hl)]
      rfl
    · rw [if_neg hl, List.filter_cons, if_neg (by simpa using hl)]
      rfl
  · rw [hins, h.inserted, hturns, turnNumbers_append, List.filter_append, List.flatMap_append]
    congr 1
    by_cases hs : t.status = .ok
    · rw [if_pos hs, List.filter_cons, if_pos (decide_eq_true hs), List.filter_nil, List.flatMap_cons, List.flatMap_nil, List.append_nil]
    · rw [if_neg hs, List.filter_cons, if_neg (by simpa using hs)]
      rfl
  · rw [hlast, hturns, numbersTaken_append, Nat.add_assoc]
  · obtain ⟨h1, h2⟩ := h.nulls t' ht' hs w hw hb
    exact ⟨h1, le_trans h2 hleft⟩

theorem served_same (h : Served start st) (hsame : SameWrites st st') : Served start st' := by
  refine ⟨?_, ?_, ?_, ?_, ?_, ?_⟩
  · rw [hsame.log, hsame.turns]
    exact h.logged
  · rw [hsame.entries, hsame.turns]
    exact h.inserted
  · rw [hsame.turns]
    exact h.acknowledged
  · rw [hsame.lastSequence, hsame.turns]
    exact h.last
  · rw [hsame.turns]
    exact h.synced
  · rw [hsame.turns]
    intro t ht hs w hw hb
    obtain ⟨h1, h2⟩ := h.nulls t ht hs w hw hb
    exact ⟨h1, le_trans h2 hsame.left⟩

/-- What is known while the mutex is free. -/
def PhaseSound (st : WriteQueue) : Prop :=
  match st.phase with
  | .idle => True
  | .makingRoom force _ => ∃ w behind, st.writers = w :: behind ∧ (w.batch = none → force = true ∨ st.mem = [])
  | .writing updates lastWriter => ∃ w behind, st.writers = w :: behind ∧ lastWriter ≤ behind.length ∧
      iterate updates = ((w :: behind.take lastWriter).flatMap DbWriter.ops, .ok) ∧
      sequence updates = (st.lastSequence + 1) % 2 ^ 64 ∧ (∀ u ∈ behind.take lastWriter, u.sync = true → w.sync = true) ∧
      ∀ u ∈ w :: behind.take lastWriter, u.batch ≠ none

structure Sound (start : ℕ) (st : WriteQueue) : Prop where
  served : Served start st
  batches : SoundBatches st.writers
  phase : PhaseSound st

variable {options : Options} {start : ℕ} {st st' : WriteQueue} {s : Status}

theorem finish_alone (h : Sound start st) (hw : st.writers = w :: behind)
    (hs : s = .ok → w.batch = none ∧ st.mem = []) : Sound start (st.finish s 0 none none) := by
  have htake : st.writers.take (0 + 1) = [w] := by rw [hw]; rfl
  refine ⟨served_turn h.served (t := ⟨[w], s, none, none, (st.left ++ st.mem).length⟩) ?_ ?_ ?_ ?_ ?_ ?_ ?_ le_rfl, ?_, trivial⟩
  · unfold finish
    rw [htake]
  · rw [if_neg (by simp), List.append_nil]
    rfl
  · by_cases hok : s = .ok
    · have hops : Turn.ops ⟨[w], s, none, none, (st.left ++ st.mem).length⟩ = [] := by
        unfold Turn.ops DbWriter.ops
        rw [List.flatMap_cons, (hs hok).1]
        rfl
      rw [hops, memEntries, ite_self, List.append_nil]
      rfl
    · rw [if_neg hok, List.append_nil]
      rfl
  · rintro hok ⟨u, hu, hne⟩
    rw [List.mem_singleton.1 hu] at hne
    exact absurd (hs hok).1 hne
  · exact h.served.last
  · intro hl
    cases hl
  · intro hok u hu _
    rw [List.mem_singleton.1 hu]
    refine ⟨rfl, ?_⟩
    show (st.left ++ st.mem).length ≤ st.left.length
    rw [(hs hok).2, List.append_nil]
  · intro u hu
    exact h.batches u (List.mem_of_mem_drop hu)

theorem madeRoom_sound (h : Served start st) (hbatches : SoundBatches st.writers)
    (hmem : ∀ w behind, st.writers = w :: behind → w.batch = none → s = .ok → st.mem = [])
    (hnulls : s = .ok → NullsOutOfReach st.writers) (hne : st.writers ≠ []) : Sound start (st.madeRoom s) := by
  unfold madeRoom
  cases hw : st.writers with
  | nil => exact absurd hw hne
  | cons w behind =>
    have hsound : Sound start { st with phase := .idle } :=
      ⟨served_same h ⟨rfl, rfl, rfl, rfl, rfl, le_rfl⟩, hbatches, trivial⟩
    have hfinish : st.finish s 0 none none = WriteQueue.finish { st with phase := .idle } s 0 none none := rfl
    dsimp only
    cases hb : w.batch with
    | none =>
      rw [hfinish]
      exact finish_alone hsound hw fun hs => ⟨hb, hmem w behind hw hb hs⟩
    | some b =>
      dsimp only
      by_cases hs : s = .ok
      · rw [if_pos hs]
        rw [hw] at hbatches hnulls
        obtain ⟨h1, h2, h3, h4⟩ := buildBatchGroup_spec hb hbatches (hnulls hs)
        refine ⟨served_same h ⟨hw.symm, rfl, rfl, rfl, rfl, le_rfl⟩, hbatches,
          w, behind, rfl, h1, iterate_setSequence _ h2, sequence_setSequence _, h3, ?_⟩
        exact List.forall_mem_cons.2 ⟨by rw [hb]; exact some_ne_none b, h4⟩
      · rw [if_neg hs, hfinish]
        exact finish_alone hsound hw fun hok => absurd hok hs

theorem writeGroup_sound {updates : WriteBatch} {lastWriter : ℕ} {added synced : Status}
    (h : Sound start st) (hp : st.phase = .writing updates lastWriter) (hw : st.writers = w :: behind) :
    Sound start (st.writeGroup updates lastWriter w.sync added synced) := by
  have hphase := h.phase
  unfold PhaseSound at hphase
  rw [hp] at hphase
  obtain ⟨w', behind', hw', hlast, hops, hseq, hsync, hne⟩ := hphase
  rw [hw] at hw'
  obtain ⟨rfl, rfl⟩ := List.cons.inj hw'
  have htake : st.writers.take (lastWriter + 1) = w :: behind.take lastWriter := by rw [hw, List.take_succ_cons]
  have hcount : count updates = (((w :: behind.take lastWriter).flatMap DbWriter.ops).length : ℤ) := (iterate_ok hops).2.2.symm
  have hnum : sequence updates = (start + 1 + numbersTaken st.turns) % 2 ^ 64 := by
    rw [hseq, h.served.last]
    omega
  unfold writeGroup
  dsimp only
  obtain ⟨status, hstatus⟩ : ∃ status, (if added = .ok ∧ w.sync = true then synced else added) = status := ⟨_, rfl⟩
  rw [hstatus]
  have hinserted : (if status = .ok then insertInto updates else ([], status)) =
      (if status = .ok then memEntries (sequence updates) ((w :: behind.take lastWriter).flatMap DbWriter.ops) else [], status) := by
    by_cases hs : status = .ok
    · rw [if_pos hs, if_pos hs]
      unfold insertInto
      rw [hops, hs]
    · rw [if_neg hs, if_neg hs]
  rw [hinserted]
  -- a status that is an OK is that of AddRecord, and of Sync if it is called
  have hadded : status = .ok → added = .ok := by
    intro hs
    by_contra hne
    rw [if_neg (fun hc => hne hc.1)] at hstatus
    exact hne (hstatus.trans hs)
  refine ⟨served_turn h.served (t := ⟨w :: behind.take lastWriter, status, some added, if added = .ok ∧ w.sync = true then some synced else none,
    (st.left ++ (st.mem ++ if status = .ok then memEntries (sequence updates) ((w :: behind.take lastWriter).flatMap DbWriter.ops) else [])).length⟩)
    ?_ ?_ ?_ ?_ ?_ ?_ ?_ le_rfl, ?_, trivial⟩
  · unfold finish
    rw [htake]
  · unfold finish
    dsimp only
    rw [← hnum]
    by_cases ha : added = .ok
    · rw [if_pos ha, if_pos (congrArg some ha), List.map_append, List.map_cons, List.map_nil, hops]
      rfl
    · rw [if_neg ha, if_neg (fun hc => ha (Option.some.inj hc)), List.append_nil]
  · rw [← hnum, List.append_assoc]
    rfl
  · intro hs _
    exact congrArg some (hadded hs)
  · unfold finish
    rw [if_pos (show (some added).isSome = true from rfl), hcount, h.served.last]
    unfold Turn.ops
    dsimp only
    omega
  · intro hl u hu hus
    have ha : added = .ok := Option.some.inj hl
    have hws : w.sync = true := by
      rcases List.mem_cons.1 hu with rfl | hu
      · exact hus
      · exact hsync u hu hus
    rw [if_pos ⟨ha, hws⟩] at hstatus
    rw [if_pos ⟨ha, hws⟩]
    exact ⟨some_ne_none _, fun hs => congrArg some (hstatus.trans hs)⟩
  · intro _ u hu hnone
    exact absurd hnone (hne u hu)
  · intro u hu
    exact h.batches u (List.mem_of_mem_drop hu)

/-- The front goes on behind `MakeRoomForWrite`, without an error. -/
def makesRoom (options : Options) (st : WriteQueue) (created : Status) : Bool :=
  match st.roomArgs with
  | none => false
  | some (force, allowDelay) =>
    match (makeRoomForWrite options 2 force allowDelay created st).1 with
    | .done s => decide (s = .ok)
    | .wait _ _ => false

/-- No group is made that takes in a call without a batch. -/
def NullsAlone (options : Options) (st : WriteQueue) : QueueEvent → Prop
  | .wake created => st.makesRoom options created = true → NullsOutOfReach st.writers
  | _ => True

instance (options : Options) (st : WriteQueue) : (ev : QueueEvent) → Decidable (NullsAlone options st ev)
  | .wake _ => inferInstanceAs (Decidable (_ → _))
  | .arrive _ | .write _ _ | .background _ _ _ => inferInstanceAs (Decidable True)

theorem wake_sound {created : Status} (h : Sound start st) (hstep : st.step options (.wake created) = some st')
    (hnulls : NullsAlone options st (.wake created)) : Sound start st' := by
  rw [step] at hstep
  cases hargs : st.roomArgs with
  | none =>
    rw [hargs] at hstep
    cases hstep
  | some args =>
    obtain ⟨force, allowDelay⟩ := args
    rw [hargs] at hstep
    dsimp only at hstep
    have hdone : ∀ s, (makeRoomForWrite options 2 force allowDelay created st).1 = .done s → s = .ok → NullsOutOfReach st.writers := by
      intro s hr hs
      apply hnulls
      unfold makesRoom
      rw [hargs]
      dsimp only
      rw [hr]
      exact decide_eq_true hs
    -- a front without a batch asks for forced room, or has got it already
    have hfront : ∃ w behind, st.writers = w :: behind ∧ (w.batch = none → force = true ∨ st.mem = []) := by
      have hphase := h.phase
      unfold roomArgs at hargs
      unfold PhaseSound at hphase
      cases hp : st.phase with
      | idle =>
        cases hw : st.writers with
        | nil => rw [hp, hw] at hargs; cases hargs
        | cons w behind =>
          rw [hp, hw] at hargs
          obtain ⟨rfl, -⟩ := Prod.mk.inj (Option.some.inj hargs)
          exact ⟨w, behind, rfl, fun hb => Or.inl (by rw [hb]; rfl)⟩
      | makingRoom f a =>
        rw [hp] at hargs hphase
        obtain ⟨rfl, -⟩ := Prod.mk.inj (Option.some.inj hargs)
        exact hphase
      | writing updates lastWriter =>
        rw [hp] at hargs
        cases hargs
    obtain ⟨w, behind, hw, hforce⟩ := hfront
    obtain ⟨hsame, hroom⟩ := @makeRoomForWrite_spec options created 2 force allowDelay st
    generalize makeRoomForWrite options 2 force allowDelay created st = r at hstep hsame hroom hdone
    obtain ⟨room, st₁⟩ := r
    have hbatches : SoundBatches st₁.writers := by
      rw [hsame.writers]
      exact h.batches
    cases room with
    | wait force' allowDelay' =>
      obtain rfl := Option.some.inj hstep
      refine ⟨served_same h.served ⟨hsame.writers, hsame.log, hsame.lastSequence, hsame.turns, hsame.entries, hsame.left⟩, hbatches, ?_⟩
      exact ⟨w, behind, hsame.writers.trans hw, fun hb => hroom (hforce hb)⟩
    | done s =>
      obtain rfl := Option.some.inj hstep
      refine madeRoom_sound (served_same h.served hsame) hbatches (fun w' behind' hw' hb hs => ?_) (fun hs => ?_) ?_
      · rw [hsame.writers, hw] at hw'
        obtain ⟨rfl, -⟩ := List.cons.inj hw'
        exact hroom (hforce hb) hs
      · rw [hsame.writers]
        exact hdone s rfl hs
      · rw [hsame.writers, hw]
        exact List.cons_ne_nil _ _

theorem arrive_sound (h : Sound start st) (hw : w.batch.all (fun b => decide ((iterate b).2 = Status.ok)) = true) :
    Sound start { st with writers := st.writers ++ [w] } := by
  have hops : ∀ b, w.batch = some b → iterate b = (w.ops, .ok) := by
    intro b hb
    rw [hb, all_some] at hw
    unfold DbWriter.ops
    rw [hb]
    exact Prod.ext rfl (of_decide_eq_true hw)
  refine ⟨⟨h.served.logged, h.served.inserted, h.served.acknowledged, h.served.last, h.served.synced, h.served.nulls⟩, ?_, ?_⟩
  · intro u hu
    rcases List.mem_append.1 hu with hu | hu
    · exact h.batches u hu
    · rw [List.mem_singleton.1 hu]
      exact hops
  · have hphase := h.phase
    unfold PhaseSound at hphase ⊢
    cases hp : st.phase with
    | idle => trivial
    | makingRoom force allowDelay =>
      rw [hp] at hphase
      obtain ⟨v, behind, hv, hrest⟩ := hphase
      exact ⟨v, behind ++ [w], by rw [hv]; rfl, hrest⟩
    | writing updates lastWriter =>
      rw [hp] at hphase
      obtain ⟨v, behind, hv, hlast, hrest⟩ := hphase
      refine ⟨v, behind ++ [w], by rw [hv]; rfl, le_trans hlast (by rw [List.length_append]; exact Nat.le_add_right _ _), ?_⟩
      rw [List.take_append_of_le_length hlast]
      exact hrest

variable {ev : QueueEvent}

theorem step_sound (h : Sound start st) (hstep : st.step options ev = some st') (hnulls : NullsAlone options st ev) : Sound start st' := by
  cases ev with
  | arrive w =>
    rw [step] at hstep
    by_cases hb : w.batch.all (fun b => decide ((iterate b).2 = Status.ok)) = true
    · rw [if_pos hb] at hstep
      obtain rfl := Option.some.inj hstep
      exact arrive_sound h hb
    · rw [if_neg hb] at hstep
      cases hstep
  | wake created => exact wake_sound h hstep hnulls
  | write added synced =>
    rw [step] at hstep
    cases hp : st.phase with
    | idle => rw [hp] at hstep; cases hstep
    | makingRoom force allowDelay => rw [hp] at hstep; cases hstep
    | writing updates lastWriter =>
      cases hw : st.writers with
      | nil => rw [hp, hw] at hstep; cases hstep
      | cons w behind =>
        rw [hp, hw] at hstep
        obtain rfl := Option.some.inj hstep
        exact writeGroup_sound h hp hw
  | background immDone level0 error =>
    obtain rfl := Option.some.inj hstep
    exact ⟨served_same h.served ⟨rfl, rfl, rfl, rfl, rfl, le_rfl⟩, h.batches, h.phase⟩

def calls (st : WriteQueue) : List DbWriter := st.turns.flatMap Turn.writers ++ st.writers

theorem finish_calls (st : WriteQueue) (s : Status) (lastWriter : ℕ) (logStatus syncStatus : Option Status) :
    (st.finish s lastWriter logStatus syncStatus).calls = st.calls := by
  unfold calls finish
  rw [List.flatMap_append, List.flatMap_cons, List.flatMap_nil, List.append_nil, List.append_assoc, List.take_append_drop]

def arriving : QueueEvent → List DbWriter
  | .arrive w => [w]
  | .wake _ | .write _ _ | .background _ _ _ => []

/-- **No call is lost**, and none has two turns. -/
theorem step_calls (hstep : st.step options ev = some st') : st'.calls = st.calls ++ arriving ev := by
  cases ev with
  | arrive w =>
    rw [step] at hstep
    by_cases hb : w.batch.all (fun b => decide ((iterate b).2 = Status.ok)) = true
    · rw [if_pos hb] at hstep
      obtain rfl := Option.some.inj hstep
      exact (List.append_assoc _ _ _).symm
    · rw [if_neg hb] at hstep
      cases hstep
  | wake created =>
    rw [step] at hstep
    cases hargs : st.roomArgs with
    | none => rw [hargs] at hstep; cases hstep
    | some args =>
      rw [hargs] at hstep
      dsimp only at hstep
      obtain ⟨hsame, -⟩ := @makeRoomForWrite_spec options created 2 args.1 args.2 st
      generalize makeRoomForWrite options 2 args.1 args.2 created st = r at hstep hsame
      obtain ⟨room, st₁⟩ := r
      have hcalls : st₁.calls = st.calls := by
        unfold calls
        rw [hsame.turns, hsame.writers]
      rw [arriving, List.append_nil, ← hcalls]
      cases room with
      | wait force allowDelay =>
        obtain rfl := Option.some.inj hstep
        rfl
      | done s =>
        obtain rfl := Option.some.inj hstep
        unfold madeRoom
        cases hw : st₁.writers with
        | nil => rfl
        | cons w behind =>
          dsimp only
          cases w.batch with
          | none => exact finish_calls _ _ _ _ _
          | some b =>
            dsimp only
            by_cases hs : s = .ok
            · rw [if_pos hs]
              unfold calls
              rw [hw]
            · rw [if_neg hs]
              exact finish_calls _ _ _ _ _
  | write added synced =>
    rw [step] at hstep
    cases hp : st.phase with
    | idle => rw [hp] at hstep; cases hstep
    | makingRoom force allowDelay => rw [hp] at hstep; cases hstep
    | writing updates lastWriter =>
      cases hw : st.writers with
      | nil => rw [hp, hw] at hstep; cases hstep
      | cons w behind =>
        rw [hp, hw] at hstep
        obtain rfl := Option.some.inj hstep
        rw [arriving, List.append_nil]
        unfold writeGroup
        rw [finish_calls]
        rfl
  | background immDone level0 error =>
    obtain rfl := Option.some.inj hstep
    exact (List.append_nil _).symm

/-- No step of a run makes a group that takes in a call without a batch. -/
@[grind =] def NullsAloneRun (options : Options) : WriteQueue → List QueueEvent → Prop
  | _, [] => True
  | st, ev :: evs => NullsAlone options st ev ∧ (st.step options ev).elim True fun st => NullsAloneRun options st evs

instance instDecidableNullsAloneRun (options : Options) : (st : WriteQueue) → (evs : List QueueEvent) → Decidable (NullsAloneRun options st evs)
  | _, [] => inferInstanceAs (Decidable True)
  | st, ev :: evs =>
    have : Decidable ((st.step options ev).elim True fun st => NullsAloneRun options st evs) :=
      match st.step options ev with
      | none => inferInstanceAs (Decidable True)
      | some st => instDecidableNullsAloneRun options st evs
    inferInstanceAs (Decidable (_ ∧ _))

theorem run_sound : ∀ (evs : List QueueEvent) {st : WriteQueue}, Sound start st → NullsAloneRun options st evs →
    st.run options evs = some st' → Sound start st' ∧ st'.calls = st.calls ++ evs.flatMap arriving
  | [], st, h, _, hrun => by
    obtain rfl := Option.some.inj hrun
    exact ⟨h, (List.append_nil _).symm⟩
  | ev :: evs, st, h, ⟨hev, hevs⟩, hrun => by
    rw [run] at hrun
    cases hstep : st.step options ev with
    | none =>
      rw [hstep] at hrun
      cases hrun
    | some st₁ =>
      rw [hstep] at hrun hevs
      obtain ⟨h1, h2⟩ := run_sound evs (step_sound h hstep hev) hevs hrun
      exact ⟨h1, by rw [h2, step_calls hstep, List.append_assoc, List.flatMap_cons]⟩

theorem run_served (options : Options) {start : ℕ} (level0 : ℕ) {evs : List QueueEvent} {st : WriteQueue} (hstart : start < 2 ^ 64)
    (hrun : (new start level0).run options evs = some st) (hnulls : NullsAloneRun options (new start level0) evs) :
    Served start st ∧ st.calls = evs.flatMap arriving := by
  have hnew : Sound start (new start level0) := by
    refine ⟨⟨rfl, rfl, ?_, ?_, ?_, ?_⟩, ?_, trivial⟩
    · exact fun t ht => (List.not_mem_nil ht).elim
    · exact (Nat.mod_eq_of_lt hstart).symm
    · exact fun t ht => (List.not_mem_nil ht).elim
    · exact fun t ht => (List.not_mem_nil ht).elim
    · exact fun w hw => (List.not_mem_nil hw).elim
  obtain ⟨h1, h2⟩ := run_sound evs hnew hnulls hrun
  exact ⟨h1.served, h2⟩

def smallOptions : Options := ⟨false, 1000, List.length, fun a b => decide (a.tag ≤ b.tag)⟩

/-- A `Put` of one byte, and a call without a batch. -/
def putCall (k : UInt8) : DbWriter := ⟨some (put clear [k] [k]), false⟩

def nullCall : DbWriter := ⟨none, false⟩

/-- Two puts in one group, and then a call without a batch: the memtable is empty. -/
theorem run_served_null : ∃ st, (new 7 0).run smallOptions [.arrive (putCall 1), .arrive (putCall 2), .wake .ok, .write .ok .ok,
      .arrive nullCall, .wake .ok] = some st ∧ st.mem = [] ∧ st.lastSequence = 9 ∧ Served 7 st := by
  obtain ⟨st, hst⟩ : ∃ st, (new 7 0).run smallOptions [.arrive (putCall 1), .arrive (putCall 2), .wake .ok, .write .ok .ok,
    .arrive nullCall, .wake .ok] = some st := isSome_iff_exists.1 (by decide)
  have hserved := (run_served smallOptions 0 (by decide) hst (by decide)).1
  have hmem : (((new 7 0).run smallOptions [.arrive (putCall 1), .arrive (putCall 2), .wake .ok, .write .ok .ok,
    .arrive nullCall, .wake .ok]).map fun st => (st.mem, st.lastSequence)) = some ([], 9) := by decide
  rw [hst] at hmem
  obtain ⟨h1, h2⟩ := Prod.mk.inj (Option.some.inj hmem)
  exact ⟨st, hst, h1, h2, hserved⟩

/-- A call without a batch behind a put, in the group of that put: it returns an OK, and all entries are in `mem_`. -/
theorem run_absorbs_null : ∃ st, (new 0 0).run smallOptions [.arrive (putCall 1), .wake .ok, .arrive (putCall 2), .arrive nullCall,
      .write .ok .ok, .wake .ok, .write .ok .ok] = some st ∧ st.left = [] ∧ st.mem.length = 2 ∧ ¬Served 0 st := by
  obtain ⟨st, hst⟩ : ∃ st, (new 0 0).run smallOptions [.arrive (putCall 1), .wake .ok, .arrive (putCall 2), .arrive nullCall,
    .write .ok .ok, .wake .ok, .write .ok .ok] = some st := isSome_iff_exists.1 (by decide)
  have hend : (((new 0 0).run smallOptions [.arrive (putCall 1), .wake .ok, .arrive (putCall 2), .arrive nullCall,
      .write .ok .ok, .wake .ok, .write .ok .ok]).map fun st => (st.left, st.mem.length, st.turns)) =
      some ([], 2, [⟨[putCall 1], .ok, some .ok, none, 1⟩, ⟨[putCall 2, nullCall], .ok, some .ok, none, 2⟩]) := by decide
  rw [hst] at hend
  obtain ⟨h1, h2⟩ := Prod.mk.inj (Option.some.inj hend)
  obtain ⟨h2, h3⟩ := Prod.mk.inj h2
  refine ⟨st, hst, h1, h2, fun h => ?_⟩
  have hturn := h.nulls ⟨[putCall 2, nullCall], .ok, some .ok, none, 2⟩ (by rw [h3]; simp) rfl nullCall (by simp) rfl
  exact absurd hturn.1 (by decide)

end WriteQueue

end KVStores.LevelDb
