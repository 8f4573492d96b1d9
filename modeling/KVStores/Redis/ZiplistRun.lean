import KVStores.Redis.ZiplistWalk

/-!
# Runs of ziplist calls

* `ziplist_run`: **a ziplist is the list of its strings** in every run in which no insertion resizes it to fewer bytes than it has.
* `ziplist_run_shrinks`: a run in which one does loses the end of the last entry.
-/

namespace KVStores.Redis.Ziplist

open List

/-- A call: an entry at one end; in front of the entry `i`, or at the end byte; the entry `i` deleted, if there is one; some deleted. -/
inductive ZipCall
  | push (s : List UInt8) (head : Bool)
  | insert (i : ℕ) (s : List UInt8)
  | delete (i : ℕ)
  | deleteRange (index : ℤ) (num : ℕ)

@[grind =] def zipStep (fill : ℕ → UInt8) (zl : List UInt8) : ZipCall → Except ZipFault (List UInt8)
  | .push s head => ziplistPush fill zl s head
  | .insert i s => (pointer zl i).bind fun p => ziplistInsert fill zl p s
  | .delete i => (Ziplist.ziplistIndex zl i).bind fun p => p.elim (.ok zl) (ziplistDelete fill zl)
  | .deleteRange index num => Ziplist.ziplistDeleteRange fill zl index num

@[grind =] def ZipCall.apply (l : List (List UInt8)) : ZipCall → List (List UInt8)
  | .push s true => s :: l
  | .push s false => l ++ [s]
  | .insert i s => l.take i ++ s :: l.drop i
  | .delete i => l.take i ++ l.drop (i + 1)
  | .deleteRange index num =>
    if 0 ≤ index then l.take index.toNat ++ l.drop (index.toNat + num)
    else if 0 ≤ l.length + index then l.take (l.length + index).toNat ++ l.drop ((l.length + index).toNat + num)
    else l

/-- The entry at `p` has a short length in five bytes, and the new one takes fewer than the four that it gives up. -/
def shrinks (zl : List UInt8) (p : ℕ) (s : List UInt8) : Bool :=
  match zipDecodePrevlen zl p with
  | .ok prev => decide (prev.1 = 5 ∧ prev.2 < zipBiglen ∧ (zipPayload s).length < 3)
  | .error _ => false

/-- A call that does not resize the block to fewer bytes before it has moved them. -/
def ZipCall.tame (zl : List UInt8) : ZipCall → Bool
  | .push s head => !shrinks zl (if head then ziplistHeaderSize else ziplistBytes zl - 1) s
  | .insert i s => match pointer zl i with
    | .ok p => !shrinks zl p s
    | .error _ => true
  | _ => true

/-- A call, and what the memory that it gets contains. -/
abbrev ZipCallIn := ZipCall × (ℕ → UInt8)

/-- In every state the block has the strings that the list has, and no call fails, but for one that needs 2³² bytes. -/
@[grind =] def ZipRunOk : List UInt8 → List (List UInt8) → List ZipCallIn → Prop
  | zl, l, [] => ZipOk zl l
  | zl, l, c :: cs => ZipOk zl l ∧
      (zipStep c.2 zl c.1 = .error .tooLarge ∨ ∃ zl', zipStep c.2 zl c.1 = .ok zl' ∧ ZipRunOk zl' (c.1.apply l) cs)

@[grind =] def zipRunTame : List UInt8 → List ZipCallIn → Bool
  | _, [] => true
  | zl, c :: cs => c.1.tame zl && match zipStep c.2 zl c.1 with
    | .ok zl => zipRunTame zl cs
    | .error _ => true

variable {l la lr : List ZipItem} {zl s : List UInt8}

/-- **An entry is inserted.** -/
theorem insert_spec (fill : ℕ → UInt8) (s : List UInt8) (h : Holds zl (la ++ lr)) (htame : shrinks zl (10 + size la) s = false) :
    ∃ l, l.map ZipItem.str = la.map ZipItem.str ++ s :: lr.map ZipItem.str ∧ Leaves (ziplistInsert fill zl (10 + size la) s) l := by
  obtain ⟨b, t, n, hfits, hchain, hcount, rfl⟩ := h
  cases lr with
  | nil =>
    rw [append_nil] at hfits hchain hcount ⊢
    refine ⟨_, ?_, insertEnd_spec fill hfits hchain hcount s⟩
    rw [map_append]
    rfl
  | cons nx lb =>
    have hnx := (chainOk_append.1 hchain).2.1
    have hprev := zipDecodePrevlen_at (a := header b t n ++ chain 0 la) (c := zipPayload nx.str ++ (chain nx.rawLen lb ++ [zipEnd])) hnx.1
    rw [← append_assoc (prevField _ _), ← nx.bytes_eq, ← block_at, ← place_at] at hprev
    have hroom : prevSize nx.large ≤ (newItem s (lastLen 0 la)).rawLen + prevSize (nx.behind (newItem s (lastLen 0 la)).rawLen).large := by
      rw [shrinks, hprev] at htame
      have hnot := of_decide_eq_false htame
      by_contra hc
      have hraw : (newItem s (lastLen 0 la)).rawLen = prevSize (decide (zipBiglen ≤ lastLen 0 la)) + (zipPayload s).length := rfl
      have hpos : 1 ≤ prevSize (nx.behind (newItem s (lastLen 0 la)).rawLen).large := by
        unfold prevSize
        split_ifs <;> decide
      have hlarge : nx.large = true := by
        cases hl : nx.large with
        | true => rfl
        | false =>
          rw [hl] at hc
          exact absurd (hpos.trans (Nat.le_add_left _ _)) hc
      have hfive : prevSize nx.large = 5 := by
        rw [hlarge]
        rfl
      by_cases hbig : zipBiglen ≤ lastLen 0 la
      · rw [decide_eq_true hbig] at hraw
        change _ = 5 + _ at hraw
        omega
      · rw [decide_eq_false hbig] at hraw
        change _ = 1 + _ at hraw
        exact hnot ⟨hfive, not_le.1 hbig, by omega⟩
    refine ⟨_, ?_, insertMiddle_spec fill hfits hchain hcount s hroom⟩
    rw [map_append, map_cons, map_cons, map_cons, cascaded_str]
    rfl

theorem delete_spec (fill : ℕ → UInt8) (i num : ℕ) (h : Holds zl l) (hi : i < l.length) :
    ∃ l', l'.map ZipItem.str = (l.map ZipItem.str).take i ++ (l.map ZipItem.str).drop (i + num) ∧
      Leaves (ziplistDeleteEntries fill zl (10 + size (l.take i)) num) l' := by
  rw [← take_append_drop i l] at h
  obtain ⟨l', h1, h2⟩ := deleteEntries_spec fill num h fun hc => by
    rw [drop_eq_nil_iff] at hc
    omega
  refine ⟨l', ?_, h2⟩
  rw [h1, drop_drop, map_append, map_take, map_drop]

theorem take_drop_end {α : Type} {l : List α} {i k : ℕ} (h : l.length ≤ i) : l.take i ++ l.drop (i + k) = l := by
  rw [take_of_length_le h, drop_eq_nil_of_le (h.trans (Nat.le_add_right i k)), append_nil]

/-- **A call on a ziplist** does what it does on a list. -/
theorem zipStep_spec (fill : ℕ → UInt8) (c : ZipCall) (h : Holds zl l) (htame : c.tame zl = true) :
    ∃ l', l'.map ZipItem.str = c.apply (l.map ZipItem.str) ∧ Leaves (zipStep fill zl c) l' := by
  obtain ⟨b, t, n, hfits, hchain, hcount, hzl⟩ := id h
  have hbytes : ziplistBytes zl = b := by rw [hzl, ziplistBytes_header hfits.lt]
  have hpointer : ∀ i, pointer zl i = .ok (10 + size (l.take i)) := fun i => by rw [hzl, pointer_spec hchain]
  cases c with
  | push s head =>
    cases head with
    | true =>
      have hshrinks : shrinks zl (10 + size []) s = false := by simpa [ZipCall.tame, ziplistHeaderSize] using htame
      have h' : Holds zl ([] ++ l) := h
      exact insert_spec fill s h' hshrinks
    | false =>
      have hend : ziplistBytes zl - 1 = 10 + size l := by
        have hb := hfits.bytes
        rw [length_nil] at hb
        omega
      have hshrinks : shrinks zl (10 + size l) s = false := by
        rw [← hend]
        simpa [ZipCall.tame] using htame
      rw [← append_nil l] at h
      obtain ⟨l', h1, h2⟩ := insert_spec fill s h hshrinks
      rw [← hend] at h2
      exact ⟨l', h1, h2⟩
  | insert i s =>
    have hshrinks : shrinks zl (10 + size (l.take i)) s = false := by
      rw [ZipCall.tame, hpointer] at htame
      simpa using htame
    rw [← take_append_drop i l] at h
    obtain ⟨l', h1, h2⟩ := insert_spec fill s h hshrinks
    refine ⟨l', ?_, ?_⟩
    · rw [h1, map_take, map_drop]
      rfl
    · rw [zipStep, hpointer, ok_bind]
      exact h2
  | delete i =>
    have hindex : Ziplist.ziplistIndex zl i = .ok (if i < l.length then some (10 + size (l.take i)) else none) := by
      rw [hzl, ziplistIndex_front hchain (Int.natCast_nonneg i), Int.toNat_natCast]
    rw [zipStep, hindex, ok_bind, ZipCall.apply]
    by_cases hi : i < l.length
    · rw [if_pos hi]
      exact delete_spec fill i 1 h hi
    · rw [if_neg hi, take_drop_end (by rw [length_map]; exact not_lt.1 hi)]
      exact ⟨l, rfl, Or.inr ⟨zl, rfl, h⟩⟩
  | deleteRange index num =>
    rw [zipStep, Ziplist.ziplistDeleteRange, ZipCall.apply, length_map]
    by_cases hindex : 0 ≤ index
    · rw [hzl, ziplistIndex_front hchain hindex, ok_bind, if_pos hindex, ← hzl]
      by_cases hi : index.toNat < l.length
      · rw [if_pos hi]
        exact delete_spec fill _ num h hi
      · rw [if_neg hi, take_drop_end (by rw [length_map]; exact not_lt.1 hi)]
        exact ⟨l, rfl, Or.inr ⟨zl, rfl, h⟩⟩
    · rw [hzl, ziplistIndex_back hfits hchain (not_le.1 hindex), ok_bind, if_neg hindex, ← hzl]
      by_cases hin : 0 ≤ l.length + index
      · rw [if_pos hin, if_pos hin]
        exact delete_spec fill _ num h (by omega)
      · rw [if_neg hin, if_neg hin]
        exact ⟨l, rfl, Or.inr ⟨zl, rfl, h⟩⟩

theorem ziplistNew_holds : Holds ziplistNew [] :=
  ⟨11, 10, 0, ⟨rfl, by decide, rfl⟩, trivial, Or.inr ⟨rfl, by decide⟩, rfl⟩

theorem ziplist_run_from : ∀ (cs : List ZipCallIn) {zl : List UInt8} {l : List ZipItem}, Holds zl l → zipRunTame zl cs = true →
    ZipRunOk zl (l.map ZipItem.str) cs := by
  intro cs
  induction cs with
  | nil =>
    intro zl l h _
    exact h.ok
  | cons c cs ih =>
    intro zl l h htame
    rw [zipRunTame, Bool.and_eq_true] at htame
    obtain ⟨htame, hrest⟩ := htame
    obtain ⟨l', h1, h2⟩ := zipStep_spec c.2 c.1 h htame
    refine ⟨h.ok, ?_⟩
    rcases h2 with h2 | ⟨zl', h2, h3⟩
    · exact Or.inl h2
    · rw [← h1]
      rw [h2] at hrest
      exact Or.inr ⟨zl', h2, ih h3 hrest⟩

theorem ziplist_run (cs : List ZipCallIn) (htame : zipRunTame ziplistNew cs = true) : ZipRunOk ziplistNew [] cs :=
  ziplist_run_from cs ziplistNew_holds htame

@[grind =] def zipRun : List UInt8 → List ZipCallIn → Except ZipFault (List UInt8)
  | zl, [] => .ok zl
  | zl, c :: cs => (zipStep c.2 zl c.1).bind fun zl => zipRun zl cs

theorem ZipRunOk.end : ∀ {cs : List ZipCallIn} {zl : List UInt8} {l : List (List UInt8)}, ZipRunOk zl l cs →
    zipRun zl cs = .error .tooLarge ∨ (zipRun zl cs).bind forwards = .ok (cs.foldl (fun l c => c.1.apply l) l) := by
  intro cs
  induction cs with
  | nil =>
    intro zl l h
    exact Or.inr h.forward
  | cons c cs ih =>
    intro zl l h
    rcases h.2 with h1 | ⟨zl', h1, h2⟩
    · left
      rw [zipRun, h1]
      rfl
    · rw [zipRun, h1, ok_bind, foldl_cons]
      exact ih h2

theorem zipRunTame_cons {zl zl' : List UInt8} {c : ZipCallIn} {cs : List ZipCallIn} (htame : c.1.tame zl = true)
    (hstep : zipStep c.2 zl c.1 = .ok zl') (hcs : zipRunTame zl' cs = true) : zipRunTame zl (c :: cs) = true := by
  rw [zipRunTame, htame, hstep, Bool.true_and]
  exact hcs

/-- An ordinary run: an entry that needs five bytes for the length of the one before it, and one that does so no longer. -/
theorem ziplist_run_plain : ZipRunOk ziplistNew [] [(.push (List.replicate 252 97) false, fun _ => 0), (.push [49, 50] false, fun _ => 0),
    (.insert 1 [45, 49], fun _ => 0), (.delete 0, fun _ => 0), (.deleteRange (-1) 1, fun _ => 0)] := by
  have h1 : zipStep (fun _ => 0) ziplistNew (.push (List.replicate 252 97) false) =
      .ok ([10, 1, 0, 0, 10, 0, 0, 0, 1, 0, 0, 64, 252] ++ List.replicate 252 97 ++ [255]) := by decide +kernel
  have h2 : zipStep (fun _ => 0) ([10, 1, 0, 0, 10, 0, 0, 0, 1, 0, 0, 64, 252] ++ List.replicate 252 97 ++ [255]) (.push [49, 50] false) =
      .ok ([16, 1, 0, 0, 9, 1, 0, 0, 2, 0, 0, 64, 252] ++ List.replicate 252 97 ++ [254, 255, 0, 0, 0, 253, 255]) := by decide +kernel
  have h3 : zipStep (fun _ => 0) ([16, 1, 0, 0, 9, 1, 0, 0, 2, 0, 0, 64, 252] ++ List.replicate 252 97 ++ [254, 255, 0, 0, 0, 253, 255])
      (.insert 1 [45, 49]) = .ok ([19, 1, 0, 0, 16, 1, 0, 0, 3, 0, 0, 64, 252] ++ List.replicate 252 97 ++
        [254, 255, 0, 0, 0, 254, 255, 7, 253, 255]) := by decide +kernel
  have h4 : zipStep (fun _ => 0) ([19, 1, 0, 0, 16, 1, 0, 0, 3, 0, 0, 64, 252] ++ List.replicate 252 97 ++
      [254, 255, 0, 0, 0, 254, 255, 7, 253, 255]) (.delete 0) = .ok [16, 0, 0, 0, 13, 0, 0, 0, 2, 0, 0, 254, 255, 3, 253, 255] := by decide +kernel
  refine ziplist_run _ (zipRunTame_cons (by decide +kernel) h1 (zipRunTame_cons (by decide +kernel) h2 (zipRunTame_cons ?_ h3
    (zipRunTame_cons (by decide) h4 (by decide)))))
  decide +kernel

def shrinkRun : List ZipCallIn :=
  [(.push (List.replicate 252 97) false, fun _ => 0), (.push (List.replicate 247 98) false, fun _ => 0), (.push [99] false, fun _ => 0),
    (.delete 0, fun _ => 0), (.insert 1 [120], fun _ => 0)]

theorem ziplist_run_shrinks : ¬ ZipRunOk ziplistNew [] shrinkRun := by
  have h1 : zipStep (fun _ => 0) ziplistNew (.push (List.replicate 252 97) false) =
      .ok ([10, 1, 0, 0, 10, 0, 0, 0, 1, 0, 0, 64, 252] ++ List.replicate 252 97 ++ [255]) := by decide +kernel
  have h2 : zipStep (fun _ => 0) ([10, 1, 0, 0, 10, 0, 0, 0, 1, 0, 0, 64, 252] ++ List.replicate 252 97 ++ [255])
      (.push (List.replicate 247 98) false) = .ok ([8, 2, 0, 0, 9, 1, 0, 0, 2, 0, 0, 64, 252] ++ List.replicate 252 97 ++
        ([254, 255, 0, 0, 0, 64, 247] ++ List.replicate 247 98 ++ [255])) := by decide +kernel
  have h3 : zipStep (fun _ => 0) ([8, 2, 0, 0, 9, 1, 0, 0, 2, 0, 0, 64, 252] ++ List.replicate 252 97 ++
      ([254, 255, 0, 0, 0, 64, 247] ++ List.replicate 247 98 ++ [255])) (.push [99] false) =
        .ok ([15, 2, 0, 0, 7, 2, 0, 0, 3, 0, 0, 64, 252] ++ List.replicate 252 97 ++
          ([254, 255, 0, 0, 0, 64, 247] ++ List.replicate 247 98 ++ [254, 254, 0, 0, 0, 1, 99, 255])) := by decide +kernel
  have h4 : zipStep (fun _ => 0) ([15, 2, 0, 0, 7, 2, 0, 0, 3, 0, 0, 64, 252] ++ List.replicate 252 97 ++
      ([254, 255, 0, 0, 0, 64, 247] ++ List.replicate 247 98 ++ [254, 254, 0, 0, 0, 1, 99, 255])) (.delete 0) =
        .ok ([12, 1, 0, 0, 4, 1, 0, 0, 2, 0, 0, 64, 247] ++ List.replicate 247 98 ++ [254, 250, 0, 0, 0, 1, 99, 255]) := by decide +kernel
  have h5 : zipStep (fun _ => 0) ([12, 1, 0, 0, 4, 1, 0, 0, 2, 0, 0, 64, 247] ++ List.replicate 247 98 ++ [254, 250, 0, 0, 0, 1, 99, 255])
      (.insert 1 [120]) = .ok ([11, 1, 0, 0, 7, 1, 0, 0, 3, 0, 0, 64, 247] ++ List.replicate 247 98 ++ [250, 1, 120, 3, 1, 255, 255]) := by
    decide +kernel
  have hrun : zipRun ziplistNew shrinkRun = .ok ([11, 1, 0, 0, 7, 1, 0, 0, 3, 0, 0, 64, 247] ++ List.replicate 247 98 ++ [250, 1, 120, 3, 1, 255, 255]) := by
    rw [shrinkRun, zipRun, h1, ok_bind, zipRun, h2, ok_bind, zipRun, h3, ok_bind, zipRun, h4, ok_bind, zipRun, h5, ok_bind, zipRun]
  -- the last string is not the one that was stored
  have hread : forwards ([11, 1, 0, 0, 7, 1, 0, 0, 3, 0, 0, 64, 247] ++ List.replicate 247 98 ++ [250, 1, 120, 3, 1, 255, 255]) =
      .ok [List.replicate 247 98, [120], [255]] := by decide +kernel
  have hlast : shrinkRun.foldl (fun l c => c.1.apply l) [] = [List.replicate 247 98, [120], [99]] := by decide +kernel
  intro h
  rcases h.end with h | h
  · rw [hrun] at h
    cases h
  · rw [hrun, ok_bind, hread, hlast] at h
    exact absurd (Except.ok.inj h) (by decide +kernel)

end KVStores.Redis.Ziplist
