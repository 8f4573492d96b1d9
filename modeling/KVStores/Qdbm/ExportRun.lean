import Mathlib.Data.List.TakeWhile
import KVStores.Qdbm.Export

/-!
# What an export is worth

`dpwrite` returns -1 when `write` fails, and `dpexportdb` takes every result but 0 for a success.

* `export_iff`: **an export can be trusted exactly when no `write` failed, or something else did that it looks at.**
-/

namespace KVStores.Qdbm

open List Option

theorem hexDigit_toNat {k : ℕ} (hk : k < 16) : (hexDigit k).toNat = if k < 10 then 48 + k else 55 + k := by
  rw [hexDigit]
  by_cases h : k < 10
  · rw [if_pos h, if_pos h]
    exact UInt8.toNat_ofNat_of_lt' (show _ < 256 by omega)
  · rw [if_neg h, if_neg h]
    exact UInt8.toNat_ofNat_of_lt' (show _ < 256 by omega)

theorem hexVal_hexDigit {k : ℕ} (hk : k < 16) : hexVal (hexDigit k) = k := by
  rw [hexVal, hexDigit_toNat hk]
  by_cases h : k < 10
  · rw [if_pos h, if_pos (by omega)]
    omega
  · rw [if_neg h, if_neg (by omega), if_pos (by omega)]
    omega

theorem mem_printHex {c : UInt8} {n : ℕ} (h : c ∈ printHex n) :
    isHexDigit c = true ∧ isspace c = false ∧ c ≠ 9 ∧ c ≠ 10 ∧ c ≠ 43 ∧ c ≠ 45 ∧ c ≠ 88 ∧ c ≠ 120 := by
  have hdigits : ∀ k < 16, isHexDigit (hexDigit k) = true ∧ isspace (hexDigit k) = false ∧ hexDigit k ≠ 9 ∧ hexDigit k ≠ 10 ∧
      hexDigit k ≠ 43 ∧ hexDigit k ≠ 45 ∧ hexDigit k ≠ 88 ∧ hexDigit k ≠ 120 := by decide
  obtain ⟨k, hk, rfl⟩ := Numeral.mem_numeral (by decide) h
  exact hdigits k hk

theorem printHex_ne_nil (n : ℕ) : printHex n ≠ [] := Numeral.numeral_ne_nil n

theorem length_printHex {n : ℕ} (hn : n < 2 ^ 31) : (printHex n).length ≤ 8 :=
  Numeral.length_numeral 7 (hn.trans (by decide))

/-- **`strtol` reads what `%X` has written.** -/
theorem strtol16_printHex {n : ℕ} (hn : n < 2 ^ 31) : strtol16 (printHex n) = n := by
  have hmem := fun c (h : c ∈ printHex n) => mem_printHex h
  have hvalue : Numeral.value 16 hexVal 0 (printHex n) = n := Numeral.value_numeral (by decide) (fun k hk => hexVal_hexDigit hk) n
  have hall : (printHex n).takeWhile isHexDigit = printHex n := takeWhile_eq_self_iff.2 fun c h => (hmem c h).1
  have hfront : strtolPrefix (printHex n) = printHex n := by
    generalize printHex n = s at hmem
    rcases s with _ | ⟨z, _ | ⟨x, _ | ⟨c, s⟩⟩⟩
    · rfl
    · rfl
    · rfl
    · have hx := (hmem x (mem_cons_of_mem _ mem_cons_self)).2.2.2.2.2.2
      exact if_neg fun h => h.2.1.elim hx.2 hx.1
  obtain ⟨c, s, hs⟩ := exists_cons_of_ne_nil (printHex_ne_nil n)
  have hc := hmem c (hs ▸ mem_cons_self)
  have hspace : (printHex n).dropWhile isspace = printHex n := by
    rw [hs, dropWhile_cons_of_neg (by rw [hc.2.1]; exact Bool.false_ne_true)]
  have hsign : strtolSign (printHex n) = (false, printHex n) := by
    rw [hs]
    rw [strtolSign]
    · exact fun _ h => hc.2.2.2.2.2.1 (List.cons.inj h).1
    · exact fun _ h => hc.2.2.2.2.1 (List.cons.inj h).1
  rw [strtol16, hspace, hsign]
  rw [hfront, hall, hvalue, if_neg Bool.false_ne_true]
  have hmin : min (2 ^ 63 - 1) (n : ℤ) = n := by omega
  rw [hmin]
  exact Int.bmod_eq_of_le (by omega) (by omega)

theorem splitLine_append {l : Bytes} (hl : ∀ c ∈ l, c ≠ 10) (s : Bytes) : splitLine (l ++ 10 :: s) = some (l, s) := by
  have htake : (l ++ 10 :: s).takeWhile (· != 10) = l := by
    rw [takeWhile_append_of_pos fun c hc => bne_iff_ne.2 (hl c hc)]
    exact (congrArg (l ++ ·) (takeWhile_cons_of_neg (by decide))).trans (append_nil l)
  have hdrop : (l ++ 10 :: s).dropWhile (· != 10) = 10 :: s := by
    rw [dropWhile_append_of_pos fun c hc => bne_iff_ne.2 (hl c hc)]
    exact dropWhile_cons_of_neg (by decide)
  rw [splitLine, hdrop, htake]

theorem readHeader_append {l l' : Bytes} (hl : ∀ c ∈ l, c ≠ 10) (hl' : ∀ c ∈ l', c ≠ 10) (s : Bytes) :
    readHeader (l ++ 10 :: (l' ++ 10 :: s)) = some (l, l', s) := by
  rw [readHeader, splitLine_append hl, bind_some, splitLine_append hl', map_some]

theorem printHex_line (n : ℕ) : ∀ c ∈ printHex n, c ≠ 10 := fun _ h => (mem_printHex h).2.2.2.1

/-- **`dpwrite`**: all bytes are written and counted, or a call of `write` has failed and the result is -1. -/
theorem dpwrite_spec : ∀ {os : List WriteResult} {buf file : Bytes} {rv rv' : ℤ} {file' : Bytes} {os' : List WriteResult},
    dpwrite os buf file rv = some (rv', file', os') → ∃ used, os = used ++ os' ∧
      (rv' = -1 ∧ WriteResult.failed ∈ used ∨ rv' = rv + buf.length ∧ file' = file ++ buf ∧ WriteResult.failed ∉ used) := by
  intro os
  induction os with
  | nil => exact fun h => absurd h.symm (some_ne_none _)
  | cons x os ih =>
    intro buf file rv rv' file' os' hwrite
    rw [dpwrite.eq_def] at hwrite
    cases x with
    | failed =>
      obtain ⟨rfl, hrest⟩ := Prod.mk.inj (Option.some.inj hwrite)
      obtain ⟨rfl, rfl⟩ := Prod.mk.inj hrest
      exact ⟨[.failed], rfl, Or.inl ⟨rfl, mem_singleton_self _⟩⟩
    | eintr =>
      dsimp only at hwrite
      by_cases hempty : buf = []
      · rw [if_pos hempty] at hwrite
        obtain ⟨rfl, hrest⟩ := Prod.mk.inj (Option.some.inj hwrite)
        obtain ⟨rfl, rfl⟩ := Prod.mk.inj hrest
        subst hempty
        refine ⟨[.eintr], rfl, Or.inr ⟨(Int.add_zero _).symm, (append_nil _).symm, ?_⟩⟩
        exact fun h => WriteResult.noConfusion (mem_singleton.1 h)
      · rw [if_neg hempty] at hwrite
        obtain ⟨used, rfl, hused⟩ := ih hwrite
        refine ⟨.eintr :: used, rfl, hused.imp (fun h => ⟨h.1, mem_cons_of_mem _ h.2⟩) fun h => ⟨h.1, h.2.1, fun hmem => ?_⟩⟩
        exact h.2.2 (mem_of_ne_of_mem (fun heq => WriteResult.noConfusion heq) hmem)
    | wrote n =>
      dsimp only at hwrite
      by_cases hempty : buf.drop n = []
      · rw [if_pos hempty] at hwrite
        obtain ⟨rfl, hrest⟩ := Prod.mk.inj (Option.some.inj hwrite)
        obtain ⟨rfl, rfl⟩ := Prod.mk.inj hrest
        have htake : buf.take n = buf := by
          have hsplit := take_append_drop n buf
          rwa [hempty, append_nil] at hsplit
        refine ⟨[.wrote n], rfl, Or.inr ⟨by rw [htake], by rw [htake], ?_⟩⟩
        exact fun h => WriteResult.noConfusion (mem_singleton.1 h)
      · rw [if_neg hempty] at hwrite
        obtain ⟨used, rfl, hused⟩ := ih hwrite
        refine ⟨.wrote n :: used, rfl, hused.imp (fun h => ⟨h.1, mem_cons_of_mem _ h.2⟩) fun h => ⟨?_, ?_, fun hmem => ?_⟩⟩
        · have hlen := congrArg List.length (take_append_drop n buf)
          rw [length_append] at hlen
          rw [h.1, ← hlen, Nat.cast_add, Int.add_assoc]
        · rw [h.2.1, append_assoc, take_append_drop]
        · exact h.2.2 (mem_of_ne_of_mem (fun heq => WriteResult.noConfusion heq) hmem)

theorem dumpRecord_pos (r : Record) : 0 < (dumpRecord r).length := by
  rw [dumpRecord, length_append, length_cons]
  omega

/-- **The loop of `dpexportdb`** stops at a call of `malloc` that fails, and at nothing else. -/
theorem exportLoop_spec {allocFails : ℕ → Option AllocSite} : ∀ {rs : List Record} {i : ℕ} {os : List WriteResult} {file : Bytes} {returned : List ℤ}
    {e : ExportEnd}, exportLoop allocFails i rs os file returned = some e → ∃ used more, os = used ++ e.writes ∧ e.returned = returned ++ more ∧
      (-1 ∈ more ↔ WriteResult.failed ∈ used) ∧ ((∀ j < rs.length, allocFails (i + j) = none) → e.err = false ∧ e.fatal = false ∧
        (WriteResult.failed ∉ used → e.file = file ++ rs.flatMap dumpRecord)) ∧
      ((¬ ∀ j < rs.length, allocFails (i + j) = none) → e.err = true ∨ e.fatal = true) := by
  intro rs
  induction rs with
  | nil =>
    intro i os file returned e hloop
    obtain rfl := Option.some.inj hloop
    refine ⟨[], [], rfl, (append_nil _).symm, Iff.rfl.trans (by simp), fun _ => ⟨rfl, rfl, fun _ => ?_⟩, fun h => ?_⟩
    · exact (append_nil _).symm
    · exact absurd (fun j hj => absurd hj (Nat.not_lt_zero j)) h
  | cons r rs ih =>
    intro i os file returned e hloop
    rw [exportLoop] at hloop
    have hstops : ∀ {site}, allocFails i = some site → ¬ ∀ j < (r :: rs).length, allocFails (i + j) = none :=
      fun hsite h => some_ne_none _ (hsite.symm.trans (h 0 (Nat.succ_pos _)))
    have hend : ∀ {err fatal : Bool} {site}, allocFails i = some site → (err = true ∨ fatal = true) →
        some (⟨err, fatal, file, returned, os⟩ : ExportEnd) = some e → ∃ used more, os = used ++ e.writes ∧ e.returned = returned ++ more ∧
          (-1 ∈ more ↔ WriteResult.failed ∈ used) ∧ ((∀ j < (r :: rs).length, allocFails (i + j) = none) → e.err = false ∧ e.fatal = false ∧
            (WriteResult.failed ∉ used → e.file = file ++ (r :: rs).flatMap dumpRecord)) ∧
          ((¬ ∀ j < (r :: rs).length, allocFails (i + j) = none) → e.err = true ∨ e.fatal = true) := by
      intro err fatal site hsite hbad he
      obtain rfl := Option.some.inj he
      exact ⟨[], [], rfl, (append_nil _).symm, by simp, fun h => absurd h (hstops hsite), fun _ => hbad⟩
    cases hsite : allocFails i with
    | some site =>
      rw [hsite] at hloop
      cases site with
      | key => exact hend hsite (Or.inr rfl) hloop
      | value => exact hend hsite (Or.inl rfl) hloop
      | record => exact hend hsite (Or.inl rfl) hloop
    | none =>
      rw [hsite] at hloop
      obtain ⟨⟨rv, file', os'⟩, hwrite, hrest⟩ := bind_eq_some_iff.1 hloop
      obtain ⟨used, rfl, hused⟩ := dpwrite_spec hwrite
      have hpos := dumpRecord_pos r
      have hrv : rv ≠ 0 := by
        rcases hused with ⟨rfl, -⟩ | ⟨rfl, -⟩ <;> omega
      rw [if_neg hrv] at hrest
      obtain ⟨used', more, rfl, hreturned, hfailed, hclean, hbad⟩ := ih hrest
      have hall : (∀ j < (r :: rs).length, allocFails (i + j) = none) ↔ ∀ j < rs.length, allocFails (i + 1 + j) = none := by
        constructor
        · intro h j hj
          rw [Nat.add_assoc, Nat.add_comm 1 j]
          exact h (j + 1) (Nat.succ_lt_succ hj)
        · intro h j hj
          cases j with
          | zero => exact hsite
          | succ j =>
            rw [← Nat.add_assoc, Nat.add_right_comm]
            exact h j (Nat.lt_of_succ_lt_succ hj)
      refine ⟨used ++ used', rv :: more, (append_assoc ..).symm, ?_, ?_, fun h => ?_, fun h => hbad (mt hall.2 h)⟩
      · rw [hreturned, append_assoc]
        rfl
      · rw [mem_cons, mem_append, hfailed]
        rcases hused with ⟨rfl, hmem⟩ | ⟨rfl, -, hmem⟩
        · exact iff_of_true (Or.inl rfl) (Or.inl hmem)
        · have hne : ¬ (-1 : ℤ) = 0 + (dumpRecord r).length := by omega
          rw [or_iff_right hne, or_iff_right hmem]
      · obtain ⟨herr, hfatal, hfile⟩ := hclean (hall.1 h)
        refine ⟨herr, hfatal, fun hnone => ?_⟩
        rw [mem_append, not_or] at hnone
        rcases hused with ⟨-, hmem⟩ | ⟨-, rfl, -⟩
        · exact absurd hmem hnone.1
        · rw [hfile hnone.2, append_assoc]
          rfl

theorem length_dumpRecord {r : Record} (hr : recordSize r < 2 ^ 31) : (dumpRecord r).length ≤ recordSize r := by
  rw [recordSize] at hr ⊢
  have hkey := @length_printHex r.1.length (by omega)
  have hval := @length_printHex r.2.length (by omega)
  rw [dumpRecord]
  simp only [length_append, length_cons, length_nil]
  omega

variable {rs : List Record}

theorem length_dump (hfits : (rs.map recordSize).sum < 2 ^ 31) : (rs.flatMap dumpRecord).length ≤ (rs.map recordSize).sum := by
  induction rs with
  | nil => exact Nat.le_refl 0
  | cons r rs ih =>
    rw [map_cons, sum_cons] at hfits ⊢
    rw [flatMap_cons, length_append]
    have hr := @length_dumpRecord r (by omega)
    omega

theorem take_record {r : Record} {s t : Bytes} (hs : s = r.1 ++ 10 :: (r.2 ++ t)) :
    (s.take r.1.length, (s.drop (r.1.length + 1)).take r.2.length) = r := by
  subst hs
  have hkey : (r.1 ++ 10 :: (r.2 ++ t)).take r.1.length = r.1 := take_left
  have hval : (r.1 ++ 10 :: (r.2 ++ t)).drop (r.1.length + 1) = r.2 ++ t := by
    rw [append_cons, drop_left' (by rw [length_append, length_singleton])]
  rw [hkey, hval, take_left]

theorem take_append_le {a b : Bytes} {n : ℕ} (hn : a.length ≤ n) : (a ++ b).take n = a ++ b.take (n - a.length) := by
  rw [take_append, take_of_length_le hn]

variable {d : Depot}

theorem dpput_new {r : Record} (hfatal : d.fatal = false) (hnew : r.1 ∉ d.records.map Prod.fst)
    (hfits : ((d.records ++ [r]).map recordSize).sum < 2 ^ 31) :
    (dpput d r).1 = true ∧ (dpput d r).2.records = d.records ++ [r] ∧ (dpput d r).2.fatal = false := by
  rw [dpput, if_neg (by rw [hfatal]; exact Bool.false_ne_true), dif_pos ⟨hnew, hfits⟩]
  exact ⟨rfl, rfl, hfatal⟩

theorem dpput_next {r : Record} (hfatal : d.fatal = false)
    (hnodup : ((d.records ++ r :: rs).map Prod.fst).Nodup) (hfits : ((d.records ++ r :: rs).map recordSize).sum < 2 ^ 31) :
    (dpput d r).1 = true ∧ (dpput d r).2.records = d.records ++ [r] ∧ (dpput d r).2.fatal = false := by
  refine dpput_new hfatal ?_ ?_
  · rw [map_append, map_cons] at hnodup
    exact fun h => (nodup_append.1 hnodup).2.2 _ h _ mem_cons_self rfl
  · rw [map_append, sum_append, map_cons, sum_cons] at hfits
    rw [map_append, sum_append, map_singleton, sum_singleton]
    omega

/-- **A round of `dpimportdb`** reads the record that the file has at the offset, be it within `mbuf` or not. -/
theorem readRecord_dump {file tail stale : Bytes} {off : ℕ} {r : Record} (hr : recordSize r < 2 ^ 31) (hdrop : file.drop off = dumpRecord r ++ tail) :
    ∃ mbuf, readRecord file off stale = some (r, (dumpRecord r).length, mbuf) := by
  rw [recordSize] at hr
  have hkey := @length_printHex r.1.length (by omega)
  have hval := @length_printHex r.2.length (by omega)
  have hkey' := length_pos_iff.2 (printHex_ne_nil r.1.length)
  have hval' := length_pos_iff.2 (printHex_ne_nil r.2.length)
  have hline := printHex_line r.1.length
  have hline' := printHex_line r.2.length
  have hksiz := @strtol16_printHex r.1.length (by omega)
  have hvsiz := @strtol16_printHex r.2.length (by omega)
  rw [dumpRecord] at hdrop
  have hlength : (dumpRecord r).length = (printHex r.1.length).length + (printHex r.2.length).length + 2 + r.1.length + r.2.length + 2 := by
    rw [dumpRecord]
    simp only [length_append, length_cons, length_nil]
    omega
  rw [hlength]
  generalize printHex r.1.length = line at *
  generalize printHex r.2.length = line' at *
  -- the file behind the offset: the header, and what is behind it
  have hheader : ∀ s, line ++ 10 :: (line' ++ 10 :: s) = (line ++ 10 :: (line' ++ [10])) ++ s := by
    intro s
    simp only [append_assoc, cons_append, nil_append]
  have hlen : (line ++ 10 :: (line' ++ [10])).length = line.length + line'.length + 2 := by
    simp only [length_append, length_cons, length_nil]
    omega
  have hbody : file.drop off = line ++ 10 :: (line' ++ 10 :: ((r.1 ++ 10 :: (r.2 ++ [10])) ++ tail)) := by
    rw [hdrop]
    simp only [append_assoc, cons_append, nil_append]
  have hpair : (r.1 ++ 10 :: (r.2 ++ [10])).length = r.1.length + r.2.length + 2 := by
    simp only [length_append, length_cons, length_nil]
    omega
  have hmbuf : (file.drop off).take ioBufSiz =
      line ++ 10 :: (line' ++ 10 :: ((r.1 ++ 10 :: (r.2 ++ [10])) ++ tail).take (ioBufSiz - (line.length + line'.length + 2))) := by
    rw [hbody, hheader, take_append_le (by rw [hlen, ioBufSiz]; omega), hlen, ← hheader]
  rw [readRecord]
  rw [hmbuf, readHeader_append hline hline', bind_some]
  dsimp only
  rw [hksiz, hvsiz, if_neg (by omega), Int.toNat_natCast, Int.toNat_natCast]
  by_cases hsmall : line.length + line'.length + 2 + r.1.length + r.2.length + 2 < ioBufSiz
  · have hwhole : ∃ t, ((r.1 ++ 10 :: (r.2 ++ [10])) ++ tail).take (ioBufSiz - (line.length + line'.length + 2)) =
        r.1 ++ 10 :: (r.2 ++ 10 :: t) := by
      have htake := @take_append_le (r.1 ++ 10 :: (r.2 ++ [10])) tail (ioBufSiz - (line.length + line'.length + 2)) (by rw [hpair]; omega)
      rw [htake]
      refine ⟨tail.take (ioBufSiz - (line.length + line'.length + 2) - (r.1 ++ 10 :: (r.2 ++ [10])).length), ?_⟩
      rw [append_assoc, cons_append, append_assoc]
      rfl
    obtain ⟨t, hwhole⟩ := hwhole
    have hrest : ∀ t', (r.1 ++ 10 :: (r.2 ++ 10 :: t)) ++ t' = r.1 ++ 10 :: (r.2 ++ (10 :: t ++ t')) := by
      intro t'
      rw [append_assoc, cons_append, append_assoc]
    rw [if_pos hsmall, hwhole, hrest, take_record rfl]
    exact ⟨_, rfl⟩
  · have hrbuf : (file.drop (off + (line.length + line'.length + 2))).take (r.1.length + r.2.length + 2) = r.1 ++ 10 :: (r.2 ++ [10]) := by
      rw [← drop_drop, hbody, hheader, drop_left' hlen, ← hpair, take_left]
    rw [if_neg hsmall, hrbuf, if_neg (by rw [hpair]; exact Nat.lt_irrefl _), take_record rfl]
    exact ⟨_, rfl⟩

theorem importLoop_dump {file : Bytes} (hfile : file.length < 2 ^ 31) : ∀ {rs : List Record} {fuel : ℕ} {pre stale : Bytes} {d : Depot},
    file = pre ++ rs.flatMap dumpRecord → rs.length < fuel → d.fatal = false → ((d.records ++ rs).map Prod.fst).Nodup →
    ((d.records ++ rs).map recordSize).sum < 2 ^ 31 →
    (importLoop file fuel pre.length stale d).1 = true ∧ (importLoop file fuel pre.length stale d).2.records = d.records ++ rs := by
  have hsize : fileSize file = file.length := Int.bmod_eq_of_le (by omega) (by omega)
  intro rs
  induction rs with
  | nil =>
    intro fuel pre stale d heq hfuel _ _ _
    obtain ⟨fuel, rfl⟩ : ∃ k, fuel = k + 1 := ⟨fuel - 1, by rw [length_nil] at hfuel; omega⟩
    rw [flatMap_nil, append_nil] at heq
    rw [importLoop, hsize, if_pos (by rw [heq]), append_nil]
    exact ⟨rfl, rfl⟩
  | cons r rs ih =>
    intro fuel pre stale d heq hfuel hfatal hnodup hfits
    obtain ⟨fuel, rfl⟩ : ∃ k, fuel = k + 1 := ⟨fuel - 1, by omega⟩
    have hr : recordSize r < 2 ^ 31 := by
      rw [map_append, sum_append, map_cons, sum_cons] at hfits
      omega
    obtain ⟨hput, hrecords, hfatal'⟩ := dpput_next hfatal hnodup hfits
    have happend : (dpput d r).2.records ++ rs = d.records ++ r :: rs := by
      rw [hrecords, append_assoc]
      rfl
    have hmore : ¬ fileSize file ≤ (pre.length : ℕ) := by
      have hpos := dumpRecord_pos r
      have hlen := congrArg List.length heq
      rw [length_append, flatMap_cons, length_append] at hlen
      omega
    have hdrop : file.drop pre.length = dumpRecord r ++ rs.flatMap dumpRecord := by
      rw [heq, drop_left, flatMap_cons]
    obtain ⟨mbuf, hread⟩ := @readRecord_dump file _ stale pre.length r hr hdrop
    rw [importLoop, if_neg hmore, hread]
    dsimp only
    rw [hput, if_pos rfl, ← length_append, ← happend]
    rw [← happend] at hnodup hfits
    refine ih ?_ (Nat.lt_of_succ_lt_succ hfuel) hfatal' hnodup hfits
    rw [heq, flatMap_cons, append_assoc]

theorem dpimportdb_dump (hnodup : (rs.map Prod.fst).Nodup) (hfits : (rs.map recordSize).sum < 2 ^ 31) (stale : Bytes) :
    (dpimportdb (rs.flatMap dumpRecord) stale).1 = true ∧ (dpimportdb (rs.flatMap dumpRecord) stale).2.records = rs := by
  have hfile := length_dump hfits
  have hrounds : rs.length ≤ (rs.flatMap dumpRecord).length := by
    clear hnodup hfits hfile
    induction rs with
    | nil => exact Nat.le_refl 0
    | cons r rs ih =>
      have hpos := dumpRecord_pos r
      rw [flatMap_cons, length_append, length_cons]
      omega
  have hempty : Depot.empty.records ++ rs = rs := rfl
  have hload := @importLoop_dump (rs.flatMap dumpRecord) (lt_of_le_of_lt hfile hfits) rs ((rs.flatMap dumpRecord).length + 1) [] stale Depot.empty rfl
    (Nat.lt_succ_of_le hrounds) rfl
  rw [hempty, length_nil] at hload
  rw [dpimportdb]
  exact hload hnodup hfits

/-- Nothing that `dpexportdb` looks at goes wrong. -/
def Clean (d : Depot) (env : ExportEnv) : Prop :=
  d.fatal = false ∧ env.opens = true ∧ env.closes = true ∧ ∀ i < d.records.length, env.allocFails i = none

/-- What an export promises: when it has succeeded, the file is imported and gives the same records; when a record could not be written, it
has not succeeded. -/
def Restores (d : Depot) (e : Exported) : Prop :=
  (e.ok = true → ∀ stale, (dpimportdb e.file stale).1 = true ∧ (dpimportdb e.file stale).2.records = d.records) ∧ (-1 ∈ e.returned → e.ok = false)

variable {env : ExportEnv} {e : Exported}

/-- **What `dpexportdb` does**: it succeeds when nothing goes wrong but calls of `write`, and the file is the dump when none of these fails. -/
theorem dpexportdb_spec (h : dpexportdb d env = some e) :
    (¬ Clean d env → e.ok = false) ∧ (Clean d env → e.ok = true ∧ (-1 ∈ e.returned ↔ WriteResult.failed ∈ env.writes) ∧
      (WriteResult.failed ∉ env.writes → e.file = d.records.flatMap dumpRecord)) := by
  rw [dpexportdb] at h
  by_cases hopen : d.fatal = true ∨ env.opens = false
  · rw [if_pos hopen] at h
    have hclean : ¬ Clean d env := by
      rintro ⟨hfatal, hopens, -, -⟩
      rcases hopen with h | h
      · exact absurd (hfatal.symm.trans h) Bool.false_ne_true
      · exact absurd (h.symm.trans hopens) Bool.false_ne_true
    by_cases hwrites : env.writes = []
    · rw [if_pos hwrites] at h
      obtain rfl := Option.some.inj h
      exact ⟨fun _ => rfl, fun hc => absurd hc hclean⟩
    · rw [if_neg hwrites] at h
      exact absurd h.symm (some_ne_none e)
  rw [if_neg hopen, not_or, Bool.not_eq_true, Bool.not_eq_false] at *
  obtain ⟨x, hloop, hend⟩ := bind_eq_some_iff.1 h
  obtain ⟨used, more, hused, hreturned, hfailed, hclean, hbad⟩ := exportLoop_spec hloop
  by_cases hwrites : x.writes = []
  · rw [if_pos hwrites] at hend
    obtain rfl := Option.some.inj hend
    rw [hwrites, append_nil] at hused
    rw [hused, hreturned]
    simp only [Nat.zero_add] at hclean hbad
    refine ⟨fun hnot => ?_, fun hc => ?_⟩
    · by_cases hcloses : env.closes = true
      · rcases hbad fun h => hnot ⟨hopen.1, hopen.2, hcloses, h⟩ with herr | hfatal
        · rw [herr, Bool.not_true, Bool.and_false, Bool.false_and]
        · rw [hfatal, Bool.not_true, Bool.and_false]
      · rw [Bool.eq_false_iff.2 hcloses]
        rfl
    · obtain ⟨herr, hfatal, hfile⟩ := hclean hc.2.2.2
      refine ⟨?_, hfailed, hfile⟩
      rw [hc.2.2.1, herr, hfatal]
      rfl
  · rw [if_neg hwrites] at hend
    exact absurd hend.symm (some_ne_none e)

theorem restores_iff (h : dpexportdb d env = some e) : Restores d e ↔ WriteResult.failed ∉ env.writes ∨ ¬ Clean d env := by
  obtain ⟨hfails, hclean⟩ := dpexportdb_spec h
  by_cases hc : Clean d env
  · obtain ⟨hok, hfailed, hfile⟩ := hclean hc
    rw [or_iff_left (not_not.2 hc)]
    constructor
    · intro hrestores hmem
      exact absurd ((hrestores.2 (hfailed.2 hmem)).symm.trans hok) Bool.false_ne_true
    · intro hnone
      refine ⟨fun _ stale => ?_, fun hmem => absurd (hfailed.1 hmem) hnone⟩
      rw [hfile hnone]
      exact dpimportdb_dump d.nodup d.fits stale
  · have hok := hfails hc
    refine iff_of_true ⟨fun h => absurd (hok.symm.trans h) Bool.false_ne_true, fun _ => hok⟩ (Or.inr hc)

@[grind =] def numbered (i : ℕ) : List Record → List Record
  | [] => []
  | r :: rs => numberKey i r :: numbered (i + 1) rs

theorem length_numbered : ∀ (rs : List Record) (i : ℕ), (numbered i rs).length = rs.length := by
  intro rs
  induction rs with
  | nil => exact fun _ => rfl
  | cons r rs ih => exact fun i => congrArg (· + 1) (ih (i + 1))

theorem dropWhile_numberKey (i : ℕ) (r : Record) : (numberKey i r).1.dropWhile (· != 9) = 9 :: r.1 := by
  rw [numberKey, dropWhile_append_of_pos fun c hc => bne_iff_ne.2 (mem_printHex hc).2.2.1]
  exact dropWhile_cons_of_neg (by decide)

theorem numberKey_inj {i j : ℕ} {r r' : Record} (h : (numberKey i r).1 = (numberKey j r').1) : i = j := by
  have htake : ∀ i (r : Record), (numberKey i r).1.takeWhile (· != 9) = printHex i := by
    intro i r
    rw [numberKey, takeWhile_append_of_pos fun c hc => bne_iff_ne.2 (mem_printHex hc).2.2.1]
    exact (congrArg (printHex i ++ ·) (takeWhile_cons_of_neg (by decide))).trans (append_nil _)
  have hvalue : ∀ n, Numeral.value 16 hexVal 0 (printHex n) = n := Numeral.value_numeral (by decide) fun k hk => hexVal_hexDigit hk
  rw [← hvalue i, ← hvalue j, ← htake i r, ← htake j r', h]

theorem recordSize_numberKey {i : ℕ} (hi : i < 2 ^ 31) (r : Record) : recordSize (numberKey i r) ≤ recordSize r + 9 := by
  have hlen := length_printHex hi
  rw [recordSize, recordSize, numberKey, length_append, length_cons]
  dsimp only
  omega

theorem length_le_sum : ∀ rs : List Record, rs.length ≤ (rs.map fun r => recordSize r + 9).sum := by
  intro rs
  induction rs with
  | nil => exact Nat.le_refl 0
  | cons r rs ih =>
    rw [length_cons, map_cons, sum_cons]
    omega

/-- **The loop of `vlexportdb`** copies the records in order, unless a call of `dpput` fails. -/
theorem copyLoop_spec {putFails : Option ℕ} : ∀ {rs : List Record} {i : ℕ} {d : Depot}, d.fatal = false →
    (∀ p ∈ d.records, ∃ j < i, ∃ r, p.1 = (numberKey j r).1) → i + rs.length < 2 ^ 31 →
    (d.records.map recordSize).sum + (rs.map fun r => recordSize r + 9).sum < 2 ^ 31 →
    ((∀ j < rs.length, putFails ≠ some (i + j)) → (copyLoop putFails i rs d).1 = true ∧
      (copyLoop putFails i rs d).2.records = d.records ++ numbered i rs ∧ (copyLoop putFails i rs d).2.fatal = false) ∧
    ((¬ ∀ j < rs.length, putFails ≠ some (i + j)) → (copyLoop putFails i rs d).1 = false) := by
  intro rs
  induction rs with
  | nil =>
    intro i d hfatal _ _ _
    exact ⟨fun _ => ⟨rfl, (append_nil _).symm, hfatal⟩, fun h => absurd (fun j hj => absurd hj (Nat.not_lt_zero j)) h⟩
  | cons r rs ih =>
    intro i d hfatal hnumbers hi hfits
    rw [length_cons] at hi
    rw [copyLoop]
    by_cases hfails : putFails = some i
    · rw [if_pos hfails]
      exact ⟨fun h => absurd hfails (h 0 (Nat.succ_pos _)), fun _ => rfl⟩
    rw [if_neg hfails]
    have hsize := @recordSize_numberKey i (by omega) r
    rw [map_cons, sum_cons] at hfits
    have hnew : (numberKey i r).1 ∉ d.records.map Prod.fst := by
      intro hmem
      obtain ⟨p, hp, hkey⟩ := List.mem_map.1 hmem
      obtain ⟨j, hj, r', hnumber⟩ := hnumbers p hp
      exact absurd (numberKey_inj (hkey.symm.trans hnumber)) (Nat.ne_of_gt hj)
    have hsum : ((d.records ++ [numberKey i r]).map recordSize).sum = (d.records.map recordSize).sum + recordSize (numberKey i r) := by
      rw [map_append, sum_append, map_singleton, sum_singleton]
    obtain ⟨hput, hrecords, hfatal'⟩ := dpput_new hfatal hnew (by rw [hsum]; omega)
    have hnumbers' : ∀ p ∈ (dpput d (numberKey i r)).2.records, ∃ j < i + 1, ∃ r, p.1 = (numberKey j r).1 := by
      intro p hp
      rw [hrecords] at hp
      rcases mem_append.1 hp with hp | hp
      · obtain ⟨j, hj, hnumber⟩ := hnumbers p hp
        exact ⟨j, Nat.lt_succ_of_lt hj, hnumber⟩
      · rw [mem_singleton.1 hp]
        exact ⟨i, Nat.lt_succ_self i, r, rfl⟩
    have hall : (∀ j < (r :: rs).length, putFails ≠ some (i + j)) ↔ ∀ j < rs.length, putFails ≠ some (i + 1 + j) := by
      constructor
      · intro h j hj
        rw [Nat.add_assoc, Nat.add_comm 1 j]
        exact h (j + 1) (Nat.succ_lt_succ hj)
      · intro h j hj
        cases j with
        | zero => exact hfails
        | succ j =>
          rw [← Nat.add_assoc, Nat.add_right_comm]
          exact h j (Nat.lt_of_succ_lt_succ hj)
    obtain ⟨hgood, hbad⟩ := ih hfatal' hnumbers' (by omega) (by rw [hrecords, hsum]; omega)
    dsimp only
    rw [hput, if_pos rfl]
    refine ⟨fun h => ?_, fun h => hbad (mt hall.2 h)⟩
    obtain ⟨hok, hcopied, hfatal''⟩ := hgood (hall.1 h)
    refine ⟨hok, ?_, hfatal''⟩
    rw [hcopied, hrecords, append_assoc]
    rfl

variable {le : Bytes → Bytes → Prop} [DecidableRel le]

/-- **The loop of `vlimportdb`**: in the order of the cursor each record goes to the end. -/
theorem uncopyLoop_numbered : ∀ {rs : List Record} {i : ℕ} {acc : List Record}, (acc ++ rs).Pairwise (fun r r' => le r.1 r'.1) →
    uncopyLoop le (numbered i rs) acc = (true, acc ++ rs) := by
  intro rs
  induction rs with
  | nil =>
    intro i acc _
    rw [numbered, uncopyLoop, append_nil]
  | cons r rs ih =>
    intro i acc hsorted
    have hbefore : ∀ r' ∈ acc, decide (le r'.1 r.1) = true :=
      fun r' hr' => decide_eq_true ((pairwise_append.1 hsorted).2.2 r' hr' r mem_cons_self)
    have hput : vlput le acc r = acc ++ [r] := by
      rw [vlput, takeWhile_eq_self_iff.2 hbefore, dropWhile_eq_nil_iff.2 hbefore]
    rw [numbered, uncopyLoop, dropWhile_numberKey]
    show uncopyLoop le (numbered (i + 1) rs) (vlput le acc r) = _
    rw [append_cons] at hsorted ⊢
    rw [hput]
    exact ih hsorted

/-- Nothing that `vlexportdb` looks at goes wrong. -/
def VillaClean (v : Villa le) (env : VillaEnv) : Prop :=
  v.fatal = false ∧ env.opens = true ∧ env.closes = true ∧ env.removes = true ∧ (∀ i < v.records.length, env.putFails ≠ some i) ∧
    env.dump.opens = true ∧ env.dump.closes = true ∧ ∀ i < v.records.length, env.dump.allocFails i = none

/-- What an export of a Villa database promises: records with one key come back in their order. -/
def VillaRestores (v : Villa le) (e : Exported) : Prop :=
  (e.ok = true → ∀ stale, vlimportdb le e.file stale = (true, v.records)) ∧ (-1 ∈ e.returned → e.ok = false)

theorem villa_restores_iff {v : Villa le} {env : VillaEnv} (h : vlexportdb v env = some e) :
    VillaRestores v e ↔ WriteResult.failed ∉ env.dump.writes ∨ ¬ VillaClean v env := by
  have hfail : ¬ VillaClean v env → e.ok = false → (VillaRestores v e ↔ WriteResult.failed ∉ env.dump.writes ∨ ¬ VillaClean v env) :=
    fun hc hok => iff_of_true ⟨fun h => absurd (hok.symm.trans h) Bool.false_ne_true, fun _ => hok⟩ (Or.inr hc)
  rw [vlexportdb] at h
  by_cases hopens : env.opens = false
  · rw [if_pos hopens] at h
    have hclean : ¬ VillaClean v env := fun hc => absurd (hopens.symm.trans hc.2.1) Bool.false_ne_true
    by_cases hwrites : env.dump.writes = []
    · rw [if_pos hwrites] at h
      obtain rfl := Option.some.inj h
      exact hfail hclean rfl
    · rw [if_neg hwrites] at h
      exact absurd h.symm (some_ne_none e)
  rw [if_neg hopens] at h
  obtain ⟨x, hexport, rfl⟩ := map_eq_some_iff.1 h
  have hsum : ((Depot.empty.records).map recordSize).sum + (v.records.map fun r => recordSize r + 9).sum < 2 ^ 31 := by
    rw [show ((Depot.empty.records).map recordSize).sum = 0 from rfl, Nat.zero_add]
    exact v.fits
  have hlength : 0 + v.records.length < 2 ^ 31 := by
    rw [Nat.zero_add]
    exact lt_of_le_of_lt (length_le_sum v.records) v.fits
  obtain ⟨hgood, hbad⟩ := @copyLoop_spec env.putFails v.records 0 Depot.empty rfl (fun p hp => absurd hp not_mem_nil) hlength hsum
  obtain ⟨hfails, hclean⟩ := dpexportdb_spec hexport
  simp only [Nat.zero_add] at hgood hbad
  by_cases hputs : ∀ j < v.records.length, env.putFails ≠ some j
  · obtain ⟨hok, hrecords, hfatal⟩ := hgood hputs
    rw [show Depot.empty.records ++ numbered 0 v.records = numbered 0 v.records from rfl] at hrecords
    by_cases hc : VillaClean v env
    · have hdump : Clean (copyLoop env.putFails 0 v.records Depot.empty).2 env.dump := by
        refine ⟨hfatal, hc.2.2.2.2.2.1, hc.2.2.2.2.2.2.1, ?_⟩
        rw [hrecords, length_numbered]
        exact hc.2.2.2.2.2.2.2
      obtain ⟨hxok, hfailed, hfile⟩ := hclean hdump
      have hall : ((copyLoop env.putFails 0 v.records Depot.empty).1 && x.ok && env.closes && env.removes && !v.fatal) = true := by
        rw [hok, hxok, hc.2.2.1, hc.2.2.2.1, hc.1]
        rfl
      rw [or_iff_left (not_not.2 hc)]
      constructor
      · intro hrestores hmem
        exact absurd ((hrestores.2 (hfailed.2 hmem)).symm.trans hall) Bool.false_ne_true
      · intro hnone
        refine ⟨fun _ stale => ?_, fun hmem => absurd (hfailed.1 hmem) hnone⟩
        obtain ⟨himport, hback⟩ := dpimportdb_dump (copyLoop env.putFails 0 v.records Depot.empty).2.nodup
          (copyLoop env.putFails 0 v.records Depot.empty).2.fits stale
        rw [← hfile hnone] at himport hback
        rw [vlimportdb]
        rw [himport, if_pos rfl, hback, hrecords]
        exact uncopyLoop_numbered v.sorted
    · refine hfail hc ?_
      by_contra htrue
      rw [Bool.not_eq_false, Bool.and_eq_true, Bool.and_eq_true, Bool.and_eq_true, Bool.and_eq_true, Bool.not_eq_true'] at htrue
      obtain ⟨⟨⟨⟨-, hxok⟩, hcloses⟩, hremoves⟩, hvfatal⟩ := htrue
      have hdump : Clean (copyLoop env.putFails 0 v.records Depot.empty).2 env.dump := by
        by_contra hnot
        exact absurd ((hfails hnot).symm.trans hxok) Bool.false_ne_true
      obtain ⟨-, hdopens, hdcloses, hallocs⟩ := hdump
      rw [hrecords, length_numbered] at hallocs
      exact hc ⟨hvfatal, Bool.not_eq_false _ ▸ hopens, hcloses, hremoves, hputs, hdopens, hdcloses, hallocs⟩
  · refine hfail (fun hc => hputs hc.2.2.2.2.1) ?_
    rw [hbad hputs]
    rfl

def smallDepot : Depot := ⟨[([107], [118])], false, nodup_singleton _, by decide⟩

def smallVilla : Villa (fun k k' : Bytes => k.length ≤ k'.length) := ⟨[([107], [118])], false, pairwise_singleton _ _, by decide⟩

def goodEnv : ExportEnv := ⟨true, true, fun _ => none, [.eintr, .wrote 3, .wrote 100]⟩

def fullEnv : ExportEnv := ⟨true, true, fun _ => none, [.failed]⟩

def smallExported : Exported := ⟨true, dumpRecord ([107], [118]), [8]⟩

def smallVillaExported : Exported := ⟨true, dumpRecord (numberKey 0 ([107], [118])), [10]⟩

end KVStores.Qdbm
