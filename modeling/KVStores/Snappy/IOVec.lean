import Mathlib.Algebra.BigOperators.Group.List.Basic
import KVStores.Snappy.Writers

/-!
# The writer to several buffers

The buffers of `SnappyIOVecWriter` are one block of memory that is cut into pieces, and `Ok` says where in it the writer is. Every
call keeps it so, also when the buffers are too short.
-/

namespace KVStores.Snappy

open List Option

open CopyBack

namespace IOVecWriter

def out (w : IOVecWriter) : Bytes := w.iov.flatten.take w.totalWritten

structure Ok (limit : ℕ) (lens : List ℕ) (w : IOVecWriter) : Prop where
  lengths : w.iov.map List.length = lens
  outputLimit : w.outputLimit = limit
  written_le : ∃ n, lens[w.currIovIndex]? = some n ∧ w.currIovWritten ≤ n
  total : w.totalWritten = (lens.take w.currIovIndex).sum + w.currIovWritten
  total_le : w.totalWritten ≤ limit

variable {limit : ℕ} {lens : List ℕ} {w : IOVecWriter}

theorem start_eq (iov : List Bytes) (i : ℕ) : Pieces.start iov i = ((iov.map List.length).take i).sum := by
  rw [Pieces.start, List.length_flatten, map_take]

theorem sum_take_succ {i n : ℕ} (h : lens[i]? = some n) : (lens.take (i + 1)).sum = (lens.take i).sum + n := by
  rw [take_add_one, h, sum_append, toList_some, sum_singleton]

theorem sum_take_mono {i j : ℕ} (h : i ≤ j) : (lens.take i).sum ≤ (lens.take j).sum := by
  have hcut := congrArg List.sum (take_append_drop i (lens.take j))
  rw [sum_append, take_take, Nat.min_eq_left h] at hcut
  omega

theorem sum_take_le (lens : List ℕ) (i : ℕ) : (lens.take i).sum ≤ lens.sum := by
  have hcut := congrArg List.sum (take_append_drop i lens)
  rw [sum_append] at hcut
  omega

namespace Ok

theorem iovLen (hw : w.Ok limit lens) (i : ℕ) : w.iovLen i = lens[i]? := by rw [IOVecWriter.iovLen, ← hw.lengths, List.getElem?_map]

theorem index_lt (hw : w.Ok limit lens) : w.currIovIndex < lens.length := by
  obtain ⟨n, hn, -⟩ := hw.written_le
  exact (List.getElem?_eq_some_iff.1 hn).1

theorem length_iov (hw : w.Ok limit lens) : w.iov.length = lens.length := by rw [← hw.lengths, length_map]

theorem length_flatten (hw : w.Ok limit lens) : w.iov.flatten.length = lens.sum := by rw [List.length_flatten, hw.lengths]

theorem piece (hw : w.Ok limit lens) {i n : ℕ} (h : lens[i]? = some n) : ∃ e, w.iov[i]? = some e ∧ e.length = n := by
  rw [← hw.lengths, List.getElem?_map] at h
  exact map_eq_some_iff.1 h

theorem total_le_sum (hw : w.Ok limit lens) : w.totalWritten ≤ lens.sum := by
  obtain ⟨n, hn, hle⟩ := hw.written_le
  have hsum := sum_take_succ hn
  have hall := sum_take_le lens (w.currIovIndex + 1)
  have htotal := hw.total
  omega

theorem length_out (hw : w.Ok limit lens) : w.out.length = w.totalWritten := by
  rw [out, length_take, hw.length_flatten, Nat.min_eq_left hw.total_le_sum]

/-- **Writing** behind what is written, in the buffer where the writer is. -/
theorem put (hw : w.Ok limit lens) {n : ℕ} (hn : lens[w.currIovIndex]? = some n) {bs : Bytes} (hroom : w.currIovWritten + bs.length ≤ n)
    (hlimit : w.totalWritten + bs.length ≤ limit) : ∃ w', w.put bs = some w' ∧ w'.Ok limit lens ∧ w'.currIovIndex = w.currIovIndex ∧
      w'.currIovWritten = w.currIovWritten + bs.length ∧ w'.totalWritten = w.totalWritten + bs.length ∧ w'.out = w.out ++ bs := by
  obtain ⟨e, he, rfl⟩ := hw.piece hn
  obtain ⟨iov, hwrite, hflat, hlens⟩ := Pieces.write_flatten he hroom
  rw [start_eq, hw.lengths, ← hw.total] at hflat
  have hin : w.totalWritten + bs.length ≤ w.iov.flatten.length := by
    have hsum := sum_take_succ hn
    have hall := sum_take_le lens (w.currIovIndex + 1)
    rw [hw.length_flatten, hw.total]
    omega
  obtain ⟨m', hwrite', hlen', htake⟩ := take_write hin
  obtain rfl := Option.some.inj (hwrite'.symm.trans hflat)
  refine ⟨{ w with iov := iov, currIovWritten := w.currIovWritten + bs.length, totalWritten := w.totalWritten + bs.length },
    by rw [IOVecWriter.put, hwrite]; rfl, ⟨hlens.trans hw.lengths, hw.outputLimit, ⟨e.length, hn, hroom⟩, ?_, hlimit⟩, rfl, rfl, rfl, htake⟩
  rw [hw.total, Nat.add_assoc]

/-- **The next buffer** begins where a full one ends. -/
theorem nextIov (hw : w.Ok limit lens) {n : ℕ} (hn : lens[w.currIovIndex]? = some n) (hfull : n ≤ w.currIovWritten) :
    (w.nextIov = none ∧ w.totalWritten = lens.sum) ∨ ∃ w', w.nextIov = some w' ∧ w'.Ok limit lens ∧ w'.currIovIndex = w.currIovIndex + 1 ∧
      w'.currIovWritten = 0 ∧ w'.totalWritten = w.totalWritten ∧ w'.out = w.out := by
  obtain ⟨n', hn', hle⟩ := hw.written_le
  obtain rfl := Option.some.inj (hn.symm.trans hn')
  have hsum := sum_take_succ hn
  have htotal := hw.total
  rw [IOVecWriter.nextIov, hw.length_iov]
  by_cases hlast : lens.length ≤ w.currIovIndex + 1
  · rw [if_pos hlast]
    rw [take_of_length_le hlast] at hsum
    exact Or.inl ⟨rfl, by omega⟩
  · rw [if_neg hlast]
    refine Or.inr ⟨_, rfl, ⟨hw.lengths, hw.outputLimit, ?_, ?_, hw.total_le⟩, rfl, rfl, rfl, rfl⟩
    · exact ⟨_, List.getElem?_eq_getElem (show w.currIovIndex + 1 < lens.length by omega), Nat.zero_le _⟩
    · show w.totalWritten = (lens.take (w.currIovIndex + 1)).sum + 0
      omega

theorem advance (hw : w.Ok limit lens) {n : ℕ} (hn : lens[w.currIovIndex]? = some n) :
    ((if n ≤ w.currIovWritten then w.nextIov else some w) = none ∧ w.totalWritten = lens.sum) ∨
      ∃ w', (if n ≤ w.currIovWritten then w.nextIov else some w) = some w' ∧ w'.Ok limit lens ∧ w'.totalWritten = w.totalWritten ∧ w'.out = w.out ∧
        (w'.currIovIndex = w.currIovIndex + 1 ∨ w'.currIovIndex = w.currIovIndex ∧ w'.currIovWritten < n) := by
  by_cases hfull : n ≤ w.currIovWritten
  · rw [if_pos hfull]
    rcases hw.nextIov hn hfull with hlast | ⟨w', hnext, hw', hindex, -, htotal, hout⟩
    · exact Or.inl hlast
    · exact Or.inr ⟨w', hnext, hw', htotal, hout, Or.inl hindex⟩
  · rw [if_neg hfull]
    exact Or.inr ⟨w, rfl, hw, rfl, rfl, Or.inr ⟨rfl, by omega⟩⟩

end Ok

/-- **The loop of `Append`.** -/
theorem appendLoop_spec : ∀ {fuel : ℕ} {ip : Bytes} {w : IOVecWriter}, w.Ok limit lens → w.totalWritten + ip.length ≤ limit →
    ip.length + (lens.length - w.currIovIndex) ≤ fuel → ∃ b w', appendLoop fuel ip w = some (b, w') ∧ w'.Ok limit lens ∧
      w.currIovIndex ≤ w'.currIovIndex ∧ w.totalWritten ≤ w'.totalWritten ∧
      (w.totalWritten + ip.length ≤ lens.sum → b = true ∧ w'.totalWritten = w.totalWritten + ip.length ∧ w'.out = w.out ++ ip) := by
  intro fuel
  induction fuel with
  | zero =>
    intro ip w hw _ hfuel
    exact absurd hw.index_lt (by omega)
  | succ fuel ih =>
    intro ip w hw hlimit hfuel
    by_cases hempty : ip = []
    · subst hempty
      refine ⟨true, w, by rw [appendLoop, if_pos rfl], hw, Nat.le_refl _, Nat.le_refl _, fun _ => ⟨rfl, rfl, (append_nil _).symm⟩⟩
    have hpos := length_pos_iff.2 hempty
    obtain ⟨n, hn, hle⟩ := hw.written_le
    rw [appendLoop, if_neg hempty, hw.iovLen, hn, bind_some]
    rcases hw.advance hn with ⟨hnone, hfull⟩ | ⟨w₁, hsome, hw₁, htotal₁, hout₁, hmoved⟩
    · rw [hnone]
      exact ⟨false, w, rfl, hw, Nat.le_refl _, Nat.le_refl _, fun hroom => absurd hroom (by omega)⟩
    rw [hsome]
    obtain ⟨n₁, hn₁, hle₁⟩ := hw₁.written_le
    have hlen : (ip.take (min ip.length (n₁ - w₁.currIovWritten))).length = min ip.length (n₁ - w₁.currIovWritten) := by
      rw [length_take, Nat.min_eq_left (Nat.min_le_left _ _)]
    obtain ⟨w₂, hput, hw₂, hindex₂, hwritten₂, htotal₂, hout₂⟩ := @Ok.put limit lens w₁ hw₁ n₁ hn₁ (ip.take (min ip.length (n₁ - w₁.currIovWritten)))
      (by omega) (by omega)
    have hdrop : (ip.drop (min ip.length (n₁ - w₁.currIovWritten))).length = ip.length - min ip.length (n₁ - w₁.currIovWritten) := length_drop
    have hprogress : w₁.currIovIndex = w.currIovIndex + 1 ∨ w₁.currIovIndex = w.currIovIndex ∧ 0 < min ip.length (n₁ - w₁.currIovWritten) := by
      rcases hmoved with h | ⟨h, hlt⟩
      · exact Or.inl h
      · rw [h, hn] at hn₁
        obtain rfl := Option.some.inj hn₁
        exact Or.inr ⟨h, by omega⟩
    have hindex₁ := hw₁.index_lt
    obtain ⟨b, w', hloop, hw', hindex', htotal', hgood⟩ := @ih (ip.drop (min ip.length (n₁ - w₁.currIovWritten))) w₂ hw₂ (by omega) (by omega)
    show ∃ b w', ((w₁.iovLen w₁.currIovIndex).bind fun n => _) = _ ∧ _
    rw [hw₁.iovLen, hn₁, bind_some]
    dsimp only
    rw [hput, bind_some]
    refine ⟨b, w', hloop, hw', by omega, by omega, fun hroom => ?_⟩
    obtain ⟨hb, htotal, hout⟩ := hgood (by omega)
    refine ⟨hb, by omega, ?_⟩
    rw [hout, hout₂, hout₁, append_assoc, take_append_drop]

theorem append_spec (hw : w.Ok limit lens) (ip : Bytes) : ∃ b w', w.append ip = some (b, w') ∧ w'.Ok limit lens ∧ w.currIovIndex ≤ w'.currIovIndex ∧
    w.totalWritten ≤ w'.totalWritten ∧ (limit < w.totalWritten + ip.length → b = false) ∧
    (w.totalWritten + ip.length ≤ limit → w.totalWritten + ip.length ≤ lens.sum →
      b = true ∧ w'.totalWritten = w.totalWritten + ip.length ∧ w'.out = w.out ++ ip) := by
  rw [IOVecWriter.append, hw.outputLimit]
  by_cases hover : limit < w.totalWritten + ip.length
  · rw [if_pos hover]
    exact ⟨false, w, rfl, hw, Nat.le_refl _, Nat.le_refl _, fun _ => rfl, fun h => absurd hover (Nat.not_lt.2 h)⟩
  · rw [if_neg hover]
    obtain ⟨b, w', hloop, hw', hindex', htotal', hgood⟩ := @appendLoop_spec limit lens (ip.length + w.iov.length + 1) ip w hw (by omega)
      (by rw [hw.length_iov]; omega)
    exact ⟨b, w', hloop, hw', hindex', htotal', fun h => absurd h hover, fun _ => hgood⟩

/-- **Where a copy comes from**: the place so far back in the whole block. -/
theorem locate_spec (hw : w.Ok limit lens) : ∀ {i o offset n : ℕ}, lens[i]? = some n → o ≤ n → 0 < offset → offset ≤ (lens.take i).sum + o →
    ∃ i' o' n', w.locate i o offset = some (i', o') ∧ i' ≤ i ∧ lens[i']? = some n' ∧ o' ≤ n' ∧
      (lens.take i').sum + o' + offset = (lens.take i).sum + o := by
  intro i
  induction i with
  | zero =>
    intro o offset n hn ho hpos hback
    rw [take_zero, sum_nil, Nat.zero_add] at hback
    rw [locate, if_neg (by omega), if_pos hback]
    exact ⟨0, o - offset, n, rfl, Nat.le_refl _, hn, by omega, by omega⟩
  | succ i ih =>
    intro o offset n hn ho hpos hback
    by_cases hin : offset ≤ o
    · rw [locate, if_neg (by omega), if_pos hin]
      exact ⟨i + 1, o - offset, n, rfl, Nat.le_refl _, hn, by omega, by omega⟩
    · have hi : i < lens.length := by
        have hlt := (List.getElem?_eq_some_iff.1 hn).1
        omega
      have hn' := List.getElem?_eq_getElem hi
      have hsum := sum_take_succ hn'
      obtain ⟨i', o', n', hlocate, hi', hlen', ho', hplace⟩ := ih hn' (Nat.le_refl _) (show 0 < offset - o by omega) (by omega)
      refine ⟨i', o', n', ?_, by omega, hlen', ho', by omega⟩
      rw [locate, if_neg (by omega), if_neg hin, hw.iovLen, hn', bind_some]
      exact hlocate

theorem Ok.read (hw : w.Ok limit lens) {i o n k : ℕ} (hn : lens[i]? = some n) (hk : o + k ≤ n) :
    ∃ bs, Pieces.read w.iov i o k = some bs ∧ bs.length = k ∧
      ((lens.take i).sum + o + k ≤ w.totalWritten → bs = (w.out.drop ((lens.take i).sum + o)).take k) := by
  obtain ⟨e, he, rfl⟩ := hw.piece hn
  obtain ⟨bs, hread, hflat⟩ := Pieces.read_flatten he hk
  rw [start_eq, hw.lengths, Memory.read] at hflat
  have hsum := sum_take_succ hn
  have hall := sum_take_le lens (i + 1)
  have hflatten := hw.length_flatten
  rw [if_pos (by omega)] at hflat
  obtain rfl := Option.some.inj hflat
  refine ⟨_, hread, ?_, fun hin => ?_⟩
  · rw [length_take, length_drop]
    omega
  · rw [out, drop_take, take_take, Nat.min_eq_left (by omega)]

/-- What a copy is worth: the writer has as much of it. -/
def Copying (d : ℕ) (old : Bytes) (k : ℕ) (w : IOVecWriter) : Prop := w.out = copyBack d k old

theorem Copying.step {d k n pos : ℕ} {old bs : Bytes} {w w' : IOVecWriter} (hc : Copying d old k w) (hd : 0 < d) (h : d ≤ old.length)
    (hpos : pos + d = w.out.length) (hn : n ≤ d) (hbs : bs = (w.out.drop pos).take n) (hout : w'.out = w.out ++ bs) : Copying d old (k + n) w' := by
  have hlen : w.out.length = old.length + k := by rw [hc, length_copyBack hd h]
  rw [Copying, hout, hbs, copyBack_add hd h (dvd_refl d) (by omega) hn, ← hc, show old.length + k - d = pos by omega]

/-- **`IncrementalCopy`** in one buffer. -/
theorem copyBytes_spec : ∀ {len o n : ℕ} {w : IOVecWriter}, w.Ok limit lens → lens[w.currIovIndex]? = some n → w.currIovWritten + len ≤ n →
    o ≤ w.currIovWritten → w.totalWritten + len ≤ limit → ∃ w', copyBytes len w.currIovIndex o w = some w' ∧ w'.Ok limit lens ∧
      w'.currIovIndex = w.currIovIndex ∧ w'.currIovWritten = w.currIovWritten + len ∧ w'.totalWritten = w.totalWritten + len ∧
      ∀ (d k : ℕ) (old : Bytes), 0 < d → d ≤ old.length → o + d = w.currIovWritten → Copying d old k w → Copying d old (k + len) w' := by
  intro len
  induction len with
  | zero => exact fun hw _ _ _ _ => ⟨_, rfl, hw, rfl, rfl, rfl, fun d k old _ _ _ hc => hc⟩
  | succ len ih =>
    intro o n w hw hn hroom ho hlimit
    obtain ⟨bs, hread, hone, hbs⟩ := @Ok.read limit lens w hw w.currIovIndex o n 1 hn (by omega)
    obtain ⟨w₁, hput, hw₁, hindex₁, hwritten₁, htotal₁, hout₁⟩ := hw.put hn (show w.currIovWritten + bs.length ≤ n by omega) (by omega)
    rw [← hindex₁] at hn
    obtain ⟨w', hcopy, hw', hindex', hwritten', htotal', hgood⟩ := @ih (o + 1) n w₁ hw₁ hn (by omega) (by omega) (by omega)
    refine ⟨w', ?_, hw', by omega, by omega, by omega, fun d k old hd h hback hc => ?_⟩
    · rw [copyBytes, hread, bind_some, hput, bind_some, ← hindex₁]
      exact hcopy
    · have htotal := hw.total
      have hlen := hw.length_out
      have hpos : (lens.take w.currIovIndex).sum + o + d = w.out.length := by omega
      have hstep : Copying d old (k + 1) w₁ := hc.step hd h hpos hd (hbs (by omega)) hout₁
      have hrest := hgood d (k + 1) old hd h (by omega) hstep
      rwa [show k + (len + 1) = k + 1 + len by omega]

theorem min_room {n o len m : ℕ} (h : min (n - o) len = m) (ho : o ≤ n) : m ≤ len ∧ o + m ≤ n ∧ (m = len ∨ o + m = n) := by omega

/-- **The loop of `AppendFromSelf`.** What it copies is what is so far back, as long as there is room. -/
theorem copyLoop_spec : ∀ {fuel i o len n : ℕ} {w : IOVecWriter}, w.Ok limit lens → i ≤ w.currIovIndex → lens[i]? = some n → o ≤ n →
    (lens.take i).sum + o ≤ w.totalWritten → w.totalWritten + len ≤ limit → len + (lens.length - i) + (lens.length - w.currIovIndex) ≤ fuel →
    ∃ b w', copyLoop fuel i o len w = some (b, w') ∧ w'.Ok limit lens ∧
      ∀ (d k : ℕ) (old : Bytes), 0 < d → d ≤ old.length → (lens.take i).sum + o + d = w.totalWritten → w.totalWritten + len ≤ lens.sum →
        Copying d old k w → b = true ∧ Copying d old (k + len) w' := by
  intro fuel
  induction fuel with
  | zero =>
    intro i o len n w hw _ _ _ _ _ hfuel
    exact absurd hw.index_lt (by omega)
  | succ fuel ih =>
    intro i o len n w hw hi hn ho hplace hlimit hfuel
    have hindex := hw.index_lt
    have htotal := hw.total
    have hlen := hw.length_out
    by_cases hzero : len = 0
    · subst hzero
      exact ⟨true, w, by rw [copyLoop, if_pos rfl], hw, fun d k old _ _ _ _ hc => ⟨rfl, hc⟩⟩
    by_cases hother : i ≠ w.currIovIndex
    · -- from a buffer before the one where the writer is
      obtain ⟨m, hm⟩ : ∃ m, min (n - o) len = m := ⟨_, rfl⟩
      obtain ⟨hmlen, hmn, hmor⟩ := min_room hm ho
      have hbefore : (lens.take (i + 1)).sum ≤ (lens.take w.currIovIndex).sum := sum_take_mono (by omega)
      have hsum := sum_take_succ hn
      obtain ⟨bs, hread, hbsLen, hbs⟩ := @Ok.read limit lens w hw i o n (m) hn (by omega)
      obtain ⟨b₁, w₁, happend, hw₁, hindex₁, htotal₁, -, hgood₁⟩ := append_spec hw bs
      rw [hbsLen] at hgood₁
      have hunfold : copyLoop (fuel + 1) i o len w =
          if 0 < len - m then copyLoop fuel (i + 1) 0 (len - m) w₁ else copyLoop fuel i o (len - m) w₁ := by
        rw [copyLoop, if_neg hzero, if_pos hother, hw.iovLen, hn, bind_some]
        dsimp only
        rw [hm, hread, bind_some, happend]
        rfl
      rw [hunfold]
      have hstep : ∀ (d k : ℕ) (old : Bytes), 0 < d → d ≤ old.length → (lens.take i).sum + o + d = w.totalWritten → w.totalWritten + len ≤ lens.sum →
          Copying d old k w → w₁.totalWritten = w.totalWritten + m ∧ Copying d old (k + m) w₁ := by
        intro d k old hd h hback hroom hc
        obtain ⟨-, hsame, hout⟩ := hgood₁ (by omega) (by omega)
        exact ⟨hsame, hc.step hd h (by omega) (by omega) (hbs (by omega)) hout⟩
      by_cases hmore : 0 < len - m
      · rw [if_pos hmore]
        have hi₁ : i + 1 < lens.length := by omega
        have hlimit₁ : w₁.totalWritten + (len - m) ≤ limit := by
          by_cases hcap : w.totalWritten + m ≤ lens.sum
          · obtain ⟨-, hsame, -⟩ := hgood₁ (by omega) hcap
            omega
          · have hcap₁ := hw₁.total_le_sum
            omega
        obtain ⟨b, w', hloop, hw', hgood⟩ := @ih (i + 1) 0 (len - m) _ w₁ hw₁ (by omega) (List.getElem?_eq_getElem hi₁) (Nat.zero_le _)
          (by omega) hlimit₁ (by omega)
        refine ⟨b, w', hloop, hw', fun d k old hd h hback hroom hc => ?_⟩
        obtain ⟨hsame, hc₁⟩ := hstep d k old hd h hback hroom hc
        obtain ⟨hb, hc'⟩ := hgood d _ old hd h (by omega) (by omega) hc₁
        rw [Nat.add_assoc, Nat.add_sub_cancel' hmlen] at hc'
        exact ⟨hb, hc'⟩
      · rw [if_neg hmore, show len - m = 0 by omega]
        have hfuel' : ∃ f, fuel = f + 1 := ⟨fuel - 1, by omega⟩
        obtain ⟨f, rfl⟩ := hfuel'
        refine ⟨true, w₁, by rw [copyLoop, if_pos rfl], hw₁, fun d k old hd h hback hroom hc => ⟨rfl, ?_⟩⟩
        obtain ⟨-, hc₁⟩ := hstep d k old hd h hback hroom hc
        rwa [show m = len by omega] at hc₁
    · -- in the same buffer
      obtain rfl : i = w.currIovIndex := not_not.1 hother
      by_cases hfull : min (n - w.currIovWritten) len = 0
      · rcases hw.nextIov hn (by omega) with ⟨hnone, hcap⟩ | ⟨w₁, hnext, hw₁, hindex₁, -, htotal₁, hout₁⟩
        · refine ⟨false, w, ?_, hw, fun d k old _ _ _ hroom _ => absurd hroom (by omega)⟩
          rw [copyLoop, if_neg hzero, if_neg hother, hw.iovLen, hn, bind_some]
          rw [if_pos hfull, hnone]
        · obtain ⟨b, w', hloop, hw', hgood⟩ := @ih w.currIovIndex o len n w₁ hw₁ (by omega) hn ho (by omega) (by omega) (by omega)
          refine ⟨b, w', ?_, hw', fun d k old hd h hback hroom hc => hgood d k old hd h (by omega) (by omega) (hout₁.trans hc)⟩
          rw [copyLoop, if_neg hzero, if_neg hother, hw.iovLen, hn, bind_some]
          dsimp only
          rw [if_pos hfull, hnext]
          exact hloop
      · obtain ⟨w₁, hcopy, hw₁, hindex₁, hwritten₁, htotal₁, hgood₁⟩ := @copyBytes_spec limit lens (min (n - w.currIovWritten) len) o n w hw hn (by omega)
          (by omega) (by omega)
        obtain ⟨b, w', hloop, hw', hgood⟩ := @ih w.currIovIndex (o + min (n - w.currIovWritten) len) (len - min (n - w.currIovWritten) len) n w₁ hw₁
          (by omega) hn (by omega) (by omega) (by omega) (by omega)
        refine ⟨b, w', ?_, hw', fun d k old hd h hback hroom hc => ?_⟩
        · rw [copyLoop, if_neg hzero, if_neg hother, hw.iovLen, hn, bind_some]
          rw [if_neg hfull, hcopy, bind_some]
          exact hloop
        · have hc₁ := hgood₁ d k old hd h (by omega) hc
          obtain ⟨hb, hc'⟩ := hgood d _ old hd h (by omega) (by omega) hc₁
          rw [show k + min (n - w.currIovWritten) len + (len - min (n - w.currIovWritten) len) = k + len by omega] at hc'
          exact ⟨hb, hc'⟩

/-- **`AppendFromSelf`.** -/
theorem appendFromSelf_spec (hw : w.Ok limit lens) (offset len : ℕ) : ∃ b w', w.appendFromSelf offset len = some (b, w') ∧ w'.Ok limit lens ∧
    ((offset = 0 ∨ w.totalWritten < offset ∨ limit < w.totalWritten + len) → b = false) ∧
    (0 < offset → offset ≤ w.totalWritten → w.totalWritten + len ≤ limit → w.totalWritten + len ≤ lens.sum →
      b = true ∧ w'.out = copyBack offset len w.out) := by
  have htotal := hw.total_le
  rw [IOVecWriter.appendFromSelf, hw.outputLimit]
  by_cases hbad : w.totalWritten < offset ∨ offset = 0
  · rw [if_pos hbad]
    exact ⟨false, w, rfl, hw, fun _ => rfl, fun hpos hin => absurd hbad (by omega)⟩
  rw [if_neg hbad]
  by_cases hover : limit - w.totalWritten < len
  · rw [if_pos hover]
    exact ⟨false, w, rfl, hw, fun _ => rfl, fun _ _ hfits => absurd hover (by omega)⟩
  rw [if_neg hover]
  obtain ⟨n, hn, hle⟩ := hw.written_le
  obtain ⟨i, o, n', hlocate, hi, hlen, ho, hplace⟩ := locate_spec hw hn hle (show 0 < offset by omega) (by rw [← hw.total]; omega)
  rw [← hw.total] at hplace
  obtain ⟨b, w', hloop, hw', hgood⟩ := @copyLoop_spec limit lens (len + 2 * w.iov.length + 2) i o len n' w hw hi hlen ho (by omega) (by omega)
    (by rw [hw.length_iov]; omega)
  have hout := hw.length_out
  refine ⟨b, w', by rw [hlocate, bind_some]; exact hloop, hw', fun h => absurd h (by omega), fun hpos hin _ hcap => ?_⟩
  obtain ⟨hb, hc⟩ := hgood offset 0 w.out hpos (by omega) (by omega) hcap rfl
  rw [Nat.zero_add] at hc
  exact ⟨hb, hc⟩

/-- **`TryFastAppend`** writes sixteen bytes, some of which count. -/
theorem fast_spec (hw : w.Ok limit lens) (ip : Bytes) (n : ℕ) : ∃ b w', iovecWriter.tryFastAppend ip n w = some (b, w') ∧ w'.Ok limit lens ∧
    (b = false → w' = w) ∧ (b = true → n ≤ 16 ∧ n + kMaximumTagLength ≤ ip.length ∧ w.totalWritten + n ≤ limit ∧ w'.out = w.out ++ ip.take n) := by
  obtain ⟨len, hlen, hle⟩ := hw.written_le
  show ∃ b w', (if n ≤ 16 ∧ 16 + kMaximumTagLength ≤ ip.length ∧ 16 ≤ w.outputLimit - w.totalWritten then
      (w.iovLen w.currIovIndex).bind fun m =>
        if 16 ≤ m - w.currIovWritten then
          ((Pieces.write w.iov w.currIovIndex w.currIovWritten (ip.take 8)).bind fun iov =>
            Pieces.write iov w.currIovIndex (w.currIovWritten + 8) ((ip.drop 8).take 8)).map fun iov =>
              (true, { w with iov := iov, currIovWritten := w.currIovWritten + n, totalWritten := w.totalWritten + n })
        else some (false, w)
    else some (false, w)) = _ ∧ _
  have hno : ∃ b w', some (false, w) = some (b, w') ∧ w'.Ok limit lens ∧ (b = false → w' = w) ∧ (b = true → n ≤ 16 ∧
      n + kMaximumTagLength ≤ ip.length ∧ w.totalWritten + n ≤ limit ∧ w'.out = w.out ++ ip.take n) :=
    ⟨false, w, rfl, hw, fun _ => rfl, fun h => absurd h Bool.false_ne_true⟩
  by_cases hfast : n ≤ 16 ∧ 16 + kMaximumTagLength ≤ ip.length ∧ 16 ≤ w.outputLimit - w.totalWritten
  swap
  · rw [if_neg hfast]
    exact hno
  rw [if_pos hfast, hw.iovLen, hlen, bind_some]
  rw [hw.outputLimit] at hfast
  by_cases hroom : 16 ≤ len - w.currIovWritten
  swap
  · rw [if_neg hroom]
    exact hno
  rw [if_pos hroom]
  obtain ⟨hn, hip, hlimit⟩ := hfast
  obtain ⟨e, he, rfl⟩ := hw.piece hlen
  have h₁ : (ip.take 8).length = 8 := by
    rw [length_take]
    omega
  have h₂ : ((ip.drop 8).take 8).length = 8 := by
    rw [length_take, length_drop]
    omega
  obtain ⟨iov₁, hwrite₁, hflat₁, hlens₁⟩ := @Pieces.write_flatten _ _ _ (ip.take 8) _ w.currIovWritten he (by omega)
  obtain ⟨e₁, he₁, helen₁⟩ : ∃ e₁, iov₁[w.currIovIndex]? = some e₁ ∧ e₁.length = e.length := by
    rw [← hw.lengths, ← hlens₁, List.getElem?_map] at hlen
    exact map_eq_some_iff.1 hlen
  obtain ⟨iov₂, hwrite₂, hflat₂, hlens₂⟩ := @Pieces.write_flatten _ _ _ ((ip.drop 8).take 8) _ (w.currIovWritten + 8) he₁ (by omega)
  rw [start_eq, hw.lengths, ← hw.total] at hflat₁
  rw [start_eq, hlens₁, hw.lengths, ← Nat.add_assoc, ← hw.total] at hflat₂
  have hsum := sum_take_succ hlen
  have hall := sum_take_le lens (w.currIovIndex + 1)
  have hflatten := hw.length_flatten
  have hplace := hw.total
  obtain ⟨m₁, hm₁, hlen₁, htake₁⟩ := @take_write w.iov.flatten (ip.take 8) w.totalWritten (by omega)
  obtain rfl := Option.some.inj (hm₁.symm.trans hflat₁)
  obtain ⟨m₂, hm₂, hlen₂, htake₂⟩ := @take_write iov₁.flatten ((ip.drop 8).take 8) (w.totalWritten + 8) (by omega)
  obtain rfl := Option.some.inj (hm₂.symm.trans hflat₂)
  rw [hwrite₁, bind_some, hwrite₂]
  refine ⟨true, ⟨iov₂, w.currIovIndex, w.currIovWritten + n, w.totalWritten + n, w.outputLimit⟩, rfl,
    ⟨hlens₂.trans (hlens₁.trans hw.lengths), hw.outputLimit, ⟨e.length, hlen, ?_⟩, ?_, ?_⟩, fun h => absurd h.symm Bool.false_ne_true, fun _ =>
    ⟨hn, by rw [kMaximumTagLength] at hip ⊢; omega, by omega, ?_⟩⟩
  · show w.currIovWritten + n ≤ e.length
    omega
  · show w.totalWritten + n = (lens.take w.currIovIndex).sum + (w.currIovWritten + n)
    omega
  · show w.totalWritten + n ≤ limit
    omega
  · have hboth : iov₂.flatten.take (w.totalWritten + 16) = w.out ++ ip.take 16 := by
      rw [h₁] at htake₁
      rw [h₂, htake₁, append_assoc, ← take_add] at htake₂
      exact htake₂
    have hcut := congrArg (List.take (w.totalWritten + n)) hboth
    rw [take_take, Nat.min_eq_left (by omega), ← hw.length_out, take_length_add_append, take_take, Nat.min_eq_left hn, hw.length_out] at hcut
    exact hcut

def Has (limit : ℕ) (lens : List ℕ) (out : Bytes) (w : IOVecWriter) : Prop := w.Ok limit lens ∧ w.out = out

end IOVecWriter

theorem iovecWriter_implements {limit : ℕ} {lens : List ℕ} (hroom : limit ≤ lens.sum) :
    Implements limit iovecWriter (IOVecWriter.Has limit lens) where
  check := by
    rintro out w ⟨hw, rfl⟩
    show decide (w.totalWritten = w.outputLimit) = _
    rw [hw.outputLimit, hw.length_out]
  length_le := by
    rintro out w ⟨hw, rfl⟩
    rw [hw.length_out]
    exact hw.total_le
  append := by
    rintro out w ip ⟨hw, rfl⟩
    obtain ⟨b, w', happend, hw', -, -, hbad, hgood⟩ := IOVecWriter.append_spec hw ip
    rw [hw.length_out]
    by_cases hfits : w.totalWritten + ip.length ≤ limit
    · obtain ⟨rfl, -, hout⟩ := hgood hfits (by omega)
      rw [upTo, decide_eq_true hfits]
      exact ⟨w', happend, fun _ => ⟨hw', hout⟩⟩
    · obtain rfl := hbad (by omega)
      rw [upTo, decide_eq_false hfits]
      exact ⟨w', happend, fun h => absurd h hfits⟩
  fast := by
    rintro out w ip n ⟨hw, rfl⟩
    obtain ⟨b, w', hfast, hw', hno, hyes⟩ := IOVecWriter.fast_spec hw ip n
    refine ⟨b, w', hfast, fun hb => ?_, fun hb => ?_⟩
    · obtain rfl := hno hb
      exact ⟨hw', rfl⟩
    · obtain ⟨hn, hip, hlimit, hout⟩ := hyes hb
      rw [hw.length_out]
      exact ⟨hn, hip, hlimit, hw', hout⟩
  self := by
    rintro out w offset len ⟨hw, rfl⟩ - -
    obtain ⟨b, w', hself, hw', hbad, hgood⟩ := IOVecWriter.appendFromSelf_spec hw offset len
    rw [hw.length_out]
    refine ⟨fun h => ?_, fun hpos hin => ?_⟩
    · obtain rfl := hbad (by omega)
      exact ⟨w', hself⟩
    · by_cases hfits : w.totalWritten + len ≤ limit
      · obtain ⟨rfl, hout⟩ := hgood hpos hin hfits (by omega)
        rw [upTo, decide_eq_true hfits]
        exact ⟨w', hself, fun _ => ⟨hw', hout⟩⟩
      · obtain rfl := hbad (by omega)
        rw [upTo, decide_eq_false hfits]
        exact ⟨w', hself, fun h => absurd h hfits⟩

end KVStores.Snappy
